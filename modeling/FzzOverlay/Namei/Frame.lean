import FzzOverlay.Namei.Lookup

/-!
# What a lookup depends on

A lookup in a directory reads the lower layers, one entry of the upper directory with its
inode, and the index entry of what it finds. So it does not see other changes of the
upper layer.
-/

namespace FzzOverlay

variable {m : Mount} {fs fs' : Layers} {p : OvlEntry} {name : List UInt8}

/-- The lower paths that a lookup may go through are those of lower layers. -/
structure LowerPaths (m : Mount) (p : OvlEntry) : Prop where
  parent : ∀ l ∈ p.lowerstack, l.idx ≠ 0
  root : ∀ l ∈ m.root, l.idx ≠ 0

/-- The lower layers are the same. -/
structure SameLower (fs fs' : Layers) : Prop where
  lookup : ∀ layer, layer ≠ 0 → fs'.lookup layer = fs.lookup layer
  inode : ∀ layer, layer ≠ 0 → fs'.inode layer = fs.inode layer

/-- An entry of an upper directory is the same, with its inode. -/
structure SameEntry (fs fs' : Layers) (dir : ℕ) (name : List UInt8) : Prop where
  lookup : fs'.lookup 0 dir name = fs.lookup 0 dir name
  inode : ∀ i, childAt fs 0 dir name = some i → fs'.inode 0 i = fs.inode 0 i

section Congr

theorem ovlLookupSingle_congr {layer base : ℕ} {d : LookupData} {name : List UInt8}
    {pre : Option (List (List UInt8))} {post : List (List UInt8)}
    (hlookup : fs'.lookup layer base name = fs.lookup layer base name)
    (hinode : ∀ i, childAt fs layer base name = some i → fs'.inode layer i = fs.inode layer i) :
    ovlLookupSingle fs' layer base d name pre post =
      ovlLookupSingle fs layer base d name pre post := by
  unfold ovlLookupSingle
  rw [hlookup]
  cases hl : fs.lookup layer base name with
  | error e => rfl
  | ok i =>
    cases i with
    | none => rfl
    | some i =>
      have hi := hinode i (by rw [childAt, hl])
      simp only [hi]

theorem lookupPath_congr {layer base : ℕ} {path : List (List UInt8)} {d : LookupData}
    (hlookup : fs'.lookup layer = fs.lookup layer) (hinode : fs'.inode layer = fs.inode layer) :
    lookupPath fs' layer path base d = lookupPath fs layer path base d := by
  induction path generalizing base d with
  | nil => rfl
  | cons name post ih =>
    have hsingle : ∀ pre, ovlLookupSingle fs' layer base d name pre post =
        ovlLookupSingle fs layer base d name pre post := fun pre =>
      ovlLookupSingle_congr (by rw [hlookup]) fun i _ => by rw [hinode]
    rw [lookupPath, lookupPath, hsingle, hinode]
    simp only [ih]

theorem ovlLookupLayer_congr {layer base : ℕ} {d : LookupData} (h : SameLower fs fs')
    (hlayer : layer ≠ 0) : ovlLookupLayer fs' layer base d = ovlLookupLayer fs layer base d := by
  have hlookup := h.lookup layer hlayer
  have hinode := h.inode layer hlayer
  unfold ovlLookupLayer
  split
  · exact ovlLookupSingle_congr (by rw [hlookup]) fun i _ => by rw [hinode]
  · exact lookupPath_congr hlookup hinode

variable {up : UpperLookup}

theorem lowerPass_congr {l : LowerPath} {rest : List LowerPath} {st : LowerLookup}
    (h : SameLower fs fs') (hl : l.idx ≠ 0) :
    lowerPass m fs' up l rest st = lowerPass m fs up l rest st := by
  unfold lowerPass
  rw [ovlLookupLayer_congr h hl]

theorem rootLoop_congr {ls : List LowerPath} {st : LowerLookup} (h : SameLower fs fs')
    (hls : ∀ l ∈ ls, l.idx ≠ 0) : rootLoop m fs' up ls st = rootLoop m fs up ls st := by
  induction ls generalizing st with
  | nil => rfl
  | cons l ls ih =>
    rw [rootLoop, rootLoop, lowerPass_congr h (hls l List.mem_cons_self)]
    simp only [ih fun l' hl' => hls l' (List.mem_cons_of_mem _ hl')]

theorem poeLoop_congr {ls : List LowerPath} {st : LowerLookup} (h : SameLower fs fs')
    (hroot : ∀ l ∈ m.root, l.idx ≠ 0) (hls : ∀ l ∈ ls, l.idx ≠ 0) :
    poeLoop m fs' up ls st = poeLoop m fs up ls st := by
  induction ls generalizing st with
  | nil => rfl
  | cons l ls ih =>
    have hdrop : ∀ st, rootLoop m fs' up (m.root.drop l.idx) st =
        rootLoop m fs up (m.root.drop l.idx) st := fun st =>
      rootLoop_congr h fun l' hl' => hroot l' (List.mem_of_mem_drop hl')
    rw [poeLoop, poeLoop, lowerPass_congr h (hls l List.mem_cons_self)]
    simp only [ih fun l' hl' => hls l' (List.mem_cons_of_mem _ hl'), hdrop]

theorem lookupUpper_congr (h : ∀ u, p.upper = some u → SameEntry fs fs' u name) :
    lookupUpper m fs' p name = lookupUpper m fs p name := by
  unfold lookupUpper
  cases hu : p.upper with
  | none => rfl
  | some u =>
    have hsingle : ovlLookupLayer fs' 0 u (initData m p name) =
        ovlLookupLayer fs 0 u (initData m p name) :=
      ovlLookupSingle_congr (h u hu).lookup (h u hu).inode
    simp only [hsingle]

/-- A lookup is the same when the lower layers and the entry of the upper directory are. -/
theorem ovlLookup_congr (hpaths : LowerPaths m p) (hlower : SameLower fs fs')
    (hupper : ∀ u, p.upper = some u → SameEntry fs fs' u name)
    (hindex : ∀ u o i, m.lookupIndex u o = .ok (some i) →
      (fs'.inode 0 i).redirect = (fs.inode 0 i).redirect) :
    ovlLookup m fs' p name = ovlLookup m fs p name := by
  have hloop : ∀ up, lookupLower m fs' p up = lookupLower m fs p up := by
    intro up
    simp only [lookupLower, poeLoop_congr hlower hpaths.root hpaths.parent,
      rootLoop_congr hlower hpaths.root]
  have hred : ∀ up st stack index, lookupIndexOf m up st stack = .ok index →
      lookupRedirect fs' up index = lookupRedirect fs up index := by
    intro up st stack index hi
    unfold lookupRedirect
    split
    · next i hup =>
      simp only [lookupIndexOf] at hi
      split at hi
      · cases hi
      split at hi
      · exact hindex _ _ _ hi
      · cases hi
    · rfl
  unfold ovlLookup
  rw [lookupUpper_congr hupper]
  simp only [hloop]
  split
  · rfl
  refine bind_congr fun up => bind_congr fun st => bind_congr fun stack => ?_
  cases hi : lookupIndexOf m up st stack with
  | error e => rfl
  | ok index =>
    change lookupRedirect fs' up index >>= _ = lookupRedirect fs up index >>= _
    rw [hred up st stack index hi]

end Congr

section Index

/-- The lookups of the index differ only for one lower inode, if for any. -/
structure SameIndex (origin : Option LowerPath) (m m' : Mount) : Prop where
  rest : m' = { m with lookupIndex := m'.lookupIndex }
  lookup : ∀ u o, some o ≠ origin → m'.lookupIndex u o = m.lookupIndex u o

theorem SameIndex.refl (origin : Option LowerPath) (m : Mount) : SameIndex origin m m :=
  ⟨rfl, fun _ _ _ => rfl⟩

variable {m' : Mount} {origin : Option LowerPath} {up : UpperLookup}

section Loops

variable (f : Option ℕ → LowerPath → Except Errno (Option ℕ))

theorem rootLoop_index (ls : List LowerPath) (st : LowerLookup) :
    rootLoop { m with lookupIndex := f } fs up ls st = rootLoop m fs up ls st := by
  induction ls generalizing st with
  | nil => rfl
  | cons l ls ih =>
    have hpass : lowerPass { m with lookupIndex := f } fs up l ls st =
        lowerPass m fs up l ls st := rfl
    rw [rootLoop, rootLoop, hpass]
    simp only [ih]

theorem poeLoop_index (ls : List LowerPath) (st : LowerLookup) :
    poeLoop { m with lookupIndex := f } fs up ls st = poeLoop m fs up ls st := by
  induction ls generalizing st with
  | nil => rfl
  | cons l ls ih =>
    have hpass : lowerPass { m with lookupIndex := f } fs up l ls st =
        lowerPass m fs up l ls st := rfl
    rw [poeLoop, poeLoop, hpass]
    simp only [ih, rootLoop_index]

theorem lookupLower_index (p : OvlEntry) (up : UpperLookup) :
    lookupLower { m with lookupIndex := f } fs p up = lookupLower m fs p up := by
  simp only [lookupLower, poeLoop_index, rootLoop_index]

end Loops

/-- The origin that the loop verified is the first on the stack. -/
def OriginFirst (st : LowerLookup) : Prop :=
  ∀ o, st.origin = some o → st.stack.head? = some o

theorem lowerPass_originFirst (l : LowerPath) (rest : List LowerPath) (st : LowerLookup)
    (q : LowerPass) (hst : OriginFirst st) (h : lowerPass m fs up l rest st = .ok q) :
    OriginFirst q.st := by
  obtain ⟨d, res, -, ⟨-, rfl⟩ | ⟨ino, -, -, -, -, -, rfl⟩ | ⟨ino, o, -, ho, h⟩⟩ := lowerPass_ok h
  · exact hst
  · exact hst
  · have hpush : ∀ x, o = some x → (st.stack ++ [(⟨l.idx, ino⟩ : LowerPath)]).head? = some x := by
      intro x hx
      obtain rfl | ⟨hnil, rfl⟩ := ho
      · rw [List.head?_append, hst x hx]
        rfl
      · rw [hnil, ← Option.some.inj hx]
        rfl
    cases stackThis_cases h with
    | skip _ hne =>
      obtain rfl | ⟨hnil, -⟩ := ho
      · exact hst
      · exact absurd hnil hne
    | stop => exact hpush
    | toRoot => exact hpush
    | next => exact hpush

theorem lookupLower_originFirst {st : LowerLookup} (h : lookupLower m fs p up = .ok st) :
    OriginFirst st := by
  have h₀ : OriginFirst ⟨up.d, [], none, up.metacopy⟩ := fun o ho => by cases ho
  unfold lookupLower at h
  split at h
  · exact rootLoop_invariant lowerPass_originFirst h₀ h
  · exact poeLoop_invariant lowerPass_originFirst h₀ h

/-- The index is looked up for the first lower inode of the dentry. -/
theorem head?_of_lookupOrigin {st : LowerLookup} {stack : List LowerPath} {o : LowerPath}
    (hst : OriginFirst st) (hstack : lookupStack m up st = .ok stack)
    (h : lookupOrigin up st stack = some o) : stack.head? = some o := by
  unfold lookupOrigin at h
  split at h
  · exact h
  have hhead := hst o h
  have hne : st.stack ≠ [] := by
    intro hnil
    rw [hnil] at hhead
    cases hhead
  unfold lookupStack at hstack
  split at hstack
  · split at hstack
    · cases hstack
    split at hstack
    · cases hstack
    · rwa [← Except.ok.inj hstack]
  · split at hstack
    · next hfile => exact absurd hfile.2.2 hne
    · rwa [← Except.ok.inj hstack]

section Results

variable {r r' : Found}

/-- A lookup is the same when the index changes for another lower inode. -/
theorem ovlLookup_of_sameIndex (hindex : SameIndex origin m m')
    (h : ovlLookup m fs p name = .ok r)
    (hne : ∀ o, r.entry.lowerstack.head? = some o → some o ≠ origin) :
    ovlLookup m' fs p name = .ok r := by
  obtain ⟨hlen, up, st, stack, index, redirect, hup, hst, hstack, hi, hred, hr, hinode⟩ :=
    ovlLookup_eq_ok.mp h
  have hi' : lookupIndexOf m' up st stack = .ok index := by
    rw [← hi, lookupIndexOf, lookupIndexOf]
    cases ho : lookupOrigin up st stack with
    | none => rfl
    | some o =>
      have hhead := head?_of_lookupOrigin (lookupLower_originFirst hst) hstack ho
      have hsame : ∀ u, m'.lookupIndex u o = m.lookupIndex u o := fun u =>
        hindex.lookup u o (hne o (by rw [hr]; exact hhead))
      rw [hindex.rest]
      simp only [hsame]
  refine ovlLookup_eq_ok.mpr ?_
  rw [hindex.rest] at hi' ⊢
  refine ⟨hlen, up, st, stack, index, redirect, hup, ?_, hstack, hi', hred, hr, hinode⟩
  rw [lookupLower_index]
  exact hst

/-- Whatever the index has, only a dentry without an alias in the upper directory can be
found differently, and only by its upper inode. -/
theorem ovlLookup_index_eq (hindex : SameIndex origin m m')
    (h : ovlLookup m fs p name = .ok r) (h' : ovlLookup m' fs p name = .ok r') :
    r'.entry.lowerstack = r.entry.lowerstack ∧ r'.upperAlias = r.upperAlias ∧
      r'.isOpaque = r.isOpaque ∧ (r.upperAlias = true → r' = r) := by
  obtain ⟨-, up, st, stack, index, redirect, hup, hst, hstack, -, hred, rfl, -⟩ :=
    ovlLookup_eq_ok.mp h
  obtain ⟨-, up', st', stack', index', redirect', hup', hst', hstack', -, hred', rfl, -⟩ :=
    ovlLookup_eq_ok.mp h'
  rw [hindex.rest] at hup' hst' hstack'
  rw [lookupLower_index] at hst'
  obtain rfl : up = up' := Except.ok.inj (hup.symm.trans hup')
  obtain rfl : st = st' := Except.ok.inj (hst.symm.trans hst')
  obtain rfl : stack = stack' := Except.ok.inj (hstack.symm.trans hstack')
  refine ⟨rfl, rfl, rfl, fun halias => ?_⟩
  obtain ⟨u, hu⟩ := Option.isSome_iff_exists.mp halias
  have hredirect : ∀ i, lookupRedirect fs up i = .ok up.d.redirect := by
    intro i
    unfold lookupRedirect
    rw [hu]
  rw [hredirect] at hred hred'
  rw [← Except.ok.inj hred, ← Except.ok.inj hred', hu]
  rfl

end Results

end Index

end FzzOverlay

import FzzOverlay.Namei.Resolve

/-!
# Looking a directory up again

The loops of `ovl_lookup` over the lower layers find the directories that `findIn` and
`findRoot` say, unless the first of them is refused because it is not the origin. So an
absolute path that is put together from the names and redirects of dentries stands for
the lower directories of the last one.
-/

namespace FzzOverlay

-- ════════════════════════════════════════════════════════════════════════
-- One pass
-- ════════════════════════════════════════════════════════════════════════

section Pass

variable {m : Mount} {fs : Layers} {up : UpperLookup} {l : LowerPath} {rest : List LowerPath}
  {st : LowerLookup} {last : Bool} {name : Redirect}

/-- How a pass ends that stacks a directory. -/
def endPass (st : LowerLookup) (name : Redirect) (stop : Bool) : LowerPass :=
  if stop then .break st else if name.isAbs then .toRoot st else .next st

/-- What a pass makes of what the layer has for a directory: nothing is there, or the
directory is refused, or it is stacked. -/
inductive DirPass (m : Mount) (up : UpperLookup) (l : LowerPath) (st : LowerLookup)
    (d : LookupData) : Option ℕ × Redirect × Bool → LowerPass → Prop
  | absent {name : Redirect} {stop : Bool} :
      DirPass m up l st d (none, name, stop) (.next { st with d := d })
  | refused {i : ℕ} {name : Redirect} {stop : Bool} (hrefuses : RefusesOrigin m up ⟨l.idx, i⟩)
      (hstack : st.stack = []) :
      DirPass m up l st d (some i, name, stop) (.break { st with d := d })
  | stacked {i : ℕ} {name : Redirect} {stop : Bool} (origin : Option LowerPath) :
      DirPass m up l st d (some i, name, stop)
        (endPass ⟨d, st.stack ++ [⟨l.idx, i⟩], origin, st.metacopy⟩ name stop)

theorem lowerLast_of_follow (hfollow : m.redirectFollow = true) :
    lowerLast m l rest = lastLayer m l := by
  simp [lowerLast, hfollow, lastLayer]

theorem DirData.withLast {d : LookupData} {stop : Bool} (h : DirData d last name stop)
    (b : Bool) : DirData { d with last := b } b name stop :=
  ⟨h.redirect, h.isDir, h.metacopy, rfl, h.name, h.stop⟩

/-- What a pass did that looked for a directory. -/
theorem lowerPass_dir {p : LowerPass} (hfollow : m.redirectFollow = true)
    (hd : DirData st.d last name false) (h : lowerPass m fs up l rest st = .ok p) :
    ∃ r d, dirLayer fs l.idx l.ino (lastLayer m l) name = .ok r ∧
      DirData d (lastLayer m l) r.2.1 r.2.2 ∧ DirPass m up l st d r p := by
  have hagrees := ovlLookupLayer_dir fs l.idx l.ino
    (hd.withLast (lastLayer m l))
  obtain ⟨d, res, hlook, hpass⟩ := lowerPass_ok h
  rw [lowerLast_of_follow hfollow] at hlook
  rw [hlook] at hagrees
  cases hr : dirLayer fs l.idx l.ino (lastLayer m l) name with
  | error e =>
    rw [hr] at hagrees
    cases hagrees
  | ok r =>
    obtain ⟨res', name', stop⟩ := r
    rw [hr] at hagrees
    obtain ⟨d', hd', hdata⟩ := hagrees
    cases hd'
    refine ⟨_, d, rfl, hdata, ?_⟩
    obtain ⟨rfl, rfl⟩ | ⟨i, rfl, -, hstack, -, hrefuses, rfl⟩ | ⟨i, origin, rfl, -, hthis⟩ := hpass
    · exact .absent
    · exact .refused hrefuses hstack
    · have hstacked : DirPass m up l st d (some i, name', stop)
          (endPass ⟨d, st.stack ++ [⟨l.idx, i⟩], origin, st.metacopy⟩ name' stop) :=
        .stacked origin
      have hmc : (st.metacopy || d.metacopy) = st.metacopy := by
        rw [hdata.metacopy, Bool.or_false]
      cases stackThis_cases hthis with
      | skip hmeta => exact absurd (hdata.metacopy.symm.trans hmeta) Bool.false_ne_true
      | stop _ _ hstop =>
        have hs : stop = true := hdata.stop.symm.trans hstop
        rw [hmc]
        rwa [endPass, if_pos hs] at hstacked
      | toRoot _ _ hstop habs =>
        have hs : ¬ stop = true := by
          rw [← hdata.stop, hstop]
          exact Bool.false_ne_true
        rw [hmc]
        rwa [endPass, if_neg hs, if_pos (hdata.redirect.symm.trans habs)] at hstacked
      | next _ _ hstop habs =>
        have hs : ¬ stop = true := by
          rw [← hdata.stop, hstop]
          exact Bool.false_ne_true
        have hrel : ¬ name'.isAbs = true := by
          rw [← hdata.redirect, habs]
          exact Bool.false_ne_true
        rw [hmc]
        rwa [endPass, if_neg hs, if_neg hrel] at hstacked

/-- A pass that looks for a directory succeeds if the layer can be read and the origin can
be stored. -/
theorem lowerPass_of_dir (rest : List LowerPath) {r : Option ℕ × Redirect × Bool}
    (hfollow : m.redirectFollow = true)
    (hd : DirData st.d last name false) (hfix : ∀ u l, up.upper = some u → m.fixOrigin u l = none)
    (h : dirLayer fs l.idx l.ino (lastLayer m l) name = .ok r) :
    ∃ d p, lowerPass m fs up l rest st = .ok p ∧ DirData d (lastLayer m l) r.2.1 r.2.2 ∧
      DirPass m up l st d r p := by
  have hagrees := ovlLookupLayer_dir fs l.idx l.ino
    (hd.withLast (lastLayer m l))
  obtain ⟨res, name', stop⟩ := r
  rw [h] at hagrees
  obtain ⟨d, hlook, hdata⟩ := hagrees
  have hthis : ∀ i origin, res = some i → lowerPass.stackThis m st d ⟨l.idx, i⟩ origin =
      .ok (endPass ⟨d, st.stack ++ [⟨l.idx, i⟩], origin, st.metacopy⟩ name' stop) := by
    intro i origin _
    unfold lowerPass.stackThis endPass
    have hred := hdata.redirect
    simp only [hdata.metacopy, hdata.stop, hfollow, hred, Bool.or_false, Bool.false_eq_true,
      false_and, if_false, Bool.not_true, and_false]
    split
    · rfl
    split
    · rfl
    · rfl
  unfold lowerPass
  rw [lowerLast_of_follow hfollow, hlook]
  cases res with
  | none => exact ⟨d, _, rfl, hdata, .absent⟩
  | some i =>
    simp only
    split
    · next u hu hs =>
      have hfixed : (if (!m.noxattr) = true ∧ d.isDir = true then
          m.fixOrigin u ⟨l.idx, i⟩ else none) = none := by
        split
        · exact hfix u _ hu
        · rfl
      simp only [hfixed]
      generalize hverified : (if (d.isDir && m.nfsExport && m.index ||
        !d.isDir && m.index && up.originPath.isSome) = true then
        m.verifyOrigin u ⟨l.idx, i⟩ else none) = verified
      cases verified with
      | some e =>
        simp only [hdata.isDir, if_true]
        have hrefuses : RefusesOrigin m up ⟨l.idx, i⟩ := by
          split at hverified
          · next hverify =>
            obtain ⟨hnfs, hindex⟩ : m.nfsExport = true ∧ m.index = true := by
              simpa [hdata.isDir] using hverify
            exact ⟨hnfs, hindex, u, hu, by rw [hverified]; rfl⟩
          · cases hverified
        exact ⟨d, _, rfl, hdata, .refused hrefuses (of_decide_eq_true hs)⟩
      | none => exact ⟨d, _, hthis i _ rfl, hdata, .stacked _⟩
    · exact ⟨d, _, hthis i _ rfl, hdata, .stacked _⟩

end Pass

-- ════════════════════════════════════════════════════════════════════════
-- The loops
-- ════════════════════════════════════════════════════════════════════════

/-- The first of the directories of `x` is not the origin of the upper one. -/
def FirstRefused (m : Mount) (up : UpperLookup) (x : Except Errno (List LowerPath)) : Prop :=
  ∀ found, x = .ok found → ∃ l, found.head? = some l ∧ RefusesOrigin m up l

/-- A loop stacked the directories of `x`, or none because the first was refused. -/
structure Walked (m : Mount) (up : UpperLookup) (x : Except Errno (List LowerPath))
    (st st' : LowerLookup) : Prop where
  isDir : st'.d.isDir = true
  metacopy : st'.metacopy = st.metacopy
  stack : (FirstRefused m up x ∧ st.stack = [] ∧ st'.stack = []) ∨
    ∃ found, x = .ok found ∧ st'.stack = st.stack ++ found

section Loops

variable {m : Mount} {fs : Layers} {up : UpperLookup} {l : LowerPath} {ls : List LowerPath}
  {st st' : LowerLookup} {last : Bool} {name : Redirect}

theorem Walked.nil (hd : DirData st.d last name false) : Walked m up (.ok []) st st :=
  ⟨hd.isDir, rfl, .inr ⟨[], rfl, (List.append_nil _).symm⟩⟩

theorem Walked.refused {d : LookupData} {x : Except Errno (List LowerPath)} {stop : Bool} {i : ℕ}
    (hd : DirData d last name stop) (hrefuses : RefusesOrigin m up ⟨l.idx, i⟩)
    (hstack : st.stack = []) (hx : ∀ found, x = .ok found → l.hits (some i) <+: found) :
    Walked m up x st { st with d := d } := by
  refine ⟨hd.isDir, rfl, .inl ⟨fun found hfound => ⟨⟨l.idx, i⟩, ?_, hrefuses⟩, hstack, hstack⟩⟩
  obtain ⟨rest, rfl⟩ := hx found hfound
  rfl

/-- The state after a pass that stacked what the layer has. -/
structure Stacked (l : LowerPath) (res : Option ℕ) (st st₁ : LowerLookup) : Prop where
  stack : st₁.stack = st.stack ++ l.hits res
  metacopy : st₁.metacopy = st.metacopy

theorem Stacked.absent (d : LookupData) : Stacked l none st { st with d := d } :=
  ⟨(List.append_nil _).symm, rfl⟩

theorem Stacked.push (d : LookupData) (i : ℕ) (origin : Option LowerPath) :
    Stacked l (some i) st ⟨d, st.stack ++ [⟨l.idx, i⟩], origin, st.metacopy⟩ := ⟨rfl, rfl⟩

theorem Walked.more {x : Except Errno (List LowerPath)} {res : Option ℕ} {st₁ : LowerLookup}
    (hst : Stacked l res st st₁) (h : Walked m up x st₁ st') :
    Walked m up (x.map (l.hits res ++ ·)) st st' := by
  refine ⟨h.isDir, h.metacopy.trans hst.metacopy, ?_⟩
  obtain ⟨hfirst, hnil, hstack⟩ | ⟨found, rfl, hstack⟩ := h.stack
  · rw [hst.stack, List.append_eq_nil_iff] at hnil
    refine .inl ⟨fun found hfound => ?_, hnil.1, hstack⟩
    obtain ⟨found', hfound', rfl⟩ := map_eq_ok hfound
    rw [hnil.2, List.nil_append]
    exact hfirst found' hfound'
  · refine .inr ⟨l.hits res ++ found, rfl, ?_⟩
    rw [hstack, hst.stack, List.append_assoc]

theorem Walked.here {res : Option ℕ} {stop : Bool} (hst : Stacked l res st st')
    (hd : DirData st'.d last name stop) : Walked m up (.ok (l.hits res)) st st' :=
  ⟨hd.isDir, hst.metacopy, .inr ⟨_, rfl, hst.stack⟩⟩

theorem rootLoop_of_stop (hstop : st.d.stop = true) : rootLoop m fs up ls st = .ok st := by
  cases ls with
  | nil => rfl
  | cons l ls => rw [rootLoop, if_pos hstop]

/-- What the layer has comes first. -/
theorem findRoot_hits {r : Option ℕ × Redirect × Bool} {found : List LowerPath}
    (hr : dirLayer fs l.idx l.ino (lastLayer m l) name = .ok r)
    (h : findRoot m fs name (l :: ls) = .ok found) : l.hits r.1 <+: found := by
  rw [findRoot_cons hr] at h
  split at h
  · exact Except.ok.inj h ▸ List.prefix_refl _
  · obtain ⟨rest, -, rfl⟩ := map_eq_ok h
    exact List.prefix_append _ _

theorem findIn_hits {r : Option ℕ × Redirect × Bool} {found : List LowerPath}
    (hr : dirLayer fs l.idx l.ino (lastLayer m l) name = .ok r)
    (h : findIn m fs name (l :: ls) = .ok found) : l.hits r.1 <+: found := by
  rw [findIn_cons hr] at h
  split at h
  · exact Except.ok.inj h ▸ List.prefix_refl _
  split at h
  · obtain ⟨rest, -, rfl⟩ := map_eq_ok h
    exact List.prefix_append _ _
  · obtain ⟨rest, -, rfl⟩ := map_eq_ok h
    exact List.prefix_append _ _

/-- What the loop over the root found, when it looked for a directory. -/
theorem rootLoop_dir (hfollow : m.redirectFollow = true) (hd : DirData st.d last name false)
    (h : rootLoop m fs up ls st = .ok st') : Walked m up (findRoot m fs name ls) st st' := by
  induction ls generalizing st last name with
  | nil =>
    obtain rfl := Except.ok.inj h
    exact .nil hd
  | cons l ls ih =>
    rw [rootLoop, if_neg (by rw [hd.stop]; exact Bool.false_ne_true)] at h
    cases hp : lowerPass m fs up l ls st with
    | error e =>
      rw [hp] at h
      cases h
    | ok p =>
      rw [hp] at h
      obtain ⟨r, d, hlayer, hdata, hpass⟩ := lowerPass_dir hfollow hd hp
      have hhits : ∀ found, findRoot m fs name (l :: ls) = .ok found → l.hits r.1 <+: found :=
        fun _ => findRoot_hits hlayer
      rw [findRoot_cons hlayer] at hhits ⊢
      cases hpass with
      | refused hrefuses hstack =>
        obtain rfl := Except.ok.inj h
        exact .refused hdata hrefuses hstack hhits
      | @absent name' stop =>
        cases stop with
        | true =>
          obtain rfl := Except.ok.inj ((rootLoop_of_stop hdata.stop).symm.trans h)
          exact .here (.absent d) hdata
        | false => exact .more (.absent d) (ih hdata h)
      | @stacked i name' stop origin =>
        cases stop with
        | true =>
          obtain rfl := Except.ok.inj h
          exact .here (.push d i origin) hdata
        | false =>
          refine .more (.push d i origin) (ih hdata ?_)
          rw [← h, endPass, if_neg Bool.false_ne_true]
          cases name'.isAbs <;> rfl

/-- The loop over the root succeeds if the layers can be read. -/
theorem rootLoop_of_dir {found : List LowerPath} (hfollow : m.redirectFollow = true)
    (hd : DirData st.d last name false) (hfix : ∀ u l, up.upper = some u → m.fixOrigin u l = none)
    (h : findRoot m fs name ls = .ok found) : ∃ st', rootLoop m fs up ls st = .ok st' := by
  induction ls generalizing st last name found with
  | nil => exact ⟨st, rfl⟩
  | cons l ls ih =>
    rw [rootLoop, if_neg (by rw [hd.stop]; exact Bool.false_ne_true)]
    cases hr : dirLayer fs l.idx l.ino (lastLayer m l) name with
    | error e =>
      rw [findRoot, hr] at h
      cases h
    | ok r =>
      obtain ⟨d, p, hp, hdata, hpass⟩ := lowerPass_of_dir ls hfollow hd hfix hr
      rw [findRoot_cons hr] at h
      rw [hp]
      cases hpass with
      | refused hup hstack => exact ⟨_, rfl⟩
      | @absent name' stop =>
        cases stop with
        | true => exact ⟨_, rootLoop_of_stop hdata.stop⟩
        | false =>
          obtain ⟨found', hfound', -⟩ := map_eq_ok h
          exact ih hdata hfound'
      | @stacked i name' stop origin =>
        cases stop with
        | true => exact ⟨_, rfl⟩
        | false =>
          obtain ⟨found', hfound', -⟩ := map_eq_ok h
          obtain ⟨st', hst'⟩ : ∃ st', rootLoop m fs up ls
              ⟨d, st.stack ++ [⟨l.idx, i⟩], origin, st.metacopy⟩ = .ok st' := ih hdata hfound'
          refine ⟨st', ?_⟩
          rw [← hst', endPass, if_neg Bool.false_ne_true]
          cases name'.isAbs <;> rfl

theorem dirLayer_rel_none {layer base : ℕ} {n : List UInt8} {name' : Redirect} {stop : Bool}
    (h : dirLayer fs layer base last (.rel n) = .ok (none, name', stop)) : name' = .rel n := by
  obtain ⟨v, -, hv⟩ := map_eq_ok h
  cases v with
  | absent => exact (Prod.mk.inj (Prod.mk.inj hv).2).1.symm
  | whiteout => exact (Prod.mk.inj (Prod.mk.inj hv).2).1.symm
  | nondir => exact (Prod.mk.inj (Prod.mk.inj hv).2).1.symm
  | plain i => cases hv
  | opaqueDir i => cases hv
  | redirected i r => cases hv

/-- What the loop over a parent's directories found, when it looked for a directory. -/
theorem poeLoop_dir {n : List UInt8} (hfollow : m.redirectFollow = true)
    (hd : DirData st.d last (.rel n) false) (h : poeLoop m fs up ls st = .ok st') :
    Walked m up (findIn m fs (.rel n) ls) st st' := by
  induction ls generalizing st last n with
  | nil =>
    obtain rfl := Except.ok.inj h
    exact .nil hd
  | cons l ls ih =>
    rw [poeLoop, if_neg (by rw [hd.stop]; exact Bool.false_ne_true)] at h
    cases hp : lowerPass m fs up l ls st with
    | error e =>
      rw [hp] at h
      cases h
    | ok p =>
      rw [hp] at h
      obtain ⟨r, d, hlayer, hdata, hpass⟩ := lowerPass_dir hfollow hd hp
      have hhits : ∀ found, findIn m fs (.rel n) (l :: ls) = .ok found →
          l.hits r.1 <+: found :=
        fun _ => findIn_hits hlayer
      rw [findIn_cons hlayer] at hhits ⊢
      cases hpass with
      | refused hrefuses hstack =>
        obtain rfl := Except.ok.inj h
        exact .refused hdata hrefuses hstack hhits
      | @absent name' stop =>
        obtain rfl := dirLayer_rel_none hlayer
        cases stop with
        | true =>
          obtain rfl := Except.ok.inj ((poeLoop_of_stop hdata.stop).symm.trans h)
          exact .here (.absent d) hdata
        | false => exact .more (.absent d) (ih hdata h)
      | @stacked i name' stop origin =>
        cases stop with
        | true =>
          obtain rfl := Except.ok.inj h
          exact .here (.push d i origin) hdata
        | false =>
          cases name' with
          | abs path => exact .more (.push d i origin) (rootLoop_dir hfollow hdata h)
          | rel n' => exact .more (.push d i origin) (ih hdata h)

/-- The loop over a parent's directories succeeds if the layers can be read. -/
theorem poeLoop_of_dir {n : List UInt8} {found : List LowerPath}
    (hfollow : m.redirectFollow = true) (hd : DirData st.d last (.rel n) false)
    (hfix : ∀ u l, up.upper = some u → m.fixOrigin u l = none)
    (h : findIn m fs (.rel n) ls = .ok found) : ∃ st', poeLoop m fs up ls st = .ok st' := by
  induction ls generalizing st last n found with
  | nil => exact ⟨st, rfl⟩
  | cons l ls ih =>
    rw [poeLoop, if_neg (by rw [hd.stop]; exact Bool.false_ne_true)]
    cases hr : dirLayer fs l.idx l.ino (lastLayer m l) (.rel n) with
    | error e =>
      rw [findIn, hr] at h
      cases h
    | ok r =>
      obtain ⟨d, p, hp, hdata, hpass⟩ := lowerPass_of_dir ls hfollow hd hfix hr
      rw [findIn_cons hr] at h
      rw [hp]
      cases hpass with
      | refused hup hstack => exact ⟨_, rfl⟩
      | @absent name' stop =>
        obtain rfl := dirLayer_rel_none hr
        cases stop with
        | true => exact ⟨_, poeLoop_of_stop hdata.stop⟩
        | false =>
          obtain ⟨found', hfound', -⟩ := map_eq_ok h
          exact ih hdata hfound'
      | @stacked i name' stop origin =>
        cases stop with
        | true => exact ⟨_, rfl⟩
        | false =>
          cases name' with
          | abs path =>
            obtain ⟨found', hfound', -⟩ := map_eq_ok h
            exact rootLoop_of_dir hfollow hdata hfix hfound'
          | rel n' =>
            obtain ⟨found', hfound', -⟩ := map_eq_ok h
            exact ih hdata hfound'

end Loops

-- ════════════════════════════════════════════════════════════════════════
-- Directories without an upper
-- ════════════════════════════════════════════════════════════════════════

/-- The data of a lookup that has found nothing yet, when it is used for a directory. -/
def LookupData.asDir (d : LookupData) : LookupData := { d with isDir := true }

section Lower

variable {m : Mount} {fs : Layers} {up : UpperLookup} {ls : List LowerPath}
  {st st' : LowerLookup}

theorem ovlCheckRedirect_isDir {n : LayerInode} {d e : LookupData}
    {pre : Option (List (List UInt8))} {post : List (List UInt8)}
    (h : ovlCheckRedirect n d pre post = .ok e) : e.isDir = d.isDir := by
  unfold ovlCheckRedirect at h
  split at h
  · cases h
  · cases h
    rfl
  · cases h
    rfl
  · cases h
    rfl

/-- What is a directory is found the same way when a directory is looked for. -/
theorem ovlLookupSingle_asDir {layer base : ℕ} {d e : LookupData}
    {name : List UInt8} {res : Option ℕ} (hdir : d.isDir = false) (hmeta : d.metacopy = false)
    (h : ovlLookupSingle fs layer base d name none [] = .ok (e, res))
    (hk : ∀ i, res = some i → (fs.inode layer i).kind = .dir) :
    ovlLookupSingle fs layer base d.asDir name none [] = .ok (e.asDir, res) ∧
      (res = none → e = { d with stop := e.stop, isOpaque := e.isOpaque }) ∧
      (res.isSome = true → e.asDir = e) := by
  obtain ⟨dname, isDir, isOpaque, stop, last, redirect, metacopy⟩ := d
  obtain rfl : isDir = false := hdir
  obtain rfl : metacopy = false := hmeta
  unfold ovlLookupSingle at h ⊢
  cases hl : fs.lookup layer base name with
  | error err =>
    simp only [hl] at h ⊢
    split at h
    · next herr =>
      cases h
      rw [if_pos herr]
      exact ⟨rfl, fun _ => rfl, nofun⟩
    · cases h
  | ok r =>
    cases r with
    | none =>
      simp only [hl] at h ⊢
      cases h
      exact ⟨rfl, fun _ => rfl, nofun⟩
    | some i =>
      simp only [hl, LookupData.asDir, Bool.false_eq_true, false_and, and_false, if_false,
        List.isEmpty_nil, Bool.not_true, or_false, Bool.or_true, Bool.or_self] at h ⊢
      split at h
      · cases h
      next hweird =>
      rw [if_neg hweird]
      split at h
      · next hw =>
        cases h
        rw [if_pos hw]
        exact ⟨rfl, fun _ => rfl, nofun⟩
      next hw =>
      rw [if_neg hw]
      by_cases hkind : (fs.inode layer i).kind = .dir
      · have hnot : ¬ (fs.inode layer i).kind ≠ .dir := not_not.mpr hkind
        rw [if_neg hnot] at h ⊢
        split at h
        · cases h
        next htrap =>
        rw [if_neg htrap]
        split at h
        · next hlast =>
          cases h
          rw [if_pos hlast]
          exact ⟨rfl, nofun, fun _ => rfl⟩
        next hlast =>
        rw [if_neg hlast]
        split at h
        · next hopaque =>
          cases h
          rw [if_pos hopaque]
          exact ⟨rfl, nofun, fun _ => rfl⟩
        next hopaque =>
        rw [if_neg hopaque]
        cases hr : ovlCheckRedirect (fs.inode layer i)
            ⟨dname, true, isOpaque, stop, last, redirect, false⟩ none [] with
        | error err =>
          rw [hr] at h
          cases h
        | ok e' =>
          have he : e'.isDir = true := ovlCheckRedirect_isDir hr
          rw [hr] at h
          obtain ⟨rfl, rfl⟩ := Prod.mk.inj (Except.ok.inj h)
          have hself : ({ e' with isDir := true } : LookupData) = e' := by
            rw [← he]
          refine ⟨?_, nofun, fun _ => hself⟩
          rw [hself]
          rfl
      · exfalso
        rw [if_pos hkind] at h
        split at h
        · cases h
        split at h
        · cases h
          exact hkind (hk i rfl)
        · obtain ⟨e', -, he⟩ := map_eq_ok h
          obtain ⟨-, rfl⟩ := Prod.mk.inj he
          exact hkind (hk i rfl)

theorem ovlLookupLayer_rel {layer base : ℕ} {d : LookupData} {n : List UInt8}
    (h : d.name = .rel n) :
    ovlLookupLayer fs layer base d = ovlLookupSingle fs layer base d n none [] := by
  unfold ovlLookupLayer
  rw [h]

/-- The lower stack only grows. -/
theorem lowerPass_grows {s : List LowerPath} (l : LowerPath) (rest : List LowerPath)
    (st : LowerLookup) (p : LowerPass) (hst : s <+: st.stack)
    (h : lowerPass m fs up l rest st = .ok p) : s <+: p.st.stack := by
  obtain ⟨d, res, -, hpass⟩ := lowerPass_ok h
  obtain ⟨-, rfl⟩ | ⟨i, -, -, -, -, -, rfl⟩ | ⟨i, origin, -, -, hthis⟩ := hpass
  · exact hst
  · exact hst
  · cases stackThis_cases hthis with
    | skip => exact hst
    | stop => exact hst.trans (List.prefix_append _ _)
    | toRoot => exact hst.trans (List.prefix_append _ _)
    | next => exact hst.trans (List.prefix_append _ _)

/-- The kind of the first lower inode. -/
def headKind (fs : Layers) (stack : List LowerPath) : Option RealKind :=
  stack.head?.map fun l => (fs.inode l.idx l.ino).kind

/-- A lookup that has found nothing yet. -/
structure Unfound (n : List UInt8) (st : LowerLookup) : Prop where
  name : st.d.name = .rel n
  isDir : st.d.isDir = false
  dmeta : st.d.metacopy = false
  redirect : st.d.redirect = none
  stop : st.d.stop = false
  stack : st.stack = []

theorem Unfound.dirData {n : List UInt8} (h : Unfound n st) :
    DirData st.d.asDir st.d.last (.rel n) false :=
  ⟨by rw [LookupData.asDir, h.redirect]; rfl, rfl, h.dmeta, rfl, h.name, h.stop⟩

/-- Where a layer has nothing of the name, only `stop` may change. -/
theorem Unfound.absent {n : List UInt8} {l : LowerPath} {d : LookupData} (hst : Unfound n st)
    (hlook : ovlLookupLayer fs l.idx l.ino { st.d with last := lastLayer m l } = .ok (d, none)) :
    dirLayer fs l.idx l.ino (lastLayer m l) (.rel n) = .ok (none, .rel n, d.stop) ∧
      (d.stop = false → Unfound n { st with d := d }) := by
  set d₀ : LookupData := { st.d with last := lastLayer m l }
  rw [ovlLookupLayer_rel (d := d₀) hst.name] at hlook
  obtain ⟨hdir, hnone, -⟩ := ovlLookupSingle_asDir (d := d₀) hst.isDir hst.dmeta hlook
    fun i hi => by cases hi
  rw [← ovlLookupLayer_rel (d := d₀.asDir) hst.name] at hdir
  have hdir' : ovlLookupLayer fs l.idx l.ino { st.d.asDir with last := lastLayer m l } =
      .ok (d.asDir, none) := hdir
  have hagrees := ovlLookupLayer_dir fs l.idx l.ino (hst.dirData.withLast (lastLayer m l))
  rw [hdir'] at hagrees
  obtain ⟨hname, hisDir, hmeta, hred⟩ : d.name = .rel n ∧ d.isDir = false ∧
      d.metacopy = false ∧ d.redirect = none := by
    rw [hnone rfl]
    exact ⟨hst.name, hst.isDir, hst.dmeta, hst.redirect⟩
  cases hr : dirLayer fs l.idx l.ino (lastLayer m l) (.rel n) with
  | error e =>
    rw [hr] at hagrees
    cases hagrees
  | ok r =>
    obtain ⟨res, name', stop⟩ := r
    rw [hr] at hagrees
    obtain ⟨d', hd', hdata⟩ := hagrees
    cases hd'
    obtain rfl := dirLayer_rel_none hr
    obtain rfl : d.stop = stop := hdata.stop
    exact ⟨rfl, fun hstop => ⟨hname, hisDir, hmeta, hred, hstop, hst.stack⟩⟩

/-- What is found first stays the first on the stack. -/
theorem poeLoop_first {l : LowerPath} {d : LookupData} {i : ℕ} (hfollow : m.redirectFollow = true)
    (hup : up.upper = none) (hstack : st.stack = []) (hstop : st.d.stop = false)
    (hlook : ovlLookupLayer fs l.idx l.ino { st.d with last := lastLayer m l } = .ok (d, some i))
    (h : poeLoop m fs up (l :: ls) st = .ok st') : [(⟨l.idx, i⟩ : LowerPath)] <+: st'.stack := by
  rw [poeLoop, if_neg (by rw [hstop]; exact Bool.false_ne_true)] at h
  cases hp : lowerPass m fs up l ls st with
  | error e =>
    rw [hp] at h
    cases h
  | ok p =>
    rw [hp] at h
    obtain ⟨d', res, hlook', hpass⟩ := lowerPass_ok hp
    rw [lowerLast_of_follow hfollow, hlook] at hlook'
    cases hlook'
    obtain ⟨hi, -⟩ | ⟨i', -, hsome, -⟩ | ⟨i', origin, hi, -, hthis⟩ := hpass
    · cases hi
    · rw [hup] at hsome
      cases hsome
    · cases hi
      have hpush : [(⟨l.idx, i⟩ : LowerPath)] <+: st.stack ++ [⟨l.idx, i⟩] := by
        rw [hstack]
        exact List.prefix_refl _
      cases stackThis_cases hthis with
      | skip _ hne => exact absurd hstack hne
      | stop =>
        obtain rfl := Except.ok.inj h
        exact hpush
      | toRoot => exact rootLoop_invariant lowerPass_grows hpush h
      | next => exact poeLoop_invariant lowerPass_grows hpush h

/-- A layer that has the directory is passed the same way when a directory is looked for. -/
theorem poeLoop_asDir {l : LowerPath} {d : LookupData} {i : ℕ} (hfollow : m.redirectFollow = true)
    (hstop : st.d.stop = false)
    (hlook : ovlLookupLayer fs l.idx l.ino { st.d with last := lastLayer m l } = .ok (d, some i))
    (hdir : ovlLookupLayer fs l.idx l.ino { st.d.asDir with last := lastLayer m l } =
      .ok (d, some i)) :
    poeLoop m fs up (l :: ls) { st with d := st.d.asDir } = poeLoop m fs up (l :: ls) st := by
  have hpass : lowerPass m fs up l ls { st with d := st.d.asDir } = lowerPass m fs up l ls st := by
    unfold lowerPass
    rw [lowerLast_of_follow hfollow, hlook, hdir]
    rfl
  have hstop' : ¬ st.d.asDir.stop = true := by
    rw [show st.d.asDir.stop = st.d.stop from rfl, hstop]
    exact Bool.false_ne_true
  rw [poeLoop, poeLoop, if_neg hstop', if_neg (by rw [hstop]; exact Bool.false_ne_true), hpass]

/-- What is found below the upper layer when nothing is in it and the lower layers have a
directory. -/
theorem poeLoop_lower {n : List UInt8} (hfollow : m.redirectFollow = true)
    (hup : up.upper = none) (hst : Unfound n st) (h : poeLoop m fs up ls st = .ok st')
    (hkind : headKind fs st'.stack = some .dir) :
    Walked m up (findIn m fs (.rel n) ls) st st' := by
  induction ls generalizing st with
  | nil =>
    obtain rfl := Except.ok.inj h
    rw [hst.stack] at hkind
    cases hkind
  | cons l ls ih =>
    have h₀ := h
    rw [poeLoop, if_neg (by rw [hst.stop]; exact Bool.false_ne_true)] at h
    cases hp : lowerPass m fs up l ls st with
    | error e =>
      rw [hp] at h
      cases h
    | ok p =>
      rw [hp] at h
      obtain ⟨d, res, hlook, hpass⟩ := lowerPass_ok hp
      set d₀ : LookupData := { st.d with last := lastLayer m l }
      rw [lowerLast_of_follow hfollow] at hlook
      cases res with
      | none =>
        obtain ⟨-, rfl⟩ | ⟨i, hi, -⟩ | ⟨i, -, hi, -⟩ := hpass
        · obtain ⟨hr, hrest⟩ := hst.absent hlook
          rw [findIn_cons hr]
          cases hstop : d.stop with
          | true =>
            obtain rfl := Except.ok.inj ((poeLoop_of_stop hstop).symm.trans h)
            have hempty : headKind fs st.stack = some .dir := hkind
            rw [hst.stack] at hempty
            cases hempty
          | false => exact .more (.absent d) (ih (hrest hstop) h)
        · cases hi
        · cases hi
      | some i =>
        -- what is found first is a directory, so the lookup goes on as for one
        obtain ⟨tl, htl⟩ := poeLoop_first hfollow hup hst.stack hst.stop hlook h₀
        rw [← htl] at hkind
        have hk : ∀ j, some i = some j → (fs.inode l.idx j).kind = .dir := by
          intro j hj
          rw [← Option.some.inj hj]
          exact Option.some.inj hkind
        have hsingle := hlook
        rw [ovlLookupLayer_rel (d := d₀) hst.name] at hsingle
        obtain ⟨hdir, -, hsome⟩ := ovlLookupSingle_asDir (d := d₀) hst.isDir hst.dmeta hsingle hk
        rw [← ovlLookupLayer_rel (d := d₀.asDir) hst.name, hsome rfl] at hdir
        have hloop := (poeLoop_asDir hfollow hst.stop hlook hdir).trans h₀
        have hw := poeLoop_dir hfollow hst.dirData hloop
        exact ⟨hw.isDir, hw.metacopy, hw.stack⟩

end Lower

-- ════════════════════════════════════════════════════════════════════════
-- Dentries and their paths
-- ════════════════════════════════════════════════════════════════════════

/-- The type of the real inode of a dentry, `d_is_dir` tells from it. An inode that the
index has is of the type of the lower one. -/
def foundKind (fs : Layers) (r : Found) : Option RealKind :=
  if r.upperAlias then r.entry.upper.map fun u => (fs.inode 0 u).kind
  else headKind fs r.entry.lowerstack

/-- The lower directories that a name or a redirect stands for in a directory. -/
def standsFor (m : Mount) (fs : Layers) (p : OvlEntry) :
    Redirect → Except Errno (List LowerPath)
  | .rel name => findIn m fs (.rel name) p.lowerstack
  | .abs path => findRoot m fs (.abs path) m.root

/-- What `ovl_lookup_index` asks of the index: the name of an origin in it and what is there
under that name, whether this has the type of the origin, and whether its attribute leads to
the upper directory. -/
structure IndexDir where
  getIndexName : LowerPath → Option Errno
  lookup : LowerPath → Except Errno (Option ℕ)
  sameType : ℕ → LowerPath → Bool
  verifyUpper : ℕ → ℕ → Option Errno

/-- `ovl_lookup_index`. -/
def ovlLookupIndex (fs : Layers) (x : IndexDir) (verify : Bool) (upper : Option ℕ)
    (origin : LowerPath) : Except Errno (Option ℕ) :=
  match x.getIndexName origin with
  | some e => .error e
  | none =>
    match x.lookup origin with
    | .error e => if e.ret = ENOENT.ret then .ok none else .error e
    | .ok none => .ok none
    | .ok (some i) =>
      let index := fs.inode 0 i
      if index.kind = .whiteout ∧ !verify then .error ESTALE
      else if index.weird ∨ index.kind = .whiteout ∨ !x.sameType i origin then .error EIO
      else if (fs.inode origin.idx origin.ino).kind = .dir ∧ verify then
        match upper with
        | none => .error EIO
        | some u => if (x.verifyUpper i u).isSome then .error EIO else .ok (some i)
      else if upper.isSome ∧ upper ≠ some i then .ok none
      else .ok (some i)

/-- The index entry of a directory that has no upper is refused. -/
def NoLowerDirIndex (m : Mount) (fs : Layers) : Prop :=
  ∀ o i, (fs.inode o.idx o.ino).kind = .dir → m.lookupIndex none o ≠ .ok (some i)

theorem noLowerDirIndex {m : Mount} {fs : Layers} {x : IndexDir}
    (h : m.lookupIndex = ovlLookupIndex fs x true) : NoLowerDirIndex m fs := by
  intro o i hdir
  rw [h]
  unfold ovlLookupIndex
  split
  · nofun
  split
  · split
    · nofun
    · nofun
  · nofun
  next j _ =>
  simp only [hdir, and_self, if_true]
  split
  · nofun
  split
  · nofun
  · nofun

/-- The names and redirects on the way from a dentry to the root. -/
abbrev DentryPath := List (List UInt8 × Option Redirect)

/-- A directory that was looked up, and the way to it. -/
inductive Reached (m : Mount) (fs : Layers) : OvlEntry → DentryPath → Prop
  | root (e : OvlEntry) (h : e.lowerstack = m.root) : Reached m fs e []
  | child {p : OvlEntry} {way : DentryPath} {name : List UInt8} {r : Found}
      (hp : Reached m fs p way) (hlookup : ovlLookup m fs p name = .ok r)
      (hdir : foundKind fs r = some .dir) : Reached m fs r.entry ((name, r.redirect) :: way)

/-- The path that `ovl_get_redirect` puts together. -/
def redirectPath : DentryPath → List (List UInt8)
  | [] => []
  | (_, some (.abs path)) :: _ => path
  | (_, some (.rel r)) :: way => redirectPath way ++ [r]
  | (name, none) :: way => redirectPath way ++ [name]

section Dentries

variable {m : Mount} {fs : Layers} {p e : OvlEntry} {name : List UInt8} {r : Found}

theorem lookupStack_dir {up : UpperLookup} {st : LowerLookup} {stack : List LowerPath}
    (hdir : st.d.isDir = true) (hmeta : st.metacopy = false)
    (h : lookupStack m up st = .ok stack) : st.stack = stack := by
  simpa [lookupStack, hmeta, hdir] using h

theorem lookupStack_lower {up : UpperLookup} {st : LowerLookup} {stack : List LowerPath}
    (hup : up.upper = none) (h : lookupStack m up st = .ok stack) : st.stack = stack := by
  unfold lookupStack at h
  split at h
  · split at h
    · cases h
    split at h
    · cases h
    · exact Except.ok.inj h
  · rw [hup] at h
    simpa using h

theorem lookupIndexOf_lowerDir {up : UpperLookup} {st : LowerLookup} {stack : List LowerPath}
    {j : ℕ} (hindex : NoLowerDirIndex m fs) (hup : up.upper = none)
    (hkind : headKind fs stack = some .dir) : lookupIndexOf m up st stack ≠ .ok (some j) := by
  obtain ⟨o, ho, hdir⟩ := Option.map_eq_some_iff.mp hkind
  have hne : stack ≠ [] := by
    rintro rfl
    cases ho
  have horigin : lookupOrigin up st stack = some o := by
    rw [lookupOrigin, if_pos ⟨hne, .inl hup⟩]
    exact ho
  intro h
  rw [lookupIndexOf, horigin] at h
  simp only at h
  split at h
  · rw [hup] at h
    exact hindex o j hdir h
  · cases h

/-- The data behind the lookup of a directory in the upper layer. -/
theorem upper_dir_cases {u i : ℕ} {d : LookupData} (hfollow : m.redirectFollow = true)
    (hd : ovlLookupSingle fs 0 u (initData m p name) name none [] = .ok (d, some i))
    (hkind : (fs.inode 0 i).kind = .dir) :
    (d.stop = true ∧ d.isDir = true) ∨ DirData d false (d.redirect.getD (.rel name)) false := by
  have hlast : (initData m p name).last = false := by simp [initData, hfollow]
  obtain ⟨hdir, -, hself⟩ := ovlLookupSingle_asDir (d := initData m p name) rfl rfl hd
    fun j hj => Option.some.inj hj ▸ hkind
  rw [ovlLookupSingle_dir rfl rfl, hself rfl] at hdir
  obtain ⟨v, -, hv⟩ := map_eq_ok hdir
  cases v with
  | absent => cases hv
  | whiteout => cases hv
  | nondir => cases hv
  | plain j =>
    cases hv
    exact .inr ⟨rfl, rfl, rfl, hlast, rfl, rfl⟩
  | opaqueDir j =>
    cases hv
    exact .inl ⟨rfl, rfl⟩
  | redirected j r =>
    cases r with
    | abs r =>
      cases hv
      exact .inr ⟨rfl, rfl, rfl, hlast, rfl, rfl⟩
    | rel r =>
      cases hv
      exact .inr ⟨rfl, rfl, rfl, hlast, rfl, rfl⟩

section Lower

variable {up : UpperLookup} {st : LowerLookup} {last : Bool} {nm : Redirect}

theorem lookupLower_of_stop (hstop : up.d.stop = true) :
    lookupLower m fs p up = .ok ⟨up.d, [], none, up.metacopy⟩ := by
  unfold lookupLower
  simp only
  split
  · exact rootLoop_of_stop hstop
  · exact poeLoop_of_stop hstop

theorem lookupLower_dir (hfollow : m.redirectFollow = true) (hd : DirData up.d last nm false)
    (h : lookupLower m fs p up = .ok st) :
    Walked m up (standsFor m fs p nm) ⟨up.d, [], none, up.metacopy⟩ st := by
  unfold lookupLower at h
  simp only [hd.redirect] at h
  cases nm with
  | abs path => exact rootLoop_dir hfollow hd h
  | rel n => exact poeLoop_dir hfollow hd h

theorem lookupLower_of_dir {found : List LowerPath} (hfollow : m.redirectFollow = true)
    (hd : DirData up.d last nm false) (hfix : ∀ u l, up.upper = some u → m.fixOrigin u l = none)
    (h : standsFor m fs p nm = .ok found) : ∃ st, lookupLower m fs p up = .ok st := by
  unfold lookupLower
  simp only [hd.redirect]
  cases nm with
  | abs path => exact rootLoop_of_dir hfollow hd hfix h
  | rel n => exact poeLoop_of_dir hfollow hd hfix h

theorem Walked.lowerstack {x : Except Errno (List LowerPath)} {stack : List LowerPath}
    (h : Walked m up x ⟨up.d, [], none, up.metacopy⟩ st) (hmeta : up.metacopy = false)
    (hstack : lookupStack m up st = .ok stack) :
    (stack = [] ∧ FirstRefused m up x) ∨ x = .ok stack := by
  have hsame := lookupStack_dir h.isDir (h.metacopy.trans hmeta) hstack
  obtain ⟨hfirst, -, hnil⟩ | ⟨found, hx, hfound⟩ := h.stack
  · exact .inl ⟨hsame.symm.trans hnil, hfirst⟩
  · right
    rw [hx, ← hsame, hfound]
    rfl

end Lower

/-- The lower stack of a directory is what its redirect or its name stands for, unless
there is none. -/
theorem ovlLookup_dir (hfollow : m.redirectFollow = true) (hindex : NoLowerDirIndex m fs)
    (h : ovlLookup m fs p name = .ok r) (hdir : foundKind fs r = some .dir) :
    r.entry.lowerstack = [] ∨
      standsFor m fs p (r.redirect.getD (.rel name)) = .ok r.entry.lowerstack := by
  obtain ⟨up, st, index, redirect, hup, hst, hstack, hi, hred, hr⟩ := ovlLookup_ok h
  cases lookupUpper_cases hup with
  | absent hchild =>
    have halias : r.upperAlias = false := by rw [hr]; rfl
    rw [foundKind, halias, if_neg Bool.false_ne_true] at hdir
    have hsame := lookupStack_lower rfl hstack
    rw [← hsame] at hdir hi ⊢
    have hpoe : poeLoop m fs _ p.lowerstack _ = .ok st := hst
    have hw := poeLoop_lower (n := name) hfollow rfl ⟨rfl, rfl, rfl, rfl, rfl, rfl⟩ hpoe hdir
    have hindex' : index = none := by
      cases hj : index with
      | none => rfl
      | some j =>
        rw [hj] at hi
        exact absurd hi (lookupIndexOf_lowerDir hindex rfl hdir)
    have hredirect : r.redirect = none := by
      rw [hindex'] at hred
      rw [hr, ← Except.ok.inj hred]
      rfl
    rw [hredirect]
    obtain ⟨-, -, hnil⟩ | ⟨found, hfound, hstacked⟩ := hw.stack
    · rw [hnil] at hdir
      cases hdir
    · right
      rw [hstacked]
      exact hfound
  | whiteout u i hparent hchild hkind =>
    left
    rw [lookupLower_of_stop rfl] at hst
    obtain rfl := Except.ok.inj hst
    exact (Except.ok.inj hstack).symm
  | found u i d origin mc hparent hchild hkind hd hfile =>
    have halias : r.upperAlias = true := by rw [hr]; rfl
    have hupper : r.entry.upper = some i := by rw [hr]; rfl
    have hredirect : r.redirect = d.redirect := by
      rw [hr]
      exact (Except.ok.inj hred).symm
    rw [foundKind, if_pos halias, hupper] at hdir
    have hkdir : (fs.inode 0 i).kind = .dir := Option.some.inj hdir
    rw [hredirect]
    obtain ⟨hstop, hisDir⟩ | hdata := upper_dir_cases hfollow hd hkdir
    · left
      obtain ⟨rfl, rfl⟩ := hfile hisDir
      rw [lookupLower_of_stop hstop] at hst
      obtain rfl := Except.ok.inj hst
      exact (lookupStack_dir hisDir rfl hstack).symm
    · obtain ⟨rfl, rfl⟩ := hfile hdata.isDir
      exact ((lookupLower_dir hfollow hdata hst).lowerstack rfl hstack).imp_left And.left

theorem findRoot_empty_path (ls : List LowerPath) : findRoot m fs (.abs []) ls = .ok [] := by
  induction ls with
  | nil => rfl
  | cons l ls ih =>
    rw [findRoot_cons (dirLayer_abs (r := (none, [], false)) rfl)]
    exact congrArg (Except.map _) ih

/-- The path of a directory stands for its lower stack, unless there is none. -/
theorem Reached.stack {way : DentryPath} (hfollow : m.redirectFollow = true)
    (horder : RootInOrder m) (hvalid : ValidRedirects fs) (hindex : NoLowerDirIndex m fs)
    (h : Reached m fs e way) :
    e.lowerstack = [] ∨ pathStack m fs (redirectPath way) m.root = .ok e.lowerstack := by
  induction h with
  | root e h =>
    right
    rw [h]
    rfl
  | @child p way name r hp hlookup hdir ih =>
    obtain hnil | hstands := ovlLookup_dir hfollow hindex hlookup hdir
    · exact .inl hnil
    -- a name that is looked up in the directories of the parent
    have hrel : ∀ n, findIn m fs (.rel n) p.lowerstack = .ok r.entry.lowerstack →
        r.entry.lowerstack = [] ∨
          pathStack m fs (redirectPath way ++ [n]) m.root = .ok r.entry.lowerstack := by
      intro n hn
      obtain hnil | hpath := ih
      · left
        rw [hnil] at hn
        exact (Except.ok.inj hn).symm
      · right
        rw [pathStack, if_neg (by simp)]
        exact findRoot_append (k := 0) horder hvalid hpath hn
    cases hred : r.redirect with
    | none =>
      rw [hred] at hstands
      exact hrel name hstands
    | some redirect =>
      rw [hred] at hstands
      cases redirect with
      | rel n => exact hrel n hstands
      | abs path =>
        by_cases hpath : path = []
        · left
          have hfind : findRoot m fs (.abs path) m.root = .ok r.entry.lowerstack := hstands
          rw [hpath, findRoot_empty_path] at hfind
          exact (Except.ok.inj hfind).symm
        · right
          rw [redirectPath, pathStack, if_neg hpath]
          exact hstands

end Dentries

end FzzOverlay

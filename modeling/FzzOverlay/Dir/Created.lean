import FzzOverlay.Dir.Create

/-!
# What a lookup finds after creation

A name that was created is found as a pure upper object, whatever the lower layers have
below the whiteout it took the place of.
-/

namespace FzzOverlay

open Act

section Found

variable {m : Mount} {fs : Layers} {name : List UInt8} {p : OvlEntry} {u i : ℕ}

/-- Looking a name up in the layers comes to the end, or to a whiteout, without finding it and
without failing. -/
inductive HiddenBy (fs : Layers) (name : List UInt8) : List LowerPath → Prop
  | nil : HiddenBy fs name []
  | absent {l : LowerPath} {ls : List LowerPath} (hl : LowerFound fs name l)
      (hchild : childAt fs l.idx l.ino name = none) (h : HiddenBy fs name ls) :
      HiddenBy fs name (l :: ls)
  | whiteout {l : LowerPath} {ls : List LowerPath} {i : ℕ} (hl : LowerFound fs name l)
      (hchild : childAt fs l.idx l.ino name = some i)
      (hkind : (fs.inode l.idx i).kind = .whiteout) : HiddenBy fs name (l :: ls)

theorem HiddenBy.sameLower {fs' : Layers} {ls : List LowerPath} (h : HiddenBy fs name ls)
    (hlower : SameLower fs fs') (hls : ∀ l ∈ ls, l.idx ≠ 0) : HiddenBy fs' name ls := by
  have hfound : ∀ {l : LowerPath}, l.idx ≠ 0 → LowerFound fs name l → LowerFound fs' name l := by
    intro l hl hfound
    rw [LowerFound, hlower.lookup _ hl, hlower.inode _ hl]
    exact hfound
  have hchild : ∀ {l : LowerPath}, l.idx ≠ 0 →
      childAt fs' l.idx l.ino name = childAt fs l.idx l.ino name := by
    intro l hl
    rw [childAt, childAt, hlower.lookup _ hl]
  induction h with
  | nil => exact .nil
  | absent hl hnone _ ih =>
    rw [List.forall_mem_cons] at hls
    exact .absent (hfound hls.1 hl) ((hchild hls.1).trans hnone) (ih hls.2)
  | whiteout hl hsome hkind =>
    rw [List.forall_mem_cons] at hls
    exact .whiteout (hfound hls.1 hl) ((hchild hls.1).trans hsome)
      ((hlower.inode _ hls.1).symm ▸ hkind)

/-- A lookup that does not fail has found what there is. -/
theorem lowerFound_of_single {l : LowerPath} {d : LookupData} {r : LookupData × Option ℕ}
    (h : ovlLookupSingle fs l.idx l.ino d name none [] = .ok r) : LowerFound fs name l := by
  unfold ovlLookupSingle at h
  unfold LowerFound
  cases hlook : fs.lookup l.idx l.ino name with
  | error e =>
    rw [hlook] at h
    by_contra herr
    simp only [if_neg herr] at h
    cases h
  | ok x =>
    cases x with
    | none => trivial
    | some i =>
      rw [hlook] at h
      refine eq_false_of_ne_true fun hweird => ?_
      simp only [hweird, if_true] at h
      cases h

/-- A loop that does not fail and finds no entry for a name that is not visible has come to
the end or to a whiteout. -/
theorem hiddenBy_of_poeLoop {up : UpperLookup} {ls : List LowerPath} {st st' : LowerLookup}
    (hn : Nothing name st) (hstop : st.d.stop = false) (h : poeLoop m fs up ls st = .ok st')
    (hvis : ¬ Visible fs name ls) : HiddenBy fs name ls := by
  induction ls generalizing st with
  | nil => exact .nil
  | cons l ls ih =>
    have hsingle : ovlLookupLayer fs l.idx l.ino { st.d with last := lowerLast m l ls } =
        ovlLookupSingle fs l.idx l.ino { st.d with last := lowerLast m l ls } name none [] := by
      rw [ovlLookupLayer]
      simp only [hn.name]
    have hpass : ∃ q, lowerPass m fs up l ls st = .ok q := by
      rw [poeLoop, hstop] at h
      cases hp : lowerPass m fs up l ls st with
      | error e =>
        rw [hp] at h
        cases h
      | ok q => exact ⟨q, rfl⟩
    obtain ⟨q, hq⟩ := hpass
    obtain ⟨d, res, hlayer, -⟩ := lowerPass_ok hq
    have hl := lowerFound_of_single (hsingle.symm.trans hlayer)
    cases hchild : childAt fs l.idx l.ino name with
    | none =>
      rw [visible_cons_absent hchild] at hvis
      rw [poeLoop_of_next hstop (lowerPass_absent_rel hn.name
        (ovlLookupSingle_absent fs hchild hl.error))] at h
      have hn' : Nothing name { st with d := { st.d with last := lowerLast m l ls } } :=
        ⟨hn.name, hn.isDir, hn.metacopy, hn.stack, hn.origin⟩
      exact .absent hl hchild (ih hn' hstop h hvis)
    | some i =>
      rw [visible_cons_present hchild, not_not] at hvis
      exact .whiteout hl hchild hvis

/-- A name that is negative without being a whiteout is hidden in the lower layers. -/
theorem hiddenBy_of_negative {r : Found} (h : ovlLookup m fs p name = .ok r)
    (hneg : r.positive = false) (hcover : r.isOpaque = false) :
    HiddenBy fs name p.lowerstack := by
  have hvis : ¬ Visible fs name p.layers := by
    rw [← positive_iff_visible h, hneg]
    exact Bool.false_ne_true
  obtain ⟨up, st, index, redirect, hup, hst, -, -, -, hr⟩ := ovlLookup_ok h
  rw [hr] at hcover
  cases lookupUpper_cases hup with
  | absent hchild =>
    rw [visible_upper_absent hchild] at hvis
    exact hiddenBy_of_poeLoop ⟨rfl, rfl, rfl, rfl, rfl⟩ rfl hst hvis
  | whiteout => cases hcover
  | found v j d origin mc hparent hchild hkind =>
    rw [OvlEntry.layers_upper hparent, visible_cons_present hchild] at hvis
    exact absurd hkind hvis

/-- Names that are hidden add nothing to what the loop has. -/
theorem poeLoop_of_hidden {up : UpperLookup} {ls : List LowerPath} {st : LowerLookup}
    (hname : st.d.name = .rel name) (hhidden : st.d.stop = false → HiddenBy fs name ls) :
    ∃ d, poeLoop m fs up ls st = .ok { st with d := d } ∧ d.isDir = st.d.isDir ∧
      d.metacopy = st.d.metacopy := by
  cases hstop : st.d.stop with
  | true => exact ⟨st.d, poeLoop_of_stop hstop, rfl, rfl⟩
  | false =>
    have h := hhidden hstop
    clear hhidden
    induction h generalizing st with
    | nil => exact ⟨st.d, rfl, rfl, rfl⟩
    | @absent l ls hl hchild _ ih =>
      rw [poeLoop_of_next hstop (lowerPass_absent_rel hname
        (ovlLookupSingle_absent fs hchild hl.error))]
      exact @ih { st with d := { st.d with last := lowerLast m l ls } } hname hstop
    | whiteout hl hchild hkind =>
      simp only [LowerFound, childAt_eq_some fs hchild] at hl
      rw [poeLoop_of_next hstop (lowerPass_absent_rel hname
        (ovlLookupSingle_whiteout fs hchild hl hkind)), poeLoop_of_stop rfl]
      exact ⟨_, rfl, rfl, rfl⟩

/-- The inode of an entry was just created, and it is not a whiteout. -/
structure FreshInode (fs : Layers) (u : ℕ) (name : List UInt8) (i : ℕ) (kind : RealKind)
    (o : Bool) : Prop where
  entry : EntryIs u name i { newInode kind with isOpaque := o } fs
  kind : kind ≠ .whiteout

/-- What `ovl_lookup_single` makes of such an inode. -/
theorem ovlLookupSingle_fresh {kind : RealKind} {o : Bool} (h : FreshInode fs u name i kind o) :
    ∃ d, ovlLookupSingle fs 0 u (initData m p name) name none [] = .ok (d, some i) ∧
      d.name = .rel name ∧ d.metacopy = false ∧ d.redirect = none ∧
      (d.stop = false → kind = .dir ∧ (o = false ∨ p.lowerstack = [])) := by
  obtain ⟨⟨hchild, hinode⟩, hkind⟩ := h
  have hlook := childAt_eq_some fs hchild
  have hlast : (initData m p name).last = true → p.lowerstack = [] := by
    intro hl
    simp only [initData] at hl
    split at hl
    · cases hl
    · simpa using hl
  have hisDir : (initData m p name).isDir = false := rfl
  have hmeta : (initData m p name).metacopy = false := rfl
  have hopq : (initData m p name).isOpaque = false := rfl
  have hrel : (initData m p name).name = .rel name := rfl
  have hred : (initData m p name).redirect = none := rfl
  generalize initData m p name = d₀ at *
  unfold ovlLookupSingle
  simp only [hlook, hinode, newInode]
  by_cases hdir : kind = .dir
  · cases hl : d₀.last with
    | true =>
      refine ⟨{ d₀ with isDir := true }, ?_, hrel, hmeta, hred, fun _ => ?_⟩
      · simp [hdir, hl, hmeta, hisDir]
      · exact ⟨hdir, .inr (hlast hl)⟩
    | false =>
      cases o with
      | true =>
        refine ⟨{ d₀ with isDir := true, stop := true, isOpaque := true }, ?_,
          hrel, hmeta, hred, fun hs => ?_⟩
        · simp [hdir, hl, hmeta, hisDir, hopq]
        · cases hs
      | false =>
        refine ⟨{ d₀ with isDir := true }, ?_, hrel, hmeta, hred, fun _ => ?_⟩
        · simp [hdir, hl, hmeta, hisDir, ovlCheckRedirect, Except.map]
        · exact ⟨hdir, .inl rfl⟩
  · refine ⟨{ d₀ with metacopy := false, stop := true }, ?_, hrel, rfl, hred, fun hs => ?_⟩
    · simp [hdir, hkind, hmeta, hisDir, ovlCheckMetacopyXattr]
    · cases hs

/-- What the mount has about an inode that was just created: it has no copy-up origin, it
does not need revalidation, and the overlay inode for it can be had. -/
structure FreshInMount (m : Mount) (i : ℕ) : Prop where
  remote : m.remote i = false
  origin : m.checkOrigin i = .ok none
  inode : m.getInode (some i) [] = none

/-- A new inode is found without anything below it. -/
theorem ovlLookup_fresh {kind : RealKind} {o : Bool} (hparent : p.upper = some u)
    (hlen : name.length ≤ m.namelen) (h : FreshInode fs u name i kind o)
    (hm : FreshInMount m i)
    (hhidden : kind = .dir → o = false → HiddenBy fs name p.lowerstack) :
    ∃ o', ovlLookup m fs p name = .ok ⟨⟨some i, []⟩, true, o', none⟩ := by
  obtain ⟨d, hd, hname, hmeta, hred, hstop⟩ := ovlLookupSingle_fresh (m := m) (p := p) h
  have hup : lookupUpper m fs p name = .ok ⟨d, some i, none, false⟩ := by
    have hlayer : ovlLookupLayer fs 0 u (initData m p name) = .ok (d, some i) := hd
    unfold lookupUpper
    simp only [hparent, hlayer, hm.remote, hm.origin, Except.map, hmeta, Bool.false_eq_true,
      if_false, ite_self]
  have hbelow : d.stop = false → HiddenBy fs name p.lowerstack := by
    intro hs
    obtain ⟨hdir, ho | hnil⟩ := hstop hs
    · exact hhidden hdir ho
    · rw [hnil]
      exact .nil
  obtain ⟨d', hloop, -, -⟩ : ∃ d', poeLoop m fs ⟨d, some i, none, false⟩ p.lowerstack
      ⟨d, [], none, false⟩ = .ok ⟨d', [], none, false⟩ ∧ d'.isDir = d.isDir ∧
        d'.metacopy = d.metacopy := poeLoop_of_hidden hname hbelow
  have hst : lookupLower m fs p ⟨d, some i, none, false⟩ = .ok ⟨d', [], none, false⟩ := by
    unfold lookupLower
    simp only [hred]
    exact hloop
  have hstack : lookupStack m ⟨d, some i, none, false⟩ ⟨d', [], none, false⟩ = .ok [] := by
    simp [lookupStack]
  refine ⟨d.isOpaque, ovlLookup_eq_ok.mpr ⟨hlen, _, _, [], none, none, hup, hst, hstack,
    lookupIndexOf_nil rfl, ?_, rfl, ?_⟩⟩
  · simp [lookupRedirect, hred]
  · simp [lookupInode, Found.positive, hm.inode]

end Found

section Result

variable {env : CreateEnv} {s t : DirState} {d : OvlDentry} {u : ℕ}

/-- The new inode is new: it has no entries, nothing leads to it, and it is not the upper
directory. -/
structure FreshCreate (env : CreateEnv) (s : DirState) (u : ℕ) : Prop where
  dir : env.created ≠ u
  workdir : env.workdir ≠ some env.created
  child : ∀ n, childAt s.fs 0 u n ≠ some env.created
  index : ∀ v o, s.mount.lookupIndex v o ≠ .ok (some env.created)
  empty : ∀ n, childAt s.fs 0 env.created n = none

theorem FreshCreate.mayCreate (h : FreshCreate env s u) {name : List UInt8} :
    MayCreate env u name
      (fun dir n => (dir = u ∧ n ≠ name) ∨ dir = env.created) (fun i => i ≠ env.created) where
  entry hc := by
    obtain hc | hc := hc
    · exact hc.2 rfl
    · exact h.dir hc.symm
  work w n hw hwork hc := by
    obtain hc | hc := hc
    · exact hw hc.1
    · exact h.workdir (hc ▸ hwork)
  created hc := hc rfl

/-- What was created is found as a pure upper object, a new directory is empty, and every
other name is found as before. -/
theorem create_is_pure_upper (env : CreateEnv) (kind : RealKind) (s t : DirState)
    (d : OvlDentry) (u : ℕ) (hkind : kind ≠ .whiteout) (hparent : d.parent.upper = some u)
    (hpaths : LowerPaths s.mount d.parent) (hfresh : FreshCreate env s u)
    (hm : FreshInMount s.mount env.created)
    (hlookup : ovlLookup s.mount s.fs d.parent d.name = .ok d.found)
    (hneg : d.found.positive = false)
    (hcreate : ovlCreateObject env kind d u s = (.ok (), t)) :
    (∃ o, ovlLookup t.mount t.fs d.parent d.name =
      .ok ⟨⟨some env.created, []⟩, true, o, none⟩) ∧
    (∀ name r, ovlLookup t.mount t.fs ⟨some env.created, []⟩ name = .ok r →
      r.positive = false) ∧
    ∀ name, name ≠ d.name →
      ovlLookup t.mount t.fs d.parent name = ovlLookup s.mount s.fs d.parent name := by
  obtain ⟨hkeep, o, ⟨hchild, hattr⟩, hover⟩ : Keeping _ _ none s
      (Created env ⟨kind, none⟩ u d.name d.isWhiteout) t :=
    (triple_ovlCreateObject kind hfresh.mayCreate).ok ⟨.refl s, trivial⟩ hcreate
  have hmount : t.mount = s.mount := by
    rw [hkeep.index.rest]
    congr 1
    funext v x
    exact hkeep.index.lookup v x (by simp)
  rw [hmount]
  have hinode : FreshInode t.fs u d.name env.created kind o :=
    ⟨⟨hchild, hattr rfl⟩, hkind⟩
  refine ⟨?_, fun name r hr => ?_, fun name hname => ?_⟩
  · refine ovlLookup_fresh hparent (ovlLookup_eq_ok.mp hlookup).1 hinode hm fun hdir ho => ?_
    refine HiddenBy.sameLower ?_ hkeep.lower hpaths.parent
    -- over a whiteout a directory is opaque, so the name was negative for another reason
    refine hiddenBy_of_negative hlookup hneg (eq_false_of_ne_true fun hcover => ?_)
    have hw : d.isWhiteout = true := by rw [OvlDentry.isWhiteout, hneg, hcover]; rfl
    rw [hover hw rfl hdir] at ho
    cases ho
  · apply eq_false_of_ne_true
    rw [positive_iff_visible hr]
    change ¬ Visible t.fs name [⟨0, env.created⟩]
    have hnone : childAt t.fs 0 env.created name = none := by
      rw [childAt, hkeep.entry _ _ (.inr rfl)]
      exact hfresh.empty name
    rw [visible_cons_absent hnone]
    exact not_visible_nil
  · refine ovlLookup_congr hpaths hkeep.lower (fun v hv => ?_) fun v x i hi => ?_
    · obtain rfl : u = v := Option.some.inj (hparent.symm.trans hv)
      refine ⟨hkeep.entry u name (.inl ⟨rfl, hname⟩), fun i hi => hkeep.inode i fun hobj => ?_⟩
      exact hfresh.child name (hobj ▸ hi)
    · rw [hkeep.inode i fun hobj => hfresh.index v x (hobj ▸ hi)]

/-- The lower layer has the directory `a` with the file `b` in it, and the upper one a
whiteout over `a`. -/
def hiddenDir : DirState where
  fs := {
    inode := fun layer i => plainInode
      (if i = 1 ∨ (layer = 1 ∧ i = 2) then .dir else if layer = 0 then .whiteout else .reg)
    lookup := fun layer i name => .ok (
      if i = 1 ∧ name = [97] then some 2
      else if layer = 1 ∧ i = 2 ∧ name = [98] then some 3
      else none) }
  mount := plainMount

/-- An environment in which no call of creation fails. -/
def quietCreate : CreateEnv where
  toDirEnv := { quietEnv with workdir := some 5 }
  fails _ := none
  created := 20
  createdTemp := [35, 49]
  setsMode := false

/-- `a` as it is found: a whiteout. -/
def whiteoutDentry : OvlDentry where
  parent := ⟨some 1, [⟨1, 1⟩]⟩
  name := [97]
  found := ⟨⟨none, []⟩, false, true, none⟩
  isDir := false

theorem freshCreate_hiddenDir : FreshCreate quietCreate hiddenDir 1 := by
  refine ⟨by decide, by decide, fun n => ?_, fun v o => ?_, fun n => ?_⟩
  · by_cases hn : n = [97] <;> simp [childAt, hiddenDir, hn, quietCreate]
  · simp [hiddenDir, plainMount]
  · simp [childAt, hiddenDir, quietCreate]

/-- The new directory does not have the file that the lower one has. -/
theorem create_is_pure_upper_mkdir :
    ∃ t, ovlMkdir quietCreate whiteoutDentry 1 hiddenDir = (.ok (), t) ∧
      (∃ o, ovlLookup t.mount t.fs whiteoutDentry.parent [97] =
        .ok ⟨⟨some 20, []⟩, true, o, none⟩) ∧
      ∀ r, ovlLookup t.mount t.fs ⟨some 20, []⟩ [98] = .ok r → r.positive = false := by
  have hok : (ovlMkdir quietCreate whiteoutDentry 1 hiddenDir).1 = .ok () := rfl
  obtain ⟨hfound, hempty, -⟩ := create_is_pure_upper quietCreate .dir hiddenDir _ whiteoutDentry 1
    (by decide) rfl ⟨by decide, by decide⟩ freshCreate_hiddenDir ⟨rfl, rfl, rfl⟩ rfl rfl
    (Prod.ext hok rfl)
  exact ⟨_, Prod.ext hok rfl, hfound, hempty [98]⟩

end Result

end FzzOverlay

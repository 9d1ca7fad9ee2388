import FzzOverlay.Dir.Upper
import FzzOverlay.Namei.Agree

/-!
# Removing a name

`ovl_do_remove` of `dir.c`. The parent has an upper directory, so that copying it up does
nothing.
-/

namespace FzzOverlay

open Act

section Remove

variable (env : DirEnv)

/-- The entry of the upper directory is the one the dentry stands for. -/
def clearedOrMatches (d : OvlDentry) (opaquedir upper : Option ℕ) : Prop :=
  match opaquedir with
  | some o => upper = some o
  | none => d.upper = upper

instance (d : OvlDentry) (opaquedir upper : Option ℕ) :
    Decidable (clearedOrMatches d opaquedir upper) :=
  match opaquedir with
  | some o => inferInstanceAs (Decidable (upper = some o))
  | none => inferInstanceAs (Decidable (d.upper = upper))

/-- The directory that `ovl_clear_empty` puts in place, if there are whiteouts to clear. -/
def clearEmptyIf (d : OvlDentry) (upperdir : ℕ) (list : List (List UInt8)) :
    DirM (Option ℕ) :=
  if list = [] then pure none
  else do
    let opaquedir ← ovlClearEmpty env d upperdir list
    pure (some opaquedir)

/-- `ovl_remove_and_whiteout`. -/
def ovlRemoveAndWhiteout (d : OvlDentry) (upperdir : ℕ) (list : List (List UInt8)) :
    DirM Unit :=
  match env.workdir with
  | none => fail EROFS
  | some workdir => do
    let opaquedir ← clearEmptyIf env d upperdir list
    ovlLockRenameWorkdir env .lockRename workdir upperdir
    let upper ← lookupOneLen env .lookupUpper upperdir d.name
    ensure ESTALE ((opaquedir = none ∧ d.upper = none) ∨ clearedOrMatches d opaquedir upper)
    ovlCleanupAndWhiteout env workdir upperdir d.name

/-- `ovl_remove_upper`. -/
def ovlRemoveUpper (d : OvlDentry) (upperdir : ℕ) (list : List (List UInt8)) : DirM Unit := do
  let opaquedir ← clearEmptyIf env d upperdir list
  let upper ← lookupOneLen env .lookupUpper upperdir d.name
  ensure ESTALE (clearedOrMatches d opaquedir upper)
  env.call (if d.isDir then .rmdir else .unlink)
  setChild upperdir d.name none

/-- `ovl_pure_upper`. -/
def ovlPureUpper (d : OvlDentry) : Bool := d.lower.isNone && !env.whiteouts

/-- `ovl_check_empty_dir`: only an upper directory has whiteouts to clear. -/
def ovlCheckEmptyDir (d : OvlDentry) : DirM (List (List UInt8)) :=
  match env.emptyDir with
  | .error e => fail e
  | .ok list => pure (if d.upper.isSome then list else [])

def checkEmptyDirIf (b : Bool) (d : OvlDentry) : DirM (List (List UInt8)) :=
  if b then ovlCheckEmptyDir env d else pure []

/-- `ovl_do_remove` in a parent with the upper directory `upperdir`. -/
def ovlDoRemove (d : OvlDentry) (upperdir : ℕ) : DirM Unit := do
  let s ← get
  let lowerPositive := ovlLowerPositive s.fs d
  let list ← checkEmptyDirIf env (d.isDir && (lowerPositive || !ovlPureUpper env d)) d
  env.call .wantWrite
  env.call .copyUpParent
  let d' ← ovlNlinkStart env d upperdir
  onError (if lowerPositive then ovlRemoveAndWhiteout env d' upperdir list
    else ovlRemoveUpper env d' upperdir list) (ovlNlinkEnd env d (nlinkCopiesUp env s d))
  ovlNlinkEnd env d (nlinkCopiesUp env s d)

end Remove

section Spec

variable {K : ℕ → List UInt8 → Prop} {J : ℕ → Prop} {s : DirState} {env : DirEnv}
  {d : OvlDentry} {upperdir : ℕ} {F : Layers → Prop}

/-- What an operation on an entry of `upperdir` may change: the entry itself, the work
directory, the inside of the inode behind the entry, and new inodes. -/
structure MayChange (env : DirEnv) (d : OvlDentry) (upperdir : ℕ)
    (K : ℕ → List UInt8 → Prop) (J : ℕ → Prop) : Prop where
  entry : ¬ K upperdir d.name
  work : ∀ w n, w ≠ upperdir → env.workdir = some w → ¬ K w n
  upper : ∀ i n, d.upper = some i → ¬ K i n
  newDir : ∀ obj n, ¬ K (env.newIno obj) n
  newIno : ∀ obj, ¬ J (env.newIno obj)

theorem triple_ovlLockRenameWorkdir (c : DirCall) {origin : Option LowerPath}
    (workdir upperdir : ℕ) :
    Triple (Keeping K J origin s F) (ovlLockRenameWorkdir env c workdir upperdir)
      (fun _ => Keeping K J origin s fun fs => F fs ∧ workdir ≠ upperdir)
      (Keeping K J origin s anyLayers) :=
  (triple_ensure EIO _).bind fun _ => triple_call c

theorem triple_ovlClearEmpty {origin : Option LowerPath} (hc : MayChange env d upperdir K J)
    (list : List (List UInt8)) :
    Triple (Keeping K J origin s anyLayers) (ovlClearEmpty env d upperdir list)
      (fun _ => Keeping K J origin s anyLayers) (Keeping K J origin s anyLayers) := by
  unfold ovlClearEmpty
  split
  · exact .fail fun _ h => h
  · exact .fail fun _ h => h
  · next workdir upper hwork hupper =>
    refine (triple_ovlLockRenameWorkdir .clearLock workdir upperdir).bind fun _ => ?_
    refine .assuming (fun _ h => h.2.2) fun hne => ?_
    have hK : ∀ n, ¬ K workdir n := fun n => hc.work workdir n hne hwork
    have hcleanup : ∀ c, Triple (Keeping K J origin s anyLayers)
        (ovlCleanup env c workdir (env.temp .opaquedir))
        (fun _ => Keeping K J origin s anyLayers) (Keeping K J origin s anyLayers) := fun c =>
      triple_ovlCleanup c (hK _) fun _ h => h
    refine (triple_call _).bind fun _ => ?_
    refine Triple.get.bind fun s₀ => ?_
    refine Triple.mono (P := Keeping K J origin s anyLayers) ?_ (fun _ h => h.1.any)
      fun _ _ h => h
    refine (triple_ensure ESTALE _).bind fun _ => ?_
    refine (triple_ensure ESTALE _).bind fun _ => ?_
    refine Triple.mono (P := Keeping K J origin s anyLayers) ?_ (fun _ h => h.any)
      fun _ _ h => h
    refine (triple_createTemp _ _ _ _ (hK _) (hc.newIno _)).bind fun _ => ?_
    refine Triple.bind (Q := fun _ => Keeping K J origin s anyLayers) ?_ fun _ => ?_
    · refine Triple.onError ?_ (hcleanup _)
      refine (triple_call _).bind fun _ => (triple_call _).bind fun _ => ?_
      refine Triple.bind (triple_setInode (G := EntryIs workdir (env.temp .opaquedir)
        (env.newIno .opaquedir) { newInode .dir with isOpaque := true }) _ (hc.newIno _)
        fun fs h => ⟨h.1, inode_setInode_self⟩) fun _ => ?_
      refine (triple_call _).bind fun _ => ?_
      exact (triple_doExchange _ (hK _) hc.entry).mono (fun _ h => h) fun _ _ h => h.any
    · refine (triple_ovlCleanupWhiteouts (fun n => hc.upper upper n hupper) list).bind
        fun _ => (hcleanup _).bind fun _ => .pure fun _ h => h

theorem triple_clearEmptyIf {origin : Option LowerPath} (hc : MayChange env d upperdir K J)
    (list : List (List UInt8)) :
    Triple (Keeping K J origin s anyLayers) (clearEmptyIf env d upperdir list)
      (fun _ => Keeping K J origin s anyLayers) (Keeping K J origin s anyLayers) := by
  refine .ite (fun _ => .pure fun _ h => h) fun _ => ?_
  exact (triple_ovlClearEmpty hc list).bind fun _ => .pure fun _ h => h

theorem triple_ovlRemoveAndWhiteout {origin : Option LowerPath}
    (hc : MayChange env d upperdir K J) (list : List (List UInt8)) :
    Triple (Keeping K J origin s anyLayers) (ovlRemoveAndWhiteout env d upperdir list)
      (fun _ => Keeping K J origin s
        (EntryIs upperdir d.name (env.newIno .whiteout) (newInode .whiteout)))
      (Keeping K J origin s anyLayers) := by
  unfold ovlRemoveAndWhiteout
  split
  · exact .fail fun _ h => h
  · next workdir hwork =>
    refine (triple_clearEmptyIf hc list).bind fun opaquedir => ?_
    refine (triple_ovlLockRenameWorkdir .lockRename workdir upperdir).bind fun _ => ?_
    refine .assuming (fun _ h => h.2.2) fun hne => ?_
    refine (triple_lookupOneLen _ _ _).bind fun upper => ?_
    refine (triple_ensure ESTALE _).bind fun _ => ?_
    refine Triple.mono (P := Keeping K J origin s anyLayers) ?_ (fun _ h => h.any)
      fun _ _ h => h
    exact triple_ovlCleanupAndWhiteout hne (hc.work workdir _ hne hwork) hc.entry (hc.newIno _)

theorem triple_ovlRemoveUpper {origin : Option LowerPath} (hc : MayChange env d upperdir K J)
    (list : List (List UInt8)) :
    Triple (Keeping K J origin s anyLayers) (ovlRemoveUpper env d upperdir list)
      (fun _ => Keeping K J origin s fun fs => fs.lookup 0 upperdir d.name = .ok none)
      (Keeping K J origin s anyLayers) := by
  refine (triple_clearEmptyIf hc list).bind fun opaquedir => ?_
  refine (triple_lookupOneLen _ _ _).bind fun upper => ?_
  refine (triple_ensure ESTALE _).bind fun _ => ?_
  refine (triple_call _).bind fun _ => ?_
  exact triple_setChild _ hc.entry fun fs _ => lookup_setChild_self

theorem triple_copyUpInode {i : ℕ} (s₀ : DirState) (hJ : d.upper = none → ¬ J i) :
    Triple (Keeping K J d.lower s anyLayers) (copyUpInode env s₀ d i)
      (fun _ => Keeping K J d.lower s anyLayers) (Keeping K J d.lower s anyLayers) := by
  unfold copyUpInode
  split
  · next lower hupper hlower =>
    refine Triple.bind (triple_setInode (G := anyLayers) _ (hJ hupper) fun _ h => h) fun _ => ?_
    exact .doIf fun _ => triple_setIndex _ hlower
  · exact .pure fun _ h => h

theorem MayChange.copiedUp (hc : MayChange env d upperdir K J) :
    MayChange env (d.copiedUp (d.upper.getD (env.newIno .copyUp))) upperdir K J where
  entry := hc.entry
  work := hc.work
  upper i n hi := by
    rw [← Option.some.inj hi]
    cases hu : d.upper with
    | none => exact hc.newDir _ n
    | some j => exact hc.upper j n hu
  newDir := hc.newDir
  newIno := hc.newIno

/-- `ovl_nlink_start` copies up at most the entry, and gives a dentry with the same name. -/
theorem triple_ovlNlinkStart (hc : MayChange env d upperdir K J) :
    Triple (Keeping K J d.lower s anyLayers) (ovlNlinkStart env d upperdir)
      (fun d' t => Keeping K J d.lower s anyLayers t ∧ d'.name = d.name ∧
        MayChange env d' upperdir K J) (Keeping K J d.lower s anyLayers) := by
  refine Triple.get.bind fun s₀ => ?_
  refine Triple.mono (P := Keeping K J d.lower s anyLayers) ?_ (fun _ h => h.1)
    fun _ _ h => h
  refine Triple.bind (Q := fun d' t => Keeping K J d.lower s anyLayers t ∧ d'.name = d.name ∧
    MayChange env d' upperdir K J) ?_ fun d' => ?_
  · refine .ite (fun _ => ?_) fun _ => .pure fun _ h => ⟨h, rfl, hc⟩
    refine (triple_call _).bind fun _ => Triple.get.bind fun s₁ => ?_
    refine Triple.mono (P := Keeping K J d.lower s anyLayers) ?_ (fun _ h => h.1)
      fun _ _ h => h
    refine (triple_copyUpInode s₁ fun hn => ?_).bind fun _ => ?_
    · rw [hn]
      exact hc.newIno _
    refine Triple.bind (triple_setChild (G := anyLayers) _ hc.entry fun _ h => h) fun _ => ?_
    exact .pure fun _ h => ⟨h, rfl, hc.copiedUp⟩
  · refine .assuming (fun _ h => h.2) fun hd' => ?_
    refine Triple.mono (P := Keeping K J d.lower s anyLayers) ?_ (fun _ h => h.1)
      fun _ _ h => h
    refine (triple_call _).bind fun _ => ?_
    refine Triple.bind (Triple.doIf fun _ => triple_call _) fun _ => ?_
    exact .pure fun _ h => ⟨h, hd'⟩

theorem triple_ovlNlinkEnd {copied : Bool} {E : DirState → Prop} :
    Triple (Keeping K J d.lower s F) (ovlNlinkEnd env d copied)
      (fun _ => Keeping K J d.lower s F) E := by
  refine Triple.get.bind fun s₀ => ?_
  refine Triple.mono (P := Keeping K J d.lower s F) ?_ (fun _ h => h.1) fun _ _ h => h
  split
  · exact .pure fun _ h => h
  · next lower hlower =>
    refine .doIf fun _ => .ignore ?_
    have hcall : Triple (Keeping K J d.lower s F) (env.call .cleanupIndex)
        (fun _ => Keeping K J d.lower s F) (Keeping K J d.lower s F) := .check fun _ h => h
    exact hcall.bind fun _ => triple_setIndex _ hlower

/-- What removal leaves under the name. -/
def Removed (env : DirEnv) (upperdir : ℕ) (name : List UInt8) (lowerPositive : Bool)
    (fs : Layers) : Prop :=
  if lowerPositive then EntryIs upperdir name (env.newIno .whiteout) (newInode .whiteout) fs
  else fs.lookup 0 upperdir name = .ok none

/-- `ovl_do_remove` changes nothing else, and when it succeeds the entry is a whiteout or
gone. -/
theorem triple_ovlDoRemove (hc : MayChange env d upperdir K J) :
    Triple (fun t => t = s) (ovlDoRemove env d upperdir)
      (fun _ => Keeping K J d.lower s (Removed env upperdir d.name (ovlLowerPositive s.fs d)))
      (Keeping K J d.lower s anyLayers) := by
  refine Triple.get.bind fun s₀ => ?_
  refine .assuming (fun t h => h.2.trans h.1) fun hs₀ => ?_
  subst hs₀
  refine Triple.mono (P := Keeping K J d.lower s₀ anyLayers) ?_ (fun t h => ?_) fun _ _ h => h
  · refine Triple.bind (Q := fun _ => Keeping K J d.lower s₀ anyLayers) ?_ fun list => ?_
    · refine .ite (fun _ => ?_) fun _ => .pure fun _ h => h
      unfold ovlCheckEmptyDir
      split
      · exact .fail fun _ h => h
      · exact .pure fun _ h => h
    refine (triple_call _).bind fun _ => (triple_call _).bind fun _ => ?_
    refine (triple_ovlNlinkStart hc).bind fun d' => ?_
    refine .assuming (fun _ h => h.2) fun hd' => ?_
    refine Triple.mono (P := Keeping K J d.lower s₀ anyLayers) ?_ (fun _ h => h.1)
      fun _ _ h => h
    refine Triple.bind (Q := fun _ => Keeping K J d.lower s₀
      (Removed env upperdir d.name (ovlLowerPositive s₀.fs d))) (.onError ?_ triple_ovlNlinkEnd)
      fun _ => triple_ovlNlinkEnd
    refine .ite (fun hpos => ?_) fun hpos => ?_
    · rw [hpos, ← hd'.1]
      exact triple_ovlRemoveAndWhiteout hd'.2 list
    · rw [eq_false_of_ne_true hpos, ← hd'.1]
      exact triple_ovlRemoveUpper hd'.2 list
  · rw [h.1]
    exact ⟨.refl s₀, trivial⟩

end Spec

section Hidden

variable {m : Mount} {fs : Layers} {name : List UInt8} {p : OvlEntry}

theorem visible_of_sameLower {fs' : Layers} {ls : List LowerPath} (h : SameLower fs fs')
    (hls : ∀ l ∈ ls, l.idx ≠ 0) (name : List UInt8) :
    Visible fs' name ls ↔ Visible fs name ls := by
  induction ls with
  | nil => exact iff_of_false not_visible_nil not_visible_nil
  | cons l ls ih =>
    have hl := hls l List.mem_cons_self
    specialize ih fun l' hl' => hls l' (List.mem_cons_of_mem _ hl')
    have hchild : childAt fs' l.idx l.ino name = childAt fs l.idx l.ino name := by
      rw [childAt, childAt, h.lookup _ hl]
    cases hc : childAt fs l.idx l.ino name with
    | none => rw [visible_cons_absent hc, visible_cons_absent (hchild.trans hc), ih]
    | some i =>
      rw [visible_cons_present hc, visible_cons_present (hchild.trans hc), h.inode _ hl]

/-- The lookup of a name in a lower directory did not fail. -/
def LowerFound (fs : Layers) (name : List UInt8) (l : LowerPath) : Prop :=
  match fs.lookup l.idx l.ino name with
  | .error e => e.ret = ENOENT.ret ∨ e.ret = ENAMETOOLONG.ret
  | .ok none => True
  | .ok (some i) => (fs.inode l.idx i).weird = false

/-- The scan of `ovl_lower_positive` looks at the same inode as lookup does. -/
theorem lowerScan_iff_visible {ls : List LowerPath} (h : ∀ l ∈ ls, LowerFound fs name l) :
    lowerScan fs name ls = true ↔ Visible fs name ls := by
  induction ls with
  | nil => exact iff_of_false Bool.false_ne_true not_visible_nil
  | cons l ls ih =>
    have hl := h l List.mem_cons_self
    specialize ih fun l' hl' => h l' (List.mem_cons_of_mem _ hl')
    rw [lowerScan]
    cases hlook : fs.lookup l.idx l.ino name with
    | error e =>
      simp only [LowerFound, hlook] at hl
      rw [visible_cons_absent (by rw [childAt, hlook]), ← ih]
      simp only [if_pos hl]
    | ok i =>
      cases i with
      | none => rw [visible_cons_absent (by rw [childAt, hlook]), ih]
      | some i =>
        rw [visible_cons_present (by rw [childAt, hlook])]
        exact decide_eq_true_iff

/-- A name that is visible is found by the scan, also when other lookups fail. -/
theorem lowerScan_of_visible {ls : List LowerPath} (h : Visible fs name ls) :
    lowerScan fs name ls = true := by
  induction ls with
  | nil => exact absurd h not_visible_nil
  | cons l ls ih =>
    rw [lowerScan]
    cases hlook : fs.lookup l.idx l.ino name with
    | error e =>
      rw [visible_cons_absent (by rw [childAt, hlook])] at h
      simp only [ih h, ite_self]
    | ok i =>
      cases i with
      | none =>
        rw [visible_cons_absent (by rw [childAt, hlook])] at h
        exact ih h
      | some i =>
        rw [visible_cons_present (by rw [childAt, hlook])] at h
        exact decide_eq_true h

theorem LowerFound.error {l : LowerPath} (hl : LowerFound fs name l) :
    ∀ e, fs.lookup l.idx l.ino name = .error e →
      e.ret = ENOENT.ret ∨ e.ret = ENAMETOOLONG.ret := by
  intro e he
  unfold LowerFound at hl
  simp only [he] at hl
  exact hl

theorem lowerPass_absent_rel {up : UpperLookup} {l : LowerPath} {rest : List LowerPath}
    {st : LowerLookup} {d : LookupData} (hname : st.d.name = .rel name)
    (h : ovlLookupSingle fs l.idx l.ino { st.d with last := lowerLast m l rest } name none [] =
      .ok (d, none)) :
    lowerPass m fs up l rest st = .ok (.next { st with d := d }) := by
  apply lowerPass_absent
  rw [← h, ovlLookupLayer]
  simp only [hname]

/-- Below hidden names the loop finds nothing, and it does not fail. -/
theorem poeLoop_hidden {up : UpperLookup} {ls : List LowerPath} {st : LowerLookup}
    (hn : Nothing name st) (hstop : st.d.stop = false) (hvis : ¬ Visible fs name ls)
    (hls : ∀ l ∈ ls, LowerFound fs name l) :
    ∃ st', poeLoop m fs up ls st = .ok st' ∧ Nothing name st' ∧ st'.metacopy = st.metacopy := by
  induction ls generalizing st with
  | nil => exact ⟨st, rfl, hn, rfl⟩
  | cons l ls ih =>
    have hl := hls l List.mem_cons_self
    have hls' : ∀ l' ∈ ls, LowerFound fs name l' := fun l' hl' =>
      hls l' (List.mem_cons_of_mem _ hl')
    cases hchild : childAt fs l.idx l.ino name with
    | none =>
      have hn' : Nothing name { st with d := { st.d with last := lowerLast m l ls } } :=
        ⟨hn.name, hn.isDir, hn.metacopy, hn.stack, hn.origin⟩
      rw [visible_cons_absent hchild] at hvis
      rw [poeLoop_of_next hstop (lowerPass_absent_rel hn.name
        (ovlLookupSingle_absent fs hchild hl.error))]
      exact ih hn' hstop hvis hls'
    | some i =>
      simp only [LowerFound, childAt_eq_some fs hchild] at hl
      rw [visible_cons_present hchild, not_not] at hvis
      rw [poeLoop_of_next hstop (lowerPass_absent_rel hn.name
        (ovlLookupSingle_whiteout fs hchild hl hvis)), poeLoop_of_stop rfl]
      exact ⟨_, rfl, ⟨hn.name, hn.isDir, hn.metacopy, hn.stack, hn.origin⟩, rfl⟩

/-- The end of a lookup that found nothing. -/
theorem ovlLookup_negative {up : UpperLookup} {st : LowerLookup} (hlen : name.length ≤ m.namelen)
    (hup : lookupUpper m fs p name = .ok up) (hst : lookupLower m fs p up = .ok st)
    (hupper : up.upper = none) (hn : Nothing name st) (hmeta : st.metacopy = false) :
    ∃ r, ovlLookup m fs p name = .ok r ∧ r.positive = false := by
  have hstack : lookupStack m up st = .ok [] := by
    simp [lookupStack, hmeta, hupper, hn.stack]
  have hred : lookupRedirect fs up none = .ok up.d.redirect := by
    unfold lookupRedirect
    rw [hupper]
  refine ⟨_, ovlLookup_eq_ok.mpr ⟨hlen, up, st, [], none, up.d.redirect, hup, hst, hstack,
    lookupIndexOf_nil hn.origin, hred, rfl, ?_⟩, ?_⟩
  · simp [lookupInode, Found.positive, hupper]
  · simp [Found.positive, hupper]

/-- Over a whiteout in the upper directory nothing is found. -/
theorem ovlLookup_over_whiteout {u i : ℕ} (hlen : name.length ≤ m.namelen)
    (hparent : p.upper = some u) (hentry : EntryIs u name i (newInode .whiteout) fs) :
    ∃ r, ovlLookup m fs p name = .ok r ∧ r.positive = false := by
  have hsingle : ovlLookupLayer fs 0 u (initData m p name) =
      .ok ({ initData m p name with stop := true, isOpaque := true }, none) :=
    ovlLookupSingle_whiteout fs hentry.1 (by rw [hentry.2]; rfl)
      (by rw [hentry.2]; rfl)
  have hup : lookupUpper m fs p name =
      .ok ⟨{ initData m p name with stop := true, isOpaque := true }, none, none, false⟩ := by
    unfold lookupUpper
    simp only [hparent, hsingle]
  exact ovlLookup_negative hlen hup (poeLoop_of_stop rfl) rfl ⟨rfl, rfl, rfl, rfl, rfl⟩ rfl

/-- Without an entry in the upper directory a hidden name is not found. -/
theorem ovlLookup_hidden {u : ℕ} (hlen : name.length ≤ m.namelen) (hparent : p.upper = some u)
    (habsent : fs.lookup 0 u name = .ok none) (hvis : ¬ Visible fs name p.lowerstack)
    (hls : ∀ l ∈ p.lowerstack, LowerFound fs name l) :
    ∃ r, ovlLookup m fs p name = .ok r ∧ r.positive = false := by
  have hsingle : ovlLookupLayer fs 0 u (initData m p name) = .ok (initData m p name, none) :=
    ovlLookupSingle_absent fs (by rw [childAt, habsent]) (by simp [habsent])
  have hup : lookupUpper m fs p name = .ok ⟨initData m p name, none, none, false⟩ := by
    unfold lookupUpper
    simp only [hparent, hsingle]
  have hn : Nothing name ⟨initData m p name, [], none, false⟩ := ⟨rfl, rfl, rfl, rfl, rfl⟩
  obtain ⟨st, hst, hn', hmeta⟩ := poeLoop_hidden hn rfl hvis hls
  exact ovlLookup_negative hlen hup hst rfl hn' hmeta

end Hidden

section Result

variable {env : DirEnv} {s t : DirState} {d : OvlDentry} {u : ℕ}

/-- The new inodes are new, and the upper directory is not inside itself. -/
structure FreshFor (env : DirEnv) (s : DirState) (d : OvlDentry) (u : ℕ) : Prop where
  dir : ∀ obj, env.newIno obj ≠ u
  child : ∀ obj n, childAt s.fs 0 u n ≠ some (env.newIno obj)
  index : ∀ obj v o, s.mount.lookupIndex v o ≠ .ok (some (env.newIno obj))
  upper : d.upper ≠ some u

theorem FreshFor.mayChange (h : FreshFor env s d u) :
    MayChange env d u (fun dir n => dir = u ∧ n ≠ d.name) (fun i => ∀ obj, i ≠ env.newIno obj)
    where
  entry hc := hc.2 rfl
  work _ _ hw _ hc := hw hc.1
  upper _ _ hi hc := h.upper (hi.trans (congrArg some hc.1))
  newDir obj _ hc := h.dir obj hc.1
  newIno obj hc := hc obj rfl

/-- What a removal leaves of the other names: a lookup sees nothing but a change of the
index. -/
theorem ovlLookup_other (hfresh : FreshFor env s d u) (hparent : d.parent.upper = some u)
    (hpaths : LowerPaths s.mount d.parent)
    (hkeep : Keeps (fun dir n => dir = u ∧ n ≠ d.name) (fun i => ∀ obj, i ≠ env.newIno obj)
      d.lower s t) {name : List UInt8} (hname : name ≠ d.name) :
    ovlLookup s.mount t.fs d.parent name = ovlLookup s.mount s.fs d.parent name := by
  refine ovlLookup_congr hpaths hkeep.lower (fun v hv => ?_) fun v o i hi => ?_
  · obtain rfl : u = v := Option.some.inj (hparent.symm.trans hv)
    refine ⟨hkeep.entry u name ⟨rfl, hname⟩, fun i hi => hkeep.inode i fun obj hobj => ?_⟩
    exact hfresh.child obj name (hobj ▸ hi)
  · rw [hkeep.inode i fun obj hobj => hfresh.index obj v o (hobj ▸ hi)]

theorem ovlLowerPositive_of_visible (hpos : d.found.positive = true)
    (hvis : Visible s.fs d.name d.parent.lowerstack) : ovlLowerPositive s.fs d = true := by
  unfold ovlLowerPositive
  rw [hpos]
  simp only [Bool.not_true, Bool.false_eq_true, if_false]
  split
  · rfl
  · exact lowerScan_of_visible hvis

/-- A visible name without an upper inode is visible in the lower layers. -/
theorem ovlLowerPositive_iff_visible
    (hlookup : ovlLookup s.mount s.fs d.parent d.name = .ok d.found)
    (hpos : d.found.positive = true)
    (hlower : ∀ l ∈ d.parent.lowerstack, LowerFound s.fs d.name l) :
    ovlLowerPositive s.fs d = true ↔ Visible s.fs d.name d.parent.lowerstack := by
  unfold ovlLowerPositive
  rw [hpos]
  simp only [Bool.not_true, Bool.false_eq_true, if_false]
  split
  · next hnone =>
    refine ⟨fun _ => ?_, fun _ => rfl⟩
    have hvis := (positive_iff_visible hlookup).mp hpos
    obtain ⟨up, st, index, redirect, hup, -, -, -, -, hr⟩ := ovlLookup_ok hlookup
    have hupper : up.upper = none := by
      rw [OvlDentry.upper, hr] at hnone
      cases hu : up.upper with
      | none => rfl
      | some i =>
        rw [hu] at hnone
        cases hnone
    cases lookupUpper_cases hup with
    | absent hchild => exact (visible_upper_absent hchild).mp hvis
    | whiteout v i hv hchild hkind =>
      rw [OvlEntry.layers_upper hv, visible_cons_present hchild] at hvis
      exact absurd hkind hvis
    | found => cases hupper
  · exact lowerScan_iff_visible hlower

/-- After a removal that succeeds the name is not found, and a whiteout hides it just when
the topmost lower entry is there and is not a whiteout. Other names are found as before:
only for another name of the removed inode the upper inode may come from the index now. -/
theorem remove_hides_name (env : DirEnv) (s t : DirState) (d : OvlDentry) (u : ℕ)
    (hparent : d.parent.upper = some u) (hpaths : LowerPaths s.mount d.parent)
    (hfresh : FreshFor env s d u)
    (hlookup : ovlLookup s.mount s.fs d.parent d.name = .ok d.found)
    (hpos : d.found.positive = true)
    (hlower : ∀ l ∈ d.parent.lowerstack, LowerFound s.fs d.name l)
    (hremove : ovlDoRemove env d u s = (.ok (), t)) :
    (∃ r, ovlLookup t.mount t.fs d.parent d.name = .ok r ∧ r.positive = false) ∧
    ((∃ i, childAt t.fs 0 u d.name = some i ∧ (t.fs.inode 0 i).kind = .whiteout) ↔
      Visible s.fs d.name d.parent.lowerstack) ∧
    ∀ name, name ≠ d.name →
      ovlLookup s.mount t.fs d.parent name = ovlLookup s.mount s.fs d.parent name ∧
      ∀ r, ovlLookup s.mount s.fs d.parent name = .ok r →
        ((∀ o, r.entry.lowerstack.head? = some o → some o ≠ d.lower) →
          ovlLookup t.mount t.fs d.parent name = .ok r) ∧
        ∀ r', ovlLookup t.mount t.fs d.parent name = .ok r' →
          r'.positive = r.positive ∧ r'.entry.lowerstack = r.entry.lowerstack ∧
          r'.upperAlias = r.upperAlias ∧ r'.isOpaque = r.isOpaque ∧
          (r.upperAlias = true → r' = r) := by
  obtain ⟨hkeep, hremoved⟩ := (triple_ovlDoRemove hfresh.mayChange).ok rfl hremove
  have hlen : d.name.length ≤ t.mount.namelen := by
    rw [hkeep.index.rest]
    exact (ovlLookup_eq_ok.mp hlookup).1
  have hscan := ovlLowerPositive_iff_visible hlookup hpos hlower
  have hvis := visible_of_sameLower hkeep.lower hpaths.parent d.name
  refine ⟨?_, ?_, fun name hname => ?_⟩
  · unfold Removed at hremoved
    split at hremoved
    · exact ovlLookup_over_whiteout hlen hparent hremoved
    · next hneg =>
      refine ovlLookup_hidden hlen hparent hremoved ?_ fun l hl => ?_
      · rw [hvis, ← hscan]
        exact hneg
      · have hl₀ := hpaths.parent l hl
        rw [LowerFound, hkeep.lower.lookup _ hl₀, hkeep.lower.inode _ hl₀]
        exact hlower l hl
  · rw [← hscan]
    unfold Removed at hremoved
    split at hremoved
    · next hlp =>
      refine ⟨fun _ => hlp, fun _ => ⟨_, hremoved.1, ?_⟩⟩
      rw [hremoved.2]
      rfl
    · next hneg =>
      refine ⟨?_, fun hlp => absurd hlp hneg⟩
      rintro ⟨i, hi, -⟩
      rw [childAt, hremoved] at hi
      cases hi
  · have hother := ovlLookup_other hfresh hparent hpaths hkeep hname
    refine ⟨hother, fun r hr => ?_⟩
    rw [← hother] at hr
    refine ⟨fun hne => ovlLookup_of_sameIndex hkeep.index hr hne, fun r' hr' => ?_⟩
    refine ⟨?_, ovlLookup_index_eq hkeep.index hr hr'⟩
    rw [Bool.eq_iff_iff, positive_iff_visible hr, positive_iff_visible hr']

/-- Two names of one lower file, in a mount with an index. Inode 1 is the root of both
layers, and nothing is in the upper one. -/
def hardLinks : DirState where
  fs := {
    inode := fun _ i => plainInode (if i = 1 then .dir else .reg)
    lookup := fun layer i name =>
      .ok (if layer = 1 ∧ i = 1 ∧ (name = [97] ∨ name = [98]) then some 2 else none) }
  mount := { plainMount with index := true, indexdir := true }

/-- An environment in which no call fails. -/
def quietEnv : DirEnv where
  err _ := none
  workdir := some 2
  newIno
    | .whiteout => 10
    | .opaquedir => 11
    | .copyUp => 12
    | .dirIndex => 13
  temp
    | .whiteout => [35, 49]
    | _ => [35, 50]
  nlink _ := 2
  emptyDir := .ok []
  indexed := false
  whiteouts := false
  nlinkZero := false
  upperNlinkOne := false

/-- The first of the two names. -/
def firstLink : OvlDentry where
  parent := ⟨some 1, [⟨1, 1⟩]⟩
  name := [97]
  found := ⟨⟨none, [⟨1, 2⟩]⟩, false, false, none⟩
  isDir := false

theorem remove_hides_name_hardLinks :
    (ovlDoRemove quietEnv firstLink 1 hardLinks).1 = .ok () ∧
      ∃ r, ovlLookup (ovlDoRemove quietEnv firstLink 1 hardLinks).2.mount
        (ovlDoRemove quietEnv firstLink 1 hardLinks).2.fs firstLink.parent [97] = .ok r ∧
        r.positive = false := by
  have hok : (ovlDoRemove quietEnv firstLink 1 hardLinks).1 = .ok () := rfl
  refine ⟨hok, (remove_hides_name quietEnv hardLinks _ firstLink 1 rfl ?_ ?_ rfl rfl ?_
    (Prod.ext hok rfl)).1⟩
  · exact ⟨by decide, by decide⟩
  · refine ⟨fun obj => ?_, fun obj n => ?_, fun obj v o => ?_, by decide⟩
    · cases obj <;> decide
    · simp [childAt, hardLinks]
    · simp [hardLinks, plainMount]
  · intro l hl
    obtain rfl : l = ⟨1, 1⟩ := by simpa [firstLink] using hl
    simp [LowerFound, hardLinks, firstLink, plainInode]

/-- Removing one of the two names copies the file up into the index, and the other name is
found with an upper inode afterwards. -/
theorem remove_changes_hard_link :
    ovlLookup hardLinks.mount hardLinks.fs firstLink.parent [97] = .ok firstLink.found ∧
      firstLink.found.positive = true ∧
      (ovlDoRemove quietEnv firstLink 1 hardLinks).1 = .ok () ∧
      ovlLookup hardLinks.mount hardLinks.fs firstLink.parent [98] =
        .ok ⟨⟨none, [⟨1, 2⟩]⟩, false, false, none⟩ ∧
      ovlLookup (ovlDoRemove quietEnv firstLink 1 hardLinks).2.mount
        (ovlDoRemove quietEnv firstLink 1 hardLinks).2.fs firstLink.parent [98] =
        .ok ⟨⟨some 12, [⟨1, 2⟩]⟩, false, false, none⟩ :=
  ⟨rfl, rfl, rfl, rfl, rfl⟩

end Result

end FzzOverlay

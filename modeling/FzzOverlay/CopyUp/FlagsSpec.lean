import FzzOverlay.CopyUp.Flags

/-!
# What a copy-up does

`ovlCopyUpFlags_cases` lists everything a call of `ovl_copy_up_flags` can have done
to a regular file when it returns, whether it succeeded or not.
-/

namespace FzzOverlay

open SparseFile

section Calls

variable {σ : Type} {env : CopyUpEnv}

theorem call_snd (env : CopyUpEnv) (p : CuPoint) (s : σ) : (env.call p s).2 = s := by
  rw [CopyUpEnv.call]
  split <;> rfl

theorem call_cases (env : CopyUpEnv) (p : CuPoint) (s : σ) :
    env.call p s = (0, s) ∨ ∃ e : Errno, env.call p s = (e.ret, s) := by
  rw [CopyUpEnv.call]
  split
  · exact .inl rfl
  · exact .inr ⟨_, rfl⟩

@[simp] theorem cuThen_zero (s : σ) (k : σ → ℤ × σ) : cuThen (0, s) k = k s := if_pos rfl

/-- A property of results that failing calls have and the continuation keeps. -/
theorem cuThen_call {P : ℤ × σ → Prop} {p : CuPoint} {s : σ} {k : σ → ℤ × σ}
    (hfail : ∀ e : Errno, P (e.ret, s)) (hk : P (k s)) : P (cuThen (env.call p s) k) := by
  obtain h | ⟨e, h⟩ := call_cases env p s
  · rw [h]
    exact hk
  · rw [h, cuThen, if_neg (Int.ne_of_lt e.ret_neg)]
    exact hfail e

end Calls

/-- The overlay inode after copy-on-write mode was set up with a block map at `addr`. -/
def cowSetUp (addr size : ℕ) (oi : OvlInode) : OvlInode :=
  { oi with
    cowStatus := true
    blockCount := countBlocks size
    blockStatus := some ⟨addr, fun _ => .uncopy⟩ }

/-- The inode fields `ovl_copy_up_inode` leaves behind, whether it succeeds or not. -/
def copiedUpInode (env : CopyUpEnv) (c : CopyUpCtx) (oi : OvlInode) : OvlInode :=
  if c.metacopy ∨ c.size = 0 then oi
  else
    match env.mem with
    | none => { oi with cowStatus := true, blockCount := countBlocks c.size }
    | some addr => cowSetUp addr c.size oi

/-- The new upper inode of a copy-up that succeeds. -/
def copiedUpTemp (c : CopyUpCtx) : UpperInode :=
  if c.metacopy then ⟨.truncate .empty c.size, true⟩ else newTemp

theorem setupCow_cases (env : CopyUpEnv) (c : CopyUpCtx) (oi : OvlInode) (temp : UpperInode) :
    (setupCow env c (oi, temp)).2 = (copiedUpInode env c oi, temp) ∧
      ((setupCow env c (oi, temp)).1 = 0 →
        c.metacopy = true ∨ c.size = 0 ∨ env.mem.isSome) := by
  rw [setupCow, copiedUpInode]
  by_cases hm : c.metacopy = true
  · simp [hm]
  by_cases hs : c.size = 0
  · simp [hs]
  cases hmem : env.mem with
  | none =>
    have hneg : ENOMEM.ret ≠ 0 := Int.ne_of_lt ENOMEM.ret_neg
    simp [hm, hs, hneg]
  | some addr => simp [hm, hs, cowSetUp]

/-- What `ovl_copy_up_inode` may end with. -/
def InodeCopiedUp (env : CopyUpEnv) (c : CopyUpCtx) (oi : OvlInode)
    (r : ℤ × (OvlInode × UpperInode)) : Prop :=
  r.2.1 = copiedUpInode env c oi ∧
    (r.1 = 0 → r.2.2 = copiedUpTemp c ∧ (c.metacopy = true ∨ c.size = 0 ∨ env.mem.isSome))

theorem inodeCopiedUp_fail {env : CopyUpEnv} {c : CopyUpCtx} {oi : OvlInode} (e : Errno)
    (temp : UpperInode) : InodeCopiedUp env c oi (e.ret, (copiedUpInode env c oi, temp)) :=
  ⟨rfl, fun h => absurd h (Int.ne_of_lt e.ret_neg)⟩

theorem ovlCopyUpInode_cases (env : CopyUpEnv) (c : CopyUpCtx) (oi : OvlInode) :
    InodeCopiedUp env c oi (ovlCopyUpInode env c oi newTemp) := by
  obtain ⟨hset, hmem⟩ := setupCow_cases env c oi newTemp
  rw [ovlCopyUpInode]
  revert hset hmem
  obtain ⟨ret, s⟩ := setupCow env c (oi, newTemp)
  rintro rfl hmem
  by_cases h0 : ret = 0
  · subst h0
    have hlast : ∀ temp, temp = copiedUpTemp c →
        InodeCopiedUp env c oi (env.call .setAttr (copiedUpInode env c oi, temp)) := by
      intro temp ht
      obtain h | ⟨e, h⟩ := call_cases env .setAttr (copiedUpInode env c oi, temp)
      · rw [h]
        exact ⟨rfl, fun _ => ⟨ht, hmem rfl⟩⟩
      · rw [h]
        exact inodeCopiedUp_fail e temp
    rw [cuThen_zero]
    refine cuThen_call (fun e => inodeCopiedUp_fail e _) ?_
    -- Setting the origin only adds a point of failure.
    have horigin : ∀ k : OvlInode × UpperInode → ℤ × (OvlInode × UpperInode),
        InodeCopiedUp env c oi (k (copiedUpInode env c oi, newTemp)) →
        InodeCopiedUp env c oi (cuThen (if c.origin then
          env.call .setOrigin (copiedUpInode env c oi, newTemp)
          else (0, (copiedUpInode env c oi, newTemp))) k) := by
      intro k hk
      split
      · exact cuThen_call (fun e => inodeCopiedUp_fail e _) hk
      · rw [cuThen_zero]
        exact hk
    refine horigin _ ?_
    by_cases hm : c.metacopy = true
    · simp only [hm, if_true]
      have htemp : copiedUpTemp c = ⟨.truncate .empty c.size, true⟩ := if_pos hm
      obtain h | ⟨e, h⟩ := call_cases env .setMetacopy (copiedUpInode env c oi, newTemp)
      · rw [h, cuThen_zero, cuThen_zero]
        obtain h | ⟨e, h⟩ := call_cases env .setSize
          (copiedUpInode env c oi, { newTemp with metacopy := true })
        · rw [h, cuThen_zero, cuThen_zero]
          exact hlast _ htemp.symm
        · rw [h]
          simp only [cuThen, if_neg (Int.ne_of_lt e.ret_neg)]
          exact inodeCopiedUp_fail e _
      · rw [h]
        simp only [cuThen, if_neg (Int.ne_of_lt e.ret_neg)]
        exact inodeCopiedUp_fail e _
    · simp only [hm, if_false, Bool.false_eq_true, cuThen_zero]
      exact hlast _ (if_neg hm).symm
  · rw [cuThen, if_neg h0]
    exact ⟨rfl, fun h => absurd h h0⟩

/-- `struct ovl_copy_up_ctx` of a call on `f`. -/
def copyUpCtx (env : CopyUpEnv) (f : OvlFile) (flags : ℕ) : CopyUpCtx :=
  ⟨if hasTrunc flags then 0 else (f.lowerAt f.ovlPathLower).size, false,
    ovlNeedMetaCopyUp env.metacopy flags⟩

/-- The file after a new upper inode was installed. -/
def installedFile (env : CopyUpEnv) (c : CopyUpCtx) (f : OvlFile) (linked : Bool) : OvlFile :=
  { f with
    upper := some (copiedUpTemp c)
    upperAlias := linked
    oi := { copiedUpInode env c f.oi with
      upperdata := if c.metacopy then (copiedUpInode env c f.oi).upperdata else true } }

/-- The file after the data copy-up of a metadata-only inode. -/
def completedFile (f : OvlFile) (linked : Bool) : OvlFile :=
  { f with
    upper := f.upper.map fun u => { u with metacopy := false }
    upperAlias := linked
    oi := { f.oi with upperdata := true } }

/-- What the part of `ovl_copy_up_one` that installs and links the upper file may
have done. -/
inductive CopyUpStage (env : CopyUpEnv) (c : CopyUpCtx) (f : OvlFile) : ℤ × OvlFile → Prop
  | linked (ret : ℤ) (a : Bool) (hup : ret = 0 → f.upper.isSome) :
      CopyUpStage env c f (ret, { f with upperAlias := a })
  | unfinished (ret : ℤ) (hup : f.upper = none) (hret : ret ≠ 0) :
      CopyUpStage env c f (ret, { f with oi := copiedUpInode env c f.oi })
  | installed (ret : ℤ) (a : Bool) (hup : f.upper = none)
      (hmem : c.metacopy = true ∨ c.size = 0 ∨ env.mem.isSome) :
      CopyUpStage env c f (ret, installedFile env c f a)

section Stages

variable {env : CopyUpEnv} {c : CopyUpCtx} {f : OvlFile}

theorem CopyUpStage.fail (e : Errno) : CopyUpStage env c f (e.ret, f) :=
  .linked e.ret f.upperAlias fun h => absurd h (Int.ne_of_lt e.ret_neg)

theorem copyUpStage_copyUpTemp (hup : f.upper = none) :
    CopyUpStage env c f (copyUpTemp env c f) := by
  obtain ⟨hoi, hok⟩ := ovlCopyUpInode_cases env c f.oi
  rw [copyUpTemp]
  simp only
  split
  · next hret =>
    rw [hoi]
    exact .unfinished _ hup hret
  · next hret =>
    obtain ⟨htemp, hmem⟩ := hok (not_not.mp hret)
    rw [hoi, htemp]
    refine cuThen_call (fun e => .unfinished _ hup (Int.ne_of_lt e.ret_neg)) ?_
    refine cuThen_call (fun e => .unfinished _ hup (Int.ne_of_lt e.ret_neg)) ?_
    exact .installed 0 f.upperAlias hup hmem

theorem copyUpStage_ovlCopyUpTmpfile (hup : f.upper = none) :
    CopyUpStage env c f (ovlCopyUpTmpfile env c f) :=
  cuThen_call .fail (cuThen_call .fail (copyUpStage_copyUpTemp hup))

theorem copyUpStage_ovlCopyUpWorkdir (hup : f.upper = none) :
    CopyUpStage env c f (ovlCopyUpWorkdir env c f) :=
  cuThen_call .fail (cuThen_call .fail (cuThen_call .fail (copyUpStage_copyUpTemp hup)))

/-- Linking the upper file, or failing to, after any stage. -/
theorem CopyUpStage.link {r : ℤ × OvlFile} (h : CopyUpStage env c f r) (ret : ℤ) (a : Bool)
    (hr : r.1 = 0) : CopyUpStage env c f (ret, { r.2 with upperAlias := a }) := by
  cases h with
  | linked _ _ hup => exact .linked ret a fun _ => hup hr
  | unfinished _ _ hret => exact absurd hr hret
  | installed _ _ hup hmem => exact .installed ret a hup hmem

theorem CopyUpStage.of_ctx {c' : CopyUpCtx} {r : ℤ × OvlFile} (h : CopyUpStage env c' f r)
    (hsize : c'.size = c.size) (hmeta : c'.metacopy = c.metacopy) : CopyUpStage env c f r := by
  have hoi : copiedUpInode env c' f.oi = copiedUpInode env c f.oi := by
    simp only [copiedUpInode, hsize, hmeta]
  have htemp : copiedUpTemp c' = copiedUpTemp c := by
    simp only [copiedUpTemp, hsize, hmeta]
  cases h with
  | linked ret a hup => exact .linked ret a hup
  | unfinished ret hup hret =>
    rw [hoi]
    exact .unfinished ret hup hret
  | installed ret a hup hmem =>
    rw [installedFile, hoi, htemp, hmeta]
    exact .installed ret a hup (by rw [← hsize, ← hmeta]; exact hmem)

theorem copyUpStage_ovlDoCopyUp (hup : f.upper = none) :
    CopyUpStage env c f (ovlDoCopyUp env c f) := by
  have hinstall : ∀ r : ℤ × OvlFile, CopyUpStage env c f r →
      CopyUpStage env c f (cuThen r fun f =>
        if env.needIndex then env.call .setNlinkUpper f
        else (0, { f with upperAlias := true })) := by
    rintro ⟨ret, g⟩ hst
    by_cases hz : ret = 0
    · subst hz
      rw [cuThen_zero]
      split
      · obtain h | ⟨e, h⟩ := call_cases env .setNlinkUpper g
        · rw [h]
          exact hst
        · rw [h]
          exact hst.link e.ret g.upperAlias rfl
      · exact hst.link 0 true rfl
    · rw [cuThen, if_neg hz]
      exact hst
  have hroute : CopyUpStage env c f (if env.tmpfile then
      ovlCopyUpTmpfile env { c with origin := env.nlinkOne || env.needIndex } f
      else ovlCopyUpWorkdir env { c with origin := env.nlinkOne || env.needIndex } f) := by
    split
    · exact (copyUpStage_ovlCopyUpTmpfile hup).of_ctx rfl rfl
    · exact (copyUpStage_ovlCopyUpWorkdir hup).of_ctx rfl rfl
  have hguard : (if env.needIndex then env.call .getIndexName f
      else if env.disconnected then (Errno.ret EIO, f) else env.call .setImpure f) = (0, f) ∨
      ∃ e : Errno, (if env.needIndex then env.call .getIndexName f
        else if env.disconnected then (Errno.ret EIO, f)
        else env.call .setImpure f) = (e.ret, f) := by
    split
    · exact call_cases env _ f
    · split
      · exact .inr ⟨_, rfl⟩
      · exact call_cases env _ f
  rw [ovlDoCopyUp]
  obtain h | ⟨e, h⟩ := hguard
  · simp only [h, cuThen_zero]
    exact hinstall _ hroute
  · simp only [h]
    rw [cuThen, if_neg (Int.ne_of_lt e.ret_neg)]
    exact .fail e

theorem ovlLinkUp_cases (env : CopyUpEnv) (f : OvlFile) :
    ∃ ret a, ovlLinkUp env f = (ret, { f with upperAlias := a }) ∧ (ret = 0 → a = true) := by
  have hfail : ∀ e : Errno, ∃ ret a, (e.ret, f) = (ret, { f with upperAlias := a }) ∧
      (ret = 0 → a = true) :=
    fun e => ⟨e.ret, f.upperAlias, rfl, fun h => absurd h (Int.ne_of_lt e.ret_neg)⟩
  let P : ℤ × OvlFile → Prop := fun r =>
    ∃ ret a, r = (ret, { f with upperAlias := a }) ∧ (ret = 0 → a = true)
  have hlast : P (env.call .linkSetNlinkUpper { f with upperAlias := true }) := by
    obtain h | ⟨e, h⟩ := call_cases env .linkSetNlinkUpper { f with upperAlias := true }
    · exact ⟨0, true, h, fun _ => rfl⟩
    · exact ⟨e.ret, true, h, fun _ => rfl⟩
  have : P (ovlLinkUp env f) :=
    cuThen_call hfail (cuThen_call hfail (cuThen_call hfail (cuThen_call hfail hlast)))
  exact this

theorem ovlCopyUpMetaInodeData_cases (env : CopyUpEnv) (c : CopyUpCtx) (f : OvlFile) :
    (∃ e : Errno, ovlCopyUpMetaInodeData env c f = (e.ret, f)) ∨
      (f.upper.isSome ∧
        ovlCopyUpMetaInodeData env c f = (0, completedFile f f.upperAlias)) := by
  let P : ℤ × OvlFile → Prop := fun r =>
    (∃ e : Errno, r = (e.ret, f)) ∨ (f.upper.isSome ∧ r = (0, completedFile f f.upperAlias))
  have hfail : ∀ e : Errno, P (e.ret, f) := fun e => .inl ⟨e, rfl⟩
  have hguard : ∀ {b : Prop} [Decidable b] (p : CuPoint) (k : OvlFile → ℤ × OvlFile), P (k f) →
      P (cuThen (if b then env.call p f else (0, f)) k) := by
    intro b _ p k hk
    split
    · exact cuThen_call hfail hk
    · rw [cuThen_zero]
      exact hk
  change P (ovlCopyUpMetaInodeData env c f)
  rw [ovlCopyUpMetaInodeData]
  split
  · exact hfail EIO
  · exact hfail EIO
  · next u _ _ hu _ =>
    have hdata : ((ovlCopyUpData c.size u.data).1, f.setUpperData (ovlCopyUpData c.size u.data).2) =
        (0, f) := by
      have hsame : f.upperData = u.data := by rw [OvlFile.upperData, hu]
      rw [ovlCopyUpData, ite_self, ← hsame, OvlFile.setUpperData_upperData]
    refine hguard _ _ ?_
    rw [hdata, cuThen_zero]
    refine hguard _ _ (cuThen_call hfail ?_)
    exact .inr ⟨by rw [hu]; rfl, rfl⟩

/-- Everything a copy-up with the given flags can have done to the file. -/
inductive CopyUpCase (env : CopyUpEnv) (flags : ℕ) (f : OvlFile) : ℤ × OvlFile → Prop
  | linked (ret : ℤ) (a : Bool)
      (hok : ret = 0 → f.upper.isSome ∧ needsDataCopyUpLocked f flags = false) :
      CopyUpCase env flags f (ret, { f with upperAlias := a })
  | unfinished (ret : ℤ) (hup : f.upper = none) (hret : ret ≠ 0) :
      CopyUpCase env flags f (ret, { f with oi := copiedUpInode env (copyUpCtx env f flags) f.oi })
  | installed (ret : ℤ) (a : Bool) (hup : f.upper = none)
      (hmem : (copyUpCtx env f flags).metacopy = true ∨ (copyUpCtx env f flags).size = 0 ∨
        env.mem.isSome) :
      CopyUpCase env flags f (ret, installedFile env (copyUpCtx env f flags) f a)
  | completed (ret : ℤ) (a : Bool) (hup : f.upper.isSome)
      (hneed : needsDataCopyUpLocked f flags = true) (hret : ret = 0) :
      CopyUpCase env flags f (ret, completedFile f a)

/-- A file that has its data in the upper layer is at most linked. -/
theorem CopyUpCase.of_upperdata {env : CopyUpEnv} {flags : ℕ} {f g : OvlFile} {ret : ℤ}
    (h : CopyUpCase env flags f (ret, g)) (hup : f.upper.isSome)
    (hdata : f.oi.upperdata = true) : ∃ a, g = { f with upperAlias := a } := by
  have hne : f.upper ≠ none := Option.isSome_iff_ne_none.mp hup
  generalize hr : (ret, g) = r at h
  cases h with
  | linked ret a hok =>
    obtain ⟨-, rfl⟩ := Prod.mk.inj hr
    exact ⟨a, rfl⟩
  | unfinished ret hup hret => exact absurd hup hne
  | installed ret a hup hmem => exact absurd hup hne
  | completed ret a hup hneed =>
    rw [needsDataCopyUpLocked, hdata] at hneed
    simp at hneed

theorem ovlNeedMetaCopyUp_eq (metacopy : Bool) (flags : ℕ) :
    ovlNeedMetaCopyUp metacopy flags = (metacopy && !ovlOpenFlagsNeedCopyUp flags) := by
  rw [ovlNeedMetaCopyUp, ovlOpenFlagsNeedCopyUp]
  by_cases h : flags = 0 <;> cases metacopy <;> cases openFmodeWrite flags <;>
    cases hasTrunc flags <;> simp [h]

/-- A newly installed upper inode never needs its data copied up in the same call. -/
theorem needsDataCopyUpLocked_installedFile (env : CopyUpEnv) (f : OvlFile) (flags : ℕ) (a : Bool) :
    needsDataCopyUpLocked (installedFile env (copyUpCtx env f flags) f a) flags = false := by
  rw [needsDataCopyUpLocked]
  cases h : ovlOpenFlagsNeedCopyUp flags with
  | false => rfl
  | true =>
    have hmeta : (copyUpCtx env f flags).metacopy = false := by
      rw [copyUpCtx, ovlNeedMetaCopyUp_eq, h, Bool.not_true, Bool.and_false]
    simp [installedFile, hmeta]

/-- A case of `CopyUpCase` in which success leaves the file copied up. -/
def CopyUpDone (env : CopyUpEnv) (flags : ℕ) (f : OvlFile) (r : ℤ × OvlFile) : Prop :=
  CopyUpCase env flags f r ∧ (r.1 = 0 → ovlAlreadyCopiedUp env r.2 flags = true)

theorem CopyUpDone.fail {flags : ℕ} (e : Errno) : CopyUpDone env flags f (e.ret, f) :=
  ⟨.linked e.ret f.upperAlias fun h => absurd h (Int.ne_of_lt e.ret_neg),
    fun h => absurd h (Int.ne_of_lt e.ret_neg)⟩

theorem ovlAlreadyCopiedUp_of_locked {flags : ℕ} (hup : f.upper.isSome = true)
    (hlink : (f.upperAlias || env.disconnected) = true)
    (hneed : needsDataCopyUpLocked f flags = false) : ovlAlreadyCopiedUp env f flags = true := by
  rw [needsDataCopyUpLocked] at hneed
  rw [ovlAlreadyCopiedUp, OvlFile.ovlHasUpperdata, hup, hlink]
  cases h : ovlOpenFlagsNeedCopyUp flags with
  | false => rfl
  | true =>
    simp only [h, Bool.not_true, Bool.false_eq_true, if_false, Bool.not_eq_false'] at hneed
    simp [hneed]

/-- The last statement of `ovl_copy_up_one`. -/
theorem CopyUpStage.complete {flags : ℕ} {g : OvlFile}
    (h : CopyUpStage env (copyUpCtx env f flags) f (0, g))
    (hlink : (g.upperAlias || env.disconnected) = true) :
    CopyUpDone env flags f (if needsDataCopyUpLocked g flags then
      ovlCopyUpMetaInodeData env (copyUpCtx env f flags) g else (0, g)) := by
  generalize hr : ((0 : ℤ), g) = r at h
  cases h with
  | linked ret a hup =>
    obtain ⟨rfl, rfl⟩ := Prod.mk.inj hr
    split
    · next hneed =>
      obtain ⟨e, he⟩ | ⟨hsome, hok⟩ := ovlCopyUpMetaInodeData_cases env (copyUpCtx env f flags)
        { f with upperAlias := a }
      · rw [he]
        exact ⟨.linked e.ret a fun h => absurd h (Int.ne_of_lt e.ret_neg),
          fun h => absurd h (Int.ne_of_lt e.ret_neg)⟩
      · rw [hok]
        refine ⟨.completed 0 a hsome hneed rfl, fun _ => ovlAlreadyCopiedUp_of_locked ?_ hlink ?_⟩
        · simpa [completedFile] using hsome
        · simp [needsDataCopyUpLocked, completedFile]
    · next hneed =>
      have hno : needsDataCopyUpLocked f flags = false := Bool.eq_false_iff.mpr hneed
      exact ⟨.linked 0 a fun _ => ⟨hup rfl, hno⟩,
        fun _ => ovlAlreadyCopiedUp_of_locked (hup rfl) hlink hno⟩
  | unfinished ret hup hret =>
    obtain ⟨rfl, -⟩ := Prod.mk.inj hr
    exact absurd rfl hret
  | installed ret a hup hmem =>
    obtain ⟨rfl, rfl⟩ := Prod.mk.inj hr
    have hno := needsDataCopyUpLocked_installedFile env f flags a
    rw [if_neg (by simp [hno])]
    exact ⟨.installed 0 a hup hmem, fun _ => ovlAlreadyCopiedUp_of_locked rfl hlink hno⟩

theorem CopyUpStage.stop {flags : ℕ} {r : ℤ × OvlFile}
    (h : CopyUpStage env (copyUpCtx env f flags) f r) (hr : r.1 ≠ 0) :
    CopyUpDone env flags f r := by
  refine ⟨?_, fun h => absurd h hr⟩
  cases h with
  | linked ret a _ => exact .linked ret a fun h => absurd h hr
  | unfinished ret hup hret => exact .unfinished ret hup hret
  | installed ret a hup hmem => exact .installed ret a hup hmem

theorem copyUpDone_ovlCopyUpOne (env : CopyUpEnv) (f : OvlFile) (flags : ℕ) :
    CopyUpDone env flags f (ovlCopyUpOne env f flags) := by
  rw [ovlCopyUpOne]
  split
  · exact .fail EROFS
  refine cuThen_call .fail ?_
  -- The rest is the same with and without a parent to look at.
  have hrest : ∀ k : OvlFile → ℤ × OvlFile, CopyUpDone env flags f (k f) →
      CopyUpDone env flags f (cuThen (if env.disconnected then (0, f)
        else env.call .parentGetattr f) k) := by
    intro k hk
    split
    · rw [cuThen_zero]
      exact hk
    · exact cuThen_call .fail hk
  refine hrest _ (cuThen_call .fail ?_)
  split
  · next halready =>
    simp only [alreadyCopiedUpLocked, Bool.and_eq_true, Bool.not_eq_true'] at halready
    obtain ⟨⟨hup, hlink⟩, hneed⟩ := halready
    exact ⟨.linked 0 f.upperAlias fun _ => ⟨hup, hneed⟩,
      fun _ => ovlAlreadyCopiedUp_of_locked hup hlink hneed⟩
  have hstage : CopyUpStage env (copyUpCtx env f flags) f
      (if f.upper.isNone then ovlDoCopyUp env (copyUpCtx env f flags) f else (0, f)) := by
    split
    · next hnone => exact copyUpStage_ovlDoCopyUp (Option.isNone_iff_eq_none.mp hnone)
    · next hnone =>
      refine .linked 0 f.upperAlias fun _ => Option.isSome_iff_ne_none.mpr fun h => hnone ?_
      rw [h]
      rfl
  generalize hr : (if f.upper.isNone then ovlDoCopyUp env (copyUpCtx env f flags) f
    else (0, f)) = r at hstage
  change CopyUpDone env flags f (cuThen (if f.upper.isNone then
    ovlDoCopyUp env (copyUpCtx env f flags) f else (0, f)) _)
  rw [hr]
  obtain ⟨ret, g⟩ := r
  by_cases hz : ret = 0
  · subst hz
    rw [cuThen_zero]
    split
    · obtain ⟨ret', a, hlink, ha⟩ := ovlLinkUp_cases env g
      rw [hlink]
      have hstage' := hstage.link ret' a rfl
      by_cases hz' : ret' = 0
      · subst hz'
        rw [cuThen_zero]
        refine hstage'.complete ?_
        rw [show ({ g with upperAlias := a } : OvlFile).upperAlias = true from ha rfl]
        rfl
      · rw [cuThen, if_neg hz']
        exact hstage'.stop hz'
    · next hlinked =>
      rw [cuThen_zero]
      refine hstage.complete ?_
      cases ha : g.upperAlias <;> cases hd : env.disconnected <;> simp_all
  · rw [cuThen, if_neg hz]
    exact hstage.stop hz

/-- A call of `ovl_copy_up_flags` returns, and `CopyUpCase` says with what. -/
theorem ovlCopyUpFlags_cases (env : CopyUpEnv) {f : OvlFile} (hstack : f.lowerstack ≠ [])
    (flags : ℕ) : ∃ r, ovlCopyUpFlags env f flags = .ret r ∧ CopyUpCase env flags f r := by
  have hfound : ovlAlreadyCopiedUp env f flags = true → CopyUpCase env flags f (0, f) := by
    intro halready
    refine .linked 0 f.upperAlias fun _ => ?_
    have hempty : f.lowerstack.isEmpty = false := by simpa using hstack
    rw [ovlAlreadyCopiedUp, OvlFile.ovlHasUpperdata, hempty, Bool.false_or, Bool.and_eq_true,
      Bool.and_eq_true, Bool.not_eq_true'] at halready
    exact ⟨halready.1.1, halready.2⟩
  have hloop : ∀ parents : List (Option Errno), ∃ r,
      copyUpLoop env flags (parents.length + 2) parents f = .ret r ∧ CopyUpCase env flags f r := by
    intro parents
    induction parents with
    | nil =>
      rw [List.length_nil, copyUpLoop]
      split
      · next halready => exact ⟨_, rfl, hfound halready⟩
      obtain ⟨hcase, hdone⟩ := copyUpDone_ovlCopyUpOne env f flags
      simp only
      split
      · next hz =>
        rw [copyUpLoop, if_pos (hdone hz)]
        refine ⟨_, rfl, ?_⟩
        rw [← hz]
        exact hcase
      · exact ⟨_, rfl, hcase⟩
    | cons p parents ih =>
      unfold copyUpLoop
      split
      · next halready => exact ⟨_, rfl, hfound halready⟩
      · cases p with
        | none => exact ih
        | some e =>
          exact ⟨_, rfl, .linked e.ret f.upperAlias fun h => absurd h (Int.ne_of_lt e.ret_neg)⟩
  exact hloop _

end Stages

/-- The file after a copy-up that set up copy-on-write mode. -/
def freshCow (f : OvlFile) (addr : ℕ) (linked : Bool) : OvlFile :=
  { f with
    upper := some newTemp
    upperAlias := linked
    oi := { cowSetUp addr (f.lowerAt 0).size f.oi with upperdata := true } }

/-- The size a copy-up without `O_TRUNC` works with. -/
theorem copyUpCtx_size (env : CopyUpEnv) (f : OvlFile) {flags : ℕ} (h : hasTrunc flags = false) :
    (copyUpCtx env f flags).size = (f.lowerAt 0).size := by
  rw [copyUpCtx, h]
  rfl

/-- A new upper inode over a nonempty lower file, installed with its data. -/
theorem installedFile_eq_freshCow {env : CopyUpEnv} {f : OvlFile} {flags addr : ℕ} {a : Bool}
    (hmeta : (copyUpCtx env f flags).metacopy = false) (hsize : (copyUpCtx env f flags).size ≠ 0)
    (hmem : env.mem = some addr) :
    installedFile env (copyUpCtx env f flags) f a = freshCow f addr a := by
  have htrunc : hasTrunc flags = false := by
    by_contra h
    rw [Bool.not_eq_false] at h
    exact hsize (by rw [copyUpCtx, h]; rfl)
  have hcond : ¬ ((copyUpCtx env f flags).metacopy = true ∨ (copyUpCtx env f flags).size = 0) := by
    simp [hmeta, hsize]
  rw [installedFile, copiedUpInode, if_neg hcond, hmem, copiedUpTemp, hmeta, freshCow,
    copyUpCtx_size env f htrunc]
  rfl

/-- A successful copy-up that turns copy-on-write mode on. -/
theorem ovlCopyUpFlags_cow {env : CopyUpEnv} {f g : OvlFile} {flags : ℕ}
    (hstack : f.lowerstack ≠ []) (hup : f.upper = none) (hcow : f.oi.cowStatus = false)
    (h : ovlCopyUpFlags env f flags = .ret (0, g)) (hg : g.oi.cowStatus = true) :
    0 < (f.lowerAt 0).size ∧ ∃ addr a, g = freshCow f addr a := by
  obtain ⟨r, hr, hcase⟩ := ovlCopyUpFlags_cases env hstack flags
  rw [h] at hr
  cases hr
  generalize hres : ((0 : ℤ), g) = r at hcase
  cases hcase with
  | linked ret a hok =>
    obtain ⟨rfl, rfl⟩ := Prod.mk.inj hres
    rw [hcow] at hg
    cases hg
  | unfinished ret _ hret => exact absurd (Prod.mk.inj hres).1.symm hret
  | installed ret a _ hmem =>
    obtain ⟨rfl, rfl⟩ := Prod.mk.inj hres
    by_cases hcond : (copyUpCtx env f flags).metacopy = true ∨ (copyUpCtx env f flags).size = 0
    · rw [installedFile, copiedUpInode, if_pos hcond] at hg
      exact absurd (hcow.symm.trans hg) (by simp)
    · rw [not_or, Bool.not_eq_true] at hcond
      obtain ⟨hmeta, hsize⟩ := hcond
      obtain ⟨addr, haddr⟩ : ∃ addr, env.mem = some addr := by
        rw [← Option.isSome_iff_exists]
        simpa [hmeta, hsize] using hmem
      have hfresh := installedFile_eq_freshCow (a := a) hmeta hsize haddr
      refine ⟨?_, addr, a, hfresh⟩
      have htrunc : hasTrunc flags = false := by
        by_contra ht
        rw [Bool.not_eq_false] at ht
        exact hsize (by rw [copyUpCtx, ht]; rfl)
      rw [copyUpCtx_size env f htrunc] at hsize
      exact Nat.pos_of_ne_zero hsize
  | completed ret a hsome _ =>
    rw [hup] at hsome
    cases hsome

end FzzOverlay

import FzzOverlay.CopyUp.FlagsSpec

/-!
# Setting up copy-on-write mode

`ovl_copy_up_inode` sets `cow_status` and `block_count` before anything that can fail, and
no exit of it or of its callers sets them back. The number of blocks is stored in 32 bits,
so the map covers the file only up to a certain size.
-/

namespace FzzOverlay

-- ════════════════════════════════════════════════════════════════════════
-- Failures behind the setup
-- ════════════════════════════════════════════════════════════════════════

/-- The copy-on-write fields are those of `oi`. -/
structure SameCow (oi oi' : OvlInode) : Prop where
  cowStatus : oi'.cowStatus = oi.cowStatus
  blockCount : oi'.blockCount = oi.blockCount
  blockStatus : oi'.blockStatus = oi.blockStatus

theorem SameCow.refl (oi : OvlInode) : SameCow oi oi := ⟨rfl, rfl, rfl⟩

/-- The setup changes no field: it is skipped, or an earlier copy-up left the same values.
A new map is the old one only if `block_status` dangles. -/
def SetupHarmless (env : CopyUpEnv) (c : CopyUpCtx) (oi : OvlInode) : Prop :=
  c.metacopy = true ∨ c.size = 0 ∨ (oi.cowStatus = true ∧ oi.blockCount = countBlocks c.size ∧
    ∀ addr, env.mem = some addr → oi.blockStatus = some ⟨addr, fun _ => .uncopy⟩)

theorem sameCow_copiedUpInode_iff {env : CopyUpEnv} {c : CopyUpCtx} {oi : OvlInode} :
    SameCow oi (copiedUpInode env c oi) ↔ SetupHarmless env c oi := by
  by_cases hskip : c.metacopy = true ∨ c.size = 0
  · rw [copiedUpInode, if_pos hskip]
    refine iff_of_true (.refl oi) ?_
    obtain hm | hz := hskip
    · exact .inl hm
    · exact .inr (.inl hz)
  rw [copiedUpInode, if_neg hskip]
  rw [not_or] at hskip
  cases hmem : env.mem with
  | none =>
    constructor
    · intro h
      exact .inr (.inr ⟨h.cowStatus.symm, h.blockCount.symm, fun addr ha => by simp [hmem] at ha⟩)
    · rintro (hm | hz | ⟨hcow, hcount, -⟩)
      · exact absurd hm hskip.1
      · exact absurd hz hskip.2
      · exact ⟨hcow.symm, hcount.symm, rfl⟩
  | some addr =>
    constructor
    · intro h
      refine .inr (.inr ⟨h.cowStatus.symm, h.blockCount.symm, fun a ha => ?_⟩)
      rw [hmem] at ha
      rw [← Option.some.inj ha]
      exact h.blockStatus.symm
    · rintro (hm | hz | ⟨hcow, hcount, hmap⟩)
      · exact absurd hm hskip.1
      · exact absurd hz hskip.2
      · exact ⟨hcow.symm, hcount.symm, (hmap addr hmem).symm⟩

section Failure

variable {env : CopyUpEnv} {c : CopyUpCtx} {f : OvlFile}

/-- A failure of `ovl_copy_up_inode` or behind it leaves what the setup did. -/
theorem copyUpTemp_oi_of_fail (hfail : (copyUpTemp env c f).1 ≠ 0) :
    (copyUpTemp env c f).2.oi = copiedUpInode env c f.oi := by
  have hoi := (ovlCopyUpInode_cases env c f.oi).1
  unfold copyUpTemp at hfail ⊢
  simp only at hfail ⊢
  split at hfail
  · next hret =>
    rw [if_pos hret]
    exact hoi
  · next hret =>
    rw [if_neg hret, hoi] at *
    revert hfail
    obtain hlook | ⟨e, hlook⟩ := call_cases env .lookup { f with oi := copiedUpInode env c f.oi }
    · rw [hlook, cuThen_zero]
      obtain hinst | ⟨e, hinst⟩ :=
        call_cases env .install { f with oi := copiedUpInode env c f.oi }
      · rw [hinst, cuThen_zero]
        exact fun hfail => absurd rfl hfail
      · rw [hinst, cuThen, if_neg (Int.ne_of_lt e.ret_neg)]
        exact fun _ => rfl
    · rw [hlook, cuThen, if_neg (Int.ne_of_lt e.ret_neg)]
      exact fun _ => rfl

/-- A caller of `ovl_copy_up_inode` that makes one call before the part `k`. -/
theorem sameCow_cuThen_call (env : CopyUpEnv) (p : CuPoint) {k : OvlFile → ℤ × OvlFile} {φ : Prop}
    (hk : (k f).1 ≠ 0 → (SameCow f.oi (k f).2.oi ↔ φ))
    (hfail : (cuThen (env.call p f) k).1 ≠ 0) :
    SameCow f.oi (cuThen (env.call p f) k).2.oi ↔ env.fails p ≠ none ∨ φ := by
  cases hp : env.fails p with
  | none =>
    have hcall : env.call p f = (0, f) := by rw [CopyUpEnv.call, hp]
    rw [hcall, cuThen_zero] at hfail ⊢
    simpa using hk hfail
  | some e =>
    have hcall : env.call p f = (e.ret, f) := by rw [CopyUpEnv.call, hp]
    rw [hcall, cuThen, if_neg (Int.ne_of_lt e.ret_neg)]
    exact iff_of_true (.refl f.oi) (.inl (by simp))

theorem sameCow_copyUpTemp_iff (hfail : (copyUpTemp env c f).1 ≠ 0) :
    SameCow f.oi (copyUpTemp env c f).2.oi ↔ SetupHarmless env c f.oi := by
  rw [copyUpTemp_oi_of_fail hfail]
  exact sameCow_copiedUpInode_iff

end Failure

/-- A copy-up that fails in `ovl_copy_up_inode` leaves the copy-on-write fields if and only
if the setup changes nothing, and so do `ovl_copy_up_tmpfile` and `ovl_copy_up_workdir`
unless they fail before they call it. -/
theorem copy_up_failure_iff (env : CopyUpEnv) (c : CopyUpCtx) (f : OvlFile) :
    ((ovlCopyUpInode env c f.oi newTemp).1 ≠ 0 →
      (SameCow f.oi (ovlCopyUpInode env c f.oi newTemp).2.1 ↔ SetupHarmless env c f.oi)) ∧
    ((ovlCopyUpTmpfile env c f).1 ≠ 0 →
      (SameCow f.oi (ovlCopyUpTmpfile env c f).2.oi ↔
        env.fails .prepCuCreds ≠ none ∨ env.fails .createTemp ≠ none ∨
          SetupHarmless env c f.oi)) ∧
    ((ovlCopyUpWorkdir env c f).1 ≠ 0 →
      (SameCow f.oi (ovlCopyUpWorkdir env c f).2.oi ↔
        env.fails .lockRename ≠ none ∨ env.fails .prepCuCreds ≠ none ∨
          env.fails .createTemp ≠ none ∨ SetupHarmless env c f.oi)) := by
  have htemp : (copyUpTemp env c f).1 ≠ 0 →
      (SameCow f.oi (copyUpTemp env c f).2.oi ↔ SetupHarmless env c f.oi) :=
    sameCow_copyUpTemp_iff
  have hcreate := sameCow_cuThen_call env .createTemp htemp
  have hcreds := sameCow_cuThen_call env .prepCuCreds (k := fun f =>
    cuThen (env.call .createTemp f) fun f => copyUpTemp env c f) hcreate
  have hlock := sameCow_cuThen_call env .lockRename (k := ovlCopyUpTmpfile env c) hcreds
  refine ⟨fun _ => ?_, hcreds, hlock⟩
  rw [(ovlCopyUpInode_cases env c f.oi).1]
  exact sameCow_copiedUpInode_iff

/-- A metadata-only copy-up whose `ovl_set_attr` fails changes nothing. -/
theorem copy_up_failure_metacopy :
    let env : CopyUpEnv := { CopyUpEnv.full true with
      fails := fun p => if p = .setAttr then some EIO else none }
    let f : OvlFile := .lookedUp [SparseFile.ofList [1]] zeroInode
    (ovlCopyUpTmpfile env ⟨1, false, true⟩ f).1 = EIO.ret ∧
      SameCow f.oi (ovlCopyUpTmpfile env ⟨1, false, true⟩ f).2.oi := by
  refine ⟨rfl, ?_⟩
  exact ((copy_up_failure_iff _ _ _).2.1 (by decide)).mpr (.inr (.inr (.inl rfl)))

/-- When the block map of a one-byte file cannot be allocated, copy-on-write mode is on
without a map. -/
theorem copy_up_failure_leaves_cow :
    let env : CopyUpEnv := { CopyUpEnv.full false with mem := none }
    let f : OvlFile := .lookedUp [SparseFile.ofList [1]] zeroInode
    let r := ovlCopyUpTmpfile env ⟨1, false, false⟩ f
    r.1 = ENOMEM.ret ∧ f.oi.cowStatus = false ∧ r.2.oi.cowStatus = true ∧
      r.2.oi.blockStatus.isNone = true ∧ ¬ SameCow f.oi r.2.oi := by
  refine ⟨rfl, rfl, rfl, rfl, fun h => ?_⟩
  cases h.cowStatus

-- ════════════════════════════════════════════════════════════════════════
-- The number of blocks
-- ════════════════════════════════════════════════════════════════════════

/-- `n` is the least number such that the blocks of all offsets below `size` are among
`1 .. n`. -/
structure CoversFile (size n : ℕ) : Prop where
  covers : ∀ off, off < size → 1 ≤ ovlGetBlock off ∧ ovlGetBlock off ≤ n
  least : ∀ k, (∀ off, off < size → ovlGetBlock off ≤ k) → n ≤ k

/-- The number of blocks of a file, not truncated. -/
theorem coversFile_iff {size n : ℕ} (h0 : 0 < size) :
    CoversFile size n ↔ n = (size - 1) / BLOCK_SIZE + 1 := by
  have hlast : ∀ k, (∀ off, off < size → ovlGetBlock off ≤ k) ↔
      (size - 1) / BLOCK_SIZE + 1 ≤ k := by
    intro k
    constructor
    · intro h
      have := h (size - 1) (by omega)
      rwa [ovlGetBlock_eq] at this
    · intro h off hoff
      rw [ovlGetBlock_eq]
      rw [BLOCK_SIZE] at h
      omega
  constructor
  · intro h
    apply le_antisymm
    · exact h.least _ ((hlast _).mpr le_rfl)
    · exact (hlast n).mp fun off hoff => (h.covers off hoff).2
  · rintro rfl
    refine ⟨fun off hoff => ⟨ovlGetBlock_pos off, (hlast _).mpr le_rfl off hoff⟩, fun k hk => ?_⟩
    exact (hlast k).mp hk

theorem countBlocks_covers_iff {size : ℕ} (h0 : 0 < size) :
    CoversFile size (countBlocks size) ↔ size ≤ 2 ^ 44 - 4096 := by
  rw [coversFile_iff h0, countBlocks, BLOCK_SIZE]
  split <;> omega

/-- A copy-up with data that succeeds stores the least number of blocks that covers the file
if and only if that number fits in 32 bits. -/
theorem block_map_covers_iff {env : CopyUpEnv} {c : CopyUpCtx} {oi oi' : OvlInode}
    {temp : UpperInode} (hmeta : c.metacopy = false) (h0 : 0 < c.size)
    (h : ovlCopyUpInode env c oi newTemp = (0, (oi', temp))) :
    CoversFile c.size oi'.blockCount ↔ c.size ≤ 2 ^ 44 - 4096 := by
  have hcases := ovlCopyUpInode_cases env c oi
  rw [h] at hcases
  obtain ⟨hoi, hok⟩ := hcases
  have hskip : ¬ (c.metacopy = true ∨ c.size = 0) := by
    rw [hmeta]
    simp only [Bool.false_eq_true, false_or]
    omega
  have hcount : oi'.blockCount = countBlocks c.size := by
    rw [show oi' = copiedUpInode env c oi from hoi, copiedUpInode, if_neg hskip]
    cases env.mem with
    | none => rfl
    | some addr => rfl
  rw [hcount]
  exact countBlocks_covers_iff h0

/-- The map of a file of 5000 bytes. -/
theorem block_map_covers_two : ∃ oi' temp,
    ovlCopyUpInode (.full false) ⟨5000, false, false⟩ zeroInode newTemp = (0, (oi', temp)) ∧
      CoversFile 5000 oi'.blockCount := by
  obtain ⟨oi, temp, h⟩ : ∃ oi' temp, ovlCopyUpInode (.full false) ⟨5000, false, false⟩ zeroInode
      newTemp = (0, (oi', temp)) := ⟨_, _, rfl⟩
  exact ⟨oi, temp, h, (block_map_covers_iff rfl (by decide) h).mpr (by decide)⟩

/-- A file of `2 ^ 44` bytes gets a map without blocks. -/
theorem block_map_truncated : ∃ oi' temp,
    ovlCopyUpInode (.full false) ⟨2 ^ 44, false, false⟩ zeroInode newTemp = (0, (oi', temp)) ∧
      oi'.blockCount = 0 ∧ ¬ CoversFile (2 ^ 44) oi'.blockCount := by
  refine ⟨_, _, rfl, by decide, fun h => ?_⟩
  have hcover := (h.covers 0 (by decide)).2
  revert hcover
  decide

end FzzOverlay

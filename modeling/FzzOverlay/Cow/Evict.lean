import FzzOverlay.Cow.Shape
import FzzOverlay.File.Cache

/-!
# Eviction of the overlay inode

The block map and `cow_status` live in the overlay inode only. After the inode was
dropped and looked up again, reads take every byte from the upper file. The result
of every read is the same exactly in the states `Persistent` describes. The drop itself
closes the cached files, and faults on an error value among them.
-/

namespace FzzOverlay

open SparseFile

/-- The cached files close, and what is in memory only adds nothing to the upper file: in
copy-on-write mode uncopied blocks read the same from the upper file, and copied blocks
do not reach past its end. -/
structure Persistent (f : OvlFile) : Prop where
  files : FilesUsable f
  uncopied : f.oi.cowStatus = true → ∀ i, f.Uncopied i →
    (f.readLower f.oi).get? i = f.upperData.get? i
  copied : f.oi.cowStatus = true → ∀ i, f.Copied i → i < f.upperData.size

-- ════════════════════════════════════════════════════════════════════════
-- The drop
-- ════════════════════════════════════════════════════════════════════════

theorem filesUsable_of_free {f : OvlFile} {v : Option ℕ} (h : ovlFreeInode f.oi = .ret v) :
    FilesUsable f := by
  rw [ovlFreeInode] at h
  split at h
  · next hclose =>
    simp only [Bool.and_eq_true] at hclose
    obtain ⟨⟨hlow, hup⟩, hmeta⟩ := hclose
    exact ⟨FilePtr.usable_of_closes hup, FilePtr.usable_of_closes hlow,
      FilePtr.usable_of_closes hmeta⟩
  · cases h

theorem evict_ret_iff {f g : OvlFile} {old : OvlInode} :
    f.evict old = .ret g ↔ FilesUsable f ∧ g = f.ovlGetInode (ovlAllocInode old) := by
  constructor
  · intro h
    rw [OvlFile.evict] at h
    cases hfree : ovlFreeInode f.oi with
    | ret v =>
      rw [hfree] at h
      cases h
      exact ⟨filesUsable_of_free hfree, rfl⟩
    | oops => simp [hfree] at h
    | running => simp [hfree] at h
  · rintro ⟨hfiles, rfl⟩
    rw [OvlFile.evict, hfiles.free]

-- ════════════════════════════════════════════════════════════════════════
-- Reads before and after
-- ════════════════════════════════════════════════════════════════════════

theorem CopiedUp.relookup_returns {f : OvlFile} (h : CopiedUp f) (old : OvlInode) (pos count : ℕ)
    (ret : ℤ) (out : List UInt8) :
    Returns (f.ovlGetInode (ovlAllocInode old)) pos count ret out ↔
      out = f.upperData.read pos count ∧ ret = out.length := by
  have hreal : (f.ovlGetInode (ovlAllocInode old)).ovlInodeRealdata = f.upperData := by
    obtain ⟨u, hu, hmeta⟩ := h.upper
    simp [OvlFile.ovlInodeRealdata, OvlFile.realdataIsUpper, OvlFile.ovlHasUpperdata,
      OvlFile.ovlGetInode, OvlFile.upperData, hu, hmeta]
  rw [returns_of_not_cow rfl, hreal]

theorem CopiedUp.openable {f : OvlFile} (h : CopiedUp f) (hup : f.oi.upperFile.Usable)
    (hlow : ∀ i, f.Uncopied i → f.oi.lowerFile.Usable) : f.Openable :=
  ⟨⟨hup, hlow, h.lowerstack⟩, h.upper_isSome, h.map⟩

/-- The inode is dropped without a fault, and every read returns after the new lookup what it
returned before. -/
def OvlFile.SurvivesEviction (f : OvlFile) (old : OvlInode) : Prop :=
  ∃ g, f.evict old = .ret g ∧
    ∀ pos count ret out, Returns f pos count ret out ↔ Returns g pos count ret out

/-- Eviction keeps the result of every read exactly in persistent states. -/
theorem CopiedUp.evict_iff {f : OvlFile} (h : CopiedUp f) (old : OvlInode) :
    f.SurvivesEviction old ↔ Persistent f := by
  have hafter := h.relookup_returns old
  constructor
  · rintro ⟨g, hg, hsame⟩
    obtain ⟨hfiles, rfl⟩ := evict_ret_iff.mp hg
    refine ⟨hfiles, fun _ i hi => ?_, fun _ i hi => ?_⟩
    · have hread := (hsame i 1 _ _).mp (returns_one_uncopied h.lowerstack hfiles.lowerFile hi)
      rw [hafter] at hread
      exact toList_read_one hread.1
    · by_contra hend
      have hret := (hsame i 1 _ _).mpr ((hafter i 1 _ _).mpr ⟨rfl, rfl⟩)
      have hup := h.upper_isSome
      exact not_returns_copied_end hup hfiles.upperFile hi (by omega) Nat.one_pos _ _ hret
  · rintro ⟨hfiles, hun, hend⟩
    refine ⟨_, evict_ret_iff.mpr ⟨hfiles, rfl⟩, fun pos count ret out => ?_⟩
    rw [hafter]
    cases hcow : f.oi.cowStatus with
    | false => rw [returns_of_not_cow hcow, h.realdata_eq]
    | true =>
      have hf := h.openable hfiles.upperFile fun _ _ => hfiles.lowerFile
      have hX : SameBytes f.upperData f := ⟨hun hcow, fun _ _ _ hv => hv, fun _ _ _ => rfl⟩
      have hread := (returns_eq_read_iff hf.toPtrsUsable hcow).mpr hX
      constructor
      · exact hread pos count ret out
      · rintro ⟨rfl, rfl⟩
        obtain ⟨ret', out', hret⟩ := exists_returns hf hcow hX (hend hcow) pos count
        obtain ⟨rfl, rfl⟩ := hread pos count _ _ hret
        exact hret

/-- In every state a run of writes reaches after a copy-up, dropping the inode and looking
the file up again leaves the result of every read unchanged if and only if the state is
persistent. -/
theorem evict_preserves_reads_iff {stack : List File} {old slab : OvlInode} {env : CopyUpEnv}
    {flags : ℕ} {f₀ f : OvlFile} {tr : List (OvlFile × WriteEnv × WriteReq)} (hstack : stack ≠ [])
    (hcopy : ovlCopyUpFlags env (.lookedUp stack old) flags = .ret (0, f₀))
    (hcow : f₀.oi.cowStatus = true) (hrun : Lts.Run Writes f₀ tr f) :
    f.SurvivesEviction slab ↔ Persistent f := by
  have h : CopiedUp f := hrun.invariant (copiedUp_of_copyUp hstack hcopy hcow)
    fun g e g' hg hw => hg.writes hw
  exact h.evict_iff slab

/-- A file whose only block was written stays readable. -/
theorem evict_preserves_reads_written : ∃ f₀ f tr,
    ovlCopyUpFlags (.full false) (.lookedUp [ofList [1]] zeroInode) 1 = .ret (0, f₀) ∧
      f₀.oi.cowStatus = true ∧ Lts.Run Writes f₀ tr f ∧ f.SurvivesEviction zeroInode := by
  have hcopy : ovlCopyUpFlags (.full false) (.lookedUp [ofList [1]] zeroInode) 1 =
      .ret (0, freshCow (.lookedUp [ofList [1]] zeroInode) 0 true) := rfl
  have hstep : ∃ r, ovlWriteIter .full (freshCow (.lookedUp [ofList [1]] zeroInode) 0 true)
      ⟨0, false, [9]⟩ = .ret r ∧ r.file.oi.cowStatus = false ∧
        ovlFreeInode r.file.oi = .ret (some 0) := ⟨_, rfl, rfl, rfl⟩
  obtain ⟨r, hr, hoff, hfree⟩ := hstep
  have hrun : Lts.Run Writes (freshCow (.lookedUp [ofList [1]] zeroInode) 0 true)
      [(freshCow (.lookedUp [ofList [1]] zeroInode) 0 true, (.full, ⟨0, false, [9]⟩))] r.file :=
    .snoc .nil ⟨r, hr, rfl⟩
  refine ⟨_, _, _, hcopy, rfl, hrun, ?_⟩
  rw [evict_preserves_reads_iff (List.cons_ne_nil _ _) hcopy rfl hrun]
  refine ⟨filesUsable_of_free hfree, fun hcow => ?_, fun hcow => ?_⟩
  · rw [hoff] at hcow
    cases hcow
  · rw [hoff] at hcow
    cases hcow

/-- A one-byte file that was copied up and not written reads empty after eviction. -/
theorem evict_loses_lower_bytes : ∃ f₀ g,
    ovlCopyUpFlags (.full false) (.lookedUp [ofList [1]] zeroInode) 1 = .ret (0, f₀) ∧
      f₀.oi.cowStatus = true ∧ Lts.Run Writes f₀ [] f₀ ∧ f₀.evict zeroInode = .ret g ∧
      Returns f₀ 0 1 1 [1] ∧ Returns g 0 1 0 [] ∧ ¬ Returns g 0 1 1 [1] := by
  have hcopied : CopiedUp (freshCow (.lookedUp [ofList [1]] zeroInode) 0 true) :=
    copiedUp_freshCow (List.cons_ne_nil _ _) (show FilePtr.First .null from nofun) 0 true
  refine ⟨freshCow (.lookedUp [ofList [1]] zeroInode) 0 true, _, rfl, rfl, .nil, rfl,
    ⟨2, _, rfl, rfl, rfl⟩, ?_, ?_⟩
  · apply (hcopied.relookup_returns zeroInode 0 1 0 []).mpr
    exact ⟨rfl, rfl⟩
  · intro h
    obtain ⟨hout, -⟩ := (hcopied.relookup_returns zeroInode 0 1 1 [1]).mp h
    cases hout

end FzzOverlay

import FzzOverlay.Async.Overwrite
import FzzOverlay.Async.Pending

/-!
# Cutting a write out of a request

The `COPYING` branches for the first and for the last block, as interval subtraction.
A first block is written from some offset on to its end, a last block from its start up
to some offset; the range to cut is clipped by the size of the lower file.
-/

namespace FzzOverlay

open AsyncState

/-- A write, as the block it begins in (`first`) or the block it ends in (`last`) meets
it. -/
inductive PartWrite where
  | first (pos : ℕ)
  | last (stop : ℕ)

namespace PartWrite

def block : PartWrite → ℕ
  | .first pos => ovlGetBlock pos
  | .last stop => ovlGetBlock stop

/-- The first offset of the block that is written. -/
def lo : PartWrite → ℕ
  | .first pos => pos
  | .last stop => (ovlGetBlock stop - 1) * BLOCK_SIZE

/-- The end of what is written in the block. -/
def hi : PartWrite → ℕ
  | .first pos => ovlGetBlock pos * BLOCK_SIZE
  | .last stop => stop

def Covers (w : PartWrite) (i : ℕ) : Prop := w.lo ≤ i ∧ i < w.hi

/-- The section for the block has something to do. -/
def Enters : PartWrite → Prop
  | .first pos => (ovlGetBlock pos - 1) * BLOCK_SIZE < pos
  | .last _ => True

/-- The section that deals with the block. -/
def runSection (w : PartWrite) (s : AsyncState) (f : CowFile) (mem : Bool) (junk : ℕ × ℕ) :
    ℤ × AsyncState :=
  match w with
  | .first pos => s.startSection f mem junk pos
  | .last stop => s.endSection f mem junk stop

/-- The length of the range that the section cuts out. -/
def cut (w : PartWrite) (f : CowFile) : ℕ := min (usub64 f.lower.size w.lo) (w.hi - w.lo)

/-- The written part reaches one end of its block, or the other. -/
theorem bounds (w : PartWrite) :
    (w.block - 1) * BLOCK_SIZE ≤ w.lo ∧ w.lo ≤ w.hi ∧ w.hi ≤ w.block * BLOCK_SIZE ∧
      (w.lo = (w.block - 1) * BLOCK_SIZE ∨ w.hi = w.block * BLOCK_SIZE) := by
  cases w with
  | first pos =>
    exact ⟨ovlGetBlock_sub_one_mul_le pos, (lt_ovlGetBlock_mul pos).le, le_rfl, .inr rfl⟩
  | last stop =>
    exact ⟨le_rfl, ovlGetBlock_sub_one_mul_le stop, (lt_ovlGetBlock_mul stop).le, .inl rfl⟩

/-- The range ends at the end of the lower file if that is inside the written part. The
difference wraps around if the write begins past the lower file. -/
theorem lo_add_cut {w : PartWrite} {f : CowFile} (hlower : f.lower.size < 2 ^ 63)
    (hhi : w.hi ≤ 2 ^ 63) :
    w.lo + w.cut f = if w.lo ≤ f.lower.size then min f.lower.size w.hi else w.hi := by
  obtain ⟨-, hle, -, -⟩ := w.bounds
  split
  · rename_i h
    rw [cut, usub64_of_le h (by omega)]
    omega
  · rename_i h
    have hwrap : usub64 f.lower.size w.lo = 2 ^ 64 + f.lower.size - w.lo := by
      rw [usub64]
      omega
    rw [cut, hwrap]
    omega

theorem runSection_of_copying {w : PartWrite} {s : AsyncState} {f : CowFile} (mem : Bool)
    (junk : ℕ × ℕ) (hpart : w.Enters) (hst : s.status w.block = .copying) :
    w.runSection s f mem junk = (0, s.trimReq w.block w.lo (w.cut f) junk) := by
  cases w with
  | first pos =>
    obtain ⟨-, hcop⟩ | ⟨-, hun, -⟩ | ⟨-, -, heq⟩ := startSection_cases s f mem junk pos
    · exact absurd (hst.symm.trans (hcop hpart)) nofun
    · exact absurd (hst.symm.trans hun) nofun
    · exact heq
  | last stop =>
    obtain ⟨-, hcop⟩ | ⟨hun, -⟩ | ⟨-, heq⟩ := endSection_cases s f mem junk stop
    · exact absurd (hst.symm.trans hcop) nofun
    · exact absurd (hst.symm.trans hun) nofun
    · exact heq

end PartWrite

/-- Offset `i` is below the lower size, in the request, and not written. -/
def CopyReq.Remains (f : CowFile) (r : CopyReq) (w : PartWrite) (i : ℕ) : Prop :=
  i < f.lower.size ∧ r.Covers i ∧ ¬ w.Covers i

/-- What a section that found request `r` should leave: a request inside the block for
just the offsets that remain, and a block that is copied only if there are none. -/
structure TrimsExactly (f : CowFile) (w : PartWrite) (r : CopyReq) (t : AsyncState) : Prop where
  left : ∃ r', t.findReq w.block = some r' ∧ r'.Inside ∧
    ∀ i < f.lower.size, r'.Covers i ↔ r.Remains f w i
  copied : t.status w.block = .copied → ∀ i, ¬ r.Remains f w i

/-- The request starts before the write and reaches past the cut range, so that neither
end of it is cut off; or it lies strictly inside the cut range, where the test for an
overlap does not find it. -/
def CopyReq.Missed (f : CowFile) (r : CopyReq) (w : PartWrite) : Prop :=
  (r.offset < w.lo ∧ w.lo < r.offset + r.len ∧ w.lo ≤ f.lower.size ∧
      min f.lower.size w.hi < r.offset + r.len) ∨
    (w.lo < r.offset ∧ r.len ≠ 0 ∧ r.offset + r.len < min f.lower.size w.hi)

/-- What a section makes of the request it found. -/
def CopyReq.cutBy (r : CopyReq) (f : CowFile) (w : PartWrite) (junk : ℕ × ℕ) : CopyReq :=
  if r.meets w.lo (w.cut f) then r.trim w.lo (w.cut f) junk else r

/-- The four things that can become of the request. -/
theorem CopyReq.cutBy_cases (r : CopyReq) (f : CowFile) (w : PartWrite) (junk : ℕ × ℕ) :
    (¬ r.meets w.lo (w.cut f) ∧ r.cutBy f w junk = r) ∨
      (r.meets w.lo (w.cut f) ∧ w.lo ≤ r.offset ∧
        r.cutBy f w junk = { r with
          offset := min (r.offset + r.len) (w.lo + w.cut f)
          len := r.offset + r.len - min (r.offset + r.len) (w.lo + w.cut f) }) ∨
      (r.meets w.lo (w.cut f) ∧ r.offset < w.lo ∧ r.offset + r.len ≤ w.lo + w.cut f ∧
        r.cutBy f w junk = { r with len := w.lo - r.offset }) ∨
      (r.meets w.lo (w.cut f) ∧ r.offset < w.lo ∧ w.lo + w.cut f < r.offset + r.len ∧
        r.cutBy f w junk = { r with offset := junk.1, len := junk.2 }) := by
  unfold cutBy
  by_cases hm : r.meets w.lo (w.cut f)
  · rw [if_pos hm]
    unfold CopyReq.trim
    dsimp only
    rcases Nat.lt_or_ge r.offset w.lo with hlt | hge
    · rw [if_neg (by omega), max_eq_right hlt.le]
      rcases Nat.lt_or_ge (w.lo + w.cut f) (r.offset + r.len) with hout | hin
      · rw [if_neg (by omega)]
        exact .inr (.inr (.inr ⟨hm, hlt, hout, rfl⟩))
      · rw [if_pos (by omega)]
        exact .inr (.inr (.inl ⟨hm, hlt, hin, rfl⟩))
    · rw [if_pos (max_eq_left hge)]
      exact .inr (.inl ⟨hm, hge, rfl⟩)
  · rw [if_neg hm]
    exact .inl ⟨hm, rfl⟩

section Exact

variable {f : CowFile} {w : PartWrite} {r : CopyReq}

/-- The interval left is the right one. -/
def CopyReq.ExactFor (r : CopyReq) (f : CowFile) (w : PartWrite) (r' : CopyReq) : Prop :=
  r'.Inside ∧ ∀ i < f.lower.size, r'.Covers i ↔ r.Remains f w i

theorem CopyReq.exact_of_not_missed (hlower : f.lower.size < 2 ^ 63) (hhi : w.hi ≤ 2 ^ 63)
    (hb : r.blockId = w.block) (hin : r.Inside) (hmiss : ¬ r.Missed f w) (junk : ℕ × ℕ) :
    r.ExactFor f w (r.cutBy f w junk) := by
  obtain ⟨hpos, hstart, hend⟩ := id hin
  obtain ⟨hlo, hle, hhi', hside⟩ := w.bounds
  have hcut := w.lo_add_cut hlower hhi
  rw [hb] at hstart hend
  unfold CopyReq.Missed at hmiss
  obtain ⟨hm, heq⟩ | ⟨hm, hge, heq⟩ | ⟨hm, hlt, hc, heq⟩ | ⟨hm, hlt, hc, heq⟩ :=
    r.cutBy_cases f w junk
  · rw [heq]
    refine ⟨hin, fun i hi => ?_⟩
    unfold CopyReq.meets at hm
    unfold CopyReq.Remains CopyReq.Covers PartWrite.Covers
    split at hcut <;> omega
  · rw [heq]
    refine ⟨⟨hpos, ?_, ?_⟩, fun i hi => ?_⟩
    · show (r.blockId - 1) * BLOCK_SIZE ≤ min (r.offset + r.len) (w.lo + w.cut f)
      rw [hb]
      omega
    · show min (r.offset + r.len) (w.lo + w.cut f) + (r.offset + r.len -
        min (r.offset + r.len) (w.lo + w.cut f)) ≤ r.blockId * BLOCK_SIZE
      rw [hb]
      omega
    · unfold CopyReq.meets at hm
      unfold CopyReq.Remains CopyReq.Covers PartWrite.Covers
      dsimp only
      split at hcut <;> omega
  · rw [heq]
    refine ⟨⟨hpos, ?_, ?_⟩, fun i hi => ?_⟩
    · show (r.blockId - 1) * BLOCK_SIZE ≤ r.offset
      rw [hb]
      omega
    · show r.offset + (w.lo - r.offset) ≤ r.blockId * BLOCK_SIZE
      rw [hb]
      omega
    · unfold CopyReq.meets at hm
      unfold CopyReq.Remains CopyReq.Covers PartWrite.Covers
      dsimp only
      split at hcut <;> omega
  · -- Only a request that was missed gets the unassigned bounds.
    unfold CopyReq.meets at hm
    exfalso
    split at hcut <;> omega

/-- A request that the section leaves inside the block was inside the block. -/
theorem CopyReq.inside_of_exact (hlower : f.lower.size < 2 ^ 63) (hhi : w.hi ≤ 2 ^ 63)
    (hb : r.blockId = w.block) (h : ∀ junk, r.ExactFor f w (r.cutBy f w junk)) : r.Inside := by
  obtain ⟨hlo, hle, hhi', hside⟩ := w.bounds
  have hcut := w.lo_add_cut hlower hhi
  -- An offset that is in no block.
  obtain ⟨hm, heq⟩ | ⟨hm, hge, heq⟩ | ⟨hm, hlt, hc, heq⟩ | ⟨hm, hlt, hc, heq⟩ :=
    r.cutBy_cases f w (w.block * BLOCK_SIZE + 1, 0)
  · have hin := (h (w.block * BLOCK_SIZE + 1, 0)).1
    rwa [heq] at hin
  · have hin := (h (w.block * BLOCK_SIZE + 1, 0)).1
    rw [heq] at hin
    obtain ⟨hpos, -, hend⟩ := hin
    refine ⟨hpos, ?_, ?_⟩
    · rw [hb]
      omega
    · have hend' : min (r.offset + r.len) (w.lo + w.cut f) + (r.offset + r.len -
        min (r.offset + r.len) (w.lo + w.cut f)) ≤ r.blockId * BLOCK_SIZE := hend
      omega
  · have hin := (h (w.block * BLOCK_SIZE + 1, 0)).1
    rw [heq] at hin
    obtain ⟨hpos, hstart, -⟩ := hin
    refine ⟨hpos, hstart, ?_⟩
    rw [hb]
    split at hcut <;> omega
  · have hin := (h (w.block * BLOCK_SIZE + 1, 0)).1
    rw [heq] at hin
    obtain ⟨-, -, hend⟩ := hin
    have hend' : w.block * BLOCK_SIZE + 1 + 0 ≤ r.blockId * BLOCK_SIZE := hend
    rw [hb] at hend'
    omega

theorem CopyReq.not_missed_of_exact (hlower : f.lower.size < 2 ^ 63) (hhi : w.hi ≤ 2 ^ 63)
    (h : ∀ junk, r.ExactFor f w (r.cutBy f w junk)) : ¬ r.Missed f w := by
  obtain ⟨hlo, hle, hhi', hside⟩ := w.bounds
  have hcut := w.lo_add_cut hlower hhi
  rintro (⟨h₁, h₂, h₃, h₄⟩ | ⟨h₁, h₂, h₃⟩)
  · -- The first offset of the request remains, and nothing is left of it for it.
    have hex := ((h (0, 0)).2 r.offset (by omega)).mpr
      ⟨by omega, ⟨le_rfl, by omega⟩, fun hcov => absurd hcov.1 (by omega)⟩
    rw [if_pos h₃] at hcut
    obtain ⟨hm, -⟩ | ⟨-, hge, -⟩ | ⟨-, -, hc, -⟩ | ⟨-, -, -, heq⟩ := r.cutBy_cases f w (0, 0)
    · exact hm (.inl ⟨h₁.le, h₂⟩)
    · omega
    · omega
    · rw [heq] at hex
      exact absurd hex.2 (Nat.not_lt_zero _)
  · -- The whole request is written, but all of it is left.
    rw [if_pos (by omega)] at hcut
    have hcov : r.Covers r.offset := ⟨le_rfl, by omega⟩
    obtain ⟨-, heq⟩ | ⟨hm, -⟩ | ⟨hm, -⟩ | ⟨hm, -⟩ := r.cutBy_cases f w (0, 0)
    · have hex := (h (0, 0)).2 r.offset (by omega)
      rw [heq] at hex
      exact (hex.mp hcov).2.2 ⟨by omega, by omega⟩
    all_goals
      unfold CopyReq.meets at hm
      omega

theorem CopyReq.exact_iff (hlower : f.lower.size < 2 ^ 63) (hhi : w.hi ≤ 2 ^ 63)
    (hb : r.blockId = w.block) :
    (∀ junk, r.ExactFor f w (r.cutBy f w junk)) ↔ r.Inside ∧ ¬ r.Missed f w :=
  ⟨fun h => ⟨inside_of_exact hlower hhi hb h, not_missed_of_exact hlower hhi h⟩,
    fun h => exact_of_not_missed hlower hhi hb h.1 h.2⟩

end Exact

/-! ### The table -/

theorem find?_updateFirst {b : ℕ} {g : CopyReq → CopyReq} (hg : ∀ r, (g r).blockId = r.blockId)
    (rs : List CopyReq) :
    (updateFirst b g rs).find? (fun r => r.blockId == b) =
      (rs.find? fun r => r.blockId == b).map g := by
  induction rs with
  | nil => rfl
  | cons r rs ih =>
    rw [updateFirst]
    by_cases hb : r.blockId = b
    · rw [if_pos hb, List.find?_cons_of_pos (by simp [hg, hb]),
        List.find?_cons_of_pos (by simp [hb]), Option.map_some]
    · rw [if_neg hb, List.find?_cons_of_neg (by simp [hb]), List.find?_cons_of_neg (by simp [hb]),
        ih]

section Section

variable {s : AsyncState} {f : CowFile} {w : PartWrite} {r : CopyReq}

theorem findReq_trimReq {b : ℕ} (pos len : ℕ) (junk : ℕ × ℕ) (hfind : s.findReq b = some r) :
    (s.trimReq b pos len junk).findReq b =
      some (if r.meets pos len then r.trim pos len junk else r) := by
  have hup : (updateFirst b (fun r => r.trim pos len junk) s.table).find?
      (fun r => r.blockId == b) = some (r.trim pos len junk) := by
    rw [find?_updateFirst fun r => r.trim_blockId pos len junk]
    exact congrArg (Option.map _) hfind
  simp only [trimReq, hfind]
  by_cases hm : r.meets pos len
  · rw [if_pos hm, if_pos hm]
    split
    · exact hup
    · exact hup
  · rw [if_neg hm, if_neg hm, hfind]

/-- The section marks the block copied only if the request it leaves is empty. -/
theorem trimReq_copied {b pos len : ℕ} {junk : ℕ × ℕ} (hst : s.status b = .copying)
    (hfind : s.findReq b = some r) (h : (s.trimReq b pos len junk).status b = .copied) :
    r.meets pos len ∧ (r.trim pos len junk).len = 0 := by
  obtain ⟨heq, -⟩ | ⟨q, l₁, l₂, hq, hm, -, -, -, -, ⟨hlen, -⟩ | ⟨-, hst'⟩⟩ :=
    trimReq_cases s b pos len junk
  · rw [heq, hst] at h
    cases h
  · cases hfind.symm.trans hq
    exact ⟨hm, hlen⟩
  · rw [hst', hst] at h
    cases h

theorem trimsExactly_iff {junk : ℕ × ℕ} {mem : Bool} (hpart : w.Enters)
    (hst : s.status w.block = .copying) (hfind : s.findReq w.block = some r) :
    TrimsExactly f w r (w.runSection s f mem junk).2 ↔ r.ExactFor f w (r.cutBy f w junk) := by
  rw [w.runSection_of_copying mem junk hpart hst]
  have hleft := findReq_trimReq w.lo (w.cut f) junk hfind
  constructor
  · rintro ⟨⟨r', hr', hex⟩, -⟩
    cases hleft.symm.trans hr'
    exact hex
  · refine fun hex => ⟨⟨_, hleft, hex⟩, fun hcop i hrem => ?_⟩
    obtain ⟨hm, hlen⟩ := trimReq_copied hst hfind hcop
    have hcov := (hex.2 i hrem.1).mpr hrem
    rw [CopyReq.cutBy, if_pos hm, CopyReq.Covers, hlen] at hcov
    omega

/-- Whatever the unassigned bounds are, the section for the first or the last block of a
write subtracts the write from the request of the block if and only if the request lies
in the block and is not missed. -/
theorem trim_exact_iff (s : AsyncState) (f : CowFile) (w : PartWrite) (r : CopyReq) (mem : Bool)
    (hlower : f.lower.size < 2 ^ 63) (hhi : w.hi ≤ 2 ^ 63) (hpart : w.Enters)
    (hst : s.status w.block = .copying) (hfind : s.findReq w.block = some r) :
    (∀ junk, TrimsExactly f w r (w.runSection s f mem junk).2) ↔ r.Inside ∧ ¬ r.Missed f w := by
  have hb : r.blockId = w.block := by simpa using List.find?_some hfind
  rw [← CopyReq.exact_iff hlower hhi hb]
  exact forall_congr' fun junk => trimsExactly_iff hpart hst hfind

end Section

/-- After a write of two bytes at offset 4095 of a file of three bytes, a second write
begins at offset 4000 of the same block. -/
theorem trim_exact_tail : ∃ s, s = (oneBlockStart.asyncBlockWriteIter oneBlockFile .plain
      ⟨4095, false, [7, 7]⟩).2 ∧ s.findReq 1 = some ⟨1, 0, 4095⟩ ∧
    ∀ junk, TrimsExactly oneBlockFile (.first 4000) ⟨1, 0, 4095⟩
      (s.startSection oneBlockFile true junk 4000).2 := by
  refine ⟨_, rfl, by rfl, (trim_exact_iff _ oneBlockFile (.first 4000) ⟨1, 0, 4095⟩ true ?_ ?_ ?_
    ?_ ?_).mpr ⟨⟨?_, ?_, ?_⟩, ?_⟩⟩
  · decide
  · decide
  · show (ovlGetBlock 4000 - 1) * BLOCK_SIZE < 4000
    decide
  · decide
  · rfl
  · decide
  · decide
  · decide
  · rintro (⟨-, -, h, -⟩ | ⟨h, -, -⟩)
    · exact absurd h (by decide)
    · exact absurd h (by decide)

/-- If the second write begins at offset 2, below the lower size, the request gets bounds
that were never assigned: with zeroes the block counts as copied, although the bytes at 0
and 1 were not. -/
theorem trim_loses_bytes : ∃ s t, s = (oneBlockStart.asyncBlockWriteIter oneBlockFile .plain
      ⟨4095, false, [7, 7]⟩).2 ∧
    t = (s.startSection oneBlockFile true (0, 0) 2).2 ∧
    s.status 1 = .copying ∧ s.findReq 1 = some ⟨1, 0, 4095⟩ ∧
    t.status 1 = .copied ∧
    CopyReq.Remains oneBlockFile ⟨1, 0, 4095⟩ (.first 2) 0 ∧
    ¬ TrimsExactly oneBlockFile (.first 2) ⟨1, 0, 4095⟩ t := by
  have hremains : CopyReq.Remains oneBlockFile ⟨1, 0, 4095⟩ (.first 2) 0 :=
    ⟨by decide, ⟨le_rfl, by decide⟩, fun h => absurd h.1 (by decide)⟩
  refine ⟨_, _, rfl, rfl, by decide, by rfl, by decide, hremains, fun hex => ?_⟩
  exact hex.copied (by decide) 0 hremains

end FzzOverlay

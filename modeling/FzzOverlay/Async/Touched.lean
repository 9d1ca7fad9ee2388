import FzzOverlay.Async.Pending
import FzzOverlay.File.WriteSpec

/-!
# What a positioned write touches

The upper bytes that one `async_block_write_iter` changes when nobody else runs. Only
the section for a request inside one block copies anything; the others leave requests
to the worker.
-/

namespace FzzOverlay

open SparseFile AsyncState

/-- Offset `i` is in the range of the request. -/
def WriteReq.Holds (req : WriteReq) (i : ℕ) : Prop :=
  req.pos ≤ i ∧ i < req.pos + req.data.length

namespace AsyncState

/-- What a request may change: its own range, and the blocks that it overlaps and that
are not copied. -/
def MayChange (s : AsyncState) (req : WriteReq) (i : ℕ) : Prop :=
  req.Holds i ∨ ((∃ j, req.Holds j ∧ ovlGetBlock j = ovlGetBlock i) ∧
    s.status (ovlGetBlock i) ≠ .copied)

/-- The offsets that the section for a request inside block `b` copies up. For a block
that is not copied it goes on to the end of the lower file. -/
def SameCopies (s : AsyncState) (f : CowFile) (b i : ℕ) : Prop :=
  i < f.lower.size ∧
    match s.status b with
    | .uncopy => (b - 1) * BLOCK_SIZE ≤ i
    | .copying => ∃ r, s.findReq b = some r ∧ r.Covers i
    | .copied => False

variable {s : AsyncState} {f : CowFile}

/-! ### The sections that copy nothing -/

theorem trimReq_upper (s : AsyncState) (b pos len : ℕ) (junk : ℕ × ℕ) :
    (s.trimReq b pos len junk).upper = s.upper := by
  unfold trimReq
  cases s.findReq b with
  | none => rfl
  | some r =>
    dsimp only
    split
    · split
      · rfl
      · rfl
    · rfl

theorem startSection_upper (s : AsyncState) (f : CowFile) (mem : Bool) (junk : ℕ × ℕ) (pos : ℕ) :
    (s.startSection f mem junk pos).2.upper = s.upper := by
  obtain ⟨heq, -⟩ | ⟨-, -, ⟨-, heq⟩ | ⟨-, heq⟩⟩ | ⟨-, -, heq⟩ := startSection_cases s f mem junk pos
  · rw [heq]
  · rw [heq]
    rfl
  · rw [heq]
  · rw [heq]
    exact trimReq_upper s _ _ _ junk

theorem endSection_upper (s : AsyncState) (f : CowFile) (mem : Bool) (junk : ℕ × ℕ) (stop : ℕ) :
    (s.endSection f mem junk stop).2.upper = s.upper := by
  obtain ⟨heq, -⟩ | ⟨-, ⟨-, heq⟩ | ⟨-, heq⟩⟩ | ⟨-, heq⟩ := endSection_cases s f mem junk stop
  · rw [heq]
  · rw [heq]
    rfl
  · rw [heq]
  · rw [heq]
    exact trimReq_upper s _ _ _ junk

theorem markCopied_upper (blockCount last fuel i : ℕ) (s : AsyncState) :
    (markCopied blockCount last fuel i s).upper = s.upper := by
  induction fuel generalizing i s with
  | zero => rfl
  | succ fuel ih =>
    rw [markCopied]
    split
    · rfl
    · rw [ih]
      rfl

/-! ### The section for a request inside one block -/

theorem copyRange_patched {P : ℕ → Prop} (env : CopyEnv) (pos len : ℕ)
    (hP : ∀ i, pos ≤ i → i < pos + len → i < f.lower.size → P i) :
    PatchedFrom P f.lower s.upper (s.copyRange f env pos len).2.upper :=
  patchedFrom_ovlCopyUpBlock env f.lower s.upper pos len hP

theorem sameSection_patched (s : AsyncState) (f : CowFile) (env : CopyEnv) (b : ℕ) :
    PatchedFrom (s.SameCopies f b) f.lower s.upper (s.sameSection f env b).2.upper := by
  unfold sameSection
  cases hst : s.status b with
  | uncopy =>
    have hcopy : PatchedFrom (s.SameCopies f b) f.lower s.upper
        (s.copyRange f env ((b - 1) * BLOCK_SIZE) f.lower.size).2.upper := by
      refine copyRange_patched env _ _ fun i hlo _ hi => ⟨hi, ?_⟩
      rw [hst]
      exact hlo
    dsimp only
    split
    · exact hcopy
    · exact hcopy
  | copying =>
    simp only [speedBlockCopy]
    cases hfind : s.findReq b with
    | none => exact .refl _ _ _
    | some r =>
      have hcopy : PatchedFrom (s.SameCopies f b) f.lower s.upper
          (s.copyRange f env r.offset r.len).2.upper := by
        refine copyRange_patched env _ _ fun i hlo hhi hi => ⟨hi, ?_⟩
        rw [hst]
        exact ⟨r, hfind, hlo, hhi⟩
      dsimp only
      split
      · exact hcopy
      · exact hcopy
  | copied => exact .refl _ _ _

theorem copyRange_plain (s : AsyncState) (f : CowFile) (pos len : ℕ) :
    (s.copyRange f .plain pos len).1 = 0 ∧
      (s.copyRange f .plain pos len).2.upper = s.upper.write pos (f.lower.read pos len) := by
  have hzero := ovlCopyUpBlock_plain f.lower s.upper pos len
  exact ⟨hzero, ovlCopyUpBlock_of_nonneg (Int.le_of_eq hzero.symm)⟩

/-- If nothing fails, all of it is copied. -/
theorem sameSection_plain (s : AsyncState) (f : CowFile) (b : ℕ) :
    (s.sameSection f .plain b).1 = 0 ∧ ∀ i, s.SameCopies f b i →
      (s.sameSection f .plain b).2.upper.cell i = f.lower.cell i := by
  unfold sameSection
  cases hst : s.status b with
  | uncopy =>
    obtain ⟨hret, hup⟩ := copyRange_plain s f ((b - 1) * BLOCK_SIZE) f.lower.size
    dsimp only
    rw [if_neg (by omega)]
    refine ⟨rfl, fun i hi => ?_⟩
    obtain ⟨hlt, hlo⟩ := hi
    rw [hst] at hlo
    refine (congrArg (fun u : File => u.cell i) hup).trans ?_
    exact write_read_cell _ _ hlo (Nat.lt_add_left _ hlt) hlt
  | copying =>
    simp only [speedBlockCopy]
    cases hfind : s.findReq b with
    | none =>
      refine ⟨rfl, fun i hi => ?_⟩
      obtain ⟨-, hcov⟩ := hi
      rw [hst] at hcov
      obtain ⟨r, hr, -⟩ := hcov
      rw [hfind] at hr
      cases hr
    | some r =>
      obtain ⟨hret, hup⟩ := copyRange_plain s f r.offset r.len
      dsimp only
      rw [if_neg (by omega)]
      refine ⟨hret, fun i hi => ?_⟩
      obtain ⟨hlt, hcov⟩ := hi
      rw [hst] at hcov
      obtain ⟨q, hq, hlo, hhi⟩ := hcov
      cases hfind.symm.trans hq
      refine (congrArg (fun u : File => u.cell i) hup).trans ?_
      exact write_read_cell _ _ hlo hhi hlt
  | copied =>
    refine ⟨rfl, fun i hi => ?_⟩
    obtain ⟨-, hfalse⟩ := hi
    rw [hst] at hfalse
    exact hfalse.elim

/-! ### The whole call -/

/-- The data goes to the range of the request. -/
theorem storeAndMark_cell (f : CowFile) (wr : ℕ → VfsWrite) {req : WriteReq} (s : AsyncState)
    (happ : req.append = false) {i : ℕ} (hi : ¬ req.Holds i) :
    (storeAndMark f wr req s).2.upper.cell i = s.upper.cell i := by
  obtain ⟨n, hn, hup, -⟩ := writeLoop_spec { WriteEnv.full with wr := wr } req.append
    req.data.length 0 0 req.pos req.data s.upper le_rfl
  have hcell : (writeLoop { WriteEnv.full with wr := wr } req.append req.data.length 0 0 req.pos
      req.data s.upper).upper.cell i = s.upper.cell i := by
    rw [hup]
    refine write_cell_of_not_mem _ ?_
    unfold WriteReq.Holds at hi
    simp only [writeAt, happ, Bool.false_eq_true, if_false, List.length_take]
    omega
  unfold storeAndMark
  dsimp only
  split
  · rw [markCopied_upper]
    exact hcell
  · exact hcell

/-- A continuation that keeps a byte keeps it whether it runs or not. -/
theorem orReturn_cell (r : ℤ × AsyncState) {k : AsyncState → ℤ × AsyncState} {i : ℕ}
    (hk : ∀ u t, k u = t → t.2.upper.cell i = u.upper.cell i) :
    (orReturn r k).2.upper.cell i = r.2.upper.cell i := by
  unfold orReturn
  split
  · rfl
  · exact hk r.2 _ rfl

theorem asyncBlockWriteIter_cell {req : WriteReq} (happ : req.append = false) (env : AsyncEnv)
    {i : ℕ} (hi : ¬ req.Holds i) :
    (s.asyncBlockWriteIter f env req).2.upper.cell i = s.upper.cell i ∨
      (sameBlock req = true ∧ s.SameCopies f (ovlGetBlock req.pos) i ∧
        (s.asyncBlockWriteIter f env req).2.upper.cell i = f.lower.cell i) := by
  have hstore : ∀ u t, storeAndMark f env.wr req u = t → t.2.upper.cell i = u.upper.cell i := by
    rintro u t rfl
    exact storeAndMark_cell f env.wr u happ hi
  unfold asyncBlockWriteIter
  rw [happ, if_neg Bool.false_ne_true]
  by_cases hsame : sameBlock req = true
  · rw [if_pos hsame, orReturn_cell _ hstore]
    rcases (sameSection_patched s f env.copy (ovlGetBlock req.pos)).cell i with h | ⟨hc, -, h⟩
    · exact .inl h
    · exact .inr ⟨hsame, hc, h⟩
  · have hend : ∀ (u : AsyncState) t, orReturn (u.endSection f env.memEnd env.junkEnd
        (req.pos + req.data.length)) (storeAndMark f env.wr req) = t →
          t.2.upper.cell i = u.upper.cell i := by
      rintro u t rfl
      rw [orReturn_cell _ hstore, endSection_upper]
    rw [if_neg hsame, orReturn_cell _ hend, startSection_upper]
    exact .inl rfl

theorem asyncBlockWriteIter_plain_cell {req : WriteReq} (happ : req.append = false)
    (hsame : sameBlock req = true) {i : ℕ} (hi : ¬ req.Holds i)
    (hc : s.SameCopies f (ovlGetBlock req.pos) i) :
    (s.asyncBlockWriteIter f .plain req).2.upper.cell i = f.lower.cell i := by
  obtain ⟨hret, hcell⟩ := sameSection_plain s f (ovlGetBlock req.pos)
  rw [asyncBlockWriteIter, happ, if_neg Bool.false_ne_true, if_pos hsame,
    orReturn_of_not_neg (r := s.sameSection f AsyncEnv.plain.copy (ovlGetBlock req.pos)) rfl
      (Int.not_lt.mpr (Int.le_of_eq hret.symm)), storeAndMark_cell f _ _ happ hi]
  exact hcell i hc

end AsyncState

/-- In every environment a positioned write changes only what it may change, if and only
if each byte that the section for one block copies up besides that is already in the
upper file. -/
theorem async_write_touches_iff (f : CowFile) (s : AsyncState) (pos : ℕ) (data : List UInt8) :
    (∀ env i, (s.asyncBlockWriteIter f env ⟨pos, false, data⟩).2.upper.cell i ≠ s.upper.cell i →
        s.MayChange ⟨pos, false, data⟩ i) ↔
      (sameBlock ⟨pos, false, data⟩ = true → ∀ i, s.SameCopies f (ovlGetBlock pos) i →
        ¬ s.MayChange ⟨pos, false, data⟩ i → s.upper.cell i = f.lower.cell i) := by
  constructor
  · intro h hsame i hc hmay
    by_contra hne
    refine hmay (h .plain i ?_)
    rw [asyncBlockWriteIter_plain_cell rfl hsame (fun hi => hmay (.inl hi)) hc]
    exact Ne.symm hne
  · intro h env i hchange
    by_contra hmay
    have hout : ¬ WriteReq.Holds ⟨pos, false, data⟩ i := fun hi => hmay (.inl hi)
    rcases asyncBlockWriteIter_cell (s := s) (f := f) rfl env hout with hkeep | ⟨hsame, hc, hlow⟩
    · exact hchange hkeep
    · exact hchange (hlow.trans (h hsame i hc hmay).symm)

/-- A lower file of 4098 bytes in two blocks. -/
def twoBlockFile : CowFile :=
  ⟨⟨4098, fun i => if i < 4098 then 5 else 0, fun _ hi => if_neg (Nat.not_lt.mpr hi)⟩, 2, hashMin⟩

/-- A byte is written at offset 4097, which leaves block 2 copied; then one at offset 1 of
block 1. The copy of block 1 goes on over block 2 and puts the lower byte over the first
one. -/
theorem async_write_touches_copied_block : ∃ s t,
    s = (oneBlockStart.asyncBlockWriteIter twoBlockFile .plain ⟨4097, false, [9]⟩).2 ∧
    t = (s.asyncBlockWriteIter twoBlockFile .plain ⟨1, false, [7]⟩).2 ∧
    s.status 2 = .copied ∧ s.upper.cell 4097 = 9 ∧ t.upper.cell 4097 = 5 ∧
    ¬ s.MayChange ⟨1, false, [7]⟩ 4097 := by
  set s := (oneBlockStart.asyncBlockWriteIter twoBlockFile .plain ⟨4097, false, [9]⟩).2
  have hone : s.status 1 = .uncopy := by rfl
  have htwo : s.status 2 = .copied := by rfl
  have hcopies : s.SameCopies twoBlockFile 1 4097 := by
    refine ⟨by decide, ?_⟩
    rw [hone]
    decide
  have hout : ¬ WriteReq.Holds ⟨1, false, [7]⟩ 4097 := fun h => absurd h.2 (by decide)
  refine ⟨s, _, rfl, rfl, htwo, by rfl, ?_, ?_⟩
  · exact asyncBlockWriteIter_plain_cell rfl (by decide) hout hcopies
  · rintro (h | ⟨-, hst⟩)
    · exact hout h
    · exact hst htwo

end FzzOverlay

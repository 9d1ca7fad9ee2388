import FzzOverlay.CopyUp.Block

/-!
# What the copy of a range changes

The `while (len)` loop of `ovl_copy_up_block` pass by pass, with both file positions. It
returns, and the range it returns for holds the lower bytes.

## Main definitions

- `splicePass` — one test of `while (len)` and the pass behind it
- `ovlCopyUpBlockRun` — the call with a bound on the tests
- `CopiesRange` — the bytes of the upper file behind a call

## Main results

- `spliceRun_eq` — the loop returns what `spliceLoop` computes
- `ovlCopyUpBlock_exact` — the call returns, and copies exactly its range
-/

namespace FzzOverlay

open SparseFile

/-- The upper file and the variables `old_pos`, `new_pos` and `len`. -/
structure SpliceVars where
  upper : File
  oldPos : ℕ
  newPos : ℕ
  len : ℕ

section Run

variable (env : CopyEnv) (lower : File)

/-- One test of `while (len)` and the pass behind it: the variables at the next test, or what
the call returns. -/
def splicePass (k : ℕ) (v : SpliceVars) : SpliceVars ⊕ (ℤ × File) :=
  if v.len = 0 then .inr (0, v.upper)
  else
    let thisLen := if v.len < OVL_COPY_UP_CHUNK_SIZE then v.len else OVL_COPY_UP_CHUNK_SIZE
    match env.splice k with
    | .signal => .inr (EINTR.ret, v.upper)
    | .fail e => .inr (e.ret, v.upper)
    | s =>
      let bytes := s.moved lower v.oldPos thisLen
      if bytes = [] then .inr (0, v.upper)
      else
        .inl ⟨v.upper.write v.newPos bytes, v.oldPos + bytes.length, v.newPos + bytes.length,
          v.len - bytes.length⟩

/-- The loop, running still when the tests it is allowed are used up. -/
def spliceRun : ℕ → ℕ → SpliceVars → Outcome (ℤ × File)
  | 0, _, _ => .running
  | fuel + 1, k, v =>
    match splicePass env lower k v with
    | .inl v' => spliceRun fuel (k + 1) v'
    | .inr r => .ret r

/-- `ovl_copy_up_block` with at most `fuel` tests of `while (len)`. -/
def ovlCopyUpBlockRun (fuel : ℕ) (upper : File) (pos len : ℕ) : Outcome (ℤ × File) :=
  if len = 0 then .ret (0, upper)
  else if env.clone ∧ pos + len ≤ lower.size then
    .ret (0, upper.write pos (lower.read pos len))
  else spliceRun env lower fuel 0 ⟨upper, pos, pos, len⟩

end Run

section Terminates

variable {env : CopyEnv} {lower upper : File} {pos len : ℕ}

/-- A pass leaves the two positions equal, or it ends the loop with the value of
`spliceLoop`. -/
theorem splicePass_cases (env : CopyEnv) (lower : File) (k : ℕ) (upper : File) (pos len : ℕ) :
    (∃ bytes : List UInt8, bytes ≠ [] ∧ len ≠ 0 ∧
      splicePass env lower k ⟨upper, pos, pos, len⟩ =
        .inl ⟨upper.write pos bytes, pos + bytes.length, pos + bytes.length,
          len - bytes.length⟩ ∧
      ∀ fuel, spliceLoop env lower (fuel + 1) k upper pos len =
        spliceLoop env lower fuel (k + 1) (upper.write pos bytes) (pos + bytes.length)
          (len - bytes.length)) ∨
    ∃ r, splicePass env lower k ⟨upper, pos, pos, len⟩ = .inr r ∧
      ∀ fuel, spliceLoop env lower (fuel + 1) k upper pos len = r := by
  by_cases h0 : len = 0
  · refine .inr ⟨(0, upper), if_pos h0, fun fuel => ?_⟩
    rw [spliceLoop, if_pos h0]
  simp only [splicePass, spliceLoop, if_neg h0]
  generalize (if len < OVL_COPY_UP_CHUNK_SIZE then len else OVL_COPY_UP_CHUNK_SIZE) = thisLen
  -- a pass that moves bytes goes on, all others return
  have hmoved : ∀ bytes : List UInt8, bytes = [] ∨ bytes ≠ [] := fun bytes => em _
  cases env.splice k with
  | signal => exact .inr ⟨_, rfl, fun _ => rfl⟩
  | fail e => exact .inr ⟨_, rfl, fun _ => rfl⟩
  | full =>
    obtain hnil | hne := hmoved (Splice.full.moved lower pos thisLen)
    · exact .inr ⟨_, if_pos hnil, fun _ => if_pos hnil⟩
    · exact .inl ⟨_, hne, h0, if_neg hne, fun _ => if_neg hne⟩
  | short j =>
    obtain hnil | hne := hmoved ((Splice.short j).moved lower pos thisLen)
    · exact .inr ⟨_, if_pos hnil, fun _ => if_pos hnil⟩
    · exact .inl ⟨_, hne, h0, if_neg hne, fun _ => if_neg hne⟩

/-- The loop returns: every pass that goes round takes a byte off `len`. -/
theorem spliceRun_eq (env : CopyEnv) (lower : File) (fuel k : ℕ) (upper : File) (pos len : ℕ)
    (hfuel : len < fuel) (bound : ℕ) (hbound : len ≤ bound) :
    spliceRun env lower fuel k ⟨upper, pos, pos, len⟩ =
      .ret (spliceLoop env lower bound k upper pos len) := by
  induction fuel generalizing k upper pos len bound with
  | zero => omega
  | succ fuel ih =>
    rw [spliceRun]
    cases bound with
    | zero =>
      have h0 : len = 0 := by omega
      have hpass : splicePass env lower k ⟨upper, pos, pos, len⟩ = .inr (0, upper) := if_pos h0
      rw [hpass]
      rfl
    | succ bound =>
      obtain ⟨bytes, hne, h0, hpass, hloop⟩ | ⟨r, hpass, hloop⟩ :=
        splicePass_cases env lower k upper pos len
      · have hpos : 0 < bytes.length := List.length_pos_of_ne_nil hne
        rw [hpass, hloop]
        exact ih _ _ _ _ (by omega) bound (by omega)
      · rw [hpass, hloop]

theorem ovlCopyUpBlockRun_eq (env : CopyEnv) (lower upper : File) {fuel pos len : ℕ}
    (hfuel : len < fuel) :
    ovlCopyUpBlockRun env lower fuel upper pos len =
      .ret (ovlCopyUpBlock env lower upper pos len) := by
  rw [ovlCopyUpBlockRun, ovlCopyUpBlock]
  split
  · rfl
  split
  · rfl
  · exact spliceRun_eq env lower fuel 0 upper pos len hfuel len le_rfl

end Terminates

section Exact

variable {lower upper upper' : File} {pos len : ℕ}

/-- What is behind a call for the range `[pos, pos + len)` that returned `ret`. A byte that is
not as it was is in the range and is the lower byte; on success no byte of the range is
missing. -/
structure CopiesRange (lower upper : File) (pos len : ℕ) (ret : ℤ) (upper' : File) : Prop where
  returned : ret = 0 ∨ ret < 0
  changed : ∀ i, upper'.cell i ≠ upper.cell i →
    pos ≤ i ∧ i < min (pos + len) lower.size ∧ upper'.get? i = lower.get? i
  size_le : upper.size ≤ upper'.size
  le_size : upper'.size ≤ max upper.size (min (pos + len) lower.size)
  complete : ret = 0 → ∀ i, pos ≤ i → i < min (pos + len) lower.size →
    upper'.get? i = lower.get? i

/-- A byte below the old size and not in the range is the byte it was. -/
theorem CopiesRange.get?_of_not_mem {ret : ℤ} (h : CopiesRange lower upper pos len ret upper')
    {i : ℕ} (hi : i < upper.size) (hout : i < pos ∨ min (pos + len) lower.size ≤ i) :
    upper'.get? i = upper.get? i := by
  have hsize := h.size_le
  rw [get?_of_lt hi, get?_of_lt (by omega)]
  congr 1
  by_contra hne
  have hin := h.changed i hne
  omega

/-- The lower bytes of a range, stored at their offsets. -/
theorem get?_write_read {i : ℕ} (hlo : pos ≤ i) (hhi : i < min (pos + len) lower.size) :
    (upper.write pos (lower.read pos len)).get? i = lower.get? i := by
  rw [get?_write_of_mem upper hlo (by rw [length_read]; omega), getElem?_read,
    if_pos (by omega), show pos + (i - pos) = i by omega]

theorem copiesRange_of_prefix {r : ℤ × File} (hret : r.1 = 0 ∨ r.1 < 0)
    (h : CopiesPrefix lower upper pos len r) :
    CopiesRange lower upper pos len r.1 r.2 := by
  obtain ⟨m, hm, hres, hok⟩ := h
  rw [hres]
  refine ⟨hret, fun i hne => ?_, size_le_write _ _ _, ?_, fun hzero i hlo hhi => ?_⟩
  · have hin : pos ≤ i ∧ i < min (pos + m) lower.size := by
      by_contra hout
      refine hne (write_cell_of_not_mem upper ?_)
      rw [length_read]
      omega
    exact ⟨hin.1, by omega, get?_write_read hin.1 hin.2⟩
  · by_cases hnil : lower.read pos m = []
    · rw [hnil, write_nil]
      omega
    · rw [write_size_of_ne_nil _ _ hnil, length_read]
      rw [read_eq_nil_iff] at hnil
      omega
  · obtain ⟨-, hread⟩ := hok (Int.le_of_eq hzero.symm)
    rw [hread]
    exact get?_write_read hlo hhi

end Exact

/-- Whatever ends the loop, the return value is not positive. -/
theorem spliceLoop_returned (env : CopyEnv) (lower : File) (fuel k : ℕ) (upper : File)
    (pos len : ℕ) (hfuel : len ≤ fuel) :
    (spliceLoop env lower fuel k upper pos len).1 = 0 ∨
      (spliceLoop env lower fuel k upper pos len).1 < 0 := by
  obtain ⟨m, -, -, hok⟩ := spliceLoop_spec env lower fuel k upper pos len hfuel
  by_cases hneg : (spliceLoop env lower fuel k upper pos len).1 < 0
  · exact .inr hneg
  · exact .inl (hok (Int.not_lt.mp hneg)).1

/-- Each of the ways to return leaves the range copied as far as the return value says. -/
theorem copiesRange_ovlCopyUpBlock (env : CopyEnv) (lower upper : File) (pos len : ℕ) :
    CopiesRange lower upper pos len (ovlCopyUpBlock env lower upper pos len).1
      (ovlCopyUpBlock env lower upper pos len).2 := by
  rw [ovlCopyUpBlock]
  split
  · next h0 => exact copiesRange_of_prefix (.inl rfl) (copiesPrefix_end (.inl h0))
  split
  · exact copiesRange_of_prefix (.inl rfl) ⟨len, le_rfl, rfl, fun _ => ⟨rfl, rfl⟩⟩
  · exact copiesRange_of_prefix (spliceLoop_returned env lower len 0 upper pos len le_rfl)
      (spliceLoop_spec env lower len 0 upper pos len le_rfl)

/-- `ovl_copy_up_block` copies exactly its range. After at most `len + 1` tests of its loop it
has returned. Behind a return of 0 the bytes of the range that the lower file has are the
lower ones and all others below the old size are as they were; behind an error only bytes of
that range have changed, each to the lower byte. -/
theorem ovlCopyUpBlock_exact (env : CopyEnv) (lower upper : File) (pos len : ℕ) :
    ∃ ret upper',
      (∀ fuel, len < fuel → ovlCopyUpBlockRun env lower fuel upper pos len = .ret (ret, upper')) ∧
      (ret = 0 ∨ ret < 0) ∧ upper.size ≤ upper'.size ∧
      upper'.size ≤ max upper.size (min (pos + len) lower.size) ∧
      (ret = 0 →
        (∀ i, pos ≤ i → i < min (pos + len) lower.size → upper'.get? i = lower.get? i) ∧
        ∀ i, i < upper.size → i < pos ∨ min (pos + len) lower.size ≤ i →
          upper'.get? i = upper.get? i) ∧
      (ret < 0 → ∀ i, upper'.cell i ≠ upper.cell i →
        pos ≤ i ∧ i < min (pos + len) lower.size ∧ upper'.get? i = lower.get? i) := by
  have hrun : ∀ fuel, len < fuel → ovlCopyUpBlockRun env lower fuel upper pos len =
      .ret (ovlCopyUpBlock env lower upper pos len) :=
    fun fuel hfuel => ovlCopyUpBlockRun_eq env lower upper hfuel
  have hcopies := copiesRange_ovlCopyUpBlock env lower upper pos len
  refine ⟨_, _, hrun, hcopies.returned, hcopies.size_le, hcopies.le_size,
    fun hzero => ⟨hcopies.complete hzero, fun i hi hout => ?_⟩, fun _ => hcopies.changed⟩
  exact hcopies.get?_of_not_mem hi hout

end FzzOverlay

import FzzOverlay.Entry

/-!
# Copying one block up

`ovl_copy_up_block` of `copy_up.c`: try to clone the range, else splice it in
chunks. What the kernel does inside the call is an argument of the model.
-/

namespace FzzOverlay

open SparseFile

/-- `OVL_COPY_UP_CHUNK_SIZE`. -/
def OVL_COPY_UP_CHUNK_SIZE : ℕ := 2 ^ 20

/-- One pass of the splice loop: a fatal signal is pending, `do_splice_direct`
fails, it moves what it was asked for, or it moves at most `k + 1` bytes. Only at
the end of the lower file does it move nothing. -/
inductive Splice where
  | signal
  | fail (e : Errno)
  | full
  | short (k : ℕ)

/-- What the kernel does during one `ovl_copy_up_block`. -/
structure CopyEnv where
  clone : Bool
  splice : ℕ → Splice

/-- A kernel that cannot clone and whose splices are never short. -/
def CopyEnv.plain : CopyEnv := ⟨false, fun _ => .full⟩

/-- The bytes one `do_splice_direct` of at most `thisLen` bytes moves. -/
def Splice.moved (lower : File) (pos thisLen : ℕ) : Splice → List UInt8
  | .full => lower.read pos thisLen
  | .short k => lower.read pos (min (k + 1) thisLen)
  | _ => []

/-- The `while (len)` loop. Every pass that goes round moves at least one byte,
so `len` passes are enough. `len` holds the value of the `loff_t` as the loop
compares it, unsigned. -/
def spliceLoop (env : CopyEnv) (lower : File) : ℕ → ℕ → File → ℕ → ℕ → ℤ × File
  | 0, _, upper, _, _ => (0, upper)
  | fuel + 1, k, upper, pos, len =>
    if len = 0 then (0, upper)
    else
      let thisLen := if len < OVL_COPY_UP_CHUNK_SIZE then len else OVL_COPY_UP_CHUNK_SIZE
      match env.splice k with
      | .signal => (EINTR.ret, upper)
      | .fail e => (e.ret, upper)
      | s =>
        let bytes := s.moved lower pos thisLen
        if bytes = [] then (0, upper)
        else
          spliceLoop env lower fuel (k + 1) (upper.write pos bytes) (pos + bytes.length)
            (len - bytes.length)

/-- `ovl_copy_up_block`: the return value and the upper file after the call.
`do_clone_file_range` refuses a range that passes the end of the lower file. -/
def ovlCopyUpBlock (env : CopyEnv) (lower upper : File) (pos len : ℕ) : ℤ × File :=
  if len = 0 then (0, upper)
  else if env.clone ∧ pos + len ≤ lower.size then (0, upper.write pos (lower.read pos len))
  else spliceLoop env lower len 0 upper pos len

theorem write_read_write_read (lower upper : File) (pos a b : ℕ) (ha : pos + a ≤ lower.size) :
    (upper.write pos (lower.read pos a)).write (pos + a) (lower.read (pos + a) b) =
      upper.write pos (lower.read pos (a + b)) := by
  have hlen : (lower.read pos a).length = a := by
    rw [length_read]
    omega
  have h := write_write_append upper pos (lower.read pos a) (lower.read (pos + a) b)
  rwa [hlen, ← read_add] at h

theorem Splice.moved_eq_read (s : Splice) (lower : File) (pos thisLen : ℕ) :
    ∃ m, m ≤ thisLen ∧ s.moved lower pos thisLen = lower.read pos m := by
  cases s with
  | signal => exact ⟨0, Nat.zero_le _, (read_zero _ _).symm⟩
  | fail e => exact ⟨0, Nat.zero_le _, (read_zero _ _).symm⟩
  | full => exact ⟨thisLen, le_rfl, rfl⟩
  | short k => exact ⟨min (k + 1) thisLen, by omega, rfl⟩

theorem Splice.moved_eq_nil {s : Splice} {lower : File} {pos thisLen : ℕ} (ht : thisLen ≠ 0)
    (hs : ∀ e, s ≠ .signal ∧ s ≠ .fail e) (h : s.moved lower pos thisLen = []) :
    lower.size ≤ pos := by
  cases s with
  | signal => exact absurd rfl (hs EPERM).1
  | fail e => exact absurd rfl (hs e).2
  | full =>
    have := read_eq_nil_iff.mp h
    omega
  | short k =>
    have := read_eq_nil_iff.mp h
    omega

/-- A copy of a range leaves a prefix of it, and the whole of what the lower file has of
the range when it reports success. -/
def CopiesPrefix (lower upper : File) (pos len : ℕ) (r : ℤ × File) : Prop :=
  ∃ m, m ≤ len ∧ r.2 = upper.write pos (lower.read pos m) ∧
    (0 ≤ r.1 → r.1 = 0 ∧ lower.read pos m = lower.read pos len)

section Prefix

variable {lower upper : File} {pos len : ℕ} {r : ℤ × File}

theorem copiesPrefix_error {e : ℤ} (he : e < 0) : CopiesPrefix lower upper pos len (e, upper) :=
  ⟨0, Nat.zero_le _, by simp, fun hret => absurd hret (by simpa using he)⟩

theorem copiesPrefix_end (h : len = 0 ∨ lower.size ≤ pos) :
    CopiesPrefix lower upper pos len (0, upper) := by
  refine ⟨0, Nat.zero_le _, by simp, fun _ => ⟨rfl, ?_⟩⟩
  rw [read_zero, eq_comm, read_eq_nil_iff]
  exact h

/-- A part that is there, and a copy of the rest. -/
theorem CopiesPrefix.append {a : ℕ} (ha : a ≤ len) (hin : pos + a ≤ lower.size)
    (h : CopiesPrefix lower (upper.write pos (lower.read pos a)) (pos + a) (len - a) r) :
    CopiesPrefix lower upper pos len r := by
  obtain ⟨b, hb, hres, hok⟩ := h
  refine ⟨a + b, by omega, ?_, fun hret => ?_⟩
  · rw [hres]
    exact write_read_write_read lower upper pos a b hin
  · obtain ⟨hz, hread⟩ := hok hret
    refine ⟨hz, ?_⟩
    rw [read_add, hread, ← read_add, show a + (len - a) = len by omega]

end Prefix

theorem chunk_spec {len : ℕ} (h0 : len ≠ 0) :
    (if len < OVL_COPY_UP_CHUNK_SIZE then len else OVL_COPY_UP_CHUNK_SIZE) ≤ len ∧
      (if len < OVL_COPY_UP_CHUNK_SIZE then len else OVL_COPY_UP_CHUNK_SIZE) ≠ 0 := by
  have hchunk : OVL_COPY_UP_CHUNK_SIZE = 2 ^ 20 := rfl
  by_cases hc : len < OVL_COPY_UP_CHUNK_SIZE
  · rw [if_pos hc]
    omega
  · rw [if_neg hc]
    omega

/-- A pass that does not fail ends the loop when it meets the end of the lower file, and
leaves the rest of the range to the other passes. -/
theorem copiesPrefix_moved {s : Splice} {lower upper : File} {pos len thisLen : ℕ} {r : ℤ × File}
    (hs : ∀ e, s ≠ .signal ∧ s ≠ .fail e) (hthis : thisLen ≤ len ∧ thisLen ≠ 0)
    (h : s.moved lower pos thisLen ≠ [] → CopiesPrefix lower
      (upper.write pos (s.moved lower pos thisLen)) (pos + (s.moved lower pos thisLen).length)
      (len - (s.moved lower pos thisLen).length) r) :
    CopiesPrefix lower upper pos len
      (if s.moved lower pos thisLen = [] then (0, upper) else r) := by
  by_cases hnil : s.moved lower pos thisLen = []
  · rw [if_pos hnil]
    exact copiesPrefix_end (.inr (Splice.moved_eq_nil hthis.2 hs hnil))
  · specialize h hnil
    rw [if_neg hnil]
    obtain ⟨m, hm, hmoved⟩ := s.moved_eq_read lower pos thisLen
    rw [hmoved, read_eq_nil_iff] at hnil
    obtain ⟨a, ha, hm'⟩ : ∃ a, a = min m (lower.size - pos) ∧
        lower.read pos m = lower.read pos a := ⟨_, rfl, read_eq_read_min lower pos m⟩
    have hla : (lower.read pos a).length = a := by
      rw [length_read]
      omega
    rw [hmoved, hm', hla] at h
    exact h.append (by omega) (by omega)

/-- The loop copies a prefix of its range. -/
theorem spliceLoop_spec (env : CopyEnv) (lower : File) (fuel k : ℕ) (upper : File) (pos len : ℕ)
    (hfuel : len ≤ fuel) :
    CopiesPrefix lower upper pos len (spliceLoop env lower fuel k upper pos len) := by
  induction fuel generalizing k upper pos len with
  | zero => exact copiesPrefix_end (.inl (by omega))
  | succ fuel ih =>
    rw [spliceLoop]
    by_cases h0 : len = 0
    · rw [if_pos h0]
      exact copiesPrefix_end (.inl h0)
    rw [if_neg h0]
    have hthis := chunk_spec h0
    -- Every byte that is moved is one less for the passes that follow.
    have hrest : ∀ bytes : List UInt8, bytes ≠ [] →
        CopiesPrefix lower (upper.write pos bytes) (pos + bytes.length) (len - bytes.length)
          (spliceLoop env lower fuel (k + 1) (upper.write pos bytes) (pos + bytes.length)
            (len - bytes.length)) := by
      intro bytes hne
      have hpos := List.length_pos_of_ne_nil hne
      exact ih _ _ _ _ (by omega)
    cases env.splice k with
    | signal => exact copiesPrefix_error EINTR.ret_neg
    | fail e => exact copiesPrefix_error e.ret_neg
    | full => exact copiesPrefix_moved (fun _ => ⟨nofun, nofun⟩) hthis (hrest _)
    | short j => exact copiesPrefix_moved (fun _ => ⟨nofun, nofun⟩) hthis (hrest _)

/-- `ovl_copy_up_block` stores a prefix of the lower range, and all the lower
file has of it when it returns a non-negative value. -/
theorem ovlCopyUpBlock_spec (env : CopyEnv) (lower upper : File) (pos len : ℕ) :
    ∃ m, m ≤ len ∧ (ovlCopyUpBlock env lower upper pos len).2 =
        upper.write pos (lower.read pos m) ∧
      (0 ≤ (ovlCopyUpBlock env lower upper pos len).1 →
        lower.read pos m = lower.read pos len) := by
  rw [ovlCopyUpBlock]
  by_cases h0 : len = 0
  · subst h0
    exact ⟨0, le_rfl, by simp, fun _ => rfl⟩
  rw [if_neg h0]
  split
  · exact ⟨len, le_rfl, rfl, fun _ => rfl⟩
  · obtain ⟨m, hm, hres, hok⟩ := spliceLoop_spec env lower len 0 upper pos len le_rfl
    exact ⟨m, hm, hres, fun h => (hok h).2⟩

theorem ovlCopyUpBlock_of_nonneg {env : CopyEnv} {lower upper : File} {pos len : ℕ}
    (h : 0 ≤ (ovlCopyUpBlock env lower upper pos len).1) :
    (ovlCopyUpBlock env lower upper pos len).2 = upper.write pos (lower.read pos len) := by
  obtain ⟨m, -, hres, hok⟩ := ovlCopyUpBlock_spec env lower upper pos len
  rw [hres, hok h]

theorem spliceLoop_plain (lower : File) (fuel k : ℕ) (upper : File) (pos len : ℕ) :
    (spliceLoop .plain lower fuel k upper pos len).1 = 0 := by
  induction fuel generalizing k upper pos len with
  | zero => rfl
  | succ fuel ih =>
    rw [spliceLoop]
    split
    · rfl
    · simp only [show CopyEnv.plain.splice k = .full from rfl]
      generalize (if len < OVL_COPY_UP_CHUNK_SIZE then len else OVL_COPY_UP_CHUNK_SIZE) = thisLen
      split
      · rfl
      · exact ih _ _ _ _

/-- Only a signal or a failing splice makes `ovl_copy_up_block` fail. -/
theorem ovlCopyUpBlock_plain (lower upper : File) (pos len : ℕ) :
    (ovlCopyUpBlock .plain lower upper pos len).1 = 0 := by
  rw [ovlCopyUpBlock]
  split
  · rfl
  · split
    · rfl
    · exact spliceLoop_plain _ _ _ _ _ _

theorem patchedFrom_ovlCopyUpBlock {P : ℕ → Prop} (env : CopyEnv) (lower upper : File)
    (pos len : ℕ) (hP : ∀ i, pos ≤ i → i < pos + len → i < lower.size → P i) :
    PatchedFrom P lower upper (ovlCopyUpBlock env lower upper pos len).2 := by
  obtain ⟨m, hm, hres, -⟩ := ovlCopyUpBlock_spec env lower upper pos len
  rw [hres]
  exact patchedFrom_write_read lower upper pos m fun i h₁ h₂ h₃ => hP i h₁ (by omega) h₃

end FzzOverlay

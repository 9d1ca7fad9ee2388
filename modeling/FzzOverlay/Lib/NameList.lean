import FzzOverlay.Lib.CString

/-!
# Lists of names in a buffer

Names that stand one behind the other in a buffer, each with a zero byte behind it, and the
string functions of C on such a buffer. Only the first `lim` bytes may be looked at and moved:
the functions give `none` when they go beyond.

## Main definitions

- `Name`, `joined` — strings without zero bytes, and the bytes of a list of them
- `strnlenAt`, `strncmpAt`, `memmoveAt` — the string functions within a limit

## Main results

- `exists_joined` — every run of bytes is a list of names with a rest behind it
- `strnlenAt_name`, `strncmpAt_name` — what is read of a name
- `memmoveAt_spec` — what a move leaves
-/

namespace FzzOverlay.NameList

open CString

/-- A string without zero bytes. -/
structure Name where
  bytes : List UInt8
  nonzero : 0 ∉ bytes
  deriving DecidableEq

/-- The names one behind the other, each with its zero byte. -/
def joined : List Name → List UInt8
  | [] => []
  | n :: names => n.bytes ++ 0 :: joined names

section Joined

variable {n : Name} {names : List Name}

@[simp] theorem joined_nil : joined [] = [] := rfl

@[simp] theorem joined_cons : joined (n :: names) = n.bytes ++ 0 :: joined names := rfl

theorem length_joined_cons :
    (joined (n :: names)).length = n.bytes.length + 1 + (joined names).length := by
  rw [joined_cons, List.length_append, List.length_cons]
  omega

/-- Every run of bytes is a list of names with a rest that has no zero byte. -/
theorem exists_joined (bs : List UInt8) :
    ∃ (names : List Name) (tail : Name), bs = joined names ++ tail.bytes := by
  induction bs with
  | nil => exact ⟨[], ⟨[], List.not_mem_nil⟩, rfl⟩
  | cons c bs ih =>
    obtain ⟨names, tail, rfl⟩ := ih
    by_cases hc : c = 0
    · subst hc
      exact ⟨⟨[], List.not_mem_nil⟩ :: names, tail, rfl⟩
    · cases names with
      | nil =>
        refine ⟨[], ⟨c :: tail.bytes, ?_⟩, rfl⟩
        exact fun h => (List.mem_cons.mp h).elim (fun h0 => hc h0.symm) tail.nonzero
      | cons n names =>
        refine ⟨⟨c :: n.bytes, ?_⟩ :: names, tail, rfl⟩
        exact fun h => (List.mem_cons.mp h).elim (fun h0 => hc h0.symm) n.nonzero

end Joined

section Access

variable (lim : ℕ) (buf : List UInt8)

/-- The byte at `p`, which must be below the limit. -/
def byteAt (p : ℕ) : Option UInt8 := if p < lim then buf[p]? else none

/-- `strnlen` of the string at `p`. -/
def strnlenAt : ℕ → ℕ → Option ℕ
  | 0, _ => some 0
  | k + 1, p =>
    match byteAt lim buf p with
    | none => none
    | some c => if c = 0 then some 0 else (strnlenAt k (p + 1)).map (· + 1)

/-- `strncmp` of the string at `p` with the string `t`. -/
def strncmpAt : ℕ → ℕ → List UInt8 → Option ℤ
  | 0, _, _ => some 0
  | k + 1, p, t =>
    match byteAt lim buf p with
    | none => none
    | some c =>
      let d := t.headD 0
      if c ≠ d then some (if c < d then -1 else 1)
      else if c = 0 then some 0
      else strncmpAt k (p + 1) t.tail

/-- `memmove` of `n` bytes from `src` to `dst`. -/
def memmoveAt (dst src n : ℕ) : Option (List UInt8) :=
  if dst + n ≤ lim ∧ src + n ≤ lim ∧ lim ≤ buf.length then
    some (buf.take dst ++ (buf.drop src).take n ++ buf.drop (dst + n))
  else none

end Access

section Reads

variable {lim p k : ℕ} {buf s t rest : List UInt8} {c : UInt8}

theorem byteAt_of_drop (h : buf.drop p = c :: rest) (hlim : p < lim) :
    byteAt lim buf p = some c := by
  rw [byteAt, if_pos hlim, ← List.head?_drop, h]
  rfl

theorem drop_succ_of_drop (h : buf.drop p = c :: rest) : buf.drop (p + 1) = rest := by
  rw [← List.drop_drop, h]
  rfl

/-- The length of a string that ends before the `k` bytes do. -/
theorem strnlenAt_name (h : buf.drop p = s ++ 0 :: rest) (hs : 0 ∉ s) (hk : s.length < k)
    (hlim : p + k ≤ lim) : strnlenAt lim buf k p = some s.length := by
  induction s generalizing p k with
  | nil =>
    obtain ⟨k, rfl⟩ := Nat.exists_eq_add_of_lt hk
    rw [strnlenAt, byteAt_of_drop h (by omega)]
    rfl
  | cons c s ih =>
    rw [List.mem_cons, not_or] at hs
    cases k with
    | zero => omega
    | succ k =>
      rw [List.length_cons] at hk
      have hrest := ih (drop_succ_of_drop h) hs.2 (by omega : s.length < k) (by omega)
      rw [strnlenAt, byteAt_of_drop h (by omega)]
      simp only [if_neg (Ne.symm hs.1), hrest, Option.map_some, List.length_cons]

/-- The length of a string that does not end within the `k` bytes. -/
theorem strnlenAt_tail (h : buf.drop p = s ++ rest) (hs : 0 ∉ s) (hlim : p + s.length ≤ lim) :
    strnlenAt lim buf s.length p = some s.length := by
  induction s generalizing p with
  | nil => rfl
  | cons c s ih =>
    rw [List.mem_cons, not_or] at hs
    rw [List.length_cons] at hlim
    have hrest := ih (drop_succ_of_drop h) hs.2 (by omega)
    rw [List.length_cons, strnlenAt, byteAt_of_drop h (by omega)]
    simp only [if_neg (Ne.symm hs.1), hrest, Option.map_some]

theorem strncmp_cons_left (k : ℕ) (c : UInt8) (s t : List UInt8) :
    strncmp (k + 1) (c :: s) t = if c ≠ t.headD 0 then if c < t.headD 0 then -1 else 1
      else if c = 0 then 0 else strncmp k s t.tail := rfl

/-- The end of a string compares as a zero byte does. -/
theorem strncmp_nil_left (k : ℕ) (t : List UInt8) :
    strncmp (k + 1) [] t = if 0 ≠ t.headD 0 then if 0 < t.headD 0 then -1 else 1 else 0 := rfl

/-- A comparison reads a string up to its zero byte at most. -/
theorem strncmpAt_name (h : buf.drop p = s ++ 0 :: rest) (hlim : p + s.length < lim) :
    strncmpAt lim buf k p t = some (strncmp k s t) := by
  induction k generalizing p s t with
  | zero => rfl
  | succ k ih =>
    cases s with
    | nil =>
      rw [strncmpAt, byteAt_of_drop h (by omega), strncmp_nil_left]
      simp only [if_true]
      split <;> rfl
    | cons c s =>
      rw [List.length_cons] at hlim
      rw [strncmpAt, byteAt_of_drop h (by omega), strncmp_cons_left]
      simp only [ih (drop_succ_of_drop h) (by omega : p + 1 + s.length < lim)]
      by_cases hd : c ≠ t.headD 0
      · rw [if_pos hd, if_pos hd]
      · rw [if_neg hd, if_neg hd]
        split <;> rfl

end Reads

section Move

variable {lim dst src n : ℕ} {buf : List UInt8}

/-- What a move leaves: the bytes before its place, those that were moved, and everything
beyond the limit. -/
theorem memmoveAt_spec (hdst : dst + n ≤ lim) (hsrc : src + n ≤ lim) (hlim : lim ≤ buf.length) :
    ∃ buf', memmoveAt lim buf dst src n = some buf' ∧ buf'.length = buf.length ∧
      buf'.take dst = buf.take dst ∧ (∃ post, buf'.drop dst = (buf.drop src).take n ++ post) ∧
      buf'.drop lim = buf.drop lim := by
  have htake : (buf.take dst).length = dst := by
    rw [List.length_take]
    omega
  have hmoved : ((buf.drop src).take n).length = n := by
    rw [List.length_take, List.length_drop]
    omega
  refine ⟨_, if_pos ⟨hdst, hsrc, hlim⟩, ?_, ?_, ⟨buf.drop (dst + n), ?_⟩, ?_⟩
  · rw [List.length_append, List.length_append, htake, hmoved, List.length_drop]
    omega
  · rw [List.append_assoc, List.take_append_of_le_length (Nat.le_of_eq htake.symm),
      List.take_take, Nat.min_self]
  · rw [List.append_assoc, List.drop_append_of_le_length (Nat.le_of_eq htake.symm),
      List.drop_eq_nil_of_le (Nat.le_of_eq htake), List.nil_append]
  · have hsplit : lim = (buf.take dst ++ (buf.drop src).take n).length + (lim - (dst + n)) := by
      rw [List.length_append, htake, hmoved]
      omega
    rw [hsplit, ← List.drop_drop, List.drop_left, List.drop_drop]
    congr 1
    rw [List.length_append, htake, hmoved]

end Move

section Prefix

variable {s t : List UInt8}

/-- A comparison of as many characters as `t` has tells whether `s` begins with `t`. -/
theorem strncmp_eq_zero_iff (ht : 0 ∉ t) : strncmp t.length s t = 0 ↔ t <+: s := by
  induction t generalizing s with
  | nil => simp [strncmp]
  | cons d t ih =>
    rw [List.mem_cons, not_or] at ht
    cases s with
    | nil =>
      have hne : (0 : UInt8) ≠ d := ht.1
      rw [List.length_cons, strncmp_nil_left, List.headD_cons, if_pos hne]
      simp only [List.prefix_nil, reduceCtorEq, iff_false]
      split <;> decide
    | cons c s =>
      rw [List.length_cons, strncmp_cons, List.cons_prefix_cons]
      by_cases hcd : c = d
      · subst hcd
        rw [if_neg (not_not.mpr rfl), if_neg (Ne.symm ht.1), ih ht.2, and_iff_right rfl]
      · rw [if_pos hcd]
        simp only [Ne.symm hcd, false_and, iff_false]
        split <;> decide

end Prefix

end FzzOverlay.NameList

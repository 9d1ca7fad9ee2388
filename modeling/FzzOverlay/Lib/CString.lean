import Mathlib.Algebra.Group.Int.Defs
import Mathlib.Algebra.Group.Nat.Defs
import Mathlib.Data.List.Basic
import Mathlib.Data.List.Lex
import Mathlib.Data.List.TakeWhile
import Mathlib.Logic.Function.Basic

/-!
# Strings in memory

Character buffers as a scanner sees them: a memory of bytes, pointers as indices
into it and strings that end at the first zero byte. `Holds` describes the bytes
at a pointer and `write` the memory after a run of stores through a cursor.
-/

namespace FzzOverlay.CString

/-- The bytes behind the pointers. -/
abbrev Mem := ℕ → UInt8

/-- The memory has the bytes `bs` from `p` on. -/
def Holds (m : Mem) : ℕ → List UInt8 → Prop
  | _, [] => True
  | p, b :: bs => m p = b ∧ Holds m (p + 1) bs

/-- The memory after storing `bs` through a cursor that starts at `p`. -/
def write (m : Mem) : ℕ → List UInt8 → Mem
  | _, [] => m
  | p, b :: bs => write (Function.update m p b) (p + 1) bs

/-- The string at `p`, up to its zero byte; at most `n` bytes are looked at. -/
def cstr (m : Mem) : ℕ → ℕ → Option (List UInt8)
  | 0, _ => none
  | n + 1, p => if m p = 0 then some [] else (cstr m n (p + 1)).map (m p :: ·)

/-- The pointer to the zero byte of the string at `p`, as `strchr(p, 0)` gives it. -/
def strend (m : Mem) : ℕ → ℕ → Option ℕ
  | 0, _ => none
  | n + 1, p => if m p = 0 then some p else strend m n (p + 1)

section Holds

variable {m m' : Mem} {p q : ℕ} {b : UInt8} {xs ys bs : List UInt8}

theorem holds_append :
    Holds m p (xs ++ ys) ↔ Holds m p xs ∧ Holds m (p + xs.length) ys := by
  induction xs generalizing p with
  | nil => simp [Holds]
  | cons x xs ih =>
    simp only [List.cons_append, Holds, List.length_cons, ih, and_assoc,
      show p + (xs.length + 1) = p + 1 + xs.length by omega]

/-- Bytes are unaffected by what happens below them. -/
theorem Holds.congr (h : Holds m p bs) (hm : ∀ i, p ≤ i → m' i = m i) : Holds m' p bs := by
  induction bs generalizing p with
  | nil => trivial
  | cons b bs ih =>
    refine ⟨(hm p (Nat.le_refl p)).trans h.1, ih h.2 ?_⟩
    intro i hi
    exact hm i (by omega)

theorem Holds.update (h : Holds m p bs) (hq : q < p) :
    Holds (Function.update m q b) p bs := by
  apply h.congr
  intro i hi
  exact Function.update_of_ne (by omega) _ _

theorem Holds.update_above (h : Holds m p bs) (hq : p + bs.length ≤ q) :
    Holds (Function.update m q b) p bs := by
  induction bs generalizing p with
  | nil => trivial
  | cons c bs ih =>
    rw [List.length_cons] at hq
    refine ⟨?_, ih h.2 (by omega)⟩
    rw [Function.update_of_ne (by omega)]
    exact h.1

/-- Storing over a byte leaves what is before it and what is after it. -/
theorem Holds.update_middle (h : Holds m p (xs ++ b :: ys)) (c : UInt8) :
    Holds (Function.update m (p + xs.length) c) p (xs ++ c :: ys) := by
  obtain ⟨hxs, -, hys⟩ := holds_append.mp h
  apply holds_append.mpr
  refine ⟨hxs.update_above (Nat.le_refl _), Function.update_self _ _ _, hys.update ?_⟩
  omega

end Holds

section Write

variable {m : Mem} {p q : ℕ} {xs ys bs : List UInt8}

theorem write_append :
    write m p (xs ++ ys) = write (write m p xs) (p + xs.length) ys := by
  induction xs generalizing m p with
  | nil => rfl
  | cons x xs ih =>
    simp only [List.cons_append, write, ih, List.length_cons,
      show p + (xs.length + 1) = p + 1 + xs.length by omega]

theorem write_of_lt (h : q < p) : write m p bs q = m q := by
  induction bs generalizing m p with
  | nil => rfl
  | cons b bs ih =>
    rw [write, ih (by omega)]
    exact Function.update_of_ne (by omega) _ _

theorem write_of_ge (h : p + bs.length ≤ q) : write m p bs q = m q := by
  induction bs generalizing m p with
  | nil => rfl
  | cons b bs ih =>
    rw [List.length_cons] at h
    rw [write, ih (by omega)]
    exact Function.update_of_ne (by omega) _ _

theorem holds_write : Holds (write m p bs) p bs := by
  induction bs generalizing m p with
  | nil => trivial
  | cons b bs ih =>
    refine ⟨?_, ih⟩
    rw [write, write_of_lt (Nat.lt_succ_self p)]
    exact Function.update_self _ _ _

/-- A cursor that writes behind the bytes leaves them. -/
theorem Holds.write (h : Holds m q bs) (hq : p + xs.length ≤ q) :
    Holds (CString.write m p xs) q bs := by
  apply h.congr
  intro i hi
  exact write_of_ge (by omega)

end Write

section Strings

variable {m : Mem} {p n : ℕ} {s : List UInt8}

theorem cstr_of_holds (h : Holds m p (s ++ [0])) (hs : 0 ∉ s) (hn : s.length < n) :
    cstr m n p = some s := by
  induction s generalizing p n with
  | nil =>
    obtain ⟨k, rfl⟩ := Nat.exists_eq_add_of_lt hn
    rw [cstr, if_pos h.1]
  | cons c s ih =>
    rw [List.mem_cons, not_or] at hs
    obtain ⟨hc, hs⟩ := hs
    obtain ⟨hp, h⟩ := h
    cases n with
    | zero => omega
    | succ n =>
      rw [List.length_cons] at hn
      rw [cstr, if_neg (fun h0 => hc (h0.symm.trans hp)), ih h hs (by omega), hp]
      rfl

theorem strend_of_holds (h : Holds m p (s ++ [0])) (hs : 0 ∉ s) (hn : s.length < n) :
    strend m n p = some (p + s.length) := by
  induction s generalizing p n with
  | nil =>
    obtain ⟨k, rfl⟩ := Nat.exists_eq_add_of_lt hn
    rw [strend, if_pos h.1]
    rfl
  | cons c s ih =>
    rw [List.mem_cons, not_or] at hs
    obtain ⟨hc, hs⟩ := hs
    obtain ⟨hp, h⟩ := h
    cases n with
    | zero => omega
    | succ n =>
      rw [List.length_cons] at hn ⊢
      rw [strend, if_neg (fun h0 => hc (h0.symm.trans hp)), ih h hs (by omega)]
      congr 1
      omega

end Strings

section Buffers

/-- The string at the start of a buffer. -/
def str (b : List UInt8) : List UInt8 := b.takeWhile (· ≠ 0)

/-- A buffer after copying `bs` to the offset `off`, if they fit. -/
def store (b : List UInt8) (off : ℕ) (bs : List UInt8) : Option (List UInt8) :=
  if off + bs.length ≤ b.length then some (b.take off ++ bs ++ b.drop (off + bs.length))
  else none

/-- `strcat`, with the zero byte behind the string. -/
def strcat (b s : List UInt8) : Option (List UInt8) := store b (str b).length (s ++ [0])

/-- A buffer of `n` bytes that has the string `s` at its start. -/
structure Carries (b : List UInt8) (n : ℕ) (s : List UInt8) : Prop where
  length_eq : b.length = n
  string : ∃ rest, b = s ++ 0 :: rest
  nonzero : 0 ∉ s

variable {b b' s t : List UInt8} {n off : ℕ}

theorem zero_notMem_str : 0 ∉ str b := by
  intro h
  have := List.mem_takeWhile_imp h
  simp at this

theorem Carries.str_eq (h : Carries b n s) : str b = s := by
  obtain ⟨rest, rfl⟩ := h.string
  have hs : ∀ c ∈ s, decide (c ≠ 0) = true := by
    intro c hc
    simpa using fun h0 : c = 0 => h.nonzero (h0 ▸ hc)
  rw [str, List.takeWhile_append_of_pos hs, List.takeWhile_cons]
  simp

theorem Carries.length_lt (h : Carries b n s) : s.length < n := by
  obtain ⟨rest, hb⟩ := h.string
  have := congrArg List.length hb
  rw [List.length_append, List.length_cons, h.length_eq] at this
  omega

/-- The string of a buffer that was cleared behind what was copied into it. -/
theorem carries_str (h : 0 ∈ b) : Carries b b.length (str b) := by
  refine ⟨rfl, ?_, zero_notMem_str⟩
  have hsplit := List.takeWhile_append_dropWhile (p := fun c : UInt8 => decide (c ≠ 0)) (l := b)
  cases hd : b.dropWhile (fun c => decide (c ≠ 0)) with
  | nil =>
    rw [hd, List.append_nil] at hsplit
    rw [← hsplit] at h
    exact absurd h zero_notMem_str
  | cons c rest =>
    have hc : c = 0 := by
      have := List.head?_dropWhile_not (fun c : UInt8 => decide (c ≠ 0)) b
      rw [hd] at this
      simpa using this
    subst hc
    exact ⟨rest, (hd ▸ hsplit).symm⟩

theorem length_store (h : store b off s = some b') : b'.length = b.length := by
  rw [store] at h
  split at h
  · rw [← Option.some.inj h]
    simp only [List.length_append, List.length_take, List.length_drop]
    omega
  · cases h

/-- What is behind the offset after a copy. -/
theorem drop_store (h : store b off s = some b') :
    b'.drop off = s ++ b.drop (off + s.length) := by
  rw [store] at h
  split at h
  · next hfits =>
    rw [← Option.some.inj h, List.append_assoc, List.drop_append_of_le_length,
      List.drop_eq_nil_of_le, List.nil_append]
    · rw [List.length_take]
      omega
    · rw [List.length_take]
      omega
  · cases h

theorem store_append (h : s.length ≤ t.length) :
    store (b ++ t) b.length s = some (b ++ s ++ t.drop s.length) := by
  have hfits : b.length + s.length ≤ (b ++ t).length := by
    rw [List.length_append]
    omega
  rw [store, if_pos hfits, List.take_left, ← List.drop_drop, List.drop_left]

theorem Carries.strcat (h : Carries b n s) (ht : 0 ∉ t) (hn : s.length + t.length < n) :
    ∃ b', CString.strcat b t = some b' ∧ Carries b' n (s ++ t) := by
  have hlen := h.length_eq
  rw [CString.strcat, h.str_eq]
  obtain ⟨rest, rfl⟩ := h.string
  rw [List.length_append, List.length_cons] at hlen
  have hfits : (t ++ [0]).length ≤ (0 :: rest).length := by
    rw [List.length_append, List.length_singleton, List.length_cons]
    omega
  refine ⟨_, store_append hfits, ?_, ⟨(0 :: rest).drop (t ++ [0]).length, ?_⟩, ?_⟩
  · simp only [List.length_append, List.length_drop, List.length_cons, List.length_nil]
    omega
  · simp only [List.append_assoc, List.cons_append, List.nil_append]
  · rw [List.mem_append, not_or]
    exact ⟨h.nonzero, ht⟩

/-- Moving the string of a buffer up and copying `t` before it. -/
theorem Carries.prepend (h : Carries b n s) (ht : 0 ∉ t) (hn : t.length + s.length < n) :
    ∃ b₁ b₂, store b t.length (s ++ [0]) = some b₁ ∧ store b₁ 0 t = some b₂ ∧
      Carries b₂ n (t ++ s) := by
  have hlen := h.length_eq
  have hfits : t.length + (s ++ [0]).length ≤ b.length := by
    rw [List.length_append, List.length_singleton]
    omega
  have htake : (b.take t.length).length = t.length := by
    rw [List.length_take]
    omega
  refine ⟨_, _, if_pos hfits, if_pos ?_, ?_, ⟨b.drop (t.length + (s ++ [0]).length), ?_⟩, ?_⟩
  · simp only [List.length_append, List.length_take]
    omega
  · simp only [List.length_append, List.length_take, List.length_drop, List.length_nil,
      List.length_cons]
    simp only [List.length_append, List.length_singleton] at hfits
    omega
  · rw [List.take_zero, List.nil_append, Nat.zero_add, List.append_assoc,
      List.drop_append_of_le_length (Nat.le_of_eq htake.symm),
      List.drop_eq_nil_of_le (Nat.le_of_eq htake), List.nil_append]
    simp only [List.append_assoc, List.cons_append, List.nil_append]
  · rw [List.mem_append, not_or]
    exact ⟨ht, h.nonzero⟩

end Buffers

section Compare

/-- `strncmp` on the characters of two strings, with the zero byte behind their end. -/
def strncmp : ℕ → List UInt8 → List UInt8 → ℤ
  | 0, _, _ => 0
  | n + 1, s, t =>
    let c := s.headD 0
    let d := t.headD 0
    if c ≠ d then if c < d then -1 else 1
    else if c = 0 then 0
    else strncmp n s.tail t.tail

theorem strncmp_cons (n : ℕ) (c d : UInt8) (s t : List UInt8) :
    strncmp (n + 1) (c :: s) (d :: t) =
      if c ≠ d then if c < d then -1 else 1 else if c = 0 then 0 else strncmp n s t := rfl

/-- Strings in the order of their characters. -/
def strKey (s : List UInt8) : List ℕ := s.map UInt8.toNat

theorem strKey_injective : Function.Injective strKey := by
  intro s t h
  exact List.map_injective_iff.mpr (fun _ _ => UInt8.toNat_inj.mp) h

/-- A comparison of as many characters as `s` has decides the order of `s` and `t`, up
to `s` being the beginning of `t`. -/
theorem strncmp_length {s t : List UInt8} (hs : 0 ∉ s) (ht : 0 ∉ t) :
    (0 < strncmp s.length s t ↔ strKey t < strKey s) ∧
      (strncmp s.length s t < 0 ∨ strncmp s.length s t = 0 ∧ s.length < t.length ↔
        strKey s < strKey t) := by
  induction s generalizing t with
  | nil =>
    cases t with
    | nil => simp [strncmp, strKey]
    | cons d t => simp [strncmp, strKey]
  | cons c s ih =>
    rw [List.mem_cons, not_or] at hs
    cases t with
    | nil =>
      have hc : ¬ c < 0 := by
        rw [UInt8.lt_iff_toNat_lt]
        exact Nat.not_lt_zero _
      have hne : c ≠ 0 := Ne.symm hs.1
      simp [strncmp, strKey, hne, hc]
    | cons d t =>
      rw [List.mem_cons, not_or] at ht
      obtain ⟨hgt, hlt⟩ := ih hs.2 ht.2
      have hc0 : c ≠ 0 := Ne.symm hs.1
      simp only [strKey] at hgt hlt
      simp only [strncmp_cons, strKey, List.length_cons, List.map_cons,
        List.cons_lt_cons_iff]
      by_cases hcd : c = d
      · subst hcd
        simp only [ne_eq, not_true_eq_false, if_false, if_neg hc0, lt_irrefl, false_or,
          true_and, Nat.add_lt_add_iff_right]
        exact ⟨hgt, hlt⟩
      · have hne : c.toNat ≠ d.toNat := fun h => hcd (UInt8.toNat_inj.mp h)
        rw [if_pos hcd]
        by_cases hlt' : c < d
        · rw [if_pos hlt']
          rw [UInt8.lt_iff_toNat_lt] at hlt'
          have hnot : ¬ d.toNat < c.toNat := by omega
          simp [hlt', hnot, hne, Ne.symm hne]
        · rw [if_neg hlt']
          rw [UInt8.lt_iff_toNat_lt] at hlt'
          have hgt' : d.toNat < c.toNat := by omega
          simp [hlt', hgt', hne, Ne.symm hne]

end Compare

end FzzOverlay.CString

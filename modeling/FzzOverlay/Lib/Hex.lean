import Mathlib.Data.List.Basic
import Mathlib.Tactic.Common

/-!
# Hexadecimal text

Two lower-case digits for each byte, high half first. Reading accepts digits of both
cases and takes as many bytes as it is told to.

## Main results

- `Hex.decode_encode` — the text of a byte string reads back as the byte string
- `Hex.encode_injective` — different byte strings have different texts
-/

namespace Hex

def digit (n : ℕ) : Char := if n < 10 then .ofNat (48 + n) else .ofNat (87 + n)

def value (c : Char) : Option ℕ :=
  if '0' ≤ c ∧ c ≤ '9' then some (c.toNat - 48)
  else if 'a' ≤ c ∧ c ≤ 'f' then some (c.toNat - 87)
  else if 'A' ≤ c ∧ c ≤ 'F' then some (c.toNat - 55)
  else none

def encode (xs : List UInt8) : List Char :=
  xs.flatMap fun b => [digit (b.toNat / 16), digit (b.toNat % 16)]

/-- Read `n` bytes. -/
def decode : ℕ → List Char → Option (List UInt8)
  | 0, _ => some []
  | n + 1, hi :: lo :: cs =>
    match value hi, value lo with
    | some h, some l => (decode n cs).map (UInt8.ofNat (16 * h + l) :: ·)
    | _, _ => none
  | _ + 1, _ => none

theorem value_digit {n : ℕ} (h : n < 16) : value (digit n) = some n := by
  have hall : ∀ m : Fin 16, value (digit m) = some m.val := by decide
  exact hall ⟨n, h⟩

@[simp] theorem length_encode (xs : List UInt8) : (encode xs).length = 2 * xs.length := by
  induction xs with
  | nil => rfl
  | cons b xs ih =>
    rw [encode, List.flatMap_cons, List.length_append, ← encode, ih, List.length_cons]
    simp
    omega

theorem decode_encode (xs : List UInt8) : decode xs.length (encode xs) = some xs := by
  induction xs with
  | nil => rfl
  | cons b xs ih =>
    have hb : b.toNat < 256 := b.toNat_lt
    have hbyte : UInt8.ofNat (16 * (b.toNat / 16) + b.toNat % 16) = b := by
      rw [Nat.div_add_mod, UInt8.ofNat_toNat]
    rw [List.length_cons, encode, List.flatMap_cons, ← encode]
    simp only [List.cons_append, List.nil_append, decode]
    rw [value_digit (by omega), value_digit (by omega)]
    simp only [ih, hbyte, Option.map_some]

theorem encode_injective {xs ys : List UInt8} (h : encode xs = encode ys) : xs = ys := by
  have hlen : xs.length = ys.length := by
    have := congrArg List.length h
    rw [length_encode, length_encode] at this
    omega
  have hx := decode_encode xs
  rw [h, hlen, decode_encode] at hx
  exact (Option.some.inj hx).symm

end Hex

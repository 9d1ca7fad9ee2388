import Mathlib.Data.List.GetD
import FzzOverlay.Lib.CString

/-!
# Records in a fifo of bytes

A fifo that counts bytes, used by callers that mean records of a fixed number of bytes, and a
buffer that the records are taken out into.

## Main definitions

- `Fifo` — a bounded fifo of bytes, by what its operations do to its contents
- `Codec` — records of a fixed number of bytes
- `Queues` — the records a fifo has
- `recordAt` — a record of a buffer

## Main results

- `Queues.put`, `Queues.get` — the records after one was put in, or after all were taken out
- `recordAt_write` — the records of a buffer after some were written to its start
-/

namespace FzzOverlay.ByteFifo

open CString

/-- A fifo with room for `size` bytes. What does not fit is not put in, and `get` gives no
more than there is. -/
structure Fifo (σ : Type) (size : ℕ) where
  contents : σ → List UInt8
  empty : σ
  put : σ → List UInt8 → σ
  get : σ → ℕ → List UInt8 × σ
  contents_empty : contents empty = []
  contents_put : ∀ q bs, contents (put q bs) = contents q ++ bs.take (size - (contents q).length)
  get_fst : ∀ q n, (get q n).1 = (contents q).take n
  contents_get : ∀ q n, contents (get q n).2 = (contents q).drop n

/-- The fifo that is the list of its bytes. -/
def Fifo.ofList (size : ℕ) : Fifo (List UInt8) size where
  contents := id
  empty := []
  put := fun q bs => q ++ bs.take (size - q.length)
  get := fun q n => (q.take n, q.drop n)
  contents_empty := rfl
  contents_put := fun _ _ => rfl
  get_fst := fun _ _ => rfl
  contents_get := fun _ _ => rfl

/-- Records of `width` bytes. -/
structure Codec (α : Type) where
  width : ℕ
  width_pos : 0 < width
  encode : α → List UInt8
  decode : List UInt8 → α
  length_encode : ∀ a, (encode a).length = width
  decode_encode : ∀ a, decode (encode a) = a

/-- The records one behind the other. -/
def Codec.stored {α : Type} (c : Codec α) (as : List α) : List UInt8 := as.flatMap c.encode

/-- The `n` bytes at `p`. -/
def bytesAt (m : Mem) (p n : ℕ) : List UInt8 := (List.range n).map fun j => m (p + j)

/-- Record `i` of a buffer. -/
def recordAt {α : Type} (c : Codec α) (m : Mem) (i : ℕ) : α :=
  c.decode (bytesAt m (c.width * i) c.width)

section LittleEndian

/-- The lowest `w` bytes of a number, the lowest one first. -/
def leBytes : ℕ → ℕ → List UInt8
  | 0, _ => []
  | w + 1, n => .ofNat n :: leBytes w (n / 256)

def leNat : List UInt8 → ℕ
  | [] => 0
  | b :: bs => b.toNat + 256 * leNat bs

theorem length_leBytes (w n : ℕ) : (leBytes w n).length = w := by
  induction w generalizing n with
  | zero => rfl
  | succ w ih => rw [leBytes, List.length_cons, ih]

theorem leNat_leBytes (w n : ℕ) : leNat (leBytes w n) = n % 256 ^ w := by
  induction w generalizing n with
  | zero => rw [leBytes, leNat, Nat.pow_zero, Nat.mod_one]
  | succ w ih =>
    have hbyte : (UInt8.ofNat n).toNat = n % 256 := UInt8.toNat_ofNat'
    rw [leBytes, leNat, ih, hbyte, Nat.pow_succ', Nat.mod_mul]

end LittleEndian

section Records

variable {α : Type} {c : Codec α} {as : List α} {m : Mem} {p : ℕ} {bs : List UInt8}

theorem Codec.stored_append (c : Codec α) (as cs : List α) :
    c.stored (as ++ cs) = c.stored as ++ c.stored cs := List.flatMap_append

theorem Codec.length_stored (c : Codec α) (as : List α) :
    (c.stored as).length = c.width * as.length := by
  induction as with
  | nil => rfl
  | cons a as ih =>
    rw [stored, List.flatMap_cons, List.length_append, c.length_encode, List.length_cons,
      Nat.mul_succ, Nat.add_comm]
    exact congrArg (· + c.width) ih

theorem bytesAt_of_holds (h : Holds m p bs) : bytesAt m p bs.length = bs := by
  induction bs generalizing p with
  | nil => rfl
  | cons b bs ih =>
    have hrest := ih h.2
    rw [bytesAt] at hrest ⊢
    rw [List.length_cons, List.range_succ_eq_map, List.map_cons, List.map_map, Nat.add_zero, h.1]
    congr 1
    rw [← hrest, List.length_map, List.length_range]
    refine List.map_congr_left fun j _ => ?_
    show m (p + (j + 1)) = m (p + 1 + j)
    congr 1
    omega

/-- Writing records to the start of a buffer leaves those behind them. -/
theorem recordAt_write (c : Codec α) (m : Mem) (as : List α) (i : ℕ) :
    recordAt c (write m 0 (c.stored as)) i = as.getD i (recordAt c m i) := by
  by_cases hi : i < as.length
  · rw [List.getD_eq_getElem _ _ hi]
    have hsplit : c.stored as =
        c.stored (as.take i) ++ (c.encode as[i] ++ c.stored (as.drop (i + 1))) := by
      have has : as = as.take i ++ as[i] :: as.drop (i + 1) := by simp
      conv_lhs => rw [has, c.stored_append]
      rfl
    have hholds : Holds (write m 0 (c.stored as)) 0 (c.stored as) := holds_write
    generalize write m 0 (c.stored as) = m' at hholds ⊢
    rw [hsplit, holds_append, holds_append, c.length_stored, List.length_take,
      Nat.min_eq_left (Nat.le_of_lt hi), Nat.zero_add] at hholds
    have hbytes := bytesAt_of_holds hholds.2.1
    rw [c.length_encode] at hbytes
    rw [recordAt, hbytes, c.decode_encode]
  · rw [List.getD_eq_default _ _ (Nat.le_of_not_lt hi), recordAt, recordAt]
    congr 1
    refine List.map_congr_left fun j _ => write_of_ge ?_
    have hmul := Nat.mul_le_mul_left c.width (Nat.le_of_not_lt hi)
    rw [c.length_stored]
    omega

end Records

section Queue

variable {α σ : Type} {size : ℕ} {F : Fifo σ size} {c : Codec α} {q : σ} {as : List α}

/-- The fifo has the records `as` and no other bytes. -/
structure Queues (F : Fifo σ size) (c : Codec α) (q : σ) (as : List α) : Prop where
  contents : F.contents q = c.stored as
  fits : c.width * as.length ≤ size

theorem Queues.empty (F : Fifo σ size) (c : Codec α) : Queues F c F.empty [] :=
  ⟨F.contents_empty, Nat.zero_le _⟩

/-- If the size is that of a number of records, a record goes in as a whole or not at all. -/
theorem Queues.put (h : Queues F c q as) (hsize : c.width ∣ size) (a : α) :
    Queues F c (F.put q (c.encode a)) (if as.length < size / c.width then as ++ [a] else as) := by
  obtain ⟨k, rfl⟩ := hsize
  have hfits := Nat.le_of_mul_le_mul_left h.fits c.width_pos
  have hput := F.contents_put q (c.encode a)
  rw [h.contents, c.length_stored] at hput
  rw [Nat.mul_div_cancel_left k c.width_pos]
  by_cases hroom : as.length < k
  · have hle : c.width * (as.length + 1) ≤ c.width * k := Nat.mul_le_mul_left _ hroom
    have hgap : c.width ≤ c.width * k - c.width * as.length := by
      rw [Nat.mul_succ] at hle
      omega
    rw [if_pos hroom]
    refine ⟨?_, by rwa [List.length_append]⟩
    rw [hput, List.take_of_length_le (by rwa [c.length_encode]), c.stored_append, Codec.stored,
      Codec.stored, List.flatMap_singleton]
  · have hfull : as.length = k := by omega
    rw [if_neg hroom]
    refine ⟨?_, h.fits⟩
    rw [hput, hfull, Nat.sub_self, List.take_zero, List.append_nil]

/-- Taking out as many bytes as there is room for takes all records out. -/
theorem Queues.get (h : Queues F c q as) {n : ℕ} (hn : size ≤ n) :
    (F.get q n).1 = c.stored as ∧ Queues F c (F.get q n).2 [] := by
  have hlen : (c.stored as).length ≤ n := by
    rw [c.length_stored]
    exact h.fits.trans hn
  refine ⟨?_, ?_, Nat.zero_le _⟩
  · rw [F.get_fst, h.contents, List.take_of_length_le hlen]
  · rw [F.contents_get, h.contents, List.drop_eq_nil_of_le hlen]
    rfl

end Queue

end FzzOverlay.ByteFifo

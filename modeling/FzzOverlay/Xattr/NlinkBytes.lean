import FzzOverlay.Lib.CString
import FzzOverlay.Nlink

/-!
# The buffers of the link count

`ovl_set_nlink_common` and `ovl_get_nlink` on the bytes of their 13-byte buffers, which nobody
has written to before, against the functions on the characters of the attribute.

## Main results

- `ovlSetNlinkCommon_eq` — the string always fits
- `ovlGetNlink_eq` — the reader stays inside its buffer, whatever the attribute is
- `nlink_xattr_round_trips` — what is stored is read back
-/

namespace FzzOverlay.NlinkBytes

open CString

/-- The characters of a byte string, and the bytes of a string. -/
def chars (bs : List UInt8) : List Char := bs.map Char.ofUInt8

def bytes (cs : List Char) : List UInt8 := cs.map Char.toUInt8

/-- `snprintf` of the string `s` into the whole of a buffer. -/
def snprintf (buf s : List UInt8) : Option (List UInt8) :=
  store buf 0 (s.take (buf.length - 1) ++ [0])

/-- `ovl_set_nlink_common`: the value that is stored. -/
def ovlSetNlinkCommon (buf : List UInt8) (base : NlinkBase) (nlink realNlink : ℕ) :
    Outcome (Except Errno (List UInt8)) :=
  let s := bytes (base.char :: formatSigned (int32 ((nlink : ℤ) - realNlink)))
  match snprintf buf s with
  | none => .oops
  | some buf =>
    let len := s.length
    if len ≥ buf.length then .ret (.error EIO) else .ret (.ok (buf.take len))

/-- `ovl_set_nlink_upper`. -/
def ovlSetNlinkUpper (buf : List UInt8) (nlink upperNlink : ℕ) :
    Outcome (Except Errno (List UInt8)) := ovlSetNlinkCommon buf .upper nlink upperNlink

/-- `ovl_set_nlink_lower`. -/
def ovlSetNlinkLower (buf : List UInt8) (nlink lowerNlink : ℕ) :
    Outcome (Except Errno (List UInt8)) := ovlSetNlinkCommon buf .lower nlink lowerNlink

/-- `ovl_get_nlink` when the value is in the buffer. -/
def readNlink (lowerNlink upperNlink : ℕ) (buf : List UInt8) (fallback : ℕ) : Outcome ℕ :=
  match buf[0]? with
  | none => .oops
  | some b₀ =>
    if b₀ ≠ 76 ∧ b₀ ≠ 85 then .ret fallback
    else
      match buf[1]? with
      | none => .oops
      | some b₁ =>
        if b₁ ≠ 43 ∧ b₁ ≠ 45 then .ret fallback
        else if 0 ∉ buf.drop 1 then .oops
        else
          match kstrtoint (chars (str (buf.drop 1))) with
          | none => .ret fallback
          | some diff =>
            let nlink := int32 (int32 (if b₀ = 76 then lowerNlink else upperNlink) + diff)
            if nlink ≤ 0 then .ret fallback else .ret nlink.toNat

/-- `ovl_get_nlink`; the link counts are those of the dentries that are not `NULL`. -/
def ovlGetNlink (lowerNlink upperNlink : Option ℕ) (xattr : Except Errno (List UInt8))
    (buf : List UInt8) (fallback : ℕ) : Outcome ℕ :=
  match lowerNlink, upperNlink with
  | some lower, some upper =>
    if lower = 1 then .ret fallback
    else
      match xattr with
      | .error _ => .ret fallback
      | .ok value =>
        if buf.length - 1 < value.length then .ret fallback
        else
          match (store buf 0 value).bind fun buf => store buf value.length [0] with
          | none => .oops
          | some buf => readNlink lower upper buf fallback
  | _, _ => .ret fallback

section Chars

variable {a b : UInt8} {v rest : List UInt8}

theorem ofUInt8_inj : Char.ofUInt8 a = Char.ofUInt8 b ↔ a = b := by
  constructor
  · intro h
    have hval : a.toUInt32 = b.toUInt32 := congrArg Char.val h
    have hnat := congrArg UInt32.toNat hval
    rw [UInt8.toNat_toUInt32, UInt8.toNat_toUInt32] at hnat
    exact UInt8.toNat_inj.mp hnat
  · exact congrArg Char.ofUInt8

@[simp] theorem chars_nil : chars [] = [] := rfl

@[simp] theorem chars_cons : chars (b :: v) = Char.ofUInt8 b :: chars v := rfl

theorem str_zero : str (0 :: v) = [] := rfl

theorem str_cons (hb : b ≠ 0) : str (b :: v) = b :: str v :=
  List.takeWhile_cons_of_pos (by simpa using hb)

/-- The string of a buffer and the characters of the value in front of its zero byte. -/
theorem chars_str (v rest : List UInt8) :
    chars (str (v ++ 0 :: rest)) = (chars v).takeWhile (· ≠ '\x00') := by
  induction v with
  | nil => rfl
  | cons b v ih =>
    have hzero : Char.ofUInt8 b = '\x00' ↔ b = 0 := ofUInt8_inj (b := 0)
    by_cases hb : b = 0
    · rw [hb, List.cons_append, str_zero, chars_cons, List.takeWhile_cons_of_neg (by decide)]
      rfl
    · have hne : Char.ofUInt8 b ≠ '\x00' := fun h => hb (hzero.mp h)
      rw [List.cons_append, str_cons hb, chars_cons, chars_cons, ih,
        List.takeWhile_cons_of_pos (by simpa using hne)]

/-- The characters that are stored are bytes. -/
theorem chars_bytes {cs : List Char} (h : ∀ c ∈ cs, c.toNat < 256) : chars (bytes cs) = cs := by
  rw [chars, bytes, List.map_map]
  refine (List.map_congr_left fun c hc => ?_).trans (List.map_id cs)
  have hlt := h c hc
  apply Char.ext
  apply UInt32.toNat_inj.mp
  change (c.toUInt8.toUInt32).toNat = c.val.toNat
  rw [UInt8.toNat_toUInt32]
  change c.val.toNat % 256 = c.val.toNat
  exact Nat.mod_eq_of_lt hlt

theorem toNat_lt_of_mem_formatSigned {x : ℤ} {c : Char} (base : NlinkBase)
    (h : c ∈ base.char :: formatSigned x) : c.toNat < 256 := by
  rw [formatSigned, List.mem_cons, List.mem_cons] at h
  obtain rfl | rfl | h := h
  · cases base <;> decide
  · split <;> decide
  · have hdigit := isDigit_toDigits _ c h
    simp only [Char.isDigit, Bool.and_eq_true, decide_eq_true_eq] at hdigit
    have hle : c.val.toNat ≤ 57 := UInt32.le_iff_toNat_le.mp hdigit.2
    change c.val.toNat < 256
    omega

end Chars

section Store

variable {buf : List UInt8}

/-- The string always fits into the buffer, with its zero byte. -/
theorem ovlSetNlinkCommon_eq (hbuf : buf.length = 13) (base : NlinkBase) (nlink realNlink : ℕ) :
    ∃ value, ovlSetNlinkCommon buf base nlink realNlink = .ret (.ok value) ∧
      value.length ≤ 12 ∧
      chars value = base.char :: formatSigned (int32 ((nlink : ℤ) - realNlink)) := by
  obtain ⟨x, hx⟩ : ∃ x, int32 ((nlink : ℤ) - realNlink) = x := ⟨_, rfl⟩
  have hformat : (formatSigned x).length ≤ 11 := by
    rw [← hx]
    exact length_formatSigned (int32_ge _) (int32_lt _)
  obtain ⟨s, hs⟩ : ∃ s, bytes (base.char :: formatSigned x) = s := ⟨_, rfl⟩
  have hlen : s.length ≤ 12 := by
    rw [← hs, bytes, List.length_map, List.length_cons]
    omega
  have htake : s.take (buf.length - 1) = s := List.take_of_length_le (by omega)
  have hfits : 0 + (s ++ [0]).length ≤ buf.length := by
    rw [List.length_append, List.length_singleton]
    omega
  refine ⟨s, ?_, hlen, ?_⟩
  · rw [ovlSetNlinkCommon, hx, hs, snprintf, htake, store, if_pos hfits]
    simp only [List.take_zero, List.nil_append, List.append_assoc]
    rw [if_neg, List.take_left]
    rw [List.length_append, List.length_append, List.length_drop, List.length_append,
      List.length_singleton]
    omega
  · rw [hx, ← hs]
    exact chars_bytes fun c hc => toNat_lt_of_mem_formatSigned base hc

end Store

section Read

variable {buf v rest : List UInt8} {lowerNlink upperNlink fallback : ℕ}

/-- The buffer with a value and the zero byte behind it. -/
theorem store_value (hbuf : buf.length = 13) (hv : v.length ≤ 12) :
    ∃ rest, ((store buf 0 v).bind fun buf => store buf v.length [0]) = some (v ++ 0 :: rest) := by
  have hfirst : store buf 0 v = some (v ++ buf.drop v.length) := by
    rw [store, if_pos (by omega), List.take_zero, List.nil_append, Nat.zero_add]
  have hone : ([0] : List UInt8).length ≤ (buf.drop v.length).length := by
    rw [List.length_drop, List.length_singleton]
    omega
  refine ⟨(buf.drop v.length).drop 1, ?_⟩
  rw [hfirst, Option.bind_some, store_append hone, List.append_assoc]
  rfl

/-- The reader on a value with its zero byte. -/
theorem readNlink_eq (hlower : lowerNlink ≠ 1) (hv : v.length ≤ 12) :
    readNlink lowerNlink upperNlink (v ++ 0 :: rest) fallback =
      .ret (FzzOverlay.ovlGetNlink lowerNlink upperNlink (chars v) fallback) := by
  have hlen : ¬ 12 < (chars v).length := by
    rw [chars, List.length_map]
    omega
  have hL : ∀ b, Char.ofUInt8 b = 'L' ↔ b = 76 := fun b => ofUInt8_inj (b := 76)
  have hU : ∀ b, Char.ofUInt8 b = 'U' ↔ b = 85 := fun b => ofUInt8_inj (b := 85)
  have hplus : ∀ b, Char.ofUInt8 b = '+' ↔ b = 43 := fun b => ofUInt8_inj (b := 43)
  have hminus : ∀ b, Char.ofUInt8 b = '-' ↔ b = 45 := fun b => ofUInt8_inj (b := 45)
  rw [FzzOverlay.ovlGetNlink, if_neg hlower, if_neg hlen, ← chars_str v rest, readNlink]
  cases v with
  | nil => rfl
  | cons a v =>
    by_cases ha : a ≠ 76 ∧ a ≠ 85
    · -- the first byte is no base
      simp only [List.cons_append, List.getElem?_cons_zero, if_pos ha]
      by_cases hzero : a = 0
      · rw [hzero, str_zero]
        rfl
      · rw [str_cons hzero, chars_cons]
        cases chars (str (v ++ 0 :: rest)) with
        | nil => rfl
        | cons sign digits =>
          simp only [ne_eq, hL, hU]
          rw [if_pos (.inl ha)]
    have hzero : a ≠ 0 := by
      rintro rfl
      exact ha (by decide)
    simp only [List.cons_append, List.getElem?_cons_zero, List.getElem?_cons_succ, if_neg ha,
      str_cons hzero, chars_cons, List.drop_succ_cons, List.drop_zero]
    cases v with
    | nil => rfl
    | cons b v =>
      simp only [List.cons_append, List.getElem?_cons_zero]
      by_cases hb : b ≠ 43 ∧ b ≠ 45
      · -- the second byte is no sign
        rw [if_pos hb]
        by_cases hzero' : b = 0
        · rw [hzero', str_zero]
          rfl
        · rw [str_cons hzero', chars_cons]
          simp only [ne_eq, hplus, hminus]
          rw [if_pos (.inr hb)]
      · have hzero' : b ≠ 0 := by
          rintro rfl
          exact hb (by decide)
        rw [if_neg hb, if_neg (by simp), str_cons hzero', chars_cons]
        simp only [ne_eq, hL, hU, hplus, hminus]
        rw [if_neg (not_or.mpr ⟨ha, hb⟩)]
        cases kstrtoint (Char.ofUInt8 b :: chars (str (v ++ 0 :: rest))) with
        | none => rfl
        | some diff => rw [apply_ite Outcome.ret]

/-- `ovl_get_nlink` on an attribute of any length. -/
theorem ovlGetNlink_eq (hbuf : buf.length = 13) :
    ovlGetNlink (some lowerNlink) (some upperNlink) (.ok v) buf fallback =
      .ret (FzzOverlay.ovlGetNlink lowerNlink upperNlink (chars v) fallback) := by
  rw [ovlGetNlink]
  by_cases hlower : lowerNlink = 1
  · rw [if_pos hlower, FzzOverlay.ovlGetNlink, if_pos hlower]
  · by_cases hv : 12 < v.length
    · have hlen : 12 < (chars v).length := by
        rwa [chars, List.length_map]
      simp only [if_neg hlower, if_pos (show buf.length - 1 < v.length by omega)]
      rw [FzzOverlay.ovlGetNlink, if_neg hlower, if_pos hlen]
    · obtain ⟨rest, hstore⟩ := store_value (v := v) hbuf (by omega)
      simp only [if_neg hlower, if_neg (show ¬ buf.length - 1 < v.length by omega), hstore]
      exact readNlink_eq hlower (by omega)

/-- Whatever the attribute is, the result is the fallback or positive. -/
theorem getNlink_pos (lowerNlink upperNlink : ℕ) (xattr : List Char) (fallback : ℕ) :
    FzzOverlay.ovlGetNlink lowerNlink upperNlink xattr fallback = fallback ∨
      (0 < FzzOverlay.ovlGetNlink lowerNlink upperNlink xattr fallback ∧
        FzzOverlay.ovlGetNlink lowerNlink upperNlink xattr fallback < 2 ^ 31) := by
  rw [FzzOverlay.ovlGetNlink]
  split
  · exact .inl rfl
  split
  · exact .inl rfl
  simp only
  split
  · split
    · exact .inl rfl
    split
    · exact .inl rfl
    · next base _ _ _ _ _ diff _ =>
      obtain ⟨n, hn⟩ : ∃ n, int32 (int32 (if base = 'L' then (lowerNlink : ℤ) else upperNlink) +
        diff) = n := ⟨_, rfl⟩
      have hlt : n < 2147483648 := hn ▸ int32_lt _
      rw [hn]
      by_cases hneg : n ≤ 0
      · exact .inl (if_pos hneg)
      · rw [if_neg hneg]
        exact .inr ⟨by omega, by omega⟩
  · exact .inl rfl

/-- A stored count is read back. -/
theorem ovlGetNlink_stored {base : NlinkBase} {u : ℕ} (hbuf : buf.length = 13) (hu : 0 < u)
    (hu' : u < 2 ^ 31) (hlower : lowerNlink ≠ 1)
    (hv : chars v = base.char :: formatSigned
      (int32 ((u : ℤ) - if base = .lower then (lowerNlink : ℤ) else upperNlink))) :
    ovlGetNlink (some lowerNlink) (some upperNlink) (.ok v) buf fallback = .ret u := by
  rw [ovlGetNlink_eq hbuf, hv, FzzOverlay.ovlGetNlink_stored (int32_ge _) (int32_lt _) hlower]
  generalize (if base = .lower then (lowerNlink : ℤ) else upperNlink) = real
  have hsum : int32 (int32 real + int32 ((u : ℤ) - real)) = u := by
    simp only [int32]
    omega
  simp only [hsum]
  rw [if_neg (by omega), Int.toNat_natCast]

/-- The link count of an indexed file in its attribute. The string that is stored always fits
into the buffer of 13 bytes, and with the same link counts it is read back as the count of the
overlay inode; and every attribute of at most 12 bytes is read as the fallback or as a positive
count. -/
theorem nlink_xattr_round_trips (buf buf' : List UInt8) (hbuf : buf.length = 13)
    (hbuf' : buf'.length = 13) :
    (∀ u upper lower fallback : ℕ, 0 < u → u < 2 ^ 31 → lower ≠ 1 →
      (∃ value, ovlSetNlinkUpper buf u upper = .ret (.ok value) ∧ value.length ≤ 12 ∧
        ovlGetNlink (some lower) (some upper) (.ok value) buf' fallback = .ret u) ∧
      ∃ value, ovlSetNlinkLower buf u lower = .ret (.ok value) ∧ value.length ≤ 12 ∧
        ovlGetNlink (some lower) (some upper) (.ok value) buf' fallback = .ret u) ∧
      ∀ (lower upper fallback : ℕ) (value : List UInt8), value.length ≤ 12 →
        ∃ n, ovlGetNlink (some lower) (some upper) (.ok value) buf' fallback = .ret n ∧
          (n = fallback ∨ (0 < n ∧ n < 2 ^ 31)) := by
  refine ⟨fun u upper lower fallback hu hu' hlower => ⟨?_, ?_⟩, ?_⟩
  · obtain ⟨value, hset, hlen, hchars⟩ := ovlSetNlinkCommon_eq hbuf .upper u upper
    exact ⟨value, hset, hlen, ovlGetNlink_stored hbuf' hu hu' hlower hchars⟩
  · obtain ⟨value, hset, hlen, hchars⟩ := ovlSetNlinkCommon_eq hbuf .lower u lower
    exact ⟨value, hset, hlen, ovlGetNlink_stored hbuf' hu hu' hlower hchars⟩
  · intro lower upper fallback value _
    exact ⟨_, ovlGetNlink_eq hbuf', getNlink_pos lower upper (chars value) fallback⟩

theorem nlink_xattr_round_trips_three :
    ∃ value, ovlSetNlinkUpper (List.replicate 13 255) 3 4294967295 = .ret (.ok value) ∧
      value.length ≤ 12 ∧ ovlGetNlink (some 2) (some 4294967295) (.ok value)
        (List.replicate 13 170) 7 = .ret 3 :=
  ((nlink_xattr_round_trips (List.replicate 13 255) (List.replicate 13 170) (by decide)
    (by decide)).1 3 4294967295 2 7 (by decide) (by decide) (by decide)).1

end Read

end FzzOverlay.NlinkBytes

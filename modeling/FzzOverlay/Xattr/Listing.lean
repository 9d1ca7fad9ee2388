import FzzOverlay.Entry
import FzzOverlay.Lib.NameList

/-!
# Listing extended attributes

`ovl_is_private_xattr`, `ovl_can_list` and `ovl_listxattr` of `inode.c`. The names come from
`vfs_listxattr` in a buffer, and those that must not be seen are removed by moving what is
behind them down. A read or a move beyond the length that `vfs_listxattr` returned is an oops.

## Main definitions

- `isPrivate`, `canList` — which names are private, and which are listed
- `ovlListxattr`

## Main result

- `listxattr_filters`
-/

namespace FzzOverlay

open CString NameList

/-- `XATTR_TRUSTED_PREFIX`, `"trusted."`. -/
def XATTR_TRUSTED_PREFIX : List UInt8 := [116, 114, 117, 115, 116, 101, 100, 46]

/-- `OVL_XATTR_PREFIX`, `"trusted.overlay."`. -/
def OVL_XATTR_PREFIX : List UInt8 :=
  XATTR_TRUSTED_PREFIX ++ [111, 118, 101, 114, 108, 97, 121, 46]

/-- `ovl_is_private_xattr` of the name at `s`. -/
def ovlIsPrivateXattr (lim : ℕ) (buf : List UInt8) (s : ℕ) : Option Bool :=
  (strncmpAt lim buf OVL_XATTR_PREFIX.length s OVL_XATTR_PREFIX).map fun cmp => cmp = 0

/-- `ovl_can_list` of the name at `s`; `capable` is what `ns_capable_noaudit` tells. -/
def ovlCanList (capable : Bool) (lim : ℕ) (buf : List UInt8) (s : ℕ) : Option Bool :=
  match strncmpAt lim buf XATTR_TRUSTED_PREFIX.length s XATTR_TRUSTED_PREFIX with
  | none => none
  | some cmp =>
    if cmp ≠ 0 then some true
    else (ovlIsPrivateXattr lim buf s).map fun priv => !priv && capable

/-- The loop of `ovl_listxattr` with the cursor at `s` and `len` bytes to go. -/
def listLoop (capable : Bool) (lim : ℕ) (buf : List UInt8) (s len : ℕ) (res : ℤ) :
    Outcome (ℤ × List UInt8) :=
  if len = 0 then .ret (res, buf)
  else
    match strnlenAt lim buf len s with
    | none => .oops
    | some n =>
      let slen := n + 1
      if slen > len then .ret (Errno.ret EIO, buf)
      else
        match ovlCanList capable lim buf s with
        | none => .oops
        | some true => listLoop capable lim buf (s + slen) (len - slen) res
        | some false =>
          match memmoveAt lim buf s (s + slen) (len - slen) with
          | none => .oops
          | some buf => listLoop capable lim buf s (len - slen) (res - slen)
  termination_by len

/-- `ovl_listxattr`: `res` is what `vfs_listxattr` returned and `buf` the list as it left
it. -/
def ovlListxattr (capable : Bool) (res : ℤ) (buf : List UInt8) (size : ℕ) :
    Outcome (ℤ × List UInt8) :=
  if res ≤ 0 ∨ size = 0 then .ret (res, buf)
  else listLoop capable res.toNat buf 0 res.toNat res

section Names

variable {lim p : ℕ} {buf rest : List UInt8} {n : Name}

/-- A name of the overlay's own. -/
def isPrivate (n : Name) : Bool := OVL_XATTR_PREFIX.isPrefixOf n.bytes

/-- The names that are listed. -/
def canList (capable : Bool) (n : Name) : Bool :=
  !XATTR_TRUSTED_PREFIX.isPrefixOf n.bytes || (!isPrivate n && capable)

theorem ovlIsPrivateXattr_name (h : buf.drop p = n.bytes ++ 0 :: rest)
    (hlim : p + n.bytes.length < lim) : ovlIsPrivateXattr lim buf p = some (isPrivate n) := by
  have hzero : 0 ∉ OVL_XATTR_PREFIX := by decide
  rw [ovlIsPrivateXattr, strncmpAt_name h hlim, Option.map_some, Option.some.injEq, isPrivate,
    Bool.eq_iff_iff, decide_eq_true_iff, strncmp_eq_zero_iff hzero, List.isPrefixOf_iff_prefix]

theorem ovlCanList_name (capable : Bool) (h : buf.drop p = n.bytes ++ 0 :: rest)
    (hlim : p + n.bytes.length < lim) :
    ovlCanList capable lim buf p = some (canList capable n) := by
  have hzero : 0 ∉ XATTR_TRUSTED_PREFIX := by decide
  rw [ovlCanList, strncmpAt_name h hlim, canList]
  simp only [ovlIsPrivateXattr_name h hlim, Option.map_some]
  by_cases hcmp : strncmp XATTR_TRUSTED_PREFIX.length n.bytes XATTR_TRUSTED_PREFIX = 0
  · have hpre := List.isPrefixOf_iff_prefix.mpr ((strncmp_eq_zero_iff hzero).mp hcmp)
    rw [if_neg (not_not.mpr hcmp), hpre, Bool.not_true, Bool.false_or]
  · have hpre : XATTR_TRUSTED_PREFIX.isPrefixOf n.bytes = false := by
      rw [← Bool.not_eq_true, List.isPrefixOf_iff_prefix, ← strncmp_eq_zero_iff hzero]
      exact hcmp
    rw [if_pos hcmp, hpre, Bool.not_false, Bool.true_or]

/-- No name of the overlay's own is listed. -/
theorem not_isPrivate_of_canList {capable : Bool} (h : canList capable n = true) :
    ¬ OVL_XATTR_PREFIX <+: n.bytes := by
  intro hpre
  have htrusted := List.isPrefixOf_iff_prefix.mpr ((List.prefix_append _ _).trans hpre)
  have hprivate : isPrivate n = true := List.isPrefixOf_iff_prefix.mpr hpre
  rw [canList, htrusted, hprivate] at h
  cases h

end Names

section Loop

variable {capable : Bool} {lim s : ℕ} {names : List Name} {tail : Name} {buf post : List UInt8}

/-- What the loop leaves, with the bytes before the cursor as they are. -/
structure Filtered (capable : Bool) (lim : ℕ) (names : List Name) (tail : Name)
    (buf : List UInt8) (s : ℕ) (ret : ℤ) (buf' : List UInt8) : Prop where
  length_eq : buf'.length = buf.length
  beyond : buf'.drop lim = buf.drop lim
  kept : tail.bytes = [] → ret = (s + (joined (names.filter (canList capable))).length : ℕ) ∧
    buf.take s ++ joined (names.filter (canList capable)) <+: buf'
  broken : tail.bytes ≠ [] → ret = EIO.ret

/-- The loop at the end of the names. -/
theorem listLoop_tail (hdrop : buf.drop s = tail.bytes ++ post)
    (hlim : s + tail.bytes.length ≤ lim) :
    ∃ ret buf', listLoop capable lim buf s tail.bytes.length (s + tail.bytes.length : ℕ) =
      .ret (ret, buf') ∧ Filtered capable lim [] tail buf s ret buf' := by
  rw [listLoop]
  by_cases htail : tail.bytes = []
  · refine ⟨_, _, if_pos (by rw [htail]; rfl), rfl, rfl, fun _ => ?_, fun h => absurd htail h⟩
    rw [htail]
    refine ⟨rfl, ?_⟩
    rw [List.filter_nil, joined_nil, List.append_nil]
    exact List.take_prefix s buf
  · have hlen : tail.bytes.length ≠ 0 := fun h => htail (List.length_eq_zero_iff.mp h)
    simp only [if_neg hlen, strnlenAt_tail hdrop tail.nonzero hlim]
    rw [if_pos (by omega)]
    exact ⟨_, _, rfl, rfl, rfl, fun h => absurd h htail, fun _ => rfl⟩

/-- One pass through the loop: a name is passed by, or what is behind it moves down. -/
theorem listLoop_name {n : Name} (hdrop : buf.drop s = n.bytes ++ 0 :: (joined names ++
    (tail.bytes ++ post))) (hlim : s + (joined (n :: names) ++ tail.bytes).length ≤ lim)
    (hlen : lim ≤ buf.length) (res : ℤ) :
    ∃ buf₁ post₁, buf₁.length = buf.length ∧ buf₁.drop lim = buf.drop lim ∧
      buf₁.take s = buf.take s ∧
      if canList capable n then
        buf₁.take (s + (n.bytes.length + 1)) = buf.take s ++ (n.bytes ++ [0]) ∧
          buf₁.drop (s + (n.bytes.length + 1)) = joined names ++ (tail.bytes ++ post₁) ∧
          listLoop capable lim buf s (joined (n :: names) ++ tail.bytes).length res =
            listLoop capable lim buf₁ (s + (n.bytes.length + 1))
              (joined names ++ tail.bytes).length res
      else
        buf₁.drop s = joined names ++ (tail.bytes ++ post₁) ∧
          listLoop capable lim buf s (joined (n :: names) ++ tail.bytes).length res =
            listLoop capable lim buf₁ s (joined names ++ tail.bytes).length
              (res - (n.bytes.length + 1 : ℕ)) := by
  have hsize : (joined (n :: names) ++ tail.bytes).length =
      n.bytes.length + 1 + (joined names ++ tail.bytes).length := by
    rw [List.length_append, List.length_append, length_joined_cons]
    omega
  rw [hsize] at hlim ⊢
  obtain ⟨len, hrest⟩ : ∃ len, (joined names ++ tail.bytes).length = len := ⟨_, rfl⟩
  rw [hrest] at hlim ⊢
  have hname := strnlenAt_name (k := n.bytes.length + 1 + len) hdrop n.nonzero (by omega) hlim
  have hcan : ovlCanList capable lim buf s = some (canList capable n) :=
    ovlCanList_name capable hdrop (by omega)
  have hsub : n.bytes.length + 1 + len - (n.bytes.length + 1) = len := by omega
  have hbehind : buf.drop (s + (n.bytes.length + 1)) = joined names ++ (tail.bytes ++ post) := by
    rw [← List.drop_drop, hdrop, List.append_cons]
    exact List.drop_left' (by simp)
  rw [listLoop]
  simp only [if_neg (show n.bytes.length + 1 + len ≠ 0 by omega), hname, hcan,
    if_neg (show ¬ n.bytes.length + 1 > n.bytes.length + 1 + len by omega), hsub]
  cases canList capable n with
  | true =>
    refine ⟨buf, post, rfl, rfl, rfl, ?_, hbehind, rfl⟩
    rw [List.take_add, hdrop, List.append_cons]
    congr 1
    exact List.take_left' (by simp)
  | false =>
    obtain ⟨buf₁, hmove, hlength, htake, ⟨post₁, hmoved⟩, hbeyond⟩ :=
      memmoveAt_spec (by omega : s + len ≤ lim)
        (by omega : s + (n.bytes.length + 1) + len ≤ lim) hlen
    refine ⟨buf₁, post₁, hlength, hbeyond, htake, ?_, ?_⟩
    · rw [hmoved, hbehind, ← List.append_assoc, List.take_left' hrest, List.append_assoc]
    · simp only [hmove]

/-- The loop filters the names. -/
theorem listLoop_spec (hdrop : buf.drop s = joined names ++ (tail.bytes ++ post))
    (hlim : s + (joined names ++ tail.bytes).length ≤ lim) (hlen : lim ≤ buf.length) :
    ∃ ret buf', listLoop capable lim buf s (joined names ++ tail.bytes).length
      (s + (joined names ++ tail.bytes).length : ℕ) = .ret (ret, buf') ∧
        Filtered capable lim names tail buf s ret buf' := by
  induction names generalizing buf s post with
  | nil => exact listLoop_tail hdrop hlim
  | cons n names ih =>
    have hsize : (joined (n :: names) ++ tail.bytes).length =
        n.bytes.length + 1 + (joined names ++ tail.bytes).length := by
      rw [List.length_append, List.length_append, length_joined_cons]
      omega
    rw [joined_cons, List.append_assoc, List.cons_append] at hdrop
    obtain ⟨buf₁, post₁, hlength, hbeyond, htake, hcase⟩ :=
      @listLoop_name capable _ _ _ _ _ _ n hdrop hlim hlen
        (s + (joined (n :: names) ++ tail.bytes).length : ℕ)
    rw [hsize] at hlim
    split at hcase
    · next hcan =>
      obtain ⟨htake₁, hdrop₁, hloop⟩ := hcase
      obtain ⟨ret, buf', hrun, hdone⟩ := ih hdrop₁ (by omega) (hlength ▸ hlen)
      rw [hloop, hsize, show s + (n.bytes.length + 1 + (joined names ++ tail.bytes).length) =
        s + (n.bytes.length + 1) + (joined names ++ tail.bytes).length by omega]
      refine ⟨ret, buf', hrun, hdone.length_eq.trans hlength, hdone.beyond.trans hbeyond,
        fun htail => ?_, hdone.broken⟩
      obtain ⟨hret, hpre⟩ := hdone.kept htail
      rw [List.filter_cons_of_pos hcan, length_joined_cons, joined_cons]
      refine ⟨by rw [hret]; congr 1; omega, ?_⟩
      rwa [htake₁, List.append_assoc, List.append_assoc, List.singleton_append] at hpre
    · next hcan =>
      obtain ⟨hdrop₁, hloop⟩ := hcase
      obtain ⟨ret, buf', hrun, hdone⟩ := ih hdrop₁ (by omega) (hlength ▸ hlen)
      have hres : ((s + (joined (n :: names) ++ tail.bytes).length : ℕ) : ℤ) -
          (n.bytes.length + 1 : ℕ) = (s + (joined names ++ tail.bytes).length : ℕ) := by
        rw [hsize]
        omega
      rw [hloop, hres]
      refine ⟨ret, buf', hrun, hdone.length_eq.trans hlength, hdone.beyond.trans hbeyond,
        fun htail => ?_, hdone.broken⟩
      rw [List.filter_cons_of_neg hcan, ← htake]
      exact hdone.kept htail

end Loop

section Listing

/-- A buffer whose first `res` bytes are names with a rest behind them. -/
theorem ovlListxattr_split (capable : Bool) {buf : List UInt8} {res size : ℕ} (hsize : 0 < size)
    (hres : res ≤ buf.length) {names : List Name} {tail : Name}
    (hsplit : buf.take res = joined names ++ tail.bytes) :
    ∃ ret buf', ovlListxattr capable res buf size = .ret (ret, buf') ∧
      Filtered capable res names tail buf 0 ret buf' := by
  have hlen : (joined names ++ tail.bytes).length = res := by
    rw [← hsplit, List.length_take, Nat.min_eq_left hres]
  have hdrop : buf.drop 0 = joined names ++ (tail.bytes ++ buf.drop res) := by
    rw [List.drop_zero, ← List.append_assoc, ← hsplit, List.take_append_drop]
  obtain ⟨ret, buf', hrun, hdone⟩ :=
    @listLoop_spec capable res _ _ _ _ _ hdrop (by omega) hres
  rw [hlen, Nat.zero_add] at hrun
  rw [ovlListxattr]
  split
  · next hnone =>
    -- an empty list goes through the loop as well
    obtain rfl : res = 0 := by omega
    rw [listLoop, if_pos rfl] at hrun
    exact ⟨ret, buf', hrun, hdone⟩
  · exact ⟨ret, buf', hrun, hdone⟩

/-- Listing the extended attributes. The list that is left is that of the names that
`ovl_can_list` passes, in their order, and none of them is private; a list whose last name is
not terminated gives `-EIO`. Nothing beyond the length that `vfs_listxattr` returned is read
or changed, whatever is in the buffer. -/
theorem listxattr_filters (capable : Bool) (buf : List UInt8) (res size : ℕ) (hsize : 0 < size)
    (hres : res ≤ buf.length) :
    ∃ ret buf', ovlListxattr capable res buf size = .ret (ret, buf') ∧
      buf'.length = buf.length ∧ buf'.drop res = buf.drop res ∧
      (∃ (names : List Name) (tail : Name), buf.take res = joined names ++ tail.bytes) ∧
      ∀ (names : List Name) (tail : Name), buf.take res = joined names ++ tail.bytes →
        (tail.bytes = [] → ret = (joined (names.filter (canList capable))).length ∧
          joined (names.filter (canList capable)) <+: buf') ∧
        (tail.bytes ≠ [] → ret = EIO.ret) ∧
        ∀ n ∈ names.filter (canList capable), ¬ OVL_XATTR_PREFIX <+: n.bytes := by
  obtain ⟨names, tail, hsplit⟩ := exists_joined (buf.take res)
  obtain ⟨ret, buf', hrun, hdone⟩ := ovlListxattr_split capable hsize hres hsplit
  refine ⟨ret, buf', hrun, hdone.length_eq, hdone.beyond, ⟨names, tail, hsplit⟩, ?_⟩
  intro names' tail' hsplit'
  obtain ⟨ret', buf'', hrun', hdone'⟩ := ovlListxattr_split capable hsize hres hsplit'
  cases hrun.symm.trans hrun'
  refine ⟨fun htail => ?_, hdone'.broken, fun n hn => ?_⟩
  · obtain ⟨hret, hpre⟩ := hdone'.kept htail
    rw [Nat.zero_add] at hret
    exact ⟨hret, hpre⟩
  · exact not_isPrivate_of_canList (List.mem_filter.mp hn).2

/-- The names `trusted.overlay.x`, `user.a` and `trusted.b`, with a byte of another buffer
behind them. -/
def threeNames : List UInt8 :=
  OVL_XATTR_PREFIX ++ [120, 0, 117, 115, 101, 114, 46, 97, 0] ++ XATTR_TRUSTED_PREFIX ++
    [98, 0, 255]

theorem listxattr_filters_three :
    ∃ ret buf', ovlListxattr false 35 threeNames 36 = .ret (ret, buf') ∧
      buf'.drop 35 = [255] ∧ ret = 7 ∧ [117, 115, 101, 114, 46, 97, 0] <+: buf' := by
  obtain ⟨ret, buf', hrun, -, hbeyond, -, hlist⟩ :=
    listxattr_filters false threeNames 35 36 (by decide) (by decide)
  obtain ⟨hkept, -, -⟩ := hlist [⟨OVL_XATTR_PREFIX ++ [120], by decide⟩,
    ⟨[117, 115, 101, 114, 46, 97], by decide⟩, ⟨XATTR_TRUSTED_PREFIX ++ [98], by decide⟩]
    ⟨[], by decide⟩ (by decide)
  obtain ⟨hret, hpre⟩ := hkept rfl
  exact ⟨ret, buf', hrun, hbeyond, hret, hpre⟩

end Listing

end FzzOverlay

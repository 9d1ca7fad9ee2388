import FzzOverlay.RedirectXattr
import FzzOverlay.Xattr.Listing

/-!
# Copying extended attributes

`ovl_copy_xattr` of `copy_up.c`. One buffer holds the values of all attributes; it grows when a
value does not fit, and then the attribute is read again. `error` is not set before the first
attribute that is not private.

## Main definitions

- `CopyEnv` — what the calls find and return
- `ovlCopyXattr` — the return value and the attributes of the new dentry

## Main results

- `copyLoop_spec` — what the loop copies, and what it leaves in `error`
- `copyXattr_complete_iff` — when the copy reports success
-/

namespace FzzOverlay.CopyXattr

open CString NameList

def ERANGE : Errno := ⟨34, by decide⟩

/-- The extended attributes of a dentry. -/
abbrev Attrs := List UInt8 → Option (List UInt8)

/-- What `ovl_copy_xattr` finds, and how the calls it makes end. -/
structure CopyEnv where
  /-- `IOP_XATTR` of the two inodes. -/
  oldXattr : Bool
  newXattr : Bool
  /-- `vfs_listxattr` without a buffer, and with one. -/
  listSize : Except Errno ℕ
  list : Except Errno (List UInt8)
  kzalloc : ℕ → Bool
  krealloc : ℕ → Bool
  /-- The bytes of memory that nobody has written to. -/
  fresh : ℕ → UInt8
  getxattr : List UInt8 → Except Errno (List UInt8)
  /-- `security_inode_copy_up_xattr`. -/
  hook : List UInt8 → ℤ
  setxattr : List UInt8 → List UInt8 → Option Errno

section Copy

variable (env : CopyEnv)

/-- `vfs_listxattr` with a buffer of `size` bytes: the return value and the list. -/
def vfsListxattr (size : ℕ) : ℤ × List UInt8 :=
  match env.list with
  | .error e => (e.ret, [])
  | .ok bs => if size < bs.length then (ERANGE.ret, []) else (bs.length, bs)

/-- `vfs_getxattr` of the old dentry into the buffer `value`; without a buffer it tells the
size. -/
def vfsGetxattr (name value : List UInt8) : ℤ × List UInt8 :=
  match env.getxattr name with
  | .error e => (e.ret, value)
  | .ok v =>
    if value.length = 0 then (v.length, value)
    else if value.length < v.length then (ERANGE.ret, value)
    else (v.length, v ++ value.drop v.length)

/-- The jumps to `retry`: the size of the value and the buffer. -/
def getValue (name : List UInt8) : ℕ → List UInt8 → Outcome (Except ℤ ℕ × List UInt8)
  | 0, _ => .running
  | fuel + 1, value =>
    let r := vfsGetxattr env name value
    let size := if r.1 = ERANGE.ret then (vfsGetxattr env name []).1 else r.1
    if size < 0 then .ret (.error size, r.2)
    else if size > value.length then
      if env.krealloc size.toNat then
        getValue name fuel (value ++ (List.range (size.toNat - value.length)).map env.fresh)
      else .ret (.error ENOMEM.ret, r.2)
    else .ret (.ok size.toNat, r.2)

/-- What changes in the loop. -/
structure CopyState where
  error : ℤ
  value : List UInt8
  new : Attrs

/-- The loop for an attribute that is not private; `false` leaves the loop. -/
def copyOne (fuel : ℕ) (name : List UInt8) (st : CopyState) : Outcome (CopyState × Bool) :=
  match getValue env name fuel st.value with
  | .running => .running
  | .oops => .oops
  | .ret (.error e, value) => .ret ({ st with error := e, value := value }, false)
  | .ret (.ok size, value) =>
    let error := env.hook name
    if error < 0 ∧ error ≠ EOPNOTSUPP.ret then
      .ret ({ st with error := error, value := value }, false)
    else if error = 1 then .ret ({ st with error := 0, value := value }, true)
    else
      match env.setxattr name (value.take size) with
      | some e => .ret ({ st with error := e.ret, value := value }, false)
      | none =>
        .ret (⟨0, value, Function.update st.new name (some (value.take size))⟩, true)

/-- The loop of `ovl_copy_xattr` from the name at `name` on, with `listSize` bytes to go. -/
def copyLoop (fuel lim : ℕ) (buf : List UInt8) (name listSize : ℕ) (st : CopyState) :
    Outcome (ℤ × Attrs) :=
  if listSize = 0 then .ret (st.error, st.new)
  else
    match strnlenAt lim buf listSize name with
    | none => .oops
    | some n =>
      let slen := n + 1
      if slen > listSize then .ret (Errno.ret EIO, st.new)
      else
        match ovlIsPrivateXattr lim buf name with
        | none => .oops
        | some true => copyLoop fuel lim buf (name + slen) (listSize - slen) st
        | some false =>
          match copyOne env fuel (str (buf.drop name)) st with
          | .running => .running
          | .oops => .oops
          | .ret (st, false) => .ret (st.error, st.new)
          | .ret (st, true) => copyLoop fuel lim buf (name + slen) (listSize - slen) st
  termination_by listSize

/-- `ovl_copy_xattr`: `error` is what the variable holds at the start, and `new` the attributes
of the new dentry. -/
def ovlCopyXattr (fuel : ℕ) (error : ℤ) (new : Attrs) : Outcome (ℤ × Attrs) :=
  if !env.oldXattr || !env.newXattr then .ret (0, new)
  else
    match env.listSize with
    | .error e => if e.ret = EOPNOTSUPP.ret then .ret (0, new) else .ret (e.ret, new)
    | .ok size =>
      if size = 0 then .ret (0, new)
      else if !env.kzalloc size then .ret (ENOMEM.ret, new)
      else
        let r := vfsListxattr env size
        if r.1 ≤ 0 then .ret (r.1, new)
        else copyLoop env fuel r.1.toNat r.2 0 r.1.toNat ⟨error, [], new⟩

end Copy

section Values

variable {env : CopyEnv} {name v value : List UInt8}

/-- The value fits into the buffer. -/
theorem getValue_fits (h : env.getxattr name = .ok v) (hfits : v.length ≤ value.length)
    (fuel : ℕ) :
    ∃ value', getValue env name (fuel + 1) value = .ret (.ok v.length, value') ∧
      value'.take v.length = v := by
  have hsize : (v.length : ℤ) ≠ ERANGE.ret := by
    have := ERANGE.ret_neg
    omega
  have hneg : ¬ (v.length : ℤ) < 0 := by omega
  have hgt : ¬ (v.length : ℤ) > value.length := by omega
  rw [getValue]
  by_cases hzero : value.length = 0
  · have hnil : v = [] := List.length_eq_zero_iff.mp (by omega)
    refine ⟨value, ?_, by rw [hnil]; rfl⟩
    simp only [vfsGetxattr, h, if_pos hzero, if_neg hsize, if_neg hneg, if_neg hgt,
      Int.toNat_natCast]
  · refine ⟨v ++ value.drop v.length, ?_, List.take_left⟩
    simp only [vfsGetxattr, h, if_neg hzero, if_neg (show ¬ value.length < v.length by omega),
      if_neg hsize, if_neg hneg, if_neg hgt, Int.toNat_natCast]

/-- The value does not fit, and is read again into a buffer of its size. -/
theorem getValue_grows (h : env.getxattr name = .ok v) (hmem : ∀ n, env.krealloc n = true)
    (hgrows : value.length < v.length) (fuel : ℕ) :
    getValue env name (fuel + 1) value = getValue env name fuel
      (value ++ (List.range (v.length - value.length)).map env.fresh) := by
  have hprobe : (vfsGetxattr env name []).1 = v.length := by
    simp only [vfsGetxattr, h, List.length_nil, if_true]
  have hsize : (if (vfsGetxattr env name value).1 = ERANGE.ret then
      (vfsGetxattr env name []).1 else (vfsGetxattr env name value).1) = v.length := by
    rw [hprobe]
    by_cases hzero : value.length = 0
    · simp only [vfsGetxattr, h, if_pos hzero, ite_self]
    · simp only [vfsGetxattr, h, if_neg hzero, if_pos hgrows, if_true]
  have hneg : ¬ (v.length : ℤ) < 0 := by omega
  have hgt : (v.length : ℤ) > value.length := by omega
  rw [getValue]
  simp only [hsize, if_neg hneg, if_pos hgt, hmem, if_true, Int.toNat_natCast]

/-- The buffer grows at most once. -/
theorem getValue_ok (h : env.getxattr name = .ok v) (hmem : ∀ n, env.krealloc n = true)
    (fuel : ℕ) :
    ∃ value', getValue env name (fuel + 2) value = .ret (.ok v.length, value') ∧
      value'.take v.length = v := by
  by_cases hfits : v.length ≤ value.length
  · exact getValue_fits h hfits (fuel + 1)
  · rw [getValue_grows h hmem (by omega)]
    refine getValue_fits h ?_ fuel
    rw [List.length_append, List.length_map, List.length_range]
    omega

end Values

section Loop

/-- None of the calls fails for the attributes `names` with the values `value`. -/
structure CopyEnv.NoneFails (env : CopyEnv) (names : List Name)
    (value : List UInt8 → List UInt8) : Prop where
  supported : env.oldXattr = true ∧ env.newXattr = true
  listSize : env.listSize = .ok (joined names).length
  list : env.list = .ok (joined names)
  kzalloc : ∀ n, env.kzalloc n = true
  krealloc : ∀ n, env.krealloc n = true
  getxattr : ∀ n ∈ names, env.getxattr n.bytes = .ok (value n.bytes)
  hook : ∀ n ∈ names, 0 ≤ env.hook n.bytes ∨ env.hook n.bytes = EOPNOTSUPP.ret
  setxattr : ∀ n v, env.setxattr n v = none

/-- The attributes that are copied: those that are neither private nor discarded. -/
def isCopied (env : CopyEnv) (n : Name) : Bool := !isPrivate n && env.hook n.bytes ≠ 1

/-- The new dentry has the attributes that are copied, and else those it had. -/
def afterCopy (env : CopyEnv) (value : List UInt8 → List UInt8) : List Name → Attrs → Attrs
  | [], new => new
  | n :: names, new => afterCopy env value names
      (if isCopied env n then Function.update new n.bytes (some (value n.bytes)) else new)

variable {env : CopyEnv} {names : List Name} {value : List UInt8 → List UInt8} {n : Name}
  {new : Attrs} {st : CopyState}

theorem afterCopy_apply (k : List UInt8) :
    afterCopy env value names new k =
      if k ∈ (names.filter (isCopied env)).map Name.bytes then some (value k) else new k := by
  induction names generalizing new with
  | nil => simp [afterCopy]
  | cons n names ih =>
    rw [afterCopy, ih]
    by_cases hrest : k ∈ (names.filter (isCopied env)).map Name.bytes
    · have hsub := ((List.sublist_cons_self n names).filter (isCopied env)).map Name.bytes
      rw [if_pos hrest, if_pos (hsub.subset hrest)]
    · rw [if_neg hrest]
      by_cases hn : isCopied env n = true
      · rw [if_pos hn, List.filter_cons_of_pos hn, List.map_cons]
        by_cases hk : k = n.bytes
        · rw [hk, Function.update_self, if_pos List.mem_cons_self]
        · rw [Function.update_of_ne hk, if_neg]
          exact fun hmem => (List.mem_cons.mp hmem).elim hk hrest
      · rw [if_neg hn, List.filter_cons_of_neg hn, if_neg hrest]

/-- An attribute that is not private is copied or discarded, and `error` is 0. -/
theorem copyOne_ok (h : env.NoneFails names value) (hn : n ∈ names)
    (hprivate : isPrivate n = false) (fuel : ℕ) :
    ∃ buffer, copyOne env (fuel + 2) n.bytes st = .ret (⟨0, buffer,
      if isCopied env n then Function.update st.new n.bytes (some (value n.bytes))
      else st.new⟩, true) := by
  obtain ⟨buffer, hget, htake⟩ :
      ∃ value', getValue env n.bytes (fuel + 2) st.value =
        .ret (.ok (value n.bytes).length, value') ∧
        value'.take (value n.bytes).length = value n.bytes :=
    getValue_ok (h.getxattr n hn) h.krealloc fuel
  refine ⟨buffer, ?_⟩
  have hpass : ¬ (env.hook n.bytes < 0 ∧ env.hook n.bytes ≠ EOPNOTSUPP.ret) := by
    rintro ⟨hneg, hne⟩
    exact (h.hook n hn).elim (fun hnonneg => by omega) hne
  rw [copyOne]
  simp only [hget, if_neg hpass]
  by_cases hdiscard : env.hook n.bytes = 1
  · have hno : isCopied env n = false := by simp [isCopied, hdiscard]
    rw [if_pos hdiscard, hno]
    rfl
  · have hyes : isCopied env n = true := by simp [isCopied, hprivate, hdiscard]
    simp only [if_neg hdiscard, h.setxattr, htake, hyes, if_true]

/-- The loop copies what it should. `error` is 0 behind it when an attribute was not private,
and else what it was before. -/
theorem copyLoop_spec {all : List Name} (h : env.NoneFails all value) (hall : names ⊆ all)
    {buf : List UInt8} {p lim : ℕ} (hdrop : buf.drop p = joined names)
    (hlim : p + (joined names).length ≤ lim) (fuel : ℕ) :
    copyLoop env (fuel + 2) lim buf p (joined names).length st =
      .ret (if names.all isPrivate then st.error else 0, afterCopy env value names st.new) := by
  induction names generalizing p st with
  | nil =>
    rw [copyLoop]
    rfl
  | cons n names ih =>
    obtain ⟨hn, hnames⟩ := List.cons_subset.mp hall
    obtain ⟨len, hlen⟩ : ∃ len, (joined names).length = len := ⟨_, rfl⟩
    rw [joined_cons] at hdrop
    rw [length_joined_cons, hlen] at hlim ⊢
    have hlength := strnlenAt_name (k := n.bytes.length + 1 + len) hdrop n.nonzero (by omega) hlim
    have hsub : n.bytes.length + 1 + len - (n.bytes.length + 1) = len := by omega
    have hbehind : buf.drop (p + (n.bytes.length + 1)) = joined names := by
      rw [← List.drop_drop, hdrop, List.append_cons]
      exact List.drop_left' (by simp)
    have hname : str (buf.drop p) = n.bytes :=
      (⟨rfl, ⟨_, hdrop⟩, n.nonzero⟩ : Carries (buf.drop p) _ n.bytes).str_eq
    have hrest : ∀ st, copyLoop env (fuel + 2) lim buf (p + (n.bytes.length + 1)) len st =
        .ret (if names.all isPrivate then st.error else 0,
          afterCopy env value names st.new) := by
      intro st
      rw [← hlen]
      exact ih hnames hbehind (by omega)
    rw [copyLoop]
    simp only [if_neg (show n.bytes.length + 1 + len ≠ 0 by omega), hlength,
      if_neg (show ¬ n.bytes.length + 1 > n.bytes.length + 1 + len by omega), hsub,
      ovlIsPrivateXattr_name hdrop (by omega : p + n.bytes.length < lim), hname]
    cases hprivate : isPrivate n with
    | true =>
      have hno : isCopied env n = false := by simp [isCopied, hprivate]
      simp only [hrest, List.all_cons, hprivate, Bool.true_and, afterCopy, hno,
        Bool.false_eq_true, if_false]
    | false =>
      obtain ⟨buffer, hone⟩ := @copyOne_ok _ _ _ _ st h hn hprivate fuel
      simp only [hone, hrest, List.all_cons, hprivate, Bool.false_and, Bool.false_eq_true,
        if_false, ite_self, afterCopy]

end Loop

section Complete

variable {env : CopyEnv} {names : List Name} {value : List UInt8 → List UInt8}

/-- When none of the calls fails, the return value is `error` as it was at the start if there
are only private attributes. -/
theorem ovlCopyXattr_eq (h : env.NoneFails names value) (fuel : ℕ) (error : ℤ) (new : Attrs) :
    ovlCopyXattr env (fuel + 2) error new =
      .ret (if names ≠ [] ∧ names.all isPrivate = true then error else 0,
        afterCopy env value names new) := by
  have hlist : vfsListxattr env (joined names).length =
      (((joined names).length : ℤ), joined names) := by
    simp only [vfsListxattr, h.list, Nat.lt_irrefl, if_false]
  rw [ovlCopyXattr, h.supported.1, h.supported.2]
  simp only [h.listSize, h.kzalloc, hlist, Bool.not_true, Bool.or_self, Bool.false_eq_true,
    if_false]
  cases names with
  | nil => rfl
  | cons n names =>
    have hpos : (joined (n :: names)).length ≠ 0 := by
      rw [length_joined_cons]
      omega
    have hneg : ¬ ((joined (n :: names)).length : ℤ) ≤ 0 := by omega
    rw [if_neg hpos, if_neg hneg, Int.toNat_natCast,
      copyLoop_spec h (List.Subset.refl _) rfl (by omega)]
    simp

/-- The copy is complete and reports success. -/
def CopyComplete (env : CopyEnv) (names : List Name) (value : List UInt8 → List UInt8)
    (fuel : ℕ) (error : ℤ) (new : Attrs) : Prop :=
  ∃ new', ovlCopyXattr env fuel error new = .ret (0, new') ∧
    (∀ k ∈ (names.filter (isCopied env)).map Name.bytes, new' k = some (value k)) ∧
    ∀ k ∉ (names.filter (isCopied env)).map Name.bytes, new' k = new k

/-- Copying extended attributes. Whatever `error` holds at the start, the copy is complete and
reports success if there is no attribute at all or one that is not private, and else it
does not. -/
theorem copyXattr_complete_iff (h : env.NoneFails names value) (fuel : ℕ) (new : Attrs) :
    (∀ error, CopyComplete env names value (fuel + 2) error new) ↔
      names = [] ∨ ∃ n ∈ names, isPrivate n = false := by
  constructor
  · intro hcomplete
    obtain ⟨new', hrun, -⟩ := hcomplete 1
    rw [ovlCopyXattr_eq h] at hrun
    by_contra hno
    rw [not_or, not_exists] at hno
    have hall : names.all isPrivate = true := by
      rw [List.all_eq_true]
      intro n hn
      exact eq_true_of_ne_false fun hpublic => hno.2 n ⟨hn, hpublic⟩
    rw [if_pos ⟨hno.1, hall⟩] at hrun
    cases hrun
  · intro hnames error
    refine ⟨afterCopy env value names new, ?_, fun k hk => ?_, fun k hk => ?_⟩
    rotate_left
    · rw [afterCopy_apply, if_pos hk]
    · rw [afterCopy_apply, if_neg hk]
    rw [ovlCopyXattr_eq h, if_neg]
    rintro ⟨hne, hall⟩
    obtain hnil | ⟨n, hn, hpublic⟩ := hnames
    · exact hne hnil
    · rw [List.all_eq_true] at hall
      exact absurd (hall n hn) (by rw [hpublic]; decide)

/-- A dentry with the attributes `names`, each with the value `"y"`. -/
def plainEnv (names : List Name) : CopyEnv where
  oldXattr := true
  newXattr := true
  listSize := .ok (joined names).length
  list := .ok (joined names)
  kzalloc := fun _ => true
  krealloc := fun _ => true
  fresh := fun _ => 0
  getxattr := fun _ => .ok [121]
  hook := fun _ => 0
  setxattr := fun _ _ => none

theorem plainEnv_noneFails (names : List Name) :
    (plainEnv names).NoneFails names fun _ => [121] :=
  ⟨⟨rfl, rfl⟩, rfl, rfl, fun _ => rfl, fun _ => rfl, fun _ _ => rfl,
    fun _ _ => .inl (Int.le_refl 0), fun _ _ => rfl⟩

/-- The name `trusted.overlay.opaque`. -/
def opaqueName : Name := ⟨OVL_XATTR_PREFIX ++ [111, 112, 97, 113, 117, 101], by decide⟩

/-- The name `user.a`. -/
def userName : Name := ⟨[117, 115, 101, 114, 46, 97], by decide⟩

theorem copyXattr_opaque_only :
    (plainEnv [opaqueName]).NoneFails [opaqueName] (fun _ => [121]) ∧
      ¬ CopyComplete (plainEnv [opaqueName]) [opaqueName] (fun _ => [121]) 2 (-1)
        (fun _ => none) := by
  refine ⟨plainEnv_noneFails _, ?_⟩
  rintro ⟨new', hrun, -⟩
  rw [ovlCopyXattr_eq (plainEnv_noneFails _) 0, if_pos ⟨by decide, by decide⟩] at hrun
  cases hrun

theorem copyXattr_opaque_and_user :
    CopyComplete (plainEnv [userName, opaqueName]) [userName, opaqueName] (fun _ => [121]) 2 (-1)
      fun _ => none :=
  (copyXattr_complete_iff (plainEnv_noneFails _) 0 _).mpr
    (.inr ⟨userName, by decide, by decide⟩) (-1)

end Complete

end FzzOverlay.CopyXattr

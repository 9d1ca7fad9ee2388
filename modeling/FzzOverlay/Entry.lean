import Mathlib.Data.UInt
import FzzOverlay.Lib.SparseFile

/-!
# Overlay inodes and the files behind them

The data model of `ovl_entry.h`, restricted to what the data path of a regular
file reads and writes, and the small helpers of `util.c` that pick the real file
behind an overlay inode.

## Main definitions

- `BlockStatus`, `BlockMap` — the values and the buffer of `block_status`
- `FilePtr` — a `struct file *` field: `NULL`, an open file or an `ERR_PTR`
- `OvlInode` — the fields of `struct ovl_inode` used on the data path
- `OvlFile` — a regular overlay file: lower stack, upper inode and overlay inode
- `ovlGetBlock` — the 1-based number of the block that holds an offset
-/

namespace FzzOverlay

/-- Contents of a real regular file. -/
abbrev File := SparseFile UInt8

/-- `BLOCK_SIZE` of `ovl_entry.h`. -/
def BLOCK_SIZE : ℕ := 4096

/-- A kernel error number. Functions return it negated, so it is never zero. -/
structure Errno where
  code : ℕ
  code_pos : 0 < code

/-- The value `-errno` that a function returns. -/
def Errno.ret (e : Errno) : ℤ := -(e.code : ℤ)

theorem Errno.ret_neg (e : Errno) : e.ret < 0 := by
  have := e.code_pos
  simp only [Errno.ret]
  omega

def EPERM : Errno := ⟨1, by decide⟩
def ENOENT : Errno := ⟨2, by decide⟩
def EINTR : Errno := ⟨4, by decide⟩
def EIO : Errno := ⟨5, by decide⟩
def EBADF : Errno := ⟨9, by decide⟩
def ENOMEM : Errno := ⟨12, by decide⟩
def EBUSY : Errno := ⟨16, by decide⟩
def ENODEV : Errno := ⟨19, by decide⟩
def EINVAL : Errno := ⟨22, by decide⟩
def ETXTBSY : Errno := ⟨26, by decide⟩
def EROFS : Errno := ⟨30, by decide⟩
def ENODATA : Errno := ⟨61, by decide⟩
def EOVERFLOW : Errno := ⟨75, by decide⟩
def ESTALE : Errno := ⟨116, by decide⟩

/-- How a call into the kernel ends: it returns, it dereferences an invalid
pointer, or it is still running when the allowed number of loop passes is used up. -/
inductive Outcome (α : Type) where
  | ret (a : α)
  | oops
  | running

theorem bind_eq_ok {ε α β : Type} {x : Except ε α} {f : α → Except ε β} {b : β} :
    x >>= f = .ok b ↔ ∃ a, x = .ok a ∧ f a = .ok b := by
  cases x with
  | error e => simp [bind, Except.bind]
  | ok a => simp [bind, Except.bind]

/-- `UNCOPY`, `COPIED` and `COPYING`, the values kept in `block_status`. -/
inductive BlockStatus where
  | uncopy
  | copied
  | copying
  deriving DecidableEq, Repr

/-- The buffer `block_status` points to: its address, which tells one allocation
from another, and its cells. -/
structure BlockMap where
  addr : ℕ
  cells : ℕ → BlockStatus

/-- A cached `struct file *`. `opened idx` is an open file: entry `idx` of the
lower stack for `lower_file`, the upper file for `upper_file`. -/
inductive FilePtr where
  | null
  | opened (idx : ℕ)
  | err (e : Errno)

/-- The pointer can be used: it is not an `ERR_PTR`. -/
def FilePtr.Usable : FilePtr → Prop
  | .err _ => False
  | _ => True

/-- `struct ovl_inode`: the `OVL_UPPERDATA` bit of `flags`, `i_size` of the
embedded inode, and the block copy-on-write fields. -/
structure OvlInode where
  upperdata : Bool
  iSize : ℕ
  blockCount : ℕ
  copyCount : ℕ
  cowStatus : Bool
  lowerFile : FilePtr
  upperFile : FilePtr
  metaFile : FilePtr
  blockStatus : Option BlockMap

/-- The inode in the upper layer: its data and whether it carries the
`OVL_XATTR_METACOPY` attribute. -/
structure UpperInode where
  data : File
  metacopy : Bool

/-- A regular overlay file: the lower stack of its dentry, the upper inode once
it is copied up, `OVL_E_UPPER_ALIAS` of the dentry, and the overlay inode. -/
structure OvlFile where
  lowerstack : List File
  upper : Option UpperInode
  upperAlias : Bool
  oi : OvlInode

/-- `ovl_get_block`. File offsets are non-negative `loff_t` values and a request
ends below `2 ^ 63`, so the `size_t` sum does not wrap. -/
def ovlGetBlock (pos : ℕ) : ℕ := (pos + BLOCK_SIZE) / BLOCK_SIZE

theorem ovlGetBlock_eq (pos : ℕ) : ovlGetBlock pos = pos / 4096 + 1 := by
  simp only [ovlGetBlock, BLOCK_SIZE]
  omega

theorem ovlGetBlock_pos (pos : ℕ) : 0 < ovlGetBlock pos := by
  rw [ovlGetBlock_eq]
  omega

/-- Block `b` holds exactly the offsets of `[(b - 1) * 4096, b * 4096)`. -/
theorem ovlGetBlock_eq_iff {pos b : ℕ} (hb : 0 < b) :
    ovlGetBlock pos = b ↔ (b - 1) * BLOCK_SIZE ≤ pos ∧ pos < b * BLOCK_SIZE := by
  rw [ovlGetBlock_eq, BLOCK_SIZE]
  omega

theorem ovlGetBlock_mono {a b : ℕ} (h : a ≤ b) : ovlGetBlock a ≤ ovlGetBlock b := by
  rw [ovlGetBlock_eq, ovlGetBlock_eq]
  omega

theorem lt_ovlGetBlock_mul (pos : ℕ) : pos < ovlGetBlock pos * BLOCK_SIZE := by
  rw [ovlGetBlock_eq, BLOCK_SIZE]
  omega

theorem ovlGetBlock_sub_one_mul_le (pos : ℕ) : (ovlGetBlock pos - 1) * BLOCK_SIZE ≤ pos := by
  rw [ovlGetBlock_eq, BLOCK_SIZE]
  omega

namespace OvlFile

/-- The file of entry `idx` of the lower stack. -/
def lowerAt (f : OvlFile) (idx : ℕ) : File := f.lowerstack.getD idx .empty

/-- `ovl_path_lower`: entry 0 of the lower stack. -/
def ovlPathLower (_ : OvlFile) : ℕ := 0

/-- `ovl_path_lowerdata`: the last entry of the lower stack, which holds the data. -/
def ovlPathLowerdata (f : OvlFile) : ℕ := f.lowerstack.length - 1

/-- `ovl_dentry_lowerdata`, as contents. -/
def lowerdata (f : OvlFile) : File := f.lowerAt f.ovlPathLowerdata

/-- Contents of the upper inode, empty while there is none. -/
def upperData (f : OvlFile) : File :=
  match f.upper with
  | none => .empty
  | some u => u.data

/-- `ovl_has_upperdata` of a regular file. -/
def ovlHasUpperdata (f : OvlFile) : Bool := f.lowerstack.isEmpty || f.oi.upperdata

/-- Whether `ovl_inode_realdata` is the upper inode. -/
def realdataIsUpper (f : OvlFile) : Bool := f.upper.isSome && f.ovlHasUpperdata

/-- `ovl_inode_realdata`, as contents. -/
def ovlInodeRealdata (f : OvlFile) : File :=
  if f.realdataIsUpper then f.upperData else f.lowerdata

/-- `ovl_inode_real`, as contents: the upper inode, or entry 0 of the lower stack. -/
def ovlInodeReal (f : OvlFile) : File :=
  if f.upper.isSome then f.upperData else f.lowerAt f.ovlPathLower

/-- The file behind `oi->lower_file`, if it can be dereferenced. -/
def derefLower (f : OvlFile) : Option File :=
  match f.oi.lowerFile with
  | .opened idx => some (f.lowerAt idx)
  | _ => none

/-- The file behind `oi->upper_file`, if it can be dereferenced. -/
def derefUpper (f : OvlFile) : Option File :=
  match f.oi.upperFile with
  | .opened _ => f.upper.map UpperInode.data
  | _ => none

/-- Replace the contents of the upper inode. -/
def setUpperData (f : OvlFile) (data : File) : OvlFile :=
  { f with upper := f.upper.map fun u => { u with data := data } }

theorem lowerAt_zero_of_single {f : OvlFile} {lower : File} (h : f.lowerstack = [lower]) :
    f.lowerAt 0 = lower := by
  rw [lowerAt, h]
  rfl

theorem ovlPathLowerdata_of_single {f : OvlFile} {lower : File} (h : f.lowerstack = [lower]) :
    f.ovlPathLowerdata = 0 := by
  rw [ovlPathLowerdata, h]
  rfl

theorem realdataIsUpper_of_upperdata {f : OvlFile} (hup : f.upper.isSome)
    (hdata : f.oi.upperdata = true) : f.realdataIsUpper = true := by
  rw [realdataIsUpper, ovlHasUpperdata, hup, hdata, Bool.or_true, Bool.and_true]

theorem ovlInodeRealdata_of_upperdata {f : OvlFile} (hup : f.upper.isSome)
    (hdata : f.oi.upperdata = true) : f.ovlInodeRealdata = f.upperData := by
  rw [ovlInodeRealdata, if_pos (realdataIsUpper_of_upperdata hup hdata)]

@[simp] theorem upperData_setUpperData {f : OvlFile} (h : f.upper.isSome) (data : File) :
    (f.setUpperData data).upperData = data := by
  obtain ⟨u, hu⟩ := Option.isSome_iff_exists.mp h
  simp [setUpperData, upperData, hu]

@[simp] theorem setUpperData_upperData (f : OvlFile) : f.setUpperData f.upperData = f := by
  obtain ⟨stack, upper, linked, oi⟩ := f
  cases upper <;> rfl

end OvlFile

end FzzOverlay

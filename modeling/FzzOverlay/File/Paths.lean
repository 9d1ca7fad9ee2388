import FzzOverlay.Setattr

/-!
# The data paths besides read and write

`ovl_real_fdget`, `ovl_copyfile` and `ovl_mmap` of `file.c`. They reach the real
file behind an overlay file directly; none of them looks at the block map.
-/

namespace FzzOverlay

open SparseFile

/-- The real inode an open real file belongs to. -/
inductive RealInode where
  | upper
  | lowerdata
  deriving DecidableEq

/-- An open overlay file: the real file `ovl_open` stored in `private_data`. -/
structure OpenFile where
  privateData : RealInode

namespace OvlFile

/-- `ovl_inode_realdata`. -/
def realInode (f : OvlFile) : RealInode := if f.realdataIsUpper then .upper else .lowerdata

def contents (f : OvlFile) : RealInode → File
  | .upper => f.upperData
  | .lowerdata => f.lowerdata

theorem contents_realInode (f : OvlFile) : f.contents f.realInode = f.ovlInodeRealdata := by
  rw [realInode, ovlInodeRealdata]
  split <;> rfl

end OvlFile

/-- `ovl_real_fdget`. `o` says whether opening the real file again, or changing the
flags of the one there is, fails. -/
def ovlRealFdget (o : Option Errno) (f : OvlFile) (file : OpenFile) : Except Errno RealInode :=
  match o with
  | some e => .error e
  | none => if file.privateData ≠ f.realInode then .ok f.realInode else .ok file.privateData

theorem ovlRealFdget_ok {o : Option Errno} {f : OvlFile} {file : OpenFile} {r : RealInode}
    (h : ovlRealFdget o f file = .ok r) : r = f.realInode := by
  cases o with
  | some e => cases h
  | none =>
    simp only [ovlRealFdget] at h
    split at h
    · cases h
      rfl
    · next hsame =>
      cases h
      exact not_ne_iff.mp hsame

/-- `enum ovl_copyop`. -/
inductive OvlCopyop where
  | copy
  | clone
  | dedupe
  deriving DecidableEq

/-- Outcome of the VFS call on the two real files: at most `k` bytes of the range
are moved, or an error. -/
inductive VfsRemap where
  | done (k : ℕ)
  | fail (e : Errno)

/-- The bytes of the range that the call moves. A clone of length 0 goes to the end
of the file. -/
def OvlCopyop.range (op : OvlCopyop) (file : File) (pos len : ℕ) : ℕ :=
  if op = .clone ∧ len = 0 then file.size - pos else len

/-- What the rest of the kernel does during `ovl_copyfile`. -/
structure CopyfileEnv where
  fdgetOut : Option Errno
  fdgetIn : Option Errno
  remap : VfsRemap

/-- What `ovl_copyfile` leaves behind: return value, the bytes moved from the
source and the destination file. -/
structure CopyfileResult where
  ret : ℤ
  moved : List UInt8
  out : OvlFile

/-- The VFS call on the real files. A lower inode is never open for writing, and a
dedupe request shares blocks that are equal already. -/
def vfsRemap (env : CopyfileEnv) (fin : OvlFile) (realIn : RealInode) (posIn : ℕ) (fout : OvlFile)
    (realOut : RealInode) (posOut len : ℕ) (op : OvlCopyop) : CopyfileResult :=
  match env.remap with
  | .fail e => ⟨e.ret, [], fout⟩
  | .done k =>
    let file := fin.contents realIn
    let bytes := file.read posIn (min k (op.range file posIn len))
    if op = .dedupe then ⟨bytes.length, [], fout⟩
    else if realOut = .upper then
      ⟨bytes.length, bytes, fout.setUpperData (fout.upperData.write posOut bytes)⟩
    else ⟨EBADF.ret, [], fout⟩

/-- `ovl_copyfile`. -/
def ovlCopyfile (env : CopyfileEnv) (fin : OvlFile) (fileIn : OpenFile) (posIn : ℕ) (fout : OvlFile)
    (fileOut : OpenFile) (posOut len : ℕ) (op : OvlCopyop) : CopyfileResult :=
  match ovlRealFdget env.fdgetOut fout fileOut with
  | .error e => ⟨e.ret, [], fout⟩
  | .ok realOut =>
    match ovlRealFdget env.fdgetIn fin fileIn with
    | .error e => ⟨e.ret, [], fout⟩
    | .ok realIn =>
      let r := vfsRemap env fin realIn posIn fout realOut posOut len op
      { r with out := r.out.ovlCopyattr }

/-- What the rest of the kernel does during `ovl_mmap`. -/
structure MmapEnv where
  hasMmap : Bool
  isVmFile : Bool
  callMmap : Option Errno

/-- `ovl_mmap`: the return value, and the real inode the mapping shows. -/
def ovlMmap (env : MmapEnv) (file : OpenFile) : ℤ × Option RealInode :=
  if !env.hasMmap then (ENODEV.ret, none)
  else if !env.isVmFile then (Errno.ret EIO, none)
  else
    match env.callMmap with
    | some e => (e.ret, none)
    | none => (0, some file.privateData)

end FzzOverlay

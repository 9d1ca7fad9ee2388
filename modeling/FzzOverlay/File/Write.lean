import FzzOverlay.CopyUp.Block

/-!
# The write path

`block_write_iter` and `ovl_write_iter` of `file.c`. As on the read path, what the
VFS does during a call is an argument: which opens fail, how `ovl_copy_up_block`
fares, how much each `vfs_iter_write` stores. So is what lies in memory behind the
`block_status` buffer, which the code reads for blocks past the map.
-/

namespace FzzOverlay

open SparseFile

/-- Outcome of one `vfs_iter_write`: the whole remaining request, at most `k + 1`
bytes of it, or an error. -/
inductive VfsWrite where
  | full
  | short (k : ℕ)
  | fail (e : Errno)

/-- What the rest of the kernel does during one write request. -/
structure WriteEnv where
  oob : ℕ → BlockStatus
  removePrivs : Option Errno
  fdget : Option Errno
  openUpper : Option Errno
  openLower : Option Errno
  copyStart : CopyEnv
  copyEnd : CopyEnv
  wr : ℕ → VfsWrite
  metaSaveFifoFull : Bool

/-- Nothing fails and no copy or write is short; memory behind the map reads zero. -/
def WriteEnv.full : WriteEnv :=
  ⟨fun _ => .uncopy, none, none, none, none, .plain, .plain, fun _ => .full, false⟩

/-- A write request: `ki_pos`, whether the real file is `O_APPEND`, and the data. -/
structure WriteReq where
  pos : ℕ
  append : Bool
  data : List UInt8

/-- `struct meta_save_task`, without the file it is for. -/
structure MetaSaveTask where
  start : ℕ
  stop : ℕ

/-- What a write request leaves behind. -/
structure WriteResult where
  ret : ℤ
  pos : ℕ
  file : OvlFile
  task : Option MetaSaveTask

/-- The part of `block_write_iter` before `copy_done` falls through, returns an
error, or dereferences an invalid pointer. -/
inductive Prep where
  | ready (f : OvlFile)
  | fail (ret : ℤ) (f : OvlFile)
  | oops

def Prep.andThen (p : Prep) (k : OvlFile → Prep) : Prep :=
  match p with
  | .ready f => k f
  | .fail ret f => .fail ret f
  | .oops => .oops

/-- Unsigned 64-bit subtraction. -/
def usub64 (a b : ℕ) : ℕ := (a + (2 ^ 64 - b % 2 ^ 64)) % 2 ^ 64

theorem usub64_of_le {a b : ℕ} (h : b ≤ a) (ha : a < 2 ^ 64) : usub64 a b = a - b := by
  rw [usub64]
  omega

/-- `oi->block_status[i]` for a map that is not `NULL`. Only `block_count + 1`
cells were allocated. -/
def statusAt (oob : ℕ → BlockStatus) (oi : OvlInode) (m : BlockMap) (i : ℕ) : BlockStatus :=
  if i ≤ oi.blockCount then m.cells i else oob i

/-- `if (!oi->upper_file)`: open it with `ovl_path_open`. -/
def openUpper (o : Option Errno) (f : OvlFile) : Prep :=
  match f.upper, f.oi.upperFile, o with
  | none, .null, _ => .oops
  | some _, .null, none => .ready { f with oi := { f.oi with upperFile := .opened 0 } }
  | some _, .null, some e => .fail e.ret { f with oi := { f.oi with upperFile := .err e } }
  | _, _, _ => .ready f

/-- `if (!oi->lower_file)`: open `ovl_path_lower` with `ovl_path_open`. -/
def openLower (o : Option Errno) (f : OvlFile) : Prep :=
  match f.oi.lowerFile, o with
  | .null, none => .ready { f with oi := { f.oi with lowerFile := .opened f.ovlPathLower } }
  | .null, some e => .fail e.ret { f with oi := { f.oi with lowerFile := .err e } }
  | _, _ => .ready f

/-- `ovl_copy_up_block` on the cached files, `len` being computed from the size of
the lower one, and the `if (ret < 0) return ret` after it. -/
def copyRange (env : CopyEnv) (f : OvlFile) (pos : ℕ) (len : ℕ → ℕ) : Prep :=
  match f.derefLower, f.derefUpper with
  | some lower, some upper =>
    if (ovlCopyUpBlock env lower upper pos (len lower.size)).1 < 0 then
      .fail (ovlCopyUpBlock env lower upper pos (len lower.size)).1
        (f.setUpperData (ovlCopyUpBlock env lower upper pos (len lower.size)).2)
    else .ready (f.setUpperData (ovlCopyUpBlock env lower upper pos (len lower.size)).2)
  | _, _ => .oops

/-- `(oi->block_count-1)*BLOCK_SIZE`, the difference being an `unsigned int`. -/
def lastBlockStart (blockCount : ℕ) : ℕ := (blockCount + (2 ^ 32 - 1)) % 2 ^ 32 * BLOCK_SIZE

/-- `lower_size - (b-1)*BLOCK_SIZE < BLOCK_SIZE ? lower_size - (b-1)*BLOCK_SIZE : BLOCK_SIZE`. -/
def blockLen (b lowerSize : ℕ) : ℕ :=
  if usub64 lowerSize ((b - 1) * BLOCK_SIZE) < BLOCK_SIZE then
    usub64 lowerSize ((b - 1) * BLOCK_SIZE)
  else BLOCK_SIZE

/-- The `O_APPEND` branch: open both files, copy the last block if it is not copied. -/
def prepareAppend (env : WriteEnv) (m : BlockMap) (f : OvlFile) : Prep :=
  (openUpper env.openUpper f).andThen fun f =>
    (openLower env.openLower f).andThen fun f =>
      if m.cells f.oi.blockCount = .uncopy then
        copyRange env.copyStart f (lastBlockStart f.oi.blockCount)
          fun size => usub64 size (lastBlockStart f.oi.blockCount)
      else
        match f.derefLower with
        | some _ => .ready f
        | none => .oops

/-- Open both files and copy block `b` up. -/
def copyBlock (env : WriteEnv) (cenv : CopyEnv) (b : ℕ) (f : OvlFile) : Prep :=
  (openUpper env.openUpper f).andThen fun f =>
    (openLower env.openLower f).andThen fun f =>
      copyRange cenv f ((b - 1) * BLOCK_SIZE) (blockLen b)

/-- The request starts inside a block that is not copied. -/
def startCopies (oob : ℕ → BlockStatus) (oi : OvlInode) (m : BlockMap) (req : WriteReq) : Bool :=
  decide ((ovlGetBlock req.pos - 1) * BLOCK_SIZE < req.pos) &&
    decide (statusAt oob oi m (ovlGetBlock req.pos) = .uncopy)

/-- The request ends before the end of a block that is not copied, and that block
was not just copied as the first one. -/
def endCopies (oob : ℕ → BlockStatus) (oi : OvlInode) (m : BlockMap) (req : WriteReq) : Bool :=
  decide (req.pos + req.data.length <
      ovlGetBlock (req.pos + req.data.length) * BLOCK_SIZE) &&
    decide (statusAt oob oi m (ovlGetBlock (req.pos + req.data.length)) = .uncopy) &&
    !(startCopies oob oi m req &&
      decide (ovlGetBlock (req.pos + req.data.length) = ovlGetBlock req.pos))

/-- The two partial-block sections of a positioned request. -/
def preparePositioned (env : WriteEnv) (m : BlockMap) (f : OvlFile) (req : WriteReq) : Prep :=
  (if startCopies env.oob f.oi m req then copyBlock env env.copyStart (ovlGetBlock req.pos) f
    else .ready f).andThen fun f =>
      if endCopies env.oob f.oi m req then
        copyBlock env env.copyEnd (ovlGetBlock (req.pos + req.data.length)) f
      else .ready f

/-- State of the `while (ret < iter->count)` loop when it is left. -/
structure Written where
  ok : Bool
  ret : ℕ
  pos : ℕ
  upper : File

/-- The bytes one `vfs_iter_write` takes from the iterator. -/
def VfsWrite.taken (rest : List UInt8) : VfsWrite → List UInt8
  | .full => rest
  | .short k => rest.take (k + 1)
  | .fail _ => []

/-- The loop over `vfs_iter_write`. Its guard compares what was written so far with
what is left in the iterator. Every pass takes at least one byte. -/
def writeLoop (env : WriteEnv) (append : Bool) :
    ℕ → ℕ → ℕ → ℕ → List UInt8 → File → Written
  | 0, _, ret, pos, _, upper => ⟨true, ret, pos, upper⟩
  | fuel + 1, k, ret, pos, rest, upper =>
    if ret < rest.length then
      match env.wr k with
      | .fail _ => ⟨false, ret, pos, upper⟩
      | o =>
        let bytes := o.taken rest
        let at_ := if append then upper.size else pos
        writeLoop env append fuel (k + 1) (ret + bytes.length) (at_ + bytes.length)
          (rest.drop bytes.length) (upper.write at_ bytes)
    else ⟨true, ret, pos, upper⟩

/-- The marking loop: `for (i = start_block; i <= end_block; i++)`, left at the end
of the map. -/
def markLoop (blockCount endBlock : ℕ) :
    ℕ → ℕ → (ℕ → BlockStatus) × ℕ → (ℕ → BlockStatus) × ℕ
  | 0, _, r => r
  | fuel + 1, i, r =>
    if endBlock < i ∨ blockCount < i then r
    else if r.1 i = .uncopy then
      markLoop blockCount endBlock fuel (i + 1) (Function.update r.1 i .copied, r.2 + 1)
    else markLoop blockCount endBlock fuel (i + 1) r

/-- The end of `block_write_iter`: mark the blocks, and leave copy-on-write mode
once every block is marked. -/
def finishWrite (m : BlockMap) (startBlock endBlock : ℕ) (oi : OvlInode) : OvlInode :=
  let r := markLoop oi.blockCount endBlock (oi.blockCount + 1) startBlock (m.cells, oi.copyCount)
  { oi with
    blockStatus := some { m with cells := r.1 }
    copyCount := r.2
    cowStatus := if r.2 = oi.blockCount then false else oi.cowStatus }

/-- The task queued for the block map file, if there is such a file. -/
def metaTask (env : WriteEnv) (oi : OvlInode) (startBlock endBlock : ℕ) : Option MetaSaveTask :=
  match oi.metaFile with
  | .null => none
  | _ =>
    if env.metaSaveFifoFull then none
    else some ⟨startBlock % 2 ^ 32, if oi.blockCount < endBlock then oi.blockCount
      else endBlock % 2 ^ 32⟩

/-- First and last block number of a request as the marking loop takes them. -/
def blockRange (oi : OvlInode) (req : WriteReq) : ℕ × ℕ :=
  if req.append then (oi.blockCount, oi.blockCount)
  else (ovlGetBlock req.pos, ovlGetBlock (req.pos + req.data.length))

/-- `block_write_iter` from `copy_done` on. A lower inode is never open for writing. -/
def storeData (env : WriteEnv) (m : BlockMap) (f : OvlFile) (req : WriteReq) : WriteResult :=
  if f.realdataIsUpper then
    let w := writeLoop env req.append req.data.length 0 0 req.pos req.data f.upperData
    if w.ok then
      let r := blockRange f.oi req
      ⟨w.ret, w.pos, { f.setUpperData w.upper with oi := finishWrite m r.1 r.2 f.oi },
        metaTask env f.oi r.1 r.2⟩
    else ⟨EPERM.ret, w.pos, f.setUpperData w.upper, none⟩
  else ⟨EPERM.ret, req.pos, f, none⟩

/-- `block_write_iter`. -/
def blockWriteIter (env : WriteEnv) (f : OvlFile) (req : WriteReq) : Outcome WriteResult :=
  match f.oi.blockStatus with
  | none => .oops
  | some m =>
    match if req.append then prepareAppend env m f else preparePositioned env m f req with
    | .oops => .oops
    | .fail ret f => .ret ⟨ret, req.pos, f, none⟩
    | .ready f => .ret (storeData env m f req)

/-- `ovl_copyattr(ovl_inode_real(inode), inode)`: the size. -/
def OvlFile.ovlCopyattr (f : OvlFile) : OvlFile :=
  { f with oi := { f.oi with iSize := f.ovlInodeReal.size } }

/-- The `vfs_iter_write` of a file that is not in copy-on-write mode. -/
def plainWrite (env : WriteEnv) (f : OvlFile) (req : WriteReq) : WriteResult :=
  match env.wr 0 with
  | .fail e => ⟨e.ret, req.pos, f, none⟩
  | o =>
    if f.realdataIsUpper then
      let bytes := o.taken req.data
      let at_ := if req.append then f.upperData.size else req.pos
      ⟨bytes.length, at_ + bytes.length, f.setUpperData (f.upperData.write at_ bytes), none⟩
    else ⟨EBADF.ret, req.pos, f, none⟩

/-- `ovl_write_iter`. -/
def ovlWriteIter (env : WriteEnv) (f : OvlFile) (req : WriteReq) : Outcome WriteResult :=
  if req.data = [] then .ret ⟨0, req.pos, f, none⟩
  else
    match env.removePrivs, env.fdget with
    | some e, _ => .ret ⟨e.ret, req.pos, f.ovlCopyattr, none⟩
    | none, some e => .ret ⟨e.ret, req.pos, f.ovlCopyattr, none⟩
    | none, none =>
      if f.oi.cowStatus then
        match blockWriteIter env f.ovlCopyattr req with
        | .ret r => .ret { r with file := r.file.ovlCopyattr }
        | .oops => .oops
        | .running => .running
      else
        let r := plainWrite env f.ovlCopyattr req
        .ret { r with file := r.file.ovlCopyattr }

end FzzOverlay

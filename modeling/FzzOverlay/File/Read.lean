import FzzOverlay.Entry

/-!
# The read path

`block_read_iter` and `ovl_read_iter` of `file.c`. The outcome of every call into
the VFS is an argument, so a statement about every `ReadEnv` covers short reads,
failed reads and failed opens at any point of a request.

The outer loop of `block_read_iter` goes round without a bound of its own; it is
run for a number of passes, and a call returns if it does so for some number.
-/

namespace FzzOverlay

open SparseFile

/-- Outcome of one `vfs_iter_read`: all the file has of the range, at most `k`
bytes of it, or an error. -/
inductive VfsRead where
  | full
  | short (k : ℕ)
  | fail (e : Errno)

/-- The bytes `vfs_iter_read` delivers. -/
def VfsRead.run (o : VfsRead) (file : File) (pos count : ℕ) : Except Errno (List UInt8) :=
  match o with
  | .full => .ok (file.read pos count)
  | .short k => .ok (file.read pos (min k count))
  | .fail e => .error e

/-- What the VFS does during one read request. -/
structure ReadEnv where
  fdget : Option Errno
  openUpper : Option Errno
  openLower : Option Errno
  rd : ℕ → VfsRead

/-- No call fails and no read is short. -/
def ReadEnv.full : ReadEnv := ⟨none, none, none, fun _ => .full⟩

/-- The variables of `block_read_iter` that live across its loops, the bytes
delivered so far and the number of `vfs_iter_read` calls made. -/
structure ReadState where
  oi : OvlInode
  pos : ℕ
  count : ℕ
  ret : ℕ
  lowerEnd : Bool
  out : List UInt8
  calls : ℕ

/-- One successful `vfs_iter_read`. -/
def ReadState.deliver (s : ReadState) (bs : List UInt8) : ReadState :=
  { s with
    pos := s.pos + bs.length, count := s.count - bs.length, ret := s.ret + bs.length,
    out := s.out ++ bs, calls := s.calls + 1 }

/-- How the inner `while (c_count > 0)` loops are left. -/
inductive LoopExit where
  | drained
  | atEnd
  | failed

/-- The inner loop over one real file. A pass that goes round delivers at least
one byte, so `c_count` passes are enough. -/
def readLoop (env : ReadEnv) (file : File) : ℕ → ℕ → ReadState → ReadState × LoopExit
  | 0, _, s => (s, .drained)
  | fuel + 1, cCount, s =>
    if cCount = 0 then (s, .drained)
    else
      match (env.rd s.calls).run file s.pos cCount with
      | .error _ => ({ s with calls := s.calls + 1 }, .failed)
      | .ok bs =>
        if bs = [] then ({ s with calls := s.calls + 1 }, .atEnd)
        else readLoop env file fuel (cCount - bs.length) (s.deliver bs)

/-- Result of one pass of the outer loop. -/
inductive Pass where
  | again (s : ReadState)
  | done (ret : ℤ) (s : ReadState)
  | oops

/-- Open `oi->upper_file` if it is `NULL`, then go on with it. -/
def useUpper (env : ReadEnv) (f : OvlFile) (s : ReadState) (k : File → ReadState → Pass) : Pass :=
  match f.upper with
  | none => .oops
  | some u =>
    match s.oi.upperFile, env.openUpper with
    | .null, none => k u.data { s with oi := { s.oi with upperFile := .opened 0 } }
    | .null, some e => .done e.ret { s with oi := { s.oi with upperFile := .err e } }
    | .opened _, _ => k u.data s
    | .err _, _ => .oops

/-- Open `oi->lower_file` if it is `NULL`, then go on with it. -/
def useLower (env : ReadEnv) (f : OvlFile) (s : ReadState) (k : File → ReadState → Pass) : Pass :=
  if f.lowerstack = [] then .oops
  else
    match s.oi.lowerFile, env.openLower with
    | .null, none =>
      k f.lowerdata { s with oi := { s.oi with lowerFile := .opened f.ovlPathLowerdata } }
    | .null, some e => .done e.ret { s with oi := { s.oi with lowerFile := .err e } }
    | .opened idx, _ => k (f.lowerAt idx) s
    | .err _, _ => .oops

/-- `c_count`: the bytes a pass asks one real file for. -/
def chunk (pos count : ℕ) : ℕ :=
  if ovlGetBlock pos = ovlGetBlock (pos + count) then count
  else ovlGetBlock pos * BLOCK_SIZE - pos

/-- The branch for `start_block > oi->block_count`. -/
def tailPass (env : ReadEnv) (file : File) (s : ReadState) : Pass :=
  match (env.rd s.calls).run file s.pos s.count with
  | .error _ => .done 0 { s with calls := s.calls + 1 }
  | .ok bs => .done (s.ret + bs.length) (s.deliver bs)

/-- The branch for a block whose status is set. -/
def copiedPass (env : ReadEnv) (cCount : ℕ) (file : File) (s : ReadState) : Pass :=
  match readLoop env file cCount cCount s with
  | (s, .atEnd) => if s.lowerEnd then .done s.ret s else .again s
  | (s, _) => .again s

/-- The branch for a block whose status is zero, `lower_end` not being set. -/
def uncopiedPass (env : ReadEnv) (cCount : ℕ) (file : File) (s : ReadState) : Pass :=
  match readLoop env file cCount cCount s with
  | (s, .atEnd) => .again { s with lowerEnd := true }
  | (s, _) => .again s

/-- Body of the outer `while (count > 0)` loop of `block_read_iter`. -/
def blockReadPass (env : ReadEnv) (f : OvlFile) (s : ReadState) : Pass :=
  if s.oi.blockCount < ovlGetBlock s.pos then useUpper env f s (tailPass env)
  else
    match s.oi.blockStatus with
    | none => .oops
    | some m =>
      if m.cells (ovlGetBlock s.pos) ≠ .uncopy then
        useUpper env f s (copiedPass env (chunk s.pos s.count))
      else if s.lowerEnd then .done s.ret s
      else useLower env f s (uncopiedPass env (chunk s.pos s.count))

/-- What a read request leaves behind: return value, `ki_pos`, the bytes in the
iterator and the overlay inode. -/
structure ReadResult where
  ret : ℤ
  pos : ℕ
  out : List UInt8
  oi : OvlInode

/-- The outer loop, for at most the given number of passes. -/
def blockReadLoop (env : ReadEnv) (f : OvlFile) : ℕ → ReadState → Outcome ReadResult
  | 0, _ => .running
  | fuel + 1, s =>
    if s.count = 0 then .ret ⟨s.ret, s.pos, s.out, s.oi⟩
    else
      match blockReadPass env f s with
      | .again s => blockReadLoop env f fuel s
      | .done ret s => .ret ⟨ret, s.pos, s.out, s.oi⟩
      | .oops => .oops

/-- `block_read_iter`. -/
def blockReadIter (fuel : ℕ) (env : ReadEnv) (f : OvlFile) (pos count : ℕ) : Outcome ReadResult :=
  blockReadLoop env f fuel ⟨f.oi, pos, count, 0, false, [], 0⟩

/-- `ovl_read_iter`. -/
def ovlReadIter (fuel : ℕ) (env : ReadEnv) (f : OvlFile) (pos count : ℕ) : Outcome ReadResult :=
  if count = 0 then .ret ⟨0, pos, [], f.oi⟩
  else
    match env.fdget with
    | some e => .ret ⟨e.ret, pos, [], f.oi⟩
    | none =>
      if f.oi.cowStatus then blockReadIter fuel env f pos count
      else
        match (env.rd 0).run f.ovlInodeRealdata pos count with
        | .error e => .ret ⟨e.ret, pos, [], f.oi⟩
        | .ok bs => .ret ⟨bs.length, pos + bs.length, bs, f.oi⟩

end FzzOverlay

import FzzOverlay.File.Write

/-!
# Asynchronous block copy

`async_block_write_iter` and `speed_block_copy` of `file.c` and the loop body of
`ovl_block_copy` of `super.c`, on the data of one file: its upper contents, its block
map, its entries of `copying_block_table`, and `block_copy_fifo`. Every section of
the writer that runs under one entry lock is a function of its own.

A cell of `block_status` past the end of the buffer is memory the code reads and
writes all the same; it keeps its value here.
-/

namespace FzzOverlay

/-- What does not change: the lower contents, `block_count`, and the bucket of
`copying_block_table` that `hash_min` puts a block in. -/
structure CowFile where
  lower : File
  blockCount : ℕ
  bucket : ℕ → ℕ

/-- `hash_min` of a 64-bit value for a table of `1 << ENTRY_NUM` buckets. -/
def hashMin (b : ℕ) : ℕ := b * 0x61C8864680B583EB % 2 ^ 64 / 2 ^ 44

/-- A lower file of three bytes. -/
def oneBlockFile : CowFile := ⟨.ofList [1, 2, 3], 1, hashMin⟩

/-- `struct block_copy_req`. -/
structure CopyReq where
  blockId : ℕ
  offset : ℕ
  len : ℕ

/-- The data the writer, the readers and the worker share. `table` lists the
requests latest first, `buf` is `block_buf`. -/
structure AsyncState where
  upper : File
  status : ℕ → BlockStatus
  copyCount : ℕ
  table : List CopyReq
  fifo : List ℕ
  buf : ℕ → ℕ

/-- The file of `oneBlockFile` just copied up. -/
def oneBlockStart : AsyncState := ⟨.empty, fun _ => .uncopy, 0, [], [], fun _ => 0⟩

namespace AsyncState

/-- `oi->block_status[b] = v`. -/
def setStatus (s : AsyncState) (b : ℕ) (v : BlockStatus) : AsyncState :=
  { s with status := Function.update s.status b v }

/-- `ovl_copy_up_block` on the two cached files. -/
def copyRange (s : AsyncState) (f : CowFile) (env : CopyEnv) (pos len : ℕ) : ℤ × AsyncState :=
  ((ovlCopyUpBlock env f.lower s.upper pos len).1,
    { s with upper := (ovlCopyUpBlock env f.lower s.upper pos len).2 })

/-- The first request of block `b` in its bucket. -/
def findReq (s : AsyncState) (b : ℕ) : Option CopyReq :=
  s.table.find? fun r => r.blockId == b

/-- `speed_block_copy`: execute the request of block `b`, which stays in the table. -/
def speedBlockCopy (s : AsyncState) (f : CowFile) (env : CopyEnv) (b : ℕ) : ℤ × AsyncState :=
  match s.findReq b with
  | none => (0, s)
  | some r =>
    let c := s.copyRange f env r.offset r.len
    if c.1 < 0 then c else (c.1, c.2.setStatus b .copied)

/-- The branch of `async_block_read_iter` for a block that is being copied. -/
def readerSpeed (s : AsyncState) (f : CowFile) (env : CopyEnv) (b : ℕ) : AsyncState :=
  if s.status b = .copying then (s.speedBlockCopy f env b).2 else s

/-- What `ovl_block_copy` does with one request before deleting it. The return value
of `ovl_copy_up_block` is not looked at. -/
def runReq (f : CowFile) (envs : ℕ → CopyEnv) (s : AsyncState) (r : CopyReq) : AsyncState :=
  if s.status r.blockId ≠ .copying ∨ r.len = 0 then s
  else (s.copyRange f (envs r.blockId) r.offset r.len).2.setStatus r.blockId .copied

/-- The bucket of block `b`. -/
def inBucket (s : AsyncState) (f : CowFile) (b : ℕ) : List CopyReq :=
  s.table.filter fun r => f.bucket r.blockId == f.bucket b

/-- One bucket pass of `ovl_block_copy`: every request of the bucket is dealt with,
whichever block it is for, and deleted. -/
def bucketPass (s : AsyncState) (f : CowFile) (envs : ℕ → CopyEnv) (b : ℕ) : AsyncState :=
  { (s.inBucket f b).foldl (runReq f envs) s with
    table := s.table.filter fun r => !(f.bucket r.blockId == f.bucket b) }

/-- One pass of the outer loop of `ovl_block_copy`. `kfifo_out` returns a number of
bytes, which the inner loop takes for a number of block ids, so it goes on over ids
that earlier passes left in `block_buf`. -/
def ovlBlockCopyPass (s : AsyncState) (f : CowFile) (envs : ℕ → ℕ → CopyEnv) : AsyncState :=
  let buf := fun i => if i < s.fifo.length then s.fifo.getD i 0 else s.buf i
  (List.range (8 * s.fifo.length)).foldl (fun s i => s.bucketPass f (envs i) (buf i))
    { s with fifo := [], buf := buf }

end AsyncState

/-- The request overlaps the range, as the code tests it: one end of the range lies
in the request. -/
def CopyReq.meets (r : CopyReq) (pos len : ℕ) : Prop :=
  (r.offset ≤ pos ∧ pos < r.offset + r.len) ∨
    (r.offset < pos + len ∧ pos + len ≤ r.offset + r.len)

instance (r : CopyReq) (pos len : ℕ) : Decidable (r.meets pos len) :=
  inferInstanceAs (Decidable (_ ∨ _))

/-- The request that `async_block_write_iter` leaves of one that meets the range. If
neither end of the request is in the range, `out_pos` and `out_rpos` are used without
having been assigned: `junk` is the offset and length that result. -/
def CopyReq.trim (r : CopyReq) (pos len : ℕ) (junk : ℕ × ℕ) : CopyReq :=
  let inPos := max r.offset pos
  let inRpos := min (r.offset + r.len) (pos + len)
  if inPos = r.offset then
    { r with offset := inRpos, len := r.offset + r.len - inRpos }
  else if r.offset + r.len = inRpos then { r with len := inPos - r.offset }
  else { r with offset := junk.1, len := junk.2 }

/-- Change the first request of block `b`. -/
def updateFirst (b : ℕ) (g : CopyReq → CopyReq) : List CopyReq → List CopyReq
  | [] => []
  | r :: rs => if r.blockId = b then g r :: rs else r :: updateFirst b g rs

namespace AsyncState

/-- The `COPYING` branch of a section: cut the range out of the request of block `b`. -/
def trimReq (s : AsyncState) (b pos len : ℕ) (junk : ℕ × ℕ) : AsyncState :=
  match s.findReq b with
  | none => s
  | some r =>
    if r.meets pos len then
      let s' := { s with table := updateFirst b (fun r => r.trim pos len junk) s.table }
      if (r.trim pos len junk).len = 0 then s'.setStatus b .copied else s'
    else s

/-- `hash_add` of a new request and `oi->block_status[b] = COPYING`. -/
def addReq (s : AsyncState) (r : CopyReq) : AsyncState :=
  { s with table := r :: s.table }.setStatus r.blockId .copying

/-- The section for a request that lies strictly inside one block. -/
def sameSection (s : AsyncState) (f : CowFile) (env : CopyEnv) (b : ℕ) : ℤ × AsyncState :=
  match s.status b with
  | .uncopy =>
    let c := s.copyRange f env ((b - 1) * BLOCK_SIZE) f.lower.size
    if c.1 < 0 then c else (0, c.2.setStatus b .copied)
  | .copying => s.speedBlockCopy f env b
  | .copied => (0, s)

/-- The section for the first block. `mem` says whether `kzalloc` succeeds. -/
def startSection (s : AsyncState) (f : CowFile) (mem : Bool) (junk : ℕ × ℕ) (pos : ℕ) :
    ℤ × AsyncState :=
  let b := ovlGetBlock pos
  if (b - 1) * BLOCK_SIZE < pos then
    match s.status b with
    | .uncopy =>
      if mem then
        (0, { s.addReq ⟨b, (b - 1) * BLOCK_SIZE, pos - (b - 1) * BLOCK_SIZE⟩ with
          fifo := s.fifo ++ [b] })
      else (ENOMEM.ret, s)
    | .copying =>
      (0, s.trimReq b pos (min (usub64 f.lower.size pos) (b * BLOCK_SIZE - pos)) junk)
    | .copied => (0, s)
  else (0, s)

/-- The section for the last block of a request that ends before `stop`. -/
def endSection (s : AsyncState) (f : CowFile) (mem : Bool) (junk : ℕ × ℕ) (stop : ℕ) :
    ℤ × AsyncState :=
  let b := ovlGetBlock stop
  if stop < b * BLOCK_SIZE then
    match s.status b with
    | .uncopy =>
      if mem then (0, s.addReq ⟨b, stop, b * BLOCK_SIZE - stop⟩) else (ENOMEM.ret, s)
    | .copying =>
      (0, s.trimReq b ((b - 1) * BLOCK_SIZE) (min (usub64 f.lower.size ((b - 1) * BLOCK_SIZE))
        (stop - (b - 1) * BLOCK_SIZE)) junk)
    | .copied => (0, s)
  else (0, s)

/-- The `O_APPEND` branch. -/
def appendSection (s : AsyncState) (f : CowFile) (env : CopyEnv) : ℤ × AsyncState :=
  if s.status f.blockCount = .uncopy then
    let c := s.copyRange f env (lastBlockStart f.blockCount)
      (usub64 f.lower.size (lastBlockStart f.blockCount))
    if c.1 < 0 then c else (0, c.2.setStatus f.blockCount .copied)
  else (0, s)

/-- The marking loop, from block `i` on. -/
def markCopied (blockCount last : ℕ) : ℕ → ℕ → AsyncState → AsyncState
  | 0, _, s => s
  | fuel + 1, i, s =>
    if last < i ∨ blockCount < i then s
    else markCopied blockCount last fuel (i + 1)
      { s.setStatus i .copied with copyCount := s.copyCount + 1 }

end AsyncState

/-- Both ends of the request are inside one block. -/
def sameBlock (req : WriteReq) : Bool :=
  decide (ovlGetBlock req.pos = ovlGetBlock (req.pos + req.data.length)) &&
    decide ((ovlGetBlock req.pos - 1) * BLOCK_SIZE < req.pos) &&
    decide (req.pos + req.data.length < ovlGetBlock (req.pos + req.data.length) * BLOCK_SIZE)

/-- `start_part`, in the branch for requests over several blocks. -/
def startPart (req : WriteReq) : ℕ :=
  if (ovlGetBlock req.pos - 1) * BLOCK_SIZE < req.pos then 1 else 0

/-- `end_part`, in the branch for requests over several blocks. -/
def endPart (req : WriteReq) : ℕ :=
  if req.pos + req.data.length < ovlGetBlock (req.pos + req.data.length) * BLOCK_SIZE then 1 else 0

/-- The blocks the marking loop goes over: first and last. -/
def markRange (f : CowFile) (req : WriteReq) : ℕ × ℕ :=
  if req.append then (f.blockCount + 1, f.blockCount - 1)
  else if sameBlock req then
    (ovlGetBlock req.pos + 1, ovlGetBlock (req.pos + req.data.length) - 1)
  else
    (ovlGetBlock req.pos + startPart req, ovlGetBlock (req.pos + req.data.length) - endPart req)

/-- What the rest of the kernel does during one `async_block_write_iter`. -/
structure AsyncEnv where
  copy : CopyEnv
  memStart : Bool
  memEnd : Bool
  junkStart : ℕ × ℕ
  junkEnd : ℕ × ℕ
  wr : ℕ → VfsWrite

namespace AsyncState

/-- `if (ret < 0) return ret`. -/
def orReturn (r : ℤ × AsyncState) (k : AsyncState → ℤ × AsyncState) : ℤ × AsyncState :=
  if r.1 < 0 then r else k r.2

/-- From `copy_done` on. -/
def storeAndMark (f : CowFile) (wr : ℕ → VfsWrite) (req : WriteReq) (s : AsyncState) :
    ℤ × AsyncState :=
  let w := writeLoop { WriteEnv.full with wr := wr } req.append req.data.length 0 0 req.pos
    req.data s.upper
  if w.ok then
    (w.ret, markCopied f.blockCount (markRange f req).2 (f.blockCount + 1) (markRange f req).1
      { s with upper := w.upper })
  else (EPERM.ret, { s with upper := w.upper })

/-- `async_block_write_iter` with both files open. -/
def asyncBlockWriteIter (s : AsyncState) (f : CowFile) (env : AsyncEnv) (req : WriteReq) :
    ℤ × AsyncState :=
  if req.append then orReturn (s.appendSection f env.copy) (storeAndMark f env.wr req)
  else if sameBlock req then
    orReturn (s.sameSection f env.copy (ovlGetBlock req.pos)) (storeAndMark f env.wr req)
  else
    orReturn (s.startSection f env.memStart env.junkStart req.pos) fun s =>
      orReturn (s.endSection f env.memEnd env.junkEnd (req.pos + req.data.length))
        (storeAndMark f env.wr req)

end AsyncState

end FzzOverlay

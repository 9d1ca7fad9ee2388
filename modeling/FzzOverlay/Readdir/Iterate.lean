import FzzOverlay.Readdir.Merge

/-!
# Reading a directory in batches

`ovl_iterate`, `ovl_dir_llseek` and `ovl_dir_release` of `readdir.c` with the cache that the
open files of a directory share. A cache is known by its address, and a cursor is the
number of entries before the one it points to; at the length of the list it points to the
head. Looking at a cache that was freed is `none`. A directory that turns into a merged one
was a lower directory before, so the real directory is a lower one, which has no cache.

## Main definitions

- `DirInode`, `DirFile` — the overlay inode and an open file of it
- `ovlIterate`, `ovlDirLlseek` — one call
- `dirStep` — one event at the directory: a call, or a change behind the back of the files
-/

namespace FzzOverlay

open SearchTree

/-- `struct ovl_dir_cache`. -/
structure DirCache where
  refcount : ℤ
  version : ℕ
  entries : List CacheEntry

/-- An overlay directory: what its layers have, `version` and `cache` of the inode,
`OVL_WHITEOUTS`, and the caches in memory. -/
structure DirInode where
  dir : OvlDir
  version : ℕ
  whiteouts : Bool
  cache : Option ℕ
  heap : ℕ → Option DirCache

/-- `f_pos` of an open file, and its `struct ovl_dir_file`. -/
structure DirFile where
  fPos : ℤ
  isReal : Bool
  cache : Option ℕ
  cursor : Option ℕ

/-- What `dir_emit` is given. -/
structure Dirent where
  name : List UInt8
  ino : ℕ
  type : ℕ

/-- What a call finds besides the inode and the file: the address of a new cache, the inode
numbers, which entries the caller has room for, and what the real directory does. -/
structure IterEnv where
  kzalloc : Option ℕ
  updateIno : CacheEntry → ℕ × Option Errno
  dirEmit : List Dirent → Dirent → Bool
  realEmits : List Dirent
  realPos : ℤ
  realRet : ℤ

def DirInode.store (s : DirInode) (c : ℕ) (cache : Option DirCache) : DirInode :=
  { s with heap := Function.update s.heap c cache }

section Store

variable (s : DirInode) (c : ℕ) (cache : Option DirCache)

@[simp] theorem store_heap_self : (s.store c cache).heap c = cache := by
  simp [DirInode.store]

theorem store_heap_of_ne {d : ℕ} (h : d ≠ c) : (s.store c cache).heap d = s.heap d := by
  simp [DirInode.store, Function.update_of_ne h]

@[simp] theorem store_cache : (s.store c cache).cache = s.cache := rfl

@[simp] theorem store_whiteouts : (s.store c cache).whiteouts = s.whiteouts := rfl

end Store

/-- A cache that nobody uses is freed, and the inode forgets it. -/
def DirInode.free (s : DirInode) (c : ℕ) : DirInode :=
  (if s.cache = some c then { s with cache := none } else s).store c none

section Free

variable {s : DirInode} {c d : ℕ}

theorem free_heap_self : (s.free c).heap c = none := store_heap_self _ c none

theorem free_heap_of_ne (h : d ≠ c) : (s.free c).heap d = s.heap d := by
  rw [DirInode.free, store_heap_of_ne _ _ _ h]
  split <;> rfl

theorem free_whiteouts : (s.free c).whiteouts = s.whiteouts := by
  rw [DirInode.free, store_whiteouts]
  split <;> rfl

theorem free_cache (h : (s.free c).cache = some d) : s.cache = some d ∧ d ≠ c := by
  rw [DirInode.free, store_cache] at h
  split at h
  · cases h
  · next hne => exact ⟨h, fun hdc => hne (hdc ▸ h)⟩

end Free

/-- `ovl_cache_put`. -/
def ovlCachePut (s : DirInode) (c : ℕ) : Option DirInode := do
  let cache ← s.heap c
  if cache.refcount - 1 = 0 then some (s.free c)
  else some (s.store c (some { cache with refcount := cache.refcount - 1 }))

/-- `ovl_dir_reset` behind the check of the version. -/
def resetReal (s : DirInode) (f : DirFile) : DirFile :=
  let isReal := !s.whiteouts
  if f.isReal ≠ isReal then
    if isReal then f else { f with isReal := false }
  else f

/-- `ovl_dir_reset`. -/
def ovlDirReset (s : DirInode) (f : DirFile) : Option (DirInode × DirFile) :=
  match f.cache with
  | none => some (s, resetReal s f)
  | some c => do
    let cache ← s.heap c
    if s.version ≠ cache.version then
      let s ← ovlCachePut s c
      some (s, resetReal s { f with cache := none, cursor := none })
    else some (s, resetReal s f)

/-- The reset that `ovl_iterate` and `ovl_dir_llseek` begin with. -/
def resetAtStart (s : DirInode) (f : DirFile) : Option (DirInode × DirFile) :=
  if f.fPos = 0 then ovlDirReset s f else some (s, f)

/-- The loop of `ovl_seek_cursor`: the entries that are passed from `off` on. -/
def seekCursor (pos : ℤ) : List CacheEntry → ℤ → ℕ
  | [], _ => 0
  | _ :: es, off => if off ≥ pos then 0 else seekCursor pos es (off + 1) + 1

/-- `ovl_seek_cursor`. -/
def ovlSeekCursor (s : DirInode) (f : DirFile) (pos : ℤ) : Option DirFile := do
  let c ← f.cache
  let cache ← s.heap c
  some { f with cursor := some (seekCursor pos cache.entries 0) }

/-- What a pass through the entries leaves: the entries, the number of those behind the
cursor, what was emitted, and the error. -/
structure Batch where
  entries : List CacheEntry
  passed : ℕ
  emitted : List Dirent
  ret : ℤ

/-- The loop of `ovl_iterate` from the cursor on; `out` was emitted by this call before. -/
def emitLoop (env : IterEnv) : List CacheEntry → List Dirent → Batch
  | [], out => ⟨[], 0, out, 0⟩
  | p :: es, out =>
    if p.isWhiteout then
      let b := emitLoop env es out
      { b with entries := p :: b.entries, passed := b.passed + 1 }
    else
      let ino := if p.ino = 0 then (env.updateIno p).1 else p.ino
      let err := if p.ino = 0 then (env.updateIno p).2 else none
      let p := { p with ino := ino }
      match err with
      | some e => ⟨p :: es, 0, out, e.ret⟩
      | none =>
        let ent : Dirent := ⟨p.name, p.ino, p.type⟩
        if !env.dirEmit out ent then ⟨p :: es, 0, out, 0⟩
        else
          let b := emitLoop env es (out ++ [ent])
          { b with entries := p :: b.entries, passed := b.passed + 1 }

section Calls

variable (color : BinaryTree ℕ → BinaryTree ℕ) (xino impure : Bool)

/-- A new cache, read from the layers. -/
def readCache (s : DirInode) (env : IterEnv) : DirInode × Except ℤ ℕ :=
  let s := { s with cache := none }
  match env.kzalloc with
  | none => (s, .error ENOMEM.ret)
  | some c =>
    -- memory in use is not given out again
    if (s.heap c).isSome then (s, .error ENOMEM.ret)
    else
      let r := ovlDirReadMerged color xino impure s.dir
      if r.1 ≠ 0 then (s, .error r.1)
      else ({ s.store c (some ⟨1, s.version, r.2⟩) with cache := some c }, .ok c)

/-- `ovl_cache_get`. -/
def ovlCacheGet (s : DirInode) (env : IterEnv) : Option (DirInode × Except ℤ ℕ) :=
  match s.cache with
  | none => some (readCache color xino impure s env)
  | some c => do
    let cache ← s.heap c
    if s.version = cache.version then
      some (s.store c (some { cache with refcount := cache.refcount + 1 }), .ok c)
    else some (readCache color xino impure s env)

/-- How a call leaves the inode and the file, what it emitted, and what it returns. -/
structure Call where
  inode : DirInode
  file : DirFile
  emitted : List Dirent
  ret : ℤ

/-- `ovl_iterate` when the cursor is set. -/
def iterateCache (s : DirInode) (f : DirFile) (env : IterEnv) : Option Call := do
  let c ← f.cache
  let cache ← s.heap c
  let k ← f.cursor
  let b := emitLoop env (cache.entries.drop k) []
  some ⟨s.store c (some { cache with entries := cache.entries.take k ++ b.entries }),
    { f with cursor := some (k + b.passed), fPos := f.fPos + b.passed }, b.emitted, b.ret⟩

/-- `ovl_iterate` behind `ovl_dir_reset`. -/
def iterateOpen (s : DirInode) (f : DirFile) (env : IterEnv) : Option Call :=
  if f.isReal then some ⟨s, { f with fPos := env.realPos }, env.realEmits, env.realRet⟩
  else
    match f.cache with
    | some _ => iterateCache s f env
    | none => do
      let r ← ovlCacheGet color xino impure s env
      match r.2 with
      | .error e => some ⟨r.1, f, [], e⟩
      | .ok c =>
        let f ← ovlSeekCursor r.1 { f with cache := some c } f.fPos
        iterateCache r.1 f env

/-- `ovl_iterate`, called by `iterate_dir`: `ctx->pos` is read from `f_pos` and written
back. -/
def ovlIterate (s : DirInode) (f : DirFile) (env : IterEnv) : Option Call := do
  let r ← resetAtStart s f
  iterateOpen color xino impure r.1 r.2 env

end Calls

/-- The origins of `llseek`. -/
inductive Whence where
  | set | cur | other
  deriving DecidableEq

/-- `ovl_dir_llseek` when the directory is not real. -/
def llseekMerged (s : DirInode) (f : DirFile) (offset : ℤ) (origin : Whence) :
    Option (DirFile × ℤ) :=
  if origin = .other then some (f, EINVAL.ret)
  else
    let offset := if origin = .cur then (offset + f.fPos).bmod (2 ^ 64) else offset
    if offset < 0 then some (f, EINVAL.ret)
    else if offset ≠ f.fPos then
      let f := { f with fPos := offset }
      if f.cache.isSome then (ovlSeekCursor s f offset).map (·, offset)
      else some (f, offset)
    else some (f, offset)

/-- `ovl_dir_llseek`; `realPos` and `realRet` are `f_pos` of the real file behind
`vfs_llseek` and what that returns. -/
def ovlDirLlseek (s : DirInode) (f : DirFile) (offset : ℤ) (origin : Whence)
    (realPos realRet : ℤ) : Option Call := do
  let r ← resetAtStart s f
  if r.2.isReal then some ⟨r.1, { r.2 with fPos := realPos }, [], realRet⟩
  else
    let q ← llseekMerged r.1 r.2 offset origin
    some ⟨r.1, q.1, [], q.2⟩

/-- What happens at a directory. The files have numbers, in the order they are opened. -/
inductive DirEvent where
  | open
  | release (fd : ℕ)
  | iterate (fd : ℕ) (env : IterEnv)
  | llseek (fd : ℕ) (offset : ℤ) (origin : Whence) (realPos realRet : ℤ)
  /-- The layers change, and `ovl_dentry_version_inc` is called or not. -/
  | change (dir : OvlDir) (inc : Bool)
  /-- A lower directory is copied up. -/
  | copyUp

/-- The directory and its files; a released file is `none`. -/
structure DirSys where
  inode : DirInode
  files : List (Option DirFile)

/-- The file number `fd`, if it is open. -/
def DirSys.file (s : DirSys) (fd : ℕ) : Option DirFile := (s.files[fd]?).join

def DirSys.setFile (s : DirSys) (fd : ℕ) (inode : DirInode) (f : Option DirFile) : DirSys :=
  ⟨inode, s.files.set fd f⟩

section Step

variable (color : BinaryTree ℕ → BinaryTree ℕ) (xino impure : Bool)

/-- One event, and what it emits. -/
def dirStep (s : DirSys) : DirEvent → Option (DirSys × List Dirent)
  | .open => some (⟨s.inode, s.files ++ [some ⟨0, !s.inode.whiteouts, none, none⟩]⟩, [])
  | .release fd =>
    match s.file fd with
    | none => some (s, [])
    | some f =>
      match f.cache with
      | none => some (s.setFile fd s.inode none, [])
      | some c => do
        let inode ← ovlCachePut s.inode c
        some (s.setFile fd inode none, [])
  | .iterate fd env =>
    match s.file fd with
    | none => some (s, [])
    | some f => do
      let r ← ovlIterate color xino impure s.inode f env
      some (s.setFile fd r.inode (some r.file), r.emitted)
  | .llseek fd offset origin realPos realRet =>
    match s.file fd with
    | none => some (s, [])
    | some f => do
      let r ← ovlDirLlseek s.inode f offset origin realPos realRet
      some (s.setFile fd r.inode (some r.file), [])
  | .change dir inc =>
    let version := if inc then (s.inode.version + 1) % 2 ^ 64 else s.inode.version
    some (⟨{ s.inode with dir := dir, version := version }, s.files⟩, [])
  | .copyUp => some (⟨{ s.inode with whiteouts := true }, s.files⟩, [])

/-- The events of a list one after the other, with what each emitted. -/
def dirRun : DirSys → List DirEvent → Option (DirSys × List (DirEvent × List Dirent))
  | s, [] => some (s, [])
  | s, e :: es => do
    let r ← dirStep color xino impure s e
    let q ← dirRun r.1 es
    some (q.1, (e, r.2) :: q.2)

end Step

end FzzOverlay

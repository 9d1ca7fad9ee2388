import FzzOverlay.Inode

/-!
# Copying a regular file up

The routes of `copy_up.c` for a regular file: the metadata-only copy-up, the
copy-up that sets up copy-on-write mode, and the later data copy-up of a
metadata-only inode. Whether a call into the rest of the kernel fails is an
argument, one named point for each such call.
-/

namespace FzzOverlay

open SparseFile

/-- The calls of the copy-up code that can fail, in the order of the source. -/
inductive CuPoint where
  | getattr | parentGetattr | inodeLock
  | getIndexName | setImpure
  | lockRename | prepCuCreds | createTemp | lookup | install
  | copyXattr | setOrigin | setMetacopy | setSize | setAttr
  | setNlinkUpper
  | linkSetImpure | setNlinkLower | linkLookup | doLink | linkSetNlinkUpper
  | getxattrCaps | setxattrCaps | removexattrMetacopy
  deriving DecidableEq

/-- What a copy-up depends on besides the file: mount options, the dentry and
inode attributes it looks at, the outcome of each call, the address `kmalloc`
returns, and the outcome of the copy-up of each ancestor that has no upper yet. -/
structure CopyUpEnv where
  metacopy : Bool
  tmpfile : Bool
  needIndex : Bool
  disconnected : Bool
  nlinkOne : Bool
  hasCaps : Bool
  workdir : Bool
  fails : CuPoint → Option Errno
  mem : Option ℕ
  parents : List (Option Errno)

/-- A copy-up during which nothing fails, of a file whose parent is copied up. -/
def CopyUpEnv.full (metacopy : Bool) : CopyUpEnv :=
  ⟨metacopy, true, false, false, true, false, true, fun _ => none, some 0, []⟩

/-- `struct ovl_copy_up_ctx`: the members that differ between calls. -/
structure CopyUpCtx where
  size : ℕ
  origin : Bool
  metacopy : Bool

/-- `OPEN_FMODE(flags) & FMODE_WRITE`. -/
def openFmodeWrite (flags : ℕ) : Bool := ((flags + 1) % 4).testBit 1

/-- `flags & O_TRUNC`. -/
def hasTrunc (flags : ℕ) : Bool := flags.testBit 9

def O_WRONLY : ℕ := 1

/-- `ovl_open_flags_need_copy_up`. -/
def ovlOpenFlagsNeedCopyUp (flags : ℕ) : Bool :=
  if flags = 0 then false else openFmodeWrite flags || hasTrunc flags

/-- `ovl_need_meta_copy_up` of a regular file. -/
def ovlNeedMetaCopyUp (metacopy : Bool) (flags : ℕ) : Bool :=
  if !metacopy then false
  else if decide (flags ≠ 0) && (openFmodeWrite flags || hasTrunc flags) then false
  else true

/-- A call that may fail, leaving the state as it is. -/
def CopyUpEnv.call {σ : Type} (env : CopyUpEnv) (p : CuPoint) (s : σ) : ℤ × σ :=
  match env.fails p with
  | none => (0, s)
  | some e => (e.ret, s)

/-- `if (err) return err`, then go on. -/
def cuThen {σ : Type} (r : ℤ × σ) (k : σ → ℤ × σ) : ℤ × σ :=
  if r.1 = 0 then k r.2 else r

/-- The number of blocks as `ovl_copy_up_inode` stores it, in an `unsigned int`. -/
def countBlocks (size : ℕ) : ℕ :=
  (if size % BLOCK_SIZE ≠ 0 then size / BLOCK_SIZE + 1 else size / BLOCK_SIZE) % 2 ^ 32

/-- The part of `ovl_copy_up_inode` that sets up copy-on-write mode. -/
def setupCow (env : CopyUpEnv) (c : CopyUpCtx) (s : OvlInode × UpperInode) :
    ℤ × (OvlInode × UpperInode) :=
  if !c.metacopy && decide (c.size ≠ 0) then
    let oi := { s.1 with cowStatus := true, blockCount := countBlocks c.size }
    match env.mem with
    | none => (ENOMEM.ret, (oi, s.2))
    | some addr => (0, ({ oi with blockStatus := some ⟨addr, fun _ => .uncopy⟩ }, s.2))
  else (0, s)

/-- `ovl_copy_up_inode`, on the overlay inode and the inode of `temp`. -/
def ovlCopyUpInode (env : CopyUpEnv) (c : CopyUpCtx) (oi : OvlInode) (temp : UpperInode) :
    ℤ × (OvlInode × UpperInode) :=
  cuThen (setupCow env c (oi, temp)) fun s =>
  cuThen (env.call .copyXattr s) fun s =>
  cuThen (if c.origin then env.call .setOrigin s else (0, s)) fun s =>
  cuThen (if c.metacopy then
    cuThen (env.call .setMetacopy s) fun s => (0, (s.1, { s.2 with metacopy := true }))
    else (0, s)) fun s =>
  cuThen (if c.metacopy then
    cuThen (env.call .setSize s) fun s =>
      (0, (s.1, { s.2 with data := s.2.data.truncate c.size }))
    else (0, s)) fun s =>
  env.call .setAttr s

/-- A newly created regular file. -/
def newTemp : UpperInode := ⟨.empty, false⟩

/-- `ovl_copy_up_inode` on a new file and the installation of that file as the
upper inode. -/
def copyUpTemp (env : CopyUpEnv) (c : CopyUpCtx) (f : OvlFile) : ℤ × OvlFile :=
  let r := ovlCopyUpInode env c f.oi newTemp
  let f := { f with oi := r.2.1 }
  if r.1 ≠ 0 then (r.1, f)
  else
    cuThen (env.call .lookup f) fun f =>
    cuThen (env.call .install f) fun f =>
      (0, { f with
        upper := some r.2.2
        oi := { f.oi with upperdata := if c.metacopy then f.oi.upperdata else true } })

/-- `ovl_copy_up_tmpfile`. -/
def ovlCopyUpTmpfile (env : CopyUpEnv) (c : CopyUpCtx) (f : OvlFile) : ℤ × OvlFile :=
  cuThen (env.call .prepCuCreds f) fun f =>
  cuThen (env.call .createTemp f) fun f =>
  copyUpTemp env c f

/-- `ovl_copy_up_workdir`. -/
def ovlCopyUpWorkdir (env : CopyUpEnv) (c : CopyUpCtx) (f : OvlFile) : ℤ × OvlFile :=
  cuThen (env.call .lockRename f) fun f =>
  cuThen (env.call .prepCuCreds f) fun f =>
  cuThen (env.call .createTemp f) fun f =>
  copyUpTemp env c f

/-- `ovl_do_copy_up`. -/
def ovlDoCopyUp (env : CopyUpEnv) (c : CopyUpCtx) (f : OvlFile) : ℤ × OvlFile :=
  let c := { c with origin := env.nlinkOne || env.needIndex }
  cuThen (if env.needIndex then env.call .getIndexName f
    else if env.disconnected then (Errno.ret EIO, f)
    else env.call .setImpure f) fun f =>
  cuThen (if env.tmpfile then ovlCopyUpTmpfile env c f else ovlCopyUpWorkdir env c f) fun f =>
  if env.needIndex then env.call .setNlinkUpper f
  else (0, { f with upperAlias := true })

/-- `ovl_link_up`. -/
def ovlLinkUp (env : CopyUpEnv) (f : OvlFile) : ℤ × OvlFile :=
  cuThen (env.call .linkSetImpure f) fun f =>
  cuThen (env.call .setNlinkLower f) fun f =>
  cuThen (env.call .linkLookup f) fun f =>
  cuThen (env.call .doLink f) fun f =>
  env.call .linkSetNlinkUpper { f with upperAlias := true }

/-- `ovl_copy_up_data`: both of its first two statements return. -/
def ovlCopyUpData (len : ℕ) (upper : File) : ℤ × File :=
  if len = 0 then (0, upper) else (0, upper)

/-- `ovl_copy_up_meta_inode_data`. -/
def ovlCopyUpMetaInodeData (env : CopyUpEnv) (c : CopyUpCtx) (f : OvlFile) : ℤ × OvlFile :=
  match f.upper, f.lowerstack with
  | none, _ => (Errno.ret EIO, f)
  | some _, [] => (Errno.ret EIO, f)
  | some u, _ :: _ =>
    cuThen (if c.size ≠ 0 then env.call .getxattrCaps f else (0, f)) fun f =>
    cuThen ((ovlCopyUpData c.size u.data).1,
      f.setUpperData (ovlCopyUpData c.size u.data).2) fun f =>
    cuThen (if env.hasCaps && decide (c.size ≠ 0) then env.call .setxattrCaps f
      else (0, f)) fun f =>
    cuThen (env.call .removexattrMetacopy f) fun f =>
      (0, { f with
        upper := f.upper.map fun u => { u with metacopy := false }
        oi := { f.oi with upperdata := true } })

/-- `ovl_dentry_needs_data_copy_up_locked`. -/
def needsDataCopyUpLocked (f : OvlFile) (flags : ℕ) : Bool :=
  if !ovlOpenFlagsNeedCopyUp flags then false else !f.oi.upperdata

/-- `ovl_already_copied_up_locked`. -/
def alreadyCopiedUpLocked (env : CopyUpEnv) (f : OvlFile) (flags : ℕ) : Bool :=
  f.upper.isSome && (f.upperAlias || env.disconnected) && !needsDataCopyUpLocked f flags

/-- `ovl_already_copied_up`, with the `ovl_dentry_needs_data_copy_up` it calls. -/
def ovlAlreadyCopiedUp (env : CopyUpEnv) (f : OvlFile) (flags : ℕ) : Bool :=
  f.upper.isSome && (f.upperAlias || env.disconnected) &&
    !(if !ovlOpenFlagsNeedCopyUp flags then false else !f.ovlHasUpperdata)

/-- `ovl_copy_up_one` of a regular file. -/
def ovlCopyUpOne (env : CopyUpEnv) (f : OvlFile) (flags : ℕ) : ℤ × OvlFile :=
  if !env.workdir then (EROFS.ret, f)
  else
    cuThen (env.call .getattr f) fun f =>
    cuThen (if env.disconnected then (0, f) else env.call .parentGetattr f) fun f =>
    let c : CopyUpCtx :=
      ⟨if hasTrunc flags then 0 else (f.lowerAt f.ovlPathLower).size, false,
        ovlNeedMetaCopyUp env.metacopy flags⟩
    cuThen (env.call .inodeLock f) fun f =>
    if alreadyCopiedUpLocked env f flags then (0, f)
    else
      cuThen (if f.upper.isNone then ovlDoCopyUp env c f else (0, f)) fun f =>
      cuThen (if !env.disconnected && !f.upperAlias then ovlLinkUp env f else (0, f)) fun f =>
      if needsDataCopyUpLocked f flags then ovlCopyUpMetaInodeData env c f else (0, f)

/-- The `while (!err)` loop of `ovl_copy_up_flags`: one pass for each ancestor
without an upper, then passes for the file itself. -/
def copyUpLoop (env : CopyUpEnv) (flags : ℕ) :
    ℕ → List (Option Errno) → OvlFile → Outcome (ℤ × OvlFile)
  | 0, _, _ => .running
  | fuel + 1, parents, f =>
    if ovlAlreadyCopiedUp env f flags then .ret (0, f)
    else
      match parents with
      | some e :: _ => .ret (e.ret, f)
      | none :: parents => copyUpLoop env flags fuel parents f
      | [] =>
        let r := ovlCopyUpOne env f flags
        if r.1 = 0 then copyUpLoop env flags fuel [] r.2 else .ret r

/-- `ovl_copy_up_flags`. The last pass finds the file copied up. -/
def ovlCopyUpFlags (env : CopyUpEnv) (f : OvlFile) (flags : ℕ) : Outcome (ℤ × OvlFile) :=
  let parents := if env.disconnected then [] else env.parents
  copyUpLoop env flags (parents.length + 2) parents f

/-- `ovl_copy_up_with_data`. -/
def ovlCopyUpWithData (env : CopyUpEnv) (f : OvlFile) : Outcome (ℤ × OvlFile) :=
  ovlCopyUpFlags env f O_WRONLY

end FzzOverlay

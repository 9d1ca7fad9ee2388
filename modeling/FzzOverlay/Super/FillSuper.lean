import FzzOverlay.Lib.Act
import FzzOverlay.Namei.Lookup
import FzzOverlay.Super.Options

/-!
# Mounting

`ovl_fill_super`, `ovl_free_fs` and `ovl_remount` of `super.c` with what they call. A
directory stands for its dentry and its inode, and paths are given by what `kern_path`
finds for the names that `ovl_unescape` and `ovl_split_lowerdirs` leave. What
`ovl_workdir_create`, `ovl_verify_origin`, `ovl_verify_upper` and `ovl_indexdir_cleanup`
return, and the other calls, are part of the environment.

## Main definitions

- `DirTree`, `MountEnv` — the directories, and what the calls made on the way give
- `Mounting`, `MountState` — `struct ovl_fs` with the superblock, and what mounts share
- `ovlFillSuper`, `ovlFreeFs` — mounting and its undoing
-/

namespace FzzOverlay

open Act

deriving instance DecidableEq for Errno

def ENOTDIR : Errno := ⟨20, by decide⟩

/-- Directories with `dget_parent`. The root of a filesystem is its own parent. -/
structure DirTree (δ : Type) where
  parent : δ → δ
  depth : δ → ℕ
  depth_parent : ∀ d, parent d ≠ d → depth (parent d) < depth d

/-- What `ovl_can_decode_fh` returns: 0, `FILEID_INO32_GEN` or -1. -/
inductive FhType where
  | none | ino32 | other
  deriving DecidableEq

/-- The calls made while mounting that do nothing but succeed or fail. -/
inductive MountCall where
  | kzalloc | prepareCreds
  | upperTrap | cloneUpper
  | workTrap | wantWrite | workdirTrap
  | kstrdup | allocStack | allocLayers | lowerTrap (i : ℕ) | cloneLower (i : ℕ) | allocEntry
  | indexWantWrite | verifyOrigin | indexTrap | verifyUpper | indexdirCleanup
  | newRoot

/-- What mounting finds. `sameMnt` says that the upper and the work directory are under one
mount, `workdir` and `indexdir` are what `ovl_workdir_create` returns for them. -/
structure MountEnv (δ σ ν : Type) where
  tree : DirTree δ
  par : ModuleParams
  mem : List UInt8 → Bool
  opts : List (List UInt8)
  call : MountCall → Option Errno
  upperPath : Except Errno δ
  workPath : Except Errno δ
  lowerPaths : List (Except Errno δ)
  weird : δ → Bool
  isDir : δ → Bool
  remote : δ → Bool
  sb : δ → σ
  sbRdonly : σ → Bool
  fhType : σ → FhType
  uuid : σ → ν
  sStackDepth : σ → ℕ
  statfs : δ → Except Errno ℕ
  bdev : ℕ → Except Errno ℕ
  sameMnt : Bool
  workdir : Option δ
  indexdir : Option δ
  dType : Except Errno Bool
  tmpfile : Bool
  xattr : Bool

/-- `struct ovl_fs` and its superblock. The layers have their roots in `lowerRoots`, and the
trap of a layer is that of its root. -/
structure Mounting (δ σ : Type) where
  config : OvlConfig
  upper : Option δ
  workbasedir : Option δ
  workdir : Option δ
  indexdir : Option δ
  upperdirLocked : Bool
  workdirLocked : Bool
  upperdirTrap : Option δ
  workbasedirTrap : Option δ
  workdirTrap : Option δ
  indexdirTrap : Option δ
  lowerRoots : List δ
  lowerLayers : List (OvlLayer σ)
  lowerFs : List (OvlSb σ)
  xinoBits : ℕ
  namelen : ℕ
  tmpfile : Bool
  noxattr : Bool
  rdonly : Bool
  stackDepth : ℕ
  exportOp : Bool

/-- The mount that is being made, the directories with `I_OVL_INUSE`, whether `WARN_ON` in
`ovl_inuse_unlock` fired, and the trap inodes of the superblock that are referenced. -/
structure MountState (δ σ : Type) where
  fs : Mounting δ σ
  inuse : δ → Bool
  warned : Bool
  traps : List δ

abbrev MountM (δ σ : Type) := Act (MountState δ σ) Errno

section Mount

variable {δ σ ν : Type} [DecidableEq δ] [DecidableEq σ] [DecidableEq ν]
  (env : MountEnv δ σ ν)

/-- A call that may fail. -/
def MountEnv.callTo (c : MountCall) : MountM δ σ Unit := check (env.call c)

/-- A change of the mount alone. -/
def setFs (f : Mounting δ σ → Mounting δ σ) : MountM δ σ Unit :=
  modify fun s => { s with fs := f s.fs }

/-- A change of the configuration alone. -/
def setConfig (f : OvlConfig → OvlConfig) : MountM δ σ Unit :=
  setFs fun m => { m with config := f m.config }

/-- The result of a call that gives a value or fails. -/
def ofExcept {α : Type} : Except Errno α → MountM δ σ α
  | .ok a => pure a
  | .error e => fail e

/-- `ovl_inuse_trylock`. -/
def ovlInuseTrylock (d : δ) : MountM δ σ Bool := do
  let s ← get
  if s.inuse d then pure false
  else do
    modify fun s => { s with inuse := Function.update s.inuse d true }
    pure true

/-- `ovl_inuse_unlock`. -/
def ovlInuseUnlock (d : δ) : MountM δ σ Unit :=
  modify fun s =>
    { s with inuse := Function.update s.inuse d false, warned := s.warned || !s.inuse d }

/-- `ovl_report_in_use`, which only warns without an index. -/
def ovlReportInUse : MountM δ σ Unit := do
  let s ← get
  ensure EBUSY (s.fs.config.index = false)

/-- How a directory is marked, with where the mount keeps that it has done so. -/
def markInuse (d : δ) (locked : Mounting δ σ → Mounting δ σ) : MountM δ σ Unit := do
  if ← ovlInuseTrylock d then setFs locked else ovlReportInUse

/-- `ovl_mount_dir_noesc`. -/
def ovlMountDirNoesc (path : Except Errno δ) : MountM δ σ δ := do
  let d ← ofExcept path
  ensure EINVAL (env.weird d = false)
  ensure EINVAL (env.isDir d = true)
  pure d

/-- `ovl_mount_dir`. -/
def ovlMountDir (path : Except Errno δ) : MountM δ σ δ := do
  let d ← ovlMountDirNoesc env path
  ensure EINVAL (env.remote d = false)
  pure d

def ovlCheckNamelen (d : δ) : MountM δ σ Unit := do
  let n ← ofExcept (env.statfs d)
  setFs fun m => { m with namelen := max m.namelen n }

/-- `ovl_get_trap_inode`: a directory with a trap conflicts with another one. -/
def ovlGetTrapInode (c : MountCall) (dir : δ) : MountM δ σ Unit := do
  ensure ENOTDIR (env.isDir dir = true)
  let s ← get
  ensure ELOOP (dir ∉ s.traps)
  env.callTo c
  modify fun s => { s with traps := dir :: s.traps }

/-- `ovl_setup_trap`, with where the trap is kept. -/
def ovlSetupTrap (c : MountCall) (dir : δ) (keep : Mounting δ σ → Mounting δ σ) :
    MountM δ σ Unit := do
  ovlGetTrapInode env c dir
  setFs keep

/-- `ovl_get_upper`. -/
def ovlGetUpper : MountM δ σ δ := do
  let d ← ovlMountDir env env.upperPath
  ensure EINVAL (env.sbRdonly (env.sb d) = false)
  ovlCheckNamelen env d
  ovlSetupTrap env .upperTrap d fun m => { m with upperdirTrap := some d }
  env.callTo .cloneUpper
  setFs fun m => { m with upper := some d }
  markInuse d fun m => { m with upperdirLocked := true }
  pure d

/-- The ancestors of a directory, nearest first, without itself. -/
def DirTree.ancestorsUpTo (t : DirTree δ) : ℕ → δ → List δ
  | 0, _ => []
  | n + 1, d => if t.parent d = d then [] else t.parent d :: t.ancestorsUpTo n (t.parent d)

def DirTree.ancestors (t : DirTree δ) (d : δ) : List δ := t.ancestorsUpTo (t.depth d) d

/-- `ovl_workdir_ok`: `lock_rename` finds none of the two below the other. -/
def ovlWorkdirOk (workdir upperdir : δ) : Bool :=
  workdir ≠ upperdir && workdir ∉ env.tree.ancestors upperdir &&
    upperdir ∉ env.tree.ancestors workdir

/-- What `ovl_make_workdir` finds out about the upper filesystem, with the work directory
`w`. -/
def probeUpper (w : δ) : MountM δ σ Unit := do
  let _ ← ofExcept env.dType
  setFs fun m => { m with tmpfile := env.tmpfile }
  doIf (!env.xattr) (setFs fun m => { m with
    noxattr := true, config := { m.config with index := false, metacopy := false } })
  doIf (env.fhType (env.sb w) = .none) (setConfig fun c => { c with index := false })
  doIf (env.fhType (env.sb w) ≠ .ino32) (setFs fun m => { m with xinoBits := 0 })
  setConfig fun c => { c with nfsExport := c.nfsExport && c.index }

/-- `ovl_make_workdir`. -/
def ovlMakeWorkdir : MountM δ σ Unit := do
  env.callTo .wantWrite
  setFs fun m => { m with workdir := env.workdir }
  match env.workdir with
  | none => pure ()
  | some w => do
    ovlSetupTrap env .workdirTrap w fun m => { m with workdirTrap := some w }
    probeUpper env w

/-- `ovl_get_workdir`. -/
def ovlGetWorkdir (upper : δ) : MountM δ σ Unit := do
  let w ← ovlMountDir env env.workPath
  ensure EINVAL (env.sameMnt = true)
  ensure EINVAL (ovlWorkdirOk env w upper = true)
  setFs fun m => { m with workbasedir := some w }
  markInuse w fun m => { m with workdirLocked := true }
  ovlSetupTrap env .workTrap w fun m => { m with workbasedirTrap := some w }
  ovlMakeWorkdir env

/-- What `ovl_lower_dir` gives up for a filesystem without file handles. -/
def dropHandles (d : δ) (c : OvlConfig) : OvlConfig :=
  if (c.nfsExport || (c.index && c.upperdir.isSome)) && env.fhType (env.sb d) = .none then
    { c with index := false, nfsExport := false }
  else c

/-- `ovl_lower_dir`. -/
def ovlLowerDir (path : Except Errno δ) : MountM δ σ δ := do
  let d ← ovlMountDirNoesc env path
  ovlCheckNamelen env d
  setFs fun m => { m with stackDepth := max m.stackDepth (env.sStackDepth (env.sb d)) }
  setConfig (dropHandles env d)
  doIf (env.fhType (env.sb d) ≠ .ino32) (setFs fun m => { m with xinoBits := 0 })
  pure d

/-- The loop of `ovl_get_lowerstack` over the names. -/
def lowerDirs : List (Except Errno δ) → MountM δ σ (List δ)
  | [] => pure []
  | path :: paths => do
    let d ← ovlLowerDir env path
    let ds ← lowerDirs paths
    pure (d :: ds)

/-- The part of a mount that fsids are about. -/
def Mounting.ofs (m : Mounting δ σ) : OvlFs σ where
  upperMnt := m.upper.map env.sb
  lowerFs := m.lowerFs
  lowerLayers := m.lowerLayers
  xinoBits := m.xinoBits
  index := m.config.index
  nfsExport := m.config.nfsExport
  xino := m.config.xino

/-- A mount with that part replaced. -/
def Mounting.withOfs (m : Mounting δ σ) (ofs : OvlFs σ) : Mounting δ σ :=
  { m with
    lowerFs := ofs.lowerFs
    lowerLayers := ofs.lowerLayers
    xinoBits := ofs.xinoBits
    config := { m.config with index := ofs.index, nfsExport := ofs.nfsExport, xino := ofs.xino } }

/-- `ovl_get_fsid` for the layer `i`. -/
def getFsid (i : ℕ) (d : δ) : MountM δ σ ℤ := do
  let s ← get
  let r := ovlGetFsid env.uuid (env.bdev i) (s.fs.ofs env) (env.sb d)
  setFs fun m => m.withOfs r.2
  match env.bdev i with
  | .error e => if r.1 < 0 then fail e else pure r.1
  | .ok _ => pure r.1

/-- A round of the loop of `ovl_get_lower_layers`. The reference on the trap is dropped when
the mount cannot be cloned, and kept when the directory is in use. -/
def getLowerLayer (i : ℕ) (d : δ) : MountM δ σ Unit := do
  let fsid ← getFsid env i d
  ovlGetTrapInode env (.lowerTrap i) d
  let s ← get
  doIf (s.inuse d) ovlReportInUse
  onError (env.callTo (.cloneLower i)) (modify fun s => { s with traps := s.traps.erase d })
  setFs fun m => { m with
    lowerRoots := m.lowerRoots ++ [d]
    lowerLayers := m.lowerLayers ++ [⟨env.sb d, fsid.toNat⟩] }

/-- The loop of `ovl_get_lower_layers`, from the layer `i` on. -/
def lowerLayersFrom : ℕ → List δ → MountM δ σ Unit
  | _, [] => pure ()
  | i, d :: stack => do
    getLowerLayer env i d
    lowerLayersFrom (i + 1) stack

/-- `ovl_get_lower_layers`, on directories. -/
def getLowerLayers (stack : List δ) : MountM δ σ Unit := do
  env.callTo .allocLayers
  lowerLayersFrom env 0 stack
  setFs fun m => m.withOfs (setXinoBits (m.ofs env))

def FILESYSTEM_MAX_STACK_DEPTH : ℕ := 2

/-- `ovl_get_lowerstack`. -/
def ovlGetLowerstack : MountM δ σ Unit := do
  env.callTo .kstrdup
  ensure EINVAL (env.lowerPaths.length ≤ OVL_MAX_STACK)
  let s ← get
  ensure EINVAL (s.fs.config.upperdir.isSome ∨ env.lowerPaths.length ≠ 1)
  setConfig fun c =>
    if c.upperdir.isNone && c.nfsExport && c.redirectFollow then { c with nfsExport := false }
    else c
  env.callTo .allocStack
  let stack ← lowerDirs env env.lowerPaths
  setFs fun m => { m with stackDepth := m.stackDepth + 1 }
  let s ← get
  ensure EINVAL (s.fs.stackDepth ≤ FILESYSTEM_MAX_STACK_DEPTH)
  getLowerLayers env stack
  env.callTo .allocEntry

/-- `ovl_get_indexdir`. What verifying the xattr of older kernels returns is overwritten. -/
def ovlGetIndexdir : MountM δ σ Unit := do
  env.callTo .indexWantWrite
  env.callTo .verifyOrigin
  setFs fun m => { m with indexdir := env.indexdir }
  match env.indexdir with
  | none => pure ()
  | some d => do
    ovlSetupTrap env .indexTrap d fun m => { m with indexdirTrap := some d }
    env.callTo .verifyUpper
    env.callTo .indexdirCleanup

/-- `ovl_lookup_trap_inode` and `ovl_is_inuse` for the ancestors of a layer root. -/
def checkAncestors : List δ → MountM δ σ Unit
  | [] => pure ()
  | d :: ds => do
    let s ← get
    ensure ELOOP (d ∉ s.traps)
    doIf (s.inuse d) ovlReportInUse
    checkAncestors ds

/-- `ovl_check_layer`. -/
def ovlCheckLayer (d : Option δ) : MountM δ σ Unit :=
  match d with
  | none => pure ()
  | some d => checkAncestors (env.tree.ancestors d)

/-- The loop of `ovl_check_overlapping_layers`. -/
def checkLayers : List δ → MountM δ σ Unit
  | [] => pure ()
  | d :: ds => do
    ovlCheckLayer env (some d)
    checkLayers ds

def ovlCheckOverlappingLayers : MountM δ σ Unit := do
  let s ← get
  doIf s.fs.upper.isSome do
    ovlCheckLayer env s.fs.upper
    ovlCheckLayer env s.fs.workbasedir
  checkLayers env s.fs.lowerRoots

/-- `ovl_force_readonly`. -/
def Mounting.forceReadonly (m : Mounting δ σ) : Bool := m.upper.isNone || m.workdir.isNone

/-- The traps that `struct ovl_fs` refers to. -/
def Mounting.trapsOf (m : Mounting δ σ) : List δ :=
  m.lowerRoots ++ m.workbasedirTrap.toList ++ m.indexdirTrap.toList ++ m.workdirTrap.toList ++
    m.upperdirTrap.toList

/-- `ovl_inuse_unlock` of a directory, which may be `NULL`, if it was marked. -/
def unlockIf (locked : Bool) : Option δ → MountM δ σ Unit
  | some d => doIf locked (ovlInuseUnlock d)
  | none => pure ()

/-- `ovl_free_fs`. -/
def ovlFreeFs : MountM δ σ Unit := do
  let s ← get
  modify fun s => { s with traps := s.traps.diff s.fs.trapsOf }
  unlockIf s.fs.workdirLocked s.fs.workbasedir
  unlockIf s.fs.upperdirLocked s.fs.upper

/-- The part of `ovl_fill_super` about the upper and the work directory. -/
def fillUpper : MountM δ σ Unit := do
  let s ← get
  if s.fs.config.upperdir.isSome then do
    ensure EINVAL (s.fs.config.workdir.isSome)
    let d ← ovlGetUpper env
    ovlGetWorkdir env d
    setFs fun m => { m with
      rdonly := m.rdonly || m.workdir.isNone, stackDepth := env.sStackDepth (env.sb d) }
  else pure ()

/-- The part of `ovl_fill_super` about the index. -/
def fillIndex : MountM δ σ Unit := do
  setFs fun m => { m with rdonly := m.rdonly || m.upper.isNone }
  let s ← get
  if !s.fs.forceReadonly && s.fs.config.index then do
    ovlGetIndexdir env
    setFs fun m => if m.indexdir.isNone then { m with workdir := none, rdonly := true } else m
  else pure ()

/-- How `ovl_fill_super` settles the options that depend on each other. -/
def Mounting.settle (m : Mounting δ σ) : Mounting δ σ :=
  let index := m.config.index && m.indexdir.isSome
  let nfsExport := m.config.nfsExport && !(m.indexdir.isNone && m.upper.isSome) &&
    !m.config.metacopy
  { m with
    config := { m.config with index := index, nfsExport := nfsExport }
    exportOp := nfsExport }

/-- `ovl_fill_super` after `struct ovl_fs` was allocated. -/
def fillSuperBody : MountM δ σ Unit := do
  env.callTo .prepareCreds
  let c ← ofExcept (ovlParseOpt env.par env.mem env.opts)
  setFs fun m => { m with config := c }
  ensure EINVAL (c.lowerdir.isSome)
  setFs fun m => { m with xinoBits := if c.xino ≠ .off then 32 else 0 }
  fillUpper env
  ovlGetLowerstack env
  fillIndex env
  ovlCheckOverlappingLayers env
  setFs Mounting.settle
  env.callTo .newRoot

/-- `ovl_fill_super`. -/
def ovlFillSuper : MountM δ σ Unit := do
  env.callTo .kzalloc
  onError (fillSuperBody env) ovlFreeFs

/-- A `struct ovl_fs` as `kzalloc` gives it, with a superblock mounted as asked for. -/
def newMounting (rdonly : Bool) : Mounting δ σ where
  config := ⟨none, none, none, false, false, false, [], false, false, .off, false⟩
  upper := none
  workbasedir := none
  workdir := none
  indexdir := none
  upperdirLocked := false
  workdirLocked := false
  upperdirTrap := none
  workbasedirTrap := none
  workdirTrap := none
  indexdirTrap := none
  lowerRoots := []
  lowerLayers := []
  lowerFs := []
  xinoBits := 0
  namelen := 0
  tmpfile := false
  noxattr := false
  rdonly := rdonly
  stackDepth := 0
  exportOp := false

/-- `ovl_remount` for the flags asked for, and the flags that the superblock has then. -/
def ovlRemount (m : Mounting δ σ) (rdonly : Bool) : Except Errno (Mounting δ σ) :=
  if !rdonly && m.forceReadonly then .error EROFS else .ok { m with rdonly := rdonly }

end Mount

section Example

/-- A root directory with the upper directory 1, the work directories 2 to 4 and the lower
directory 5. -/
def smallTree : DirTree (Fin 6) where
  parent := fun d => if d = 3 ∨ d = 4 then 2 else 0
  depth := fun d => if d = 3 ∨ d = 4 then 2 else if d = 0 then 0 else 1
  depth_parent := by decide

/-- A mount of these directories on one filesystem, on which every call succeeds. -/
def smallMount : MountEnv (Fin 6) (Fin 1) ℕ where
  tree := smallTree
  par := ⟨false, true, false, false, false, false⟩
  mem _ := true
  opts := [ascii "lowerdir=/l", ascii "upperdir=/u", ascii "workdir=/w", ascii "index=on",
    ascii "nfs_export=on"]
  call _ := none
  upperPath := .ok 1
  workPath := .ok 2
  lowerPaths := [.ok 5]
  weird _ := false
  isDir _ := true
  remote _ := false
  sb _ := 0
  sbRdonly _ := false
  fhType _ := .ino32
  uuid _ := 7
  sStackDepth _ := 0
  statfs _ := .ok 255
  bdev i := .ok i
  sameMnt := true
  workdir := some 3
  indexdir := some 4
  dType := .ok true
  tmpfile := true
  xattr := true

def unmounted : MountState (Fin 6) (Fin 1) := ⟨newMounting false, fun _ => false, false, []⟩

end Example

end FzzOverlay

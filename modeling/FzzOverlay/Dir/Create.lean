import FzzOverlay.Dir.Remove

/-!
# Creating a name

`ovl_create_object` of `dir.c` and what it calls, for regular files, directories, symbolic
links and special files, and `ovl_create_or_link` for hard links too. The parent has an
upper directory, so that copying it up does nothing. A `BUG_ON` of the kernel is an outcome
of its own.

## Main definitions

- `Cattr`, `CreateEnv` — what is created, and what the calls made on the way give
- `ovlCreateUpper`, `ovlCreateOverWhiteout` — the two ways to create an entry
- `ovlCreateObject` — `ovl_create_object`
-/

namespace FzzOverlay

open Act

/-- How an operation ends when it does not succeed: with an error, or in a `BUG_ON`. -/
inductive DirFault where
  | errno (e : Errno)
  | bug

abbrev CreateM := Act DirState DirFault

/-- The calls that only creation makes. -/
inductive CreateCall where
  | newInode | setImpure | prepareCreds | createFilesAs
  | create | mkdirLookup | instantiated | getInode
  | aclCreate | setMode | aclAccess | aclDefault
  deriving DecidableEq

/-- `struct ovl_cattr`: the type in `mode`, with `S_IFCHR` and `WHITEOUT_DEV` a whiteout, and
the inode to link. -/
structure Cattr where
  kind : RealKind
  hardlink : Option ℕ

/-- What creation finds besides the layers. `setsMode` says that the mode which a new inode
got differs from the one asked for, and that it is not a symbolic link. -/
structure CreateEnv extends DirEnv where
  fails : CreateCall → Option Errno
  created : ℕ
  createdTemp : List UInt8
  setsMode : Bool

/-- `ovl_type_merge` of a directory. -/
def ovlTypeMerge (p : OvlEntry) : Bool :=
  if p.upper.isSome then !p.lowerstack.isEmpty else decide (1 < p.lowerstack.length)

/-- `ovl_dentry_is_whiteout`. -/
def OvlDentry.isWhiteout (d : OvlDentry) : Bool := !d.found.positive && d.found.isOpaque

section Create

variable (env : CreateEnv) (a : Cattr)

/-- A call that may fail. -/
def CreateEnv.callTo (c : CreateCall) : DirM Unit := check (env.fails c)

/-- The inode that an entry gets. -/
def Cattr.target : ℕ := a.hardlink.getD env.created

/-- `ovl_create_real` for the entry `name` of `dir`, which has the inode `i` so far. -/
def ovlCreateReal (dir : ℕ) (name : List UInt8) (i : Option ℕ) : DirM Unit := do
  ensure ESTALE (i = none)
  env.callTo .create
  doIf a.hardlink.isNone (setInode env.created (newInode a.kind))
  setChild dir name (some (a.target env))
  doIf (a.hardlink.isNone && a.kind = .dir) (env.callTo .mkdirLookup)
  env.callTo .instantiated

/-- `ovl_set_opaque` for a new directory. An upper filesystem without extended attributes
was noticed when it was mounted. -/
def ovlSetOpaque : DirM Unit := do
  let s ← get
  ensure EIO (s.mount.noxattr = false)
  env.call .setOpaque
  setInode env.created { newInode a.kind with isOpaque := true }

/-- `ovl_instantiate`: the overlay inode of a hard link is there already. -/
def ovlInstantiate : DirM Unit := doIf a.hardlink.isNone (env.callTo .getInode)

/-- `ovl_create_upper`. -/
def ovlCreateUpper (d : OvlDentry) (upperdir : ℕ) : DirM Unit := do
  let i ← lookupOneLen env.toDirEnv .lookupUpper upperdir d.name
  ovlCreateReal env a upperdir d.name i
  doIf (ovlTypeMerge d.parent && a.hardlink.isNone && a.kind = .dir)
    (ignore (ovlSetOpaque env a))
  onError (ovlInstantiate env a) (ovlCleanup env.toDirEnv .createCleanup upperdir d.name)

/-- The part of `ovl_create_over_whiteout` between the new inode and the rename. -/
def prepareCreated : DirM Unit := do
  doIf (a.hardlink.isNone && env.setsMode) (env.callTo .setMode)
  doIf a.hardlink.isNone do
    env.callTo .aclAccess
    env.callTo .aclDefault
  doIf (a.hardlink.isNone && a.kind = .dir) (ovlSetOpaque env a)

/-- `ovl_do_rename` of the new inode: a directory changes places with the whiteout. -/
def renameCreated (workdir upperdir : ℕ) (name : List UInt8) : DirM Unit :=
  if a.hardlink.isNone && a.kind = .dir then
    doExchange env.toDirEnv .rename workdir env.createdTemp upperdir name
  else doRename env.toDirEnv .rename workdir env.createdTemp upperdir name

/-- `ovl_create_over_whiteout` up to the rename and the removal of the whiteout. -/
def replaceWhiteout (d : OvlDentry) (workdir upperdir : ℕ) : DirM Unit := do
  doIf a.hardlink.isNone (env.callTo .aclCreate)
  ovlLockRenameWorkdir env.toDirEnv .lockRename workdir upperdir
  let upper ← lookupOneLen env.toDirEnv .lookupUpper upperdir d.name
  let s ← get
  ensure ESTALE (upper.map (fun i => (s.fs.inode 0 i).kind) = some .whiteout)
  let i ← lookupOneLen env.toDirEnv .lookupTemp workdir env.createdTemp
  ensure EIO (i = none)
  ovlCreateReal env a workdir env.createdTemp i
  onError (do
    prepareCreated env a
    renameCreated env a workdir upperdir d.name)
    (ovlCleanup env.toDirEnv .createCleanup workdir env.createdTemp)
  doIf (a.hardlink.isNone && a.kind = .dir)
    (ovlCleanup env.toDirEnv .cleanup workdir env.createdTemp)

/-- `ovl_create_over_whiteout`. When `ovl_instantiate` fails, the new entry is cleaned up
as one of the work directory; it is in the upper directory by then, and `may_delete` has a
`BUG_ON` for that. -/
def ovlCreateOverWhiteout (d : OvlDentry) (upperdir : ℕ) : CreateM Unit :=
  match env.workdir with
  | none => fail (.errno EROFS)
  | some workdir => do
    mapError .errno (replaceWhiteout env a d workdir upperdir)
    mapError (fun _ => .bug) (ovlInstantiate env a)

/-- `ovl_create_or_link` in a parent with the upper directory `upperdir`. -/
def ovlCreateOrLink (d : OvlDentry) (upperdir : ℕ) (origin : Bool) : CreateM Unit := do
  mapError .errno do
    env.call .copyUpParent
    doIf origin (env.callTo .setImpure)
    env.callTo .prepareCreds
    doIf a.hardlink.isNone (env.callTo .createFilesAs)
  if !d.isWhiteout then mapError .errno (ovlCreateUpper env a d upperdir)
  else ovlCreateOverWhiteout env a d upperdir

/-- `ovl_create_object`. -/
def ovlCreateObject (kind : RealKind) (d : OvlDentry) (upperdir : ℕ) : CreateM Unit := do
  mapError .errno do
    env.call .wantWrite
    env.callTo .newInode
  ovlCreateOrLink env ⟨kind, none⟩ d upperdir false

/-- `ovl_create`. -/
def ovlCreate (d : OvlDentry) (upperdir : ℕ) : CreateM Unit :=
  ovlCreateObject env .reg d upperdir

/-- `ovl_mkdir`. -/
def ovlMkdir (d : OvlDentry) (upperdir : ℕ) : CreateM Unit :=
  ovlCreateObject env .dir d upperdir

/-- `ovl_mknod`: nobody creates a whiteout through the overlay. -/
def ovlMknod (kind : RealKind) (d : OvlDentry) (upperdir : ℕ) : CreateM Unit :=
  if kind = .whiteout then fail (.errno EPERM) else ovlCreateObject env kind d upperdir

/-- `ovl_symlink`. -/
def ovlSymlink (d : OvlDentry) (upperdir : ℕ) : CreateM Unit :=
  ovlCreateObject env .other d upperdir

end Create

section Spec

variable {K : ℕ → List UInt8 → Prop} {J : ℕ → Prop} {origin : Option LowerPath} {s : DirState}
  {env : CreateEnv} {a : Cattr} {d : OvlDentry} {upperdir dir : ℕ} {name : List UInt8}

/-- What creation may change: the entry, the work directory and the new inode. -/
structure MayCreate (env : CreateEnv) (upperdir : ℕ) (name : List UInt8)
    (K : ℕ → List UInt8 → Prop) (J : ℕ → Prop) : Prop where
  entry : ¬ K upperdir name
  work : ∀ w n, w ≠ upperdir → env.workdir = some w → ¬ K w n
  created : ¬ J env.created

/-- An entry of an upper directory with its inode number, and a property of the inodes. -/
def EntryTo (dir : ℕ) (name : List UInt8) (i : ℕ) (G : (ℕ → ℕ → LayerInode) → Prop)
    (fs : Layers) : Prop :=
  childAt fs 0 dir name = some i ∧ G fs.inode

/-- The attributes of the inode that was created, if one was. -/
def NewAttr (env : CreateEnv) (a : Cattr) (o : Bool) (inode : ℕ → ℕ → LayerInode) : Prop :=
  a.hardlink = none → inode 0 env.created = { newInode a.kind with isOpaque := o }

/-- An entry was created: over a whiteout, a directory is opaque. -/
def Created (env : CreateEnv) (a : Cattr) (dir : ℕ) (name : List UInt8) (overWhiteout : Bool)
    (fs : Layers) : Prop :=
  ∃ o, EntryTo dir name (a.target env) (NewAttr env a o) fs ∧
    (overWhiteout = true → a.hardlink = none → a.kind = .dir → o = true)

theorem triple_callTo {F : Layers → Prop} (c : CreateCall) :
    Triple (Keeping K J origin s F) (env.callTo c) (fun _ => Keeping K J origin s F)
      (Keeping K J origin s anyLayers) :=
  .check fun _ h => h.any

theorem triple_ovlCreateReal (i : Option ℕ) (hK : ¬ K dir name) (hJ : ¬ J env.created) :
    Triple (Keeping K J origin s anyLayers) (ovlCreateReal env a dir name i)
      (fun _ => Keeping K J origin s (EntryTo dir name (a.target env) (NewAttr env a false)))
      (Keeping K J origin s anyLayers) := by
  have hinode : Triple (Keeping K J origin s anyLayers)
      (doIf a.hardlink.isNone (setInode env.created (newInode a.kind)))
      (fun _ => Keeping K J origin s fun fs => NewAttr env a false fs.inode)
      (Keeping K J origin s anyLayers) := by
    refine .ite (fun _ => ?_) fun hlink => ?_
    · exact triple_setInode _ hJ fun fs _ _ => inode_setInode_self
    · exact .pure fun t h => ⟨h.1, fun hnone => absurd (by rw [hnone]; rfl) hlink⟩
  refine (triple_ensure ESTALE _).bind fun _ => ?_
  refine Triple.mono (P := Keeping K J origin s anyLayers) ?_ (fun _ h => h.any) fun _ _ h => h
  refine (triple_callTo .create).bind fun _ => hinode.bind fun _ => ?_
  refine Triple.bind (triple_setChild (G := EntryTo dir name (a.target env)
    (NewAttr env a false)) _ hK fun fs h => ⟨childAt_setChild_self, h⟩) fun _ => ?_
  exact (Triple.doIf fun _ => triple_callTo .mkdirLookup).bind fun _ => triple_callTo .instantiated

/-- When `ovl_set_opaque` fails it changes nothing. -/
theorem triple_ovlSetOpaque {i : ℕ} {o : Bool} (hJ : ¬ J env.created) :
    Triple (Keeping K J origin s (EntryTo dir name i (NewAttr env a o))) (ovlSetOpaque env a)
      (fun _ => Keeping K J origin s (EntryTo dir name i (NewAttr env a true)))
      (Keeping K J origin s (EntryTo dir name i (NewAttr env a o))) := by
  refine Triple.get.bind fun s₀ => ?_
  refine (Triple.ensure fun _ h => h.1).bind fun _ => ?_
  refine Triple.mono (P := Keeping K J origin s (EntryTo dir name i (NewAttr env a o))) ?_
    (fun _ h => h.1.1) fun _ _ h => h
  refine Triple.bind (Q := fun _ => Keeping K J origin s (EntryTo dir name i (NewAttr env a o)))
    (.check fun _ h => h) fun _ => ?_
  exact triple_setInode _ hJ fun fs h => ⟨h.1, fun _ => inode_setInode_self⟩

theorem triple_ovlInstantiate {F : Layers → Prop} :
    Triple (Keeping K J origin s F) (ovlInstantiate env a) (fun _ => Keeping K J origin s F)
      (Keeping K J origin s anyLayers) :=
  .doIf fun _ => triple_callTo .getInode

theorem triple_createCleanup {F : Layers → Prop} (c : DirCall) (hK : ¬ K dir name)
    (hF : ∀ fs, F fs → F (fs.setChild dir name none)) :
    Triple (Keeping K J origin s F) (ovlCleanup env.toDirEnv c dir name)
      (fun _ => Keeping K J origin s F) (Keeping K J origin s anyLayers) :=
  triple_ovlCleanup c hK hF

theorem triple_ovlCreateUpper (hc : MayCreate env upperdir d.name K J) :
    Triple (Keeping K J origin s anyLayers) (ovlCreateUpper env a d upperdir)
      (fun _ => Keeping K J origin s (Created env a upperdir d.name false))
      (Keeping K J origin s anyLayers) := by
  have hmark : Triple (Keeping K J origin s (EntryTo upperdir d.name (a.target env)
      (NewAttr env a false)))
      (doIf (ovlTypeMerge d.parent && a.hardlink.isNone && a.kind = .dir)
        (ignore (ovlSetOpaque env a)))
      (fun _ => Keeping K J origin s (Created env a upperdir d.name false))
      (Keeping K J origin s anyLayers) := by
    have hcreated : ∀ o t, Keeping K J origin s (EntryTo upperdir d.name (a.target env)
        (NewAttr env a o)) t → Keeping K J origin s (Created env a upperdir d.name false) t :=
      fun o t h => ⟨h.1, o, h.2, fun hover => absurd hover Bool.false_ne_true⟩
    refine .ite (fun _ => .ignore ?_) fun _ => .pure fun t h => hcreated _ t h
    exact ((triple_ovlSetOpaque hc.created).mono (fun _ h => h) fun _ t h =>
      hcreated _ t h).monoE fun t h => hcreated _ t h
  refine (triple_lookupOneLen _ _ _).bind fun i => ?_
  refine Triple.mono (P := Keeping K J origin s anyLayers) ?_ (fun _ h => h.any) fun _ _ h => h
  refine (triple_ovlCreateReal i hc.entry hc.created).bind fun _ => hmark.bind fun _ => ?_
  exact triple_ovlInstantiate.onError (triple_createCleanup _ hc.entry fun _ h => h)

section Move

variable {sdir i : ℕ} {sname : List UInt8} {G : (ℕ → ℕ → LayerInode) → Prop}

/-- The entry that a rename moves takes its inode along. -/
theorem triple_renameCreated (hsrc : ¬ K sdir env.createdTemp) (hdst : ¬ K dir name) :
    Triple (Keeping K J origin s (EntryTo sdir env.createdTemp i G))
      (renameCreated env a sdir dir name)
      (fun _ => Keeping K J origin s (EntryTo dir name i G))
      (Keeping K J origin s anyLayers) := by
  refine .ite (fun _ => ?_) fun _ => ?_
  · refine (triple_call _).bind fun _ => ?_
    refine (triple_upperChild sdir env.createdTemp).bind fun j => ?_
    refine (triple_upperChild dir name).bind fun k => ?_
    refine (triple_ensure ENOENT _).bind fun _ => ?_
    refine Triple.bind (triple_setChild (G := fun fs => j = some i ∧ G fs.inode) k hsrc
      fun fs h => ⟨h.1.1.2.symm.trans h.1.1.1.1, h.1.1.1.2⟩) fun _ => ?_
    exact triple_setChild j hdst fun fs h => ⟨childAt_setChild_self.trans h.1, h.2⟩
  · refine (triple_call _).bind fun _ => ?_
    refine (triple_upperChild sdir env.createdTemp).bind fun j => ?_
    refine Triple.bind (triple_setChild (G := fun fs => j = some i ∧ G fs.inode) none hsrc
      fun fs h => ⟨h.2.symm.trans h.1.1, h.1.2⟩) fun _ => ?_
    exact triple_setChild j hdst fun fs h => ⟨childAt_setChild_self.trans h.1, h.2⟩

end Move

/-- A directory that is to replace a whiteout is made opaque first. -/
theorem triple_prepareCreated {i : ℕ} (hJ : ¬ J env.created) :
    Triple (Keeping K J origin s (EntryTo dir name i (NewAttr env a false)))
      (prepareCreated env a)
      (fun _ => Keeping K J origin s (EntryTo dir name i
        (NewAttr env a (a.hardlink.isNone && a.kind = .dir))))
      (Keeping K J origin s anyLayers) := by
  refine (Triple.doIf fun _ => triple_callTo .setMode).bind fun _ => ?_
  refine Triple.bind (Triple.doIf fun _ => (triple_callTo .aclAccess).bind fun _ =>
    triple_callTo .aclDefault) fun _ => ?_
  refine .ite (fun hdir => ?_) fun hdir => ?_
  · rw [hdir]
    exact (triple_ovlSetOpaque hJ).monoE fun _ h => h.any
  · rw [eq_false_of_ne_true hdir]
    exact .pure fun _ h => h

theorem triple_replaceWhiteout {workdir : ℕ} (hc : MayCreate env upperdir d.name K J)
    (hwork : env.workdir = some workdir) :
    Triple (Keeping K J origin s anyLayers) (replaceWhiteout env a d workdir upperdir)
      (fun _ => Keeping K J origin s (Created env a upperdir d.name true))
      (Keeping K J origin s anyLayers) := by
  refine (Triple.doIf fun _ => triple_callTo .aclCreate).bind fun _ => ?_
  refine (triple_ovlLockRenameWorkdir .lockRename workdir upperdir).bind fun _ => ?_
  refine .assuming (fun _ h => h.2.2) fun hne => ?_
  have hK : ¬ K workdir env.createdTemp := hc.work workdir _ hne hwork
  refine (triple_lookupOneLen _ _ _).bind fun upper => Triple.get.bind fun s₀ => ?_
  refine Triple.mono (P := Keeping K J origin s anyLayers) ?_ (fun _ h => h.1.any)
    fun _ _ h => h
  refine (triple_ensure ESTALE _).bind fun _ => (triple_lookupOneLen _ _ _).bind fun i => ?_
  refine (triple_ensure EIO _).bind fun _ => ?_
  refine Triple.mono (P := Keeping K J origin s anyLayers) ?_ (fun _ h => h.any) fun _ _ h => h
  refine (triple_ovlCreateReal i hK hc.created).bind fun _ => ?_
  refine Triple.bind (Q := fun _ => Keeping K J origin s (Created env a upperdir d.name true))
    (.onError ?_ (triple_createCleanup _ hK fun _ h => h)) fun _ => ?_
  · refine (triple_prepareCreated hc.created).bind fun _ => ?_
    refine (triple_renameCreated hK hc.entry).mono (fun _ h => h) fun _ t h => ?_
    refine ⟨h.1, _, h.2, fun _ hlink hdir => ?_⟩
    rw [hlink, hdir]
    rfl
  · refine .doIf fun _ => triple_createCleanup _ hK fun fs h => ?_
    obtain ⟨o, hentry, ho⟩ := h
    refine ⟨o, ⟨?_, hentry.2⟩, ho⟩
    rw [childAt_setChild_of_ne fun hcase => hne hcase.1.symm]
    exact hentry.1

theorem triple_ovlCreateOverWhiteout (hc : MayCreate env upperdir d.name K J) :
    Triple (Keeping K J origin s anyLayers) (ovlCreateOverWhiteout env a d upperdir)
      (fun _ => Keeping K J origin s (Created env a upperdir d.name true))
      (Keeping K J origin s anyLayers) := by
  unfold ovlCreateOverWhiteout
  split
  · exact .fail fun _ h => h
  · next workdir hwork =>
    exact (triple_replaceWhiteout hc hwork).mapError.bind fun _ => triple_ovlInstantiate.mapError

/-- Creation changes nothing but the entry and the work directory, and when it succeeds the
entry is there. -/
theorem triple_ovlCreateOrLink (origin' : Bool) (hc : MayCreate env upperdir d.name K J) :
    Triple (Keeping K J origin s anyLayers) (ovlCreateOrLink env a d upperdir origin')
      (fun _ => Keeping K J origin s (Created env a upperdir d.name d.isWhiteout))
      (Keeping K J origin s anyLayers) := by
  refine Triple.bind (Q := fun _ => Keeping K J origin s anyLayers) (.mapError ?_) fun _ => ?_
  · refine (triple_call _).bind fun _ => ?_
    refine Triple.bind (Triple.doIf fun _ => triple_callTo .setImpure) fun _ => ?_
    exact (triple_callTo .prepareCreds).bind fun _ => .doIf fun _ => triple_callTo .createFilesAs
  · refine .ite (fun hw => ?_) fun hw => ?_
    · rw [Bool.not_eq_true'] at hw
      rw [hw]
      exact (triple_ovlCreateUpper hc).mapError
    · rw [Bool.not_eq_true', Bool.not_eq_false] at hw
      rw [hw]
      exact triple_ovlCreateOverWhiteout hc

theorem triple_ovlCreateObject (kind : RealKind) (hc : MayCreate env upperdir d.name K J) :
    Triple (Keeping K J origin s anyLayers) (ovlCreateObject env kind d upperdir)
      (fun _ => Keeping K J origin s (Created env ⟨kind, none⟩ upperdir d.name d.isWhiteout))
      (Keeping K J origin s anyLayers) := by
  refine Triple.bind (Q := fun _ => Keeping K J origin s anyLayers) (.mapError ?_) fun _ =>
    triple_ovlCreateOrLink false hc
  exact (triple_call _).bind fun _ => triple_callTo .newInode

end Spec

end FzzOverlay

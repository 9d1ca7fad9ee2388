import FzzOverlay.Lib.Act
import FzzOverlay.Namei.Frame

/-!
# Changing the upper layer

The operations of the real filesystem behind the upper layer that `dir.c` uses, and the
helpers of `dir.c`, `util.c` and `namei.c` that removal and rename share. What each call
into the rest of the kernel returns is part of the environment, and so are the numbers of
the inodes that are created. The index is known through its lookups, which the mount has:
an operation changes those for the lower inode it is about.
-/

namespace FzzOverlay

open Act

def EXDEV : Errno := ⟨18, by decide⟩

/-- The calls that may fail, by the place they are made at. -/
inductive DirCall where
  | wantWrite | copyUpParent | copyUp | inodeLock | setNlink | cleanupIndex
  | clearLock | clearGetattr | clearLookupTemp | clearMkdir | copyXattr | setOpaque | setAttr
  | clearRename | clearWhiteout | clearCleanup | createCleanup
  | lockRename | lookupUpper | lookupTemp | doWhiteout | rename | killWhiteout | cleanup
  | rmdir | unlink
  deriving DecidableEq

/-- The inodes that are created in the upper layer. -/
inductive DirObj where
  | whiteout | opaquedir | copyUp | dirIndex
  deriving DecidableEq

/-- What an operation on a directory finds besides the layers: the results of calls, the
numbers and temporary names of new inodes, the link counts of lower inodes and what is
known about the inode that is removed. -/
structure DirEnv where
  err : DirCall → Option Errno
  workdir : Option ℕ
  newIno : DirObj → ℕ
  temp : DirObj → List UInt8
  nlink : LowerPath → ℕ
  /-- The names of the whiteouts that `ovl_check_empty_dir` found in the upper directory. -/
  emptyDir : Except Errno (List (List UInt8))
  /-- `OVL_INDEX`, `OVL_WHITEOUTS`, and whether the link count becomes zero. -/
  indexed : Bool
  whiteouts : Bool
  nlinkZero : Bool
  upperNlinkOne : Bool

/-- What directory operations change. -/
structure DirState where
  fs : Layers
  mount : Mount

abbrev DirM := Act DirState Errno

/-- A dentry that was looked up, with its parent; `isDir` is `d_is_dir`. -/
structure OvlDentry where
  parent : OvlEntry
  name : List UInt8
  found : Found
  isDir : Bool

/-- `ovl_dentry_upper`. -/
def OvlDentry.upper (d : OvlDentry) : Option ℕ := d.found.entry.upper

/-- `ovl_dentry_lower`. -/
def OvlDentry.lower (d : OvlDentry) : Option LowerPath := d.found.entry.lowerstack.head?

/-- An entry of an upper directory is set. -/
def Layers.setChild (fs : Layers) (dir : ℕ) (name : List UInt8) (i : Option ℕ) : Layers :=
  { fs with
    lookup := fun layer d n =>
      if layer = 0 ∧ d = dir ∧ n = name then .ok i else fs.lookup layer d n }

/-- The attributes of an upper inode are set. -/
def Layers.setInode (fs : Layers) (i : ℕ) (a : LayerInode) : Layers :=
  { fs with inode := fun layer j => if layer = 0 ∧ j = i then a else fs.inode layer j }

/-- The lookups of the index for one lower inode are set. -/
def Mount.setIndex (m : Mount) (origin : LowerPath) (f : Option ℕ → Except Errno (Option ℕ)) :
    Mount :=
  { m with lookupIndex := fun u o => if o = origin then f u else m.lookupIndex u o }

def newInode (kind : RealKind) : LayerInode where
  kind := kind
  isOpaque := false
  redirect := .ok none
  metacopy := .ok false
  weird := false
  trap := false

section Helpers

variable (env : DirEnv)

/-- A call that may fail. -/
def DirEnv.call (c : DirCall) : DirM Unit := check (env.err c)

def setChild (dir : ℕ) (name : List UInt8) (i : Option ℕ) : DirM Unit :=
  modify fun s => { s with fs := s.fs.setChild dir name i }

def setInode (i : ℕ) (a : LayerInode) : DirM Unit :=
  modify fun s => { s with fs := s.fs.setInode i a }

def setIndex (origin : LowerPath) (f : Option ℕ → Except Errno (Option ℕ)) : DirM Unit :=
  modify fun s => { s with mount := s.mount.setIndex origin f }

/-- The inode that an entry of an upper directory has. -/
def upperChild (dir : ℕ) (name : List UInt8) : DirM (Option ℕ) := do
  let s ← get
  pure (childAt s.fs 0 dir name)

/-- `lookup_one_len` in an upper directory. -/
def lookupOneLen (c : DirCall) (dir : ℕ) (name : List UInt8) : DirM (Option ℕ) := do
  env.call c
  upperChild dir name

/-- `ovl_do_rename` without flags: the entry takes the place of another one. -/
def doRename (c : DirCall) (sdir : ℕ) (sname : List UInt8) (ddir : ℕ) (dname : List UInt8) :
    DirM Unit := do
  env.call c
  let i ← upperChild sdir sname
  setChild sdir sname none
  setChild ddir dname i

/-- `ovl_do_rename` with `RENAME_EXCHANGE`. -/
def doExchange (c : DirCall) (sdir : ℕ) (sname : List UInt8) (ddir : ℕ) (dname : List UInt8) :
    DirM Unit := do
  env.call c
  let i ← upperChild sdir sname
  let j ← upperChild ddir dname
  ensure ENOENT (j.isSome = true)
  setChild sdir sname j
  setChild ddir dname i

/-- `ovl_cleanup`: a failure is only reported. -/
def ovlCleanup (c : DirCall) (dir : ℕ) (name : List UInt8) : DirM Unit :=
  ignore do
    env.call c
    setChild dir name none

/-- `ovl_create_temp` and `ovl_whiteout`: a new inode under a temporary name. -/
def createTemp (look create : DirCall) (obj : DirObj) (workdir : ℕ) (a : LayerInode) :
    DirM Unit := do
  let i ← lookupOneLen env look workdir (env.temp obj)
  ensure EIO (i = none)
  env.call create
  setInode (env.newIno obj) a
  setChild workdir (env.temp obj) (some (env.newIno obj))

/-- `ovl_lock_rename_workdir`. -/
def ovlLockRenameWorkdir (c : DirCall) (workdir upperdir : ℕ) : DirM Unit := do
  ensure EIO (workdir ≠ upperdir)
  env.call c

/-- `ovl_cleanup_and_whiteout`: a whiteout takes the place of an entry of `dir`. -/
def ovlCleanupAndWhiteout (workdir dir : ℕ) (name : List UInt8) : DirM Unit := do
  createTemp env .lookupTemp .doWhiteout .whiteout workdir (newInode .whiteout)
  let s ← get
  let isDir := ((childAt s.fs 0 dir name).map fun i => (s.fs.inode 0 i).kind) = some .dir
  if isDir then do
    onError (doExchange env .rename workdir (env.temp .whiteout) dir name)
      (ovlCleanup env .killWhiteout workdir (env.temp .whiteout))
    ovlCleanup env .cleanup workdir (env.temp .whiteout)
  else
    onError (doRename env .rename workdir (env.temp .whiteout) dir name)
      (ovlCleanup env .killWhiteout workdir (env.temp .whiteout))

/-- `ovl_cleanup_whiteouts`. -/
def ovlCleanupWhiteouts (upper : ℕ) : List (List UInt8) → DirM Unit
  | [] => pure ()
  | name :: list => do
    ovlCleanup env .clearWhiteout upper name
    ovlCleanupWhiteouts upper list

/-- `ovl_clear_empty`: an opaque directory takes the place of an empty merged one. -/
def ovlClearEmpty (d : OvlDentry) (upperdir : ℕ) (list : List (List UInt8)) : DirM ℕ :=
  match env.workdir, d.upper with
  | none, _ => fail EROFS
  | some _, none => fail ESTALE
  | some workdir, some upper => do
    ovlLockRenameWorkdir env .clearLock workdir upperdir
    env.call .clearGetattr
    let s ← get
    ensure ESTALE ((s.fs.inode 0 upper).kind = .dir)
    ensure ESTALE (childAt s.fs 0 upperdir d.name = some upper)
    createTemp env .clearLookupTemp .clearMkdir .opaquedir workdir (newInode .dir)
    onError (do
      env.call .copyXattr
      env.call .setOpaque
      setInode (env.newIno .opaquedir) { newInode .dir with isOpaque := true }
      env.call .setAttr
      doExchange env .clearRename workdir (env.temp .opaquedir) upperdir d.name)
      (ovlCleanup env .createCleanup workdir (env.temp .opaquedir))
    ovlCleanupWhiteouts env upper list
    ovlCleanup env .clearCleanup workdir (env.temp .opaquedir)
    pure (env.newIno .opaquedir)

/-- `ovl_need_index`. -/
def ovlNeedIndex (s : DirState) (d : OvlDentry) : Bool :=
  match d.lower with
  | none => false
  | some lower =>
    if !s.mount.indexdir then false
    else if s.mount.nfsExport && s.mount.index then true
    else decide ((s.fs.inode lower.idx lower.ino).kind ≠ .dir) && decide (1 < env.nlink lower)

/-- The index of an inode that was copied up, as `ovl_lookup_index` finds it. -/
def copiedUpIndex (isDir : Bool) (upper dirIndex : ℕ) : Option ℕ → Except Errno (Option ℕ)
  | none => if isDir then .error EIO else .ok (some upper)
  | some u =>
    if isDir then if u = upper then .ok (some dirIndex) else .error EIO
    else .ok (if u = upper then some upper else none)

/-- The inode that `ovl_copy_up` creates for a dentry without an upper. -/
def copyUpInode (s : DirState) (d : OvlDentry) (i : ℕ) : DirM Unit :=
  match d.upper, d.lower with
  | none, some lower => do
    let kind := (s.fs.inode lower.idx lower.ino).kind
    setInode i { newInode kind with metacopy := .ok (s.mount.metacopy && kind = .reg) }
    doIf (ovlNeedIndex env s d)
      (setIndex lower (copiedUpIndex d.isDir i (env.newIno .dirIndex)))
  | _, _ => pure ()

/-- A dentry that was copied up. -/
def OvlDentry.copiedUp (d : OvlDentry) (i : ℕ) : OvlDentry :=
  { d with found := { d.found with
    entry := { d.found.entry with upper := some i }, upperAlias := true } }

/-- The effect of `ovl_copy_up` on a child of `upperdir` that has no alias there: the inode
is created, unless the index has it already, and linked. -/
def copyUpChild (d : OvlDentry) (upperdir : ℕ) : DirM OvlDentry := do
  env.call .copyUp
  let s ← get
  copyUpInode env s d (d.upper.getD (env.newIno .copyUp))
  setChild upperdir d.name (some (d.upper.getD (env.newIno .copyUp)))
  pure (d.copiedUp (d.upper.getD (env.newIno .copyUp)))

/-- Whether `ovl_nlink_start` copies the dentry up. -/
def nlinkCopiesUp (s : DirState) (d : OvlDentry) : Bool :=
  ovlNeedIndex env s d && !d.found.upperAlias

/-- The copy-up that precedes the removal of an indexed lower inode. -/
def nlinkCopyUp (s : DirState) (d : OvlDentry) (upperdir : ℕ) : DirM OvlDentry :=
  if nlinkCopiesUp env s d then copyUpChild env d upperdir else pure d

/-- `ovl_nlink_start`. -/
def ovlNlinkStart (d : OvlDentry) (upperdir : ℕ) : DirM OvlDentry := do
  let s ← get
  let d' ← nlinkCopyUp env s d upperdir
  env.call .inodeLock
  doIf (!d.isDir && (env.indexed || nlinkCopiesUp env s d)) (env.call .setNlink)
  pure d'

/-- `ovl_nlink_end`, with `ovl_cleanup_index`. -/
def ovlNlinkEnd (d : OvlDentry) (copied : Bool) : DirM Unit := do
  let s ← get
  match d.lower with
  | none => pure ()
  | some lower =>
    doIf ((env.indexed || copied) && env.nlinkZero && (d.isDir || env.upperNlinkOne))
      (ignore do
        env.call .cleanupIndex
        setIndex lower fun _ =>
          if s.mount.nfsExport && s.mount.index then .error EIO else .ok none)

end Helpers

/-- The scan of `ovl_lower_positive`. -/
def lowerScan (fs : Layers) (name : List UInt8) : List LowerPath → Bool
  | [] => false
  | lower :: rest =>
    match fs.lookup lower.idx lower.ino name with
    | .error e =>
      if e.ret = ENOENT.ret ∨ e.ret = ENAMETOOLONG.ret then lowerScan fs name rest else true
    | .ok none => lowerScan fs name rest
    | .ok (some i) => decide ((fs.inode lower.idx i).kind ≠ .whiteout)

/-- `ovl_lower_positive`. -/
def ovlLowerPositive (fs : Layers) (d : OvlDentry) : Bool :=
  if !d.found.positive then d.found.isOpaque
  else if d.upper = none then true
  else lowerScan fs d.name d.parent.lowerstack

section Children

variable {fs : Layers} {layer dir : ℕ} {name : List UInt8} {i : Option ℕ}

theorem lookup_setChild_self : (fs.setChild dir name i).lookup 0 dir name = .ok i := by
  simp [Layers.setChild]

theorem childAt_setChild_self : childAt (fs.setChild dir name i) 0 dir name = i := by
  rw [childAt, lookup_setChild_self]

theorem lookup_setChild_of_ne {d : ℕ} {n : List UInt8} (h : ¬ (d = dir ∧ n = name)) :
    (fs.setChild dir name i).lookup layer d n = fs.lookup layer d n := by
  simp only [Layers.setChild]
  exact if_neg fun hc => h hc.2

theorem childAt_setChild_of_ne {d : ℕ} {n : List UInt8} (h : ¬ (d = dir ∧ n = name)) :
    childAt (fs.setChild dir name i) layer d n = childAt fs layer d n := by
  rw [childAt, childAt, lookup_setChild_of_ne h]

theorem inode_setInode_self {a : LayerInode} {j : ℕ} : (fs.setInode j a).inode 0 j = a := by
  simp [Layers.setInode]

end Children

theorem SameIndex.setIndex {m m' : Mount} {origin : LowerPath}
    (h : SameIndex (some origin) m m') (f : Option ℕ → Except Errno (Option ℕ)) :
    SameIndex (some origin) m (m'.setIndex origin f) where
  rest := by
    rw [Mount.setIndex, h.rest]
  lookup u o ho := by
    rw [← h.lookup u o ho]
    apply if_neg
    rintro rfl
    exact ho rfl

/-- What an operation leaves alone: the lower layers, the entries `K` of upper directories,
the inodes `J` of the upper layer, and the index of all lower inodes but `origin`. -/
structure Keeps (K : ℕ → List UInt8 → Prop) (J : ℕ → Prop) (origin : Option LowerPath)
    (s t : DirState) : Prop where
  lower : SameLower s.fs t.fs
  entry : ∀ d n, K d n → t.fs.lookup 0 d n = s.fs.lookup 0 d n
  inode : ∀ i, J i → t.fs.inode 0 i = s.fs.inode 0 i
  index : SameIndex origin s.mount t.mount

section Keeps

variable {K : ℕ → List UInt8 → Prop} {J : ℕ → Prop} {origin : Option LowerPath}
  {s t : DirState} {env : DirEnv}

theorem Keeps.refl (s : DirState) : Keeps K J origin s s :=
  ⟨⟨fun _ _ => rfl, fun _ _ => rfl⟩, fun _ _ _ => rfl, fun _ _ => rfl, .refl _ _⟩

theorem Keeps.setChild {dir : ℕ} {name : List UInt8} {i : Option ℕ} (h : Keeps K J origin s t)
    (hK : ¬ K dir name) : Keeps K J origin s { t with fs := t.fs.setChild dir name i } where
  lower := by
    refine ⟨fun layer hl => ?_, h.lower.inode⟩
    funext d n
    rw [← h.lower.lookup layer hl]
    simp [Layers.setChild, hl]
  entry d n hd := by
    rw [← h.entry d n hd]
    apply lookup_setChild_of_ne
    rintro ⟨rfl, rfl⟩
    exact hK hd
  inode := h.inode
  index := h.index

theorem Keeps.setInode {i : ℕ} {a : LayerInode} (h : Keeps K J origin s t) (hJ : ¬ J i) :
    Keeps K J origin s { t with fs := t.fs.setInode i a } where
  lower := by
    refine ⟨h.lower.lookup, fun layer hl => ?_⟩
    funext j
    rw [← h.lower.inode layer hl]
    simp [Layers.setInode, hl]
  entry := h.entry
  inode j hj := by
    rw [← h.inode j hj]
    simp only [Layers.setInode]
    apply if_neg
    rintro ⟨-, rfl⟩
    exact hJ hj
  index := h.index

/-- The states an operation may reach, with a property of the layers. -/
def Keeping (K : ℕ → List UInt8 → Prop) (J : ℕ → Prop) (origin : Option LowerPath)
    (s : DirState) (F : Layers → Prop) (t : DirState) : Prop :=
  Keeps K J origin s t ∧ F t.fs

/-- An entry of an upper directory with its inode. -/
def EntryIs (dir : ℕ) (name : List UInt8) (i : ℕ) (a : LayerInode) (fs : Layers) : Prop :=
  childAt fs 0 dir name = some i ∧ fs.inode 0 i = a

/-- Nothing is known about the layers. -/
def anyLayers (_ : Layers) : Prop := True

theorem EntryIs.setChild {dir d i : ℕ} {name n : List UInt8} {a : LayerInode} {j : Option ℕ}
    {fs : Layers} (h : EntryIs dir name i a fs) (hne : ¬ (dir = d ∧ name = n)) :
    EntryIs dir name i a (fs.setChild d n j) :=
  ⟨(childAt_setChild_of_ne hne).trans h.1, h.2⟩

variable {F G : Layers → Prop} {dir : ℕ} {name : List UInt8} {E : DirState → Prop}

theorem Keeping.any (h : Keeping K J origin s F t) : Keeping K J origin s anyLayers t :=
  ⟨h.1, trivial⟩

theorem triple_call (c : DirCall) :
    Triple (Keeping K J origin s F) (env.call c) (fun _ => Keeping K J origin s F)
      (Keeping K J origin s anyLayers) :=
  .check fun _ h => h.any

theorem triple_ensure (e : Errno) (b : Prop) [Decidable b] :
    Triple (Keeping K J origin s F) (ensure e b)
      (fun _ => Keeping K J origin s fun fs => F fs ∧ b) (Keeping K J origin s anyLayers) :=
  (Triple.ensure fun _ h => h.any).mono (fun _ h => h) fun _ _ h => ⟨h.1.1, h.1.2, h.2⟩

theorem triple_setChild (i : Option ℕ) (hK : ¬ K dir name)
    (hF : ∀ fs, F fs → G (fs.setChild dir name i)) :
    Triple (Keeping K J origin s F) (setChild dir name i) (fun _ => Keeping K J origin s G) E :=
  .modify fun _ h => ⟨h.1.setChild hK, hF _ h.2⟩

theorem triple_setInode {i : ℕ} (a : LayerInode) (hJ : ¬ J i)
    (hF : ∀ fs, F fs → G (fs.setInode i a)) :
    Triple (Keeping K J origin s F) (setInode i a) (fun _ => Keeping K J origin s G) E :=
  .modify fun _ h => ⟨h.1.setInode hJ, hF _ h.2⟩

theorem triple_setIndex {lower : LowerPath} (f : Option ℕ → Except Errno (Option ℕ))
    (ho : origin = some lower) :
    Triple (Keeping K J origin s F) (setIndex lower f) (fun _ => Keeping K J origin s F) E := by
  refine .modify fun t h => ⟨⟨h.1.lower, h.1.entry, h.1.inode, ?_⟩, h.2⟩
  have hindex := h.1.index
  rw [ho] at hindex ⊢
  exact hindex.setIndex f

theorem triple_upperChild (dir : ℕ) (name : List UInt8) :
    Triple (Keeping K J origin s F) (upperChild dir name)
      (fun i => Keeping K J origin s fun fs => F fs ∧ childAt fs 0 dir name = i) E := by
  refine Triple.get.bind fun s₀ => ?_
  refine .pure fun t ht => ⟨ht.1.1, ht.1.2, ?_⟩
  rw [ht.2]

theorem triple_lookupOneLen (c : DirCall) (dir : ℕ) (name : List UInt8) :
    Triple (Keeping K J origin s F) (lookupOneLen env c dir name)
      (fun i => Keeping K J origin s fun fs => F fs ∧ childAt fs 0 dir name = i)
      (Keeping K J origin s anyLayers) :=
  (triple_call c).bind fun _ => triple_upperChild dir name

theorem triple_ovlCleanup (c : DirCall) (hK : ¬ K dir name)
    (hF : ∀ fs, F fs → F (fs.setChild dir name none)) :
    Triple (Keeping K J origin s F) (ovlCleanup env c dir name)
      (fun _ => Keeping K J origin s F) E := by
  refine .ignore ?_
  have hcall : Triple (Keeping K J origin s F) (env.call c) (fun _ => Keeping K J origin s F)
      (Keeping K J origin s F) := .check fun _ h => h
  exact hcall.bind fun _ => triple_setChild none hK hF

theorem triple_createTemp (look create : DirCall) (obj : DirObj) {workdir : ℕ} (a : LayerInode)
    (hK : ¬ K workdir (env.temp obj)) (hJ : ¬ J (env.newIno obj)) :
    Triple (Keeping K J origin s anyLayers) (createTemp env look create obj workdir a)
      (fun _ => Keeping K J origin s (EntryIs workdir (env.temp obj) (env.newIno obj) a))
      (Keeping K J origin s anyLayers) := by
  refine (triple_lookupOneLen look workdir (env.temp obj)).bind fun i => ?_
  refine (triple_ensure EIO _).bind fun _ => ?_
  refine (triple_call create).bind fun _ => ?_
  refine Triple.bind (triple_setInode (G := fun fs => fs.inode 0 (env.newIno obj) = a) a hJ
    fun fs _ => inode_setInode_self) fun _ => ?_
  exact triple_setChild _ hK fun fs h => ⟨childAt_setChild_self, h⟩

section Move

variable {sdir i : ℕ} {sname : List UInt8} {a : LayerInode} (c : DirCall)

theorem triple_doRename (hsrc : ¬ K sdir sname) (hdst : ¬ K dir name) :
    Triple (Keeping K J origin s (EntryIs sdir sname i a)) (doRename env c sdir sname dir name)
      (fun _ => Keeping K J origin s (EntryIs dir name i a))
      (Keeping K J origin s anyLayers) := by
  refine (triple_call c).bind fun _ => ?_
  refine (triple_upperChild sdir sname).bind fun j => ?_
  refine Triple.bind (triple_setChild (G := fun fs => j = some i ∧ fs.inode 0 i = a) none hsrc
    fun fs h => ⟨h.2.symm.trans h.1.1, h.1.2⟩) fun _ => ?_
  exact triple_setChild j hdst fun fs h => ⟨childAt_setChild_self.trans h.1, h.2⟩

theorem triple_doExchange (hsrc : ¬ K sdir sname) (hdst : ¬ K dir name) :
    Triple (Keeping K J origin s (EntryIs sdir sname i a))
      (doExchange env c sdir sname dir name)
      (fun _ => Keeping K J origin s (EntryIs dir name i a))
      (Keeping K J origin s anyLayers) := by
  refine (triple_call c).bind fun _ => ?_
  refine (triple_upperChild sdir sname).bind fun j => ?_
  refine (triple_upperChild dir name).bind fun k => ?_
  refine (triple_ensure ENOENT _).bind fun _ => ?_
  refine Triple.bind (triple_setChild (G := fun fs => j = some i ∧ fs.inode 0 i = a) k hsrc
    fun fs h => ⟨h.1.1.2.symm.trans h.1.1.1.1, h.1.1.1.2⟩) fun _ => ?_
  exact triple_setChild j hdst fun fs h => ⟨childAt_setChild_self.trans h.1, h.2⟩

end Move

/-- When `ovl_cleanup_and_whiteout` succeeds, the entry is a new whiteout. -/
theorem triple_ovlCleanupAndWhiteout {workdir : ℕ} (hne : workdir ≠ dir)
    (hwork : ¬ K workdir (env.temp .whiteout)) (hK : ¬ K dir name)
    (hJ : ¬ J (env.newIno .whiteout)) :
    Triple (Keeping K J origin s anyLayers) (ovlCleanupAndWhiteout env workdir dir name)
      (fun _ => Keeping K J origin s
        (EntryIs dir name (env.newIno .whiteout) (newInode .whiteout)))
      (Keeping K J origin s anyLayers) := by
  have hkill : Triple (Keeping K J origin s anyLayers)
      (ovlCleanup env .killWhiteout workdir (env.temp .whiteout))
      (fun _ => Keeping K J origin s anyLayers) (Keeping K J origin s anyLayers) :=
    triple_ovlCleanup _ hwork fun _ h => h
  refine (triple_createTemp _ _ _ _ hwork hJ).bind fun _ => ?_
  refine Triple.get.bind fun s₀ => ?_
  refine Triple.mono (P := Keeping K J origin s
    (EntryIs workdir (env.temp .whiteout) (env.newIno .whiteout) (newInode .whiteout))) ?_
    (fun _ h => h.1) fun _ _ h => h
  refine Triple.ite (fun _ => ?_) fun _ => ?_
  · refine ((triple_doExchange _ hwork hK).onError hkill).bind fun _ => ?_
    exact triple_ovlCleanup _ hwork fun fs h => h.setChild fun hc => hne hc.1.symm
  · exact (triple_doRename _ hwork hK).onError hkill

theorem triple_ovlCleanupWhiteouts {upper : ℕ} (hK : ∀ n, ¬ K upper n)
    (list : List (List UInt8)) :
    Triple (Keeping K J origin s anyLayers) (ovlCleanupWhiteouts env upper list)
      (fun _ => Keeping K J origin s anyLayers) E := by
  induction list with
  | nil => exact .pure fun _ h => h
  | cons n list ih => exact (triple_ovlCleanup _ (hK n) fun _ h => h).bind fun _ => ih

end Keeps

end FzzOverlay

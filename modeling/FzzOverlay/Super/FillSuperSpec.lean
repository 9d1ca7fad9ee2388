import Mathlib.Data.List.Perm.Basic
import FzzOverlay.Super.FillSuper

/-!
# What mounting keeps

The marks on directories, the traps and the configuration while a filesystem is mounted.
Every function of `ovl_fill_super` keeps them, and a function that fails leaves what
`ovl_free_fs` can undo, up to one trap.

## Main definitions

- `Marks` — what is marked in use, for whom
- `Settled` — the options that were given, less those that had to be given up
- `MountInv`, `MountFailed` — what holds between the calls, and after a failure
-/

namespace FzzOverlay

open Act

section Invariant

variable {δ σ ν : Type} [DecidableEq δ]

/-- The directories that a mount has marked. -/
def Mounting.holds (m : Mounting δ σ) (d : δ) : Bool :=
  (m.upperdirLocked && m.upper = some d) || (m.workdirLocked && m.workbasedir = some d)

/-- The mount has marked its upper and its work directory, unless they were marked. -/
structure Marks (s₀ s : MountState δ σ) : Prop where
  warned : s.warned = s₀.warned
  inuse : ∀ d, s.inuse d = (s₀.inuse d || s.fs.holds d)
  upper : ∀ u, s.fs.upper = some u → s.fs.upperdirLocked = !s₀.inuse u
  noUpper : s.fs.upper = none → s.fs.upperdirLocked = false
  work : ∀ w, s.fs.workbasedir = some w →
    s.fs.workdirLocked = !(s₀.inuse w || (s.fs.upperdirLocked && s.fs.upper = some w))
  noWork : s.fs.workbasedir = none → s.fs.workdirLocked = false

/-- With an index, the upper and the work directory were not marked before. -/
structure Unshared (index : Bool) (s₀ : MountState δ σ) (m : Mounting δ σ) : Prop where
  upper : index = true → ∀ u, m.upper = some u → s₀.inuse u = false
  work : index = true → ∀ w, m.workbasedir = some w →
    s₀.inuse w = false ∧ (m.upperdirLocked && m.upper = some w) = false

/-- Layers are told apart by file handles. -/
def Mounting.usesHandles (m : Mounting δ σ) : Prop :=
  m.config.nfsExport = true ∨ (m.config.index = true ∧ m.upper.isSome = true)

/-- A configuration without the options that can be given up. -/
def OvlConfig.rest (c : OvlConfig) : OvlConfig :=
  { c with index := false, nfsExport := false, xino := .off, metacopy := false }

/-- The configuration `c` with options given up, where `seen` are the lower directories
found so far. -/
structure Settled (env : MountEnv δ σ ν) (c : OvlConfig) (seen : List δ) (m : Mounting δ σ) :
    Prop where
  rest : m.config.rest = c.rest
  upper : m.upper.isSome = true → c.upperdir.isSome = true
  index : m.config.index = true → c.index = true
  metacopy : m.config.metacopy = true → c.metacopy = true
  noxattr : m.noxattr = true → m.config.index = false ∧ m.config.metacopy = false
  xattrs : m.noxattr = false → m.config.metacopy = c.metacopy
  xino : m.xinoBits ≠ 0 → m.config.xino ≠ .off
  handles : m.usesHandles → ∀ d ∈ seen, env.fhType (env.sb d) ≠ .none
  uuid : m.usesHandles → m.lowerFs.Pairwise fun a b => env.uuid a.sb ≠ env.uuid b.sb
  roots : m.lowerRoots ⊆ seen
  found : ∀ d ∈ seen, .ok d ∈ env.lowerPaths

/-- What holds between the calls of `ovl_fill_super`. -/
structure MountInv (env : MountEnv δ σ ν) (c : OvlConfig) (s₀ : MountState δ σ) (seen : List δ)
    (s : MountState δ σ) : Prop where
  marks : Marks s₀ s
  unshared : Unshared c.index s₀ s.fs
  settled : Settled env c seen s.fs
  traps : s.traps.Perm s.fs.trapsOf
  nodup : s.traps.Nodup

/-- What a failure leaves: a trap that nothing refers to is that of a lower directory which
another mount has marked, with the index on. -/
structure MountFailed (env : MountEnv δ σ ν) (s₀ s : MountState δ σ) : Prop where
  marks : Marks s₀ s
  traps : ∃ leak : Option δ, s.traps.Perm (leak.toList ++ s.fs.trapsOf) ∧
    ∀ d, leak = some d → .ok d ∈ env.lowerPaths ∧ s₀.inuse d = true ∧ s.fs.config.index = true

theorem MountInv.failed {env : MountEnv δ σ ν} {c : OvlConfig} {s₀ s : MountState δ σ}
    {seen : List δ} (h : MountInv env c s₀ seen s) : MountFailed env s₀ s :=
  ⟨h.marks, none, h.traps, fun d hd => by cases hd⟩

end Invariant

section Rules

variable {δ σ ν : Type} {env : MountEnv δ σ ν} {P Q E : MountState δ σ → Prop}

theorem triple_mountCall (k : MountCall) (hE : ∀ s, P s → E s) :
    Triple P (env.callTo k : MountM δ σ Unit) (fun _ => P) E :=
  .check hE

theorem triple_ofExcept {α : Type} (x : Except Errno α) (hE : ∀ s, P s → E s) :
    Triple P (ofExcept x : MountM δ σ α) (fun a s => P s ∧ x = .ok a) E := by
  cases x with
  | ok a => exact .pure fun s hs => ⟨hs, rfl⟩
  | error e => exact .fail hE

/-- A call of which only its success matters. -/
theorem triple_checked {α : Type} (x : Except Errno α) (hE : ∀ s, P s → E s) :
    Triple P (ofExcept x : MountM δ σ α) (fun _ => P) E :=
  (triple_ofExcept x hE).mono (fun _ h => h) fun _ _ h => h.1

theorem triple_setFs {f : Mounting δ σ → Mounting δ σ}
    (h : ∀ s, P s → Q { s with fs := f s.fs }) :
    Triple P (setFs f : MountM δ σ Unit) (fun _ => Q) E :=
  .modify h

theorem triple_ovlMountDirNoesc (path : Except Errno δ) (hE : ∀ s, P s → E s) :
    Triple P (ovlMountDirNoesc env path : MountM δ σ δ) (fun d s => P s ∧ path = .ok d) E := by
  refine (triple_ofExcept path hE).bind fun d => ?_
  refine Triple.bind (.ensure fun s hs => hE s hs.1) fun _ => ?_
  refine Triple.bind (.ensure fun s hs => hE s hs.1.1) fun _ => ?_
  exact .pure fun s hs => hs.1.1

theorem triple_ovlMountDir (path : Except Errno δ) (hE : ∀ s, P s → E s) :
    Triple P (ovlMountDir env path : MountM δ σ δ) (fun _ => P) E := by
  refine (triple_ovlMountDirNoesc path hE).bind fun d => ?_
  refine Triple.bind (.ensure fun s hs => hE s hs.1) fun _ => ?_
  exact .pure fun s hs => hs.1.1

theorem triple_ovlCheckNamelen (d : δ) (hE : ∀ s, P s → E s)
    (hP : ∀ s n, P s → P { s with fs := { s.fs with namelen := n } }) :
    Triple P (ovlCheckNamelen env d : MountM δ σ Unit) (fun _ => P) E :=
  (triple_ofExcept _ hE).bind fun _ => triple_setFs fun s hs => hP s _ hs.1

/-- Nothing is in use, or the index is off, when this succeeds. -/
theorem triple_ovlReportInUse (hE : ∀ s, P s → s.fs.config.index = true → E s) :
    Triple P (ovlReportInUse : MountM δ σ Unit) (fun _ s => P s ∧ s.fs.config.index = false)
      E := by
  intro s hs
  cases hi : s.fs.config.index with
  | false =>
    have hrun : ovlReportInUse s = (.ok (), s) := by
      simp [ovlReportInUse, ensure, bind, Act.get, pure, hi]
    rw [hrun]
    exact ⟨hs, hi⟩
  | true =>
    have hrun : ovlReportInUse s = (.error EBUSY, s) := by
      simp [ovlReportInUse, ensure, fail, bind, Act.get, hi]
    rw [hrun]
    exact hE s hs hi

variable [DecidableEq δ]

/-- A trap that is new is added to the traps. -/
theorem triple_ovlGetTrapInode (k : MountCall) (dir : δ) (hE : ∀ s, P s → E s)
    (hQ : ∀ s, P s → dir ∉ s.traps → Q { s with traps := dir :: s.traps }) :
    Triple P (ovlGetTrapInode env k dir : MountM δ σ Unit) (fun _ => Q) E := by
  refine Triple.bind (.ensure hE) fun _ => ?_
  refine Triple.bind .get fun a => ?_
  refine Triple.bind (.ensure fun s hs => hE s hs.1.1) fun _ => ?_
  refine (triple_mountCall k fun s hs => hE s hs.1.1.1).bind fun _ => ?_
  refine .modify fun s hs => ?_
  obtain ⟨⟨⟨hs, -⟩, rfl⟩, hdir⟩ := hs
  exact hQ _ hs hdir

theorem triple_ovlSetupTrap (k : MountCall) (dir : δ) {keep : Mounting δ σ → Mounting δ σ}
    (hE : ∀ s, P s → E s)
    (hQ : ∀ s, P s → dir ∉ s.traps →
      Q { s with traps := dir :: s.traps, fs := keep s.fs }) :
    Triple P (ovlSetupTrap env k dir keep : MountM δ σ Unit) (fun _ => Q) E :=
  Triple.bind (triple_ovlGetTrapInode (Q := fun s => Q { s with fs := keep s.fs }) k dir hE
    fun s hs hdir => hQ s hs hdir) fun _ => triple_setFs fun _ hs => hs

/-- A directory that is in use stays as it is, and is an error with the index on. -/
theorem triple_markInuse (d : δ) {locked : Mounting δ σ → Mounting δ σ}
    (hfree : ∀ s, P s → s.inuse d = false →
      Q { s with inuse := Function.update s.inuse d true, fs := locked s.fs })
    (hbusy : ∀ s, P s → s.inuse d = true → s.fs.config.index = false → Q s)
    (hE : ∀ s, P s → s.inuse d = true → E s) :
    Triple P (markInuse d locked : MountM δ σ Unit) (fun _ => Q) E := by
  intro s hs
  cases hd : s.inuse d with
  | false =>
    have hrun : markInuse d locked s = (.ok (), { s with
        inuse := Function.update s.inuse d true, fs := locked s.fs }) := by
      simp [markInuse, ovlInuseTrylock, bind, Act.get, pure, Act.modify, setFs, hd]
    rw [hrun]
    exact hfree s hs hd
  | true =>
    cases hi : s.fs.config.index with
    | false =>
      have hrun : markInuse d locked s = (.ok (), s) := by
        simp [markInuse, ovlInuseTrylock, ovlReportInUse, ensure, bind, Act.get, pure, hd, hi]
      rw [hrun]
      exact hbusy s hs hd hi
    | true =>
      have hrun : markInuse d locked s = (.error EBUSY, s) := by
        simp [markInuse, ovlInuseTrylock, ovlReportInUse, ensure, fail, bind, Act.get, pure, hd, hi]
      rw [hrun]
      exact hE s hs hd

end Rules

section Frame

variable {δ σ ν : Type} {env : MountEnv δ σ ν} {c : OvlConfig} {seen : List δ}
  {m m' : Mounting δ σ}

/-- Two mounts that mark the same directories. -/
structure SameMarks (m m' : Mounting δ σ) : Prop where
  upper : m'.upper = m.upper
  work : m'.workbasedir = m.workbasedir
  upperLock : m'.upperdirLocked = m.upperdirLocked
  workLock : m'.workdirLocked = m.workdirLocked

/-- Two mounts with the same directories, which may differ in their options. -/
structure SameDirs (m m' : Mounting δ σ) : Prop where
  marks : SameMarks m m'
  workdir : m'.workdir = m.workdir
  indexdir : m'.indexdir = m.indexdir
  upperTrap : m'.upperdirTrap = m.upperdirTrap
  workTrap : m'.workbasedirTrap = m.workbasedirTrap
  workdirTrap : m'.workdirTrap = m.workdirTrap
  indexTrap : m'.indexdirTrap = m.indexdirTrap
  lowerRoots : m'.lowerRoots = m.lowerRoots
  rdonly : m'.rdonly = m.rdonly
  index : m'.config.index = true → m.config.index = true
  nfsExport : m'.config.nfsExport = true → m.config.nfsExport = true
  rest : m'.config.rest = m.config.rest

theorem SameDirs.trapsOf (h : SameDirs m m') : m'.trapsOf = m.trapsOf := by
  rw [Mounting.trapsOf, Mounting.trapsOf, h.lowerRoots, h.workTrap, h.indexTrap, h.workdirTrap,
    h.upperTrap]

/-- A change of the configuration that only gives options up. -/
structure GivesUp (f : OvlConfig → OvlConfig) : Prop where
  rest : ∀ c, (f c).rest = c.rest
  xino : ∀ c, (f c).xino = c.xino
  index : ∀ c, (f c).index = true → c.index = true
  nfsExport : ∀ c, (f c).nfsExport = true → c.nfsExport = true
  metacopy : ∀ c, (f c).metacopy = c.metacopy

theorem Settled.giveUp {f : OvlConfig → OvlConfig} (h : Settled env c seen m) (hf : GivesUp f) :
    Settled env c seen { m with config := f m.config } := by
  have husesHandles : Mounting.usesHandles { m with config := f m.config } → m.usesHandles :=
    fun hu => hu.imp (hf.nfsExport _) (And.imp_left (hf.index _))
  refine { h with
    rest := (hf.rest _).trans h.rest
    index := fun hi => h.index (hf.index _ hi)
    metacopy := fun hm => h.metacopy ((hf.metacopy _).symm.trans hm)
    noxattr := fun hn => ⟨?_, (hf.metacopy _).trans (h.noxattr hn).2⟩
    xattrs := fun hn => (hf.metacopy _).trans (h.xattrs hn)
    xino := fun hx => (hf.xino m.config).symm ▸ h.xino hx
    handles := fun hu => h.handles (husesHandles hu)
    uuid := fun hu => h.uuid (husesHandles hu) }
  exact eq_false_of_ne_true fun hi => Bool.false_ne_true ((h.noxattr hn).1 ▸ hf.index _ hi)

theorem GivesUp.sameDirs {f : OvlConfig → OvlConfig} (hf : GivesUp f) (m : Mounting δ σ) :
    SameDirs m { m with config := f m.config } :=
  ⟨⟨rfl, rfl, rfl, rfl⟩, rfl, rfl, rfl, rfl, rfl, rfl, rfl, rfl, hf.index _,
    hf.nfsExport _, hf.rest _⟩

/-- A mount whose upper and work directories are set up, if it has them. `checked` says that
NFS export was checked against following redirects. -/
structure Ready (env : MountEnv δ σ ν) (checked : Bool) (m : Mounting δ σ) : Prop where
  given : m.config.upperdir.isSome = true → m.upper.isSome = true
  upperTrap : ∀ u, m.upper = some u → m.upperdirTrap = some u
  workTrap : ∀ w, m.workbasedir = some w → m.workbasedirTrap = some w
  base : m.upper = none → m.workbasedir = none
  handles : m.config.index = true → ∀ w, m.workdir = some w → env.fhType (env.sb w) ≠ .none
  rdonly : m.upper.isSome = true → m.workdir = none → m.rdonly = true
  indexdir : m.indexdir = none
  indexTrap : m.indexdirTrap = none
  nofollow : checked = true → m.config.nfsExport = true → m.config.upperdir = none →
    m.config.redirectFollow = false
  named : m.config.upperdir.isSome = true → m.config.workdir.isSome = true

theorem SameDirs.upperdir (h : SameDirs m m') : m'.config.upperdir = m.config.upperdir := by
  have hrest : m'.config.rest.upperdir = m.config.rest.upperdir := congrArg _ h.rest
  exact hrest

theorem SameDirs.workdirName (h : SameDirs m m') : m'.config.workdir = m.config.workdir := by
  have hrest : m'.config.rest.workdir = m.config.rest.workdir := congrArg _ h.rest
  exact hrest

theorem SameDirs.redirectFollow (h : SameDirs m m') :
    m'.config.redirectFollow = m.config.redirectFollow := by
  have hrest : m'.config.rest.redirectFollow = m.config.rest.redirectFollow := congrArg _ h.rest
  exact hrest

theorem Ready.options {checked : Bool} (h : Ready env checked m) (hm : SameDirs m m') :
    Ready env checked m' where
  given hu := by
    rw [hm.marks.upper]
    exact h.given (hm.upperdir ▸ hu)
  upperTrap u hu := hm.upperTrap.trans (h.upperTrap u (hm.marks.upper ▸ hu))
  workTrap w hw := hm.workTrap.trans (h.workTrap w (hm.marks.work ▸ hw))
  base hu := hm.marks.work.trans (h.base (hm.marks.upper ▸ hu))
  handles hi w hw := h.handles (hm.index hi) w (hm.workdir ▸ hw)
  rdonly hu hw := hm.rdonly.trans (h.rdonly (hm.marks.upper ▸ hu) (hm.workdir ▸ hw))
  indexdir := hm.indexdir.trans h.indexdir
  indexTrap := hm.indexTrap.trans h.indexTrap
  nofollow hc hn hu :=
    hm.redirectFollow.trans (h.nofollow hc (hm.nfsExport hn) (hm.upperdir ▸ hu))
  named hu := by
    rw [hm.workdirName]
    exact h.named (hm.upperdir ▸ hu)

/-- A mount whose upper and work base directories are trapped. -/
structure Based (u : δ) (m : Mounting δ σ) : Prop where
  upper : m.upper = some u
  upperTrap : m.upperdirTrap = some u
  workTrap : ∀ w, m.workbasedir = some w → m.workbasedirTrap = some w
  indexdir : m.indexdir = none
  indexTrap : m.indexdirTrap = none

theorem Based.options {u : δ} (h : Based u m) (hm : SameDirs m m') : Based u m' where
  upper := hm.marks.upper.trans h.upper
  upperTrap := hm.upperTrap.trans h.upperTrap
  workTrap w hw := hm.workTrap.trans (h.workTrap w (hm.marks.work ▸ hw))
  indexdir := hm.indexdir.trans h.indexdir
  indexTrap := hm.indexTrap.trans h.indexTrap

/-- The index is only kept when the upper filesystem, which has the work directory, has file
handles. -/
def IndexHandles (env : MountEnv δ σ ν) (m : Mounting δ σ) : Prop :=
  m.config.index = true → ∀ w, m.workdir = some w → env.fhType (env.sb w) ≠ .none

/-- A mount before its upper directory was looked up. -/
structure Bare (c : OvlConfig) (m : Mounting δ σ) : Prop where
  index : m.config.index = c.index
  upper : m.upper = none
  work : m.workbasedir = none
  workdir : m.workdir = none
  indexdir : m.indexdir = none
  upperTrap : m.upperdirTrap = none
  workTrap : m.workbasedirTrap = none
  workdirTrap : m.workdirTrap = none
  indexTrap : m.indexdirTrap = none
  lowerFs : m.lowerFs = []
  lowerRoots : m.lowerRoots = []

/-- A mount that has its upper directory, and no other yet. -/
structure UpperFound (c : OvlConfig) (u : δ) (m : Mounting δ σ) : Prop where
  index : m.config.index = c.index
  upper : m.upper = some u
  work : m.workbasedir = none
  indexdir : m.indexdir = none
  upperTrap : m.upperdirTrap = some u
  workTrap : m.workbasedirTrap = none
  workdirTrap : m.workdirTrap = none
  indexTrap : m.indexdirTrap = none
  lowerFs : m.lowerFs = []
  lowerRoots : m.lowerRoots = []

theorem Bare.ready {c : OvlConfig} (h : Bare c m) (hup : m.config.upperdir.isSome = false) :
    Ready env false m where
  given hu := absurd hu (by simp [hup])
  upperTrap u hu := absurd (h.upper.symm.trans hu) (by simp)
  workTrap w hw := absurd (h.work.symm.trans hw) (by simp)
  base _ := h.work
  handles _ w hw := absurd (h.workdir.symm.trans hw) (by simp)
  rdonly hu := absurd hu (by simp [h.upper])
  indexdir := h.indexdir
  indexTrap := h.indexTrap
  nofollow hc := by cases hc
  named hu := absurd hu (by simp [hup])

/-- The upper directory that was asked for is never given up. -/
theorem Settled.upperdir (h : Settled env c seen m) : m.config.upperdir = c.upperdir := by
  have hrest : m.config.rest.upperdir = c.rest.upperdir := congrArg OvlConfig.upperdir h.rest
  exact hrest

theorem Settled.workdir (h : Settled env c seen m) : m.config.workdir = c.workdir := by
  have hrest : m.config.rest.workdir = c.rest.workdir := congrArg OvlConfig.workdir h.rest
  exact hrest

theorem givesUp_dropHandles (env : MountEnv δ σ ν) (d : δ) : GivesUp (dropHandles env d) := by
  refine ⟨fun c => ?_, fun c => ?_, fun c => ?_, fun c => ?_, fun c => ?_⟩ <;>
    unfold dropHandles <;> split_ifs <;> simp [OvlConfig.rest]

/-- Layers on `d` are only told apart by file handles when its filesystem has them. -/
theorem Settled.dropHandles (h : Settled env c seen m) {d : δ} (hd : .ok d ∈ env.lowerPaths) :
    Settled env c (seen ++ [d]) { m with config := dropHandles env d m.config } := by
  have hdrop := h.giveUp (givesUp_dropHandles env d)
  refine { hdrop with
    handles := fun hu d' hd' => ?_
    roots := fun r hr => List.mem_append_left _ (hdrop.roots hr)
    found := List.forall_mem_append.mpr ⟨h.found, List.forall_mem_singleton.mpr hd⟩ }
  obtain hd' | hd' := List.mem_append.mp hd'
  · exact hdrop.handles hu d' hd'
  · rw [List.mem_singleton.mp hd']
    intro hnone
    have hused : m.usesHandles := hu.imp ((givesUp_dropHandles env d).nfsExport _)
      (And.imp_left ((givesUp_dropHandles env d).index _))
    have hcond : (m.config.nfsExport || (m.config.index && m.config.upperdir.isSome)) = true := by
      rw [Bool.or_eq_true, Bool.and_eq_true, h.upperdir]
      exact hused.imp id fun hi => ⟨hi.1, h.upper hi.2⟩
    unfold Mounting.usesHandles FzzOverlay.dropHandles at hu
    simp [hcond, hnone] at hu

end Frame

section Keeps

variable {δ σ ν : Type} [DecidableEq δ] {env : MountEnv δ σ ν} {c : OvlConfig}
  {s₀ s : MountState δ σ} {seen : List δ} {m m' : Mounting δ σ}

theorem Mounting.trapsOf_upper (h : m.upperdirTrap = none) (d : δ) :
    (d :: m.trapsOf).Perm { m with upperdirTrap := some d }.trapsOf := by
  refine List.perm_iff_count.mpr fun a => ?_
  simp only [Mounting.trapsOf, h, List.count_cons, List.count_append, Option.toList]
  omega

theorem Mounting.trapsOf_work (h : m.workbasedirTrap = none) (d : δ) :
    (d :: m.trapsOf).Perm { m with workbasedirTrap := some d }.trapsOf := by
  refine List.perm_iff_count.mpr fun a => ?_
  simp only [Mounting.trapsOf, h, List.count_cons, List.count_append, Option.toList]
  omega

theorem Mounting.trapsOf_workdir (h : m.workdirTrap = none) (d : δ) :
    (d :: m.trapsOf).Perm { m with workdirTrap := some d }.trapsOf := by
  refine List.perm_iff_count.mpr fun a => ?_
  simp only [Mounting.trapsOf, h, List.count_cons, List.count_append, Option.toList]
  omega

theorem Mounting.trapsOf_index (h : m.indexdirTrap = none) (d : δ) :
    (d :: m.trapsOf).Perm { m with indexdirTrap := some d }.trapsOf := by
  refine List.perm_iff_count.mpr fun a => ?_
  simp only [Mounting.trapsOf, h, List.count_cons, List.count_append, Option.toList]
  omega

theorem Mounting.trapsOf_lower (d : δ) (l : List (OvlLayer σ)) :
    (d :: m.trapsOf).Perm
      { m with lowerRoots := m.lowerRoots ++ [d], lowerLayers := l }.trapsOf := by
  refine List.perm_iff_count.mpr fun a => ?_
  simp only [Mounting.trapsOf, List.count_cons, List.count_append, List.count_nil]
  omega

/-- Marking the upper directory. -/
theorem Marks.lockUpper (h : Marks s₀ s) (hup : s.fs.upper = none)
    (hwork : s.fs.workbasedir = none) {u : δ} (hu : s.inuse u = false) :
    Marks s₀ { s with
      inuse := Function.update s.inuse u true
      fs := { s.fs with upper := some u, upperdirLocked := true } } := by
  have hunlocked := h.noWork hwork
  have hfree : s₀.inuse u = false := by
    have := h.inuse u
    rw [hu] at this
    simp_all
  refine ⟨h.warned, fun d => ?_, fun v hv => ?_, (fun hn => by cases hn), fun w hw => ?_, h.noWork⟩
  · by_cases hd : d = u
    · subst hd
      simp [Mounting.holds]
    · have := h.inuse d
      simp_all [Mounting.holds, Ne.symm hd]
  · obtain rfl : u = v := Option.some.inj hv
    rw [hfree]
    rfl
  · exact absurd (hwork.symm.trans hw) (by simp)

/-- Leaving it alone, since it is marked. -/
theorem Marks.busyUpper (h : Marks s₀ s) (hup : s.fs.upper = none)
    (hwork : s.fs.workbasedir = none) {u : δ} (hu : s.inuse u = true) :
    Marks s₀ { s with fs := { s.fs with upper := some u } } := by
  have hunlocked := h.noWork hwork
  have hlocked := h.noUpper hup
  have hbusy : s₀.inuse u = true := by
    have := h.inuse u
    simp_all [Mounting.holds]
  refine ⟨h.warned, fun d => ?_, fun v hv => ?_, (fun hn => by cases hn), fun w hw => ?_, h.noWork⟩
  · have := h.inuse d
    simp_all [Mounting.holds]
  · obtain rfl : u = v := Option.some.inj hv
    rw [hbusy]
    exact hlocked
  · exact absurd (hwork.symm.trans hw) (by simp)

theorem Marks.lockWork (h : Marks s₀ s) (hwork : s.fs.workbasedir = none) {w : δ}
    (hw : s.inuse w = false) :
    Marks s₀ { s with
      inuse := Function.update s.inuse w true
      fs := { s.fs with workbasedir := some w, workdirLocked := true } } := by
  have hunlocked := h.noWork hwork
  have hfree : (s₀.inuse w || (s.fs.upperdirLocked && s.fs.upper = some w)) = false := by
    have := h.inuse w
    simp_all [Mounting.holds]
  refine ⟨h.warned, fun d => ?_, h.upper, h.noUpper, fun v hv => ?_, fun hn => by cases hn⟩
  · by_cases hd : d = w
    · subst hd
      simp [Mounting.holds]
    · have := h.inuse d
      simp_all [Mounting.holds, Ne.symm hd]
  · obtain rfl : w = v := Option.some.inj hv
    change true = !(s₀.inuse w || (s.fs.upperdirLocked && s.fs.upper = some w))
    rw [hfree]
    rfl

theorem Marks.busyWork (h : Marks s₀ s) (hwork : s.fs.workbasedir = none) {w : δ}
    (hw : s.inuse w = true) :
    Marks s₀ { s with fs := { s.fs with workbasedir := some w } } := by
  have hunlocked := h.noWork hwork
  have hbusy : (s₀.inuse w || (s.fs.upperdirLocked && s.fs.upper = some w)) = true := by
    have := h.inuse w
    simp_all [Mounting.holds]
  refine ⟨h.warned, fun d => ?_, h.upper, h.noUpper, fun v hv => ?_, fun hn => by cases hn⟩
  · have := h.inuse d
    simp_all [Mounting.holds]
  · obtain rfl : w = v := Option.some.inj hv
    change s.fs.workdirLocked = !(s₀.inuse w || (s.fs.upperdirLocked && s.fs.upper = some w))
    rw [hbusy]
    exact hunlocked

theorem Marks.congr (h : Marks s₀ s) (traps : List δ) (hm : SameMarks s.fs m) :
    Marks s₀ { s with fs := m, traps := traps } := by
  obtain ⟨hup, hwork, hul, hwl⟩ := hm
  refine ⟨h.warned, fun d => ?_, fun u hu => ?_, fun hn => ?_, fun w hw => ?_, fun hn => ?_⟩
  · rw [h.inuse d, Mounting.holds, Mounting.holds, hup, hwork, hul, hwl]
  · exact hul.trans (h.upper u (hup ▸ hu))
  · exact hul.trans (h.noUpper (hup ▸ hn))
  · change m.workdirLocked = !(s₀.inuse w || (m.upperdirLocked && m.upper = some w))
    rw [hwl, hul, hup]
    exact h.work w (hwork ▸ hw)
  · exact hwl.trans (h.noWork (hwork ▸ hn))

theorem Unshared.congr {index : Bool} (h : Unshared index s₀ s.fs) (hm : SameMarks s.fs m) :
    Unshared index s₀ m := by
  obtain ⟨hup, hwork, hul, hwl⟩ := hm
  refine ⟨fun hi u hu => h.upper hi u (hup ▸ hu), fun hi w hw => ?_⟩
  rw [hul, hup]
  exact h.work hi w (hwork ▸ hw)

/-- A change of the mount that leaves its marks and its traps alone. -/
theorem MountInv.setFs {seen' : List δ} (h : MountInv env c s₀ seen s) (hm : SameMarks s.fs m)
    (htraps : m.trapsOf = s.fs.trapsOf) (hset : Settled env c seen' m) :
    MountInv env c s₀ seen' { s with fs := m } :=
  ⟨h.marks.congr s.traps hm, h.unshared.congr hm, hset, htraps ▸ h.traps, h.nodup⟩

/-- A trap is set up, and the mount refers to it. -/
theorem MountInv.addTrap {seen' : List δ} {d : δ} (h : MountInv env c s₀ seen s)
    (hd : d ∉ s.traps) (hm : SameMarks s.fs m) (htraps : (d :: s.fs.trapsOf).Perm m.trapsOf)
    (hset : Settled env c seen' m) :
    MountInv env c s₀ seen' { s with traps := d :: s.traps, fs := m } :=
  ⟨h.marks.congr (d :: s.traps) hm, h.unshared.congr hm, hset,
    (h.traps.cons d).trans htraps, List.nodup_cons.mpr ⟨hd, h.nodup⟩⟩

theorem triple_ovlGetUpper (hc : c.upperdir.isSome = true) :
    Triple (fun s => MountInv env c s₀ [] s ∧ Bare c s.fs) (ovlGetUpper env)
      (fun u s => MountInv env c s₀ [] s ∧ UpperFound c u s.fs) (MountFailed env s₀) := by
  refine (triple_ovlMountDir _ fun s hs => hs.1.failed).bind fun u => ?_
  refine Triple.bind (.ensure fun s hs => hs.1.failed) fun _ => ?_
  refine Triple.mono (P := fun s => MountInv env c s₀ [] s ∧ Bare c s.fs) ?_ (fun s hs => hs.1)
    fun _ _ h => h
  refine (triple_ovlCheckNamelen u (fun s hs => hs.1.failed) fun s n hs => ?_).bind fun _ => ?_
  · exact ⟨hs.1.setFs ⟨rfl, rfl, rfl, rfl⟩ rfl { hs.1.settled with }, { hs.2 with }⟩
  refine (triple_ovlSetupTrap (Q := fun s => MountInv env c s₀ [] s ∧
    Bare c { s.fs with upperdirTrap := none } ∧ s.fs.upperdirTrap = some u) .upperTrap u
    (fun s hs => hs.1.failed) fun s hs hu => ?_).bind fun _ => ?_
  · exact ⟨hs.1.addTrap hu ⟨rfl, rfl, rfl, rfl⟩ (Mounting.trapsOf_upper hs.2.upperTrap u)
      { hs.1.settled with }, { hs.2 with upperTrap := rfl }, rfl⟩
  refine (triple_mountCall .cloneUpper fun s hs => hs.1.failed).bind fun _ => ?_
  -- the upper directory is set before it is marked
  refine (triple_setFs (Q := fun s => ∃ s', (MountInv env c s₀ [] s' ∧
    Bare c { s'.fs with upperdirTrap := none } ∧ s'.fs.upperdirTrap = some u) ∧
      s = { s' with fs := { s'.fs with upper := some u } }) fun s hs => ⟨s, hs, rfl⟩).bind
    fun _ => ?_
  refine (triple_markInuse (Q := fun s => MountInv env c s₀ [] s ∧ UpperFound c u s.fs) u
    ?_ ?_ ?_).bind fun _ => .pure fun s hs => hs
  · rintro _ ⟨s, ⟨hinv, hbare, htrap⟩, rfl⟩ hu
    have hmarks := hinv.marks.lockUpper hbare.upper hbare.work hu
    refine ⟨⟨hmarks, ⟨fun _ v hv => ?_, fun _ w hw => ?_⟩, ?_, hinv.traps, hinv.nodup⟩,
      { hbare with upper := rfl, upperTrap := htrap }⟩
    · have := hmarks.upper v hv
      simpa using this.symm
    · exact absurd (hbare.work.symm.trans hw) (by simp)
    · exact { hinv.settled with
        upper := fun _ => hc
        handles := fun _ d hd => by cases hd
        uuid := fun _ => by
          rw [show s.fs.lowerFs = [] from hbare.lowerFs]
          exact .nil }
  · rintro _ ⟨s, ⟨hinv, hbare, htrap⟩, rfl⟩ hu hindex
    refine ⟨⟨hinv.marks.busyUpper hbare.upper hbare.work hu, ⟨fun hi => ?_, fun _ w hw => ?_⟩, ?_,
      hinv.traps, hinv.nodup⟩, { hbare with upper := rfl, upperTrap := htrap }⟩
    · exact absurd (hindex.symm.trans (hbare.index.trans hi)) (by simp)
    · exact absurd (hbare.work.symm.trans hw) (by simp)
    · exact { hinv.settled with
        upper := fun _ => hc
        handles := fun _ d hd => by cases hd
        uuid := fun _ => by
          rw [show s.fs.lowerFs = [] from hbare.lowerFs]
          exact .nil }
  · rintro _ ⟨s, ⟨hinv, hbare, -⟩, rfl⟩ hu
    exact ⟨hinv.marks.busyUpper hbare.upper hbare.work hu, none, hinv.traps,
      fun d hd => by cases hd⟩

theorem MountInv.options {seen' : List δ} (h : MountInv env c s₀ seen s) (hm : SameDirs s.fs m)
    (hset : Settled env c seen' m) : MountInv env c s₀ seen' { s with fs := m } :=
  h.setFs hm.marks hm.trapsOf hset

/-- Options are given up and counters change. -/
theorem triple_setOptions {f : Mounting δ σ → Mounting δ σ} {E : MountState δ σ → Prop}
    {seen' : List δ} {K : Mounting δ σ → Prop}
    (hf : ∀ m, SameDirs m (f m)) (hset : ∀ m, Settled env c seen m → K m →
      Settled env c seen' (f m)) (hK : ∀ m m', SameDirs m m' → K m → K m') :
    Triple (fun s => MountInv env c s₀ seen s ∧ K s.fs) (setFs f : MountM δ σ Unit)
      (fun _ s => MountInv env c s₀ seen' s ∧ K s.fs) E :=
  triple_setFs fun s hs => ⟨hs.1.options (hf s.fs) (hset s.fs hs.1.settled hs.2),
    hK s.fs _ (hf s.fs) hs.2⟩

theorem triple_setConfig {f : OvlConfig → OvlConfig} {E : MountState δ σ → Prop}
    {K K' : Mounting δ σ → Prop} (hf : GivesUp f)
    (hK : ∀ m, SameDirs m { m with config := f m.config } → K m →
      K' { m with config := f m.config }) :
    Triple (fun s => MountInv env c s₀ seen s ∧ K s.fs) (setConfig f : MountM δ σ Unit)
      (fun _ s => MountInv env c s₀ seen s ∧ K' s.fs) E :=
  triple_setFs fun s hs => ⟨hs.1.options (hf.sameDirs s.fs) (hs.1.settled.giveUp hf),
    hK s.fs (hf.sameDirs s.fs) hs.2⟩

theorem triple_probeUpper (w : δ) {K : Mounting δ σ → Prop}
    (hK : ∀ m m', SameDirs m m' → K m → K m') :
    Triple (fun s => MountInv env c s₀ [] s ∧ K s.fs) (probeUpper env w)
      (fun _ s => MountInv env c s₀ [] s ∧ K s.fs ∧
        (s.fs.config.index = true → env.fhType (env.sb w) ≠ .none)) (MountFailed env s₀) := by
  refine (triple_checked _ fun s hs => hs.1.failed).bind fun _ => ?_
  refine Triple.bind (triple_setOptions (fun m => ?_) (fun m h _ => { h with }) hK) fun _ => ?_
  · exact ⟨⟨rfl, rfl, rfl, rfl⟩, rfl, rfl, rfl, rfl, rfl, rfl, rfl, rfl, id, id, rfl⟩
  refine Triple.bind (.doIf fun _ => triple_setOptions (fun m => ?_) (fun m h _ => ?_) hK)
    fun _ => ?_
  · exact ⟨⟨rfl, rfl, rfl, rfl⟩, rfl, rfl, rfl, rfl, rfl, rfl, rfl, rfl,
      fun h => (by cases h), id, rfl⟩
  · exact { h with
      rest := h.rest
      index := fun hi => by cases hi
      metacopy := fun hi => by cases hi
      noxattr := fun _ => ⟨rfl, rfl⟩
      xattrs := fun hn => by cases hn
      handles := fun _ d hd => by cases hd
      uuid := fun hu => h.uuid (hu.imp id fun hi => by cases hi.1) }
  -- from here on the index is only kept with file handles
  let K' := fun m : Mounting δ σ => K m ∧ (m.config.index = true → env.fhType (env.sb w) ≠ .none)
  have hK' : ∀ m m', SameDirs m m' → K' m → K' m' := fun m m' hm hk =>
    ⟨hK m m' hm hk.1, fun hi => hk.2 (hm.index hi)⟩
  refine Triple.bind (Q := fun _ s => MountInv env c s₀ [] s ∧ K' s.fs) (.ite (fun _ => ?_)
    fun hfh => .pure fun s hs => ⟨hs.1, hs.2, fun _ => by simpa using hfh⟩) fun _ => ?_
  · refine triple_setConfig ?_ fun m hm hk => ⟨hK m _ hm hk, fun hi => ?_⟩
    · exact ⟨fun _ => rfl, fun _ => rfl, fun _ hi => (by cases hi), fun _ => id, fun _ => rfl⟩
    · cases hi
  refine Triple.bind (.doIf fun _ => triple_setOptions (fun m => ?_) (fun m h _ => ?_) hK')
    fun _ => ?_
  · exact ⟨⟨rfl, rfl, rfl, rfl⟩, rfl, rfl, rfl, rfl, rfl, rfl, rfl, rfl, id, id, rfl⟩
  · exact { h with xino := fun hx => absurd rfl hx }
  · refine triple_setConfig ?_ fun m => hK' m _
    refine ⟨fun _ => rfl, fun _ => rfl, fun _ => id, fun c hn => ?_, fun _ => rfl⟩
    exact (Bool.and_eq_true_iff.mp hn).1

theorem triple_ovlMakeWorkdir {u : δ} :
    Triple (fun s => MountInv env c s₀ [] s ∧ Based u s.fs ∧ s.fs.workdirTrap = none)
      (ovlMakeWorkdir env)
      (fun _ s => MountInv env c s₀ [] s ∧ Based u s.fs ∧ IndexHandles env s.fs)
      (MountFailed env s₀) := by
  refine (triple_mountCall _ fun s hs => hs.1.failed).bind fun _ => ?_
  refine (triple_setFs (Q := fun s => MountInv env c s₀ [] s ∧ (Based u s.fs ∧
    s.fs.workdir = env.workdir) ∧ s.fs.workdirTrap = none) fun s hs => ?_).bind fun _ => ?_
  · exact ⟨hs.1.setFs ⟨rfl, rfl, rfl, rfl⟩ rfl { hs.1.settled with }, ⟨{ hs.2.1 with }, rfl⟩,
      hs.2.2⟩
  cases hw : env.workdir with
  | none =>
    refine .pure fun s hs => ⟨hs.1, hs.2.1.1, fun _ w hw' => ?_⟩
    rw [hs.2.1.2] at hw'
    cases hw'
  | some w =>
    refine (triple_ovlSetupTrap (Q := fun s => MountInv env c s₀ [] s ∧ Based u s.fs ∧
      s.fs.workdir = some w) .workdirTrap w (fun s hs => hs.1.failed) fun s hs hd => ?_).bind
        fun _ => ?_
    · exact ⟨hs.1.addTrap hd ⟨rfl, rfl, rfl, rfl⟩ (Mounting.trapsOf_workdir hs.2.2 w)
        { hs.1.settled with }, { hs.2.1.1 with }, hs.2.1.2⟩
    refine (triple_probeUpper w (K := fun m => Based u m ∧ m.workdir = some w) fun m m' hm hk =>
      ⟨hk.1.options hm, hm.workdir.trans hk.2⟩).mono (fun _ h => h) fun _ s hs => ?_
    refine ⟨hs.1, hs.2.1.1, fun hi w' hw' => ?_⟩
    obtain rfl : w = w' := Option.some.inj (hs.2.1.2.symm.trans hw')
    exact hs.2.2 hi

theorem triple_ovlGetWorkdir (u : δ) :
    Triple (fun s => MountInv env c s₀ [] s ∧ UpperFound c u s.fs) (ovlGetWorkdir env u)
      (fun _ s => MountInv env c s₀ [] s ∧ Based u s.fs ∧ IndexHandles env s.fs)
      (MountFailed env s₀) := by
  refine (triple_ovlMountDir _ fun s hs => hs.1.failed).bind fun w => ?_
  refine Triple.bind (.ensure fun s hs => hs.1.failed) fun _ => ?_
  refine Triple.bind (.ensure fun s hs => hs.1.1.failed) fun _ => ?_
  refine (triple_setFs (Q := fun s => ∃ s', (MountInv env c s₀ [] s' ∧ UpperFound c u s'.fs) ∧
      s = { s' with fs := { s'.fs with workbasedir := some w } })
    fun s hs => ⟨s, hs.1.1, rfl⟩).bind fun _ => ?_
  refine (triple_markInuse (Q := fun s => MountInv env c s₀ [] s ∧
    UpperFound c u { s.fs with workbasedir := none } ∧ s.fs.workbasedir = some w) w
    ?_ ?_ ?_).bind fun _ => ?_
  · rintro _ ⟨s, ⟨hinv, hup⟩, rfl⟩ hw
    have hmarks := hinv.marks.lockWork hup.work hw
    refine ⟨⟨hmarks, ⟨fun hi v hv => hinv.unshared.upper hi v hv, fun _ v hv => ?_⟩,
      { hinv.settled with }, hinv.traps, hinv.nodup⟩, { hup with work := rfl }, rfl⟩
    have := hmarks.work v hv
    rwa [eq_comm, Bool.not_eq_true', Bool.or_eq_false_iff] at this
  · rintro _ ⟨s, ⟨hinv, hup⟩, rfl⟩ hw hindex
    refine ⟨⟨hinv.marks.busyWork hup.work hw, ⟨fun hi v hv => hinv.unshared.upper hi v hv,
      fun hi => ?_⟩, { hinv.settled with }, hinv.traps, hinv.nodup⟩, { hup with work := rfl }, rfl⟩
    exact absurd (hindex.symm.trans (hup.index.trans hi)) (by simp)
  · rintro _ ⟨s, ⟨hinv, hup⟩, rfl⟩ hw
    exact ⟨hinv.marks.busyWork hup.work hw, none, hinv.traps, fun d hd => by cases hd⟩
  refine (triple_ovlSetupTrap (Q := fun s => MountInv env c s₀ [] s ∧ Based u s.fs ∧
    s.fs.workdirTrap = none) .workTrap w (fun s hs => hs.1.failed) fun s hs hd => ?_).bind
      fun _ => triple_ovlMakeWorkdir
  obtain ⟨hinv, hup, hwork⟩ := hs
  refine ⟨hinv.addTrap hd ⟨rfl, rfl, rfl, rfl⟩ (Mounting.trapsOf_work hup.workTrap w)
    { hinv.settled with }, { hup with workTrap := fun v hv => ?_ }, hup.workdirTrap⟩
  exact hwork.symm.trans hv

theorem triple_fillUpper :
    Triple (fun s => MountInv env c s₀ [] s ∧ Bare c s.fs) (fillUpper env)
      (fun _ s => MountInv env c s₀ [] s ∧ Ready env false s.fs) (MountFailed env s₀) := by
  refine Triple.bind .get fun a => .ite (fun ha => ?_) fun ha => .pure fun s hs => ?_
  · refine .assuming (φ := c.upperdir.isSome = true) (fun s hs => ?_) fun hc => ?_
    · rw [hs.2] at ha
      rwa [hs.1.1.settled.upperdir] at ha
    refine Triple.bind (.ensure fun s hs => hs.1.1.failed) fun _ => ?_
    refine .assuming (φ := c.workdir.isSome = true) (fun s hs => ?_) fun hw => ?_
    · rw [← hs.1.1.1.settled.workdir, ← hs.1.2]
      exact hs.2
    refine Triple.bind ((triple_ovlGetUpper hc).mono (fun s hs => hs.1.1) fun _ _ h => h)
      fun u => ?_
    refine (triple_ovlGetWorkdir u).bind fun _ => triple_setFs fun s hs => ?_
    refine ⟨hs.1.setFs ⟨rfl, rfl, rfl, rfl⟩ rfl { hs.1.settled with }, ?_⟩
    obtain ⟨hinv, hbased, hindex⟩ := hs
    refine ⟨fun _ => ?_, fun v hv => ?_, hbased.workTrap, fun hn => ?_, hindex, fun _ hw => ?_,
      hbased.indexdir, hbased.indexTrap, fun h => (by cases h), fun _ => hinv.settled.workdir ▸ hw⟩
    · exact Option.isSome_iff_exists.mpr ⟨u, hbased.upper⟩
    · obtain rfl : u = v := Option.some.inj (hbased.upper.symm.trans hv)
      exact hbased.upperTrap
    · exact absurd (hbased.upper.symm.trans hn) (by simp)
    · change (s.fs.rdonly || s.fs.workdir.isNone) = true
      rw [show s.fs.workdir = none from hw]
      simp
  · refine ⟨hs.1.1, hs.1.2.ready ?_⟩
    rw [← hs.2]
    exact eq_false_of_ne_true ha

end Keeps

end FzzOverlay

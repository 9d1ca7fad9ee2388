import Mathlib.Logic.Function.Iterate
import FzzOverlay.CopyUp.FlagsSpec

/-!
# Copying a path up

`ovl_copy_up_one` for every type of file, and `ovl_copy_up_flags` on a tree of dentries:
the loop looks for the topmost ancestor without an upper, copies it up, and starts again
until the dentry itself is copied up. Nothing else changes the tree meanwhile, and the
dentry is connected. What each call into the rest of the kernel returns is an argument,
anew for each pass.
-/

namespace FzzOverlay

open SparseFile

/-- The types of files that the copy-up code tells apart. -/
inductive FileKind where
  | dir | reg | lnk | special
  deriving DecidableEq

/-- The calls that only other types of files need. -/
structure NodeEnv extends CopyUpEnv where
  getLink : Option Errno
  createIndex : Option Errno

/-- A copy-up during which nothing fails. -/
def NodeEnv.full : NodeEnv := ⟨.full false, none, none⟩

/-- A call that may fail. -/
def callOr {σ : Type} (e : Option Errno) (s : σ) : ℤ × σ :=
  match e with
  | none => (0, s)
  | some e => (e.ret, s)

/-- `ovl_copy_up_inode` on a new inode and the installation of that inode. Only a
regular file is given a block map. -/
def nodeCopyUpTemp (env : NodeEnv) (kind : FileKind) (c : CopyUpCtx) (f : OvlFile) :
    ℤ × OvlFile :=
  let size := if kind = .reg then c.size else 0
  let r := ovlCopyUpInode env.toCopyUpEnv { c with size := size } f.oi newTemp
  let f := { f with oi := r.2.1 }
  if r.1 ≠ 0 then (r.1, f)
  else
    cuThen (if kind = .dir ∧ env.needIndex then callOr env.createIndex f else (0, f)) fun f =>
    cuThen (env.call .lookup f) fun f =>
    cuThen (env.call .install f) fun f =>
      (0, { f with
        upper := some r.2.2
        oi := { f.oi with upperdata := if c.metacopy then f.oi.upperdata else true } })

/-- `ovl_do_copy_up`, with `ovl_copy_up_tmpfile` and `ovl_copy_up_workdir`. -/
def nodeDoCopyUp (env : NodeEnv) (kind : FileKind) (c : CopyUpCtx) (f : OvlFile) :
    ℤ × OvlFile :=
  let toIndex := env.needIndex && decide (kind ≠ .dir)
  let c := { c with origin := decide (kind = .dir) || env.nlinkOne || toIndex }
  cuThen (if toIndex then env.call .getIndexName f
    else if env.disconnected then (Errno.ret EIO, f)
    else env.call .setImpure f) fun f =>
  cuThen (
    cuThen (if kind = .reg ∧ env.tmpfile then (0, f) else env.call .lockRename f) fun f =>
    cuThen (env.call .prepCuCreds f) fun f =>
    cuThen (env.call .createTemp f) fun f =>
    nodeCopyUpTemp env kind c f) fun f =>
  if toIndex then env.call .setNlinkUpper f
  else (0, { f with upperAlias := true })

/-- `ovl_copy_up_one`. -/
def nodeCopyUpOne (env : NodeEnv) (kind : FileKind) (f : OvlFile) (flags : ℕ) : ℤ × OvlFile :=
  if !env.workdir then (EROFS.ret, f)
  else
    cuThen (env.call .getattr f) fun f =>
    cuThen (if env.disconnected then (0, f) else env.call .parentGetattr f) fun f =>
    let c : CopyUpCtx :=
      ⟨if hasTrunc flags then 0 else (f.lowerAt f.ovlPathLower).size, false,
        decide (kind = .reg) && ovlNeedMetaCopyUp env.metacopy flags⟩
    cuThen (if kind = .lnk then callOr env.getLink f else (0, f)) fun f =>
    cuThen (env.call .inodeLock f) fun f =>
    if alreadyCopiedUpLocked env.toCopyUpEnv f flags then (0, f)
    else
      cuThen (if f.upper.isNone then nodeDoCopyUp env kind c f else (0, f)) fun f =>
      cuThen (if !env.disconnected && !f.upperAlias then ovlLinkUp env.toCopyUpEnv f
        else (0, f)) fun f =>
      if needsDataCopyUpLocked f flags then ovlCopyUpMetaInodeData env.toCopyUpEnv c f
      else (0, f)

/-- On a regular file this is the copy-up of `CopyUp.Flags`. -/
theorem nodeCopyUpOne_reg (env : NodeEnv) (f : OvlFile) (flags : ℕ) :
    nodeCopyUpOne env .reg f flags = ovlCopyUpOne env.toCopyUpEnv f flags := by
  have htemp : ∀ c f, nodeCopyUpTemp env .reg c f = copyUpTemp env.toCopyUpEnv c f := by
    intro c f
    simp only [nodeCopyUpTemp, copyUpTemp, if_true, reduceCtorEq, false_and, if_false,
      cuThen_zero]
  have hdo : ∀ c f, nodeDoCopyUp env .reg c f = ovlDoCopyUp env.toCopyUpEnv c f := by
    intro c f
    cases ht : env.tmpfile <;>
      simp only [nodeDoCopyUp, ovlDoCopyUp, ovlCopyUpTmpfile, ovlCopyUpWorkdir, htemp, ht,
        reduceCtorEq, ne_eq, not_false_eq_true, decide_true, decide_false, Bool.and_true,
        Bool.false_or, true_and, if_true, Bool.false_eq_true, if_false, cuThen_zero]
  simp only [nodeCopyUpOne, ovlCopyUpOne, hdo, reduceCtorEq, if_false, cuThen_zero,
    decide_true, Bool.true_and]

/-- What a copy-up leaves of the file it works on. -/
structure Grows (f g : OvlFile) : Prop where
  lowerstack : g.lowerstack = f.lowerstack
  upper : f.upper.isSome = true → g.upper.isSome = true
  upperAlias : f.upperAlias = true → g.upperAlias = true
  upperdata : f.oi.upperdata = true → g.oi.upperdata = true

section Growth

variable {σ : Type} {env : NodeEnv} {kind : FileKind} {f g : OvlFile}

theorem Grows.refl (f : OvlFile) : Grows f f := ⟨rfl, id, id, id⟩

theorem Grows.trans {h : OvlFile} (hfg : Grows f g) (hgh : Grows g h) : Grows f h where
  lowerstack := hgh.lowerstack.trans hfg.lowerstack
  upper := hgh.upper ∘ hfg.upper
  upperAlias := hgh.upperAlias ∘ hfg.upperAlias
  upperdata := hgh.upperdata ∘ hfg.upperdata

/-- A part of a copy-up that was entered with `f`: it only adds to the file, and when
it succeeds it leaves `S`. -/
def Yields (f : OvlFile) (S : OvlFile → Prop) (r : ℤ × OvlFile) : Prop :=
  Grows f r.2 ∧ (r.1 = 0 → S r.2)

theorem Yields.then {S T : OvlFile → Prop} {r : ℤ × OvlFile} {k : OvlFile → ℤ × OvlFile}
    (hr : Yields f S r) (hk : ∀ g, Grows f g → S g → Yields f T (k g)) :
    Yields f T (cuThen r k) := by
  by_cases h0 : r.1 = 0
  · rw [cuThen, if_pos h0]
    exact hk r.2 hr.1 (hr.2 h0)
  · rw [cuThen, if_neg h0]
    exact ⟨hr.1, fun h => absurd h h0⟩

theorem Yields.mono {S T : OvlFile → Prop} {r : ℤ × OvlFile} (hr : Yields f S r)
    (h : ∀ g, S g → T g) : Yields f T r :=
  ⟨hr.1, fun h0 => h r.2 (hr.2 h0)⟩

theorem Yields.trans {S : OvlFile → Prop} {r : ℤ × OvlFile} (hfg : Grows f g)
    (hr : Yields g S r) : Yields f S r :=
  ⟨hfg.trans hr.1, hr.2⟩

theorem yields_of_snd {S : OvlFile → Prop} {r : ℤ × OvlFile} (h : r.2 = g) (hg : Grows f g)
    (hs : S g) : Yields f S r := by
  rw [Yields, h]
  exact ⟨hg, fun _ => hs⟩

theorem yields_call {S : OvlFile → Prop} {p : CuPoint} (hg : Grows f g) (hs : S g) :
    Yields f S (env.call p g) :=
  yields_of_snd (call_snd _ _ _) hg hs

theorem passes_call {p : CuPoint} (hg : Grows f g) :
    Yields f (fun _ => True) (env.call p g) :=
  yields_call hg trivial

/-- A call that is made under a condition. -/
theorem yields_ite {S : OvlFile → Prop} {b : Prop} [Decidable b] {r r' : ℤ × OvlFile}
    (hr : b → Yields f S r) (hr' : ¬ b → Yields f S r') : Yields f S (if b then r else r') := by
  split
  · next h => exact hr h
  · next h => exact hr' h

theorem callOr_snd (e : Option Errno) (g : OvlFile) : (callOr e g).2 = g := by
  cases e <;> rfl

theorem copiedUpInode_upperdata (env : CopyUpEnv) (c : CopyUpCtx) (oi : OvlInode) :
    (copiedUpInode env c oi).upperdata = oi.upperdata := by
  rw [copiedUpInode]
  split
  · rfl
  · split <;> rfl

/-- The state in which the dentry has an upper. -/
def HasUpper (f : OvlFile) : Prop := f.upper.isSome = true

theorem yields_nodeCopyUpTemp (env : NodeEnv) (kind : FileKind) (c : CopyUpCtx) (f : OvlFile) :
    Yields f HasUpper (nodeCopyUpTemp env kind c f) := by
  rw [nodeCopyUpTemp]
  have hdata : ∀ c', (ovlCopyUpInode env.toCopyUpEnv c' f.oi newTemp).2.1.upperdata =
      f.oi.upperdata := by
    intro c'
    rw [(ovlCopyUpInode_cases env.toCopyUpEnv c' f.oi).1, copiedUpInode_upperdata]
  specialize hdata { c with size := if kind = .reg then c.size else 0 }
  revert hdata
  generalize ovlCopyUpInode env.toCopyUpEnv _ f.oi newTemp = r
  intro hdata
  have hg : Grows f { f with oi := r.2.1 } := ⟨rfl, id, id, hdata.trans⟩
  refine yields_ite (fun h => ⟨hg, fun h0 => absurd h0 h⟩) (fun _ => ?_)
  have hindex : Yields f (fun _ => True)
      (if kind = .dir ∧ env.needIndex then callOr env.createIndex { f with oi := r.2.1 }
        else (0, { f with oi := r.2.1 })) :=
    yields_ite (fun _ => yields_of_snd (callOr_snd _ _) hg trivial)
      (fun _ => yields_of_snd rfl hg trivial)
  refine hindex.then fun g hg _ => ?_
  refine (passes_call hg).then fun g hg _ => ?_
  refine (passes_call hg).then fun g hg _ => ?_
  refine ⟨hg.trans ⟨rfl, fun _ => rfl, id, fun h => ?_⟩, fun _ => rfl⟩
  simp only [h, ite_self]

theorem yields_nodeDoCopyUp (env : NodeEnv) (kind : FileKind) (c : CopyUpCtx) (f : OvlFile) :
    Yields f HasUpper (nodeDoCopyUp env kind c f) := by
  rw [nodeDoCopyUp]
  generalize (env.needIndex && decide (kind ≠ .dir)) = toIndex
  have hguard : Yields f (fun _ => True) (if toIndex then env.call .getIndexName f
      else if env.disconnected then (Errno.ret EIO, f) else env.call .setImpure f) :=
    yields_ite (fun _ => passes_call (.refl f)) fun _ =>
      yields_ite (fun _ => yields_of_snd rfl (.refl f) trivial)
        fun _ => passes_call (.refl f)
  refine hguard.then fun g hg _ => ?_
  have hlock : Yields f (fun _ => True)
      (if kind = .reg ∧ env.tmpfile then (0, g) else env.call .lockRename g) :=
    yields_ite (fun _ => yields_of_snd rfl hg trivial) fun _ => passes_call hg
  refine Yields.then (S := HasUpper) ?_ fun g hg hup => ?_
  · refine hlock.then fun g hg _ => ?_
    refine (passes_call hg).then fun g hg _ => ?_
    refine (passes_call hg).then fun g hg _ => ?_
    exact .trans hg (yields_nodeCopyUpTemp env kind _ g)
  · refine yields_ite (fun _ => yields_call hg hup) fun _ => ?_
    exact ⟨hg.trans ⟨rfl, id, fun _ => rfl, id⟩, fun _ => hup⟩

theorem yields_ovlLinkUp (env : CopyUpEnv) (f : OvlFile) (hup : HasUpper f) :
    Yields f (fun g => HasUpper g ∧ g.upperAlias = true) (ovlLinkUp env f) := by
  have hstay : ∀ p : CuPoint, Yields f (fun g => g = f) (env.call p f) := fun p =>
    yields_of_snd (call_snd _ _ _) (.refl f) rfl
  rw [ovlLinkUp]
  refine (hstay _).then fun g _ hf => ?_
  rw [hf]
  refine (hstay _).then fun g _ hf => ?_
  rw [hf]
  refine (hstay _).then fun g _ hf => ?_
  rw [hf]
  refine (hstay _).then fun g _ hf => ?_
  rw [hf]
  exact yields_of_snd (call_snd _ _ _) ⟨rfl, id, fun _ => rfl, id⟩ ⟨hup, rfl⟩

theorem yields_ovlCopyUpMetaInodeData (env : CopyUpEnv) (c : CopyUpCtx) (f : OvlFile)
    (halias : f.upperAlias = true) :
    Yields f (fun g => HasUpper g ∧ g.upperAlias = true ∧ g.oi.upperdata = true)
      (ovlCopyUpMetaInodeData env c f) := by
  obtain ⟨e, h⟩ | ⟨hup, h⟩ := ovlCopyUpMetaInodeData_cases env c f
  · rw [h]
    exact ⟨.refl f, fun h0 => absurd h0 (Int.ne_of_lt e.ret_neg)⟩
  · rw [h]
    have hup' : (completedFile f f.upperAlias).upper.isSome = true := by
      rw [completedFile, Option.isSome_map]
      exact hup
    exact ⟨⟨rfl, fun _ => hup', id, fun _ => rfl⟩, fun _ => ⟨hup', halias, rfl⟩⟩

/-- A connected dentry after a copy-up that succeeded. -/
def CopiedUpNode (flags : ℕ) (f : OvlFile) : Prop :=
  HasUpper f ∧ f.upperAlias = true ∧ needsDataCopyUpLocked f flags = false

/-- `ovl_copy_up_one` of a connected dentry. -/
theorem yields_nodeCopyUpOne (env : NodeEnv) (kind : FileKind) (f : OvlFile) (flags : ℕ)
    (hconn : env.disconnected = false) :
    Yields f (CopiedUpNode flags) (nodeCopyUpOne env kind f flags) := by
  rw [nodeCopyUpOne]
  have hrofs : EROFS.ret ≠ 0 := Int.ne_of_lt EROFS.ret_neg
  refine yields_ite (fun _ => ⟨.refl f, fun h0 => absurd h0 hrofs⟩) fun _ => ?_
  refine (passes_call (.refl f)).then fun g hg _ => ?_
  rw [hconn]
  refine (passes_call hg).then fun g hg _ => ?_
  refine Yields.then (S := fun _ => True) (yields_ite
    (fun _ => yields_of_snd (callOr_snd _ _) hg trivial)
    fun _ => yields_of_snd rfl hg trivial) fun g hg _ => ?_
  refine (passes_call hg).then fun g hg _ => ?_
  refine yields_ite (fun h => ?_) fun _ => ?_
  · simp only [alreadyCopiedUpLocked, hconn, Bool.or_false, Bool.and_eq_true,
      Bool.not_eq_true'] at h
    exact ⟨hg, fun _ => ⟨h.1.1, h.1.2, h.2⟩⟩
  · refine Yields.then (S := HasUpper) (yields_ite
      (fun _ => .trans hg (yields_nodeDoCopyUp env kind _ g)) fun h => ?_) fun g hg hup => ?_
    · refine ⟨hg, fun _ => ?_⟩
      rwa [Bool.not_eq_true, Option.isNone_eq_false_iff] at h
    refine Yields.then (S := fun g => HasUpper g ∧ g.upperAlias = true) (yields_ite
      (fun _ => .trans hg (yields_ovlLinkUp _ g hup)) fun h => ?_) fun g hg hup => ?_
    · simp only [Bool.not_false, Bool.true_and, Bool.not_eq_true', Bool.not_eq_false] at h
      exact ⟨hg, fun _ => ⟨hup, h⟩⟩
    refine yields_ite (fun _ => ?_) fun h => ⟨hg, fun _ => ⟨hup.1, hup.2, eq_false_of_ne_true h⟩⟩
    refine .trans hg ((yields_ovlCopyUpMetaInodeData _ _ g hup.2).mono ?_)
    rintro s ⟨hs, ha, hd⟩
    refine ⟨hs, ha, ?_⟩
    simp only [needsDataCopyUpLocked, hd, Bool.not_true, ite_self]

end Growth

/-- The dentries of an overlay and their inodes, with what a copy-up does not change:
the lower stack of a dentry, the type of an inode and whether it has a lower inode. A
directory has one dentry. -/
structure OvlTree (D I : Type) where
  root : D
  parent : D → D
  inode : D → I
  lowerstack : D → List File
  kind : I → FileKind
  lower : I → Bool
  parent_root : parent root = root
  dir_alias : ∀ d d', kind (inode d) = .dir → inode d = inode d' → d = d'

/-- What a copy-up changes: the upper and the overlay inode, which belong to the inode,
and the alias flag of the dentry. -/
structure TreeState (D I : Type) where
  upper : I → Option UpperInode
  oi : I → OvlInode
  upperAlias : D → Bool

namespace OvlTree

variable {D I : Type} (t : OvlTree D I)

/-- `ovl_dentry_upper`. -/
def hasUpper (st : TreeState D I) (d : D) : Bool := (st.upper (t.inode d)).isSome

/-- The file behind a dentry. -/
def file (st : TreeState D I) (d : D) : OvlFile :=
  ⟨t.lowerstack d, st.upper (t.inode d), st.upperAlias d, st.oi (t.inode d)⟩

def store [DecidableEq D] [DecidableEq I] (st : TreeState D I) (d : D) (f : OvlFile) :
    TreeState D I where
  upper := Function.update st.upper (t.inode d) f.upper
  oi := Function.update st.oi (t.inode d) f.oi
  upperAlias := Function.update st.upperAlias d f.upperAlias

/-- `ovl_has_upperdata`. -/
def hasUpperdata (st : TreeState D I) (i : I) : Bool :=
  if t.kind i ≠ .reg then true else if !t.lower i then true else (st.oi i).upperdata

/-- `ovl_already_copied_up` of a connected dentry. -/
def alreadyCopiedUp (st : TreeState D I) (d : D) (flags : ℕ) : Bool :=
  t.hasUpper st d && st.upperAlias d &&
    !(if !ovlOpenFlagsNeedCopyUp flags then false else !t.hasUpperdata st (t.inode d))

/-- The inner loop of `ovl_copy_up_flags`: the parent and the topmost dentry that is not
copied up. -/
def topmost (st : TreeState D I) : ℕ → D → Option (D × D)
  | 0, _ => none
  | n + 1, next =>
    if t.hasUpper st (t.parent next) then some (t.parent next, next)
    else topmost st n (t.parent next)

/-- `ovl_copy_up_one` of a dentry of the tree. `vfs_getattr` goes through the first lower
path, whatever it is. -/
def copyUpOne [DecidableEq D] [DecidableEq I] (env : NodeEnv) (next : D) (flags : ℕ)
    (st : TreeState D I) : Outcome (ℤ × TreeState D I) :=
  if env.workdir ∧ t.lowerstack next = [] then .oops
  else
    let env := { env with disconnected := false }
    let r := nodeCopyUpOne env (t.kind (t.inode next)) (t.file st next) flags
    .ret (r.1, t.store st next r.2)

/-- The outer loop of `ovl_copy_up_flags` on a connected dentry, with the states after
its calls of `ovl_copy_up_one`. -/
def copyUpPasses [DecidableEq D] [DecidableEq I] (envs : ℕ → NodeEnv) (flags : ℕ)
    (dentry : D) :
    ℕ → ℕ → TreeState D I → Outcome (ℤ × TreeState D I) × List (TreeState D I)
  | 0, _, _ => (.running, [])
  | n + 1, i, st =>
    if t.alreadyCopiedUp st dentry flags then (.ret (0, st), [])
    else
      match t.topmost st (n + 1) dentry with
      | none => (.running, [])
      | some (_, next) =>
        match t.copyUpOne (envs i) next flags st with
        | .running => (.running, [])
        | .oops => (.oops, [])
        | .ret (err, st') =>
          if err = 0 then
            let r := copyUpPasses envs flags dentry n (i + 1) st'
            (r.1, st' :: r.2)
          else (.ret (err, st'), [st'])

/-- Directories with an upper and dentries with an upper alias have a parent with an
upper. -/
def Closed (st : TreeState D I) : Prop :=
  ∀ d, (t.kind (t.inode d) = .dir ∧ t.hasUpper st d = true) ∨ st.upperAlias d = true →
    t.hasUpper st (t.parent d) = true

/-- What every lookup leaves: a dentry without a lower stack is in the upper layer, with
its data. -/
def Backed (st : TreeState D I) : Prop :=
  ∀ d, t.lowerstack d = [] →
    t.hasUpper st d = true ∧ st.upperAlias d = true ∧ t.hasUpperdata st (t.inode d) = true

/-- What one call of `ovl_copy_up_one` does to the tree. -/
structure Copies (next : D) (flags : ℕ) (st : TreeState D I) (err : ℤ) (st' : TreeState D I) :
    Prop where
  upper : ∀ d, t.hasUpper st d = true → t.hasUpper st' d = true
  upper_of_ne : ∀ d, t.inode d ≠ t.inode next → t.hasUpper st' d = t.hasUpper st d
  upperAlias : ∀ d, st.upperAlias d = true → st'.upperAlias d = true
  upperAlias_of_ne : ∀ d, d ≠ next → st'.upperAlias d = st.upperAlias d
  upperdata : ∀ i, t.hasUpperdata st i = true → t.hasUpperdata st' i = true
  done : err = 0 → t.alreadyCopiedUp st' next flags = true

variable {t} {st st' : TreeState D I} {next d : D} {flags : ℕ} {env : NodeEnv} {err : ℤ}

theorem hasUpper_congr (h : t.inode d = t.inode next) :
    t.hasUpper st d = t.hasUpper st next := by
  rw [hasUpper, hasUpper, h]

theorem hasUpperdata_of_upperdata {i : I} (h : (st.oi i).upperdata = true) :
    t.hasUpperdata st i = true := by
  simp only [hasUpperdata, h, ite_self]

/-- A dentry that is not copied up has a lower stack. -/
theorem Backed.lowerstack_ne_nil (hb : t.Backed st)
    (h : t.alreadyCopiedUp st next flags = false ∨ t.hasUpper st next = false) :
    t.lowerstack next ≠ [] := by
  intro hl
  obtain ⟨hup, halias, hdata⟩ := hb next hl
  obtain h | h := h
  · simp only [alreadyCopiedUp, hup, halias, hdata, Bool.not_true, ite_self, Bool.not_false,
      Bool.and_self, Bool.true_eq_false] at h
  · rw [hup] at h
    cases h

theorem Copies.backed (hc : t.Copies next flags st err st') (hb : t.Backed st) :
    t.Backed st' := by
  intro d hd
  obtain ⟨hup, halias, hdata⟩ := hb d hd
  exact ⟨hc.upper d hup, hc.upperAlias d halias, hc.upperdata _ hdata⟩

/-- Copying up below a parent that has an upper keeps the upper layer closed. -/
theorem Copies.closed (hc : t.Copies next flags st err st')
    (hparent : t.hasUpper st (t.parent next) = true) (hst : t.Closed st) : t.Closed st' := by
  intro d hd
  by_cases hnext : d = next
  · rw [hnext]
    exact hc.upper _ hparent
  apply hc.upper
  apply hst d
  obtain ⟨hdir, hup⟩ | halias := hd
  · refine .inl ⟨hdir, ?_⟩
    have hne : t.inode d ≠ t.inode next := fun h => hnext (t.dir_alias d next hdir h)
    rwa [← hc.upper_of_ne d hne]
  · right
    rwa [← hc.upperAlias_of_ne d hnext]

/-- The inner loop stops at the first ancestor with an upper. -/
theorem topmost_eq {k n : ℕ} (hk : t.hasUpper st (t.parent^[k + 1] d) = true) (hn : k < n) :
    ∃ j ≤ k, t.topmost st n d = some (t.parent^[j + 1] d, t.parent^[j] d) ∧
      t.hasUpper st (t.parent^[j + 1] d) = true ∧
      (j = 0 ∨ t.hasUpper st (t.parent^[j] d) = false) := by
  induction k generalizing d n with
  | zero =>
    obtain ⟨n, rfl⟩ : ∃ m, n = m + 1 := ⟨n - 1, by omega⟩
    exact ⟨0, Nat.le_refl 0, if_pos hk, hk, .inl rfl⟩
  | succ k ih =>
    obtain ⟨n, rfl⟩ : ∃ m, n = m + 1 := ⟨n - 1, by omega⟩
    rw [topmost]
    by_cases hp : t.hasUpper st (t.parent d) = true
    · exact ⟨0, Nat.zero_le _, if_pos hp, hp, .inl rfl⟩
    · rw [Function.iterate_succ_apply] at hk
      obtain ⟨j, hj, htop, hup, hlast⟩ := ih hk (n := n) (by omega)
      rw [if_neg hp]
      refine ⟨j + 1, by omega, ?_, ?_, .inr ?_⟩
      · rw [htop, Function.iterate_succ_apply, Function.iterate_succ_apply]
        rfl
      · rwa [Function.iterate_succ_apply]
      · rw [Function.iterate_succ_apply]
        obtain rfl | hlast := hlast
        · exact eq_false_of_ne_true hp
        · exact hlast

section Store

variable [DecidableEq D] [DecidableEq I]

theorem store_upper (f : OvlFile) :
    (t.store st next f).upper = Function.update st.upper (t.inode next) f.upper := rfl

theorem store_oi (f : OvlFile) :
    (t.store st next f).oi = Function.update st.oi (t.inode next) f.oi := rfl

theorem store_upperAlias (f : OvlFile) :
    (t.store st next f).upperAlias = Function.update st.upperAlias next f.upperAlias := rfl

theorem hasUpper_store_self (f : OvlFile) :
    t.hasUpper (t.store st next f) next = f.upper.isSome := by
  rw [hasUpper, store_upper, Function.update_self]

theorem hasUpper_store_of_ne (f : OvlFile) (h : t.inode d ≠ t.inode next) :
    t.hasUpper (t.store st next f) d = t.hasUpper st d := by
  rw [hasUpper, store_upper, Function.update_of_ne h, hasUpper]

/-- The file of the dentry after the call, stored back. -/
theorem copies_store {r : ℤ × OvlFile} (hr : Yields (t.file st next) (CopiedUpNode flags) r) :
    t.Copies next flags st r.1 (t.store st next r.2) where
  upper d hd := by
    by_cases h : t.inode d = t.inode next
    · rw [hasUpper_congr h] at hd ⊢
      rw [hasUpper_store_self]
      exact hr.1.upper hd
    · rwa [hasUpper_store_of_ne r.2 h]
  upper_of_ne d h := hasUpper_store_of_ne r.2 h
  upperAlias d hd := by
    by_cases h : d = next
    · subst h
      rw [store_upperAlias, Function.update_self]
      exact hr.1.upperAlias hd
    · rwa [store_upperAlias, Function.update_of_ne h]
  upperAlias_of_ne d h := by rw [store_upperAlias, Function.update_of_ne h]
  upperdata i hi := by
    by_cases h : i = t.inode next
    · subst h
      simp only [hasUpperdata, store, Function.update_self] at hi ⊢
      split at hi
      · next hk => rw [if_pos hk]
      · next hk =>
        rw [if_neg hk]
        split at hi
        · next hl => rw [if_pos hl]
        · next hl =>
          rw [if_neg hl]
          exact hr.1.upperdata hi
    · simpa only [hasUpperdata, store, Function.update_of_ne h] using hi
  done h0 := by
    obtain ⟨hup, halias, hneed⟩ := hr.2 h0
    have halias' : (t.store st next r.2).upperAlias next = true := by
      rw [store_upperAlias, Function.update_self]
      exact halias
    rw [alreadyCopiedUp, hasUpper_store_self, halias', show r.2.upper.isSome = true from hup]
    rw [needsDataCopyUpLocked] at hneed
    split at hneed
    · next hf => simp only [hf, if_true, Bool.not_false, Bool.and_self]
    · next hf =>
      have hd : t.hasUpperdata (t.store st next r.2) (t.inode next) = true := by
        apply hasUpperdata_of_upperdata
        rw [store_oi, Function.update_self]
        simpa using hneed
      simp only [hf, if_false, hd, Bool.not_true, Bool.not_false, Bool.and_self,
        Bool.false_eq_true]

theorem copyUpOne_copies (h : t.lowerstack next ≠ []) (env : NodeEnv) (flags : ℕ)
    (st : TreeState D I) :
    ∃ err st', t.copyUpOne env next flags st = .ret (err, st') ∧
      t.Copies next flags st err st' := by
  rw [copyUpOne, if_neg (fun hw => h hw.2)]
  exact ⟨_, _, rfl, copies_store (yields_nodeCopyUpOne _ _ _ _ rfl)⟩

/-- The outer loop, by the distance to an ancestor that has an upper. -/
theorem copyUpPasses_spec (envs : ℕ → NodeEnv) {k n i : ℕ}
    (hk : t.hasUpper st (t.parent^[k + 1] d) = true) (hn : k + 2 ≤ n) (hb : t.Backed st)
    (hst : t.Closed st) :
    ∃ err st' trace, t.copyUpPasses envs flags d n i st = (.ret (err, st'), trace) ∧
      (∀ s ∈ trace, t.Closed s) ∧ (err = 0 → t.alreadyCopiedUp st' d flags = true) := by
  induction k using Nat.strong_induction_on generalizing n i st with
  | _ k ih =>
    obtain ⟨n, rfl⟩ : ∃ m, n = m + 1 := ⟨n - 1, by omega⟩
    rw [copyUpPasses]
    by_cases hdone : t.alreadyCopiedUp st d flags = true
    · rw [if_pos hdone]
      exact ⟨0, st, [], rfl, fun s hs => absurd hs List.not_mem_nil, fun _ => hdone⟩
    rw [if_neg hdone]
    obtain ⟨j, hj, htop, hup, hlast⟩ := topmost_eq hk (n := n + 1) (by omega)
    have hneeds : t.alreadyCopiedUp st (t.parent^[j] d) flags = false ∨
        t.hasUpper st (t.parent^[j] d) = false := by
      obtain rfl | hlast := hlast
      · exact .inl (eq_false_of_ne_true hdone)
      · exact .inr hlast
    have hlower : t.lowerstack (t.parent^[j] d) ≠ [] := hb.lowerstack_ne_nil hneeds
    obtain ⟨err, st', hone, hc⟩ := copyUpOne_copies hlower (envs i) flags st
    have hst' : t.Closed st' := by
      apply hc.closed _ hst
      rwa [← Function.iterate_succ_apply' t.parent]
    simp only [htop, hone]
    by_cases herr : err = 0
    · -- The pass has copied up `next`: either `d` itself, or an ancestor closer to `d`.
      rw [if_pos herr]
      have hrest : ∃ err' st'' trace,
          t.copyUpPasses envs flags d n (i + 1) st' = (.ret (err', st''), trace) ∧
            (∀ s ∈ trace, t.Closed s) ∧
            (err' = 0 → t.alreadyCopiedUp st'' d flags = true) := by
        have hnext := hc.done herr
        cases j with
        | zero =>
          obtain ⟨n, rfl⟩ : ∃ m, n = m + 1 := ⟨n - 1, by omega⟩
          rw [copyUpPasses, if_pos (show t.alreadyCopiedUp st' d flags = true from hnext)]
          exact ⟨0, st', [], rfl, fun s hs => absurd hs List.not_mem_nil, fun _ => hnext⟩
        | succ j =>
          have hup' : t.hasUpper st' (t.parent^[j + 1] d) = true := by
            simp only [alreadyCopiedUp, Bool.and_eq_true] at hnext
            exact hnext.1.1
          exact ih j (by omega) hup' (by omega) (hc.backed hb) hst'
      obtain ⟨err', st'', trace, hrun, hall, hok⟩ := hrest
      refine ⟨err', st'', st' :: trace, ?_, ?_, hok⟩
      · rw [hrun]
      · rw [List.forall_mem_cons]
        exact ⟨hst', hall⟩
    · rw [if_neg herr]
      refine ⟨err, st', [st'], rfl, ?_, fun h => absurd h herr⟩
      rw [List.forall_mem_singleton]
      exact hst'

end Store

end OvlTree

open OvlTree

/-- `ovl_copy_up_flags` on a connected dentry returns, whatever fails meanwhile. After
each of its copy-ups the upper layer is closed under parents, and when it returns 0 the
dentry is copied up. -/
theorem copy_up_keeps_upper_closed {D I : Type} [DecidableEq D] [DecidableEq I]
    (t : OvlTree D I) (st : TreeState D I) (dentry : D) (flags : ℕ) (envs : ℕ → NodeEnv)
    (hroot : t.hasUpper st t.root = true) (hconn : ∃ n, t.parent^[n] dentry = t.root)
    (hb : t.Backed st) (hst : t.Closed st) :
    ∃ bound, ∀ fuel ≥ bound, ∃ err st' trace,
      t.copyUpPasses envs flags dentry fuel 0 st = (.ret (err, st'), trace) ∧
        (∀ s ∈ trace, t.Closed s) ∧
        (err = 0 → t.alreadyCopiedUp st' dentry flags = true) := by
  obtain ⟨n, hn⟩ := hconn
  have hup : t.hasUpper st (t.parent^[n + 1] dentry) = true := by
    rw [Function.iterate_succ_apply', hn, t.parent_root]
    exact hroot
  exact ⟨n + 2, fun fuel hfuel => copyUpPasses_spec envs hup hfuel hb hst⟩

/-- A regular file in a directory below the root. -/
def pathOfThree : OvlTree (Fin 3) (Fin 3) where
  root := 0
  parent := fun d => if d = 2 then 1 else 0
  inode := id
  lowerstack := fun _ => [.empty]
  kind := fun i => if i = 2 then .reg else .dir
  lower := fun _ => true
  parent_root := rfl
  dir_alias := fun _ _ _ h => h

/-- Only the root has an upper. -/
def onlyRootUpper : TreeState (Fin 3) (Fin 3) where
  upper := fun i => if i = 0 then some newTemp else none
  oi := fun _ => zeroInode
  upperAlias := fun d => decide (d = 0)

/-- Opening the file for writing. -/
theorem copy_up_keeps_upper_closed_path :
    ∃ bound, ∀ fuel ≥ bound, ∃ err st' trace,
      pathOfThree.copyUpPasses (fun _ => .full) O_WRONLY 2 fuel 0 onlyRootUpper =
          (.ret (err, st'), trace) ∧
        (∀ s ∈ trace, pathOfThree.Closed s) ∧
        (err = 0 → pathOfThree.alreadyCopiedUp st' 2 O_WRONLY = true) := by
  apply copy_up_keeps_upper_closed
  · decide
  · exact ⟨2, by decide⟩
  · intro d hd
    cases hd
  · intro d hd
    revert hd
    revert d
    unfold OvlTree.hasUpper
    decide

end FzzOverlay

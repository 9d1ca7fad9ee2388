import FzzOverlay.Lib.Owned
import FzzOverlay.Lib.Run
import FzzOverlay.Super.MountLayers

/-!
# Mounts that run at the same time

`I_OVL_INUSE` is kept in the inodes of the upper and the work directories, which mounts
share. A step is what one mount does to the marks without being interrupted, and mounts take
their steps in any order.

## Main definitions

- `MountPhase`, `InUseWorld` — how far each mount is, and the marks
- `InUseStep` — one mount is set up or taken down a bit further
- `in_use_marks_exclusive` — the marks are exclusive in every run
- `mount_is_run` — `ovl_fill_super` as a whole is such a run
-/

namespace FzzOverlay

open Act

section World

variable {ι δ σ : Type}

/-- The directories that a mount marks. -/
inductive MarkKind where
  | upper | work
  deriving DecidableEq

def Mounting.dir (m : Mounting δ σ) : MarkKind → Option δ
  | .upper => m.upper
  | .work => m.workbasedir

def Mounting.locked (m : Mounting δ σ) : MarkKind → Bool
  | .upper => m.upperdirLocked
  | .work => m.workdirLocked

def Mounting.setDir (m : Mounting δ σ) (d : δ) : MarkKind → Mounting δ σ
  | .upper => { m with upper := some d }
  | .work => { m with workbasedir := some d }

def Mounting.lock (m : Mounting δ σ) : MarkKind → Mounting δ σ
  | .upper => { m with upperdirLocked := true }
  | .work => { m with workdirLocked := true }

/-- How far a mount is. It is `alive` until `ovl_free_fs` starts, and `unlocked` when that
has taken the mark off the work directory. -/
inductive MountPhase (δ σ : Type) where
  | absent
  | alive (m : Mounting δ σ)
  | leaving (m : Mounting δ σ)
  | unlocked (m : Mounting δ σ)

/-- The marks of a mount that were not taken off yet. -/
def MountPhase.marks : MountPhase δ σ → MarkKind → Option δ
  | .alive m, k | .leaving m, k => if m.locked k then m.dir k else none
  | .unlocked m, .upper => if m.locked .upper then m.dir .upper else none
  | .unlocked _, .work | .absent, _ => none

structure InUseWorld (ι δ σ : Type) where
  inuse : δ → Bool
  warned : Bool
  mounts : ι → MountPhase δ σ

/-- Nothing is mounted. -/
def InUseWorld.empty : InUseWorld ι δ σ := ⟨fun _ => false, false, fun _ => .absent⟩

/-- What the mount `m` sees of the marks. -/
def InUseWorld.state (w : InUseWorld ι δ σ) (m : Mounting δ σ) : MountState δ σ :=
  ⟨m, w.inuse, w.warned, []⟩

inductive InUseOp (ι δ σ : Type) where
  | begin (i : ι) | mark (i : ι) (k : MarkKind) (d : δ) | change (i : ι)
  | leave (i : ι) | freeWork (i : ι) | freeUpper (i : ι)

variable [DecidableEq δ]

/-- How `ovl_get_upper` and `ovl_get_workdir` mark a directory. -/
def markDir (k : MarkKind) (d : δ) : MountM δ σ Unit := do
  setFs fun m => m.setDir d k
  markInuse d fun m => m.lock k

/-- A mount that fails is taken down. -/
def phaseAfter : Except Errno Unit × MountState δ σ → MountPhase δ σ
  | (.ok _, s) => .alive s.fs
  | (.error _, s) => .leaving s.fs

variable [DecidableEq ι]

/-- The mount `i` has left the marks as in `s`, and is in phase `p` now. -/
def InUseWorld.become (w : InUseWorld ι δ σ) (i : ι) (p : MountPhase δ σ)
    (s : MountState δ σ) : InUseWorld ι δ σ :=
  ⟨s.inuse, s.warned, Function.update w.mounts i p⟩

/-- The steps of a mount. Between its marks it changes in any way that leaves them alone and
does not turn the index on. -/
inductive InUseStep (w : InUseWorld ι δ σ) : InUseOp ι δ σ → InUseWorld ι δ σ → Prop
  | begin (i : ι) (c : OvlConfig) (rdonly : Bool) (h : w.mounts i = .absent) :
      InUseStep w (.begin i) (w.become i (.alive { newMounting rdonly with config := c })
        (w.state (newMounting rdonly)))
  | mark (i : ι) (m : Mounting δ σ) (k : MarkKind) (d : δ) (h : w.mounts i = .alive m)
      (hnew : m.dir k = none) :
      InUseStep w (.mark i k d) (w.become i (phaseAfter (markDir k d (w.state m)))
        (markDir k d (w.state m)).2)
  | change (i : ι) (m m' : Mounting δ σ) (h : w.mounts i = .alive m) (hm : SameMarks m m')
      (hindex : m'.config.index = true → m.config.index = true) :
      InUseStep w (.change i) (w.become i (.alive m') (w.state m))
  | leave (i : ι) (m : Mounting δ σ) (h : w.mounts i = .alive m) :
      InUseStep w (.leave i) (w.become i (.leaving m) (w.state m))
  | freeWork (i : ι) (m : Mounting δ σ) (h : w.mounts i = .leaving m) :
      InUseStep w (.freeWork i) (w.become i (.unlocked m)
        (unlockIf m.workdirLocked m.workbasedir (w.state m)).2)
  | freeUpper (i : ι) (m : Mounting δ σ) (h : w.mounts i = .unlocked m) :
      InUseStep w (.freeUpper i) (w.become i .absent
        (unlockIf m.upperdirLocked m.upper (w.state m)).2)

/-- With an index, a mount that is alive has marked its directories. -/
structure SetUp (m : Mounting δ σ) : Prop where
  unlocked : ∀ k, m.dir k = none → m.locked k = false
  locked : m.config.index = true → ∀ k, (m.dir k).isSome = true → m.locked k = true

/-- What every step keeps. -/
structure InUseInv (w : InUseWorld ι δ σ) : Prop where
  warned : w.warned = false
  owned : Owned w.inuse fun p : ι × MarkKind => (w.mounts p.1).marks p.2
  setUp : ∀ i m, w.mounts i = .alive m → SetUp m

end World

section Mark

variable {δ σ : Type} (m : Mounting δ σ) (d : δ)

theorem dir_setDir (k l : MarkKind) :
    (m.setDir d k).dir l = if l = k then some d else m.dir l := by
  cases k <;> cases l <;> rfl

theorem locked_setDir (k l : MarkKind) : (m.setDir d k).locked l = m.locked l := by
  cases k <;> cases l <;> rfl

theorem config_setDir (k : MarkKind) : (m.setDir d k).config = m.config := by
  cases k <;> rfl

theorem dir_lock (k l : MarkKind) : (m.lock k).dir l = m.dir l := by
  cases k <;> cases l <;> rfl

theorem locked_lock (k l : MarkKind) :
    (m.lock k).locked l = if l = k then true else m.locked l := by
  cases k <;> cases l <;> rfl

theorem SameMarks.dir {m m' : Mounting δ σ} (h : SameMarks m m') (k : MarkKind) :
    m'.dir k = m.dir k := by
  cases k with
  | upper => exact h.upper
  | work => exact h.work

theorem SameMarks.locked {m m' : Mounting δ σ} (h : SameMarks m m') (k : MarkKind) :
    m'.locked k = m.locked k := by
  cases k with
  | upper => exact h.upperLock
  | work => exact h.workLock

variable {m d} {k : MarkKind}

theorem SetUp.setDir [DecidableEq δ] (h : SetUp m) (hbusy : m.config.index = false) :
    SetUp (m.setDir d k) := by
  refine ⟨fun l hl => ?_, fun hi => ?_⟩
  · rw [dir_setDir] at hl
    rw [locked_setDir]
    split at hl
    · cases hl
    · exact h.unlocked l hl
  · rw [config_setDir, hbusy] at hi
    cases hi

theorem SetUp.lock [DecidableEq δ] (h : SetUp m) : SetUp ((m.setDir d k).lock k) := by
  have hconfig : ((m.setDir d k).lock k).config = m.config := by cases k <;> rfl
  refine ⟨fun l hl => ?_, fun hi l hl => ?_⟩
  · rw [dir_lock, dir_setDir] at hl
    rw [locked_lock, locked_setDir]
    split at hl
    · cases hl
    · next hlk =>
      rw [if_neg hlk]
      exact h.unlocked l hl
  · rw [dir_lock, dir_setDir] at hl
    rw [locked_lock, locked_setDir]
    split
    · rfl
    · next hlk =>
      rw [if_neg hlk] at hl
      exact h.locked (hconfig ▸ hi) l hl

end Mark

section Update

variable {ι δ σ : Type} [DecidableEq ι] {w : InUseWorld ι δ σ} {i : ι} {p : MountPhase δ σ}

/-- The marks of a mount change in one place. -/
theorem marks_update (k : MarkKind) {o : Option δ} (hk : p.marks k = o)
    (hother : ∀ l, l ≠ k → p.marks l = (w.mounts i).marks l) :
    (fun q : ι × MarkKind => (Function.update w.mounts i p q.1).marks q.2) =
      Function.update (fun q : ι × MarkKind => (w.mounts q.1).marks q.2) (i, k) o := by
  funext ⟨j, l⟩
  by_cases hj : j = i
  · subst hj
    simp only [Function.update_self]
    by_cases hl : l = k
    · rw [hl, Function.update_self, hk]
    · rw [Function.update_of_ne (by simp [hl]), hother l hl]
  · simp only [Function.update_of_ne hj]
    rw [Function.update_of_ne (by simp [hj])]

theorem marks_same (hsame : ∀ l, p.marks l = (w.mounts i).marks l) :
    (fun q : ι × MarkKind => (Function.update w.mounts i p q.1).marks q.2) =
      fun q => (w.mounts q.1).marks q.2 := by
  funext ⟨j, l⟩
  by_cases hj : j = i
  · subst hj
    simp only [Function.update_self, hsame]
  · simp only [Function.update_of_ne hj]

theorem InUseInv.setUp_update (h : InUseInv w) (hp : ∀ m, p = .alive m → SetUp m) (j : ι)
    (m : Mounting δ σ) (hj : Function.update w.mounts i p j = .alive m) : SetUp m := by
  by_cases hji : j = i
  · rw [hji, Function.update_self] at hj
    exact hp m hj
  · rw [Function.update_of_ne hji] at hj
    exact h.setUp j m hj

/-- A step that leaves the marks alone. -/
theorem InUseInv.keep (h : InUseInv w) (hsame : ∀ l, p.marks l = (w.mounts i).marks l)
    (hp : ∀ m, p = .alive m → SetUp m) (m : Mounting δ σ) :
    InUseInv (w.become i p (w.state m)) := by
  refine ⟨h.warned, ?_, h.setUp_update hp⟩
  change Owned w.inuse fun q : ι × MarkKind => (Function.update w.mounts i p q.1).marks q.2
  rw [marks_same hsame]
  exact h.owned

end Update

section Steps

variable {ι δ σ : Type} [DecidableEq δ]

/-- What marking a directory does. -/
theorem markDir_eq (w : InUseWorld ι δ σ) (m : Mounting δ σ) (k : MarkKind) (d : δ) :
    markDir k d (w.state m) =
      if w.inuse d = false then (.ok (), { w.state ((m.setDir d k).lock k) with
        inuse := Function.update w.inuse d true })
      else (if m.config.index = false then .ok () else .error EBUSY, w.state (m.setDir d k)) := by
  cases hd : w.inuse d <;> cases hi : m.config.index <;>
    simp [markDir, markInuse, ovlInuseTrylock, ovlReportInUse, ensure, bind, Act.get, pure,
      Act.modify, setFs, fail, InUseWorld.state, config_setDir, hd, hi]

variable [DecidableEq ι] {w w' : InUseWorld ι δ σ} {i : ι} {p : MountPhase δ σ}

/-- A directory without a mark is marked. -/
theorem InUseInv.take (h : InUseInv w) (k : MarkKind) {d : δ} (hd : w.inuse d = false)
    (hnone : (w.mounts i).marks k = none) (hk : p.marks k = some d)
    (hother : ∀ l, l ≠ k → p.marks l = (w.mounts i).marks l)
    (hp : ∀ m, p = .alive m → SetUp m) (m : Mounting δ σ) :
    InUseInv (w.become i p { w.state m with inuse := Function.update w.inuse d true }) := by
  refine ⟨h.warned, ?_, h.setUp_update hp⟩
  change Owned (Function.update w.inuse d true)
    fun q : ι × MarkKind => (Function.update w.mounts i p q.1).marks q.2
  rw [marks_update k hk hother]
  exact h.owned.take hnone hd

/-- `ovl_free_fs` takes a mark off, if the mount has set it. -/
theorem InUseInv.unlock (h : InUseInv w) (k : MarkKind) {locked : Bool} {o : Option δ}
    (hheld : (w.mounts i).marks k = if locked then o else none) (hk : p.marks k = none)
    (hother : ∀ l, l ≠ k → p.marks l = (w.mounts i).marks l)
    (hp : ∀ m, p = .alive m → SetUp m) (m : Mounting δ σ) :
    InUseInv (w.become i p (unlockIf locked o (w.state m)).2) := by
  -- nothing is marked
  have hkeep : (w.mounts i).marks k = none → InUseInv (w.become i p (w.state m)) := by
    intro hnone
    refine h.keep (fun l => ?_) hp m
    by_cases hl : l = k
    · rw [hl, hk, hnone]
    · exact hother l hl
  cases o with
  | none => exact hkeep (by rw [hheld]; cases locked <;> rfl)
  | some d =>
    cases locked with
    | false => exact hkeep hheld
    | true =>
      have hd : w.inuse d = true := (h.owned.set d).mpr ⟨(i, k), hheld⟩
      refine ⟨?_, ?_, h.setUp_update hp⟩
      · change (w.warned || !w.inuse d) = false
        rw [h.warned, hd]
        rfl
      · change Owned (Function.update w.inuse d false) fun q : ι × MarkKind =>
          (Function.update w.mounts i p q.1).marks q.2
        rw [marks_update k hk hother]
        exact h.owned.release hheld

theorem InUseInv.mark {m : Mounting δ σ} {k : MarkKind} {d : δ} (h : InUseInv w)
    (hi : w.mounts i = .alive m) (hnew : m.dir k = none) :
    InUseInv (w.become i (phaseAfter (markDir k d (w.state m))) (markDir k d (w.state m)).2) := by
  have hset := h.setUp i m hi
  have hunlocked := hset.unlocked k hnew
  have hnone : (w.mounts i).marks k = none := by
    rw [hi]
    exact if_neg (by simp [hunlocked])
  rw [markDir_eq]
  split
  · next hd =>
    refine h.take k hd hnone ?_ (fun l hl => ?_) (fun m' hm => ?_) _
    · change (if ((m.setDir d k).lock k).locked k then ((m.setDir d k).lock k).dir k else none) = _
      rw [locked_lock, dir_lock, dir_setDir, if_pos rfl, if_pos rfl, if_pos rfl]
    · rw [hi]
      change (if ((m.setDir d k).lock k).locked l then ((m.setDir d k).lock k).dir l else none) = _
      rw [locked_lock, locked_setDir, dir_lock, dir_setDir, if_neg hl, if_neg hl]
      rfl
    · cases hm
      exact hset.lock
  · -- the mark of the directory is left alone
    have hsame : ∀ l, (MountPhase.alive (m.setDir d k)).marks l = (w.mounts i).marks l := by
      intro l
      change (if (m.setDir d k).locked l then (m.setDir d k).dir l else none) = _
      rw [locked_setDir, dir_setDir]
      by_cases hl : l = k
      · rw [hl, hnone, hunlocked]
        rfl
      · rw [if_neg hl, hi]
        rfl
    split
    · next hindex =>
      refine h.keep hsame (fun m' hm => ?_) _
      cases hm
      exact hset.setDir hindex
    · exact h.keep (p := .leaving (m.setDir d k)) hsame (fun m' hm => by cases hm) _

theorem InUseInv.step {op : InUseOp ι δ σ} (h : InUseInv w) (hs : InUseStep w op w') :
    InUseInv w' := by
  cases hs with
  | begin i c rdonly hi =>
    refine h.keep (fun l => ?_) (fun m hm => ?_) _
    · rw [hi]
      cases l <;> rfl
    · cases hm
      exact ⟨fun k _ => by cases k <;> rfl, fun _ k hk => by cases k <;> cases hk⟩
  | mark i m k d hi hnew => exact h.mark hi hnew
  | change i m m' hi hm hindex =>
    have hset := h.setUp i m hi
    refine h.keep (fun l => ?_) (fun m'' hm' => ?_) _
    · rw [hi]
      change (if m'.locked l then m'.dir l else none) = _
      rw [hm.dir, hm.locked]
      rfl
    · cases hm'
      refine ⟨fun k hk => ?_, fun hx k hk => ?_⟩
      · rw [hm.locked]
        exact hset.unlocked k (hm.dir k ▸ hk)
      · rw [hm.locked]
        exact hset.locked (hindex hx) k (hm.dir k ▸ hk)
  | leave i m hi =>
    refine h.keep (fun l => ?_) (fun m' hm => by cases hm) _
    rw [hi]
    rfl
  | freeWork i m hi =>
    refine h.unlock .work (by rw [hi]; rfl) rfl (fun l hl => ?_) (fun m' hm => by cases hm) _
    rw [hi]
    cases l with
    | upper => rfl
    | work => exact absurd rfl hl
  | freeUpper i m hi =>
    refine h.unlock .upper (by rw [hi]; rfl) rfl (fun l hl => ?_) (fun m' hm => by cases hm) _
    rw [hi]
    cases l with
    | upper => exact absurd rfl hl
    | work => rfl

end Steps

section Result

variable {ι δ σ : Type}

theorem inUseInv_empty : InUseInv (InUseWorld.empty : InUseWorld ι δ σ) := by
  refine ⟨rfl, ⟨fun d => iff_of_false Bool.false_ne_true ?_, fun d p q hp => ?_⟩, fun i m hm => ?_⟩
  · rintro ⟨p, hp⟩
    cases hp
  · cases hp
  · cases hm

variable [DecidableEq ι] [DecidableEq δ]

/-- However mounts and unmounts are interleaved, a directory is marked exactly when one mount
has it marked in one role, and `ovl_inuse_unlock` never finds a mark gone. Two mounts with
the index on share neither their upper nor their work directories. -/
theorem in_use_marks_exclusive {w : InUseWorld ι δ σ}
    {tr : List (InUseWorld ι δ σ × InUseOp ι δ σ)}
    (hrun : Lts.Run InUseStep InUseWorld.empty tr w) :
    w.warned = false ∧
    (∀ d, w.inuse d = true ↔ ∃! p : ι × MarkKind, (w.mounts p.1).marks p.2 = some d) ∧
    ∀ i j m m', i ≠ j → w.mounts i = .alive m → w.mounts j = .alive m' →
      m.config.index = true → m'.config.index = true → ∀ k l d,
        m.dir k = some d → m'.dir l ≠ some d := by
  have hinv : InUseInv w := hrun.invariant inUseInv_empty fun _ _ _ h hs => h.step hs
  have hmarked : ∀ i m k d, w.mounts i = .alive m → m.config.index = true →
      m.dir k = some d → (w.mounts i).marks k = some d := by
    intro i m k d hi hindex hd
    rw [hi]
    change (if m.locked k then m.dir k else none) = some d
    rw [(hinv.setUp i m hi).locked hindex k (by rw [hd]; rfl), hd]
    rfl
  refine ⟨hinv.warned, fun d => hinv.owned.existsUnique, ?_⟩
  intro i j m m' hij hi hj hindex hindex' k l d hd hd'
  have hsame : (i, k) = (j, l) := hinv.owned.unique d (i, k) (j, l)
    (hmarked i m k d hi hindex hd) (hmarked j m' l d hj hindex' hd')
  exact hij (congrArg Prod.fst hsame)

/-- The first mount marks the directory 1, and the second one, with its index off, has it as
well. -/
theorem in_use_marks_exclusive_shared :
    ∃ w : InUseWorld (Fin 2) (Fin 6) (Fin 1), w.warned = false ∧
      (∃! p : Fin 2 × MarkKind, (w.mounts p.1).marks p.2 = some 1) ∧ w.inuse 1 = true := by
  let c : OvlConfig := (unmounted : MountState (Fin 6) (Fin 1)).fs.config
  let w₀ : InUseWorld (Fin 2) (Fin 6) (Fin 1) := .empty
  have hbegin : InUseStep w₀ (.begin 0) _ := .begin 0 { c with index := true } false rfl
  have hrun := (((Lts.Run.nil.snoc hbegin).snoc (.mark 0 _ .upper 1 rfl rfl)).snoc
    (.begin 1 c false rfl)).snoc (.mark 1 _ .upper 1 rfl rfl)
  obtain ⟨hwarned, hset, -⟩ := in_use_marks_exclusive hrun
  exact ⟨_, hwarned, (hset 1).mp rfl, rfl⟩

end Result

section Sequential

variable {ι δ σ ν : Type} {i : ι} {m : Mounting δ σ}

/-- A mount with the directory `o` in the role `k`, marked unless it was. -/
def Mounting.withDir (m : Mounting δ σ) (inuse : δ → Bool) (k : MarkKind) :
    Option δ → Mounting δ σ
  | none => m
  | some d => if inuse d = false then (m.setDir d k).lock k else m.setDir d k

theorem config_withDir (inuse : δ → Bool) (k : MarkKind) (o : Option δ) :
    (m.withDir inuse k o).config = m.config := by
  unfold Mounting.withDir
  cases o with
  | none => rfl
  | some d => dsimp only; split <;> cases k <;> rfl

theorem dir_withDir {k : MarkKind} (hnew : m.dir k = none) (inuse : δ → Bool) (o : Option δ) :
    (m.withDir inuse k o).dir k = o := by
  unfold Mounting.withDir
  cases o with
  | none => exact hnew
  | some d => dsimp only; split <;> cases k <;> rfl

theorem dir_withDir_of_ne {k l : MarkKind} (h : l ≠ k) (inuse : δ → Bool) (o : Option δ) :
    (m.withDir inuse k o).dir l = m.dir l := by
  unfold Mounting.withDir
  cases o with
  | none => rfl
  | some d =>
    dsimp only
    split
    · rw [dir_lock, dir_setDir, if_neg h]
    · rw [dir_setDir, if_neg h]

theorem locked_withDir {k : MarkKind} (hnew : m.locked k = false) (inuse : δ → Bool)
    (o : Option δ) : (m.withDir inuse k o).locked k = o.any fun d => !inuse d := by
  unfold Mounting.withDir
  cases o with
  | none => exact hnew
  | some d =>
    dsimp only
    split
    · next hd => rw [locked_lock, if_pos rfl, Option.any_some, hd, Bool.not_false]
    · next hd =>
      rw [locked_setDir, hnew, Option.any_some, eq_true_of_ne_false hd, Bool.not_true]

theorem locked_withDir_of_ne {k l : MarkKind} (h : l ≠ k) (inuse : δ → Bool) (o : Option δ) :
    (m.withDir inuse k o).locked l = m.locked l := by
  unfold Mounting.withDir
  cases o with
  | none => rfl
  | some d =>
    dsimp only
    split
    · rw [locked_lock, locked_setDir, if_neg h]
    · rw [locked_setDir]

/-- The directories of a mount are marked one after the other, unless they were. -/
theorem sameMarks_withDir {m₀ : Mounting δ σ} (hdir : ∀ k, m₀.dir k = none)
    (hlocked : ∀ k, m₀.locked k = false) {inuse inuse₁ : δ → Bool}
    (hupper : m.upperdirLocked = m.upper.any fun d => !inuse d)
    (hwork : m.workdirLocked = m.workbasedir.any fun d => !inuse₁ d) :
    SameMarks ((m₀.withDir inuse .upper m.upper).withDir inuse₁ .work m.workbasedir) m := by
  have hne : MarkKind.upper ≠ MarkKind.work := by decide
  have hdir₁ : (m₀.withDir inuse .upper m.upper).dir .work = none :=
    (dir_withDir_of_ne hne.symm inuse m.upper).trans (hdir .work)
  have hlocked₁ : (m₀.withDir inuse .upper m.upper).locked .work = false :=
    (locked_withDir_of_ne hne.symm inuse m.upper).trans (hlocked .work)
  refine ⟨?_, ?_, ?_, ?_⟩
  · exact ((dir_withDir_of_ne hne inuse₁ _).trans (dir_withDir (hdir .upper) inuse _)).symm
  · exact (dir_withDir hdir₁ inuse₁ _).symm
  · exact hupper.trans
      ((locked_withDir_of_ne hne inuse₁ _).trans (locked_withDir (hlocked .upper) inuse _)).symm
  · exact hwork.trans (locked_withDir hlocked₁ inuse₁ _).symm

variable [DecidableEq ι] [DecidableEq δ] {w₀ w : InUseWorld ι δ σ}
  {tr : List (InUseWorld ι δ σ × InUseOp ι δ σ)}

theorem run_mark (hrun : Lts.Run InUseStep w₀ tr w) (hi : w.mounts i = .alive m) {k : MarkKind}
    (hnew : m.dir k = none) {o : Option δ}
    (hfree : ∀ d, o = some d → w.inuse d = true → m.config.index = false) :
    ∃ tr w', Lts.Run InUseStep w₀ tr w' ∧ w'.warned = w.warned ∧
      w'.mounts = Function.update w.mounts i (.alive (m.withDir w.inuse k o)) ∧
        ∀ d, w'.inuse d = (w.inuse d || o = some d) := by
  cases o with
  | none =>
    refine ⟨tr, w, hrun, rfl, ?_, fun d => by simp⟩
    change w.mounts = Function.update w.mounts i (.alive m)
    rw [← hi, Function.update_eq_self]
  | some d =>
    refine ⟨_, _, hrun.snoc (.mark i m k d hi hnew), ?_⟩
    rw [markDir_eq, show m.withDir w.inuse k (some d) =
      if w.inuse d = false then (m.setDir d k).lock k else m.setDir d k from rfl]
    cases hd : w.inuse d with
    | false =>
      refine ⟨rfl, rfl, fun e => ?_⟩
      change Function.update w.inuse d true e = _
      by_cases he : e = d
      · simp [he]
      · rw [Function.update_of_ne he]
        simp [Ne.symm he]
    | true =>
      rw [hfree d rfl hd]
      refine ⟨rfl, rfl, fun e => ?_⟩
      change w.inuse e = _
      by_cases he : e = d
      · simp [he, hd]
      · simp [Ne.symm he]

/-- `ovl_fill_super` as a whole is a run of its mount. -/
theorem mount_is_run [DecidableEq σ] [DecidableEq ν] (env : MountEnv δ σ ν) (rdonly : Bool)
    (hi : w.mounts i = .absent) {t : MountState δ σ}
    (hok : ovlFillSuper env (w.state (newMounting rdonly)) = (.ok (), t)) :
    ∃ tr, Lts.Run InUseStep w tr (w.become i (.alive t.fs) t) := by
  have hfresh : Fresh (w.state (newMounting rdonly)) := ⟨⟨rdonly, rfl⟩, rfl⟩
  obtain ⟨c, s, -, hlayered, rfl⟩ := ovlFillSuper_ok hfresh hok
  obtain ⟨seen, hinv⟩ := hlayered.settle.inv
  obtain ⟨hmarks, hunshared, hset, -, -⟩ := hinv
  let m := s.fs.settle
  have hbusy : ∀ {b : Bool}, (m.config.index = true → b = false) → b = true →
      m.config.index = false := fun hb h =>
    eq_false_of_ne_true fun hx => Bool.false_ne_true ((hb hx).symm.trans h)
  let m₀ : Mounting δ σ := { newMounting rdonly with config := m.config }
  let m₁ := m₀.withDir w.inuse .upper m.upper
  -- the upper directory, then the work directory, then what the mount ends with
  obtain ⟨tr₁, w₁, hrun₁, hwarned₁, hmounts₁, hinuse₁⟩ := run_mark (k := .upper) (o := m.upper)
    (Lts.Run.nil.snoc (InUseStep.begin i m.config rdonly hi)) (Function.update_self ..) rfl
    fun d hd => hbusy fun hx => hunshared.upper (hset.index hx) d hd
  have hi₁ : w₁.mounts i = .alive m₁ := by
    rw [hmounts₁]
    exact Function.update_self ..
  have hinuse : ∀ d, w₁.inuse d = (w.inuse d || m.upperdirLocked && m.upper = some d) := by
    intro d
    rw [hinuse₁ d]
    change (w.inuse d || m.upper = some d) = _
    by_cases hu : m.upper = some d
    · rw [show m.upperdirLocked = !w.inuse d from hmarks.upper d hu]
      cases w.inuse d <;> simp [hu]
    · simp [hu]
  obtain ⟨tr₂, w₂, hrun₂, hwarned₂, hmounts₂, hinuse₂⟩ := run_mark (k := .work)
    (o := m.workbasedir) hrun₁ hi₁ (dir_withDir_of_ne (by decide) _ _) fun d hd hd₁ => by
      rw [config_withDir]
      refine hbusy (fun hx => ?_) hd₁
      obtain ⟨hfree, hother⟩ := hunshared.work (hset.index hx) d hd
      rw [hinuse d, show w.inuse d = false from hfree]
      exact hother
  have hi₂ : w₂.mounts i = .alive (m₁.withDir w₁.inuse .work m.workbasedir) := by
    rw [hmounts₂]
    exact Function.update_self ..
  have hsame : SameMarks (m₁.withDir w₁.inuse .work m.workbasedir) m := by
    refine sameMarks_withDir (fun k => by cases k <;> rfl) (fun k => by cases k <;> rfl) ?_ ?_
    · cases hu : m.upper with
      | none => exact hmarks.noUpper hu
      | some u => exact hmarks.upper u hu
    · cases hw : m.workbasedir with
      | none => exact hmarks.noWork hw
      | some d =>
        rw [Option.any_some, hinuse d]
        exact hmarks.work d hw
  have hmarked : w₂.inuse = s.inuse := by
    funext d
    rw [show s.inuse d = _ from hmarks.inuse d, hinuse₂ d, hinuse d, Mounting.holds, Bool.or_assoc]
    change (w.inuse d || (m.upperdirLocked && m.upper = some d || m.workbasedir = some d)) =
      (w.inuse d || (m.upperdirLocked && m.upper = some d ||
        m.workdirLocked && m.workbasedir = some d))
    by_cases hw : m.workbasedir = some d
    · rw [show m.workdirLocked = !(w.inuse d || _) from hmarks.work d hw]
      cases w.inuse d <;> cases (m.upperdirLocked && m.upper = some d) <;> simp [hw]
    · simp [hw]
  have hworld : w₂.become i (.alive m) (w₂.state (m₁.withDir w₁.inuse .work m.workbasedir)) =
      w.become i (.alive m) { s with fs := m } := by
    refine (InUseWorld.mk.injEq ..).mpr
      ⟨hmarked, (hwarned₂.trans hwarned₁).trans hmarks.warned.symm, ?_⟩
    rw [hmounts₂, hmounts₁, Function.update_idem, Function.update_idem]
    exact Function.update_idem ..
  refine ⟨_, hworld ▸ hrun₂.snoc (.change i _ m hi₂ hsame fun hx => ?_)⟩
  rwa [config_withDir, config_withDir]

omit [DecidableEq ι] in
/-- What taking a mark off does does not depend on the rest of the mount. -/
theorem unlockIf_frame (locked : Bool) (o : Option δ) (s s' : MountState δ σ)
    (hinuse : s.inuse = s'.inuse) (hwarned : s.warned = s'.warned) :
    (unlockIf locked o s).1 = .ok () ∧
      (unlockIf locked o s).2.inuse = (unlockIf locked o s').2.inuse ∧
        (unlockIf locked o s).2.warned = (unlockIf locked o s').2.warned := by
  cases o with
  | none => exact ⟨rfl, hinuse, hwarned⟩
  | some d =>
    cases locked with
    | false => exact ⟨rfl, hinuse, hwarned⟩
    | true =>
      refine ⟨rfl, ?_, ?_⟩
      · change Function.update s.inuse d false = Function.update s'.inuse d false
        rw [hinuse]
      · change (s.warned || !s.inuse d) = (s'.warned || !s'.inuse d)
        rw [hinuse, hwarned]

/-- So is `ovl_free_fs`, whatever the traps are. -/
theorem free_is_run (hi : w.mounts i = .alive m) (traps : List δ) :
    ∃ t tr, ovlFreeFs { w.state m with traps := traps } = (.ok (), t) ∧
      Lts.Run InUseStep w tr (w.become i .absent t) := by
  let s : MountState δ σ := { w.state m with traps := traps.diff m.trapsOf }
  obtain ⟨hwork, hinuse, hwarned⟩ := unlockIf_frame m.workdirLocked m.workbasedir s
    (w.state m) rfl rfl
  let w₁ := w.become i (.leaving m) (w.state m)
  let w₂ := w₁.become i (.unlocked m) (unlockIf m.workdirLocked m.workbasedir (w₁.state m)).2
  have hrun := ((Lts.Run.nil.snoc (InUseStep.leave i m hi)).snoc
    (.freeWork i m (Function.update_self ..))).snoc (.freeUpper i m (Function.update_self ..))
  obtain ⟨hupper, hinuse', hwarned'⟩ := unlockIf_frame m.upperdirLocked m.upper _
    (w₂.state m) hinuse hwarned
  let t := (unlockIf m.upperdirLocked m.upper (unlockIf m.workdirLocked m.workbasedir s).2).2
  have hworld : w₂.become i .absent (unlockIf m.upperdirLocked m.upper (w₂.state m)).2 =
      w.become i .absent t := by
    refine (InUseWorld.mk.injEq ..).mpr ⟨hinuse'.symm, hwarned'.symm, ?_⟩
    change Function.update (Function.update (Function.update w.mounts i _) i _) i _ = _
    rw [Function.update_idem, Function.update_idem]
  refine ⟨t, _, ?_, hworld ▸ hrun⟩
  rw [ovlFreeFs_eq]
  exact (bind_of_ok (eq_of_fst hwork)).trans (eq_of_fst hupper)

end Sequential

end FzzOverlay

import Mathlib.Data.Set.Basic
import FzzOverlay.Dir.Created
import FzzOverlay.Lib.Run

/-!
# The names of a directory over runs

Whatever the layers of a directory are, creating and removing names in it is to users the
same as changing one set of names. A call that fails may or may not have had its effect on
its own name, and never has one on another.

## Main definitions

- `NameCall`, `NameStep` — a call that creates or removes a name, made on a fresh dentry
- `NameSetStep` — what such a call does to a set of names
- `dir_refines_name_set` — every run of calls is a run on the set of visible names
-/

namespace FzzOverlay

open Act

/-- The object that a call creates, or the kind of removal. -/
inductive NameOp where
  | create (env : CreateEnv) (kind : RealKind)
  | remove (env : DirEnv) (isDir : Bool)

/-- The call creates a name. -/
def NameOp.creates : NameOp → Prop
  | .create _ _ => True
  | .remove _ _ => False

/-- A call with the name it is about, and whether it returned 0. -/
structure NameCall where
  name : List UInt8
  op : NameOp
  ok : Prop

/-- A set of names changes as the call says when it succeeds. It is made on a name that is
not there to create it, and on one that is there to remove it. -/
structure NameSetStep (V : Set (List UInt8)) (c : NameCall) (V' : Set (List UInt8)) : Prop where
  enabled : c.op.creates ↔ c.name ∉ V
  others : ∀ n, n ≠ c.name → (n ∈ V' ↔ n ∈ V)
  done : c.ok → (c.name ∈ V' ↔ c.op.creates)

section Steps

variable (p : OvlEntry) (u : ℕ)

/-- The dentry that a lookup gives. -/
def lookedUpDentry (name : List UInt8) (found : Found) (isDir : Bool) : OvlDentry :=
  ⟨p, name, found, isDir⟩

/-- One call in the directory `p`, whose upper directory is `u`. `ovl_create`, `ovl_mkdir`
and `ovl_symlink` are `ovl_mknod` for their types. -/
inductive NameStep : DirState → NameCall → DirState → Prop
  | create {s t : DirState} {name : List UInt8} {found : Found} {env : CreateEnv}
      {kind : RealKind} {res : Except DirFault Unit}
      (hlookup : ovlLookup s.mount s.fs p name = .ok found) (hneg : found.positive = false)
      (hcall : ovlMknod env kind (lookedUpDentry p name found false) u s = (res, t)) :
      NameStep s ⟨name, .create env kind, res = .ok ()⟩ t
  | remove {s t : DirState} {name : List UInt8} {found : Found} {env : DirEnv} {isDir : Bool}
      {res : Except Errno Unit}
      (hlookup : ovlLookup s.mount s.fs p name = .ok found) (hpos : found.positive = true)
      (hcall : ovlDoRemove env (lookedUpDentry p name found isDir) u s = (res, t)) :
      NameStep s ⟨name, .remove env isDir, res = .ok ()⟩ t

/-- The inodes a call would create are new. -/
structure CallFits (s : DirState) (c : NameCall) : Prop where
  create : ∀ env kind, c.op = .create env kind → FreshCreate env s u
  remove : ∀ env isDir, c.op = .remove env isDir → ∀ found,
    ovlLookup s.mount s.fs p c.name = .ok found →
      FreshFor env s (lookedUpDentry p c.name found isDir) u

/-- The names that are visible in a directory. -/
def visibleNames (s : DirState) : Set (List UInt8) := {n | Visible s.fs n p.layers}

variable {p u} {s t : DirState} {c : NameCall}

theorem mem_visibleNames {name : List UInt8} {r : Found}
    (h : ovlLookup s.mount s.fs p name = .ok r) :
    name ∈ visibleNames p s ↔ r.positive = true :=
  (positive_iff_visible h).symm

/-- A name whose entry is left alone is visible as before. -/
theorem visible_congr {n : List UInt8} (hparent : p.upper = some u)
    (hlower : SameLower s.fs t.fs) (hpaths : ∀ l ∈ p.lowerstack, l.idx ≠ 0)
    (hentry : SameEntry s.fs t.fs u n) :
    Visible t.fs n p.layers ↔ Visible s.fs n p.layers := by
  have hchild : childAt t.fs 0 u n = childAt s.fs 0 u n := by
    rw [childAt, childAt, hentry.lookup]
  rw [OvlEntry.layers_upper hparent]
  cases hc : childAt s.fs 0 u n with
  | none =>
    rw [visible_cons_absent (hchild.trans hc), visible_cons_absent hc,
      visible_of_sameLower hlower hpaths]
  | some i =>
    rw [visible_cons_present (hchild.trans hc), visible_cons_present hc, hentry.inode i hc]

/-- What the calls keep of the state: the lower layers, and the mount up to its index. -/
structure SameBelow (s t : DirState) : Prop where
  lower : SameLower s.fs t.fs
  root : t.mount.root = s.mount.root

theorem Keeps.sameBelow {K : ℕ → List UInt8 → Prop} {J : ℕ → Prop} {origin : Option LowerPath}
    (h : Keeps K J origin s t) : SameBelow s t :=
  ⟨h.lower, by rw [h.index.rest]⟩

theorem SameBelow.lowerPaths (h : SameBelow s t) (hpaths : LowerPaths s.mount p) :
    LowerPaths t.mount p :=
  ⟨hpaths.parent, by rw [h.root]; exact hpaths.root⟩

/-- What one call does to the visible names. -/
theorem NameStep.spec (hparent : p.upper = some u) (hpaths : LowerPaths s.mount p)
    (hfits : CallFits p u s c) (h : NameStep p u s c t) :
    SameBelow s t ∧ NameSetStep (visibleNames p s) c (visibleNames p t) := by
  cases h with
  | @create _ name found env kind res hlookup hneg hcall =>
    have hfresh := hfits.create env kind rfl
    have henabled : name ∉ visibleNames p s := by
      rw [mem_visibleNames hlookup, hneg]
      exact Bool.false_ne_true
    unfold ovlMknod at hcall
    split at hcall
    · -- nothing is done for a whiteout
      obtain ⟨rfl, rfl⟩ := Prod.mk.inj hcall
      exact ⟨⟨⟨fun _ _ => rfl, fun _ _ => rfl⟩, rfl⟩,
        ⟨fun _ => henabled, fun _ => trivial⟩, fun _ _ => Iff.rfl, fun hok => by cases hok⟩
    · next hkind =>
      have htriple : Triple (Keeping _ _ none s anyLayers) _ _ _ :=
        triple_ovlCreateObject (d := lookedUpDentry p name found false) kind hfresh.mayCreate
      have hkeep : Keeps (fun dir n => (dir = u ∧ n ≠ name) ∨ dir = env.created)
          (fun i => i ≠ env.created) none s t := by
        have := htriple.both (s := s) (I := fun t => Keeps _ _ none s t) ⟨.refl s, trivial⟩
          (fun _ _ h => h.1) fun _ h => h.1
        rwa [hcall] at this
      refine ⟨hkeep.sameBelow, ⟨fun _ => henabled, fun _ => trivial⟩, fun n hn => ?_,
        fun hok => ⟨fun _ => trivial, fun _ => ?_⟩⟩
      · refine visible_congr hparent hkeep.lower hpaths.parent
          ⟨hkeep.entry u n (.inl ⟨rfl, hn⟩), fun i hi => hkeep.inode i ?_⟩
        rintro rfl
        exact hfresh.child n hi
      · obtain ⟨-, o, ⟨hchild, hattr⟩, -⟩ := htriple.ok ⟨.refl s, trivial⟩
          (hcall.trans (by rw [show res = .ok () from hok]))
        change Visible t.fs name p.layers
        rw [OvlEntry.layers_upper hparent, visible_cons_present hchild]
        change (t.fs.inode 0 env.created).kind ≠ .whiteout
        rw [hattr rfl]
        exact hkind
  | @remove _ name found env isDir res hlookup hpos hcall =>
    have hfresh := hfits.remove env isDir rfl found hlookup
    have htriple := triple_ovlDoRemove (s := s) hfresh.mayChange
    have hkeep := htriple.both (s := s) (I := fun t => Keeps _ _ _ s t) rfl
      (fun _ _ h => h.1) fun _ h => h.1
    rw [hcall] at hkeep
    refine ⟨hkeep.sameBelow, ⟨fun hf => hf.elim, fun hn => ?_⟩, fun n hn => ?_, fun hok => ?_⟩
    · exact absurd ((mem_visibleNames hlookup).mpr hpos) hn
    · refine visible_congr hparent hkeep.lower hpaths.parent
        ⟨hkeep.entry u n ⟨rfl, hn⟩, fun i hi => hkeep.inode i fun obj hobj => ?_⟩
      exact hfresh.child obj n (hobj ▸ hi)
    · have hok' : res = .ok () := hok
      rw [hok'] at hcall
      obtain ⟨-, hremoved⟩ := htriple.ok rfl hcall
      refine ⟨fun hvis => ?_, fun hf => hf.elim⟩
      change Visible t.fs name p.layers at hvis
      rw [OvlEntry.layers_upper hparent] at hvis
      unfold Removed at hremoved
      split at hremoved
      · rw [visible_cons_present hremoved.1, hremoved.2] at hvis
        exact absurd rfl hvis
      · next hpos' =>
        have hnone : childAt t.fs 0 u name = none := by
          rw [childAt, show t.fs.lookup 0 u name = .ok none from hremoved]
        rw [visible_cons_absent hnone, visible_of_sameLower hkeep.lower hpaths.parent] at hvis
        exact hpos' (ovlLowerPositive_of_visible (s := s)
          (d := lookedUpDentry p name found isDir) hpos hvis)

end Steps

/-- In a run of changes of a set of names, the last call about a name decides if it
succeeded, and a name that no call is about stays as it was. -/
theorem name_after_run {V V' : Set (List UInt8)} {tr : List (Set (List UInt8) × NameCall)}
    (hrun : Lts.Run NameSetStep V tr V') (name : List UInt8) :
    ((∀ x ∈ tr, x.2.name ≠ name) → (name ∈ V' ↔ name ∈ V)) ∧
    ∀ x c y, tr.map Prod.snd = x ++ c :: y → c.name = name → (∀ c' ∈ y, c'.name ≠ name) →
      c.ok → (name ∈ V' ↔ c.op.creates) := by
  induction hrun with
  | nil =>
    refine ⟨fun _ => Iff.rfl, fun x c y h => ?_⟩
    cases x <;> cases h
  | @snoc tr W W' c hrun hs ih =>
    refine ⟨fun hne => ?_, fun x c' y htr hname hy hok => ?_⟩
    · rw [hs.others name (Ne.symm (hne (W, c) (by simp)))]
      exact ih.1 fun x hx => hne x (by simp [hx])
    · rw [List.map_append] at htr
      obtain rfl | ⟨y', c'', rfl⟩ := y.eq_nil_or_concat'
      · obtain ⟨-, hlast⟩ := List.append_inj' htr rfl
        obtain rfl : c = c' := by simpa using hlast
        rw [← hname]
        exact hs.done hok
      · rw [← List.cons_append, ← List.append_assoc] at htr
        obtain ⟨hinit, hlast⟩ := List.append_inj' htr rfl
        obtain rfl : c = c'' := by simpa using hlast
        rw [hs.others name (Ne.symm (hy c (by simp)))]
        exact ih.2 x c' y' hinit hname (fun c' hc' => hy c' (by simp [hc'])) hok

/-- Creating and removing names in a directory, over any lower stack and with any calls
failing, is a run of changes of one set of names, and lookups see just that set: the last call
about a name decides if it succeeded, and a name that no call is about stays as it was. -/
theorem dir_refines_name_set (p : OvlEntry) (u : ℕ) (s t : DirState)
    (tr : List (DirState × NameCall)) (hparent : p.upper = some u)
    (hpaths : LowerPaths s.mount p) (hrun : Lts.Run (NameStep p u) s tr t)
    (hfits : ∀ x ∈ tr, CallFits p u x.1 x.2) :
    Lts.Run NameSetStep (visibleNames p s) (tr.map fun x => (visibleNames p x.1, x.2))
      (visibleNames p t) ∧
    ∀ name r, ovlLookup t.mount t.fs p name = .ok r →
      (r.positive = true ↔ name ∈ visibleNames p t) ∧
      ((∀ x ∈ tr, x.2.name ≠ name) → (r.positive = true ↔ name ∈ visibleNames p s)) ∧
      ∀ x c y, tr.map Prod.snd = x ++ c :: y → c.name = name → (∀ c' ∈ y, c'.name ≠ name) →
        c.ok → (r.positive = true ↔ c.op.creates) := by
  have hinv := hrun.invariant_mem (I := fun t => LowerPaths t.mount p)
    (G := fun t c => CallFits p u t c) hpaths
    (fun t c v ht hc hs => (hs.spec hparent ht hc).1.lowerPaths ht) hfits
  have hset : Lts.Run NameSetStep (visibleNames p s)
      (tr.map fun x => (visibleNames p x.1, x.2)) (visibleNames p t) :=
    hrun.simulate fun x hx v hs => (hs.spec hparent (hinv x hx) (hfits x hx)).2
  refine ⟨hset, fun name r hr => ?_⟩
  obtain ⟨hkept, hlast⟩ := name_after_run hset name
  rw [← mem_visibleNames hr]
  refine ⟨Iff.rfl, fun hnone => hkept fun x hx => ?_, fun x c y htr hname hy hok => ?_⟩
  · obtain ⟨z, hz, rfl⟩ := List.mem_map.mp hx
    exact hnone z hz
  · refine hlast x c y ?_ hname hy hok
    rw [List.map_map]
    exact htr

/-- The state after creating `a` in its place in `hiddenDir`. -/
def createdFile : DirState := (ovlMknod quietCreate .reg whiteoutDentry 1 hiddenDir).2

/-- `a` as it is found then. -/
def createdDentry : OvlDentry :=
  lookedUpDentry whiteoutDentry.parent [97] ⟨⟨some 20, []⟩, true, false, none⟩ false

/-- The state after removing it again. -/
def removedFile : DirState := (ovlDoRemove quietEnv createdDentry 1 createdFile).2

/-- The calls, both of which succeed. -/
def createCall : NameCall := ⟨[97], .create quietCreate .reg, Except.ok (ε := DirFault) () = .ok ()⟩

def removeCall : NameCall := ⟨[97], .remove quietEnv false, Except.ok (ε := Errno) () = .ok ()⟩

/-- Creating the file leaves the other names alone. -/
theorem createdFile_child (n : List UInt8) (hn : n ≠ [97]) :
    childAt createdFile.fs 0 1 n = none := by
  have hkeep : Keeping (fun dir n => dir = 1 ∧ n ≠ [97]) (fun i => i ≠ 20) none hiddenDir
      (Created quietCreate ⟨.reg, none⟩ 1 [97] true) createdFile := by
    refine (triple_ovlCreateObject (d := whiteoutDentry) .reg ?_).ok ⟨.refl _, trivial⟩ rfl
    exact ⟨fun hc => hc.2 rfl, fun w n hw _ hc => hw hc.1, fun hc => hc rfl⟩
  rw [childAt, hkeep.1.entry 1 n ⟨rfl, hn⟩]
  simp [hiddenDir, hn]

theorem callFits_createCall : CallFits whiteoutDentry.parent 1 hiddenDir createCall := by
  refine ⟨fun env kind h => ?_, fun env isDir h => (by cases h)⟩
  cases h
  exact freshCreate_hiddenDir

theorem callFits_removeCall : CallFits whiteoutDentry.parent 1 createdFile removeCall := by
  refine ⟨fun env kind h => (by cases h), fun env isDir h found hfound => ?_⟩
  cases h
  cases hfound
  refine ⟨fun obj => ?_, fun obj n => ?_, fun obj v o => ?_, by decide⟩
  · cases obj <;> decide
  · by_cases hn : n = [97]
    · subst hn
      cases obj <;> decide
    · rw [createdFile_child n hn]
      exact fun h => by cases h
  · exact fun h => by cases h

/-- The name is there after the first call and gone after the second. -/
theorem dir_refines_name_set_twice :
    Lts.Run NameSetStep (visibleNames whiteoutDentry.parent hiddenDir)
      [(visibleNames whiteoutDentry.parent hiddenDir, createCall),
        (visibleNames whiteoutDentry.parent createdFile, removeCall)]
      (visibleNames whiteoutDentry.parent removedFile) := by
  have hcreate : NameStep whiteoutDentry.parent 1 hiddenDir createCall createdFile :=
    @NameStep.create _ _ _ _ _ whiteoutDentry.found _ _ _ rfl rfl rfl
  have hremove : NameStep whiteoutDentry.parent 1 createdFile removeCall removedFile :=
    @NameStep.remove _ _ _ _ _ createdDentry.found _ _ _ rfl rfl rfl
  refine (dir_refines_name_set _ 1 _ _ [(hiddenDir, createCall), (createdFile, removeCall)] rfl
    ⟨by decide, by decide⟩ ((Lts.Run.nil.snoc hcreate).snoc hremove) ?_).1
  intro x hx
  obtain rfl | rfl : x = (hiddenDir, createCall) ∨ x = (createdFile, removeCall) := by
    simpa using hx
  · exact callFits_createCall
  · exact callFits_removeCall

end FzzOverlay

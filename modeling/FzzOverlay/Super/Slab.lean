import Mathlib.Data.Finset.Basic
import FzzOverlay.CopyUp.FlagsSpec
import FzzOverlay.Lib.Run

/-!
# Block maps across the lives of slab objects

`ovl_alloc_inode` and `ovl_free_inode` of `super.c` over the objects of
`ovl_inode_cachep`, and the buffers `ovl_copy_up_inode` stores in them. An object
keeps its field values when it is freed and handed out again, and `block_status` is
not among the fields `ovl_alloc_inode` sets.
-/

namespace FzzOverlay

/-- The slab. Besides the objects and which of them are inodes now, it records
which buffers `ovl_copy_up_inode` stored in an object during its current life, which
buffers were allocated at all, and the values passed to `kfree`, latest first. A
buffer has an address of its own, so that one allocation differs from another. -/
structure Slab where
  obj : ℕ → OvlInode
  live : Finset ℕ
  stored : ℕ → List ℕ
  allocated : List ℕ
  released : List ℕ

/-- A slab none of whose objects was handed out, with any values in their memory. -/
def Slab.init (obj : ℕ → OvlInode) : Slab := ⟨obj, ∅, fun _ => [], [], []⟩

inductive SlabOp where
  | alloc (o : ℕ)
  | copyUp (o : ℕ) (env : CopyUpEnv) (c : CopyUpCtx)
  | free (o : ℕ)

/-- The buffer one `ovl_copy_up_inode` stores, if it gets that far. -/
def storedBy (env : CopyUpEnv) (c : CopyUpCtx) : List ℕ :=
  if c.metacopy ∨ c.size = 0 then [] else env.mem.toList

namespace Slab

/-- `ovl_alloc_inode` handing out object `o`. -/
def alloc (s : Slab) (o : ℕ) : Slab :=
  { s with
    obj := Function.update s.obj o (ovlAllocInode (s.obj o))
    live := insert o s.live
    stored := Function.update s.stored o [] }

/-- `ovl_copy_up_inode` on object `o`, whether it succeeds or not. -/
def copyUp (s : Slab) (o : ℕ) (env : CopyUpEnv) (c : CopyUpCtx) : Slab :=
  { s with
    obj := Function.update s.obj o (ovlCopyUpInode env c (s.obj o) newTemp).2.1
    stored := Function.update s.stored o (storedBy env c ++ s.stored o)
    allocated := storedBy env c ++ s.allocated }

/-- `ovl_free_inode` on object `o`, which passed `v` to `kfree`. -/
def free (s : Slab) (o : ℕ) (v : Option ℕ) : Slab :=
  { s with live := s.live.erase o, released := v.toList ++ s.released }

end Slab

/-- One call. `kmalloc` returns a buffer that was not allocated before. -/
inductive SlabStep : Slab → SlabOp → Slab → Prop
  | alloc {s : Slab} {o : ℕ} (h : o ∉ s.live) : SlabStep s (.alloc o) (s.alloc o)
  | copyUp {s : Slab} {o : ℕ} {env : CopyUpEnv} {c : CopyUpCtx} (h : o ∈ s.live)
      (hfresh : ∀ a, env.mem = some a → a ∉ s.allocated) :
      SlabStep s (.copyUp o env c) (s.copyUp o env c)
  | free {s : Slab} {o : ℕ} {v : Option ℕ} (h : o ∈ s.live)
      (hret : ovlFreeInode (s.obj o) = .ret v) : SlabStep s (.free o) (s.free o v)

/-- Freeing object `o` releases nothing, or a buffer of its current life. -/
def Slab.ReleasesOwn (s : Slab) (o : ℕ) : Prop :=
  ∀ a, ovlFreeInode (s.obj o) = .ret (some a) → a ∈ s.stored o

/-- A free step finds a map stored in the current life, or no map at all. -/
def SlabOp.Safe (s : Slab) : SlabOp → Prop
  | .free o => s.stored o ≠ [] ∨ (s.obj o).blockStatus = none
  | _ => True

theorem ovlFreeInode_ret {oi : OvlInode} {v : Option ℕ} (h : ovlFreeInode oi = .ret v) :
    v = oi.blockStatus.map BlockMap.addr := by
  rw [ovlFreeInode] at h
  split at h
  · cases h
    rfl
  · cases h

/-- The field after a copy-up: the new buffer if there is one. -/
theorem ovlCopyUpInode_blockStatus (env : CopyUpEnv) (c : CopyUpCtx) (oi : OvlInode) :
    (storedBy env c = [] ∧
        (ovlCopyUpInode env c oi newTemp).2.1.blockStatus = oi.blockStatus) ∨
      ∃ a, env.mem = some a ∧ storedBy env c = [a] ∧
        (ovlCopyUpInode env c oi newTemp).2.1.blockStatus = some ⟨a, fun _ => .uncopy⟩ := by
  rw [(ovlCopyUpInode_cases env c oi).1, copiedUpInode, storedBy]
  by_cases hc : c.metacopy = true ∨ c.size = 0
  · rw [if_pos hc, if_pos hc]
    exact .inl ⟨rfl, rfl⟩
  · rw [if_neg hc, if_neg hc]
    cases env.mem with
    | none => exact .inl ⟨rfl, rfl⟩
    | some a => exact .inr ⟨a, rfl, rfl, rfl⟩

/-- Invariant of the runs whose free steps are safe. -/
structure SlabInv (s : Slab) : Prop where
  /-- The field holds a buffer of the current life, once there is one. -/
  held : ∀ o ∈ s.live, s.stored o ≠ [] →
    ∃ m, (s.obj o).blockStatus = some m ∧ m.addr ∈ s.stored o
  unreleased : ∀ o ∈ s.live, ∀ a ∈ s.stored o, a ∈ s.allocated ∧ a ∉ s.released
  apart : ∀ o ∈ s.live, ∀ o' ∈ s.live, o ≠ o' → ∀ a ∈ s.stored o, a ∉ s.stored o'
  released : ∀ a ∈ s.released, a ∈ s.allocated
  nodup : s.released.Nodup

namespace SlabInv

variable {s : Slab} {o : ℕ}

theorem init (obj : ℕ → OvlInode) : SlabInv (.init obj) :=
  ⟨by simp [Slab.init], by simp [Slab.init], by simp [Slab.init], by simp [Slab.init],
    by simp [Slab.init]⟩

theorem alloc (h : SlabInv s) (ho : o ∉ s.live) : SlabInv (s.alloc o) := by
  have hother : ∀ {q}, q ∈ (s.alloc o).live → q ≠ o → q ∈ s.live := by
    intro q hq hne
    exact (Finset.mem_insert.mp hq).resolve_left hne
  have hsame : ∀ {q}, q ≠ o → (s.alloc o).stored q = s.stored q := fun hne =>
    Function.update_of_ne hne _ _
  have hnew : (s.alloc o).stored o = [] := Function.update_self _ _ _
  refine ⟨fun q hq hne => ?_, fun q hq a ha => ?_, fun q hq q' hq' hne a ha => ?_, h.released,
    h.nodup⟩
  · have hqo : q ≠ o := by
      rintro rfl
      exact hne hnew
    rw [hsame hqo] at hne ⊢
    obtain ⟨m, hm, hmem⟩ := h.held q (hother hq hqo) hne
    refine ⟨m, ?_, hmem⟩
    rw [← hm]
    exact congrArg OvlInode.blockStatus (Function.update_of_ne hqo _ _)
  · have hqo : q ≠ o := by
      rintro rfl
      rw [hnew] at ha
      cases ha
    rw [hsame hqo] at ha
    exact h.unreleased q (hother hq hqo) a ha
  · have hqo : q ≠ o := by
      rintro rfl
      rw [hnew] at ha
      cases ha
    rw [hsame hqo] at ha
    by_cases hq'o : q' = o
    · rw [hq'o, hnew]
      exact nofun
    · rw [hsame hq'o]
      exact h.apart q (hother hq hqo) q' (hother hq' hq'o) hne a ha

theorem copyUp {env : CopyUpEnv} {c : CopyUpCtx} (h : SlabInv s) (ho : o ∈ s.live)
    (hfresh : ∀ a, env.mem = some a → a ∉ s.allocated) : SlabInv (s.copyUp o env c) := by
  have hobj : ∀ {q}, q ≠ o → (s.copyUp o env c).obj q = s.obj q := fun hne =>
    Function.update_of_ne hne _ _
  have hsame : ∀ {q}, q ≠ o → (s.copyUp o env c).stored q = s.stored q := fun hne =>
    Function.update_of_ne hne _ _
  have hnew : (s.copyUp o env c).stored o = storedBy env c ++ s.stored o :=
    Function.update_self _ _ _
  have hfield : ((s.copyUp o env c).obj o).blockStatus =
      (ovlCopyUpInode env c (s.obj o) newTemp).2.1.blockStatus :=
    congrArg OvlInode.blockStatus (Function.update_self _ _ _)
  have hgrow : ∀ {a}, a ∈ s.allocated → a ∈ (s.copyUp o env c).allocated :=
    fun ha => List.mem_append_right _ ha
  -- A buffer that is stored now was stored before or is the new one.
  have hold : ∀ q ∈ s.live, ∀ a ∈ (s.copyUp o env c).stored q,
      a ∈ s.stored q ∨ (q = o ∧ a ∈ storedBy env c ∧ a ∉ s.allocated) := by
    intro q _ a ha
    by_cases hqo : q = o
    · subst hqo
      rw [hnew] at ha
      rcases List.mem_append.mp ha with ha | ha
      · refine .inr ⟨rfl, ha, ?_⟩
        obtain ⟨hnil, -⟩ | ⟨b, hb, hby, -⟩ := ovlCopyUpInode_blockStatus env c (s.obj q)
        · rw [hnil] at ha
          cases ha
        · rw [hby] at ha
          obtain rfl := List.mem_singleton.mp ha
          exact hfresh a hb
      · exact .inl ha
    · rw [hsame hqo] at ha
      exact .inl ha
  refine ⟨fun q hq hne => ?_, fun q hq a ha => ?_, fun q hq q' hq' hne a ha ha' => ?_,
    fun a ha => hgrow (h.released a ha), h.nodup⟩
  · by_cases hqo : q = o
    · subst hqo
      rw [hfield]
      rw [hnew] at hne ⊢
      obtain ⟨hnil, hst⟩ | ⟨a, -, hby, hst⟩ := ovlCopyUpInode_blockStatus env c (s.obj q)
      · rw [hst]
        rw [hnil, List.nil_append] at hne ⊢
        exact h.held q hq hne
      · rw [hst, hby]
        exact ⟨_, rfl, List.mem_cons_self⟩
    · rw [hobj hqo]
      rw [hsame hqo] at hne ⊢
      exact h.held q hq hne
  · rcases hold q hq a ha with ha | ⟨-, ha, hnot⟩
    · obtain ⟨hall, hrel⟩ := h.unreleased q hq a ha
      exact ⟨hgrow hall, hrel⟩
    · exact ⟨List.mem_append_left _ ha, fun hr => hnot (h.released a hr)⟩
  · rcases hold q hq a ha with ha | ⟨rfl, -, hnot⟩
    · rcases hold q' hq' a ha' with ha' | ⟨-, -, hnot⟩
      · exact h.apart q hq q' hq' hne a ha ha'
      · exact hnot (h.unreleased q hq a ha).1
    · rcases hold q' hq' a ha' with ha' | ⟨rfl, -, -⟩
      · exact hnot (h.unreleased q' hq' a ha').1
      · exact hne rfl

/-- A safe free releases a buffer of the current life, or nothing. -/
theorem releasesOwn (h : SlabInv s) (ho : o ∈ s.live) (hsafe : (SlabOp.free o).Safe s) :
    s.ReleasesOwn o := by
  intro a ha
  have hmap := ovlFreeInode_ret ha
  rcases hsafe with hne | hnone
  · obtain ⟨m, hm, hmem⟩ := h.held o ho hne
    rw [hm] at hmap
    cases hmap
    exact hmem
  · rw [hnone] at hmap
    cases hmap

theorem free {v : Option ℕ} (h : SlabInv s) (ho : o ∈ s.live) (hsafe : (SlabOp.free o).Safe s)
    (hret : ovlFreeInode (s.obj o) = .ret v) : SlabInv (s.free o v) := by
  have hlive : ∀ {q}, q ∈ (s.free o v).live → q ∈ s.live ∧ q ≠ o := by
    intro q hq
    obtain ⟨hne, hq⟩ := Finset.mem_erase.mp hq
    exact ⟨hq, hne⟩
  have hown : ∀ a ∈ v.toList, a ∈ s.stored o := by
    intro a ha
    obtain rfl := Option.mem_toList.mp ha
    exact h.releasesOwn ho hsafe a hret
  refine ⟨fun q hq hne => h.held q (hlive hq).1 hne, fun q hq a ha => ?_,
    fun q hq q' hq' hne => h.apart q (hlive hq).1 q' (hlive hq').1 hne, fun a ha => ?_, ?_⟩
  · obtain ⟨hq, hne⟩ := hlive hq
    obtain ⟨hall, hrel⟩ := h.unreleased q hq a ha
    refine ⟨hall, fun hmem => ?_⟩
    rcases List.mem_append.mp hmem with hmem | hmem
    · exact h.apart q hq o ho hne a ha (hown a hmem)
    · exact hrel hmem
  · rcases List.mem_append.mp ha with ha | ha
    · exact (h.unreleased o ho a (hown a ha)).1
    · exact h.released a ha
  · refine List.nodup_append'.mpr ⟨?_, h.nodup, ?_⟩
    · cases v with
      | none => exact List.nodup_nil
      | some a => exact List.nodup_singleton a
    · intro a ha hrel
      exact (h.unreleased o ho a (hown a ha)).2 hrel

theorem step {t : Slab} {op : SlabOp} (h : SlabInv s) (hsafe : op.Safe s)
    (hs : SlabStep s op t) : SlabInv t := by
  cases hs with
  | alloc ho => exact h.alloc ho
  | copyUp ho hfresh => exact h.copyUp ho hfresh
  | free ho hret => exact h.free ho hsafe hret

end SlabInv

/-- In every run of allocations, copy-ups and frees, no buffer is released twice and
every free releases a buffer of the current life only, if and only if every free
finds a map stored in the current life or no map at all. -/
theorem block_maps_owned_iff {obj : ℕ → OvlInode} {tr : List (Slab × SlabOp)} {s : Slab}
    (hrun : Lts.Run SlabStep (.init obj) tr s) :
    (s.released.Nodup ∧ ∀ p ∈ tr, ∀ o, p.2 = .free o → p.1.ReleasesOwn o) ↔
      ∀ p ∈ tr, p.2.Safe p.1 := by
  constructor
  · rintro ⟨-, hown⟩ p hp
    obtain ⟨t, hs⟩ := hrun.step_of_mem p hp
    cases hop : p.2 with
    | alloc o => trivial
    | copyUp o env c => trivial
    | free o =>
      rw [hop] at hs
      cases hs with
      | free ho hret =>
        cases hm : (p.1.obj o).blockStatus with
        | none => exact .inr hm
        | some m =>
          have hv := ovlFreeInode_ret hret
          rw [hm] at hv
          subst hv
          exact .inl (List.ne_nil_of_mem (hown p hp o hop m.addr hret))
  · intro hsafe
    have hstep : ∀ t op u, SlabInv t → op.Safe t → SlabStep t op u → SlabInv u :=
      fun t op u ht hs hst => ht.step hs hst
    refine ⟨(hrun.invariant_of_guard (.init obj) hstep hsafe).nodup, fun p hp o hop => ?_⟩
    have hinv := hrun.invariant_mem (.init obj) hstep hsafe p hp
    have hsafe' := hsafe p hp
    obtain ⟨t, hs⟩ := hrun.step_of_mem p hp
    rw [hop] at hs hsafe'
    cases hs with
    | free ho hret => exact hinv.releasesOwn ho hsafe'

/-- A copy-up that gets the buffer `a` from `kmalloc`. -/
def mapEnv (a : ℕ) : CopyUpEnv := { CopyUpEnv.full false with mem := some a }

/-- A new object that was copied up and got the buffer 7. -/
def firstLife : Slab :=
  ((Slab.init fun _ => zeroInode).alloc 0).copyUp 0 (mapEnv 7) ⟨1, true, false⟩

/-- The same object freed and handed out again. -/
def secondLife : Slab := (firstLife.free 0 (some 7)).alloc 0

theorem secondLife_run : ∃ tr, Lts.Run SlabStep (.init fun _ => zeroInode) tr secondLife ∧
    ∀ p ∈ tr, p.2.Safe p.1 := by
  have hfree : ovlFreeInode (firstLife.obj 0) = .ret (some 7) := rfl
  refine ⟨_, .snoc (.snoc (.snoc (.snoc .nil (.alloc ?_)) (.copyUp ?_ ?_)) (.free ?_ hfree))
    (.alloc ?_), ?_⟩
  · decide
  · decide
  · exact fun a _ => List.not_mem_nil
  · decide
  · decide
  · simp [SlabOp.Safe, Slab.copyUp, storedBy, mapEnv]

/-- Two lives of one object, each with a map of its own. -/
theorem block_maps_owned_twice : ∃ tr s,
    Lts.Run SlabStep (.init fun _ => zeroInode) tr s ∧ (∀ p ∈ tr, p.2.Safe p.1) ∧
      s.released = [8, 7] ∧
      s.released.Nodup ∧ ∀ p ∈ tr, ∀ o, p.2 = .free o → p.1.ReleasesOwn o := by
  obtain ⟨tr, hrun, hsafe⟩ := secondLife_run
  have hcopy : SlabStep secondLife (.copyUp 0 (mapEnv 8) ⟨1, true, false⟩)
      (secondLife.copyUp 0 (mapEnv 8) ⟨1, true, false⟩) := by
    refine .copyUp (by decide) ?_
    rintro a ha
    cases ha
    decide
  have hrun' := (hrun.snoc hcopy).snoc (.free (o := 0) (v := some 8) (by decide) rfl)
  have hsafe' : ∀ p ∈ tr ++ [(secondLife, .copyUp 0 (mapEnv 8) ⟨1, true, false⟩)] ++
      [(secondLife.copyUp 0 (mapEnv 8) ⟨1, true, false⟩, .free 0)], SlabOp.Safe p.1 p.2 := by
    intro p hp
    simp only [List.mem_append, List.mem_singleton] at hp
    rcases hp with (hp | rfl) | rfl
    · exact hsafe p hp
    · trivial
    · exact .inl (by decide)
  exact ⟨_, _, hrun', hsafe', rfl, (block_maps_owned_iff hrun').mpr hsafe'⟩

/-- The second life ends without a copy-up: buffer 7 is released again. -/
theorem block_map_released_twice : ∃ tr s,
    Lts.Run SlabStep (.init fun _ => zeroInode) tr s ∧ s.released = [7, 7] ∧
      ¬ s.released.Nodup ∧ ∃ p ∈ tr, p.2 = .free 0 ∧ ¬ p.1.ReleasesOwn 0 := by
  obtain ⟨tr, hrun, -⟩ := secondLife_run
  have hfree : ovlFreeInode (secondLife.obj 0) = .ret (some 7) := rfl
  refine ⟨_, _, hrun.snoc (.free (by decide) hfree), rfl, by decide, (secondLife, .free 0),
    by simp, rfl, fun hown => ?_⟩
  have hmem := hown 7 hfree
  revert hmem
  decide

end FzzOverlay

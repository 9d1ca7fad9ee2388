import Mathlib.Data.Finset.Basic
import FzzOverlay.Entry
import FzzOverlay.Lib.Run

/-!
# The worker thread of the module

`ovl_mount` and `ovl_put_super` of `super.c`, as far as they start and stop the
`block_copy` thread. There is one handle, `block_copy_thread`, for all mounts: every
mount overwrites it, every unmount stops the thread it holds then, and nothing clears
it. `meta_save_thread` stays `NULL`, since the call that would start it is commented
out.
-/

namespace FzzOverlay

/-- `struct task_struct *`. `kthread_run` returns an error value if it fails. -/
inductive ThreadPtr where
  | null
  | thread (id : ℕ)
  | err (e : Errno)

/-- The handle, the number of threads started so far, which are numbered in order,
the threads `kthread_stop` was called on, latest first, and the mounts. -/
structure Module where
  blockCopyThread : ThreadPtr
  started : ℕ
  stops : List ℕ
  mounts : Finset ℕ

namespace Module

/-- The module just loaded. -/
def init : Module := ⟨.null, 0, [], ∅⟩

/-- `block_copy_thread = kthread_run(ovl_block_copy, NULL, "block_copy")`. -/
def kthreadRun (s : Module) (run : Option Errno) : Module :=
  match run with
  | none => { s with blockCopyThread := .thread s.started, started := s.started + 1 }
  | some e => { s with blockCopyThread := .err e }

/-- `ovl_mount`. `fill` is the outcome of `ovl_fill_super`; `ovl_put_super` is not
called for a superblock whose `ovl_fill_super` failed. -/
def ovlMount (s : Module) (run fill : Option Errno) (sb : ℕ) : ℤ × Module :=
  match fill with
  | none => (0, { s.kthreadRun run with mounts := insert sb s.mounts })
  | some e => (e.ret, s.kthreadRun run)

/-- `ovl_put_super`. -/
def ovlPutSuper (s : Module) (sb : ℕ) : Outcome Module :=
  match s.blockCopyThread with
  | .null => .ret { s with mounts := s.mounts.erase sb }
  | .thread t => .ret { s with stops := t :: s.stops, mounts := s.mounts.erase sb }
  | .err _ => .oops

/-- What an unmount that returns does. -/
theorem ovlPutSuper_ret {s t : Module} {sb : ℕ} (h : s.ovlPutSuper sb = .ret t) :
    t.blockCopyThread = s.blockCopyThread ∧ t.started = s.started ∧
      t.mounts = s.mounts.erase sb ∧
      ((s.blockCopyThread = .null ∧ t.stops = s.stops) ∨
        ∃ id, s.blockCopyThread = .thread id ∧ t.stops = id :: s.stops) := by
  obtain ⟨ptr, started, stops, mounts⟩ := s
  cases ptr with
  | null =>
    cases h
    exact ⟨rfl, rfl, rfl, .inl ⟨rfl, rfl⟩⟩
  | thread id =>
    cases h
    exact ⟨rfl, rfl, rfl, .inr ⟨id, rfl, rfl⟩⟩
  | err e => cases h

/-- Every thread is stopped at most once, and all of them are once no mount is left. -/
structure OneForOne (s : Module) : Prop where
  nodup : s.stops.Nodup
  started : ∀ t ∈ s.stops, t < s.started
  stopped : s.mounts = ∅ → ∀ t, t < s.started → t ∈ s.stops

end Module

inductive MountOp where
  | mount (run fill : Option Errno) (sb : ℕ)
  | putSuper (sb : ℕ)

inductive MountStep : Module → MountOp → Module → Prop
  | mount {s : Module} {run fill : Option Errno} {sb : ℕ} (h : sb ∉ s.mounts) :
      MountStep s (.mount run fill sb) (s.ovlMount run fill sb).2
  | putSuper {s t : Module} {sb : ℕ} (h : sb ∈ s.mounts) (hret : s.ovlPutSuper sb = .ret t) :
      MountStep s (.putSuper sb) t

/-- A mount succeeds, and there is no other one at that time. -/
def MountOp.Alone (s : Module) : MountOp → Prop
  | .mount _ fill _ => s.mounts = ∅ ∧ fill = none
  | .putSuper _ => True

/-- A mount gets its thread. -/
def MountOp.Started : MountOp → Prop
  | .mount run _ _ => run = none
  | .putSuper _ => True

/-- State of a module with at most one mount at a time: the handle holds the thread
of the mount, which is the only one running. -/
structure Module.Single (s : Module) : Prop where
  nodup : s.stops.Nodup
  started : ∀ t ∈ s.stops, t < s.started
  stopped : s.mounts = ∅ → ∀ t, t < s.started → t ∈ s.stops
  mounted : ∀ sb ∈ s.mounts, s.mounts = {sb} ∧
    ((∃ e, s.blockCopyThread = .err e) ∨ ∃ t, s.blockCopyThread = .thread t ∧ t < s.started ∧
      t ∉ s.stops ∧ ∀ t', t' < s.started → t' = t ∨ t' ∈ s.stops)

namespace Module.Single

variable {s t : Module}

theorem init : Module.init.Single :=
  ⟨List.nodup_nil, nofun, fun _ t ht => absurd ht (Nat.not_lt_zero t), by simp [Module.init]⟩

theorem oneForOne (h : s.Single) : s.OneForOne := ⟨h.nodup, h.started, h.stopped⟩

/-- A mount of its own. -/
theorem mount (h : s.Single) (hm : s.mounts = ∅) (run : Option Errno) (sb : ℕ) :
    (s.ovlMount run none sb).2.Single := by
  have hmounts : insert sb s.mounts = {sb} := by
    rw [hm]
    rfl
  have hne : insert sb s.mounts ≠ ∅ := Finset.insert_ne_empty sb s.mounts
  cases run with
  | some e =>
    refine ⟨h.nodup, h.started, fun hempty => absurd hempty hne, fun sb' hsb => ?_⟩
    obtain rfl : sb' = sb := by
      change sb' ∈ insert sb s.mounts at hsb
      rw [hmounts] at hsb
      exact Finset.mem_singleton.mp hsb
    exact ⟨hmounts, .inl ⟨e, rfl⟩⟩
  | none =>
    refine ⟨h.nodup, fun t ht => Nat.lt_succ_of_lt (h.started t ht),
      fun hempty => absurd hempty hne, fun sb' hsb => ?_⟩
    obtain rfl : sb' = sb := by
      change sb' ∈ insert sb s.mounts at hsb
      rw [hmounts] at hsb
      exact Finset.mem_singleton.mp hsb
    refine ⟨hmounts, .inr ⟨s.started, rfl, Nat.lt_succ_self _, ?_, fun t ht => ?_⟩⟩
    · exact fun hmem => absurd (h.started _ hmem) (lt_irrefl _)
    · rcases Nat.lt_succ_iff_lt_or_eq.mp ht with hlt | rfl
      · exact .inr (h.stopped hm t hlt)
      · exact .inl rfl

theorem putSuper {sb : ℕ} (h : s.Single) (hsb : sb ∈ s.mounts)
    (hret : s.ovlPutSuper sb = .ret t) : t.Single := by
  obtain ⟨-, hstarted, hmounts, hcase⟩ := ovlPutSuper_ret hret
  obtain ⟨hm, ⟨e, he⟩ | ⟨id, hid, hlt, hnot, hall⟩⟩ := h.mounted sb hsb
  · rw [he] at hcase
    rcases hcase with ⟨hptr, -⟩ | ⟨id, hptr, -⟩ <;> cases hptr
  · rw [hid] at hcase
    obtain ⟨hptr, -⟩ | ⟨id', hptr, hstops⟩ := hcase
    · cases hptr
    cases hptr
    have hempty : t.mounts = ∅ := by
      rw [hmounts, hm]
      simp
    refine ⟨?_, fun q hq => ?_, fun _ q hq => ?_, fun sb' hsb' => ?_⟩
    · rw [hstops]
      exact List.nodup_cons.mpr ⟨hnot, h.nodup⟩
    · rw [hstarted]
      rw [hstops] at hq
      rcases List.mem_cons.mp hq with rfl | hq
      · exact hlt
      · exact h.started q hq
    · rw [hstarted] at hq
      rw [hstops]
      rcases hall q hq with rfl | hmem
      · exact List.mem_cons_self
      · exact List.mem_cons_of_mem _ hmem
    · rw [hempty] at hsb'
      exact absurd hsb' (Finset.notMem_empty sb')

theorem step {op : MountOp} (h : s.Single) (halone : op.Alone s) (hs : MountStep s op t) :
    t.Single := by
  cases hs with
  | mount hsb =>
    obtain ⟨hm, rfl⟩ := halone
    exact h.mount hm _ _
  | putSuper hsb hret => exact h.putSuper hsb hret

end Module.Single

/-- A running thread that no later unmount will stop: the handle does not hold it, or
no mount is left. -/
def Module.Leaks (s : Module) : Prop :=
  ∃ t, t < s.started ∧ t ∉ s.stops ∧ (s.blockCopyThread ≠ .thread t ∨ s.mounts = ∅)

namespace Module

variable {s t : Module}

/-- A second mount, or one that fails, loses a thread. -/
theorem Single.leaks {fill : Option Errno} {sb : ℕ} (h : s.Single)
    (herr : ∀ e, s.blockCopyThread ≠ .err e) (hnot : ¬ (s.mounts = ∅ ∧ fill = none)) :
    (s.ovlMount none fill sb).2.Leaks := by
  by_cases hm : s.mounts = ∅
  · cases fill with
    | none => exact absurd ⟨hm, rfl⟩ hnot
    | some e =>
      exact ⟨s.started, Nat.lt_succ_self _, fun hmem => absurd (h.started _ hmem) (lt_irrefl _),
        .inr hm⟩
  · obtain ⟨sb', hsb⟩ := Finset.nonempty_iff_ne_empty.mpr hm
    obtain ⟨-, ⟨e, he⟩ | ⟨id, hid, hlt, hrun, -⟩⟩ := h.mounted sb' hsb
    · exact absurd he (herr e)
    · have hne : ThreadPtr.thread s.started ≠ .thread id := by
        intro heq
        cases heq
        exact lt_irrefl _ hlt
      cases fill with
      | none => exact ⟨id, Nat.lt_succ_of_lt hlt, hrun, .inl hne⟩
      | some e => exact ⟨id, Nat.lt_succ_of_lt hlt, hrun, .inl hne⟩

/-- A lost thread stays lost. -/
theorem Leaks.step {op : MountOp} (h : s.Leaks) (hs : MountStep s op t) : t.Leaks := by
  obtain ⟨id, hlt, hrun, hlost⟩ := h
  cases hs with
  | @mount run fill sb hsb =>
    have hkeep : id < (s.kthreadRun run).started ∧ id ∉ (s.kthreadRun run).stops ∧
        (s.kthreadRun run).blockCopyThread ≠ .thread id := by
      cases run with
      | none =>
        refine ⟨Nat.lt_succ_of_lt hlt, hrun, ?_⟩
        intro heq
        cases heq
        exact lt_irrefl _ hlt
      | some e => exact ⟨hlt, hrun, nofun⟩
    cases fill with
    | none => exact ⟨id, hkeep.1, hkeep.2.1, .inl hkeep.2.2⟩
    | some e => exact ⟨id, hkeep.1, hkeep.2.1, .inl hkeep.2.2⟩
  | @putSuper _ sb hsb hret =>
    have hne : s.blockCopyThread ≠ .thread id := by
      refine hlost.resolve_right fun hm => ?_
      rw [hm] at hsb
      exact Finset.notMem_empty sb hsb
    obtain ⟨hptr, hstarted, -, ⟨-, hstops⟩ | ⟨id', hid, hstops⟩⟩ := ovlPutSuper_ret hret
    · refine ⟨id, ?_, ?_, .inl ?_⟩
      · rw [hstarted]
        exact hlt
      · rw [hstops]
        exact hrun
      · rw [hptr]
        exact hne
    · refine ⟨id, ?_, fun hmem => ?_, .inl ?_⟩
      · rw [hstarted]
        exact hlt
      · rw [hstops] at hmem
        rcases List.mem_cons.mp hmem with rfl | hmem
        · exact hne hid
        · exact hrun hmem
      · rw [hptr]
        exact hne

theorem handle_step {op : MountOp} (h : ∀ e, s.blockCopyThread ≠ .err e) (hop : op.Started)
    (hs : MountStep s op t) : ∀ e, t.blockCopyThread ≠ .err e := by
  cases hs with
  | @mount run fill sb hsb =>
    obtain rfl : run = none := hop
    cases fill with
    | none => exact nofun
    | some e => exact nofun
  | @putSuper _ sb hsb hret =>
    rw [(ovlPutSuper_ret hret).1]
    exact h

/-- A run in which every `kthread_run` succeeds mounts one at a time, or it loses a
thread. -/
theorem alone_or_leaks {tr : List (Module × MountOp)} (hrun : Lts.Run MountStep .init tr s)
    (hstart : ∀ p ∈ tr, p.2.Started) : (∀ p ∈ tr, p.2.Alone p.1) ∨ s.Leaks := by
  induction hrun with
  | nil => exact .inl nofun
  | @snoc tr u v op hrun hs ih =>
    have hstart' : ∀ p ∈ tr, p.2.Started := fun p hp => hstart p (List.mem_append_left _ hp)
    have hlast : op.Started := hstart (u, op) (List.mem_append_right _ (List.mem_singleton_self _))
    rcases ih hstart' with halone | hleak
    · by_cases hop : op.Alone u
      · refine .inl fun p hp => ?_
        rcases List.mem_append.mp hp with hp | hp
        · exact halone p hp
        · obtain rfl := List.mem_singleton.mp hp
          exact hop
      · have hu : u.Single := hrun.invariant_of_guard .init
          (fun a op b ha hal hst => ha.step hal hst) halone
        have herr : ∀ e, u.blockCopyThread ≠ .err e :=
          hrun.invariant_of_guard (I := fun m => ∀ e, m.blockCopyThread ≠ .err e)
            (G := fun _ op => op.Started) nofun
            (fun a op b ha hst hstep => handle_step ha hst hstep) hstart'
        cases hs with
        | mount hsb =>
          obtain rfl := hlast
          exact .inr (hu.leaks herr hop)
        | putSuper hsb hret => exact absurd trivial hop
    · exact .inr (hleak.step hs)

end Module

/-- In every run whose mounts succeed and do not overlap, threads are started and
stopped one for one. When all threads could be started and no mount is left, this is
the only way. -/
theorem worker_threads_iff {tr : List (Module × MountOp)} {s : Module}
    (hrun : Lts.Run MountStep .init tr s) :
    ((∀ p ∈ tr, p.2.Alone p.1) → s.OneForOne) ∧
      ((∀ p ∈ tr, p.2.Started) → s.mounts = ∅ →
        (s.OneForOne ↔ ∀ p ∈ tr, p.2.Alone p.1)) := by
  have hsound : (∀ p ∈ tr, p.2.Alone p.1) → s.OneForOne := fun halone =>
    (hrun.invariant_of_guard .init (fun a op b ha hal hst => Module.Single.step ha hal hst)
      halone).oneForOne
  refine ⟨hsound, fun hstart hm => ⟨fun hone => ?_, hsound⟩⟩
  rcases Module.alone_or_leaks hrun hstart with halone | ⟨t, hlt, hrun, -⟩
  · exact halone
  · exact absurd (hone.stopped hm t hlt) hrun

/-- Two mounts, one after the other. -/
theorem worker_threads_sequential : ∃ tr s, Lts.Run MountStep .init tr s ∧
    (∀ p ∈ tr, p.2.Alone p.1) ∧ s.stops = [1, 0] ∧ s.mounts = ∅ ∧ s.OneForOne := by
  have hfirst : MountStep .init (.mount none none 0) ⟨.thread 0, 1, [], {0}⟩ :=
    .mount (by decide)
  have hput : MountStep ⟨.thread 0, 1, [], {0}⟩ (.putSuper 0) ⟨.thread 0, 1, [0], ∅⟩ :=
    .putSuper (by decide) rfl
  have hsecond : MountStep ⟨.thread 0, 1, [0], ∅⟩ (.mount none none 0) ⟨.thread 1, 2, [0], {0}⟩ :=
    .mount (by decide)
  have hlast : MountStep ⟨.thread 1, 2, [0], {0}⟩ (.putSuper 0) ⟨.thread 1, 2, [1, 0], ∅⟩ :=
    .putSuper (by decide) rfl
  have hrun := (((Lts.Run.nil.snoc hfirst).snoc hput).snoc hsecond).snoc hlast
  have halone : ∀ p ∈ [(Module.init, MountOp.mount none none 0),
      (⟨.thread 0, 1, [], {0}⟩, .putSuper 0), (⟨.thread 0, 1, [0], ∅⟩, .mount none none 0),
      (⟨.thread 1, 2, [0], {0}⟩, .putSuper 0)], p.2.Alone p.1 := by
    simp [MountOp.Alone, Module.init]
  exact ⟨_, _, hrun, halone, rfl, rfl, (worker_threads_iff hrun).1 halone⟩

/-- Two mounts at a time: the second thread is stopped twice, the first one never. -/
theorem worker_threads_overlapping : ∃ tr s, Lts.Run MountStep .init tr s ∧
    s.started = 2 ∧ s.mounts = ∅ ∧ s.stops = [1, 1] ∧ ¬ s.stops.Nodup ∧ 0 ∉ s.stops ∧
      ¬ s.OneForOne := by
  have hfirst : MountStep .init (.mount none none 0) ⟨.thread 0, 1, [], {0}⟩ :=
    .mount (by decide)
  have hsecond : MountStep ⟨.thread 0, 1, [], {0}⟩ (.mount none none 1)
      ⟨.thread 1, 2, [], insert 1 {0}⟩ := .mount (by decide)
  have hput : MountStep ⟨.thread 1, 2, [], insert 1 {0}⟩ (.putSuper 0)
      ⟨.thread 1, 2, [1], (insert 1 {0} : Finset ℕ).erase 0⟩ := .putSuper (by decide) rfl
  have hlast : MountStep ⟨.thread 1, 2, [1], (insert 1 {0} : Finset ℕ).erase 0⟩ (.putSuper 1)
      ⟨.thread 1, 2, [1, 1], ((insert 1 {0} : Finset ℕ).erase 0).erase 1⟩ :=
    .putSuper (by decide) rfl
  have hrun := (((Lts.Run.nil.snoc hfirst).snoc hsecond).snoc hput).snoc hlast
  exact ⟨_, _, hrun, rfl, by decide, rfl, by decide, by decide,
    fun hone => absurd hone.nodup (by decide)⟩

end FzzOverlay

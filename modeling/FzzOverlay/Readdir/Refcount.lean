import FzzOverlay.Readdir.Batches

/-!
# The reference counts of the directory caches

Caches of several versions can be in memory at once, each used by its own files, and only the
newest is reachable from the inode. A cache is in memory as long as an open file uses it, and
no longer.

## Main definitions

- `DirInode.AllHeld` — every cache in memory has a reference
- `CallKeeps` — what every call leaves of the inode
- `Current` — the cache of a file is of the version of the directory

## Main result

- `cache_refcounts_exact`
-/

namespace FzzOverlay

open SearchTree

section Keeps

/-- Every cache in memory has a reference. -/
def DirInode.AllHeld (s : DirInode) : Prop :=
  ∀ c cache, s.heap c = some cache → 0 < cache.refcount

/-- What a call on a file leaves of the inode. -/
structure CallKeeps (s s' : DirInode) : Prop where
  version : s'.version = s.version
  whiteouts : s'.whiteouts = s.whiteouts
  held : s.AllHeld → s'.AllHeld

variable {s s' s'' : DirInode} {f f' : DirFile} {c : ℕ}

theorem CallKeeps.refl (s : DirInode) : CallKeeps s s := ⟨rfl, rfl, id⟩

theorem CallKeeps.trans (h : CallKeeps s s') (h' : CallKeeps s' s'') : CallKeeps s s'' :=
  ⟨h'.version.trans h.version, h'.whiteouts.trans h.whiteouts, fun hs => h'.held (h.held hs)⟩

/-- The cache in the slot is not looked at. -/
theorem callKeeps_slot (s : DirInode) (slot : Option ℕ) : CallKeeps s { s with cache := slot } :=
  ⟨rfl, rfl, id⟩

theorem callKeeps_store {cache : DirCache} (h : s.AllHeld → 0 < cache.refcount) :
    CallKeeps s (s.store c (some cache)) := by
  refine ⟨rfl, rfl, fun hs d cache' hd => ?_⟩
  by_cases hdc : d = c
  · subst hdc
    rw [store_heap_self] at hd
    obtain rfl := Option.some.inj hd
    exact h hs
  · rw [store_heap_of_ne _ _ _ hdc] at hd
    exact hs d cache' hd

theorem callKeeps_free : CallKeeps s (s.free c) := by
  refine ⟨?_, free_whiteouts, fun hs d cache hd => ?_⟩
  · rw [DirInode.free]
    split <;> rfl
  · by_cases hdc : d = c
    · subst hdc
      rw [free_heap_self] at hd
      cases hd
    · rw [free_heap_of_ne hdc] at hd
      exact hs d cache hd

theorem callKeeps_cachePut (h : ovlCachePut s c = some s') : CallKeeps s s' := by
  simp only [ovlCachePut, Option.bind_eq_bind, Option.bind_eq_some_iff] at h
  obtain ⟨cache, hcache, h⟩ := h
  split at h
  · obtain rfl := Option.some.inj h
    exact callKeeps_free
  · next hlast =>
    obtain rfl := Option.some.inj h
    refine callKeeps_store fun hs => ?_
    have hpos := hs c cache hcache
    show 0 < cache.refcount - 1
    omega

end Keeps

section Current

/-- The cache of the file, if it has one, is of the version of the directory. -/
def Current (s : DirInode) (f : DirFile) : Prop :=
  ∀ c, f.cache = some c → ∃ cache, s.heap c = some cache ∧ cache.version = s.version

variable {s s' : DirInode} {f f' : DirFile} {c : ℕ}

/-- `ovl_dir_reset` lets go of an outdated cache. -/
theorem ovlDirReset_current (h : ovlDirReset s f = some (s', f')) :
    CallKeeps s s' ∧ Current s' f' ∧ (f.isReal = false → f'.isReal = false) := by
  rw [ovlDirReset] at h
  cases hc : f.cache with
  | none =>
    rw [hc] at h
    cases h
    refine ⟨CallKeeps.refl s, fun c hcache => ?_, resetReal_isReal s⟩
    rw [resetReal_cache, hc] at hcache
    cases hcache
  | some c =>
    simp only [hc, Option.bind_eq_bind, Option.bind_eq_some_iff] at h
    obtain ⟨cache, hcache, h⟩ := h
    split at h
    · obtain ⟨s₁, hput, h⟩ := Option.bind_eq_some_iff.mp h
      cases h
      refine ⟨callKeeps_cachePut hput, fun d hd => ?_, fun hreal => resetReal_isReal s' hreal⟩
      rw [resetReal_cache] at hd
      cases hd
    · next hversion =>
      cases h
      refine ⟨CallKeeps.refl s, fun d hd => ?_, resetReal_isReal s⟩
      rw [resetReal_cache, hc] at hd
      cases hd
      exact ⟨cache, hcache, (not_not.mp hversion).symm⟩

theorem resetAtStart_current (h : resetAtStart s f = some (s', f')) :
    CallKeeps s s' ∧ (f.fPos = 0 → Current s' f') ∧ (f.isReal = false → f'.isReal = false) := by
  rw [resetAtStart] at h
  split at h
  · obtain ⟨hkeeps, hcurrent, hreal⟩ := ovlDirReset_current h
    exact ⟨hkeeps, fun _ => hcurrent, hreal⟩
  · next hpos =>
    cases h
    exact ⟨CallKeeps.refl s, fun hzero => absurd hzero hpos, id⟩

section Calls

variable (color : BinaryTree ℕ → BinaryTree ℕ) (xino impure : Bool) (env : IterEnv)

/-- A cache that was just read is of the version of the directory. -/
theorem readCache_current :
    CallKeeps s (readCache color xino impure s env).1 ∧
      ∀ c, (readCache color xino impure s env).2 = .ok c →
        ∃ cache, (readCache color xino impure s env).1.heap c = some cache ∧
          cache.version = s.version := by
  rw [readCache]
  cases env.kzalloc with
  | none => exact ⟨callKeeps_slot s none, fun _ h => by cases h⟩
  | some c =>
    simp only
    split
    · exact ⟨callKeeps_slot s none, fun _ h => by cases h⟩
    split
    · exact ⟨callKeeps_slot s none, fun _ h => by cases h⟩
    · refine ⟨?_, fun d hd => ?_⟩
      · exact ((callKeeps_slot s none).trans (callKeeps_store fun _ => Int.one_pos)).trans
          (callKeeps_slot _ (some c))
      · cases hd
        exact ⟨_, store_heap_self _ c _, rfl⟩

theorem ovlCacheGet_current {r : Except ℤ ℕ}
    (h : ovlCacheGet color xino impure s env = some (s', r)) :
    CallKeeps s s' ∧ ∀ c, r = .ok c →
      ∃ cache, s'.heap c = some cache ∧ cache.version = s.version := by
  have hread : some (readCache color xino impure s env) = some (s', r) → CallKeeps s s' ∧
      ∀ c, r = .ok c → ∃ cache, s'.heap c = some cache ∧ cache.version = s.version := by
    intro heq
    obtain ⟨hkeeps, hcurrent⟩ := readCache_current (s := s) color xino impure env
    rw [Option.some.inj heq] at hkeeps hcurrent
    exact ⟨hkeeps, hcurrent⟩
  rw [ovlCacheGet] at h
  cases hslot : s.cache with
  | none =>
    rw [hslot] at h
    exact hread h
  | some c =>
    simp only [hslot, Option.bind_eq_bind, Option.bind_eq_some_iff] at h
    obtain ⟨cache, hcache, h⟩ := h
    split at h
    · next hversion =>
      cases h
      refine ⟨callKeeps_store fun hs => ?_, fun d hd => ?_⟩
      · have hpos := hs c cache hcache
        show 0 < cache.refcount + 1
        omega
      cases hd
      exact ⟨_, store_heap_self s c _, hversion.symm⟩
    · exact hread h

/-- The loop of `ovl_iterate` only fills in inode numbers. -/
theorem iterateCache_current {r : Call} (h : iterateCache s f env = some r) :
    CallKeeps s r.inode ∧ (Current s f → Current r.inode r.file) ∧
      r.file.isReal = f.isReal := by
  simp only [iterateCache, Option.bind_eq_bind, Option.bind_eq_some_iff] at h
  obtain ⟨c, hc, cache, hcache, k, -, h⟩ := h
  cases h
  refine ⟨callKeeps_store fun hs => hs c cache hcache, fun hcurrent d hd => ?_, rfl⟩
  obtain rfl := Option.some.inj (hc.symm.trans hd)
  obtain ⟨cache', hcache', hversion⟩ := hcurrent c hc
  obtain rfl := Option.some.inj (hcache.symm.trans hcache')
  exact ⟨_, store_heap_self s c _, hversion⟩

theorem iterateOpen_current {r : Call} (hreal : f.isReal = false)
    (h : iterateOpen color xino impure s f env = some r) :
    CallKeeps s r.inode ∧ (Current s f → Current r.inode r.file) ∧ r.file.isReal = false := by
  rw [iterateOpen, if_neg (by rw [hreal]; decide)] at h
  cases hc : f.cache with
  | some c =>
    simp only [hc] at h
    obtain ⟨hkeeps, hcurrent, hsame⟩ := iterateCache_current env h
    exact ⟨hkeeps, hcurrent, hsame.trans hreal⟩
  | none =>
    simp only [hc, Option.bind_eq_bind, Option.bind_eq_some_iff] at h
    obtain ⟨⟨s₁, got⟩, hget, h⟩ := h
    obtain ⟨hkeeps, hfresh⟩ := ovlCacheGet_current color xino impure env hget
    cases got with
    | error e =>
      cases h
      refine ⟨hkeeps, fun _ c hcache => ?_, hreal⟩
      rw [hc] at hcache
      cases hcache
    | ok c =>
      obtain ⟨f₁, hseek, h⟩ := Option.bind_eq_some_iff.mp h
      obtain ⟨hcache₁, hreal₁, -⟩ := ovlSeekCursor_keeps hseek
      obtain ⟨hkeeps', hcurrent, hsame⟩ := iterateCache_current env h
      refine ⟨hkeeps.trans hkeeps', fun _ => hcurrent fun d hd => ?_,
        hsame.trans (hreal₁.trans hreal)⟩
      rw [hcache₁] at hd
      cases hd
      obtain ⟨cache, hcache, hversion⟩ := hfresh c rfl
      exact ⟨cache, hcache, hversion.trans hkeeps.version.symm⟩

/-- `ovl_iterate` from the start of the directory has the current version. -/
theorem ovlIterate_current {r : Call} (hreal : f.isReal = false)
    (h : ovlIterate color xino impure s f env = some r) :
    CallKeeps s r.inode ∧ (f.fPos = 0 → Current r.inode r.file) ∧ r.file.isReal = false := by
  simp only [ovlIterate, Option.bind_eq_bind, Option.bind_eq_some_iff] at h
  obtain ⟨⟨s₁, f₁⟩, hreset, h⟩ := h
  obtain ⟨hkeeps, hcurrent, hreal₁⟩ := resetAtStart_current hreset
  obtain ⟨hkeeps', hcurrent', hreal'⟩ :=
    iterateOpen_current color xino impure env (hreal₁ hreal) h
  exact ⟨hkeeps.trans hkeeps', fun hpos => hcurrent' (hcurrent hpos), hreal'⟩

end Calls

theorem llseekMerged_isReal {offset ret : ℤ} {origin : Whence}
    (h : llseekMerged s f offset origin = some (f', ret)) : f'.isReal = f.isReal := by
  rw [llseekMerged] at h
  split at h
  · cases h
    rfl
  generalize (if origin = .cur then (offset + f.fPos).bmod (2 ^ 64) else offset) = off at h
  simp only at h
  split at h
  · cases h
    rfl
  split at h
  · split at h
    · obtain ⟨f₁, hseek, heq⟩ := Option.map_eq_some_iff.mp h
      cases heq
      exact (ovlSeekCursor_keeps hseek).2.1
    · cases h
      rfl
  · cases h
    rfl

theorem ovlDirLlseek_keeps {offset realPos realRet : ℤ} {origin : Whence} {r : Call}
    (hreal : f.isReal = false)
    (h : ovlDirLlseek s f offset origin realPos realRet = some r) :
    CallKeeps s r.inode ∧ r.file.isReal = false := by
  simp only [ovlDirLlseek, Option.bind_eq_bind, Option.bind_eq_some_iff] at h
  obtain ⟨⟨s₁, f₁⟩, hreset, h⟩ := h
  obtain ⟨hkeeps, -, hreal₁⟩ := resetAtStart_current hreset
  rw [if_neg (by rw [hreal₁ hreal]; decide)] at h
  obtain ⟨⟨f₂, ret⟩, hseek, h⟩ := Option.bind_eq_some_iff.mp h
  cases h
  exact ⟨hkeeps, (llseekMerged_isReal hseek).trans (hreal₁ hreal)⟩

end Current

section Run

/-- A merge directory: whiteouts are looked for, no file of it is real, and every cache has a
reference. -/
structure MergeSys (s : DirSys) : Prop where
  whiteouts : s.inode.whiteouts = true
  merged : ∀ f, some f ∈ s.files → f.isReal = false
  held : s.inode.AllHeld

variable {s t : DirSys} {f g : DirFile} {fd : ℕ}

theorem mem_files_iff : some f ∈ s.files ↔ ∃ fd, s.file fd = some f := by
  simp only [List.mem_iff_getElem?, DirSys.file, Option.join_eq_some_iff]

theorem MergeSys.setFile {inode : DirInode} {x : Option DirFile} (h : MergeSys s)
    (hkeeps : CallKeeps s.inode inode) (hx : ∀ f, x = some f → f.isReal = false) :
    MergeSys (s.setFile fd inode x) := by
  refine ⟨hkeeps.whiteouts.trans h.whiteouts, fun g hg => ?_, hkeeps.held h.held⟩
  obtain hg | hg := List.mem_or_eq_of_mem_set hg
  · exact h.merged g hg
  · exact hx g hg.symm

variable (color : BinaryTree ℕ → BinaryTree ℕ) (xino impure : Bool)

theorem dirStep_mergeSys {e : DirEvent} {out : List Dirent} (h : MergeSys s)
    (hstep : dirStep color xino impure s e = some (t, out)) : MergeSys t := by
  cases e with
  | «open» =>
    cases hstep
    refine ⟨h.whiteouts, fun f hf => ?_, h.held⟩
    obtain hf | hf := List.mem_append.mp hf
    · exact h.merged f hf
    · rw [List.mem_singleton] at hf
      cases hf
      simp [h.whiteouts]
  | release fd =>
    cases hf : s.file fd with
    | none =>
      simp only [dirStep, hf] at hstep
      cases hstep
      exact h
    | some f =>
      cases hc : f.cache with
      | none =>
        simp only [dirStep, hf, hc] at hstep
        cases hstep
        exact h.setFile (CallKeeps.refl s.inode) fun _ h => by cases h
      | some c =>
        simp only [dirStep, hf, hc, Option.bind_eq_bind, Option.bind_eq_some_iff] at hstep
        obtain ⟨inode, hput, heq⟩ := hstep
        cases heq
        exact h.setFile (callKeeps_cachePut hput) fun _ h => by cases h
  | iterate fd env =>
    cases hf : s.file fd with
    | none =>
      simp only [dirStep, hf] at hstep
      cases hstep
      exact h
    | some f =>
      simp only [dirStep, hf, Option.bind_eq_bind, Option.bind_eq_some_iff] at hstep
      obtain ⟨r, hrun, heq⟩ := hstep
      cases heq
      obtain ⟨hkeeps, -, hreal⟩ := ovlIterate_current color xino impure env
        (h.merged f (mem_files_iff.mpr ⟨fd, hf⟩)) hrun
      exact h.setFile hkeeps fun g hg => Option.some.inj hg ▸ hreal
  | llseek fd offset origin realPos realRet =>
    cases hf : s.file fd with
    | none =>
      simp only [dirStep, hf] at hstep
      cases hstep
      exact h
    | some f =>
      simp only [dirStep, hf, Option.bind_eq_bind, Option.bind_eq_some_iff] at hstep
      obtain ⟨r, hrun, heq⟩ := hstep
      cases heq
      obtain ⟨hkeeps, hreal⟩ :=
        ovlDirLlseek_keeps (h.merged f (mem_files_iff.mpr ⟨fd, hf⟩)) hrun
      exact h.setFile hkeeps fun g hg => Option.some.inj hg ▸ hreal
  | change dir inc =>
    cases hstep
    exact ⟨h.whiteouts, h.merged, h.held⟩
  | copyUp =>
    cases hstep
    exact ⟨rfl, h.merged, h.held⟩

theorem dirRun_mergeSys {es : List DirEvent} {log : List (DirEvent × List Dirent)}
    (h : MergeSys s) (hrun : dirRun color xino impure s es = some (t, log)) : MergeSys t := by
  induction es generalizing s log with
  | nil =>
    cases hrun
    exact h
  | cons e es ih =>
    simp only [dirRun, Option.bind_eq_bind, Option.bind_eq_some_iff] at hrun
    obtain ⟨⟨s₁, out⟩, hstep, ⟨s₂, log₁⟩, hrest, heq⟩ := hrun
    cases heq
    exact ih (dirStep_mergeSys color xino impure h hstep) hrest

theorem mergeSys_closedDir (dir : OvlDir) (version : ℕ) : MergeSys (closedDir dir version true) :=
  ⟨rfl, nofun, nofun⟩

/-- Every live cache is used, and every cache that is used is live. -/
theorem MergeSys.live_iff {c : ℕ} (h : MergeSys s) (hok : SysOk s.inode s.files) :
    (s.inode.heap c).isSome = true ↔ ∃ fd f, s.file fd = some f ∧ f.cache = some c := by
  constructor
  · intro hlive
    obtain ⟨cache, hcache⟩ := Option.isSome_iff_exists.mp hlive
    have hpos := h.held c cache hcache
    rw [hok.refs c cache hcache, Int.natCast_pos, List.countP_pos_iff] at hpos
    obtain ⟨_ | f, hf, huse⟩ := hpos
    · cases huse
    · obtain ⟨fd, hfd⟩ := mem_files_iff.mp hf
      exact ⟨fd, f, hfd, of_decide_eq_true huse⟩
  · rintro ⟨fd, f, hf, hc⟩
    obtain ⟨cache, hcache⟩ := hok.listing_isSome (mem_files_iff.mpr ⟨fd, hf⟩) hc
    exact Option.isSome_iff_exists.mpr ⟨cache, hcache⟩

/-- `ovl_cache_put` frees the cache when no other file uses it, and only then. -/
theorem MergeSys.cachePut_frees {c : ℕ} (h : MergeSys s) (hok : SysOk s.inode s.files)
    (hf : s.file fd = some f) (hc : f.cache = some c) :
    ∃ inode, ovlCachePut s.inode c = some inode ∧
      (inode.heap c = none ↔ ∀ fd' g, fd' ≠ fd → s.file fd' = some g → g.cache ≠ some c) := by
  obtain ⟨rest, hperm, hset, -⟩ := exists_others hf
  obtain ⟨inode, hput, hok', -, -⟩ := (hok.perm hperm).cachePut hc
  -- the system behind the put, with the file gone
  have hafter : SysOk inode (s.setFile fd inode none).files := hok'.perm (hset inode none).symm
  have hmerge : MergeSys (s.setFile fd inode none) := h.setFile (callKeeps_cachePut hput) nofun
  have hlive := hmerge.live_iff (c := c) hafter
  refine ⟨inode, hput, ?_⟩
  rw [← Option.not_isSome_iff_eq_none]
  refine (not_congr hlive).trans ⟨?_, ?_⟩
  · intro hno fd' g hne hg hgc
    exact hno ⟨fd', g, (file_setFile_of_ne hne.symm inode none).trans hg, hgc⟩
  · rintro hno ⟨fd', g, hg, hgc⟩
    by_cases hfd : fd' = fd
    · subst hfd
      rw [file_setFile_self hf] at hg
      cases hg
    · rw [file_setFile_of_ne (Ne.symm hfd)] at hg
      exact hno fd' g hfd hg hgc

/-- An iteration from the start of the directory serves the current version, or it gets no
cache. -/
theorem MergeSys.iterate_start (h : MergeSys s) (hok : SysOk s.inode s.files)
    (hf : s.file fd = some f) (hpos : f.fPos = 0) (env : IterEnv) :
    ∃ r s' f', ovlIterate color xino impure s.inode f env = some r ∧
      resetAtStart s.inode f = some (s', f') ∧ Iterated color xino impure env s' 0 r ∧
      r.inode.version = s.inode.version ∧
      ∀ c, r.file.cache = some c → ∃ cache, r.inode.heap c = some cache ∧
        cache.version = s.inode.version := by
  have hmem := mem_files_iff.mpr ⟨fd, hf⟩
  have hreal := h.merged f hmem
  obtain ⟨rest, hperm, -, -⟩ := exists_others hf
  obtain ⟨r, hrun, -, hdone⟩ := (hok.perm hperm).iterate color xino impure env
  obtain ⟨s', f', hreset, hiterated⟩ := hdone hreal
  obtain ⟨hkeeps, hcurrent, -⟩ := ovlIterate_current color xino impure env hreal hrun
  rw [hpos] at hiterated
  refine ⟨r, s', f', hrun, hreset, hiterated, hkeeps.version, fun c hc => ?_⟩
  obtain ⟨cache, hcache, hversion⟩ := hcurrent hpos c hc
  exact ⟨cache, hcache, hversion.trans hkeeps.version⟩

/-- The reference counts of the caches of a merge directory are exact. Whatever happens at the
directory, a cache in memory has as many references as there are open files that use it, and
at least one; `ovl_cache_put` frees it when no other file uses it and only then; the inode
points to no freed cache, and an iteration that starts at position 0 emits from a cache of the
current version, unless `ovl_cache_get` fails and it returns that error. -/
theorem cache_refcounts_exact (dir : OvlDir) (version : ℕ) (es : List DirEvent) :
    ∃ t log, dirRun color xino impure (closedDir dir version true) es = some (t, log) ∧
      (∀ c cache, t.inode.heap c = some cache → cache.refcount = t.files.countP (usesCache c)) ∧
      (∀ c, (t.inode.heap c).isSome = true ↔ ∃ fd f, t.file fd = some f ∧ f.cache = some c) ∧
      (∀ fd f c, t.file fd = some f → f.cache = some c →
        ∃ inode, ovlCachePut t.inode c = some inode ∧ (inode.heap c = none ↔
          ∀ fd' g, fd' ≠ fd → t.file fd' = some g → g.cache ≠ some c)) ∧
      (∀ c, t.inode.cache = some c → (t.inode.heap c).isSome = true) ∧
      ∀ fd f env, t.file fd = some f → f.fPos = 0 →
        ∃ r s f', ovlIterate color xino impure t.inode f env = some r ∧
          resetAtStart t.inode f = some (s, f') ∧ Iterated color xino impure env s 0 r ∧
          r.inode.version = t.inode.version ∧
          ∀ c, r.file.cache = some c → ∃ cache, r.inode.heap c = some cache ∧
            cache.version = t.inode.version := by
  obtain ⟨t, log, hrun, hok, -⟩ :=
    dirRun_steps color xino impure (sysOk_closedDir dir version true) es
  have hmerge : MergeSys t :=
    dirRun_mergeSys color xino impure (mergeSys_closedDir dir version) hrun
  refine ⟨t, log, hrun, hok.refs, fun c => hmerge.live_iff hok, ?_, hok.slot, ?_⟩
  · exact fun fd f c hf hc => hmerge.cachePut_frees hok hf hc
  · exact fun fd f env hf hpos => hmerge.iterate_start color xino impure hok hf hpos env

/-- Two files read the directory before and behind a change: each has its own cache in memory,
with one reference, and an iteration of the second from the start used the newer one. -/
theorem cache_refcounts_two : ∃ t log old new,
    dirRun id false false (closedDir fourNames 0 true) [.open, .open, .iterate 0 (.single 0),
      .change withoutUpper true, .iterate 1 (.single 1)] = some (t, log) ∧
      t.inode.heap 0 = some old ∧ t.inode.heap 1 = some new ∧ old.version = 0 ∧
      new.version = 1 ∧ old.refcount = 1 ∧ new.refcount = 1 ∧ t.inode.cache = some 1 := by
  obtain ⟨t, log, hrun, hrefs, -⟩ := cache_refcounts_exact id false false fourNames 0
    [.open, .open, .iterate 0 (.single 0), .change withoutUpper true, .iterate 1 (.single 1)]
  have hstate : (dirRun id false false (closedDir fourNames 0 true) [.open, .open,
      .iterate 0 (.single 0), .change withoutUpper true, .iterate 1 (.single 1)]).map (fun q =>
        ((q.1.inode.heap 0).map DirCache.version, (q.1.inode.heap 1).map DirCache.version,
          q.1.inode.cache, q.1.files.countP (usesCache 0), q.1.files.countP (usesCache 1))) =
      some (some 0, some 1, some 1, 1, 1) := by decide +kernel
  rw [hrun] at hstate
  obtain ⟨hold, hrest⟩ := Prod.mk.inj (Option.some.inj hstate)
  obtain ⟨hnew, hrest⟩ := Prod.mk.inj hrest
  obtain ⟨hslot, hrest⟩ := Prod.mk.inj hrest
  obtain ⟨hcount, hcount'⟩ := Prod.mk.inj hrest
  obtain ⟨old, hheap, hversion⟩ := Option.map_eq_some_iff.mp hold
  obtain ⟨new, hheap', hversion'⟩ := Option.map_eq_some_iff.mp hnew
  refine ⟨t, log, old, new, hrun, hheap, hheap', hversion, hversion', ?_, ?_, hslot⟩
  · rw [hrefs 0 old hheap, hcount]
    rfl
  · rw [hrefs 1 new hheap', hcount']
    rfl

end Run

end FzzOverlay

import FzzOverlay.Readdir.Iterate

/-!
# One batch

What a single pass of `ovl_iterate` through the entries emits and where it stops, and where the
lists of the caches in memory come from.

## Main definitions

- `Batch.Exact` — what a pass through the entries leaves
- `ListsFrom` — the caches behind a call: those in memory before, and one read from the layers

## Main results

- `emitLoop_exact` — the loop of `ovl_iterate`
- `ovlIterate_listsFrom`, `ovlDirLlseek_listsFrom` — the calls on a file
-/

namespace FzzOverlay

open SearchTree

/-- What `dir_emit` is given for an entry. -/
def CacheEntry.dirent (e : CacheEntry) : Dirent := ⟨e.name, e.ino, e.type⟩

/-- The entry but for the inode number, which `ovl_iterate` fills in. -/
def CacheEntry.withoutIno (e : CacheEntry) : CacheEntry := { e with ino := 0 }

/-- The entries of a part of the list that are emitted. -/
def direntsOf (es : List CacheEntry) : List Dirent :=
  (es.filter fun e => !e.isWhiteout).map CacheEntry.dirent

-- ════════════════════════════════════════════════════════════════════════
-- The loop
-- ════════════════════════════════════════════════════════════════════════

/-- Why a pass stops at an entry: `dir_emit` has no room for it behind `out`, or
`ovl_cache_update_ino` fails. -/
def PassStops (env : IterEnv) (out : List Dirent) (ret : ℤ) (e : CacheEntry) : Prop :=
  e.isWhiteout = false ∧ ((ret = 0 ∧ env.dirEmit out e.dirent = false) ∨
    ∃ e₀ err, e₀.withoutIno = e.withoutIno ∧ env.updateIno e₀ = (e.ino, some err) ∧ ret = err.ret)

/-- A pass through `es` after `out` was emitted. Only inode numbers change, the entries it
passes are emitted, the caller had room for each, and it stops at the end or for a reason. -/
structure Batch.Exact (env : IterEnv) (es : List CacheEntry) (out : List Dirent) (b : Batch) :
    Prop where
  entries : b.entries.map CacheEntry.withoutIno = es.map CacheEntry.withoutIno
  emitted : b.emitted = out ++ direntsOf (b.entries.take b.passed)
  room : ∀ i ent, out.length ≤ i → b.emitted[i]? = some ent →
    env.dirEmit (b.emitted.take i) ent = true
  stop : (b.ret = 0 ∧ b.passed = b.entries.length) ∨
    ∃ e, b.entries[b.passed]? = some e ∧ PassStops env b.emitted b.ret e

section Loop

variable {env : IterEnv} {es : List CacheEntry} {out : List Dirent} {p : CacheEntry} {b : Batch}

/-- The pass stops at the first entry. -/
theorem Batch.exact_stop {ino : ℕ} {ret : ℤ} (h : PassStops env out ret { p with ino := ino }) :
    Batch.Exact env (p :: es) out ⟨{ p with ino := ino } :: es, 0, out, ret⟩ := by
  refine ⟨rfl, by simp [direntsOf], fun i ent hi hget => ?_, .inr ⟨_, rfl, h⟩⟩
  rw [List.getElem?_eq_none hi] at hget
  cases hget

theorem Batch.Exact.skip (h : Batch.Exact env es out b) (hw : p.isWhiteout = true) :
    Batch.Exact env (p :: es) out { b with entries := p :: b.entries, passed := b.passed + 1 } := by
  refine ⟨?_, ?_, h.room, ?_⟩
  · rw [List.map_cons, List.map_cons, h.entries]
  · rw [h.emitted, List.take_succ_cons]
    simp [direntsOf, hw]
  · obtain ⟨hret, hend⟩ | ⟨e, he, hstop⟩ := h.stop
    · exact .inl ⟨hret, congrArg (· + 1) hend⟩
    · exact .inr ⟨e, he, hstop⟩

theorem Batch.Exact.emit {ino : ℕ}
    (h : Batch.Exact env es (out ++ [(⟨p.name, ino, p.type⟩ : Dirent)]) b)
    (hw : p.isWhiteout = false) (hroom : env.dirEmit out ⟨p.name, ino, p.type⟩ = true) :
    Batch.Exact env (p :: es) out
      { b with entries := { p with ino := ino } :: b.entries, passed := b.passed + 1 } := by
  refine ⟨?_, ?_, fun i ent hi hget => ?_, ?_⟩
  · rw [List.map_cons, List.map_cons, h.entries]
    rfl
  · rw [h.emitted, List.take_succ_cons]
    simp [direntsOf, hw, CacheEntry.dirent]
  · by_cases hlen : i = out.length
    · subst hlen
      have hout : b.emitted.take out.length = out := by
        rw [h.emitted, List.append_assoc, List.take_left]
      have hent : b.emitted[out.length]? = some ⟨p.name, ino, p.type⟩ := by
        rw [h.emitted, List.append_assoc, List.getElem?_append_right (Nat.le_refl _), Nat.sub_self]
        rfl
      obtain rfl := Option.some.inj (hent.symm.trans hget)
      rw [hout]
      exact hroom
    · refine h.room i ent ?_ hget
      rw [List.length_append, List.length_singleton]
      omega
  · obtain ⟨hret, hend⟩ | ⟨e, he, hstop⟩ := h.stop
    · exact .inl ⟨hret, congrArg (· + 1) hend⟩
    · exact .inr ⟨e, he, hstop⟩

/-- One pass through the loop of `ovl_iterate`. -/
theorem emitLoop_exact (env : IterEnv) (es : List CacheEntry) (out : List Dirent) :
    (emitLoop env es out).Exact env es out := by
  induction es generalizing out with
  | nil =>
    refine ⟨rfl, by simp [emitLoop, direntsOf], fun i ent hi hget => ?_, .inl ⟨rfl, rfl⟩⟩
    rw [show (emitLoop env [] out).emitted = out from rfl, List.getElem?_eq_none hi] at hget
    cases hget
  | cons p es ih =>
    rw [emitLoop]
    split
    · next hw => exact (ih out).skip hw
    next hw =>
    have hw' : p.isWhiteout = false := eq_false_of_ne_true hw
    obtain ⟨ino, hino⟩ : ∃ ino, (if p.ino = 0 then (env.updateIno p).1 else p.ino) = ino := ⟨_, rfl⟩
    cases herr : (if p.ino = 0 then (env.updateIno p).2 else none) with
    | some err =>
      have hzero : p.ino = 0 := by
        by_contra hne
        rw [if_neg hne] at herr
        cases herr
      rw [if_pos hzero] at hino herr
      simp only [if_pos hzero, hino]
      exact Batch.exact_stop ⟨hw', .inr ⟨p, err, rfl, Prod.ext hino herr, rfl⟩⟩
    | none =>
      simp only [hino]
      split
      · next hroom =>
        exact Batch.exact_stop ⟨hw', .inl ⟨rfl, by simpa [CacheEntry.dirent] using hroom⟩⟩
      · next hroom => exact (ih _).emit hw' (by simpa using hroom)

/-- What a call for a file at `pos` does with the list it has then: the entries from there to
the new position are emitted, the caller had room for each, and it stops at the end or for a
reason. -/
structure Batched (env : IterEnv) (pos : ℤ) (r : Call) (cache : DirCache) : Prop where
  ge : pos ≤ r.file.fPos
  emitted : r.emitted =
    direntsOf ((cache.entries.drop pos.toNat).take (r.file.fPos.toNat - pos.toNat))
  room : ∀ i ent, r.emitted[i]? = some ent → env.dirEmit (r.emitted.take i) ent = true
  stop : (r.ret = 0 ∧ cache.entries.length ≤ r.file.fPos.toNat) ∨
    ∃ e, cache.entries[r.file.fPos.toNat]? = some e ∧ PassStops env r.emitted r.ret e

/-- The list behind a cursor at position `n` or at the end, when a pass gave `bs` for it. -/
theorem drop_take_append {α : Type} {es bs : List α} {n : ℕ}
    (h : bs.length = es.length - min n es.length) :
    (es.take (min n es.length) ++ bs).drop n = bs := by
  by_cases hn : n ≤ es.length
  · rw [Nat.min_eq_left hn, List.drop_left' (List.length_take_of_le hn)]
  · rw [Nat.min_eq_right (by omega), Nat.sub_self] at h
    obtain rfl := List.length_eq_zero_iff.mp h
    rw [Nat.min_eq_right (by omega), List.take_length, List.append_nil,
      List.drop_eq_nil_of_le (by omega)]

/-- A pass of a file whose cursor is at its position. -/
theorem Batch.Exact.batched {cache : DirCache} {f : DirFile} {b : Batch} {n : ℕ} (s' : DirInode)
    (h : b.Exact env (cache.entries.drop (min n cache.entries.length)) []) (hpos : f.fPos = n)
    (cursor : Option ℕ) :
    Batched env f.fPos
      ⟨s', { f with cursor := cursor, fPos := f.fPos + b.passed }, b.emitted, b.ret⟩
      { cache with entries := cache.entries.take (min n cache.entries.length) ++ b.entries } := by
  have hlen : b.entries.length = cache.entries.length - min n cache.entries.length := by
    have := congrArg List.length h.entries
    rwa [List.length_map, List.length_map, List.length_drop] at this
  have hdrop := drop_take_append (n := n) hlen
  have hnew : (f.fPos + b.passed).toNat = n + b.passed := by omega
  have hold : f.fPos.toNat = n := by omega
  refine ⟨Int.le_add_of_nonneg_right (Int.natCast_nonneg _), ?_, ?_, ?_⟩
  · simp only [hnew, hold, Nat.add_sub_cancel_left, hdrop]
    rw [h.emitted, List.nil_append]
  · exact fun i ent hget => h.room i ent (Nat.zero_le i) hget
  · simp only [hnew]
    obtain ⟨hret, hend⟩ | ⟨e, he, hstop⟩ := h.stop
    · refine .inl ⟨hret, ?_⟩
      have := congrArg List.length hdrop
      rw [List.length_drop] at this
      omega
    · refine .inr ⟨e, ?_, hstop⟩
      rw [← List.getElem?_drop, hdrop]
      exact he

end Loop

-- ════════════════════════════════════════════════════════════════════════
-- The caches behind a call
-- ════════════════════════════════════════════════════════════════════════

section Reading

variable (color : BinaryTree ℕ → BinaryTree ℕ)

theorem iterateLoop_neg (ctx : RddCtx) (reads : List (List DirEnt × Option Errno)) (rdd : Rdd) :
    (iterateLoop color ctx reads rdd).1 = 0 ∨ (iterateLoop color ctx reads rdd).1 < 0 := by
  induction reads generalizing rdd with
  | nil => exact .inl rfl
  | cons call reads ih =>
    obtain ⟨es, err⟩ := call
    cases err with
    | some e => exact .inr e.ret_neg
    | none =>
      simp only [iterateLoop]
      split
      · exact .inl rfl
      · exact ih _

theorem ovlDirRead_neg (ctx : RddCtx) (dir : RealDir) (rdd : Rdd) :
    (ovlDirRead color ctx dir rdd).1 = 0 ∨ (ovlDirRead color ctx dir rdd).1 < 0 := by
  rw [ovlDirRead]
  cases dir.openFails with
  | some e => exact .inr e.ret_neg
  | none =>
    simp only
    split
    · rw [ovlCheckWhiteouts]
      cases dir.lockFails with
      | some e => exact .inr e.ret_neg
      | none => exact .inl rfl
    · exact iterateLoop_neg color ctx _ _

theorem readLayers_neg (xino impure : Bool) (layers : List (RealDir × Bool)) (rdd : Rdd) :
    (readLayers color xino impure layers rdd).1 = 0 ∨
      (readLayers color xino impure layers rdd).1 < 0 := by
  induction layers generalizing rdd with
  | nil => exact .inl rfl
  | cons layer layers ih =>
    obtain ⟨dir, up⟩ := layer
    cases layers with
    | nil => exact ovlDirRead_neg color _ dir rdd
    | cons layer' layers =>
      rw [readLayers]
      split
      · exact ovlDirRead_neg color _ dir rdd
      · exact ih _

theorem ovlDirReadMerged_neg {xino impure : Bool} {d : OvlDir}
    (h : (ovlDirReadMerged color xino impure d).1 ≠ 0) :
    (ovlDirReadMerged color xino impure d).1 < 0 :=
  (readLayers_neg color xino impure d.layers emptyRdd).resolve_left h

end Reading

/-- The list of the cache is what `ovl_dir_read_merged` gave for the layers `d`, but for inode
numbers that were filled in since. -/
structure DirCache.ReadFrom (color : BinaryTree ℕ → BinaryTree ℕ) (xino impure : Bool) (d : OvlDir)
    (cache : DirCache) : Prop where
  ret : (ovlDirReadMerged color xino impure d).1 = 0
  entries : cache.entries.map CacheEntry.withoutIno =
    (ovlDirReadMerged color xino impure d).2.map CacheEntry.withoutIno

/-- The two caches have the same list, but for inode numbers. -/
def DirCache.SameEntries (cache cache' : DirCache) : Prop :=
  cache'.entries.map CacheEntry.withoutIno = cache.entries.map CacheEntry.withoutIno

/-- The caches in memory behind a call: those before, and one that was read from the layers. -/
structure ListsFrom (color : BinaryTree ℕ → BinaryTree ℕ) (xino impure : Bool)
    (s s' : DirInode) : Prop where
  dir : s'.dir = s.dir
  heap : ∀ c cache', s'.heap c = some cache' →
    (∃ cache, s.heap c = some cache ∧ cache.SameEntries cache') ∨
      cache'.ReadFrom color xino impure s.dir

section Calls

variable {color : BinaryTree ℕ → BinaryTree ℕ} {xino impure : Bool} {s s' s'' : DirInode}
  {f f' : DirFile} {c : ℕ} {d : OvlDir} {cache cache' : DirCache} {env : IterEnv}

theorem DirCache.ReadFrom.of_same (h : cache.ReadFrom color xino impure d)
    (hsame : cache.SameEntries cache') : cache'.ReadFrom color xino impure d :=
  ⟨h.ret, Eq.trans hsame h.entries⟩

namespace ListsFrom

theorem refl (s : DirInode) : ListsFrom color xino impure s s :=
  ⟨rfl, fun _ cache hc => .inl ⟨cache, hc, rfl⟩⟩

theorem trans (h : ListsFrom color xino impure s s') (h' : ListsFrom color xino impure s' s'') :
    ListsFrom color xino impure s s'' := by
  refine ⟨h'.dir.trans h.dir, fun c cache'' hc => ?_⟩
  obtain ⟨cache', hcache', hsame'⟩ | hread := h'.heap c cache'' hc
  · obtain ⟨cache, hcache, hsame⟩ | hread := h.heap c cache' hcache'
    · exact .inl ⟨cache, hcache, Eq.trans hsame' hsame⟩
    · exact .inr (hread.of_same hsame')
  · rw [h.dir] at hread
    exact .inr hread

theorem slot (s : DirInode) (slot : Option ℕ) :
    ListsFrom color xino impure s { s with cache := slot } :=
  ⟨rfl, fun _ cache hc => .inl ⟨cache, hc, rfl⟩⟩

theorem store (h : (∃ cache, s.heap c = some cache ∧ cache.SameEntries cache') ∨
    cache'.ReadFrom color xino impure s.dir) :
    ListsFrom color xino impure s (s.store c (some cache')) := by
  refine ⟨rfl, fun a cache'' ha => ?_⟩
  by_cases hac : a = c
  · subst hac
    rw [store_heap_self] at ha
    obtain rfl := Option.some.inj ha
    exact h
  · rw [store_heap_of_ne _ _ _ hac] at ha
    exact .inl ⟨cache'', ha, rfl⟩

theorem free : ListsFrom color xino impure s (s.free c) := by
  refine ⟨?_, fun a cache' ha => ?_⟩
  · rw [DirInode.free]
    split
    · rfl
    · rfl
  · by_cases hac : a = c
    · subst hac
      rw [free_heap_self] at ha
      cases ha
    · rw [free_heap_of_ne hac] at ha
      exact .inl ⟨cache', ha, rfl⟩

end ListsFrom

theorem ovlSeekCursor_keeps {pos : ℤ} (h : ovlSeekCursor s f pos = some f') :
    f'.cache = f.cache ∧ f'.isReal = f.isReal ∧ f'.fPos = f.fPos := by
  simp only [ovlSeekCursor, Option.bind_eq_bind, Option.bind_eq_some_iff] at h
  obtain ⟨c, -, cache, -, h⟩ := h
  cases h
  exact ⟨rfl, rfl, rfl⟩

theorem ovlCachePut_listsFrom (h : ovlCachePut s c = some s') :
    ListsFrom color xino impure s s' := by
  simp only [ovlCachePut, Option.bind_eq_bind, Option.bind_eq_some_iff] at h
  obtain ⟨cache, hcache, h⟩ := h
  split at h
  · obtain rfl := Option.some.inj h
    exact .free
  · obtain rfl := Option.some.inj h
    exact .store (.inl ⟨cache, hcache, rfl⟩)

theorem resetReal_cache (s : DirInode) (f : DirFile) : (resetReal s f).cache = f.cache := by
  rw [resetReal]
  split
  · split <;> rfl
  · rfl

theorem resetReal_fPos (s : DirInode) (f : DirFile) : (resetReal s f).fPos = f.fPos := by
  rw [resetReal]
  split
  · split <;> rfl
  · rfl

theorem resetReal_isReal (s : DirInode) (h : f.isReal = false) :
    (resetReal s f).isReal = false := by
  rw [resetReal]
  split
  · split
    · exact h
    · rfl
  · exact h

theorem resetAtStart_keeps (h : resetAtStart s f = some (s', f')) :
    f'.fPos = f.fPos ∧ (f.isReal = false → f'.isReal = false) := by
  rw [resetAtStart] at h
  split at h
  · rw [ovlDirReset] at h
    cases hc : f.cache with
    | none =>
      rw [hc] at h
      cases h
      exact ⟨resetReal_fPos s f, resetReal_isReal s⟩
    | some c =>
      simp only [hc, Option.bind_eq_bind, Option.bind_eq_some_iff] at h
      obtain ⟨cache, -, h⟩ := h
      split at h
      · obtain ⟨s₁, -, h⟩ := Option.bind_eq_some_iff.mp h
        cases h
        exact ⟨resetReal_fPos s' _, fun hno => resetReal_isReal s' hno⟩
      · cases h
        exact ⟨resetReal_fPos s f, resetReal_isReal s⟩
  · cases h
    exact ⟨rfl, id⟩

theorem resetAtStart_listsFrom (h : resetAtStart s f = some (s', f')) :
    ListsFrom color xino impure s s' := by
  rw [resetAtStart] at h
  split at h
  · rw [ovlDirReset] at h
    cases hc : f.cache with
    | none =>
      rw [hc] at h
      cases h
      exact .refl s
    | some c =>
      simp only [hc, Option.bind_eq_bind, Option.bind_eq_some_iff] at h
      obtain ⟨cache, hcache, h⟩ := h
      split at h
      · obtain ⟨s₁, hput, h⟩ := Option.bind_eq_some_iff.mp h
        cases h
        exact ovlCachePut_listsFrom hput
      · cases h
        exact .refl s
  · cases h
    exact .refl s

variable (color xino impure)

theorem readCache_listsFrom (s : DirInode) (env : IterEnv) :
    ListsFrom color xino impure s (readCache color xino impure s env).1 := by
  rw [readCache]
  cases env.kzalloc with
  | none => exact .slot s none
  | some c =>
    simp only
    split
    · exact .slot s none
    split
    · exact .slot s none
    · next hret =>
      have hret' : (ovlDirReadMerged color xino impure s.dir).1 = 0 := not_not.mp hret
      have hnew : DirCache.ReadFrom color xino impure s.dir
          ⟨1, s.version, (ovlDirReadMerged color xino impure s.dir).2⟩ := ⟨hret', rfl⟩
      exact ((ListsFrom.slot s none).trans (.store (.inr hnew))).trans (.slot _ (some c))

theorem readCache_error {e : ℤ} (h : (readCache color xino impure s env).2 = .error e) : e < 0 := by
  rw [readCache] at h
  cases henv : env.kzalloc with
  | none =>
    rw [henv] at h
    cases h
    exact ENOMEM.ret_neg
  | some c =>
    simp only [henv] at h
    split at h
    · cases h
      exact ENOMEM.ret_neg
    split at h
    · next hret =>
      cases h
      exact ovlDirReadMerged_neg color hret
    · cases h

theorem ovlCacheGet_listsFrom {r : Except ℤ ℕ}
    (h : ovlCacheGet color xino impure s env = some (s', r)) :
    ListsFrom color xino impure s s' ∧ ∀ e, r = .error e → e < 0 := by
  have hread : some (readCache color xino impure s env) = some (s', r) →
      ListsFrom color xino impure s s' ∧ ∀ e, r = .error e → e < 0 := by
    intro heq
    have hlists := readCache_listsFrom color xino impure s env
    have herror : ∀ e, (readCache color xino impure s env).2 = .error e → e < 0 :=
      fun _ => readCache_error color xino impure
    rw [Option.some.inj heq] at hlists herror
    exact ⟨hlists, herror⟩
  rw [ovlCacheGet] at h
  cases hslot : s.cache with
  | none =>
    rw [hslot] at h
    exact hread h
  | some c =>
    simp only [hslot, Option.bind_eq_bind, Option.bind_eq_some_iff] at h
    obtain ⟨cache, hcache, h⟩ := h
    split at h
    · cases h
      exact ⟨.store (.inl ⟨cache, hcache, rfl⟩), nofun⟩
    · exact hread h

/-- What `ovl_iterate` does behind the reset for a file at `pos` that is not real: `ovl_cache_get`
fails and nothing else happens, or the file has a cache then. -/
inductive Iterated (env : IterEnv) (s : DirInode) (pos : ℤ) (r : Call) : Prop
  | refused {s' : DirInode} (hget : ovlCacheGet color xino impure s env = some (s', .error r.ret))
      (hneg : r.ret < 0) (hcache : r.file.cache = none) (hpos : r.file.fPos = pos)
      (hout : r.emitted = [])
  | batch {c : ℕ} {cache : DirCache} (hc : r.file.cache = some c)
      (hcache : r.inode.heap c = some cache) (h : Batched env pos r cache)

theorem iterateCache_listsFrom {r : Call} (h : iterateCache s f env = some r) :
    ListsFrom color xino impure s r.inode := by
  simp only [iterateCache, Option.bind_eq_bind, Option.bind_eq_some_iff] at h
  obtain ⟨c, hc, cache, hcache, k, hk, h⟩ := h
  cases h
  refine .store (.inl ⟨cache, hcache, ?_⟩)
  rw [DirCache.SameEntries, List.map_append, (emitLoop_exact env _ _).entries, ← List.map_append,
    List.take_append_drop]

theorem ovlIterate_listsFrom {r : Call} (h : ovlIterate color xino impure s f env = some r) :
    ListsFrom color xino impure s r.inode := by
  simp only [ovlIterate, Option.bind_eq_bind, Option.bind_eq_some_iff] at h
  obtain ⟨⟨s₁, f₁⟩, hreset, h⟩ := h
  refine (resetAtStart_listsFrom hreset).trans ?_
  simp only [iterateOpen] at h
  split at h
  · cases h
    exact .refl s₁
  · cases hc : f₁.cache with
    | some c =>
      rw [hc] at h
      exact iterateCache_listsFrom color xino impure h
    | none =>
      simp only [hc, Option.bind_eq_bind, Option.bind_eq_some_iff] at h
      obtain ⟨⟨s₂, got⟩, hget, h⟩ := h
      have hlists := (ovlCacheGet_listsFrom color xino impure hget).1
      cases got with
      | error e =>
        cases h
        exact hlists
      | ok c =>
        obtain ⟨f₂, -, h⟩ := Option.bind_eq_some_iff.mp h
        exact hlists.trans (iterateCache_listsFrom color xino impure h)

theorem ovlDirLlseek_listsFrom {offset realPos realRet : ℤ} {origin : Whence} {r : Call}
    (h : ovlDirLlseek s f offset origin realPos realRet = some r) :
    ListsFrom color xino impure s r.inode := by
  simp only [ovlDirLlseek, Option.bind_eq_bind, Option.bind_eq_some_iff] at h
  obtain ⟨⟨s₁, f₁⟩, hreset, h⟩ := h
  have hlists : ListsFrom color xino impure s s₁ := resetAtStart_listsFrom hreset
  split at h
  · cases h
    exact hlists
  · obtain ⟨q, -, h⟩ := Option.bind_eq_some_iff.mp h
    cases h
    exact hlists

end Calls

end FzzOverlay

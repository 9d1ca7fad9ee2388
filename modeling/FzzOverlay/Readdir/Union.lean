import Mathlib.Data.List.Nodup
import FzzOverlay.Readdir.Merge

/-!
# The merged list is the union of the layers

What a layer adds to the list is described by `addLayer`: the entries whose names no
layer above has, in the order in which they are listed. `ovl_dir_read` does just that,
through the tree for all layers but the lowest, and the whole list is a permutation of
what the layers add.
-/

namespace FzzOverlay

open CString SearchTree

def entryNames (heap : List CacheEntry) : List (List UInt8) := heap.map CacheEntry.name

/-- The entries of a layer that the heap has no name for yet. -/
def fresh (heap : List CacheEntry) (es : List DirEnt) : List DirEnt :=
  es.filter fun e => decide (e.name ∉ entryNames heap)

/-- The entry that a layer leaves behind when its whiteouts are known. -/
def finalEntry (ctx : RddCtx) (dir : RealDir) (e : DirEnt) : CacheEntry :=
  { newEntry ctx e with
    isWhiteout := if e.dType = DT_CHR then dir.whiteout e.name else false }

/-- What a real directory lists: the entries up to the first call that emits nothing. -/
def RealDir.entries (dir : RealDir) : List DirEnt :=
  ((dir.reads.map Prod.fst).takeWhile fun es => !es.isEmpty).flatten

/-- The heap after a layer. -/
def addLayer (ctx : RddCtx) (dir : RealDir) (heap : List CacheEntry) : List CacheEntry :=
  heap ++ (fresh heap dir.entries).map (finalEntry ctx dir)

section Tree

variable {rdd : Rdd} {name : List UInt8} {p : ℕ}

def nameKey (rdd : Rdd) (p : ℕ) : List ℕ := strKey (rdd.entry p).name

/-- The tree holds the first `k` entries, in the order of their names. -/
structure Indexed (rdd : Rdd) (k : ℕ) : Prop where
  le : k ≤ rdd.heap.length
  nul : ∀ e ∈ rdd.heap, 0 ∉ e.name
  ordered : Ordered (nameKey rdd) rdd.root
  perm : (inorder rdd.root).Perm (List.range k)

theorem entry_mem (h : p < rdd.heap.length) : rdd.entry p ∈ rdd.heap := by
  rw [Rdd.entry, List.getD_eq_getElem _ _ h]
  exact List.getElem_mem h

theorem Indexed.lt {k : ℕ} (hi : Indexed rdd k) (hp : p ∈ inorder rdd.root) : p < k :=
  List.mem_range.mp (hi.perm.mem_iff.mp hp)

theorem Indexed.compares {k : ℕ} (hi : Indexed rdd k) (hname : 0 ∉ name) :
    Compares (nameKey rdd) (strKey name) (cmpEntry rdd name) rdd.root := by
  intro p hp
  have hentry : 0 ∉ (rdd.entry p).name :=
    hi.nul _ (entry_mem (Nat.lt_of_lt_of_le (hi.lt hp) hi.le))
  obtain ⟨hgt, hlt⟩ := strncmp_length hname hentry
  rw [nameKey, ← hgt, ← hlt, cmpEntry]
  generalize strncmp name.length name (rdd.entry p).name = cmp
  by_cases hpos : 0 < cmp
  · have : ¬ cmp < 0 := by omega
    have : cmp ≠ 0 := by omega
    simp [*]
  · by_cases hneg : cmp < 0
    · simp [*]
    · have hzero : cmp = 0 := by omega
      by_cases hlen : name.length < (rdd.entry p).name.length <;> simp [hzero, hlen]

theorem Indexed.find_some {k : ℕ} (hi : Indexed rdd k) (hname : 0 ∉ name)
    (h : ovlCacheEntryFind rdd name = some p) : p < k ∧ (rdd.entry p).name = name := by
  obtain ⟨hp, hkey⟩ := find_eq_some (hi.compares hname) h
  exact ⟨hi.lt hp, strKey_injective hkey⟩

theorem Indexed.find_none {k : ℕ} (hi : Indexed rdd k) (hname : 0 ∉ name)
    (h : ovlCacheEntryFind rdd name = none) : ∀ p < k, (rdd.entry p).name ≠ name := by
  intro p hp hname'
  have hp' : p ∈ inorder rdd.root := hi.perm.mem_iff.mpr (List.mem_range.mpr hp)
  apply find_eq_none hi.ordered (hi.compares hname) h p hp'
  rw [nameKey, hname']

/-- Whether the search finds something depends on the names of the first `k` entries. -/
theorem Indexed.find_eq {k : ℕ} (hi : Indexed rdd k) (hname : 0 ∉ name) :
    (ovlCacheEntryFind rdd name).isSome = true ↔ name ∈ entryNames (rdd.heap.take k) := by
  rw [entryNames, List.mem_map]
  constructor
  · intro h
    obtain ⟨p, hp⟩ := Option.isSome_iff_exists.mp h
    obtain ⟨hlt, hname'⟩ := hi.find_some hname hp
    have hlen : p < rdd.heap.length := Nat.lt_of_lt_of_le hlt hi.le
    refine ⟨rdd.entry p, ?_, hname'⟩
    rw [Rdd.entry, List.getD_eq_getElem _ _ hlen]
    exact List.mem_take_iff_getElem.mpr ⟨p, by omega, rfl⟩
  · rintro ⟨e, he, rfl⟩
    obtain ⟨p, hp, rfl⟩ := List.mem_take_iff_getElem.mp he
    cases hfind : ovlCacheEntryFind rdd (rdd.heap[p]).name with
    | some q => rfl
    | none =>
      refine absurd ?_ (hi.find_none hname hfind p (by omega))
      rw [Rdd.entry, List.getD_eq_getElem]

/-- Appending an entry leaves the entries that are there. -/
theorem entry_of_heap {rdd' : Rdd} {e : CacheEntry} (h : rdd'.heap = rdd.heap ++ [e])
    (hp : p < rdd.heap.length) : rdd'.entry p = rdd.entry p := by
  rw [Rdd.entry, Rdd.entry, h, List.getD_append _ _ _ _ hp]

theorem entry_of_heap_last {rdd' : Rdd} {e : CacheEntry} (h : rdd'.heap = rdd.heap ++ [e]) :
    rdd'.entry rdd.heap.length = e := by
  rw [Rdd.entry, h, List.getD_append_right _ _ _ _ (Nat.le_refl _), Nat.sub_self]
  rfl

/-- The tree stays as it is while the heap grows. -/
theorem Indexed.append {rdd' : Rdd} {e : CacheEntry} {k : ℕ} (hi : Indexed rdd k)
    (hheap : rdd'.heap = rdd.heap ++ [e]) (hroot : rdd'.root = rdd.root) (he : 0 ∉ e.name) :
    Indexed rdd' k where
  le := by
    have := hi.le
    rw [hheap, List.length_append]
    omega
  nul := by
    rw [hheap]
    intro x hx
    obtain hx | hx := List.mem_append.mp hx
    · exact hi.nul x hx
    · rwa [List.mem_singleton.mp hx]
  ordered := by
    have hkey : ∀ p ∈ inorder rdd.root, nameKey rdd' p = nameKey rdd p := by
      intro p hp
      rw [nameKey, nameKey, entry_of_heap hheap (Nat.lt_of_lt_of_le (hi.lt hp) hi.le)]
    rw [Ordered, hroot]
    refine hi.ordered.imp_of_mem ?_
    intro p q hp hq hlt
    rwa [hkey p hp, hkey q hq]
  perm := by
    rw [hroot]
    exact hi.perm

/-- Linking the new entry into the tree. -/
theorem Indexed.insert {rdd' : Rdd} {e : CacheEntry} {color : BinaryTree ℕ → BinaryTree ℕ}
    (hcolor : ∀ t, inorder (color t) = inorder t) (hi : Indexed rdd rdd.heap.length)
    (he : 0 ∉ e.name) (hfind : ovlCacheEntryFind rdd e.name = none)
    (hheap : rdd'.heap = rdd.heap ++ [e])
    (hroot : rdd'.root = color (link (cmpEntry rdd e.name) rdd.heap.length rdd.root)) :
    Indexed rdd' rdd'.heap.length := by
  have happ : Indexed { rdd' with root := rdd.root } rdd.heap.length := hi.append hheap rfl he
  have hcmp : Compares (nameKey rdd') (strKey e.name) (cmpEntry rdd e.name) rdd.root := by
    intro p hp
    have hkey : nameKey rdd' p = nameKey rdd p := by
      rw [nameKey, nameKey, entry_of_heap hheap (hi.lt hp)]
    rw [hkey]
    exact hi.compares he p hp
  have hlast : nameKey rdd' rdd.heap.length = strKey e.name := by
    rw [nameKey, entry_of_heap_last hheap]
  have hlen : rdd'.heap.length = rdd.heap.length + 1 := by
    rw [hheap, List.length_append, List.length_singleton]
  refine ⟨Nat.le_refl _, happ.nul, ?_, ?_⟩
  · have hord := Ordered.link happ.ordered hcmp hfind hlast
    rwa [Ordered, hroot, hcolor]
  · rw [hroot, hcolor, hlen, List.range_succ]
    exact (perm_link _ _ _).trans ((hi.perm.cons _).trans (List.perm_append_singleton _ _).symm)

end Tree

section Layer

variable {ctx : RddCtx} {H : List CacheEntry} {done : List DirEnt} {e : DirEnt} {rdd : Rdd}

/-- The heap and the candidates for whiteouts after a part of a layer was read. -/
structure Grown (ctx : RddCtx) (H : List CacheEntry) (done : List DirEnt) (rdd : Rdd) :
    Prop where
  heap : rdd.heap = H ++ (fresh H done).map (newEntry ctx)
  maybe : ∀ p, p ∈ rdd.firstMaybeWhiteout ↔
    H.length ≤ p ∧ p < rdd.heap.length ∧ (rdd.entry p).type = DT_CHR

theorem fresh_append (H : List CacheEntry) (done : List DirEnt) (e : DirEnt) :
    fresh H (done ++ [e]) = fresh H done ++ if e.name ∈ entryNames H then [] else [e] := by
  rw [fresh, fresh, List.filter_append]
  by_cases h : e.name ∈ entryNames H <;> simp [h]

theorem Grown.skip {rdd' : Rdd} (hg : Grown ctx H done rdd) (he : e.name ∈ entryNames H)
    (hheap : rdd'.heap = rdd.heap)
    (hmaybe : rdd'.firstMaybeWhiteout = rdd.firstMaybeWhiteout) :
    Grown ctx H (done ++ [e]) rdd' where
  heap := by rw [hheap, hg.heap, fresh_append, if_pos he, List.append_nil]
  maybe p := by
    rw [hmaybe, hg.maybe, Rdd.entry, Rdd.entry, hheap]

theorem Grown.new {rdd' : Rdd} (hg : Grown ctx H done rdd) (he : e.name ∉ entryNames H)
    (hheap : rdd'.heap = rdd.heap ++ [newEntry ctx e])
    (hmaybe : rdd'.firstMaybeWhiteout = (ovlCacheEntryNew ctx rdd e).firstMaybeWhiteout) :
    Grown ctx H (done ++ [e]) rdd' where
  heap := by
    rw [hheap, hg.heap, fresh_append, if_neg he, List.map_append, List.append_assoc]
    rfl
  maybe p := by
    have hlen : rdd'.heap.length = rdd.heap.length + 1 := by
      rw [hheap, List.length_append, List.length_singleton]
    have hle : H.length ≤ rdd.heap.length := by
      rw [hg.heap, List.length_append]
      omega
    have hrest : p ∈ rdd.firstMaybeWhiteout ↔
        H.length ≤ p ∧ p < rdd.heap.length ∧ (rdd'.entry p).type = DT_CHR := by
      rw [hg.maybe]
      constructor
      · rintro ⟨h1, h2, h3⟩
        exact ⟨h1, h2, entry_of_heap hheap h2 ▸ h3⟩
      · rintro ⟨h1, h2, h3⟩
        exact ⟨h1, h2, entry_of_heap hheap h2 ▸ h3⟩
    have hlast : (rdd'.entry rdd.heap.length).type = e.dType := by
      rw [entry_of_heap_last hheap]
      rfl
    rw [hmaybe, ovlCacheEntryNew]
    by_cases hp : p = rdd.heap.length
    · -- The entry just allocated.
      subst hp
      have hnot : rdd.heap.length ∉ rdd.firstMaybeWhiteout := by
        rw [hrest]
        omega
      rw [hlast]
      by_cases hchr : e.dType = DT_CHR
      · simp only [hchr, if_true, List.mem_cons, true_or, true_iff, and_true]
        omega
      · simp [hchr, hnot]
    · have hiff : p < rdd'.heap.length ↔ p < rdd.heap.length := by omega
      rw [hiff, ← hrest]
      by_cases hchr : e.dType = DT_CHR <;> simp [hchr, hp]

/-- A name that the layer has not listed yet is in the heap only from the layers above. -/
theorem Grown.mem_entryNames (hg : Grown ctx H done rdd) {name : List UInt8}
    (hname : name ∉ done.map DirEnt.name) :
    name ∈ entryNames rdd.heap ↔ name ∈ entryNames H := by
  rw [hg.heap, entryNames, List.map_append, List.mem_append, ← entryNames]
  refine ⟨fun h => ?_, .inl⟩
  obtain h | h := h
  · exact h
  · refine absurd ?_ hname
    rw [List.map_map, List.mem_map] at h
    obtain ⟨d, hd, rfl⟩ := h
    exact List.mem_map.mpr ⟨d, List.mem_of_mem_filter hd, rfl⟩

/-- While a layer above the lowest is read: the list has the entries in the order of
their allocation. -/
structure Merging (ctx : RddCtx) (H : List CacheEntry) (done : List DirEnt) (rdd : Rdd) :
    Prop extends Grown ctx H done rdd where
  indexed : Indexed rdd rdd.heap.length
  list : rdd.list = List.range rdd.heap.length
  middle : rdd.middle = []

theorem Merging.addRb {color : BinaryTree ℕ → BinaryTree ℕ}
    (hcolor : ∀ t, inorder (color t) = inorder t) (hm : Merging ctx H done rdd)
    (he : 0 ∉ e.name) (hdone : e.name ∉ done.map DirEnt.name) :
    Merging ctx H (done ++ [e]) (ovlCacheEntryAddRb color ctx rdd e) := by
  have hfound := hm.indexed.find_eq he
  rw [List.take_length, hm.toGrown.mem_entryNames hdone] at hfound
  rw [ovlCacheEntryAddRb]
  cases hfind : ovlCacheEntryFind rdd e.name with
  | some p =>
    rw [hfind] at hfound
    exact ⟨hm.toGrown.skip (hfound.mp rfl) rfl rfl, hm.indexed, hm.list, hm.middle⟩
  | none =>
    rw [hfind] at hfound
    have hnot : e.name ∉ entryNames H := fun h => Bool.false_ne_true (hfound.mpr h)
    refine ⟨hm.toGrown.new hnot rfl rfl, hm.indexed.insert hcolor he hfind rfl rfl, ?_,
      hm.middle⟩
    change rdd.list ++ [rdd.heap.length] = List.range (rdd.heap ++ [newEntry ctx e]).length
    rw [hm.list, List.length_append, List.length_singleton, List.range_succ]

/-- While the lowest layer is read: the tree has the entries of the layers above, and
the two parts of the list have every entry once. -/
structure Lowest (ctx : RddCtx) (H : List CacheEntry) (done : List DirEnt) (rdd : Rdd) :
    Prop extends Grown ctx H done rdd where
  indexed : Indexed rdd H.length
  perm : (rdd.middle ++ rdd.list).Perm (List.range rdd.heap.length)

/-- Moving an entry to the end of the first part. -/
theorem perm_move {ps qs : List ℕ} {p : ℕ} (hn : (ps ++ qs).Nodup) (hp : p ∈ ps ++ qs) :
    (ps.erase p ++ [p] ++ qs.erase p).Perm (ps ++ qs) := by
  rw [List.append_assoc, List.singleton_append]
  refine List.perm_middle.trans ?_
  have herase : (ps ++ qs).erase p = ps.erase p ++ qs.erase p := by
    by_cases h : p ∈ ps
    · have hq : p ∉ qs := fun hq => (List.nodup_append.mp hn).2.2 p h p hq rfl
      rw [List.erase_append_left _ h, List.erase_of_not_mem hq]
    · rw [List.erase_append_right _ h, List.erase_of_not_mem h]
  rw [← herase]
  exact (List.perm_cons_erase hp).symm

theorem Lowest.fill (hm : Lowest ctx H done rdd) (he : 0 ∉ e.name) :
    Lowest ctx H (done ++ [e]) (ovlFillLowest ctx rdd e) := by
  have hfound := hm.indexed.find_eq he
  have htake : rdd.heap.take H.length = H := by
    rw [hm.heap]
    exact List.take_left
  rw [htake] at hfound
  rw [ovlFillLowest]
  cases hfind : ovlCacheEntryFind rdd e.name with
  | some p =>
    rw [hfind] at hfound
    have hlt := (hm.indexed.find_some he hfind).1
    have hp : p ∈ rdd.middle ++ rdd.list := by
      rw [hm.perm.mem_iff, List.mem_range]
      exact Nat.lt_of_lt_of_le hlt hm.indexed.le
    have hn : (rdd.middle ++ rdd.list).Nodup := hm.perm.nodup_iff.mpr List.nodup_range
    refine ⟨hm.toGrown.skip (hfound.mp rfl) rfl rfl, ?_, (perm_move hn hp).trans hm.perm⟩
    exact ⟨hm.indexed.le, hm.indexed.nul, hm.indexed.ordered, hm.indexed.perm⟩
  | none =>
    rw [hfind] at hfound
    have hnot : e.name ∉ entryNames H := fun h => Bool.false_ne_true (hfound.mpr h)
    refine ⟨hm.toGrown.new hnot rfl rfl, hm.indexed.append (e := newEntry ctx e) rfl rfl he, ?_⟩
    change (rdd.middle ++ [rdd.heap.length] ++ rdd.list).Perm
      (List.range (rdd.heap ++ [newEntry ctx e]).length)
    rw [List.length_append, List.length_singleton, List.range_succ, List.append_assoc,
      List.singleton_append]
    exact List.perm_middle.trans
      ((hm.perm.cons _).trans (List.perm_append_singleton _ _).symm)

/-- What one call of the actor keeps, all calls keep. -/
theorem foldl_keeps {P : List DirEnt → Rdd → Prop} (fill : Rdd → DirEnt → Rdd)
    (hstep : ∀ done rdd e, P done rdd → 0 ∉ e.name → e.name ∉ done.map DirEnt.name →
      P (done ++ [e]) (fill rdd e)) :
    ∀ (es done : List DirEnt) (rdd : Rdd), P done rdd → (∀ e ∈ es, 0 ∉ e.name) →
      ((done ++ es).map DirEnt.name).Nodup → P (done ++ es) (es.foldl fill rdd) := by
  intro es
  induction es with
  | nil =>
    intro done rdd h _ _
    rwa [List.append_nil]
  | cons e es ih =>
    intro done rdd h hnul hnd
    rw [List.forall_mem_cons] at hnul
    have hcons : done ++ e :: es = done ++ [e] ++ es := by
      rw [List.append_assoc, List.singleton_append]
    have hnot : e.name ∉ done.map DirEnt.name := by
      intro hmem
      rw [List.map_append, List.map_cons] at hnd
      exact (List.nodup_append.mp hnd).2.2 _ hmem _ List.mem_cons_self rfl
    rw [hcons] at hnd ⊢
    exact ih (done ++ [e]) (fill rdd e) (hstep done rdd e h hnul.1 hnot) hnul.2 hnd

end Layer

section Whiteouts

/-- Checking the candidates is the same as checking each entry for being one. -/
theorem getElem?_checkWhiteouts (dir : RealDir) (heap : List CacheEntry) (ps : List ℕ)
    (i : ℕ) :
    (checkWhiteouts dir heap ps)[i]? =
      if i ∈ ps then heap[i]?.map fun e => { e with isWhiteout := dir.whiteout e.name }
      else heap[i]? := by
  induction ps generalizing heap with
  | nil => rfl
  | cons p ps ih =>
    rw [checkWhiteouts, List.foldl_cons, ← checkWhiteouts, ih, List.getElem?_modify]
    by_cases hp : p = i
    · subst hp
      cases heap[p]? <;> simp
    · have hp' : i ≠ p := Ne.symm hp
      simp [hp, hp']

theorem checkWhiteouts_of_grown {ctx : RddCtx} {dir : RealDir} {H : List CacheEntry}
    {es : List DirEnt} {rdd : Rdd} (hg : Grown ctx H es rdd) :
    checkWhiteouts dir rdd.heap rdd.firstMaybeWhiteout =
      H ++ (fresh H es).map (finalEntry ctx dir) := by
  apply List.ext_getElem?
  intro i
  rw [getElem?_checkWhiteouts]
  simp only [hg.maybe]
  by_cases hH : i < H.length
  · rw [if_neg (fun h => by omega), hg.heap, List.getElem?_append_left hH,
      List.getElem?_append_left hH]
  · have hheap : rdd.heap[i]? = (fresh H es)[i - H.length]?.map (newEntry ctx) := by
      rw [hg.heap, List.getElem?_append_right (by omega), List.getElem?_map]
    rw [List.getElem?_append_right (by omega), List.getElem?_map, hheap]
    cases hd : (fresh H es)[i - H.length]? with
    | none => simp
    | some d =>
      have hi : rdd.heap[i]? = some (newEntry ctx d) := by rw [hheap, hd]; rfl
      have hlt : i < rdd.heap.length := (List.getElem?_eq_some_iff.mp hi).1
      have hentry : rdd.entry i = newEntry ctx d := by
        rw [Rdd.entry, List.getD_eq_getElem?_getD, hi]
        rfl
      rw [hentry]
      have hle : H.length ≤ i := by omega
      by_cases hchr : d.dType = DT_CHR
      · have htype : (newEntry ctx d).type = DT_CHR := hchr
        simp only [hle, hlt, htype, and_self, if_true, Option.map_some, finalEntry, hchr]
        rfl
      · have htype : (newEntry ctx d).type ≠ DT_CHR := hchr
        simp only [htype, and_false, if_false, Option.map_some, finalEntry, hchr]
        rfl

end Whiteouts

section Layers

variable {color : BinaryTree ℕ → BinaryTree ℕ} {ctx : RddCtx} {dir : RealDir}
  {H : List CacheEntry} {rdd : Rdd}

theorem iterateLoop_snd (color : BinaryTree ℕ → BinaryTree ℕ) (ctx : RddCtx)
    (reads : List (List DirEnt × Option Errno)) (rdd : Rdd)
    (h : (iterateLoop color ctx reads rdd).1 = 0) :
    (iterateLoop color ctx reads rdd).2 =
      ((reads.map Prod.fst).takeWhile fun es => !es.isEmpty).flatten.foldl
        (ovlFillMerge color ctx) rdd := by
  induction reads generalizing rdd with
  | nil => rfl
  | cons r reads ih =>
    obtain ⟨es, err⟩ := r
    cases err with
    | some e => exact absurd h (Int.ne_of_lt e.ret_neg)
    | none =>
      rw [List.map_cons, List.takeWhile_cons]
      cases es with
      | nil => rfl
      | cons e es =>
        simp only [iterateLoop, List.cons_ne_nil, if_false] at h ⊢
        rw [ih _ h]
        simp only [List.isEmpty_cons, Bool.not_false, if_true, List.flatten_cons,
          List.foldl_append]

/-- A layer that was read without an error: all its entries went to the actor, and then
the whiteouts among the new entries were marked. -/
theorem ovlDirRead_snd {rdd₁ : Rdd} (h : (ovlDirRead color ctx dir rdd).1 = 0)
    (h₁ : dir.entries.foldl (ovlFillMerge color ctx) { rdd with firstMaybeWhiteout := [] } =
      rdd₁) :
    (ovlDirRead color ctx dir rdd).2.heap =
        checkWhiteouts dir rdd₁.heap rdd₁.firstMaybeWhiteout ∧
      (ovlDirRead color ctx dir rdd).2.root = rdd₁.root ∧
      (ovlDirRead color ctx dir rdd).2.middle = rdd₁.middle ∧
      (ovlDirRead color ctx dir rdd).2.list = rdd₁.list := by
  unfold ovlDirRead at h ⊢
  cases hopen : dir.openFails with
  | some e =>
    rw [hopen] at h
    exact absurd h (Int.ne_of_lt e.ret_neg)
  | none =>
    simp only [hopen] at h ⊢
    have hsnd := iterateLoop_snd color ctx dir.reads
      { rdd with firstMaybeWhiteout := [] }
    rw [← RealDir.entries, h₁] at hsnd
    split at h
    · next hr =>
      rw [if_pos hr, hsnd hr.1]
      rw [hsnd hr.1] at h
      unfold ovlCheckWhiteouts at h ⊢
      cases hlock : dir.lockFails with
      | some e =>
        rw [hlock] at h
        exact absurd h (Int.ne_of_lt e.ret_neg)
      | none => exact ⟨rfl, rfl, rfl, rfl⟩
    · next hr =>
      rw [if_neg hr, hsnd h]
      have hnone : rdd₁.firstMaybeWhiteout = [] := by
        by_contra hne
        rw [← hsnd h] at hne
        exact hr ⟨h, hne⟩
      rw [hnone]
      exact ⟨rfl, rfl, rfl, rfl⟩

/-- A real directory whose names are strings, lists no name twice and reports its
whiteouts as character devices. -/
structure RealDir.Lists (dir : RealDir) : Prop where
  nul : ∀ e ∈ dir.entries, 0 ∉ e.name
  nodup : (dir.entries.map DirEnt.name).Nodup
  whiteout : ∀ e ∈ dir.entries, dir.whiteout e.name = true → e.dType = DT_CHR

theorem entry_name (rdd : Rdd) (p : ℕ) :
    (rdd.entry p).name = (entryNames rdd.heap).getD p [] := by
  exact (List.getD_map (f := CacheEntry.name) (l := rdd.heap) (n := p) (d := default)).symm

/-- The tree depends on the names only. -/
theorem Indexed.congr {rdd' : Rdd} {k : ℕ} (hi : Indexed rdd k)
    (hnames : entryNames rdd'.heap = entryNames rdd.heap) (hroot : rdd'.root = rdd.root) :
    Indexed rdd' k := by
  have hlen : rdd'.heap.length = rdd.heap.length := by
    simpa only [entryNames, List.length_map] using congrArg List.length hnames
  have hkey : nameKey rdd' = nameKey rdd := by
    funext p
    rw [nameKey, nameKey, entry_name, entry_name, hnames]
  refine ⟨hlen ▸ hi.le, ?_, ?_, hroot ▸ hi.perm⟩
  · intro e he
    have hmem : e.name ∈ entryNames rdd.heap := by
      rw [← hnames]
      exact List.mem_map.mpr ⟨e, he, rfl⟩
    obtain ⟨e', he', hname⟩ := List.mem_map.mp hmem
    rw [← hname]
    exact hi.nul e' he'
  · rw [hkey, hroot]
    exact hi.ordered

theorem entryNames_addLayer (ctx : RddCtx) (dir : RealDir) (H : List CacheEntry) :
    entryNames (addLayer ctx dir H) =
      entryNames (H ++ (fresh H dir.entries).map (newEntry ctx)) := by
  simp only [entryNames, addLayer, List.map_append, List.map_map]
  rfl

/-- The state between two layers. -/
structure Loaded (H : List CacheEntry) (rdd : Rdd) : Prop where
  heap : rdd.heap = H
  indexed : Indexed rdd rdd.heap.length
  list : rdd.list = List.range rdd.heap.length
  middle : rdd.middle = []

theorem grown_nil (ctx : RddCtx) (hheap : rdd.heap = H) (h : rdd.firstMaybeWhiteout = []) :
    Grown ctx H [] rdd where
  heap := hheap.trans (List.append_nil _).symm
  maybe p := by
    rw [h, hheap]
    constructor
    · exact fun hp => absurd hp List.not_mem_nil
    · omega

theorem Loaded.ovlDirRead (hcolor : ∀ t, inorder (color t) = inorder t)
    (hl : Loaded H rdd) (hdir : dir.Lists) (hlow : ctx.isLowest = false)
    (h : (ovlDirRead color ctx dir rdd).1 = 0) :
    Loaded (addLayer ctx dir H) (ovlDirRead color ctx dir rdd).2 := by
  have hfill : ovlFillMerge color ctx = ovlCacheEntryAddRb color ctx := by
    funext rdd e
    rw [ovlFillMerge, hlow]
    rfl
  have hstart : Merging ctx H [] { rdd with firstMaybeWhiteout := [] } := by
    rw [← hl.heap]
    refine ⟨grown_nil ctx rfl rfl, ?_, hl.list, hl.middle⟩
    exact hl.indexed.congr rfl rfl
  have hend := foldl_keeps (P := Merging ctx H) (ovlFillMerge color ctx) (by
    intro done rdd e hm he hdone
    rw [hfill]
    exact hm.addRb hcolor he hdone) dir.entries [] _ hstart hdir.nul hdir.nodup
  rw [List.nil_append] at hend
  obtain ⟨hheap, hroot, hmiddle, hlist⟩ := ovlDirRead_snd h rfl
  rw [checkWhiteouts_of_grown hend.toGrown] at hheap
  have hnames : entryNames (FzzOverlay.ovlDirRead color ctx dir rdd).2.heap = entryNames
      (dir.entries.foldl (ovlFillMerge color ctx)
        { rdd with firstMaybeWhiteout := [] }).heap := by
    rw [hheap, hend.heap, ← addLayer, entryNames_addLayer]
  have hlen : (FzzOverlay.ovlDirRead color ctx dir rdd).2.heap.length =
      (dir.entries.foldl (ovlFillMerge color ctx)
        { rdd with firstMaybeWhiteout := [] }).heap.length := by
    simpa only [entryNames, List.length_map] using congrArg List.length hnames
  refine ⟨hheap, ?_, ?_, hmiddle.trans hend.middle⟩
  · rw [hlen]
    exact hend.indexed.congr hnames hroot
  · rw [hlen, hlist, hend.list]

/-- The lowest layer. -/
theorem Loaded.ovlDirRead_lowest (hl : Loaded H rdd) (hdir : dir.Lists)
    (hlow : ctx.isLowest = true) (h : (FzzOverlay.ovlDirRead color ctx dir rdd).1 = 0) :
    (FzzOverlay.ovlDirRead color ctx dir rdd).2.heap = addLayer ctx dir H ∧
      ((FzzOverlay.ovlDirRead color ctx dir rdd).2.middle ++
        (FzzOverlay.ovlDirRead color ctx dir rdd).2.list).Perm
          (List.range (addLayer ctx dir H).length) := by
  have hfill : ovlFillMerge color ctx = ovlFillLowest ctx := by
    funext rdd e
    rw [ovlFillMerge, hlow]
    rfl
  have hstart : Lowest ctx H [] { rdd with firstMaybeWhiteout := [] } := by
    rw [← hl.heap]
    refine ⟨grown_nil ctx rfl rfl, ?_, ?_⟩
    · exact hl.indexed.congr rfl rfl
    · rw [hl.middle, hl.list]
      exact List.Perm.refl _
  have hend := foldl_keeps (P := Lowest ctx H) (ovlFillMerge color ctx) (by
    intro done rdd e hm he _
    rw [hfill]
    exact hm.fill he) dir.entries [] _ hstart hdir.nul hdir.nodup
  rw [List.nil_append] at hend
  obtain ⟨hheap, -, hmiddle, hlist⟩ := ovlDirRead_snd h rfl
  rw [checkWhiteouts_of_grown hend.toGrown, ← addLayer] at hheap
  refine ⟨hheap, ?_⟩
  have hlen : (addLayer ctx dir H).length = (dir.entries.foldl (ovlFillMerge color ctx)
      { rdd with firstMaybeWhiteout := [] }).heap.length := by
    rw [hend.heap, addLayer, List.length_append, List.length_append, List.length_map,
      List.length_map]
  rw [hmiddle, hlist, hlen]
  exact hend.perm

/-- The heap after all layers. -/
def addLayers (xino impure : Bool) (layers : List (RealDir × Bool)) (H : List CacheEntry) :
    List CacheEntry :=
  layers.foldl (fun H L => addLayer ⟨L.2, false, xino, impure⟩ L.1 H) H

theorem Loaded.readLayers {xino impure : Bool} (hcolor : ∀ t, inorder (color t) = inorder t)
    {layers : List (RealDir × Bool)} (hne : layers ≠ []) (hl : Loaded H rdd)
    (hdirs : ∀ L ∈ layers, L.1.Lists)
    (h : (readLayers color xino impure layers rdd).1 = 0) :
    (readLayers color xino impure layers rdd).2.heap = addLayers xino impure layers H ∧
      ((readLayers color xino impure layers rdd).2.middle ++
        (readLayers color xino impure layers rdd).2.list).Perm
          (List.range (addLayers xino impure layers H).length) := by
  induction layers generalizing rdd H with
  | nil => exact absurd rfl hne
  | cons L layers ih =>
    obtain ⟨dir, up⟩ := L
    rw [List.forall_mem_cons] at hdirs
    cases layers with
    | nil => exact hl.ovlDirRead_lowest hdirs.1 rfl h
    | cons L layers =>
      unfold FzzOverlay.readLayers at h ⊢
      simp only at h ⊢
      split at h
      · next hr => exact absurd h hr
      · next hr =>
        rw [if_neg hr]
        have hl' := hl.ovlDirRead hcolor hdirs.1 rfl (not_not.mp hr)
        exact ih (List.cons_ne_nil _ _) hl' hdirs.2 h

end Layers

section Topmost

variable {xino impure : Bool} {layers : List (RealDir × Bool)} {name : List UInt8}

/-- The topmost layer that lists a name, and its entry there. -/
def topmost (layers : List (RealDir × Bool)) (name : List UInt8) :
    Option ((RealDir × Bool) × DirEnt) :=
  layers.findSome? fun L => (L.1.entries.find? fun e => decide (e.name = name)).map (L, ·)

theorem topmost_cons_some {L : RealDir × Bool} {d : DirEnt}
    (h : L.1.entries.find? (fun e => decide (e.name = name)) = some d) :
    topmost (L :: layers) name = some (L, d) := by
  rw [topmost, List.findSome?_cons, h]
  rfl

theorem topmost_cons_none {L : RealDir × Bool}
    (h : L.1.entries.find? (fun e => decide (e.name = name)) = none) :
    topmost (L :: layers) name = topmost layers name := by
  rw [topmost, List.findSome?_cons, h]
  rfl

theorem find?_name_none {es : List DirEnt} :
    es.find? (fun e => decide (e.name = name)) = none ↔ name ∉ es.map DirEnt.name := by
  rw [List.find?_eq_none, List.mem_map]
  simp only [decide_eq_true_eq, not_exists, not_and]

/-- With each name once, the entry that is found is the entry of that name. -/
theorem find?_name_some {es : List DirEnt} {d : DirEnt}
    (hn : (es.map DirEnt.name).Nodup) :
    es.find? (fun e => decide (e.name = name)) = some d ↔ d ∈ es ∧ d.name = name := by
  constructor
  · intro h
    have hname := List.find?_some h
    exact ⟨List.mem_of_find?_eq_some h, of_decide_eq_true hname⟩
  · rintro ⟨hd, rfl⟩
    cases h : es.find? (fun e => decide (e.name = d.name)) with
    | none => exact absurd (List.mem_map.mpr ⟨d, hd, rfl⟩) (find?_name_none.mp h)
    | some d' =>
      have hd' := List.mem_of_find?_eq_some h
      have hname := List.find?_some h
      rw [List.inj_on_of_nodup_map hn hd' hd (of_decide_eq_true hname)]

theorem mem_addLayer {ctx : RddCtx} {dir : RealDir} {H : List CacheEntry} {e : CacheEntry}
    (hdir : dir.Lists) :
    e ∈ addLayer ctx dir H ↔ e ∈ H ∨ (e.name ∉ entryNames H ∧
      ∃ d, dir.entries.find? (fun d => decide (d.name = e.name)) = some d ∧
        e = finalEntry ctx dir d) := by
  rw [addLayer, List.mem_append, List.mem_map]
  simp only [fresh, List.mem_filter, decide_eq_true_eq]
  constructor
  · rintro (h | ⟨d, ⟨hd, hnot⟩, rfl⟩)
    · exact .inl h
    · exact .inr ⟨hnot, d, (find?_name_some hdir.nodup).mpr ⟨hd, rfl⟩, rfl⟩
  · rintro (h | ⟨hnot, d, hd, he⟩)
    · exact .inl h
    · obtain ⟨hmem, hname⟩ := (find?_name_some hdir.nodup).mp hd
      rw [← hname] at hnot
      exact .inr ⟨d, ⟨hmem, hnot⟩, he.symm⟩

theorem mem_entryNames_addLayer {ctx : RddCtx} {dir : RealDir} {H : List CacheEntry} :
    name ∈ entryNames (addLayer ctx dir H) ↔
      name ∈ entryNames H ∨ name ∈ dir.entries.map DirEnt.name := by
  have hmap : entryNames ((fresh H dir.entries).map (finalEntry ctx dir)) =
      (fresh H dir.entries).map DirEnt.name := by
    rw [entryNames, List.map_map]
    rfl
  rw [addLayer, entryNames, List.map_append, List.mem_append, ← entryNames, ← entryNames, hmap]
  simp only [fresh, List.mem_map, List.mem_filter, decide_eq_true_eq]
  constructor
  · rintro (h | ⟨d, ⟨hd, -⟩, rfl⟩)
    · exact .inl h
    · exact .inr ⟨d, hd, rfl⟩
  · rintro (h | ⟨d, hd, rfl⟩)
    · exact .inl h
    · by_cases hH : d.name ∈ entryNames H
      · exact .inl hH
      · exact .inr ⟨d, ⟨hd, hH⟩, rfl⟩

theorem nodup_addLayer {ctx : RddCtx} {dir : RealDir} {H : List CacheEntry}
    (hdir : dir.Lists) (hH : (entryNames H).Nodup) :
    (entryNames (addLayer ctx dir H)).Nodup := by
  rw [addLayer, entryNames, List.map_append, ← entryNames, List.map_map]
  have hsub : ((fresh H dir.entries).map DirEnt.name).Nodup :=
    hdir.nodup.sublist (List.filter_sublist.map _)
  rw [List.nodup_append]
  refine ⟨hH, hsub, ?_⟩
  rintro a ha b hb rfl
  obtain ⟨d, hd, rfl⟩ := List.mem_map.mp hb
  exact of_decide_eq_true (List.mem_filter.mp hd).2 ha

/-- The entries after all layers are those of the topmost layers. -/
theorem mem_addLayers {H : List CacheEntry} {e : CacheEntry}
    (hdirs : ∀ L ∈ layers, L.1.Lists) :
    e ∈ addLayers xino impure layers H ↔ e ∈ H ∨ (e.name ∉ entryNames H ∧
      ∃ L d, topmost layers e.name = some (L, d) ∧
        e = finalEntry ⟨L.2, false, xino, impure⟩ L.1 d) := by
  induction layers generalizing H with
  | nil =>
    refine ⟨.inl, fun h => ?_⟩
    obtain h | ⟨-, L, d, h, -⟩ := h
    · exact h
    · cases h
  | cons L layers ih =>
    rw [List.forall_mem_cons] at hdirs
    rw [addLayers, List.foldl_cons, ← addLayers, ih hdirs.2, mem_addLayer hdirs.1,
      mem_entryNames_addLayer]
    cases hfind : L.1.entries.find? (fun d => decide (d.name = e.name)) with
    | some d =>
      have hmem : e.name ∈ L.1.entries.map DirEnt.name := by
        by_contra hnot
        rw [find?_name_none.mpr hnot] at hfind
        cases hfind
      rw [topmost_cons_some hfind]
      constructor
      · rintro ((h | ⟨hnot, d', hd', he⟩) | ⟨hnot, -⟩)
        · exact .inl h
        · exact .inr ⟨hnot, L, d, rfl, Option.some.inj hd' ▸ he⟩
        · exact absurd (.inr hmem) hnot
      · rintro (h | ⟨hnot, L', d', hd', he⟩)
        · exact .inl (.inl h)
        · obtain ⟨rfl, rfl⟩ := Prod.mk.inj (Option.some.inj hd')
          exact .inl (.inr ⟨hnot, d, rfl, he⟩)
    | none =>
      rw [topmost_cons_none hfind]
      have hnot := find?_name_none.mp hfind
      constructor
      · rintro ((h | ⟨-, d', hd', -⟩) | ⟨hnot', h⟩)
        · exact .inl h
        · cases hd'
        · exact .inr ⟨fun hH => hnot' (.inl hH), h⟩
      · rintro (h | ⟨hH, h⟩)
        · exact .inl (.inl h)
        · exact .inr ⟨fun hor => hor.elim hH hnot, h⟩

theorem nodup_addLayers (xino impure : Bool) {H : List CacheEntry} (hdirs : ∀ L ∈ layers, L.1.Lists)
    (hH : (entryNames H).Nodup) : (entryNames (addLayers xino impure layers H)).Nodup := by
  induction layers generalizing H with
  | nil => exact hH
  | cons L layers ih =>
    rw [List.forall_mem_cons] at hdirs
    exact ih hdirs.2 (nodup_addLayer hdirs.1 hH)

end Topmost

theorem OvlDir.layers_ne_nil (d : OvlDir) : d.layers ≠ [] := by
  obtain ⟨upper, lowers, h⟩ := d
  cases upper with
  | some dir => exact List.cons_ne_nil _ _
  | none =>
    obtain h | h := h
    · cases h
    · exact fun hnil => h (List.map_eq_nil_iff.mp hnil)

/-- A list that was read without an error is a permutation of what the layers add. -/
theorem perm_ovlDirReadMerged {color : BinaryTree ℕ → BinaryTree ℕ} (xino impure : Bool)
    {d : OvlDir} (hcolor : ∀ t, inorder (color t) = inorder t)
    (hdirs : ∀ L ∈ d.layers, L.1.Lists) (h : (ovlDirReadMerged color xino impure d).1 = 0) :
    (ovlDirReadMerged color xino impure d).2.Perm (addLayers xino impure d.layers []) := by
  have hempty : Loaded [] emptyRdd :=
    ⟨rfl, ⟨Nat.le_refl 0, fun e he => absurd he List.not_mem_nil, List.Pairwise.nil,
      List.Perm.refl _⟩, rfl, rfl⟩
  obtain ⟨hheap, hperm⟩ := hempty.readLayers hcolor d.layers_ne_nil hdirs h
  refine (hperm.map _).trans (List.Perm.of_eq ?_)
  rw [← hheap]
  apply List.ext_getElem
  · simp
  · intro i h₁ h₂
    rw [List.getElem_map, List.getElem_range, Rdd.entry, List.getD_eq_getElem]

/-- When the whiteouts of a layer are known, so are those of its entries. -/
theorem finalEntry_isWhiteout (ctx : RddCtx) {dir : RealDir} {de : DirEnt} (hdir : dir.Lists)
    (hde : de ∈ dir.entries) : (finalEntry ctx dir de).isWhiteout = dir.whiteout de.name := by
  change (if de.dType = DT_CHR then dir.whiteout de.name else false) = _
  split
  · rfl
  · next hchr =>
    by_contra hw
    exact hchr (hdir.whiteout de hde (by simpa using Ne.symm hw))

/-- The entries of the list are those of the topmost layers. -/
theorem mem_ovlDirReadMerged {color : BinaryTree ℕ → BinaryTree ℕ} {xino impure : Bool}
    {d : OvlDir} {es : List CacheEntry} (hcolor : ∀ t, inorder (color t) = inorder t)
    (hdirs : ∀ L ∈ d.layers, L.1.Lists)
    (h : ovlDirReadMerged color xino impure d = (0, es)) (e : CacheEntry) :
    e ∈ es ↔ ∃ L de, topmost d.layers e.name = some (L, de) ∧
      e = finalEntry ⟨L.2, false, xino, impure⟩ L.1 de := by
  have hperm := perm_ovlDirReadMerged xino impure hcolor hdirs (by rw [h])
  rw [h] at hperm
  rw [hperm.mem_iff, mem_addLayers hdirs]
  simp [entryNames]

theorem mem_of_topmost {layers : List (RealDir × Bool)} {name : List UInt8}
    {L : RealDir × Bool} {de : DirEnt} (hdirs : ∀ L ∈ layers, L.1.Lists)
    (h : topmost layers name = some (L, de)) :
    L ∈ layers ∧ de ∈ L.1.entries ∧ de.name = name := by
  obtain ⟨L', hL, hfind⟩ := List.exists_of_findSome?_eq_some h
  obtain ⟨de', hde', heq⟩ := Option.map_eq_some_iff.mp hfind
  obtain ⟨rfl, rfl⟩ := Prod.mk.inj heq
  exact ⟨hL, (find?_name_some (hdirs _ hL).nodup).mp hde'⟩

/-- The merged list is the union of the layers, with the entry of the topmost layer for
each name. -/
theorem merged_list_is_union (color : BinaryTree ℕ → BinaryTree ℕ)
    (hcolor : ∀ t, inorder (color t) = inorder t) (xino impure : Bool) (d : OvlDir)
    (hdirs : ∀ L ∈ d.layers, L.1.Lists) (es : List CacheEntry)
    (h : ovlDirReadMerged color xino impure d = (0, es)) :
    (es.map CacheEntry.name).Nodup ∧
      ∀ name, match topmost d.layers name with
        | none => name ∉ es.map CacheEntry.name
        | some ((dir, up), de) => ∃ e ∈ es, e.name = name ∧ e.realIno = de.ino ∧
            e.ino = (if ovlCalcDIno ⟨up, false, xino, impure⟩ name then 0 else de.ino) ∧
            e.type = de.dType ∧ e.isUpper = up ∧ e.isWhiteout = dir.whiteout name := by
  have hperm : es.Perm (addLayers xino impure d.layers []) := by
    have := perm_ovlDirReadMerged xino impure hcolor hdirs (by rw [h])
    rwa [h] at this
  have hnodup := nodup_addLayers xino impure hdirs
    (show (entryNames []).Nodup from List.nodup_nil)
  have hmem := mem_ovlDirReadMerged hcolor hdirs h
  refine ⟨(hperm.map _).nodup_iff.mpr hnodup, fun name => ?_⟩
  cases htop : topmost d.layers name with
  | none =>
    intro hname
    obtain ⟨e, he, rfl⟩ := List.mem_map.mp hname
    obtain ⟨L, d', h', -⟩ := (hmem e).mp he
    rw [htop] at h'
    cases h'
  | some r =>
    obtain ⟨⟨dir, up⟩, de⟩ := r
    obtain ⟨hL, hin, hname⟩ := mem_of_topmost hdirs htop
    refine ⟨finalEntry ⟨up, false, xino, impure⟩ dir de, ?_, hname, rfl, ?_, rfl, rfl, ?_⟩
    · apply (hmem _).mpr
      refine ⟨(dir, up), de, ?_, rfl⟩
      rw [← htop, ← hname]
      rfl
    · rw [← hname]
      rfl
    · rw [finalEntry_isWhiteout _ (hdirs _ hL) hin, hname]

/-- An upper directory with a whiteout over one of the two files of a lower one. -/
def whiteoutOverFile : OvlDir where
  upper := some ⟨none, [([⟨[97], 1, DT_CHR⟩, ⟨[98], 2, 8⟩], none)], fun n => n == [97], none⟩
  lowers := [⟨none, [([⟨[97], 3, 8⟩], none), ([⟨[99], 4, 8⟩], none)], fun _ => false, none⟩]
  layers_ne := .inl rfl

theorem merged_list_is_union_whiteout :
    let es : List CacheEntry := [⟨[97], 2, 1, 1, true, true⟩, ⟨[99], 8, 4, 4, false, false⟩,
      ⟨[98], 8, 2, 2, true, false⟩]
    ovlDirReadMerged id false false whiteoutOverFile = (0, es) ∧
      (es.map CacheEntry.name).Nodup := by
  intro es
  have hdirs : ∀ L ∈ whiteoutOverFile.layers, L.1.Lists := by
    intro L hL
    simp only [whiteoutOverFile, OvlDir.layers, Option.map_some, Option.toList_some,
      List.map_cons, List.map_nil, List.singleton_append, List.mem_cons, List.not_mem_nil,
      or_false] at hL
    obtain rfl | rfl := hL
    · exact ⟨by decide, by decide, by decide⟩
    · exact ⟨by decide, by decide, by decide⟩
  have hread : ovlDirReadMerged id false false whiteoutOverFile = (0, es) := by decide
  exact ⟨hread, (merged_list_is_union id (fun _ => rfl) false false whiteoutOverFile hdirs es
    hread).1⟩

end FzzOverlay

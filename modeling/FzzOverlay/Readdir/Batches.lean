import FzzOverlay.Readdir.Batch

/-!
# Nothing is lost between two batches

The invariant of a directory and its open files: the cursor of a file is where its position
says, and a cache has as many references as there are files that use it, so that it is not
freed under them. Between two seeks a file delivers the entries of its cache from where it
was.

## Main definitions

- `SysOk` — the invariant
- `Delivered` — what a file has delivered since it was at a position

## Main results

- `dirRun_steps` — every sequence of events keeps the invariant
- `batches_deliver_list` — what the reader of a file gets
-/

namespace FzzOverlay

open SearchTree

/-- A name of the cached list, and whether it is a whiteout. -/
abbrev Listed := List UInt8 × Bool

def CacheEntry.listed (e : CacheEntry) : Listed := (e.name, e.isWhiteout)

/-- The names of a part of the list that are emitted. -/
def emittedNames (es : List Listed) : List (List UInt8) :=
  (es.filter fun e => !e.2).map Prod.fst

/-- The list in the cache at an address. -/
def DirInode.listing (s : DirInode) (c : ℕ) : Option (List Listed) :=
  (s.heap c).map fun cache => cache.entries.map CacheEntry.listed

section Loops

theorem seekCursor_eq (pos : ℤ) (es : List CacheEntry) (off : ℤ) :
    seekCursor pos es off = min (pos - off).toNat es.length := by
  induction es generalizing off with
  | nil => simp [seekCursor]
  | cons e es ih =>
    rw [seekCursor, List.length_cons]
    split
    · omega
    · rw [ih]
      omega

theorem emittedNames_append (es fs : List Listed) :
    emittedNames (es ++ fs) = emittedNames es ++ emittedNames fs := by
  simp [emittedNames]

/-- One pass through the loop keeps the list, and emits the names it passes. -/
theorem emitLoop_spec (env : IterEnv) (es : List CacheEntry) (out : List Dirent) :
    (emitLoop env es out).entries.map CacheEntry.listed = es.map CacheEntry.listed ∧
      (emitLoop env es out).passed ≤ es.length ∧
      (emitLoop env es out).emitted.map Dirent.name = out.map Dirent.name ++
        emittedNames ((es.map CacheEntry.listed).take (emitLoop env es out).passed) := by
  induction es generalizing out with
  | nil => simp [emitLoop, emittedNames]
  | cons p es ih =>
    rw [emitLoop]
    split
    · next hw =>
      obtain ⟨hlist, hle, hout⟩ := ih out
      refine ⟨?_, ?_, ?_⟩
      · simp only [List.map_cons, hlist]
      · simpa using hle
      · simp only [hout, List.map_cons, List.take_succ_cons]
        simp [emittedNames, CacheEntry.listed, hw]
    · next hw =>
      -- the inode number is not part of what is listed
      generalize (if p.ino = 0 then (env.updateIno p).1 else p.ino) = ino
      generalize (if p.ino = 0 then (env.updateIno p).2 else none) = err
      simp only
      cases err with
      | some e => simp [CacheEntry.listed, emittedNames]
      | none =>
      simp only
      split
      · simp [CacheEntry.listed, emittedNames]
      · obtain ⟨hlist, hle, hout⟩ := ih (out ++ [⟨p.name, ino, p.type⟩])
        refine ⟨?_, ?_, ?_⟩
        · simp only [List.map_cons, hlist]
          rfl
        · simpa using hle
        · simp only [hout, List.map_cons, List.take_succ_cons]
          simp [emittedNames, CacheEntry.listed, hw]

end Loops

section Invariant

/-- The file uses the cache at `c`. -/
def usesCache (c : ℕ) : Option DirFile → Bool
  | some f => decide (f.cache = some c)
  | none => false

/-- A file that is not real has a position in the list, and its cursor is there. -/
structure FileOk (s : DirInode) (f : DirFile) : Prop where
  merged : f.isReal = false → 0 ≤ f.fPos ∧ s.whiteouts = true
  cursor : ∀ c, f.cache = some c → f.isReal = false ∧
    ∃ es, s.listing c = some es ∧ f.cursor = some (min f.fPos.toNat es.length)

/-- The invariant of a directory with its files. -/
structure SysOk (s : DirInode) (files : List (Option DirFile)) : Prop where
  file : ∀ f, some f ∈ files → FileOk s f
  refs : ∀ c cache, s.heap c = some cache → cache.refcount = files.countP (usesCache c)
  slot : ∀ c, s.cache = some c → (s.heap c).isSome = true

/-- What a step at another file leaves a file. -/
structure SameList (s s' : DirInode) (f : DirFile) : Prop where
  whiteouts : s.whiteouts = true → s'.whiteouts = true
  listing : ∀ c, f.cache = some c → s'.listing c = s.listing c

variable {s s' s'' : DirInode} {f f' : DirFile} {c : ℕ}
  {x x' : Option DirFile} {files rest : List (Option DirFile)}

theorem listing_eq_some {es : List Listed} (h : s.listing c = some es) :
    ∃ cache, s.heap c = some cache ∧ cache.entries.map CacheEntry.listed = es := by
  rw [DirInode.listing, Option.map_eq_some_iff] at h
  exact h

theorem SameList.refl (s : DirInode) (f : DirFile) : SameList s s f := ⟨id, fun _ _ => rfl⟩

theorem SameList.trans (h : SameList s s' f) (h' : SameList s' s'' f) : SameList s s'' f :=
  ⟨fun hw => h'.whiteouts (h.whiteouts hw), fun c hc => (h'.listing c hc).trans (h.listing c hc)⟩

theorem FileOk.kept (h : FileOk s f) (hk : SameList s s' f) : FileOk s' f := by
  refine ⟨fun hr => ⟨(h.merged hr).1, hk.whiteouts (h.merged hr).2⟩, ?_⟩
  intro c hc
  obtain ⟨hr, es, hes, hcur⟩ := h.cursor c hc
  exact ⟨hr, es, (hk.listing c hc).trans hes, hcur⟩

theorem SysOk.perm (h : SysOk s files) (hp : files.Perm rest) : SysOk s rest := by
  refine ⟨fun f hf => h.file f (hp.mem_iff.mpr hf), ?_, h.slot⟩
  intro c cache hc
  rw [h.refs c cache hc, hp.countP_eq]

/-- One file is replaced, and the references change as it says. -/
theorem SysOk.replace (h : SysOk s (x :: rest)) (hfile : ∀ f, x' = some f → FileOk s' f)
    (hkept : ∀ g, some g ∈ rest → SameList s s' g)
    (hrefs : ∀ c cache', s'.heap c = some cache' →
      (∃ cache, s.heap c = some cache ∧ cache'.refcount + (if usesCache c x then 1 else 0) =
        cache.refcount + (if usesCache c x' then 1 else 0)) ∨
      (s.heap c = none ∧ cache'.refcount = if usesCache c x' then 1 else 0))
    (hslot : ∀ c, s'.cache = some c → (s'.heap c).isSome = true) : SysOk s' (x' :: rest) := by
  refine ⟨?_, ?_, hslot⟩
  · intro f hf
    obtain hf | hf := List.mem_cons.mp hf
    · exact hfile f hf.symm
    · exact (h.file f (List.mem_cons_of_mem _ hf)).kept (hkept f hf)
  · intro c cache' hc
    obtain ⟨cache, hcache, heq⟩ | ⟨hnone, heq⟩ := hrefs c cache' hc
    · have hold := h.refs c cache hcache
      rw [List.countP_cons] at hold ⊢
      split at heq <;> split at heq <;> simp_all
    · have hno : rest.countP (usesCache c) = 0 := by
        rw [List.countP_eq_zero]
        rintro (_ | g) hg huse
        · cases huse
        · obtain ⟨-, es, hes, -⟩ :=
            (h.file g (List.mem_cons_of_mem _ hg)).cursor c (of_decide_eq_true huse)
          obtain ⟨cache, hcache, -⟩ := listing_eq_some hes
          rw [hnone] at hcache
          cases hcache
      rw [List.countP_cons, hno, heq]
      split <;> rfl

/-- A file does not lose its list while the others keep it. -/
theorem SysOk.listing_isSome (h : SysOk s files) {g : DirFile} (hg : some g ∈ files)
    (hc : g.cache = some c) : ∃ cache, s.heap c = some cache := by
  obtain ⟨-, es, hes, -⟩ := (h.file g hg).cursor c hc
  obtain ⟨cache, hcache, -⟩ := listing_eq_some hes
  exact ⟨cache, hcache⟩

theorem listing_store_of_ne {d : ℕ} (cache : Option DirCache) (h : d ≠ c) :
    (s.store c cache).listing d = s.listing d := by
  rw [DirInode.listing, DirInode.listing, store_heap_of_ne _ _ _ h]

/-- The caches are only stored to with the same list. -/
theorem sameList_store {cache : DirCache} (hlist : s.listing c =
    some (cache.entries.map CacheEntry.listed)) (g : DirFile) :
    SameList s (s.store c (some cache)) g := by
  refine ⟨id, fun d _ => ?_⟩
  by_cases hd : d = c
  · subst hd
    rw [DirInode.listing, store_heap_self, hlist]
    rfl
  · exact listing_store_of_ne _ hd

theorem slot_store (h : SysOk s files) (cache : DirCache) :
    ∀ d, s.cache = some d → ((s.store c (some cache)).heap d).isSome = true := by
  intro d hd
  by_cases hdc : d = c
  · subst hdc
    rw [store_heap_self]
    rfl
  · rw [store_heap_of_ne _ _ _ hdc]
    exact h.slot d hd

/-- A cache is stored back with the same list and one file is replaced. -/
theorem SysOk.storeCache {cache cache' : DirCache} (h : SysOk s (x :: rest))
    (hcache : s.heap c = some cache)
    (href : cache'.refcount + (if usesCache c x then 1 else 0) =
      cache.refcount + (if usesCache c x' then 1 else 0))
    (hx : ∀ d, d ≠ c → usesCache d x = usesCache d x')
    (hlist : cache'.entries.map CacheEntry.listed = cache.entries.map CacheEntry.listed)
    (hfile : ∀ f, x' = some f → FileOk (s.store c (some cache')) f) :
    SysOk (s.store c (some cache')) (x' :: rest) ∧
      ∀ g, SameList s (s.store c (some cache')) g := by
  have hkept : ∀ g, SameList s (s.store c (some cache')) g := by
    apply sameList_store
    rw [DirInode.listing, hcache, hlist]
    rfl
  refine ⟨h.replace hfile (fun g _ => hkept g) ?_ (slot_store h cache'), hkept⟩
  intro d cache'' hd
  by_cases hdc : d = c
  · subst hdc
    rw [store_heap_self] at hd
    obtain rfl := Option.some.inj hd
    exact .inl ⟨cache, hcache, href⟩
  · rw [store_heap_of_ne _ _ _ hdc] at hd
    exact .inl ⟨cache'', hd, by rw [hx d hdc]⟩

theorem usesCache_of_ne {d : ℕ} (hc : f.cache = some c) (hd : d ≠ c) :
    usesCache d (some f) = false := by
  rw [usesCache, hc, decide_eq_false_iff_not, Option.some.injEq]
  exact Ne.symm hd

/-- The last file that uses a cache lets go of it. -/
theorem SysOk.free (h : SysOk s (some f :: rest)) (hc : f.cache = some c)
    (hno : ∀ g, some g ∈ rest → g.cache ≠ some c) :
    SysOk (s.free c) (none :: rest) ∧ ∀ g, some g ∈ rest → SameList s (s.free c) g := by
  have hkept : ∀ g, some g ∈ rest → SameList s (s.free c) g := by
    intro g hg
    refine ⟨fun hw => free_whiteouts.trans hw, fun d hd => ?_⟩
    have hdc : d ≠ c := fun heq => hno g hg (heq ▸ hd)
    rw [DirInode.listing, DirInode.listing, free_heap_of_ne hdc]
  refine ⟨h.replace nofun hkept ?_ ?_, hkept⟩
  · intro d cache' hd
    by_cases hdc : d = c
    · subst hdc
      rw [free_heap_self] at hd
      cases hd
    · rw [free_heap_of_ne hdc] at hd
      refine .inl ⟨cache', hd, ?_⟩
      rw [usesCache_of_ne hc hdc]
      rfl
  · intro d hd
    obtain ⟨hd, hdc⟩ := free_cache hd
    rw [free_heap_of_ne hdc]
    exact h.slot d hd

/-- `ovl_cache_put` of a file that lets go of its cache. -/
theorem SysOk.cachePut (h : SysOk s (some f :: rest)) (hc : f.cache = some c) :
    ∃ s', ovlCachePut s c = some s' ∧ SysOk s' (none :: rest) ∧ s'.whiteouts = s.whiteouts ∧
      ∀ g, some g ∈ rest → SameList s s' g := by
  obtain ⟨cache, hcache⟩ := h.listing_isSome List.mem_cons_self hc
  have hrefs := h.refs c cache hcache
  have huse : usesCache c (some f) = true := decide_eq_true hc
  rw [List.countP_cons_of_pos huse] at hrefs
  by_cases hlast : cache.refcount - 1 = 0
  · have hno : ∀ g, some g ∈ rest → g.cache ≠ some c := by
      have hzero : rest.countP (usesCache c) = 0 := by omega
      intro g hg hgc
      exact List.countP_eq_zero.mp hzero (some g) hg (decide_eq_true hgc)
    obtain ⟨hok, hkept⟩ := h.free hc hno
    refine ⟨s.free c, ?_, hok, free_whiteouts, hkept⟩
    rw [ovlCachePut, hcache]
    exact if_pos hlast
  · have hcount : ({ cache with refcount := cache.refcount - 1 } : DirCache).refcount +
        (if usesCache c (some f) then 1 else 0) =
          cache.refcount + (if usesCache c none then 1 else 0) := by
      rw [huse]
      simp [usesCache]
    obtain ⟨hok, hkept⟩ :=
      h.storeCache hcache hcount (fun d hd => usesCache_of_ne hc hd) rfl
        fun g hg => absurd hg.symm (Option.some_ne_none g)
    refine ⟨_, ?_, hok, rfl, fun g _ => hkept g⟩
    rw [ovlCachePut, hcache]
    exact if_neg hlast

/-- A file without a cache counts for no cache. -/
theorem SysOk.release (h : SysOk s (none :: rest)) (hcache : f.cache = none) (hf : FileOk s f) :
    SysOk s (some f :: rest) := by
  refine h.replace (fun g hg => Option.some.inj hg ▸ hf) (fun g _ => SameList.refl s g) ?_ h.slot
  intro d cache hd
  refine .inl ⟨cache, hd, ?_⟩
  simp [usesCache, hcache]

theorem SysOk.sameCache (h : SysOk s (some f :: rest)) (hcache : f'.cache = f.cache)
    (hf : FileOk s f') : SysOk s (some f' :: rest) := by
  refine h.replace (fun g hg => Option.some.inj hg ▸ hf) (fun g _ => SameList.refl s g) ?_ h.slot
  intro d cache hd
  refine .inl ⟨cache, hd, ?_⟩
  simp [usesCache, hcache]

theorem fileOk_resetReal (hf : FileOk s f) (hpos : f.fPos = 0) : FileOk s (resetReal s f) := by
  rw [resetReal]
  split
  · split
    · exact hf
    · next hreal =>
      have hw : s.whiteouts = true := by simpa using hreal
      refine ⟨fun _ => ⟨Int.le_of_eq hpos.symm, hw⟩, ?_⟩
      intro c hc
      exact ⟨rfl, (hf.cursor c hc).2⟩
  · exact hf

end Invariant

section Progress

/-- Since its position was `p`, the file delivered `out`: the entries of its cache from
there to where it is now. -/
structure Delivered (p : ℕ) (s : DirInode) (f : DirFile) (out : List (List UInt8)) : Prop where
  merged : f.isReal = false
  ge : (p : ℤ) ≤ f.fPos
  fresh : f.cache = none → f.fPos = p ∧ out = []
  names : ∀ c, f.cache = some c → ∃ es, s.listing c = some es ∧
    out = emittedNames ((es.drop p).take (f.fPos.toNat - p))

/-- What a call does to the directory, to its own file and to the others. -/
structure Progress (rest : List (Option DirFile)) (s : DirInode) (f : DirFile)
    (s' : DirInode) (f' : DirFile) (names : List (List UInt8)) : Prop where
  ok : SysOk s' (some f' :: rest)
  others : ∀ g, some g ∈ rest → SameList s s' g
  delivers : ∀ p out, Delivered p s f out → Delivered p s' f' (out ++ names)

variable {s s' s'' : DirInode} {f f' f'' : DirFile} {c : ℕ} {rest : List (Option DirFile)}
  {ns ns' : List (List UInt8)}

theorem Progress.trans (h : Progress rest s f s' f' ns) (h' : Progress rest s' f' s'' f'' ns') :
    Progress rest s f s'' f'' (ns ++ ns') := by
  refine ⟨h'.ok, fun g hg => (h.others g hg).trans (h'.others g hg), ?_⟩
  intro p out hd
  rw [← List.append_assoc]
  exact h'.delivers p _ (h.delivers p out hd)

theorem Progress.refl (h : SysOk s (some f :: rest)) : Progress rest s f s f [] := by
  refine ⟨h, fun g _ => SameList.refl s g, fun p out hd => ?_⟩
  rwa [List.append_nil]

theorem Delivered.sameList {p : ℕ} {out : List (List UInt8)} (h : Delivered p s f out)
    (hs : SameList s s' f) : Delivered p s' f out := by
  refine ⟨h.merged, h.ge, h.fresh, fun c hc => ?_⟩
  obtain ⟨es, hes, hout⟩ := h.names c hc
  exact ⟨es, (hs.listing c hc).trans hes, hout⟩

/-- At its start a file has delivered nothing. -/
theorem Delivered.start (hf : FileOk s f) (hreal : f.isReal = false) :
    Delivered f.fPos.toNat s f [] := by
  have hpos := (hf.merged hreal).1
  refine ⟨hreal, by omega, fun _ => ⟨by omega, rfl⟩, fun c hc => ?_⟩
  obtain ⟨-, es, hes, -⟩ := hf.cursor c hc
  refine ⟨es, hes, ?_⟩
  simp [emittedNames]

/-- What was delivered when the position is the one it started from. -/
theorem Delivered.out_eq_nil {p : ℕ} {out : List (List UInt8)} (h : Delivered p s f out)
    (hpos : f.fPos = p) : out = [] := by
  cases hc : f.cache with
  | none => exact (h.fresh hc).2
  | some c =>
    obtain ⟨es, -, hout⟩ := h.names c hc
    rw [hout, hpos]
    simp [emittedNames]

/-- `ovl_dir_reset` at the start of the directory. -/
theorem SysOk.dirReset (h : SysOk s (some f :: rest)) (hpos : f.fPos = 0) :
    ∃ s' f', ovlDirReset s f = some (s', f') ∧ Progress rest s f s' f' [] := by
  have hf := h.file f List.mem_cons_self
  -- keeping the cache
  have hstay : Progress rest s f s (resetReal s f) [] := by
    refine ⟨h.sameCache (resetReal_cache s f) (fileOk_resetReal hf hpos),
      fun g _ => SameList.refl s g, ?_⟩
    · intro p out hd
      rw [List.append_nil]
      refine ⟨resetReal_isReal s hd.merged, ?_, ?_, ?_⟩
      · rw [resetReal_fPos]
        exact hd.ge
      · rw [resetReal_cache, resetReal_fPos]
        exact hd.fresh
      · rw [resetReal_cache, resetReal_fPos]
        exact hd.names
  cases hc : f.cache with
  | none =>
    refine ⟨s, resetReal s f, ?_, hstay⟩
    rw [ovlDirReset, hc]
  | some c =>
    obtain ⟨cache, hcache⟩ := h.listing_isSome List.mem_cons_self hc
    by_cases hversion : s.version ≠ cache.version
    · obtain ⟨s', hput, hok, hwhite, hothers⟩ := h.cachePut hc
      obtain ⟨hreal, -⟩ := hf.cursor c hc
      let f₁ : DirFile := { f with cache := none, cursor := none }
      have hf₁ : FileOk s' f₁ := by
        refine ⟨fun hr => ⟨(hf.merged hr).1, hwhite ▸ (hf.merged hr).2⟩, fun d hd => ?_⟩
        exact absurd hd.symm (Option.some_ne_none d)
      have hcache₁ : (resetReal s' f₁).cache = none := resetReal_cache s' f₁
      have hpos₁ : (resetReal s' f₁).fPos = 0 := (resetReal_fPos s' f₁).trans hpos
      refine ⟨s', resetReal s' f₁, ?_, ⟨?_, hothers, ?_⟩⟩
      · simp only [ovlDirReset, hc, hcache, Option.bind_eq_bind, Option.bind_some,
          if_pos hversion, hput, f₁]
      · exact hok.release hcache₁ (fileOk_resetReal hf₁ hpos)
      · intro p out hd
        have hge := hd.ge
        have hp : f.fPos = p := by omega
        refine ⟨resetReal_isReal s' hreal, by omega, fun _ => ⟨by omega, ?_⟩, ?_⟩
        · rw [hd.out_eq_nil hp]
          rfl
        · intro c' hc'
          rw [hcache₁] at hc'
          cases hc'
    · refine ⟨s, resetReal s f, ?_, hstay⟩
      simp only [ovlDirReset, hc, hcache, Option.bind_eq_bind, Option.bind_some,
        if_neg hversion]

theorem SysOk.resetAtStart (h : SysOk s (some f :: rest)) :
    ∃ s' f', FzzOverlay.resetAtStart s f = some (s', f') ∧ Progress rest s f s' f' [] := by
  rw [FzzOverlay.resetAtStart]
  split
  · next hpos => exact h.dirReset hpos
  · exact ⟨s, f, rfl, Progress.refl h⟩

/-- A file that is given a cache and sets its cursor. -/
theorem progress_attach {cache : DirCache} (hf : FileOk s f) (hreal : f.isReal = false)
    (hnone : f.cache = none) (hcache : s'.heap c = some cache)
    (hwhite : s'.whiteouts = s.whiteouts)
    (hok : ∀ f', f'.cache = some c → FileOk s' f' → SysOk s' (some f' :: rest))
    (hothers : ∀ g, some g ∈ rest → SameList s s' g) :
    ∃ f', ovlSeekCursor s' { f with cache := some c } f.fPos = some f' ∧ f'.cache = some c ∧
      f'.isReal = false ∧ Progress rest s f s' f' [] := by
  have hlist : s'.listing c = some (cache.entries.map CacheEntry.listed) := by
    rw [DirInode.listing, hcache]
    rfl
  refine ⟨{ f with cache := some c, cursor := some (seekCursor f.fPos cache.entries 0) }, ?_, rfl,
    hreal, ⟨hok _ rfl ⟨?_, ?_⟩, hothers, ?_⟩⟩
  · simp only [ovlSeekCursor, Option.bind_eq_bind, Option.bind_some, hcache]
  · exact fun _ => ⟨(hf.merged hreal).1, hwhite ▸ (hf.merged hreal).2⟩
  · intro c' hc'
    obtain rfl := Option.some.inj hc'
    refine ⟨hreal, _, hlist, ?_⟩
    simp only [seekCursor_eq, List.length_map, Int.sub_zero]
  · intro p out hd
    obtain ⟨hpos, hout⟩ := hd.fresh hnone
    refine ⟨hreal, hd.ge, fun hno => absurd hno (Option.some_ne_none c), ?_⟩
    intro c' hc'
    obtain rfl := Option.some.inj hc'
    refine ⟨_, hlist, ?_⟩
    simp [hout, hpos, emittedNames]

theorem SysOk.dropSlot (h : SysOk s (some f :: rest)) :
    SysOk { s with cache := none } (some f :: rest) :=
  ⟨fun g hg => (h.file g hg).kept ⟨id, fun _ _ => rfl⟩, h.refs, nofun⟩

section Calls

variable (color : BinaryTree ℕ → BinaryTree ℕ) (xino impure : Bool) (env : IterEnv)

/-- The outcome of `ovl_cache_get` and, when it has a cache, of `ovl_seek_cursor`. -/
def CacheGot (rest : List (Option DirFile)) (s : DirInode) (f : DirFile) (s' : DirInode)
    (r : Except ℤ ℕ) : Prop :=
  (∃ e, r = .error e ∧ Progress rest s f s' f []) ∨
    ∃ c f', r = .ok c ∧ ovlSeekCursor s' { f with cache := some c } f.fPos = some f' ∧
      f'.cache = some c ∧ f'.isReal = false ∧ Progress rest s f s' f' []

theorem SysOk.cacheGot_error (h : SysOk s (some f :: rest)) (e : ℤ) :
    CacheGot rest s f { s with cache := none } (.error e) := by
  refine .inl ⟨e, rfl, h.dropSlot, fun g _ => ⟨id, fun _ _ => rfl⟩, fun p out hd => ?_⟩
  rw [List.append_nil]
  exact hd.sameList ⟨id, fun _ _ => rfl⟩

/-- A cache at an address that was free. -/
theorem SysOk.cacheGot_new (h : SysOk s (some f :: rest)) (hnone : f.cache = none)
    (hreal : f.isReal = false) (hfree : s.heap c = none) (version : ℕ) (es : List CacheEntry) :
    CacheGot rest s f { s.store c (some ⟨1, version, es⟩) with cache := some c } (.ok c) := by
  have hf := h.file f List.mem_cons_self
  have hothers : ∀ g, some g ∈ rest →
      SameList s { s.store c (some ⟨1, version, es⟩) with cache := some c } g := by
    intro g hg
    refine ⟨id, fun d hd => ?_⟩
    have hdc : d ≠ c := by
      rintro rfl
      obtain ⟨cache, hcache⟩ := h.listing_isSome (List.mem_cons_of_mem _ hg) hd
      rw [hfree] at hcache
      cases hcache
    exact listing_store_of_ne _ hdc
  have hself : ({ s.store c (some ⟨1, version, es⟩) with cache := some c } : DirInode).heap c =
      some ⟨1, version, es⟩ := store_heap_self s c _
  have hok : ∀ f' : DirFile, f'.cache = some c →
      FileOk { s.store c (some ⟨1, version, es⟩) with cache := some c } f' →
      SysOk { s.store c (some ⟨1, version, es⟩) with cache := some c } (some f' :: rest) := by
    intro f' hc' hf'
    refine h.replace (fun g hg => Option.some.inj hg ▸ hf') hothers ?_ ?_
    · intro d cache' hd
      by_cases hdc : d = c
      · subst hdc
        obtain rfl := Option.some.inj (hself.symm.trans hd)
        refine .inr ⟨hfree, ?_⟩
        simp [usesCache, hc']
      · have hd' : s.heap d = some cache' := (store_heap_of_ne s c _ hdc).symm.trans hd
        refine .inl ⟨cache', hd', ?_⟩
        rw [usesCache_of_ne hc' hdc]
        simp [usesCache, hnone]
    · intro d hd
      obtain rfl := Option.some.inj hd
      exact congrArg Option.isSome hself
  obtain ⟨f', hseek, hc', hr', hprogress⟩ :=
    progress_attach hf hreal hnone hself rfl hok hothers
  exact .inr ⟨c, f', rfl, hseek, hc', hr', hprogress⟩

theorem SysOk.cacheGot_read (h : SysOk s (some f :: rest)) (hnone : f.cache = none)
    (hreal : f.isReal = false) :
    CacheGot rest s f (readCache color xino impure s env).1
      (readCache color xino impure s env).2 := by
  rw [readCache]
  cases env.kzalloc with
  | none => exact h.cacheGot_error _
  | some c =>
    simp only
    split
    · exact h.cacheGot_error _
    next hfree =>
    split
    · exact h.cacheGot_error _
    · have hfree' : s.heap c = none := by simpa using hfree
      exact h.cacheGot_new hnone hreal hfree' _ _

/-- One more file uses a cache. -/
theorem SysOk.cacheGot_again (h : SysOk s (some f :: rest)) (hnone : f.cache = none)
    (hreal : f.isReal = false) {cache : DirCache} (hcache : s.heap c = some cache) :
    CacheGot rest s f (s.store c (some { cache with refcount := cache.refcount + 1 })) (.ok c) := by
  have hf := h.file f List.mem_cons_self
  have hstore : ∀ f' : DirFile, f'.cache = some c →
      FileOk (s.store c (some { cache with refcount := cache.refcount + 1 })) f' →
      SysOk (s.store c (some { cache with refcount := cache.refcount + 1 })) (some f' :: rest) ∧
        ∀ g, SameList s (s.store c (some { cache with refcount := cache.refcount + 1 })) g := by
    intro f' hc' hf'
    have hcount : ({ cache with refcount := cache.refcount + 1 } : DirCache).refcount +
        (if usesCache c (some f) then 1 else 0) =
          cache.refcount + (if usesCache c (some f') then 1 else 0) := by
      simp [usesCache, hnone, hc']
    refine h.storeCache hcache hcount (fun d hd => ?_) rfl
      (fun g hg => Option.some.inj hg ▸ hf')
    rw [usesCache_of_ne hc' hd]
    simp [usesCache, hnone]
  have hothers : ∀ g, some g ∈ rest →
      SameList s (s.store c (some { cache with refcount := cache.refcount + 1 })) g := by
    intro g _
    apply sameList_store
    rw [DirInode.listing, hcache]
    rfl
  obtain ⟨f', hseek, hc', hr', hprogress⟩ := progress_attach hf hreal hnone
    (store_heap_self s c (some { cache with refcount := cache.refcount + 1 })) rfl
    (fun f' hc' hf' => (hstore f' hc' hf').1) hothers
  exact .inr ⟨c, f', rfl, hseek, hc', hr', hprogress⟩

/-- `ovl_cache_get` and `ovl_seek_cursor` for a file without a cache. -/
theorem SysOk.cacheGet (h : SysOk s (some f :: rest)) (hnone : f.cache = none)
    (hreal : f.isReal = false) :
    ∃ s' r, ovlCacheGet color xino impure s env = some (s', r) ∧ CacheGot rest s f s' r := by
  have hread : ∃ s' r, some (readCache color xino impure s env) = some (s', r) ∧
      CacheGot rest s f s' r := ⟨_, _, rfl, h.cacheGot_read color xino impure env hnone hreal⟩
  rw [ovlCacheGet]
  cases hslot : s.cache with
  | none => exact hread
  | some c =>
    obtain ⟨cache, hcache⟩ := Option.isSome_iff_exists.mp (h.slot c hslot)
    simp only [hcache, Option.bind_eq_bind, Option.bind_some]
    split
    · exact ⟨_, _, rfl, h.cacheGot_again hnone hreal hcache⟩
    · exact hread

theorem drop_min_length {α : Type} (es : List α) (n : ℕ) :
    es.drop (min n es.length) = es.drop n := by
  by_cases h : n ≤ es.length
  · rw [Nat.min_eq_left h]
  · rw [Nat.min_eq_right (by omega), List.drop_length, List.drop_eq_nil_of_le (by omega)]

/-- The entries from `p` to a position, and those behind it. -/
theorem emittedNames_extend (es : List Listed) {p a : ℕ} (h : p ≤ a) (n : ℕ) :
    emittedNames ((es.drop p).take (a - p)) ++
        emittedNames ((es.drop (min a es.length)).take n) =
      emittedNames ((es.drop p).take (a + n - p)) := by
  rw [← emittedNames_append, drop_min_length, show a + n - p = a - p + n by omega, List.take_add,
    List.drop_drop, show p + (a - p) = a by omega]

/-- The cursor and the position of a file go on together. -/
theorem FileOk.advance {es : List Listed} {k n : ℕ} (hf : FileOk s f) (hc : f.cache = some c)
    (hes : s'.listing c = some es) (hwhite : s'.whiteouts = s.whiteouts)
    (hk : min f.fPos.toNat es.length = k) (hn : n ≤ es.length - k) :
    FileOk s' { f with cursor := some (k + n), fPos := f.fPos + n } := by
  obtain ⟨hreal, -⟩ := hf.cursor c hc
  obtain ⟨hpos, hw⟩ := hf.merged hreal
  refine ⟨fun _ => ⟨Int.add_nonneg hpos (Int.natCast_nonneg n), hwhite.trans hw⟩, fun d hd => ?_⟩
  obtain rfl := Option.some.inj (hc.symm.trans hd)
  refine ⟨hreal, es, hes, ?_⟩
  have hcursor : k + n = min (f.fPos + n).toNat es.length := by omega
  rw [hcursor]

theorem Delivered.advance {p k n : ℕ} {out : List (List UInt8)} {es : List Listed}
    (hd : Delivered p s f out) (hc : f.cache = some c) (hes : s.listing c = some es)
    (hes' : s'.listing c = some es) (hk : min f.fPos.toNat es.length = k) :
    Delivered p s' { f with cursor := some (k + n), fPos := f.fPos + n }
      (out ++ emittedNames ((es.drop k).take n)) := by
  have hge := hd.ge
  refine ⟨hd.merged, Int.le_trans hge (Int.le_add_of_nonneg_right (Int.natCast_nonneg n)), ?_, ?_⟩
  · intro hnone
    exact absurd (hc.symm.trans hnone) nofun
  · intro d hd'
    obtain rfl := Option.some.inj (hc.symm.trans hd')
    obtain ⟨es₀, hes₀, hout⟩ := hd.names c hc
    obtain rfl := Option.some.inj (hes.symm.trans hes₀)
    refine ⟨es, hes', ?_⟩
    have hpos : (f.fPos + n).toNat = f.fPos.toNat + n := by omega
    rw [hout, ← hk, emittedNames_extend es (by omega), hpos]

/-- The loop of `ovl_iterate` emits the entries that it passes. -/
theorem SysOk.iterateCache (s' : DirInode) (h : SysOk s (some f :: rest))
    (hc : f.cache = some c) :
    ∃ r, FzzOverlay.iterateCache s f env = some r ∧
      Progress rest s f r.inode r.file (r.emitted.map Dirent.name) ∧
      Iterated color xino impure env s' f.fPos r := by
  have hf := h.file f List.mem_cons_self
  obtain ⟨hreal, es, hes, hcur⟩ := hf.cursor c hc
  obtain ⟨cache, hcache, hlist⟩ := listing_eq_some hes
  have hpos : f.fPos = f.fPos.toNat := (Int.toNat_of_nonneg (hf.merged hreal).1).symm
  obtain ⟨k, hk⟩ : ∃ k, min f.fPos.toNat es.length = k := ⟨_, rfl⟩
  rw [hk] at hcur
  obtain ⟨b, hb⟩ : ∃ b, emitLoop env (cache.entries.drop k) [] = b := ⟨_, rfl⟩
  obtain ⟨hsame, hle, hout⟩ := emitLoop_spec env (cache.entries.drop k) []
  rw [hb] at hsame hle hout
  rw [List.length_drop, ← List.length_map CacheEntry.listed, hlist] at hle
  rw [List.map_nil, List.nil_append, List.map_drop, hlist] at hout
  -- the list stays, since only inode numbers are filled in
  obtain ⟨cache', hcache'⟩ : ∃ cache' : DirCache,
      { cache with entries := cache.entries.take k ++ b.entries } = cache' := ⟨_, rfl⟩
  have hentries : cache'.entries.map CacheEntry.listed = cache.entries.map CacheEntry.listed := by
    rw [← hcache', List.map_append, hsame, ← List.map_append, List.take_append_drop]
  have hes' : (s.store c (some cache')).listing c = some es := by
    rw [DirInode.listing, store_heap_self, Option.map_some, hentries, hlist]
  have hcount : cache'.refcount + (if usesCache c (some f) then 1 else 0) = cache.refcount +
      (if usesCache c (some { f with cursor := some (k + b.passed), fPos := f.fPos + b.passed })
        then 1 else 0) := by
    rw [← hcache']
    rfl
  obtain ⟨hok, hkept⟩ := h.storeCache hcache hcount (fun d _ => rfl) hentries
    (fun g hg => Option.some.inj hg ▸ hf.advance hc hes' rfl hk hle)
  refine ⟨⟨s.store c (some cache'),
    { f with cursor := some (k + b.passed), fPos := f.fPos + b.passed }, b.emitted, b.ret⟩, ?_,
    ⟨hok, fun g _ => hkept g, fun p out hd => ?_⟩, ?_⟩
  · rw [← hcache']
    simp only [FzzOverlay.iterateCache, hc, hcache, hcur, Option.bind_eq_bind, Option.bind_some,
      hb]
  · rw [hout]
    exact hd.advance hc hes hes' hk
  · have hexact := emitLoop_exact env (cache.entries.drop k) []
    rw [← hlist, List.length_map] at hk
    rw [hb, ← hk] at hexact
    have hbatched := hexact.batched (s.store c (some cache')) hpos (some (k + b.passed))
    rw [hk, hcache'] at hbatched
    exact .batch hc (store_heap_self s c _) hbatched

/-- A real file has no cache, so nothing depends on its position. -/
theorem SysOk.moveReal (h : SysOk s (some f :: rest)) (hreal : f.isReal = true) (pos : ℤ) :
    SysOk s (some { f with fPos := pos } :: rest) := by
  have hf := h.file f List.mem_cons_self
  refine h.sameCache rfl ⟨fun hr => absurd (hreal.symm.trans hr) (by decide), fun c hc => ?_⟩
  exact absurd (hreal.symm.trans (hf.cursor c hc).1) (by decide)

/-- `ovl_iterate` behind the reset. -/
theorem SysOk.iterateOpen (h : SysOk s (some f :: rest)) :
    ∃ r, FzzOverlay.iterateOpen color xino impure s f env = some r ∧
      Progress rest s f r.inode r.file (r.emitted.map Dirent.name) ∧
      (f.isReal = false → Iterated color xino impure env s f.fPos r) := by
  rw [FzzOverlay.iterateOpen]
  by_cases hreal : f.isReal = true
  · refine ⟨_, if_pos hreal, ⟨h.moveReal hreal env.realPos, fun g _ => SameList.refl s g, ?_⟩, ?_⟩
    · intro p out hd
      exact absurd (hreal.symm.trans hd.merged) (by decide)
    · exact fun hno => absurd (hreal.symm.trans hno) (by decide)
  · rw [if_neg hreal]
    cases hc : f.cache with
    | some c =>
      obtain ⟨r, hrun, hprogress, hdone⟩ := h.iterateCache color xino impure env s hc
      exact ⟨r, hrun, hprogress, fun _ => hdone⟩
    | none =>
      obtain ⟨s', r, hget, hgot⟩ :=
        h.cacheGet color xino impure env hc (eq_false_of_ne_true hreal)
      have herror := (ovlCacheGet_listsFrom color xino impure hget).2
      simp only [hget, Option.bind_eq_bind, Option.bind_some]
      obtain ⟨e, rfl, hprogress⟩ | ⟨c, f', rfl, hseek, hc', -, hprogress⟩ := hgot
      · exact ⟨_, rfl, hprogress, fun _ => .refused hget (herror e rfl) hc rfl rfl⟩
      · obtain ⟨call, hrun, hcall, hdone⟩ :=
          hprogress.ok.iterateCache color xino impure env s hc'
        obtain ⟨-, -, hpos⟩ := ovlSeekCursor_keeps hseek
        rw [hpos] at hdone
        simp only [hseek, Option.bind_some, hrun]
        exact ⟨call, rfl, hprogress.trans hcall, fun _ => hdone⟩

/-- `ovl_iterate`, and what it does with a file that is not real. -/
theorem SysOk.iterate (h : SysOk s (some f :: rest)) :
    ∃ r, ovlIterate color xino impure s f env = some r ∧
      Progress rest s f r.inode r.file (r.emitted.map Dirent.name) ∧
      (f.isReal = false → ∃ s' f', FzzOverlay.resetAtStart s f = some (s', f') ∧
        Iterated color xino impure env s' f.fPos r) := by
  obtain ⟨s', f', hreset, hprogress⟩ := h.resetAtStart
  obtain ⟨r, hrun, hr, hdone⟩ := hprogress.ok.iterateOpen color xino impure env
  obtain ⟨hpos, hreal⟩ := resetAtStart_keeps hreset
  refine ⟨r, ?_, hprogress.trans hr, fun hno => ⟨s', f', hreset, ?_⟩⟩
  · rw [ovlIterate, hreset]
    exact hrun
  · rw [← hpos]
    exact hdone (hreal hno)

end Calls

/-- A seek puts the cursor where the position goes. -/
theorem SysOk.llseekMerged (h : SysOk s (some f :: rest)) (hreal : f.isReal = false)
    (offset : ℤ) (origin : Whence) :
    ∃ f' ret, FzzOverlay.llseekMerged s f offset origin = some (f', ret) ∧
      SysOk s (some f' :: rest) := by
  have hf := h.file f List.mem_cons_self
  rw [FzzOverlay.llseekMerged]
  split
  · exact ⟨f, _, rfl, h⟩
  generalize (if origin = .cur then (offset + f.fPos).bmod (2 ^ 64) else offset) = off
  simp only
  split
  · exact ⟨f, _, rfl, h⟩
  next hneg =>
  have hoff : 0 ≤ off := by omega
  split
  · cases hc : f.cache with
    | none =>
      refine ⟨{ f with fPos := off }, off, ?_, h.sameCache rfl ⟨?_, ?_⟩⟩
      · simp only [hc, Option.isSome_none, Bool.false_eq_true, if_false]
      · exact fun hr => ⟨hoff, (hf.merged hr).2⟩
      · intro c hc'
        exact absurd (hc.symm.trans hc') nofun
    | some c =>
      obtain ⟨-, es, hes, -⟩ := hf.cursor c hc
      obtain ⟨cache, hcache, hlist⟩ := listing_eq_some hes
      refine ⟨{ f with fPos := off, cursor := some (seekCursor off cache.entries 0) }, off, ?_,
        h.sameCache rfl ⟨?_, ?_⟩⟩
      · simp only [Option.isSome_some, if_true, ovlSeekCursor, hcache, Option.bind_eq_bind,
          Option.bind_some, Option.map_some, hc]
      · exact fun hr => ⟨hoff, (hf.merged hr).2⟩
      · intro d hd
        obtain rfl := Option.some.inj (hc.symm.trans hd)
        refine ⟨hreal, es, hes, ?_⟩
        simp only [seekCursor_eq, ← hlist, List.length_map, Int.sub_zero]
  · exact ⟨f, _, rfl, h⟩

theorem SysOk.llseek (h : SysOk s (some f :: rest)) (offset : ℤ) (origin : Whence)
    (realPos realRet : ℤ) :
    ∃ r, ovlDirLlseek s f offset origin realPos realRet = some r ∧
      SysOk r.inode (some r.file :: rest) ∧ ∀ g, some g ∈ rest → SameList s r.inode g := by
  obtain ⟨s', f', heq, hok, hothers, -⟩ := h.resetAtStart
  simp only [ovlDirLlseek, heq, Option.bind_eq_bind, Option.bind_some]
  by_cases hreal : f'.isReal = true
  · exact ⟨_, if_pos hreal, hok.moveReal hreal realPos, hothers⟩
  · rw [if_neg hreal]
    obtain ⟨f'', ret, hseek, hok'⟩ :=
      hok.llseekMerged (eq_false_of_ne_true hreal) offset origin
    simp only [hseek, Option.bind_some]
    exact ⟨_, rfl, hok', hothers⟩

end Progress

section Run

/-- The event neither seeks in the file `fd` nor closes it. -/
def DirEvent.Leaves (fd : ℕ) : DirEvent → Prop
  | .release fd' => fd' ≠ fd
  | .llseek fd' _ _ _ _ => fd' ≠ fd
  | _ => True

/-- The names that an event emits to the reader of `fd`. -/
def DirEvent.names (fd : ℕ) (out : List Dirent) : DirEvent → List (List UInt8)
  | .iterate fd' _ => if fd' = fd then out.map Dirent.name else []
  | _ => []

/-- The names that a run emits to the reader of `fd`. -/
def emittedTo (fd : ℕ) (log : List (DirEvent × List Dirent)) : List (List UInt8) :=
  log.flatMap fun q => q.1.names fd q.2

/-- What an event does to the file `fd`, if it is open. -/
structure Follows (fd : ℕ) (s t : DirSys) (names : List (List UInt8)) : Prop where
  follows : ∀ f, s.file fd = some f → ∃ f', t.file fd = some f' ∧
    ∀ p out, Delivered p s.inode f out → Delivered p t.inode f' (out ++ names)

variable {s t u : DirSys} {f : DirFile} {fd fd' : ℕ} {ns ns' : List (List UInt8)}

theorem Follows.trans (h : Follows fd s t ns) (h' : Follows fd t u ns') :
    Follows fd s u (ns ++ ns') := by
  refine ⟨fun f hf => ?_⟩
  obtain ⟨f₁, hf₁, hd₁⟩ := h.follows f hf
  obtain ⟨f₂, hf₂, hd₂⟩ := h'.follows f₁ hf₁
  refine ⟨f₂, hf₂, fun p out hd => ?_⟩
  rw [← List.append_assoc]
  exact hd₂ p _ (hd₁ p out hd)

/-- The file stays as it is, and its list too. -/
theorem follows_of_sameList (hfile : t.file fd = s.file fd)
    (hsame : ∀ f, s.file fd = some f → SameList s.inode t.inode f) : Follows fd s t [] := by
  refine ⟨fun f hf => ⟨f, hfile.trans hf, fun p out hd => ?_⟩⟩
  rw [List.append_nil]
  exact hd.sameList (hsame f hf)

theorem file_setFile_self (hf : s.file fd = some f) (inode : DirInode) (x : Option DirFile) :
    (s.setFile fd inode x).file fd = x := by
  rw [DirSys.file, Option.join_eq_some_iff] at hf
  have hlt := (List.getElem?_eq_some_iff.mp hf).1
  simp [DirSys.file, DirSys.setFile, hlt]

theorem file_setFile_of_ne (h : fd' ≠ fd) (inode : DirInode) (x : Option DirFile) :
    (s.setFile fd' inode x).file fd = s.file fd := by
  simp [DirSys.file, DirSys.setFile, List.getElem?_set_ne h]

/-- The files with one of them in front. -/
theorem exists_others (hf : s.file fd = some f) :
    ∃ rest, s.files.Perm (some f :: rest) ∧
      (∀ inode x, (s.setFile fd inode x).files.Perm (x :: rest)) ∧
      ∀ fd' g, fd ≠ fd' → s.file fd' = some g → some g ∈ rest := by
  rw [DirSys.file, Option.join_eq_some_iff] at hf
  obtain ⟨hlt, hget⟩ := List.getElem?_eq_some_iff.mp hf
  have hset : ∀ x, s.files.set fd x = s.files.take fd ++ x :: s.files.drop (fd + 1) := by
    intro x
    rw [List.set_eq_take_append_cons_drop, if_pos hlt]
  refine ⟨s.files.take fd ++ s.files.drop (fd + 1), ?_, ?_, ?_⟩
  · have hself : s.files = s.files.take fd ++ some f :: s.files.drop (fd + 1) := by
      rw [← hset, ← hget, List.set_getElem_self]
    exact (List.Perm.of_eq hself).trans List.perm_middle
  · intro inode x
    exact (List.Perm.of_eq (hset x)).trans List.perm_middle
  · intro fd' g hne hg
    rw [← file_setFile_of_ne hne s.inode none, DirSys.file, Option.join_eq_some_iff,
      DirSys.setFile, hset none] at hg
    have hmem := List.mem_of_getElem? hg
    rw [List.mem_append, List.mem_cons] at hmem
    obtain hmem | hmem | hmem := hmem
    · exact List.mem_append_left _ hmem
    · cases hmem
    · exact List.mem_append_right _ hmem

/-- What an event does to the whole system: no cache is used after it was freed, and a file
that it leaves alone goes on from where it was. -/
structure Steps (s : DirSys) (e : DirEvent) (t : DirSys) (out : List Dirent) : Prop where
  ok : SysOk t.inode t.files
  follows : ∀ fd, e.Leaves fd → Follows fd s t (e.names fd out)

/-- A call of the file `fd` as a step. -/
theorem steps_call {rest : List (Option DirFile)} {inode : DirInode} {x : Option DirFile}
    {e : DirEvent} {out : List Dirent}
    (hset : (s.setFile fd inode x).files.Perm (x :: rest))
    (hmem : ∀ fd' g, fd ≠ fd' → s.file fd' = some g → some g ∈ rest)
    (hok : SysOk inode (x :: rest)) (hothers : ∀ g, some g ∈ rest → SameList s.inode inode g)
    (hnames : ∀ fd', fd ≠ fd' → e.names fd' out = [])
    (hself : e.Leaves fd → Follows fd s (s.setFile fd inode x) (e.names fd out)) :
    Steps s e (s.setFile fd inode x) out := by
  refine ⟨hok.perm hset.symm, fun fd' hleaves => ?_⟩
  by_cases hfd : fd = fd'
  · subst hfd
    exact hself hleaves
  · rw [hnames fd' hfd]
    refine follows_of_sameList (file_setFile_of_ne hfd inode x) fun g hg => ?_
    exact hothers g (hmem fd' g hfd hg)

/-- The inode changes, but not its caches. -/
theorem steps_inode {inode : DirInode} {e : DirEvent} (h : SysOk s.inode s.files)
    (hheap : inode.heap = s.inode.heap) (hcache : inode.cache = s.inode.cache)
    (hwhite : s.inode.whiteouts = true → inode.whiteouts = true)
    (hnames : ∀ fd, e.names fd [] = []) : Steps s e ⟨inode, s.files⟩ [] := by
  have hsame : ∀ f, SameList s.inode inode f := by
    refine fun f => ⟨hwhite, fun c _ => ?_⟩
    rw [DirInode.listing, DirInode.listing, hheap]
  refine ⟨⟨fun f hf => (h.file f hf).kept (hsame f), ?_, ?_⟩, fun fd _ => ?_⟩
  · rw [hheap]
    exact h.refs
  · rw [hheap, hcache]
    exact h.slot
  · rw [hnames fd]
    exact follows_of_sameList rfl fun f _ => hsame f

theorem SysOk.addNone {inode : DirInode} {files : List (Option DirFile)} (h : SysOk inode files) :
    SysOk inode (none :: files) := by
  refine ⟨fun f hf => h.file f (by simpa using hf), fun c cache hc => ?_, h.slot⟩
  rw [List.countP_cons_of_neg (by simp [usesCache])]
  exact h.refs c cache hc

theorem steps_open (h : SysOk s.inode s.files) :
    Steps s .open ⟨s.inode, s.files ++ [some ⟨0, !s.inode.whiteouts, none, none⟩]⟩ [] := by
  refine ⟨?_, fun fd _ => ⟨fun f hf => ⟨f, ?_, fun p out hd => ?_⟩⟩⟩
  · have hnew : FileOk s.inode ⟨0, !s.inode.whiteouts, none, none⟩ :=
      ⟨fun hr => ⟨Int.le_refl 0, by simpa using hr⟩, nofun⟩
    exact (h.addNone.release rfl hnew).perm (List.perm_append_singleton _ _).symm
  · rw [DirSys.file, Option.join_eq_some_iff] at hf ⊢
    rw [List.getElem?_append_left (List.getElem?_eq_some_iff.mp hf).1]
    exact hf
  · simpa [DirEvent.names] using hd

/-- A step that finds no open file. -/
theorem steps_none {e : DirEvent} (h : SysOk s.inode s.files)
    (hnames : ∀ fd, e.names fd [] = []) : Steps s e s [] :=
  steps_inode h rfl rfl id hnames

variable (color : BinaryTree ℕ → BinaryTree ℕ) (xino impure : Bool)

theorem dirStep_release (h : SysOk s.inode s.files) (hf : s.file fd = some f) :
    ∃ t, dirStep color xino impure s (.release fd) = some (t, []) ∧
      Steps s (.release fd) t [] := by
  obtain ⟨rest, hperm, hset, hmem⟩ := exists_others hf
  have hfocus := h.perm hperm
  have hcall : ∀ inode, SysOk inode (none :: rest) →
      (∀ g, some g ∈ rest → SameList s.inode inode g) →
      Steps s (.release fd) (s.setFile fd inode none) [] := by
    intro inode hok hothers
    exact steps_call (hset inode none) hmem hok hothers (fun _ _ => rfl) fun hleaves =>
      absurd rfl hleaves
  simp only [dirStep, hf]
  cases hc : f.cache with
  | none =>
    refine ⟨_, rfl, hcall s.inode ?_ fun g _ => SameList.refl s.inode g⟩
    refine hfocus.replace nofun (fun g _ => SameList.refl s.inode g) ?_ hfocus.slot
    intro d cache hd
    refine .inl ⟨cache, hd, ?_⟩
    simp [usesCache, hc]
  | some c =>
    obtain ⟨inode, hput, hok, -, hothers⟩ := hfocus.cachePut hc
    simp only [hput, Option.bind_eq_bind, Option.bind_some]
    exact ⟨_, rfl, hcall inode hok hothers⟩

theorem dirStep_iterate (h : SysOk s.inode s.files) (hf : s.file fd = some f) (env : IterEnv) :
    ∃ t out, dirStep color xino impure s (.iterate fd env) = some (t, out) ∧
      Steps s (.iterate fd env) t out := by
  obtain ⟨rest, hperm, hset, hmem⟩ := exists_others hf
  obtain ⟨r, hrun, hprogress, -⟩ := (h.perm hperm).iterate color xino impure env
  simp only [dirStep, hf, hrun, Option.bind_eq_bind, Option.bind_some]
  refine ⟨_, _, rfl, steps_call (hset r.inode (some r.file)) hmem hprogress.ok hprogress.others
    (fun fd' hfd => if_neg hfd) fun _ => ⟨fun f' hf' => ?_⟩⟩
  obtain rfl := Option.some.inj (hf.symm.trans hf')
  refine ⟨r.file, file_setFile_self hf r.inode (some r.file), fun p out hd => ?_⟩
  rw [DirEvent.names, if_pos rfl]
  exact hprogress.delivers p out hd

theorem dirStep_llseek (h : SysOk s.inode s.files) (hf : s.file fd = some f) (offset : ℤ)
    (origin : Whence) (realPos realRet : ℤ) :
    ∃ t, dirStep color xino impure s (.llseek fd offset origin realPos realRet) = some (t, []) ∧
      Steps s (.llseek fd offset origin realPos realRet) t [] := by
  obtain ⟨rest, hperm, hset, hmem⟩ := exists_others hf
  obtain ⟨r, hrun, hok, hothers⟩ := (h.perm hperm).llseek offset origin realPos realRet
  simp only [dirStep, hf, hrun, Option.bind_eq_bind, Option.bind_some]
  exact ⟨_, rfl, steps_call (hset r.inode (some r.file)) hmem hok hothers (fun _ _ => rfl)
    fun hleaves => absurd rfl hleaves⟩

/-- Every event can happen, and keeps the invariant. -/
theorem dirStep_steps (h : SysOk s.inode s.files) (e : DirEvent) :
    ∃ t out, dirStep color xino impure s e = some (t, out) ∧ Steps s e t out := by
  cases e with
  | «open» => exact ⟨_, _, rfl, steps_open h⟩
  | release fd =>
    cases hf : s.file fd with
    | none =>
      refine ⟨s, [], ?_, steps_none h fun _ => rfl⟩
      simp only [dirStep, hf]
    | some f =>
      obtain ⟨t, hstep, ht⟩ := dirStep_release color xino impure h hf
      exact ⟨t, [], hstep, ht⟩
  | iterate fd env =>
    cases hf : s.file fd with
    | none =>
      refine ⟨s, [], ?_, steps_none h fun fd' => ?_⟩
      · simp only [dirStep, hf]
      · simp [DirEvent.names]
    | some f => exact dirStep_iterate color xino impure h hf env
  | llseek fd offset origin realPos realRet =>
    cases hf : s.file fd with
    | none =>
      refine ⟨s, [], ?_, steps_none h fun _ => rfl⟩
      simp only [dirStep, hf]
    | some f =>
      obtain ⟨t, hstep, ht⟩ := dirStep_llseek color xino impure h hf offset origin realPos realRet
      exact ⟨t, [], hstep, ht⟩
  | change dir inc => exact ⟨_, _, rfl, steps_inode h rfl rfl id fun _ => rfl⟩
  | copyUp => exact ⟨_, _, rfl, steps_inode h rfl rfl (fun _ => rfl) fun _ => rfl⟩

/-- Every sequence of events can happen, and keeps the invariant. -/
theorem dirRun_steps (h : SysOk s.inode s.files) (es : List DirEvent) :
    ∃ t log, dirRun color xino impure s es = some (t, log) ∧ SysOk t.inode t.files ∧
      ∀ fd, (∀ e ∈ es, e.Leaves fd) → Follows fd s t (emittedTo fd log) := by
  induction es generalizing s with
  | nil =>
    exact ⟨s, [], rfl, h, fun fd _ => follows_of_sameList rfl fun f _ => SameList.refl s.inode f⟩
  | cons e es ih =>
    obtain ⟨t, out, hstep, ht⟩ := dirStep_steps color xino impure h e
    obtain ⟨u, log, hrun, hok, hfollows⟩ := ih ht.ok
    refine ⟨u, (e, out) :: log, ?_, hok, fun fd hleaves => ?_⟩
    · simp only [dirRun, hstep, hrun, Option.bind_eq_bind, Option.bind_some]
    · obtain ⟨hfirst, hlater⟩ := List.forall_mem_cons.mp hleaves
      exact (ht.follows fd hfirst).trans (hfollows fd hlater)

/-- The layers that an event changes to. -/
def DirEvent.newLayers : DirEvent → Option OvlDir
  | .change dir _ => some dir
  | _ => none

/-- The layers are among `ds`, and every cache in memory was read from one of these. -/
structure Sourced (ds : List OvlDir) (s : DirInode) : Prop where
  dir : s.dir ∈ ds
  heap : ∀ c cache, s.heap c = some cache → ∃ d ∈ ds, cache.ReadFrom color xino impure d

namespace Sourced

variable {color : BinaryTree ℕ → BinaryTree ℕ} {xino impure : Bool} {ds ds' : List OvlDir}
  {s s' : DirInode}

theorem mono (h : Sourced color xino impure ds s) (hsub : ∀ d ∈ ds, d ∈ ds') :
    Sourced color xino impure ds' s := by
  refine ⟨hsub _ h.dir, fun c cache hc => ?_⟩
  obtain ⟨d, hd, hread⟩ := h.heap c cache hc
  exact ⟨d, hsub d hd, hread⟩

theorem listsFrom (h : Sourced color xino impure ds s) (hl : ListsFrom color xino impure s s') :
    Sourced color xino impure ds s' := by
  refine ⟨hl.dir ▸ h.dir, fun c cache' hc => ?_⟩
  obtain ⟨cache, hcache, hsame⟩ | hread := hl.heap c cache' hc
  · obtain ⟨d, hd, hread⟩ := h.heap c cache hcache
    exact ⟨d, hd, hread.of_same hsame⟩
  · exact ⟨s.dir, h.dir, hread⟩

end Sourced

theorem dirStep_sourced {ds : List OvlDir} {e : DirEvent} {out : List Dirent}
    (h : Sourced color xino impure ds s.inode) (hnew : ∀ d, e.newLayers = some d → d ∈ ds)
    (hstep : dirStep color xino impure s e = some (t, out)) :
    Sourced color xino impure ds t.inode := by
  cases e with
  | «open» =>
    cases hstep
    exact h
  | release fd =>
    cases hf : s.file fd with
    | none =>
      simp only [dirStep, hf] at hstep
      cases hstep
      exact h
    | some f =>
      cases hc : f.cache with
      | none =>
        simp only [dirStep, hf, hc] at hstep
        cases hstep
        exact h
      | some c =>
        simp only [dirStep, hf, hc, Option.bind_eq_bind, Option.bind_eq_some_iff] at hstep
        obtain ⟨inode, hput, heq⟩ := hstep
        cases heq
        exact h.listsFrom (ovlCachePut_listsFrom hput)
  | iterate fd env =>
    cases hf : s.file fd with
    | none =>
      simp only [dirStep, hf] at hstep
      cases hstep
      exact h
    | some f =>
      simp only [dirStep, hf, Option.bind_eq_bind, Option.bind_eq_some_iff] at hstep
      obtain ⟨r, hrun, heq⟩ := hstep
      cases heq
      exact h.listsFrom (ovlIterate_listsFrom color xino impure hrun)
  | llseek fd offset origin realPos realRet =>
    cases hf : s.file fd with
    | none =>
      simp only [dirStep, hf] at hstep
      cases hstep
      exact h
    | some f =>
      simp only [dirStep, hf, Option.bind_eq_bind, Option.bind_eq_some_iff] at hstep
      obtain ⟨r, hrun, heq⟩ := hstep
      cases heq
      exact h.listsFrom (ovlDirLlseek_listsFrom color xino impure hrun)
  | change dir inc =>
    cases hstep
    exact ⟨hnew dir rfl, h.heap⟩
  | copyUp =>
    cases hstep
    exact ⟨h.dir, h.heap⟩

variable {color xino impure}

theorem dirRun_sourced {ds : List OvlDir} {es : List DirEvent}
    {log : List (DirEvent × List Dirent)} (h : Sourced color xino impure ds s.inode)
    (hnew : ∀ e ∈ es, ∀ d, e.newLayers = some d → d ∈ ds)
    (hrun : dirRun color xino impure s es = some (t, log)) :
    Sourced color xino impure ds t.inode := by
  induction es generalizing s log with
  | nil =>
    cases hrun
    exact h
  | cons e es ih =>
    obtain ⟨hfirst, hlater⟩ := List.forall_mem_cons.mp hnew
    simp only [dirRun, Option.bind_eq_bind, Option.bind_eq_some_iff] at hrun
    obtain ⟨⟨s₁, out⟩, hstep, ⟨s₂, log₁⟩, hrest, heq⟩ := hrun
    cases heq
    exact ih (dirStep_sourced color xino impure h hfirst hstep) hlater hrest

variable (color xino impure)

/-- A directory that no file has opened yet. -/
def closedDir (dir : OvlDir) (version : ℕ) (whiteouts : Bool) : DirSys :=
  ⟨⟨dir, version, whiteouts, none, fun _ => none⟩, []⟩

theorem sysOk_closedDir (dir : OvlDir) (version : ℕ) (whiteouts : Bool) :
    SysOk (closedDir dir version whiteouts).inode (closedDir dir version whiteouts).files :=
  ⟨nofun, nofun, nofun⟩

theorem sourced_closedDir (dir : OvlDir) (version : ℕ) (whiteouts : Bool) {ds : List OvlDir} :
    Sourced color xino impure (dir :: ds) (closedDir dir version whiteouts).inode :=
  ⟨List.mem_cons_self, nofun⟩

theorem emittedNames_listed (es : List CacheEntry) (p n : ℕ) :
    emittedNames (((es.map CacheEntry.listed).drop p).take n) =
      (((es.drop p).take n).filter fun e => !e.isWhiteout).map CacheEntry.name := by
  rw [← List.map_drop, ← List.map_take, emittedNames, List.filter_map, List.map_map]
  rfl

/-- Reading a directory in batches. Whatever happens at the directory, the cursor of every
file with a cache is at its position, and every cache has the list that `ovl_dir_read_merged`
gave for the layers at some time. A call for a file that is not real fails in `ovl_cache_get`,
or it has such a list, emits it from the position of the file on and stops only at its end,
where the caller has no room, or where `ovl_cache_update_ino` fails. As long as nobody seeks in
a file or closes it, its reader gets the entries of the cached list from its position on,
without the whiteouts. -/
theorem batches_deliver_list (dir : OvlDir) (version : ℕ) (whiteouts : Bool)
    (es : List DirEvent) :
    ∃ t log, dirRun color xino impure (closedDir dir version whiteouts) es = some (t, log) ∧
      (∀ fd f c, t.file fd = some f → f.cache = some c → ∃ cache,
        t.inode.heap c = some cache ∧ 0 ≤ f.fPos ∧
          f.cursor = some (min f.fPos.toNat cache.entries.length)) ∧
      (∀ c cache, t.inode.heap c = some cache →
        ∃ d ∈ dir :: es.filterMap DirEvent.newLayers, cache.ReadFrom color xino impure d) ∧
      (∀ fd f env, t.file fd = some f → f.isReal = false → ∃ r s g,
        ovlIterate color xino impure t.inode f env = some r ∧
          resetAtStart t.inode f = some (s, g) ∧ Iterated color xino impure env s f.fPos r ∧
          ListsFrom color xino impure t.inode r.inode) ∧
      ∀ fd f es', t.file fd = some f → f.isReal = false → (∀ e ∈ es', e.Leaves fd) →
        ∃ u log' g, dirRun color xino impure t es' = some (u, log') ∧ u.file fd = some g ∧
          f.fPos ≤ g.fPos ∧
          (g.cache = none → g.fPos = f.fPos ∧ emittedTo fd log' = []) ∧
          ∀ c, g.cache = some c → ∃ cache, u.inode.heap c = some cache ∧
            (∃ d ∈ dir :: (es ++ es').filterMap DirEvent.newLayers,
              cache.ReadFrom color xino impure d) ∧
            emittedTo fd log' =
              (((cache.entries.drop f.fPos.toNat).take (g.fPos.toNat - f.fPos.toNat)).filter
                fun e => !e.isWhiteout).map CacheEntry.name := by
  obtain ⟨t, log, hrun, hok, -⟩ :=
    dirRun_steps color xino impure (sysOk_closedDir dir version whiteouts) es
  have hopen : ∀ fd f, t.file fd = some f → FileOk t.inode f := by
    intro fd f hf
    rw [DirSys.file, Option.join_eq_some_iff] at hf
    exact hok.file f (List.mem_of_getElem? hf)
  have hsourced := dirRun_sourced (sourced_closedDir color xino impure dir version whiteouts)
    (fun e he d hd => List.mem_cons_of_mem _ (List.mem_filterMap.mpr ⟨e, he, hd⟩)) hrun
  refine ⟨t, log, hrun, ?_, hsourced.heap, ?_, ?_⟩
  · intro fd f c hf hc
    obtain ⟨hreal, es, hes, hcur⟩ := (hopen fd f hf).cursor c hc
    obtain ⟨cache, hcache, rfl⟩ := listing_eq_some hes
    rw [List.length_map] at hcur
    exact ⟨cache, hcache, ((hopen fd f hf).merged hreal).1, hcur⟩
  · intro fd f env hf hreal
    obtain ⟨rest, hperm, -, -⟩ := exists_others hf
    obtain ⟨r, hrun, -, hdone⟩ := (hok.perm hperm).iterate color xino impure env
    obtain ⟨s, g, hreset, hiterated⟩ := hdone hreal
    exact ⟨r, s, g, hrun, hreset, hiterated, ovlIterate_listsFrom color xino impure hrun⟩
  · intro fd f es' hf hreal hleaves
    obtain ⟨u, log', hrun', -, hfollows⟩ := dirRun_steps color xino impure hok es'
    obtain ⟨g, hg, hd⟩ := (hfollows fd hleaves).follows f hf
    have hstart := hd _ _ (Delivered.start (hopen fd f hf) hreal)
    rw [List.nil_append] at hstart
    have hpos := ((hopen fd f hf).merged hreal).1
    have hge := hstart.ge
    refine ⟨u, log', g, hrun', hg, by omega, fun hc => ?_, fun c hc => ?_⟩
    · obtain ⟨hsame, hnil⟩ := hstart.fresh hc
      exact ⟨by omega, hnil⟩
    · obtain ⟨es, hes, hout⟩ := hstart.names c hc
      obtain ⟨cache, hcache, rfl⟩ := listing_eq_some hes
      refine ⟨cache, hcache, ?_, ?_⟩
      · have hlater : Sourced color xino impure
            (dir :: (es ++ es').filterMap DirEvent.newLayers) u.inode :=
          dirRun_sourced (hsourced.mono fun d hd => ?_) (fun e he d hd => ?_) hrun'
        · exact hlater.heap c cache hcache
        · rw [List.filterMap_append, ← List.cons_append]
          exact List.mem_append_left _ hd
        · refine List.mem_cons_of_mem _ (List.mem_filterMap.mpr ⟨e, ?_, hd⟩)
          exact List.mem_append_right _ he
      · rw [hout, emittedNames_listed]

/-- A caller with room for one entry; a new cache is at the address `c`. -/
def IterEnv.single (c : ℕ) : IterEnv :=
  ⟨some c, fun e => (e.realIno, none), fun out _ => out.isEmpty, [], 0, 0⟩

/-- An upper directory with a file and a whiteout over a lower one with three files. -/
def fourNames : OvlDir where
  upper := some ⟨none, [([⟨[97], 1, DT_CHR⟩, ⟨[98], 2, 8⟩], none)], fun n => n == [97], none⟩
  lowers := [⟨none, [([⟨[97], 3, 8⟩, ⟨[99], 4, 8⟩, ⟨[100], 5, 8⟩], none)], fun _ => false, none⟩]
  layers_ne := .inl rfl

/-- The directory without its upper file. -/
def withoutUpper : OvlDir := { fourNames with
  upper := some ⟨none, [([⟨[97], 1, DT_CHR⟩], none)], fun n => n == [97], none⟩ }

/-- The file is read in batches of one entry. The upper file is removed behind the first batch;
the later batches still deliver the rest of the list, and the last one delivers nothing. -/
theorem batches_deliver_list_singles : ∃ t log f u log' g cache,
    dirRun id false false (closedDir fourNames 0 true) [.open, .iterate 0 (.single 0)] =
        some (t, log) ∧ emittedTo 0 log = [[99]] ∧ t.file 0 = some f ∧ f.fPos = 2 ∧
      dirRun id false false t [.change withoutUpper true, .iterate 0 (.single 1),
        .iterate 0 (.single 1), .iterate 0 (.single 1)] = some (u, log') ∧ u.file 0 = some g ∧
      g.fPos = 4 ∧ u.inode.heap 0 = some cache ∧ emittedTo 0 log' = [[100], [98]] ∧
      emittedTo 0 log' = (((cache.entries.drop 2).take 2).filter
        fun e => !e.isWhiteout).map CacheEntry.name := by
  obtain ⟨t, log, hrun, -, -, -, hbatches⟩ := batches_deliver_list id false false fourNames 0 true
    [.open, .iterate 0 (.single 0)]
  have hfirst : (dirRun id false false (closedDir fourNames 0 true)
      [.open, .iterate 0 (.single 0)]).map (fun q =>
        (emittedTo 0 q.2, (q.1.file 0).map fun f => (f.fPos, f.isReal))) =
      some ([[99]], some (2, false)) := by decide +kernel
  rw [hrun] at hfirst
  obtain ⟨hlog, hfile⟩ := Prod.mk.inj (Option.some.inj hfirst)
  obtain ⟨f, hf, hfields⟩ := Option.map_eq_some_iff.mp hfile
  obtain ⟨hpos, hreal⟩ := Prod.mk.inj hfields
  obtain ⟨u, log', g, hrun', hg, -, -, hcached⟩ := hbatches 0 f [.change withoutUpper true,
    .iterate 0 (.single 1), .iterate 0 (.single 1), .iterate 0 (.single 1)] hf hreal (by
      simp [DirEvent.Leaves])
  have hlater : ((dirRun id false false (closedDir fourNames 0 true)
      [.open, .iterate 0 (.single 0)]).bind fun q => dirRun id false false q.1
        [.change withoutUpper true, .iterate 0 (.single 1), .iterate 0 (.single 1),
          .iterate 0 (.single 1)]).map (fun q =>
        (emittedTo 0 q.2, (q.1.file 0).map fun f => (f.fPos, f.cache))) =
      some ([[100], [98]], some (4, some 0)) := by decide +kernel
  rw [hrun, Option.bind_some, hrun'] at hlater
  obtain ⟨hlog', hfile'⟩ := Prod.mk.inj (Option.some.inj hlater)
  rw [hg] at hfile'
  obtain ⟨hpos', hcache'⟩ := Prod.mk.inj (Option.some.inj hfile')
  obtain ⟨cache, hheap, -, hout⟩ := hcached 0 hcache'
  rw [hpos, hpos'] at hout
  exact ⟨t, log, f, u, log', g, cache, hrun, hlog, hf, hpos, hrun', hg, hpos', hheap, hlog', hout⟩

end Run

end FzzOverlay

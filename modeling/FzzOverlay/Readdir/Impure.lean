import FzzOverlay.Lib.Run
import FzzOverlay.Readdir.Number

/-!
# Reading real directories

A real directory is read again and again while its contents change, and the cache of an
impure one is used as long as its version fits. What is in the directory is given with the
dentries of its names.

## Main definitions

- `RealContents` — the entries of a real directory and the dentries of their names
- `RealContents.owned` — the entries whose number is not the one in the directory
- `RealDirState.step` — a reading, or a change that `ovl_dir_modified` is called for
- `d_ino_is_stat` — every entry that is emitted has the number that `stat` reports
-/

namespace FzzOverlay

section Defs

variable {σ : Type} {m : NumMount σ} {isUpper : Bool}

/-- What is in a real directory, with the dentries of its names: no name is there twice, a
lower entry is on the layer of the directory, and an upper directory is on no other layer. -/
structure RealContents (m : NumMount σ) (isUpper : Bool) where
  dir : NumDentry σ
  parent : NumDentry σ
  entries : List DirEnt
  dentry : List UInt8 → Option (NumDentry σ)
  nodup : (entries.map DirEnt.name).Nodup
  made : ∀ e ∈ entries, isDots e.name = false → ∀ d, dentry e.name = some d →
    Made m d ∧ EntryOf d isUpper e.ino ∧ (isUpper = false →
      d.lowerstack.head?.map (fun p => p.1.fsid) = dir.lowerstack.head?.map fun p => p.1.fsid)
  upper : isUpper = true → dir.lowerstack = []

/-- What the calls of a reading fail with. -/
structure ReadCalls where
  readDir : Option Errno
  lookup : List UInt8 → Option Errno
  call : List UInt8 → GetattrCall → Option Errno

def RealContents.env (r : RealContents m isUpper) (calls : ReadCalls) : ReaddirEnv σ where
  dir := r.dir
  parent := r.parent
  lookup := fun name => match calls.lookup name with
    | some e => .error e
    | none => .ok (r.dentry name)
  call := calls.call
  readDir := calls.readDir

/-- The number that `stat` reports for an entry. -/
def RealContents.HasNumber (r : RealContents m isUpper) (e : DirEnt) (k : ℕ) : Prop :=
  isDots e.name = false ∧ ∃ d n fsid, r.dentry e.name = some d ∧ Numbered m d n fsid ∧
    k = m.number n.ino fsid

/-- The names with a number that is not the one in the directory. -/
def RealContents.owned (r : RealContents m isUpper) : Set (List UInt8 × ℕ) :=
  { p | ∃ e ∈ r.entries, e.name = p.1 ∧ r.HasNumber e p.2 ∧ p.2 ≠ e.ino }

/-- A real directory and its inode. -/
structure RealDirState (m : NumMount σ) (isUpper : Bool) where
  contents : RealContents m isUpper
  inode : ImpureInode

/-- What happens to a real directory: it is read, or its contents change, after
`ovl_set_impure` if `marks` and with `impurity` passed to `ovl_dir_modified`. -/
inductive RealDirEvent (m : NumMount σ) (isUpper : Bool) where
  | read (calls : ReadCalls) (part : List DirEnt)
  | change (contents : RealContents m isUpper) (marks impurity : Bool)

/-- `iterateReal` of the directory. -/
def RealDirState.iterate (s : RealDirState m isUpper) (calls : ReadCalls) (part : List DirEnt) :
    Except StatFault (List (List UInt8 × ℕ)) × ImpureInode :=
  iterateReal m (s.contents.env calls) isUpper s.inode s.contents.entries part

/-- The version only counts the changes to impure entries, since the directory is not merged. -/
def RealDirState.step (s : RealDirState m isUpper) :
    RealDirEvent m isUpper → RealDirState m isUpper
  | .read calls part => { s with inode := (s.iterate calls part).2 }
  | .change contents marks impurity =>
    ⟨contents, { s.inode with
      impure := s.inode.impure || marks
      version := if impurity then s.inode.version + 1 else s.inode.version }⟩

/-- A change that leaves the version alone leaves the numbers alone as well, and the first
entry with another number comes with `OVL_IMPURE`. -/
def RealDirState.Noted (s : RealDirState m isUpper) : RealDirEvent m isUpper → Prop
  | .read _ _ => True
  | .change contents marks impurity =>
    (impurity = false → contents.owned = s.contents.owned) ∧
      (s.contents.owned = ∅ → marks = false → contents.owned = ∅)

/-- An inode that was just made for the directory: `OVL_IMPURE` is from the xattr. -/
structure RealDirState.Opened (s : RealDirState m isUpper) : Prop where
  cache : s.inode.cache = none
  marked : s.inode.impure = false → s.contents.owned = ∅

/-- The entries of a cache are those with another number. -/
def RealContents.CachedBy (r : RealContents m isUpper) (entries : List CacheEntry) : Prop :=
  ∀ name k, (entries.find? fun p => p.name = name).map CacheEntry.ino = some k ↔
    (name, k) ∈ r.owned

/-- What a reading works with when it has the right cache, or needs none. -/
def RealContents.ServedBy (r : RealContents m isUpper) : Option (List CacheEntry) → Prop
  | some entries => r.CachedBy entries
  | none => isUpper = true → r.owned = ∅

/-- What holds between the readings of an upper directory. -/
structure RealDirState.Kept (s : RealDirState m isUpper) : Prop where
  marked : s.inode.impure = false → s.contents.owned = ∅
  version : ∀ c, s.inode.cache = some c → c.version ≤ s.inode.version
  cached : ∀ c, s.inode.cache = some c → s.inode.version = c.version →
    s.contents.CachedBy c.entries

end Defs

section Cache

variable {σ : Type} {m : NumMount σ} {isUpper : Bool} {r : RealContents m isUpper}
  {calls : ReadCalls}

theorem RealContents.lookup_ok {name : List UInt8} {x : Option (NumDentry σ)}
    (h : (r.env calls).lookup name = .ok x) : r.dentry name = x := by
  unfold RealContents.env at h
  dsimp only at h
  split at h
  · cases h
  · exact Except.ok.inj h

/-- Where numbers are consistent, the number of an entry is found by looking it up. -/
theorem lookup_of_updatedIno {env : ReaddirEnv σ} {p : CacheEntry} {ino : ℕ}
    (hcons : m.Consistent) (hdots : isDots p.name = false)
    (h : updatedIno m env p = .ok ino) :
    ∃ x, env.lookup p.name = .ok x ∧ (x = none → ino = p.realIno) := by
  rw [isDots, Bool.or_eq_false_iff, decide_eq_false_iff_not, decide_eq_false_iff_not] at hdots
  obtain ⟨same, hsame, h⟩ := bind_eq_ok.mp h
  have hcond : ¬ (same.isNone && m.ofs.xinoBits = 0) = true := by
    have := hcons.cond (ofOutcome_ok hsame)
    cases same <;> simp_all
  rw [if_neg hcond, ReaddirEnv.find, if_neg hdots.1, if_neg hdots.2] at h
  split at h
  · cases h
  · next hx =>
    cases h
    exact ⟨none, hx, fun _ => rfl⟩
  · next d hx => exact ⟨some d, hx, fun hno => absurd hno (Option.some_ne_none d)⟩

theorem RealContents.exists_hasNumber (hm : m.Fits) (hcons : m.Consistent) {e : DirEnt}
    (he : e ∈ r.entries) (hdots : isDots e.name = false) {d : NumDentry σ}
    (hd : r.dentry e.name = some d) : ∃ k, r.HasNumber e k := by
  obtain ⟨n, fsid, hn⟩ := (r.made e he hdots d hd).1.numbered hm hcons
  exact ⟨_, hdots, d, n, fsid, hd, hn, rfl⟩

theorem RealContents.HasNumber.stat {e : DirEnt} {k : ℕ} (h : r.HasNumber e k) {d : NumDentry σ}
    (hd : r.dentry e.name = some d) {call : GetattrCall → Option Errno} {st : OvlStat}
    (hst : ovlGetattr m call d = .ok st) : st.ino = k := by
  obtain ⟨-, d', n, fsid, hd', hn, rfl⟩ := h
  obtain rfl : d' = d := Option.some.inj (hd'.symm.trans hd)
  exact hn.stat call st hst

/-- What `ovl_cache_update_ino` finds for an entry is the number that `stat` reports. -/
theorem RealContents.HasNumber.updatedIno_eq (hcons : m.Consistent) {e : DirEnt} {k ino : ℕ}
    (h : r.HasNumber e k) (he : e ∈ r.entries)
    (hino : updatedIno m (r.env calls) (plainEntry e) = .ok ino) : ino = k := by
  obtain ⟨hdots, d, n, fsid, hd, hn, rfl⟩ := h
  obtain ⟨-, hentry, -⟩ := r.made e he hdots d hd
  obtain ⟨x, hx, -⟩ := lookup_of_updatedIno (p := plainEntry e) hcons hdots hino
  obtain rfl : some d = x := hd.symm.trans (RealContents.lookup_ok hx)
  exact hn.updatedIno_eq hcons (p := plainEntry e) hentry hdots hx hino

/-- Reading an impure directory finds the entries with another number. -/
theorem cachedBy_of_read (hm : m.Fits) (hcons : m.Consistent) {t : List CacheEntry}
    (h : ovlDirReadImpure m (r.env calls) r.entries = .ok t) : r.CachedBy t := by
  intro name k
  refine (ovlDirReadImpure_find h r.nodup).trans ⟨?_, ?_⟩
  · rintro ⟨e, he, hname, hdots, hino, hown⟩
    obtain ⟨x, hx, hreal⟩ := lookup_of_updatedIno (p := plainEntry e) hcons hdots hino
    cases x with
    | none => exact absurd (hreal rfl) hown
    | some d =>
      obtain ⟨k', hk'⟩ := r.exists_hasNumber hm hcons he hdots (RealContents.lookup_ok hx)
      obtain rfl : k = k' := hk'.updatedIno_eq hcons he hino
      exact ⟨e, he, hname, hk', hown⟩
  · rintro ⟨e, he, hname, hk, hown⟩
    obtain ⟨ino, hino⟩ := ovlDirReadImpure_updated h he hk.1
    obtain rfl : ino = k := hk.updatedIno_eq hcons he hino
    exact ⟨e, he, hname, hk.1, hino, hown⟩

theorem owned_eq_empty (h : r.CachedBy []) : r.owned = ∅ := by
  refine Set.eq_empty_of_forall_notMem fun p hp => ?_
  have := (h p.1 p.2).mpr hp
  cases this

variable {s : RealDirState m isUpper} {x : Except StatFault (Option (List CacheEntry))}
  {i : ImpureInode}

/-- A new cache has the version of the directory. -/
theorem RealDirState.Kept.make (hk : s.Kept) (hm : m.Fits) (hcons : m.Consistent)
    (h : makeImpureCache m (s.contents.env calls) s.inode s.contents.entries = (x, i)) :
    ({ s with inode := i } : RealDirState m isUpper).Kept ∧
      ∀ cache, x = .ok cache → s.contents.ServedBy cache := by
  have hnone : ({ s with inode := { s.inode with cache := none } } :
      RealDirState m isUpper).Kept := ⟨hk.marked, nofun, nofun⟩
  unfold makeImpureCache at h
  split at h
  · cases h
    exact ⟨hnone, nofun⟩
  · split at h
    · cases h
      exact ⟨hnone, nofun⟩
    · next hread =>
      cases h
      have hempty := owned_eq_empty (cachedBy_of_read hm hcons hread)
      refine ⟨⟨fun _ => hempty, nofun, nofun⟩, fun cache hcache => ?_⟩
      cases hcache
      exact fun _ => hempty
    · next entries _ hread =>
      cases h
      have hcached := cachedBy_of_read hm hcons hread
      refine ⟨⟨hk.marked, fun c hc => ?_, fun c hc _ => ?_⟩, fun cache hcache => ?_⟩
      · cases hc
        exact le_rfl
      · cases hc
        exact hcached
      · cases hcache
        exact hcached

/-- A reading has the right cache, or needs none, and leaves a right one. -/
theorem RealDirState.Kept.impureCache (hk : s.Kept) (hm : m.Fits) (hcons : m.Consistent)
    (h : impureCache m (s.contents.env calls) isUpper s.inode s.contents.entries = (x, i)) :
    ({ s with inode := i } : RealDirState m isUpper).Kept ∧
      ∀ cache, x = .ok cache → s.contents.ServedBy cache := by
  unfold FzzOverlay.impureCache ovlCacheGetImpure at h
  split at h
  · split at h
    · next c hc =>
      split at h
      · next hversion =>
        cases h
        refine ⟨hk, fun cache hcache => ?_⟩
        cases hcache
        exact hk.cached c hc hversion
      · exact hk.make hm hcons h
    · exact hk.make hm hcons h
  · next hpure =>
    cases h
    refine ⟨hk, fun cache hcache => ?_⟩
    cases hcache
    intro hup
    refine hk.marked (eq_false_of_ne_true fun himpure => hpure ?_)
    exact Bool.and_eq_true_iff.mpr ⟨hup, himpure⟩

end Cache

section Runs

variable {σ : Type} {m : NumMount σ} {isUpper : Bool} {s s₀ : RealDirState m isUpper}
  {calls : ReadCalls} {part : List DirEnt} {out : List (List UInt8 × ℕ)}

theorem RealDirState.Opened.kept (h : s.Opened) : s.Kept where
  marked := h.marked
  version c hc := by
    rw [h.cache] at hc
    cases hc
  cached c hc := by
    rw [h.cache] at hc
    cases hc

/-- How a reading of a real directory ends. -/
theorem iterate_cases (s : RealDirState m isUpper) (calls : ReadCalls) (part : List DirEnt) :
    (∃ e, s.iterate calls part = (.error e, s.inode)) ∨
    (∃ parent x i, parentIno m (s.contents.env calls) = .ok parent ∧
      impureCache m (s.contents.env calls) isUpper s.inode s.contents.entries = (x, i) ∧
      s.iterate calls part = (x.map fun cache => part.map fun e =>
        (e.name, ovlFillReal m cache (dirFsid m (s.contents.env calls)) parent e), i)) ∨
    (m.ofs.xinoBits = 0 ∧ (∀ sb, ovlSameSb m.ofs = .ret (some sb) →
        ovlIsImpureDir isUpper s.inode = false ∧ (ovlPathType s.contents.parent).merge = false) ∧
      s.iterate calls part = (.ok (part.map fun e => (e.name, e.ino)), s.inode)) := by
  unfold RealDirState.iterate iterateReal
  split
  · next e he => exact .inl ⟨e, rfl⟩
  · next same hsame =>
    split
    · unfold ovlIterateReal
      split
      · next e he => exact .inl ⟨e, rfl⟩
      · next parent hparent => exact .inr (.inl ⟨parent, _, _, hparent, rfl, rfl⟩)
    · next hcond =>
      rw [Bool.not_eq_true, Bool.or_eq_false_iff, decide_eq_false_iff_not, not_ne_iff] at hcond
      refine .inr (.inr ⟨hcond.1, fun sb hsb => ?_, rfl⟩)
      obtain rfl : same = some sb := Outcome.ret.inj ((ofOutcome_ok hsame).symm.trans hsb)
      exact Bool.or_eq_false_iff.mp hcond.2

/-- Readings and noted changes keep the cache right. -/
theorem RealDirState.Kept.step (hk : s.Kept) (hm : m.Fits) (hcons : m.Consistent)
    {ev : RealDirEvent m isUpper} (hnoted : s.Noted ev) : (s.step ev).Kept := by
  cases ev with
  | read calls part =>
    obtain ⟨e, he⟩ | ⟨parent, x, i, -, hcache, hi⟩ | ⟨-, -, hi⟩ := iterate_cases s calls part
    · change ({ s with inode := (s.iterate calls part).2 } : RealDirState m isUpper).Kept
      rw [he]
      exact hk
    · change ({ s with inode := (s.iterate calls part).2 } : RealDirState m isUpper).Kept
      rw [hi]
      exact (hk.impureCache hm hcons hcache).1
    · change ({ s with inode := (s.iterate calls part).2 } : RealDirState m isUpper).Kept
      rw [hi]
      exact hk
  | change contents marks impurity =>
    obtain ⟨hsame, hmarks⟩ := hnoted
    refine ⟨fun himpure => ?_, fun c hc => ?_, fun c hc hversion => ?_⟩
    · obtain ⟨hwas, hmark⟩ := Bool.or_eq_false_iff.mp himpure
      exact hmarks (hk.marked hwas) hmark
    · refine (hk.version c hc).trans ?_
      change s.inode.version ≤ if impurity then s.inode.version + 1 else s.inode.version
      split
      · exact Nat.le_succ _
      · exact le_rfl
    · change (if impurity then s.inode.version + 1 else s.inode.version) = c.version at hversion
      cases impurity with
      | true =>
        have hle : c.version ≤ s.inode.version := hk.version c hc
        rw [if_pos rfl] at hversion
        omega
      | false =>
        have hcached := hk.cached c hc hversion
        intro name k
        change _ ↔ (name, k) ∈ contents.owned
        rw [hsame rfl]
        exact hcached name k

theorem RealDirState.Kept.run {tr : List (RealDirState m isUpper × RealDirEvent m isUpper)}
    (hm : m.Fits) (hcons : m.Consistent) (h₀ : s₀.Kept)
    (hrun : Lts.Run (fun s ev t => t = RealDirState.step s ev) s₀ tr s)
    (hnoted : ∀ p ∈ tr, p.1.Noted p.2) : s.Kept :=
  hrun.invariant_of_guard h₀ (fun _ _ _ hk hnote hstep => hstep ▸ hk.step hm hcons hnote) hnoted

/-- The directory of `impureDir` with the copied-up file, which is inode 9, by the given names. -/
def linkedDir (names : List (List UInt8)) (hnodup : names.Nodup) :
    RealContents indexedMount true where
  dir := impureDir.dir
  parent := impureDir.parent
  entries := names.map fun name => ⟨name, 9, 8⟩
  dentry := fun _ => some copiedHardlink
  nodup := by
    rw [List.map_map]
    exact (List.map_id names).symm ▸ hnodup
  made := fun e he hdots d hd => by
    obtain ⟨name, -, rfl⟩ := List.mem_map.mp he
    cases hd
    exact ⟨copiedHardlink_made, copiedHardlink_entry, nofun⟩
  upper := fun _ => rfl

def noFailures : ReadCalls := ⟨none, fun _ => none, fun _ _ => none⟩

/-- The directory when it was opened, and after it was read. -/
def linkedDirOpened : RealDirState indexedMount true :=
  ⟨linkedDir [[102]] (by decide), ⟨true, 0, none⟩⟩

def linkedDirRead : RealDirState indexedMount true :=
  linkedDirOpened.step (.read noFailures [⟨[102], 9, 8⟩])

/-- Another name is given to the file. `ovl_link` has `OVL_IMPURE` set for it, but
`ovl_instantiate` does not count the change, and the cache knows nothing of the name. -/
theorem d_ino_is_stat_linked :
    let s := linkedDirRead.step (.change (linkedDir [[102], [103]] (by decide)) true false)
    (s.iterate noFailures [⟨[103], 9, 8⟩]).1 = .ok [([103], 9)] ∧
      (ovlGetattr indexedMount (fun _ => none) copiedHardlink).map OvlStat.ino =
        .ok (2 ^ 63 + 5) :=
  ⟨rfl, rfl⟩

end Runs

end FzzOverlay

import FzzOverlay.Inode.Number
import FzzOverlay.Readdir.Merge

/-!
# Inode numbers of directory entries

`ovl_cache_update_ino`, `ovl_cache_get_impure`, `ovl_iterate_real` and what they call of
`readdir.c`. The tree of an impure directory is kept as the list of its entries.

## Main definitions

- `ReaddirEnv` — what the names of a directory are looked up to
- `ovlCacheUpdateIno`, `ovlCacheGetImpure`, `ovlIterateReal` — the number of an entry, the
  numbers of an impure directory, and reading a real directory
- `Numbered` — the inode that a dentry has its number from
- `merged_d_ino_is_stat` — an entry of a merged directory has the number that `stat` reports
-/

namespace FzzOverlay

/-- The directory with its parent, what its names are looked up to, and what making a cache
and reading the real directory for it fail with. -/
structure ReaddirEnv (σ : Type) where
  dir : NumDentry σ
  parent : NumDentry σ
  lookup : List UInt8 → Except Errno (Option (NumDentry σ))
  call : List UInt8 → GetattrCall → Option Errno
  readDir : Option Errno

/-- `struct ovl_dir_cache` of an impure directory. -/
structure ImpureCache where
  version : ℕ
  entries : List CacheEntry

/-- What the inode of a real directory keeps for reading it. -/
structure ImpureInode where
  impure : Bool
  version : ℕ
  cache : Option ImpureCache

section Defs

variable {σ : Type} (m : NumMount σ) (env : ReaddirEnv σ)

def isDots (name : List UInt8) : Bool := name = [46] || name = [46, 46]

/-- `ovl_remap_lower_ino`. -/
def ovlRemapLowerIno (ino fsid : ℕ) : ℕ :=
  if ino >>> (64 - m.ofs.xinoBits) ≠ 0 then ino
  else ino ||| (fsid <<< (64 - m.ofs.xinoBits)) % 2 ^ 64

/-- The dentry that `ovl_cache_update_ino` works with. -/
def ReaddirEnv.find (name : List UInt8) : Except Errno (Option (NumDentry σ)) :=
  if name = [46] then .ok (some env.dir)
  else if name = [46, 46] then .ok (some env.parent)
  else env.lookup name

/-- The number for an entry that was looked up. -/
def foundIno (p : CacheEntry) (this : NumDentry σ) : Except StatFault ℕ :=
  if (ovlPathType this).origin then do
    let stat ← ovlGetattr m (env.call p.name) this
    pure stat.ino
  else if m.ofs.xinoBits ≠ 0 && !(ovlPathType this).upper then do
    let (layer, _) ← deref this.lowerstack.head?
    pure (ovlRemapLowerIno m p.realIno layer.fsid)
  else pure p.realIno

/-- The number that `ovl_cache_update_ino` finds for an entry. -/
def updatedIno (p : CacheEntry) : Except StatFault ℕ := do
  let same ← ofOutcome (ovlSameSb m.ofs)
  if same.isNone && m.ofs.xinoBits = 0 then pure p.realIno
  else
    match env.find p.name with
    | .error e => .error (.errno e)
    | .ok none => pure p.realIno
    | .ok (some this) => foundIno m env p this

/-- `ovl_cache_update_ino`, which sets the real number when it fails. -/
def ovlCacheUpdateIno (p : CacheEntry) : Except StatFault Unit × CacheEntry :=
  match updatedIno m env p with
  | .ok ino => (.ok (), { p with ino := ino })
  | .error e => (.error e, { p with ino := p.realIno })

/-- The entry that `ovl_fill_plain` makes. -/
def plainEntry (e : DirEnt) : CacheEntry := ⟨e.name, e.dType, e.ino, e.ino, false, false⟩

/-- The loop of `ovl_dir_read_impure`, with the entries that are in the tree so far. -/
def readImpureLoop : List CacheEntry → List CacheEntry → Except StatFault (List CacheEntry)
  | [], tree => .ok tree
  | p :: list, tree =>
    let r := if isDots p.name then (.ok (), p) else ovlCacheUpdateIno m env p
    match r with
    | (.error e, _) => .error e
    | (.ok (), p) =>
      if p.ino = p.realIno then readImpureLoop list tree
      else if tree.any fun q => q.name = p.name then .error (.errno EIO)
      else readImpureLoop list (tree ++ [p])

/-- `ovl_dir_read_impure` on what the upper directory contains. -/
def ovlDirReadImpure (es : List DirEnt) : Except StatFault (List CacheEntry) :=
  readImpureLoop m env (es.map plainEntry) []

/-- `ovl_cache_get_impure` without a cache of the version at hand. A directory without entries
that need one gets none, and loses `OVL_IMPURE`. -/
def makeImpureCache (i : ImpureInode) (es : List DirEnt) :
    Except StatFault (Option (List CacheEntry)) × ImpureInode :=
  match env.readDir with
  | some e => (.error (.errno e), { i with cache := none })
  | none =>
    match ovlDirReadImpure m env es with
    | .error e => (.error e, { i with cache := none })
    | .ok [] => (.ok none, { i with impure := false, cache := none })
    | .ok entries => (.ok (some entries), { i with cache := some ⟨i.version, entries⟩ })

def ovlCacheGetImpure (i : ImpureInode) (es : List DirEnt) :
    Except StatFault (Option (List CacheEntry)) × ImpureInode :=
  match i.cache with
  | some c =>
    if i.version = c.version then (.ok (some c.entries), i) else makeImpureCache m env i es
  | none => makeImpureCache m env i es

/-- The number that `ovl_fill_real` passes on. -/
def ovlFillReal (cache : Option (List CacheEntry)) (fsid parentIno : ℕ) (e : DirEnt) : ℕ :=
  if parentIno ≠ 0 ∧ e.name = [46, 46] then parentIno
  else
    match cache with
    | some entries => ((entries.find? fun p => p.name = e.name).map CacheEntry.ino).getD e.ino
    | none => if m.ofs.xinoBits ≠ 0 then ovlRemapLowerIno m e.ino fsid else e.ino

/-- The number of the parent in `ovl_iterate_real`, or 0. -/
def parentIno : Except StatFault ℕ :=
  if (ovlPathType env.parent).merge then do
    let stat ← ovlGetattr m (env.call [46, 46]) env.parent
    pure stat.ino
  else pure 0

/-- `ovl_is_impure_dir`. -/
def ovlIsImpureDir (isUpper : Bool) (i : ImpureInode) : Bool := isUpper && i.impure

/-- The cache that `ovl_iterate_real` uses. -/
def impureCache (isUpper : Bool) (i : ImpureInode) (es : List DirEnt) :
    Except StatFault (Option (List CacheEntry)) × ImpureInode :=
  if ovlIsImpureDir isUpper i then ovlCacheGetImpure m env i es else (.ok none, i)

/-- The fsid of `ovl_iterate_real`. -/
def dirFsid : ℕ :=
  if m.ofs.xinoBits ≠ 0 then (env.dir.lowerstack.head?.map fun l => l.1.fsid).getD 0 else 0

/-- `ovl_iterate_real`: the names and numbers that are emitted, when the real directory has
the entries `es` and this call passes on those of `part`. -/
def ovlIterateReal (isUpper : Bool) (i : ImpureInode) (es part : List DirEnt) :
    Except StatFault (List (List UInt8 × ℕ)) × ImpureInode :=
  match parentIno m env with
  | .error e => (.error e, i)
  | .ok parent =>
    let r := impureCache m env isUpper i es
    (r.1.map fun cache => part.map fun e =>
      (e.name, ovlFillReal m cache (dirFsid m env) parent e), r.2)

/-- `ovl_iterate` of a real directory. -/
def iterateReal (isUpper : Bool) (i : ImpureInode) (es part : List DirEnt) :
    Except StatFault (List (List UInt8 × ℕ)) × ImpureInode :=
  match ofOutcome (ovlSameSb m.ofs) with
  | .error e => (.error e, i)
  | .ok same =>
    if m.ofs.xinoBits ≠ 0 ||
        (same.isSome && (ovlIsImpureDir isUpper i || (ovlPathType env.parent).merge)) then
      ovlIterateReal m env isUpper i es part
    else (.ok (part.map fun e => (e.name, e.ino)), i)

/-- The number that `ovl_iterate` emits for an entry of a merged directory. -/
def mergedIno (p : CacheEntry) : Except StatFault ℕ :=
  if p.ino = 0 then
    match ovlCacheUpdateIno m env p with
    | (.ok (), p) => .ok p.ino
    | (.error e, _) => .error e
  else .ok p.ino

end Defs

section Numbered

variable {σ : Type} {m : NumMount σ} {d : NumDentry σ} {n : RealNode σ} {fsid : ℕ}

/-- The number that a real inode is given where numbers are consistent. -/
def NumMount.number (m : NumMount σ) (ino fsid : ℕ) : ℕ :=
  if m.ofs.xinoBits ≠ 0 ∧ fsid ≠ 0 ∧ ino >>> (64 - m.ofs.xinoBits) = 0 then
    ino ||| (fsid <<< (64 - m.ofs.xinoBits)) % 2 ^ 64
  else ino

/-- The inode that a dentry has its number from, and its fsid. -/
def NumDentry.node (d : NumDentry σ) : Option (RealNode σ) × ℕ :=
  if d.constIno || d.upper.isNone then
    (d.lowerstack.head?.map Prod.snd, (d.lowerstack.head?.map fun l => l.1.fsid).getD 0)
  else (d.upper, 0)

/-- A dentry whose `stat` reports the number of the inode it has its number from. -/
structure Numbered (m : NumMount σ) (d : NumDentry σ) (n : RealNode σ) (fsid : ℕ) : Prop where
  node : d.node = (some n, fsid)
  stat : ∀ call st, ovlGetattr m call d = .ok st → st.ino = m.number n.ino fsid

theorem ovlFillInode_eq_number {same : Bool} {next ino : ℕ}
    (hcons : (same || m.ofs.xinoBits ≠ 0) = true) :
    ovlFillInode m same next ino fsid = m.number ino fsid := by
  rw [ovlFillInode, if_pos hcons]
  rfl

theorem ovlRemapLowerIno_eq_number (hbits : m.ofs.xinoBits ≠ 0) (ino fsid : ℕ) :
    ovlRemapLowerIno m ino fsid = m.number ino fsid := by
  rw [ovlRemapLowerIno, NumMount.number]
  by_cases hfit : ino >>> (64 - m.ofs.xinoBits) = 0
  · rw [if_neg fun h => h hfit]
    by_cases hfsid : fsid = 0
    · rw [if_neg fun h => h.2.1 hfsid, hfsid]
      simp
    · rw [if_pos ⟨hbits, hfsid, hfit⟩]
  · rw [if_pos hfit, if_neg fun h => hfit h.2.2]

theorem number_zero (ino : ℕ) : m.number ino 0 = ino :=
  if_neg fun h => h.2.1 rfl

theorem number_same (hbits : m.ofs.xinoBits = 0) (ino fsid : ℕ) : m.number ino fsid = ino :=
  if_neg fun h => h.1 hbits

variable {next nlink : ℕ} {kind : FileKind} {upper : Option (RealNode σ)}
  {index upperdata : Bool} {lowerstack : List (OvlLayer σ × RealNode σ)}

/-- Numbers are consistent on one filesystem, or when they are mapped. -/
def NumMount.Consistent (m : NumMount σ) : Prop :=
  (∃ sb, ovlSameSb m.ofs = .ret (some sb)) ∨ m.ofs.xinoBits ≠ 0

theorem NumMount.Consistent.cond (hcons : m.Consistent) {same : Option σ}
    (hsame : ovlSameSb m.ofs = .ret same) : (same.isSome || m.ofs.xinoBits ≠ 0) = true := by
  obtain ⟨sb, hsb⟩ | hbits := hcons
  · obtain rfl : same = some sb := Outcome.ret.inj (hsame.symm.trans hsb)
    rfl
  · simp [hbits]

/-- The number of a directory is not used for anything else. -/
theorem ovlMapDevIno_file {ofs : OvlFs σ} {sDev iIno : ℕ} {stat : Kstat}
    {layer : Option (OvlLayer σ)} (iIno' : ℕ) :
    ovlMapDevIno ofs sDev false iIno stat layer = ovlMapDevIno ofs sDev false iIno' stat layer := by
  unfold ovlMapDevIno
  simp only [Bool.false_eq_true, if_false]

/-- A file is mapped to the number of the inode that `stat` starts from. -/
theorem ovlMapDevIno_number (hm : m.Fits) (hcons : m.Consistent) {isDir : Bool}
    {iIno ino dev : ℕ} {layer : Option (OvlLayer σ)} {k : Kstat}
    (hlayer : (layer.map OvlLayer.fsid).getD 0 = fsid)
    (hino : isDir = true → iIno = m.number ino fsid)
    (h : ovlMapDevIno m.ofs m.sDev isDir iIno ⟨dev, ino⟩ layer = .ret k) :
    k.ino = m.number ino fsid := by
  have hsame : ∃ same, ovlSameSb m.ofs = .ret same := by
    unfold ovlMapDevIno at h
    cases hs : ovlSameSb m.ofs with
    | ret same => exact ⟨same, rfl⟩
    | oops => rw [hs] at h; cases h
    | running => rw [hs] at h; cases h
  obtain ⟨same, hsame⟩ := hsame
  have hcond := hcons.cond hsame
  have hfill : ovlFillInode m same.isSome 0 ino fsid = m.number ino fsid :=
    ovlFillInode_eq_number hcond
  have hmap : ovlMapDevIno m.ofs m.sDev isDir (ovlFillInode m same.isSome 0 ino fsid) ⟨dev, ino⟩
      layer = .ret k → k.ino = ovlFillInode m same.isSome 0 ino fsid :=
    ovlMapDevIno_fill hm hsame hcond hlayer
  rw [hfill] at hmap
  refine hmap ?_
  cases isDir with
  | true => exact hino rfl ▸ h
  | false => exact (ovlMapDevIno_file _).trans h

/-- Directories are always hashed, and so are those that have an upper. -/
theorem NewInode.hashed_of_dir (h : NewInode m next kind upper lowerstack index d)
    (hreal : d.real.isSome = true) (hdir : d.isDir = true) : d.hashed = true := by
  rw [NumDentry.real, h.upper, h.lowerstack] at hreal
  rw [NumDentry.isDir, h.kind, decide_eq_true_eq] at hdir
  rw [h.hashed, h.constIno, hdir]
  cases hu : upper with
  | some u => rfl
  | none =>
    rw [hu] at hreal
    cases hl : lowerstack.head? with
    | none =>
      rw [hl] at hreal
      cases hreal
    | some p => simp [ovlHashBylower]

theorem numbered_of_new (hm : m.Fits) (hcons : m.Consistent)
    (hnew : ovlGetNewInode m next kind upper lowerstack index nlink upperdata = .ok d)
    (hd : d.OnMount m) : ∃ n fsid, Numbered m d n fsid := by
  obtain ⟨h, same, real, hsame, hreal, hino⟩ := ovlGetNewInode_ok hnew
  have hcons' := hcons.cond hsame
  cases hhashed : d.hashed with
  | true =>
    obtain ⟨n, hkey, -, -⟩ := h.source_eq hm hd hhashed hreal hcons'
    have hnode : d.node = d.key := by
      rw [h.hashed, ← h.upper] at hhashed
      rw [NumDentry.node, NumDentry.key]
      cases hu : d.upper with
      | some u => rw [Option.isNone_some, Bool.or_false]
      | none =>
        rw [hu] at hhashed
        rw [show d.constIno = true from hhashed]
        rfl
    refine ⟨n, d.key.2, hnode.trans (Prod.ext hkey rfl), fun call st hst => ?_⟩
    rw [inode_number_is_stat hm hnew hd hhashed hcons hst,
      h.iIno_eq hd hcons' hkey hino next, ovlFillInode_eq_number hcons']
  | false =>
    have hfile : d.isDir = false := by
      by_contra hdir
      have := h.hashed_of_dir (by rw [hreal]; rfl) (eq_true_of_ne_false hdir)
      rw [hhashed] at this
      cases this
    rw [h.hashed, ← h.upper, Bool.or_eq_false_iff, Option.isSome_eq_false_iff,
      Option.isNone_iff_eq_none] at hhashed
    have hreal' := hreal
    rw [NumDentry.real, hhashed.1] at hreal'
    obtain ⟨⟨l, n⟩, hhead, rfl⟩ := Option.map_eq_some_iff.mp hreal'
    refine ⟨n, l.fsid, ?_, fun call st hst => ?_⟩
    · rw [NumDentry.node, hhashed.1, hhead, Option.isNone_none, Bool.or_true]
      rfl
    · obtain ⟨same', real', -, hreal', hmap⟩ := ovlGetattr_ok hst
      obtain rfl : n = real' := Option.some.inj (hreal.symm.trans hreal')
      rw [NumDentry.source, hfile, hhead, hhashed.1] at hmap
      exact ovlMapDevIno_number hm hcons rfl (fun hdir => by cases hdir) hmap

/-- Copy-up keeps the number of an inode that is hashed by its lower inode. -/
theorem numbered_of_copyUp (hm : m.Fits) (hcons : m.Consistent)
    (hnew : ovlGetNewInode m next kind none lowerstack false nlink upperdata = .ok d)
    (hd : d.OnMount m) {u : RealNode σ} (hu : m.ofs.upperMnt = some u.sb) (metacopy : Bool) :
    ∃ n fsid, Numbered m (d.copyUp m u metacopy) n fsid := by
  obtain ⟨h, same, real, hsame, hreal, hino⟩ := ovlGetNewInode_ok hnew
  have hcons' := hcons.cond hsame
  have hnot : ¬ (d.isDir && !same.isSome && m.ofs.xinoBits = 0) = true := by
    intro hplain
    simp only [Bool.and_eq_true, Bool.not_eq_true', decide_eq_true_eq] at hplain
    simp [hplain.1.2, hplain.2] at hcons'
  cases hconst : d.constIno with
  | true =>
    obtain ⟨l, n, hhead, hreal', hhashed, hhash⟩ := h.lower_of_const hconst
    rw [← h.lowerstack] at hhead
    have hlink := (hd.lower _ (List.mem_of_mem_head? hhead)).2.2.1
    have hkey : d.key = (some n, l.fsid) := by
      rw [NumDentry.key, if_pos hconst, hhead]
      rfl
    refine ⟨n, l.fsid, ?_, fun call st hst => ?_⟩
    · rw [NumDentry.node, copyUp_constIno, hconst, copyUp_lowerstack, hhead]
      rfl
    · obtain ⟨same', real', hsame', -, hmap⟩ := ovlGetattr_ok hst
      obtain rfl : same = same' := Outcome.ret.inj (hsame.symm.trans hsame')
      have hindex : d.needIndex m =
          (m.indexdir && (m.verifyLower || (kind ≠ .dir && n.nlink > 1))) := by
        rw [NumDentry.needIndex, hhead, NumDentry.isDir, h.kind]
        simp
      have hsource : (d.copyUp m u metacopy).source m same.isSome real' = (n.ino, some l) := by
        refine source_of_origin hhead hconst (fun hn => by cases hn) (fun _ => ?_) hnot
        change ((d.index || d.needIndex m) || (!m.verifyLower && (d.isDir || n.nlink = 1))) = true
        rw [h.index, Bool.false_or, NumDentry.isDir, h.kind, hindex]
        exact origin_of_hashed hm hlink (by rw [hu]; rfl) hhash
      rw [hsource] at hmap
      refine ovlMapDevIno_number hm hcons rfl (fun _ => ?_) hmap
      rw [copyUp_iIno hhashed, h.iIno_eq hd hcons' (congrArg Prod.fst hkey) hino next, hkey]
      exact ovlFillInode_eq_number hcons'
  | false =>
    have hfile : d.isDir = false := by
      by_contra hdir
      have := h.hashed_of_dir (by rw [hreal]; rfl) (eq_true_of_ne_false hdir)
      rw [h.hashed, hconst] at this
      cases this
    refine ⟨u, 0, ?_, fun call st hst => ?_⟩
    · rw [NumDentry.node, copyUp_constIno, hconst, copyUp_upper]
      rfl
    · obtain ⟨same', real', -, hreal', hmap⟩ := ovlGetattr_ok hst
      obtain rfl : u = real' := Option.some.inj hreal'
      have hsource : (d.copyUp m u metacopy).source m same'.isSome u = (u.ino, none) := by
        rw [NumDentry.source, copyUp_isDir, hfile, copyUp_lowerstack, copyUp_upper,
          copyUp_constIno, hconst]
        cases d.lowerstack.head? <;> rfl
      rw [hsource, copyUp_isDir, hfile] at hmap
      exact ovlMapDevIno_number hm hcons rfl (fun hdir => by cases hdir) hmap

/-- The dentries of a mount: with a new inode, or copied up after that. -/
inductive Made (m : NumMount σ) : NumDentry σ → Prop
  | new {d : NumDentry σ} {next : ℕ} {kind : FileKind} {upper : Option (RealNode σ)}
      {lowerstack : List (OvlLayer σ × RealNode σ)} {index : Bool} {nlink : ℕ} {upperdata : Bool}
      (hnew : ovlGetNewInode m next kind upper lowerstack index nlink upperdata = .ok d)
      (hd : d.OnMount m) : Made m d
  | copyUp {d : NumDentry σ} {next : ℕ} {kind : FileKind}
      {lowerstack : List (OvlLayer σ × RealNode σ)} {nlink : ℕ} {upperdata : Bool}
      (hnew : ovlGetNewInode m next kind none lowerstack false nlink upperdata = .ok d)
      (hd : d.OnMount m) {u : RealNode σ} (hu : m.ofs.upperMnt = some u.sb) (metacopy : Bool) :
      Made m (d.copyUp m u metacopy)

theorem Made.numbered (h : Made m d) (hm : m.Fits) (hcons : m.Consistent) :
    ∃ n fsid, Numbered m d n fsid := by
  cases h with
  | new hnew hd => exact numbered_of_new hm hcons hnew hd
  | copyUp hnew hd hu metacopy => exact numbered_of_copyUp hm hcons hnew hd hu metacopy

end Numbered

section Entries

variable {σ : Type} {m : NumMount σ} {env : ReaddirEnv σ} {d : NumDentry σ} {n : RealNode σ}
  {fsid : ℕ}

/-- The entry of a real directory for a name and the dentry that the name is looked up to. A
lower entry is not that of an upper inode without an origin. -/
structure EntryOf (d : NumDentry σ) (isUpper : Bool) (realIno : ℕ) : Prop where
  upper : isUpper = true → d.upper.map RealNode.ino = some realIno
  lower : isUpper = false → d.lowerstack.head?.map (fun p => p.2.ino) = some realIno ∧
    (d.upper = none ∨ d.constIno = true)

/-- A lower entry is the inode that the number is from. -/
theorem Numbered.of_lower (h : Numbered m d n fsid) {realIno : ℕ}
    (he : EntryOf d false realIno) :
    n.ino = realIno ∧ ∃ l, d.lowerstack.head? = some (l, n) ∧ l.fsid = fsid := by
  obtain ⟨hino, hup⟩ := he.lower rfl
  have hcond : (d.constIno || d.upper.isNone) = true := by
    obtain hnone | hconst := hup
    · rw [hnone, Option.isNone_none, Bool.or_true]
    · rw [hconst, Bool.true_or]
  have hnode := h.node
  rw [NumDentry.node, if_pos hcond] at hnode
  obtain ⟨⟨l, n'⟩, hhead, hn⟩ := Option.map_eq_some_iff.mp (congrArg Prod.fst hnode)
  obtain rfl : n' = n := hn
  rw [hhead] at hino hnode
  exact ⟨Option.some.inj hino, l, hhead, congrArg Prod.snd hnode⟩

/-- So is an upper entry without an origin. -/
theorem Numbered.of_upper (h : Numbered m d n fsid) {realIno : ℕ}
    (he : EntryOf d true realIno) (horigin : (ovlPathType d).origin = false) :
    n.ino = realIno ∧ fsid = 0 := by
  obtain ⟨u, hup, hino⟩ := Option.map_eq_some_iff.mp (he.upper rfl)
  have hnode := h.node
  rw [NumDentry.node, hup, Option.isNone_some, Bool.or_false] at hnode
  cases hconst : d.constIno with
  | false =>
    rw [hconst] at hnode
    obtain rfl : u = n := Option.some.inj (congrArg Prod.fst hnode)
    exact ⟨hino, (congrArg Prod.snd hnode).symm⟩
  | true =>
    rw [if_pos hconst] at hnode
    obtain ⟨p, hhead, -⟩ := Option.map_eq_some_iff.mp (congrArg Prod.fst hnode)
    obtain ⟨rest, hlower⟩ := List.head?_eq_some_iff.mp hhead
    rw [ovlPathType, hup, hconst, hlower] at horigin
    cases horigin

/-- What `ovl_cache_update_ino` finds is what `stat` reports. -/
theorem Numbered.foundIno_eq (h : Numbered m d n fsid) {p : CacheEntry} {isUpper : Bool}
    (he : EntryOf d isUpper p.realIno) {ino : ℕ} (hok : foundIno m env p d = .ok ino) :
    ino = m.number n.ino fsid := by
  unfold foundIno at hok
  split at hok
  · obtain ⟨st, hst, hok⟩ := bind_eq_ok.mp hok
    cases hok
    exact h.stat _ _ hst
  · next horigin =>
    have horigin := eq_false_of_ne_true horigin
    cases isUpper with
    | true =>
      obtain ⟨hino, rfl⟩ := h.of_upper he horigin
      obtain ⟨u, hup, -⟩ := Option.map_eq_some_iff.mp (he.upper rfl)
      rw [ovlPathType, hup] at hok
      rw [Option.isSome_some, if_pos rfl, Bool.not_true, Bool.and_false] at hok
      cases hok
      rw [number_zero, hino]
    | false =>
      obtain ⟨hino, l, hhead, hl⟩ := h.of_lower he
      split at hok
      · next hcond =>
        obtain ⟨q, hq, hok⟩ := bind_eq_ok.mp hok
        obtain rfl : q = (l, n) := Option.some.inj ((deref_ok hq).symm.trans hhead)
        cases hok
        rw [ovlRemapLowerIno_eq_number (of_decide_eq_true (Bool.and_eq_true_iff.mp hcond).1), hl,
          hino]
      · next hcond =>
        cases hok
        have hbits : m.ofs.xinoBits = 0 := by
          by_contra hbits
          refine hcond ?_
          cases hup : d.upper with
          | none => simp [ovlPathType, hup, hbits]
          | some u =>
            obtain hnone | hc := (he.lower rfl).2
            · rw [hup] at hnone
              cases hnone
            · obtain ⟨rest, hlower⟩ := List.head?_eq_some_iff.mp hhead
              rw [ovlPathType, hup, hc, hlower] at horigin
              cases horigin
        rw [number_same hbits, hino]

/-- The number of an entry when numbers are consistent. -/
theorem Numbered.updatedIno_eq (h : Numbered m d n fsid) (hcons : m.Consistent) {p : CacheEntry}
    {isUpper : Bool} (he : EntryOf d isUpper p.realIno) (hdots : isDots p.name = false)
    (hfind : env.lookup p.name = .ok (some d)) {ino : ℕ} (hok : updatedIno m env p = .ok ino) :
    ino = m.number n.ino fsid := by
  obtain ⟨same, hsame, hok⟩ := bind_eq_ok.mp hok
  have hcond : ¬ (same.isNone && m.ofs.xinoBits = 0) = true := by
    have := hcons.cond (ofOutcome_ok hsame)
    cases same <;> simp_all
  rw [isDots, Bool.or_eq_false_iff, decide_eq_false_iff_not, decide_eq_false_iff_not] at hdots
  rw [if_neg hcond, ReaddirEnv.find, if_neg hdots.1, if_neg hdots.2, hfind] at hok
  exact h.foundIno_eq he hok

theorem ovlCacheUpdateIno_ok {p q : CacheEntry} (h : ovlCacheUpdateIno m env p = (.ok (), q)) :
    ∃ ino, updatedIno m env p = .ok ino ∧ q = { p with ino := ino } := by
  unfold ovlCacheUpdateIno at h
  split at h
  · next ino hino => exact ⟨ino, hino, (Prod.ext_iff.mp h).2.symm⟩
  · cases h

end Entries

section Impure

variable {σ : Type} {m : NumMount σ} {env : ReaddirEnv σ}

/-- What `ovl_dir_read_impure` does with an entry. -/
def impureEntry (m : NumMount σ) (env : ReaddirEnv σ) (p : CacheEntry) :
    Except StatFault CacheEntry :=
  if isDots p.name then .ok p
  else do
    let ino ← updatedIno m env p
    pure { p with ino := ino }

theorem readImpureLoop_cons {p : CacheEntry} {list tree t : List CacheEntry}
    (h : readImpureLoop m env (p :: list) tree = .ok t) :
    ∃ q, impureEntry m env p = .ok q ∧
      ((q.ino = q.realIno ∧ readImpureLoop m env list tree = .ok t) ∨
        (q.ino ≠ q.realIno ∧ readImpureLoop m env list (tree ++ [q]) = .ok t)) := by
  rw [readImpureLoop] at h
  split at h
  · cases h
  · next q hq =>
    refine ⟨q, ?_, ?_⟩
    · rw [impureEntry]
      split at hq
      · next hdots =>
        rw [if_pos hdots]
        exact congrArg Except.ok (Prod.ext_iff.mp hq).2
      · next hdots =>
        obtain ⟨ino, hino, rfl⟩ := ovlCacheUpdateIno_ok hq
        rw [if_neg hdots, hino]
        rfl
    · split at h
      · next hreal => exact .inl ⟨hreal, h⟩
      · next hown =>
        split at h
        · cases h
        · exact .inr ⟨hown, h⟩

/-- Everything in the tree is an entry that was read, with a number of its own. -/
theorem readImpureLoop_mem {list tree t : List CacheEntry}
    (h : readImpureLoop m env list tree = .ok t) {q : CacheEntry} (hq : q ∈ t) :
    q ∈ tree ∨ ∃ p ∈ list, impureEntry m env p = .ok q ∧ q.ino ≠ q.realIno := by
  induction list generalizing tree with
  | nil =>
    cases h
    exact .inl hq
  | cons p list ih =>
    obtain ⟨r, hr, hrest⟩ := readImpureLoop_cons h
    obtain ⟨-, hrest⟩ | ⟨hown, hrest⟩ := hrest
    · obtain hmem | ⟨p', hp', hq'⟩ := ih hrest
      · exact .inl hmem
      · exact .inr ⟨p', .tail _ hp', hq'⟩
    · obtain hmem | ⟨p', hp', hq'⟩ := ih hrest
      · obtain hmem | hmem := List.mem_append.mp hmem
        · exact .inl hmem
        · rw [List.mem_singleton.mp hmem]
          exact .inr ⟨p, .head _, hr, hown⟩
      · exact .inr ⟨p', .tail _ hp', hq'⟩

theorem readImpureLoop_subset {list tree t : List CacheEntry}
    (h : readImpureLoop m env list tree = .ok t) : tree ⊆ t := by
  induction list generalizing tree with
  | nil =>
    cases h
    exact List.Subset.refl _
  | cons p list ih =>
    obtain ⟨r, -, hrest⟩ := readImpureLoop_cons h
    obtain ⟨-, hrest⟩ | ⟨-, hrest⟩ := hrest
    · exact ih hrest
    · exact List.Subset.trans (List.subset_append_left ..) (ih hrest)

/-- An entry that was read is in the tree unless it has the real number. -/
theorem readImpureLoop_covers {list tree t : List CacheEntry}
    (h : readImpureLoop m env list tree = .ok t) {p : CacheEntry} (hp : p ∈ list) :
    ∃ q, impureEntry m env p = .ok q ∧ (q.ino = q.realIno ∨ q ∈ t) := by
  induction list generalizing tree with
  | nil => cases hp
  | cons p' list ih =>
    obtain ⟨q, hq, hrest⟩ := readImpureLoop_cons h
    cases hp with
    | head =>
      refine ⟨q, hq, ?_⟩
      obtain ⟨hreal, -⟩ | ⟨-, hrest⟩ := hrest
      · exact .inl hreal
      · exact .inr (readImpureLoop_subset hrest (List.mem_append_right _ (.head _)))
    | tail _ hp =>
      obtain ⟨-, hrest⟩ | ⟨-, hrest⟩ := hrest
      · exact ih hrest hp
      · exact ih hrest hp

theorem impureEntry_plain {e : DirEnt} {q : CacheEntry}
    (h : impureEntry m env (plainEntry e) = .ok q) :
    q.name = e.name ∧ q.realIno = e.ino ∧ (isDots e.name = true → q.ino = q.realIno) ∧
      (isDots e.name = false → updatedIno m env (plainEntry e) = .ok q.ino) := by
  rw [impureEntry] at h
  split at h
  · next hdots =>
    cases h
    exact ⟨rfl, rfl, fun _ => rfl, fun hd => absurd (hd.symm.trans hdots) (by decide)⟩
  · next hdots =>
    obtain ⟨ino, hino, h⟩ := bind_eq_ok.mp h
    cases h
    exact ⟨rfl, rfl, fun hd => absurd hd hdots, fun _ => hino⟩

/-- The number of every entry was found when the directory was read. -/
theorem ovlDirReadImpure_updated {es : List DirEnt} {t : List CacheEntry}
    (h : ovlDirReadImpure m env es = .ok t) {e : DirEnt} (he : e ∈ es)
    (hdots : isDots e.name = false) : ∃ ino, updatedIno m env (plainEntry e) = .ok ino := by
  obtain ⟨q, hq, -⟩ := readImpureLoop_covers h (List.mem_map_of_mem he)
  exact ⟨q.ino, (impureEntry_plain hq).2.2.2 hdots⟩

/-- What is found by a name in the tree of an impure directory is the number of the entry of
that name, if it is not the one in the directory. -/
theorem ovlDirReadImpure_find {es : List DirEnt} {t : List CacheEntry}
    (h : ovlDirReadImpure m env es = .ok t) (hnodup : (es.map DirEnt.name).Nodup)
    {name : List UInt8} {k : ℕ} :
    (t.find? fun p => p.name = name).map CacheEntry.ino = some k ↔
      ∃ e ∈ es, e.name = name ∧ isDots e.name = false ∧
        updatedIno m env (plainEntry e) = .ok k ∧ k ≠ e.ino := by
  have hmem : ∀ q ∈ t, ∃ e ∈ es, e.name = q.name ∧ isDots e.name = false ∧
      updatedIno m env (plainEntry e) = .ok q.ino ∧ q.ino ≠ e.ino := by
    intro q hq
    obtain hnil | ⟨p, hp, hentry, hown⟩ := readImpureLoop_mem h hq
    · cases hnil
    · obtain ⟨e, he, rfl⟩ := List.mem_map.mp hp
      obtain ⟨hname, hreal, hdots, hupdated⟩ := impureEntry_plain hentry
      have hnot : isDots e.name = false := eq_false_of_ne_true fun hd => hown (hdots hd)
      exact ⟨e, he, hname.symm, hnot, hupdated hnot, hreal ▸ hown⟩
  constructor
  · intro hfind
    obtain ⟨q, hq, rfl⟩ := Option.map_eq_some_iff.mp hfind
    obtain ⟨e, he, hname, hrest⟩ := hmem q (List.mem_of_find?_eq_some hq)
    exact ⟨e, he, hname.trans (by simpa using List.find?_some hq), hrest⟩
  · rintro ⟨e, he, rfl, hdots, hupdated, hown⟩
    obtain ⟨q, hq, hcover⟩ := readImpureLoop_covers h (List.mem_map_of_mem he)
    obtain ⟨hname, hreal, -, hread⟩ := impureEntry_plain hq
    obtain rfl : q.ino = k := Except.ok.inj ((hread hdots).symm.trans hupdated)
    have hqt : q ∈ t := hcover.resolve_left fun hq => hown (hq.trans hreal)
    have hsome : (t.find? fun p => p.name = e.name).isSome = true :=
      List.find?_isSome.mpr ⟨q, hqt, by simpa using hname⟩
    obtain ⟨q', hq'⟩ := Option.isSome_iff_exists.mp hsome
    obtain ⟨e', he', hname', -, hupdated', -⟩ := hmem q' (List.mem_of_find?_eq_some hq')
    have hsame : q'.name = e.name := by simpa using List.find?_some hq'
    obtain rfl : e' = e := List.inj_on_of_nodup_map hnodup he' he (hname'.trans hsame)
    rw [hq', Option.map_some, Except.ok.inj (hupdated'.symm.trans hupdated)]

end Impure

section Merged

variable {σ : Type} {m : NumMount σ} {env : ReaddirEnv σ} {d : NumDentry σ} {e : DirEnt}

/-- A file with two links that was copied up. -/
def copiedHardlink : NumDentry ℕ := lowerHardlink.copyUp indexedMount ⟨0, 9, 2, 8⟩ false

theorem copiedHardlink_made : Made indexedMount copiedHardlink :=
  have hnew : ovlGetNewInode indexedMount 0 .reg none [(⟨1, 1⟩, ⟨1, 5, 2, 8⟩)] false 2 false =
      .ok lowerHardlink := rfl
  .copyUp hnew lowerHardlink_onMount rfl false

theorem copiedHardlink_entry : EntryOf copiedHardlink true 9 := ⟨fun _ => rfl, nofun⟩

/-- A directory with the file in it, below a merged one. -/
def impureDir : ReaddirEnv ℕ where
  dir := ⟨.dir, some ⟨0, 3, 2, 8⟩, [], 3, 2, false, false, true, true⟩
  parent := ⟨.dir, some ⟨0, 2, 3, 8⟩, [(⟨1, 1⟩, ⟨1, 4, 2, 8⟩)], 2 ^ 63 + 4, 1, true, false, true,
    true⟩
  lookup := fun name => .ok (if name = [102] then some copiedHardlink else none)
  call := fun _ _ => none
  readDir := none

/-- A mount with all layers on one filesystem. -/
def oneFsMount : NumMount ℕ := ⟨⟨some 0, [], [⟨0, 0⟩], 0, false, false, .off⟩, 10, id, false, false⟩

/-- A subdirectory that was put into the upper and into the lower directory before the mount. -/
def offlineDir : NumDentry ℕ :=
  ⟨.dir, some ⟨0, 9, 2, 8⟩, [(⟨0, 0⟩, ⟨0, 5, 2, 8⟩)], 5, 2, true, false, true, true⟩

/-- It has an origin and nothing has marked its parent as impure: the number in the upper
directory is emitted, and `stat` reports the lower one. -/
theorem merged_d_ino_is_stat_offline :
    Made oneFsMount offlineDir ∧ oneFsMount.Fits ∧
      mergedIno oneFsMount { impureDir with lookup := fun _ => .ok (some offlineDir) }
        (newEntry ⟨true, false, false, false⟩ ⟨[102], 9, 4⟩) = .ok 9 ∧
      (ovlGetattr oneFsMount (fun _ => none) offlineDir).map OvlStat.ino = .ok 5 := by
  have hnew : ovlGetNewInode oneFsMount 0 .dir (some ⟨0, 9, 2, 8⟩) [(⟨0, 0⟩, ⟨0, 5, 2, 8⟩)] false 2
      true = .ok offlineDir := rfl
  refine ⟨.new hnew ⟨fun u hu => ?_, fun p hp => ?_⟩,
    ⟨⟨by decide, by decide, fun l hl => ?_⟩, fun _ _ => rfl, rfl, rfl, fun _ h => by cases h⟩,
    rfl, rfl⟩
  · cases hu
    exact ⟨rfl, by decide⟩
  · obtain rfl := List.mem_singleton.mp hp
    exact ⟨.head _, rfl, by decide, by decide⟩
  · obtain rfl := List.mem_singleton.mp hl
    exact .inl ⟨rfl, rfl⟩

end Merged

end FzzOverlay

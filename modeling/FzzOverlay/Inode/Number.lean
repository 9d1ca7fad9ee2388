import FzzOverlay.CopyUp.Tree
import FzzOverlay.Super.Mounted

/-!
# Inode numbers

`ovl_getattr`, `ovl_fill_inode`, `ovl_hash_bylower` and the part of `ovl_get_inode` of
`inode.c` that is about inode numbers, with `ovl_path_type` and `ovl_inode_update` of
`util.c`. Numbers are those of a 64-bit machine.

## Main definitions

- `NumMount`, `NumDentry` — a mount and an overlay dentry, as far as numbers go
- `ovlGetattr`, `ovlGetNewInode` — what `stat` reports, and a new inode
- `NumDentry.copyUp` — what copy-up changes
- `constant_inode_number` — copy-up does not change what `stat` reports
- `inode_number_is_stat` — the number of an inode is the one `stat` reports
-/

namespace FzzOverlay

/-- How a call ends that does not succeed. -/
inductive StatFault where
  | errno (e : Errno)
  | oops

/-- An inode of a real filesystem. -/
structure RealNode (σ : Type) where
  sb : σ
  ino : ℕ
  nlink : ℕ
  blocks : ℕ

/-- The fields of `struct kstat` that `ovl_getattr` changes. -/
structure OvlStat where
  dev : ℕ
  ino : ℕ
  nlink : ℕ
  blocks : ℕ

/-- A mount. `realDev` is the device of a real filesystem and `sDev` that of the overlay. -/
structure NumMount (σ : Type) where
  ofs : OvlFs σ
  sDev : ℕ
  realDev : σ → ℕ
  indexdir : Bool
  exportOp : Bool

/-- A dentry with its inode: `i_ino`, `i_nlink`, the flags, and whether the inode is hashed. -/
structure NumDentry (σ : Type) where
  kind : FileKind
  upper : Option (RealNode σ)
  lowerstack : List (OvlLayer σ × RealNode σ)
  iIno : ℕ
  iNlink : ℕ
  constIno : Bool
  index : Bool
  upperdata : Bool
  hashed : Bool

/-- `enum ovl_path_type`. -/
structure PathType where
  upper : Bool
  origin : Bool
  merge : Bool

/-- The calls of `ovl_getattr`. -/
inductive GetattrCall where
  | real | lower | lowerdata

section Defs

variable {σ : Type}

def ofOutcome {α : Type} : Outcome α → Except StatFault α
  | .ret a => .ok a
  | .oops | .running => .error .oops

/-- A pointer that is used. -/
def deref {α : Type} : Option α → Except StatFault α
  | some a => .ok a
  | none => .error .oops

def vfsGetattr : Option Errno → Except StatFault Unit
  | none => .ok ()
  | some e => .error (.errno e)

def NumMount.statOf (m : NumMount σ) (n : RealNode σ) : OvlStat :=
  ⟨m.realDev n.sb, n.ino, n.nlink, n.blocks⟩

/-- `ovl_verify_lower`, and `ovl_index_all`, which is the same. -/
def NumMount.verifyLower (m : NumMount σ) : Bool := m.ofs.nfsExport && m.ofs.index

def NumDentry.isDir (d : NumDentry σ) : Bool := d.kind = .dir

/-- `ovl_dentry_real`. -/
def NumDentry.real (d : NumDentry σ) : Option (RealNode σ) :=
  d.upper.or (d.lowerstack.head?.map Prod.snd)

def ovlPathType (d : NumDentry σ) : PathType :=
  if d.upper.isSome then
    ⟨true, !d.lowerstack.isEmpty && d.constIno,
      !d.lowerstack.isEmpty && (d.isDir || !d.upperdata)⟩
  else ⟨false, false, d.lowerstack.length > 1⟩

def ovlIsMetacopyDentry (d : NumDentry σ) : Bool :=
  if d.kind ≠ .reg then false
  else if d.upper.isSome then !d.upperdata
  else d.lowerstack.length > 1

/-- What `ovl_getattr` has found so far: the attributes, the layer that the number is from,
and whether the blocks are still those of a metacopy inode. -/
structure Taken (σ : Type) where
  stat : OvlStat
  layer : Option (OvlLayer σ)
  metacopyBlocks : Bool

/-- The branch for an upper with an origin. -/
def takeOrigin (m : NumMount σ) (call : GetattrCall → Option Errno) (d : NumDentry σ)
    (t : Taken σ) : Except StatFault (Taken σ) := do
  let (layer, lower) ← deref d.lowerstack.head?
  vfsGetattr (call .lower)
  let t := if d.index || (!m.verifyLower && (d.isDir || lower.nlink = 1)) then
    { t with stat := { t.stat with ino := lower.ino }, layer := some layer } else t
  if t.metacopyBlocks && d.lowerstack.length = 1 then
    pure { t with stat := { t.stat with blocks := lower.blocks }, metacopyBlocks := false }
  else pure t

/-- The blocks of a metacopy inode are those of the lower data. -/
def takeBlocks (call : GetattrCall → Option Errno) (d : NumDentry σ) (t : Taken σ) :
    Except StatFault (Taken σ) :=
  if t.metacopyBlocks then do
    let (_, data) ← deref d.lowerstack.getLast?
    vfsGetattr (call .lowerdata)
    pure { t with stat := { t.stat with blocks := data.blocks } }
  else pure t

/-- The number is that of the lower inode, of the origin or of the upper inode. -/
def takeNumber (m : NumMount σ) (call : GetattrCall → Option Errno) (d : NumDentry σ)
    (t : Taken σ) : Except StatFault (Taken σ) :=
  if !(ovlPathType d).upper then
    pure { t with layer := d.lowerstack.head?.map Prod.fst }
  else if (ovlPathType d).origin then takeOrigin m call d t
  else pure t

/-- What `ovl_getattr` takes from where, if `same` says that all layers are on one
filesystem. -/
def takeStat (m : NumMount σ) (same : Bool) (call : GetattrCall → Option Errno)
    (d : NumDentry σ) (stat : OvlStat) : Except StatFault (Taken σ) :=
  if !d.isDir || same || m.ofs.xinoBits ≠ 0 then do
    let t ← takeNumber m call d ⟨stat, none, ovlIsMetacopyDentry d⟩
    takeBlocks call d t
  else pure ⟨stat, none, false⟩

/-- How `ovl_getattr` reports link counts. -/
def NumDentry.withNlink (d : NumDentry σ) (stat : OvlStat) : OvlStat :=
  if d.isDir then if (ovlPathType d).merge then { stat with nlink := 1 } else stat
  else if d.index then { stat with nlink := d.iNlink }
  else stat

def ovlGetattr (m : NumMount σ) (call : GetattrCall → Option Errno) (d : NumDentry σ) :
    Except StatFault OvlStat := do
  let same ← ofOutcome (ovlSameSb m.ofs)
  let real ← deref d.real
  vfsGetattr (call .real)
  let t ← takeStat m same.isSome call d (m.statOf real)
  let k ← ofOutcome (ovlMapDevIno m.ofs m.sDev d.isDir d.iIno ⟨t.stat.dev, t.stat.ino⟩ t.layer)
  pure (d.withNlink { t.stat with dev := k.dev, ino := k.ino })

/-- `ovl_hash_bylower`. -/
def ovlHashBylower (m : NumMount σ) (kind : FileKind) (upper : Option (RealNode σ))
    (lower : Option (RealNode σ)) (index : Bool) : Bool :=
  match lower with
  | none => false
  | some n =>
    if index then true
    else if m.ofs.upperMnt.isNone then true
    else if (upper.isSome || !m.indexdir) && kind ≠ .dir && n.nlink > 1 then false
    else if m.exportOp && upper.isSome then false
    else true

/-- The number that `ovl_fill_inode` gives; `next` is what `get_next_ino` returns. -/
def ovlFillInode (m : NumMount σ) (same : Bool) (next ino fsid : ℕ) : ℕ :=
  if same || m.ofs.xinoBits ≠ 0 then
    if m.ofs.xinoBits ≠ 0 ∧ fsid ≠ 0 ∧ ino >>> (64 - m.ofs.xinoBits) = 0 then
      ino ||| (fsid <<< (64 - m.ofs.xinoBits)) % 2 ^ 64
    else ino
  else next

/-- `ovl_get_inode` with `ovl_inode_init` for an inode that is not in the cache; `nlink` is
the link count it gets and `upperdata` says that the upper is no metacopy inode. -/
def ovlGetNewInode (m : NumMount σ) (next : ℕ) (kind : FileKind) (upper : Option (RealNode σ))
    (lowerstack : List (OvlLayer σ × RealNode σ)) (index : Bool) (nlink : ℕ)
    (upperdata : Bool) : Except StatFault (NumDentry σ) := do
  let same ← ofOutcome (ovlSameSb m.ofs)
  let lower := lowerstack.head?
  let real ← deref (upper.or (lower.map Prod.snd))
  let bylower := ovlHashBylower m kind upper (lower.map Prod.snd) index
  let fsid := if bylower then (lower.map fun l => l.1.fsid).getD 0 else 0
  let key := if bylower then lower.map Prod.snd else upper
  let iIno := ovlFillInode m same.isSome next ((key.map RealNode.ino).getD 0) fsid
  pure {
    kind := kind
    upper := upper
    lowerstack := lowerstack
    iIno := if iIno = 0 then real.ino else iIno
    iNlink := nlink
    constIno := bylower
    index := index
    upperdata := upper.isSome && upperdata
    hashed := upper.isSome || bylower }

/-- `ovl_need_index`. -/
def NumDentry.needIndex (d : NumDentry σ) (m : NumMount σ) : Bool :=
  match d.lowerstack.head? with
  | none => false
  | some (_, lower) => m.indexdir && (m.verifyLower || (!d.isDir && lower.nlink > 1))

/-- Copy-up to the inode `u`, with `ovl_inode_update`. -/
def NumDentry.copyUp (d : NumDentry σ) (m : NumMount σ) (u : RealNode σ) (metacopy : Bool) :
    NumDentry σ :=
  { d with
    upper := some u
    index := d.index || d.needIndex m
    upperdata := d.upperdata || !metacopy
    iIno := if !d.hashed && d.iIno = 0 then u.ino else d.iIno
    hashed := true }

@[simp] theorem copyUp_upper (d : NumDentry σ) (m : NumMount σ) (u : RealNode σ)
    (metacopy : Bool) : (d.copyUp m u metacopy).upper = some u := rfl

@[simp] theorem copyUp_lowerstack (d : NumDentry σ) (m : NumMount σ) (u : RealNode σ)
    (metacopy : Bool) : (d.copyUp m u metacopy).lowerstack = d.lowerstack := rfl

@[simp] theorem copyUp_constIno (d : NumDentry σ) (m : NumMount σ) (u : RealNode σ)
    (metacopy : Bool) : (d.copyUp m u metacopy).constIno = d.constIno := rfl

@[simp] theorem copyUp_isDir (d : NumDentry σ) (m : NumMount σ) (u : RealNode σ)
    (metacopy : Bool) : (d.copyUp m u metacopy).isDir = d.isDir := rfl

theorem copyUp_iIno {d : NumDentry σ} (hhashed : d.hashed = true) (m : NumMount σ)
    (u : RealNode σ) (metacopy : Bool) : (d.copyUp m u metacopy).iIno = d.iIno := by
  change (if !d.hashed && d.iIno = 0 then u.ino else d.iIno) = d.iIno
  rw [hhashed]
  rfl

end Defs

section Source

variable {σ : Type} {m : NumMount σ} {d : NumDentry σ}

/-- The number that `ovl_getattr` starts from, and the layer it is from, if that is lower. -/
def NumDentry.source (d : NumDentry σ) (m : NumMount σ) (same : Bool) (real : RealNode σ) :
    ℕ × Option (OvlLayer σ) :=
  if d.isDir && !same && m.ofs.xinoBits = 0 then (real.ino, none)
  else
    match d.lowerstack.head? with
    | none => (real.ino, none)
    | some (l, n) =>
      if d.upper.isNone then (real.ino, some l)
      else if d.constIno && (d.index || (!m.verifyLower && (d.isDir || n.nlink = 1))) then
        (n.ino, some l)
      else (real.ino, none)

theorem ofOutcome_ok {α : Type} {x : Outcome α} {a : α} (h : ofOutcome x = .ok a) :
    x = .ret a := by
  cases x with
  | ret b =>
    cases h
    rfl
  | oops => cases h
  | running => cases h

theorem deref_ok {α : Type} {x : Option α} {a : α} (h : deref x = .ok a) : x = some a := by
  cases x with
  | none => cases h
  | some b =>
    cases h
    rfl

/-- The blocks have nothing to do with the number. -/
theorem takeBlocks_ok {call : GetattrCall → Option Errno} {t u : Taken σ}
    (h : takeBlocks call d t = .ok u) :
    u.stat.ino = t.stat.ino ∧ u.stat.dev = t.stat.dev ∧ u.layer = t.layer := by
  unfold takeBlocks at h
  split at h
  · obtain ⟨data, -, h⟩ := bind_eq_ok.mp h
    obtain ⟨-, -, h⟩ := bind_eq_ok.mp h
    cases h
    exact ⟨rfl, rfl, rfl⟩
  · cases h
    exact ⟨rfl, rfl, rfl⟩

theorem takeOrigin_ok {call : GetattrCall → Option Errno} {t u : Taken σ}
    (h : takeOrigin m call d t = .ok u) :
    ∃ l n, d.lowerstack.head? = some (l, n) ∧ u.stat.dev = t.stat.dev ∧
      (u.stat.ino, u.layer) =
        if d.index || (!m.verifyLower && (d.isDir || n.nlink = 1)) then (n.ino, some l)
        else (t.stat.ino, t.layer) := by
  obtain ⟨⟨l, n⟩, hhead, h⟩ := bind_eq_ok.mp h
  obtain ⟨-, -, h⟩ := bind_eq_ok.mp h
  refine ⟨l, n, deref_ok hhead, ?_⟩
  dsimp only at h
  by_cases hcond : (d.index || (!m.verifyLower && (d.isDir || n.nlink = 1))) = true
  · rw [if_pos hcond] at h ⊢
    split at h <;> cases h <;> exact ⟨rfl, rfl⟩
  · rw [if_neg hcond] at h ⊢
    split at h <;> cases h <;> exact ⟨rfl, rfl⟩

theorem takeNumber_ok {call : GetattrCall → Option Errno} {t u : Taken σ} {same : Bool}
    {real : RealNode σ} (hino : t.stat.ino = real.ino) (hlayer : t.layer = none)
    (hcons : (!d.isDir || same || m.ofs.xinoBits ≠ 0) = true)
    (h : takeNumber m call d t = .ok u) :
    u.stat.dev = t.stat.dev ∧ (u.stat.ino, u.layer) = d.source m same real := by
  have hnot : ¬ (d.isDir && !same && m.ofs.xinoBits = 0) = true := by
    cases hd : d.isDir <;> cases hs : same <;> simp_all
  rw [NumDentry.source, if_neg hnot]
  have hreal : (t.stat.ino, t.layer) = (real.ino, none) := by rw [hino, hlayer]
  cases hup : d.upper with
  | none =>
    rw [takeNumber, ovlPathType, hup] at h
    cases h
    refine ⟨rfl, ?_⟩
    cases d.lowerstack.head? with
    | none => exact congrArg (·, none) hino
    | some p => exact congrArg (·, some p.1) hino
  | some up =>
    rw [takeNumber, ovlPathType, hup] at h
    cases hl : d.lowerstack with
    | nil =>
      rw [hl] at h
      cases h
      exact ⟨rfl, hreal⟩
    | cons p rest =>
      rw [hl] at h
      cases hconst : d.constIno with
      | false =>
        rw [hconst] at h
        cases h
        exact ⟨rfl, hreal⟩
      | true =>
        rw [hconst] at h
        obtain ⟨l, n, hhead, hdev, hnum⟩ := takeOrigin_ok h
        rw [hl] at hhead
        obtain rfl : p = (l, n) := Option.some.inj hhead
        exact ⟨hdev, hnum.trans (by rw [hreal]; rfl)⟩

/-- What `stat` reports comes from `ovl_map_dev_ino`. -/
theorem ovlGetattr_ok {call : GetattrCall → Option Errno} {st : OvlStat}
    (h : ovlGetattr m call d = .ok st) :
    ∃ same real, ovlSameSb m.ofs = .ret same ∧ d.real = some real ∧
      ovlMapDevIno m.ofs m.sDev d.isDir d.iIno
        ⟨m.realDev real.sb, (d.source m same.isSome real).1⟩ (d.source m same.isSome real).2 =
          .ret ⟨st.dev, st.ino⟩ := by
  obtain ⟨same, hsame, h⟩ := bind_eq_ok.mp h
  obtain ⟨real, hreal, h⟩ := bind_eq_ok.mp h
  obtain ⟨-, -, h⟩ := bind_eq_ok.mp h
  obtain ⟨t, ht, h⟩ := bind_eq_ok.mp h
  obtain ⟨k, hk, h⟩ := bind_eq_ok.mp h
  refine ⟨same, real, ofOutcome_ok hsame, deref_ok hreal, ?_⟩
  have hst : (⟨st.dev, st.ino⟩ : Kstat) = k := by
    cases h
    unfold NumDentry.withNlink
    split_ifs <;> rfl
  rw [hst, ← ofOutcome_ok hk]
  unfold takeStat at ht
  split at ht
  · next hcons =>
    obtain ⟨u, hu, hblocks⟩ := bind_eq_ok.mp ht
    obtain ⟨hino, hdev, hlayer⟩ := takeBlocks_ok hblocks
    obtain ⟨hdev', hnum⟩ := takeNumber_ok (rfl : _ = real.ino) rfl hcons hu
    rw [← hnum, hino, hdev, hlayer, hdev']
    rfl
  · next hcons =>
    cases ht
    rw [NumDentry.source, if_pos]
    · rfl
    · cases hd : d.isDir <;> cases hs : same.isSome <;> simp_all

end Source

section Fits

variable {σ : Type}

/-- What a mount has when it is set up: the table of filesystems, and no bits of the inode
number are used on a single filesystem. -/
structure NumMount.Fits (m : NumMount σ) : Prop where
  table : FsidTable m.ofs
  same : ∀ sb, ovlSameSb m.ofs = .ret (some sb) → m.ofs.xinoBits = 0
  index : m.ofs.index = m.indexdir
  exported : m.exportOp = m.ofs.nfsExport
  exportIndex : m.ofs.upperMnt.isSome = true → m.ofs.nfsExport = true → m.ofs.index = true

/-- The dentry is one of the mount: its real inodes are on the layers, and have a link and a
number. -/
structure NumDentry.OnMount (d : NumDentry σ) (m : NumMount σ) : Prop where
  upper : ∀ u, d.upper = some u → m.ofs.upperMnt = some u.sb ∧ u.ino ≠ 0
  lower : ∀ p ∈ d.lowerstack, p.1 ∈ m.ofs.lowerLayers ∧ p.1.sb = p.2.sb ∧ 1 ≤ p.2.nlink ∧
    p.2.ino ≠ 0

/-- Two inodes with the same number and layer are mapped alike, when they agree in what is
used otherwise: the number of a directory and the device of the upper filesystem. -/
theorem ovlMapDevIno_congr {ofs : OvlFs σ} {sDev iIno iIno' ino dev dev' : ℕ} {isDir : Bool}
    {l : OvlLayer σ} (hdev : l.fsid = 0 → dev = dev') (hino : isDir = true → iIno = iIno') :
    ovlMapDevIno ofs sDev isDir iIno ⟨dev, ino⟩ (some l) =
      ovlMapDevIno ofs sDev isDir iIno' ⟨dev', ino⟩ (some l) := by
  have hsame : ovlMapDevIno ofs sDev isDir iIno ⟨dev, ino⟩ (some l) =
      ovlMapDevIno ofs sDev isDir iIno ⟨dev', ino⟩ (some l) := by
    by_cases hl : l.fsid = 0
    · rw [hdev hl]
    · unfold ovlMapDevIno
      simp only [Option.map_some, Option.getD_some, hl, if_false]
  rw [hsame]
  cases isDir with
  | true => rw [hino rfl]
  | false =>
    unfold ovlMapDevIno
    simp only [Bool.false_eq_true, if_false]

/-- A directory is not mapped when there is no way to. -/
theorem ovlMapDevIno_plain {ofs : OvlFs σ} {sDev iIno : ℕ} {stat : Kstat}
    {layer : Option (OvlLayer σ)} (hsame : ovlSameSb ofs = .ret none) (hbits : ofs.xinoBits = 0) :
    ovlMapDevIno ofs sDev true iIno stat layer = .ret ⟨sDev, iIno⟩ := by
  rw [ovlMapDevIno, hsame]
  dsimp only
  rw [if_neg fun h => h.1 hbits, if_pos rfl]

/-- The number in the inode is the one that `ovl_map_dev_ino` gives. -/
theorem ovlMapDevIno_fill {m : NumMount σ} (hm : m.Fits) {same : Option σ}
    (hsame : ovlSameSb m.ofs = .ret same) (hcons : (same.isSome || m.ofs.xinoBits ≠ 0) = true)
    {next ino fsid dev : ℕ} {isDir : Bool} {layer : Option (OvlLayer σ)} {k : Kstat}
    (hlayer : (layer.map OvlLayer.fsid).getD 0 = fsid)
    (h : ovlMapDevIno m.ofs m.sDev isDir (ovlFillInode m same.isSome next ino fsid) ⟨dev, ino⟩
      layer = .ret k) : k.ino = ovlFillInode m same.isSome next ino fsid := by
  rw [ovlMapDevIno, hsame, hlayer] at h
  rw [ovlFillInode, if_pos hcons] at h ⊢
  cases same with
  | some sb =>
    cases h
    rw [if_neg]
    exact fun hx => hx.1 (hm.same sb hsame)
  | none =>
    have hbits : m.ofs.xinoBits ≠ 0 := by simpa using hcons
    dsimp only at h
    by_cases hfit : ino >>> (64 - m.ofs.xinoBits) = 0
    · rw [if_pos ⟨hbits, hfit⟩] at h
      cases h
      by_cases hfsid : fsid = 0
      · rw [if_neg fun hx => hx.2.1 hfsid, hfsid]
        simp
      · rw [if_pos ⟨hbits, hfsid, hfit⟩]
    · rw [if_neg fun hx => hfit hx.2] at h
      have hfill : ¬ (m.ofs.xinoBits ≠ 0 ∧ fsid ≠ 0 ∧ ino >>> (64 - m.ofs.xinoBits) = 0) :=
        fun hx => hfit hx.2.2
      rw [if_neg hfill] at h ⊢
      by_cases hdir : isDir = true
      · rw [if_pos hdir] at h
        cases h
        rfl
      · rw [if_neg hdir] at h
        by_cases hfsid : fsid = 0
        · rw [if_pos hfsid] at h
          cases h
          rfl
        · rw [if_neg hfsid] at h
          cases hfs : m.ofs.lowerFs[fsid - 1]? with
          | none => rw [hfs] at h; cases h
          | some fs => rw [hfs] at h; cases h; rfl

/-- A lower inode that its overlay inode is hashed by is the origin of its copy-up. -/
theorem origin_of_hashed {m : NumMount σ} (hm : m.Fits) {kind : FileKind} {n : RealNode σ}
    (hn : 1 ≤ n.nlink) (hup : m.ofs.upperMnt.isSome = true)
    (hhash : ovlHashBylower m kind none (some n) false = true) :
    (m.indexdir && (m.verifyLower || (kind ≠ .dir && n.nlink > 1)) ||
      (!m.verifyLower && (kind = .dir || n.nlink = 1))) = true := by
  have hverify : m.verifyLower = true → m.indexdir = true := fun h =>
    hm.index ▸ (Bool.and_eq_true_iff.mp h).2
  have hmnt : m.ofs.upperMnt.isNone = false := by
    rw [← Option.not_isSome, hup]
    rfl
  simp only [ovlHashBylower, hmnt, Option.isSome_none, Bool.false_or, Bool.and_false,
    Bool.false_eq_true, if_false] at hhash
  cases hv : m.verifyLower with
  | true => simp [hverify hv]
  | false =>
    cases hi : m.indexdir <;> by_cases hk : kind = .dir <;> by_cases hl : 1 < n.nlink <;>
      simp_all <;> omega

/-- So is the one whose upper was found already. -/
theorem origin_of_hashed_upper {m : NumMount σ} (hm : m.Fits) {kind : FileKind}
    {n u : RealNode σ} {index : Bool} (hn : 1 ≤ n.nlink) (hup : m.ofs.upperMnt.isSome = true)
    (hhash : ovlHashBylower m kind (some u) (some n) index = true) :
    (index || (!m.verifyLower && (kind = .dir || n.nlink = 1))) = true := by
  cases index with
  | true => rfl
  | false =>
    have hmnt : m.ofs.upperMnt.isNone = false := by
      rw [← Option.not_isSome, hup]
      rfl
    have hverify : m.exportOp = false → m.verifyLower = false := by
      intro h
      rw [NumMount.verifyLower, ← hm.exported, h, Bool.false_and]
    simp only [ovlHashBylower, hmnt, Option.isSome_some, Bool.true_or, Bool.and_true,
      Bool.false_eq_true, if_false] at hhash
    by_cases hk : kind = .dir <;> by_cases hl : 1 < n.nlink <;> cases he : m.exportOp <;>
      simp_all
    omega

/-- An upper with its index, if it needs one, is hashed by its origin again. -/
theorem hashed_again {m : NumMount σ} (hm : m.Fits) {kind : FileKind} {n u : RealNode σ}
    (hup : m.ofs.upperMnt.isSome = true)
    (hhash : ovlHashBylower m kind none (some n) false = true) :
    ovlHashBylower m kind (some u) (some n)
      (m.indexdir && (m.verifyLower || (kind ≠ .dir && n.nlink > 1))) = true := by
  have hmnt : m.ofs.upperMnt.isNone = false := by
    rw [← Option.not_isSome, hup]
    rfl
  have hexport : m.exportOp = true → m.indexdir = true ∧ m.verifyLower = true := by
    intro h
    have hindex := hm.exportIndex hup (hm.exported ▸ h)
    exact ⟨hm.index ▸ hindex, Bool.and_eq_true_iff.mpr ⟨hm.exported ▸ h, hindex⟩⟩
  simp only [ovlHashBylower, hmnt, Option.isSome_none, Bool.false_or, Bool.and_false,
    Bool.false_eq_true, if_false, Option.isSome_some, Bool.true_or, Bool.true_and,
    Bool.and_true] at hhash ⊢
  cases he : m.exportOp with
  | true => simp [hexport he]
  | false =>
    cases hi : m.indexdir <;> by_cases hk : kind = .dir <;> by_cases hl : 1 < n.nlink <;>
      simp_all

end Fits

section New

variable {σ : Type} {m : NumMount σ} {d : NumDentry σ} {next nlink : ℕ}
  {kind : FileKind} {upper : Option (RealNode σ)} {index upperdata : Bool}
  {lowerstack : List (OvlLayer σ × RealNode σ)}

/-- What a new inode is like. -/
structure NewInode (m : NumMount σ) (next : ℕ) (kind : FileKind) (upper : Option (RealNode σ))
    (lowerstack : List (OvlLayer σ × RealNode σ)) (index : Bool) (d : NumDentry σ) : Prop where
  constIno : d.constIno =
    ovlHashBylower m kind upper (lowerstack.head?.map Prod.snd) index
  hashed : d.hashed = (upper.isSome || d.constIno)
  kind : d.kind = kind
  upper : d.upper = upper
  lowerstack : d.lowerstack = lowerstack
  index : d.index = index

theorem ovlGetNewInode_ok
    (h : ovlGetNewInode m next kind upper lowerstack index nlink upperdata = .ok d) :
    NewInode m next kind upper lowerstack index d ∧
      ∃ same real, ovlSameSb m.ofs = .ret same ∧ d.real = some real ∧
        d.iIno = (
          let iIno := ovlFillInode m same.isSome next
            (((if d.constIno then lowerstack.head?.map Prod.snd else upper).map
              RealNode.ino).getD 0)
            (if d.constIno then (lowerstack.head?.map fun l => l.1.fsid).getD 0 else 0)
          if iIno = 0 then real.ino else iIno) := by
  obtain ⟨same, hsame, h⟩ := bind_eq_ok.mp h
  obtain ⟨real, hreal, h⟩ := bind_eq_ok.mp h
  cases h
  exact ⟨⟨rfl, rfl, rfl, rfl, rfl, rfl⟩, same, real, ofOutcome_ok hsame, deref_ok hreal, rfl⟩

/-- The inode that the number of a new inode is from, and its fsid. -/
def NumDentry.key (d : NumDentry σ) : Option (RealNode σ) × ℕ :=
  if d.constIno then
    (d.lowerstack.head?.map Prod.snd, (d.lowerstack.head?.map fun l => l.1.fsid).getD 0)
  else (d.upper, 0)

/-- `stat` takes the number of a hashed inode from the same place. -/
theorem NewInode.source_eq (hm : m.Fits) (h : NewInode m next kind upper lowerstack index d)
    (hd : d.OnMount m) (hhashed : d.hashed = true) {same : Bool} {real : RealNode σ}
    (hreal : d.real = some real) (hcons : (same || m.ofs.xinoBits ≠ 0) = true) :
    ∃ n, d.key.1 = some n ∧ (d.source m same real).1 = n.ino ∧
      ((d.source m same real).2.map OvlLayer.fsid).getD 0 = d.key.2 := by
  have hnot : ¬ (d.isDir && !same && m.ofs.xinoBits = 0) = true := by
    cases d.isDir <;> cases hs : same <;> simp_all
  rw [NumDentry.source, if_neg hnot, NumDentry.key]
  rw [NumDentry.real] at hreal
  have hconst := h.constIno
  rw [← h.lowerstack, ← h.upper, ← h.index, ← h.kind] at hconst
  cases hup : d.upper with
  | none =>
    rw [hup] at hreal
    obtain ⟨⟨l, n⟩, hhead, rfl⟩ := Option.map_eq_some_iff.mp hreal
    have hc : d.constIno = true := by
      rw [h.hashed, ← h.upper, hup] at hhashed
      exact hhashed
    rw [hc, hhead]
    exact ⟨n, rfl, rfl, rfl⟩
  | some u =>
    rw [hup] at hreal hconst
    obtain rfl : u = real := Option.some.inj hreal
    cases hhead : d.lowerstack.head? with
    | none =>
      rw [hhead] at hconst
      rw [hconst]
      exact ⟨u, rfl, rfl, rfl⟩
    | some p =>
      obtain ⟨l, n⟩ := p
      rw [hhead] at hconst
      cases hc : d.constIno with
      | false => exact ⟨u, rfl, rfl, rfl⟩
      | true =>
        have hmem : (l, n) ∈ d.lowerstack := List.mem_of_mem_head? hhead
        have hcond := origin_of_hashed_upper hm (hd.lower _ hmem).2.2.1
          (by rw [(hd.upper u hup).1]; rfl) (hconst ▸ hc)
        have hsource : (if (true && (d.index || (!m.verifyLower && (d.isDir || n.nlink = 1))))
            then (n.ino, some l) else (u.ino, none)) = (n.ino, some l) := if_pos hcond
        exact ⟨n, rfl, congrArg Prod.fst hsource,
          congrArg (fun q => (q.2.map OvlLayer.fsid).getD 0) hsource⟩

/-- `i_ino` is made from the number that the inode is hashed by. -/
theorem NewInode.iIno_eq (h : NewInode m next kind upper lowerstack index d)
    (hd : d.OnMount m) {same : Bool} {real n : RealNode σ}
    (hcons : (same || m.ofs.xinoBits ≠ 0) = true) (hkey : d.key.1 = some n)
    (hino : d.iIno = (
      let iIno := ovlFillInode m same next
        (((if d.constIno then lowerstack.head?.map Prod.snd else upper).map
          RealNode.ino).getD 0)
        (if d.constIno then (lowerstack.head?.map fun l => l.1.fsid).getD 0 else 0)
      if iIno = 0 then real.ino else iIno)) :
    ∀ next', d.iIno = ovlFillInode m same next' n.ino d.key.2 := by
  have hkey' : (if d.constIno then lowerstack.head?.map Prod.snd else upper) = some n ∧
      (if d.constIno then (lowerstack.head?.map fun l => l.1.fsid).getD 0 else 0) = d.key.2 := by
    rw [← h.lowerstack, ← h.upper]
    rw [NumDentry.key] at hkey ⊢
    split at hkey
    · next hc => exact ⟨(if_pos hc).trans hkey, by rw [if_pos hc, if_pos hc]⟩
    · next hc => exact ⟨(if_neg hc).trans hkey, by rw [if_neg hc, if_neg hc]⟩
  have hne : n.ino ≠ 0 := by
    rw [NumDentry.key] at hkey
    split at hkey
    · obtain ⟨p, hhead, rfl⟩ := Option.map_eq_some_iff.mp hkey
      exact (hd.lower p (List.mem_of_mem_head? hhead)).2.2.2
    · exact (hd.upper n hkey).2
  rw [hkey'.1, hkey'.2] at hino
  have hfill : ovlFillInode m same next n.ino d.key.2 ≠ 0 := by
    rw [ovlFillInode, if_pos hcons]
    split
    · exact fun h0 => hne (Nat.or_eq_zero_iff.mp h0).1
    · exact hne
  intro next'
  rw [hino]
  dsimp only [Option.map_some, Option.getD_some]
  rw [if_neg hfill, ovlFillInode, ovlFillInode, if_pos hcons, if_pos hcons]

end New

section Result

variable {σ : Type} {m : NumMount σ} {d : NumDentry σ} {next nlink : ℕ} {kind : FileKind}
  {upper : Option (RealNode σ)} {index upperdata : Bool}
  {lowerstack : List (OvlLayer σ × RealNode σ)} {call : GetattrCall → Option Errno} {st : OvlStat}

/-- When all layers are on one filesystem, or numbers are mapped, `i_ino` is what `stat`
reports. -/
theorem inode_number_is_stat (hm : m.Fits)
    (hnew : ovlGetNewInode m next kind upper lowerstack index nlink upperdata = .ok d)
    (hd : d.OnMount m) (hhashed : d.hashed = true)
    (hcons : (∃ sb, ovlSameSb m.ofs = .ret (some sb)) ∨ m.ofs.xinoBits ≠ 0)
    (hst : ovlGetattr m call d = .ok st) : st.ino = d.iIno := by
  obtain ⟨h, same, real, hsame, hreal, hino⟩ := ovlGetNewInode_ok hnew
  obtain ⟨same', real', hsame', hreal', hmap⟩ := ovlGetattr_ok hst
  obtain rfl : same = same' := Outcome.ret.inj (hsame.symm.trans hsame')
  obtain rfl : real = real' := Option.some.inj (hreal.symm.trans hreal')
  have hcons' : (same.isSome || m.ofs.xinoBits ≠ 0) = true := by
    obtain ⟨sb, hsb⟩ | hbits := hcons
    · obtain rfl : same = some sb := Outcome.ret.inj (hsame.symm.trans hsb)
      rfl
    · simp [hbits]
  obtain ⟨n, hkey, hsource, hfsid⟩ := h.source_eq hm hd hhashed hreal hcons'
  have hiIno := h.iIno_eq hd hcons' hkey hino next
  rw [hsource, hiIno] at hmap
  rw [hiIno]
  exact ovlMapDevIno_fill hm hsame hcons' hfsid hmap

/-- What an inode that is hashed by its lower inode reports is that lower inode's number. -/
theorem source_of_origin {l : OvlLayer σ} {n real : RealNode σ} {same : Bool}
    (hhead : d.lowerstack.head? = some (l, n)) (hconst : d.constIno = true)
    (hreal : d.upper = none → real = n)
    (hcond : d.upper.isSome = true →
      (d.index || (!m.verifyLower && (d.isDir || n.nlink = 1))) = true)
    (hnot : ¬ (d.isDir && !same && m.ofs.xinoBits = 0) = true) :
    d.source m same real = (n.ino, some l) := by
  rw [NumDentry.source, if_neg hnot, hhead]
  cases hup : d.upper with
  | none =>
    rw [hreal hup]
    rfl
  | some u =>
    rw [hup] at hcond
    dsimp only
    rw [if_neg (by simp), hconst, Bool.true_and, if_pos (hcond rfl)]

/-- A new inode without an upper, hashed by its lower inode. -/
theorem NewInode.lower_of_const (h : NewInode m next kind none lowerstack false d)
    (hconst : d.constIno = true) :
    ∃ l n, lowerstack.head? = some (l, n) ∧ d.real = some n ∧ d.hashed = true ∧
      ovlHashBylower m kind none (some n) false = true := by
  have hc := h.constIno
  rw [hconst] at hc
  cases hhead : lowerstack.head? with
  | none =>
    rw [hhead] at hc
    cases hc
  | some p =>
    rw [hhead] at hc
    refine ⟨p.1, p.2, rfl, ?_, ?_, hc.symm⟩
    · rw [NumDentry.real, h.upper, h.lowerstack, hhead]
      rfl
    · rw [h.hashed, hconst]
      rfl

/-- The number of the inode is from its lower inode, also when it has an upper inode. -/
structure NumDentry.FromLower (d : NumDentry σ) (m : NumMount σ) (l : OvlLayer σ)
    (n : RealNode σ) : Prop where
  head : d.lowerstack.head? = some (l, n)
  constIno : d.constIno = true
  origin : d.upper.isSome = true →
    (d.index || (!m.verifyLower && (d.isDir || n.nlink = 1))) = true

theorem NumDentry.FromLower.key {l : OvlLayer σ} {n : RealNode σ} (h : d.FromLower m l n) :
    d.key = (some n, l.fsid) := by
  rw [NumDentry.key, if_pos h.constIno, h.head]
  rfl

/-- A lower inode, and an upper one that came from it, have the same device and number. A
directory that cannot be mapped shows its `i_ino`. -/
theorem NumDentry.FromLower.stat_eq {d' : NumDentry σ} {l : OvlLayer σ} {n u : RealNode σ}
    {call' : GetattrCall → Option Errno} {st' : OvlStat} (h : d.FromLower m l n)
    (h' : d'.FromLower m l n) (hnone : d.upper = none) (hu : d'.upper = some u)
    (hdev : l.fsid = 0 → m.realDev n.sb = m.realDev u.sb) (hdir : d'.isDir = d.isDir)
    (hiIno : d.isDir = true → d.iIno = d'.iIno) (hst : ovlGetattr m call d = .ok st)
    (hst' : ovlGetattr m call' d' = .ok st') : st'.dev = st.dev ∧ st'.ino = st.ino := by
  obtain ⟨same, real, hsame, hreal, hmap⟩ := ovlGetattr_ok hst
  obtain ⟨same', real', hsame', hreal', hmap'⟩ := ovlGetattr_ok hst'
  obtain rfl : same = same' := Outcome.ret.inj (hsame.symm.trans hsame')
  rw [NumDentry.real, hnone, Option.none_or, h.head] at hreal
  obtain rfl : n = real := Option.some.inj hreal
  rw [NumDentry.real, hu, Option.some_or] at hreal'
  obtain rfl : u = real' := Option.some.inj hreal'
  rw [hdir] at hmap'
  have hstat : (⟨st'.dev, st'.ino⟩ : Kstat) = ⟨st.dev, st.ino⟩ := by
    by_cases hplain : (d.isDir && !same.isSome && m.ofs.xinoBits = 0) = true
    · simp only [Bool.and_eq_true, Bool.not_eq_true', Option.isSome_eq_false_iff,
        Option.isNone_iff_eq_none, decide_eq_true_eq] at hplain
      obtain ⟨⟨hd, rfl⟩, hbits⟩ := hplain
      rw [hd, ovlMapDevIno_plain hsame hbits] at hmap hmap'
      rw [hiIno hd] at hmap
      exact Outcome.ret.inj (hmap'.symm.trans hmap)
    · rw [source_of_origin h.head h.constIno (fun _ => rfl) h.origin hplain] at hmap
      have hupper : d'.upper = none → u = n := fun hno => by rw [hu] at hno; cases hno
      rw [source_of_origin h'.head h'.constIno hupper h'.origin (hdir ▸ hplain),
        ← ovlMapDevIno_congr hdev hiIno] at hmap'
      exact Outcome.ret.inj (hmap'.symm.trans hmap)
  exact ⟨congrArg Kstat.dev hstat, congrArg Kstat.ino hstat⟩

/-- What `stat` reports of an object that is hashed by its lower inode does not change when
it is copied up, nor when its inode is made anew after that from the upper inode and its
index. Only a directory that cannot be mapped gets another number then. -/
theorem constant_inode_number (hm : m.Fits)
    (hnew : ovlGetNewInode m next kind none lowerstack false nlink upperdata = .ok d)
    (hd : d.OnMount m) (hconst : d.constIno = true) {u : RealNode σ}
    (hu : m.ofs.upperMnt = some u.sb) (hst : ovlGetattr m call d = .ok st) :
    (∀ metacopy call' st', ovlGetattr m call' (d.copyUp m u metacopy) = .ok st' →
      st'.dev = st.dev ∧ st'.ino = st.ino) ∧
    (∀ next' lowerstack' nlink' upperdata' d' call' st',
      lowerstack'.head? = lowerstack.head? →
      (kind = .dir → (∃ sb, ovlSameSb m.ofs = .ret (some sb)) ∨ m.ofs.xinoBits ≠ 0) →
      ovlGetNewInode m next' kind (some u) lowerstack' (d.needIndex m) nlink' upperdata' =
        .ok d' → d'.OnMount m → ovlGetattr m call' d' = .ok st' →
      st'.dev = st.dev ∧ st'.ino = st.ino) := by
  obtain ⟨h, same, real, hsame, -, hino⟩ := ovlGetNewInode_ok hnew
  obtain ⟨l, n, hhead, -, hhashed, hhash⟩ := h.lower_of_const hconst
  have hhead' : d.lowerstack.head? = some (l, n) := h.lowerstack ▸ hhead
  obtain ⟨hlayer, hsb, hlink, -⟩ := hd.lower _ (List.mem_of_mem_head? hhead')
  have hup : m.ofs.upperMnt.isSome = true := by rw [hu]; rfl
  -- a lower inode on the upper filesystem has the device of the upper inode
  have hdev : l.fsid = 0 → m.realDev n.sb = m.realDev u.sb := by
    intro hzero
    obtain ⟨-, hmnt⟩ | ⟨i, fs, hi, -⟩ := hm.table.layers l hlayer
    · rw [← hsb, Option.some.inj (hmnt.symm.trans hu)]
    · omega
  have hindex : d.needIndex m =
      (m.indexdir && (m.verifyLower || (kind ≠ .dir && n.nlink > 1))) := by
    rw [NumDentry.needIndex, hhead', NumDentry.isDir, h.kind]
    simp
  have horigin := origin_of_hashed hm hlink hup hhash
  rw [← hindex] at horigin
  have hfrom : d.FromLower m l n :=
    ⟨hhead', hconst, fun hs => by rw [h.upper] at hs; cases hs⟩
  refine ⟨fun metacopy call' st' hst' => ?_, fun next' lowerstack' nlink' upperdata' d' call' st'
    hlower hcons hnew' hd' hst' => ?_⟩
  · have hcopied : (d.copyUp m u metacopy).FromLower m l n := by
      refine ⟨hhead', hconst, fun _ => ?_⟩
      change ((d.index || d.needIndex m) || (!m.verifyLower && (d.isDir || n.nlink = 1))) = true
      rw [h.index, Bool.false_or, NumDentry.isDir, h.kind]
      exact horigin
    exact hfrom.stat_eq hcopied h.upper rfl hdev (copyUp_isDir d m u metacopy)
      (fun _ => (copyUp_iIno hhashed m u metacopy).symm) hst hst'
  · obtain ⟨h', same', real', hsame', -, hino'⟩ := ovlGetNewInode_ok hnew'
    obtain rfl : same = same' := Outcome.ret.inj (hsame.symm.trans hsame')
    have hmade : d'.FromLower m l n := by
      refine ⟨by rw [h'.lowerstack, hlower, hhead], ?_, fun _ => ?_⟩
      · rw [h'.constIno, hlower, hhead, hindex]
        exact hashed_again hm hup hhash
      · rw [h'.index, NumDentry.isDir, h'.kind]
        exact horigin
    have hkind : d'.isDir = d.isDir := by rw [NumDentry.isDir, NumDentry.isDir, h.kind, h'.kind]
    refine hfrom.stat_eq hmade h.upper h'.upper hdev hkind (fun hdir => ?_) hst hst'
    have hmapped : (same.isSome || m.ofs.xinoBits ≠ 0) = true := by
      rw [NumDentry.isDir, h.kind, decide_eq_true_eq] at hdir
      obtain ⟨sb, hsb⟩ | hbits := hcons hdir
      · obtain rfl : same = some sb := Outcome.ret.inj (hsame.symm.trans hsb)
        rfl
      · simp [hbits]
    have heq := h.iIno_eq hd hmapped (congrArg Prod.fst hfrom.key) hino 0
    have heq' := h'.iIno_eq hd' hmapped (congrArg Prod.fst hmade.key) hino' 0
    rw [heq, heq', hfrom.key, hmade.key]

/-- A mount with an index whose layers are on two filesystems. -/
def indexedMount : NumMount ℕ := ⟨{ xinoMounted with index := true }, 10, id, true, false⟩

/-- A lower file with two links. -/
def lowerHardlink : NumDentry ℕ :=
  ⟨.reg, none, [(⟨1, 1⟩, ⟨1, 5, 2, 8⟩)], 2 ^ 63 + 5, 2, true, false, false, true⟩

theorem indexedMount_fits : indexedMount.Fits := by
  refine ⟨⟨by decide, by decide, fun l hl => ?_⟩, fun sb hsb => (by cases hsb), rfl, rfl,
    fun _ h => by cases h⟩
  obtain rfl | rfl : l = ⟨1, 1⟩ ∨ l = ⟨0, 0⟩ := by simpa [indexedMount, xinoMounted] using hl
  · exact .inr ⟨0, ⟨1, 20⟩, rfl, rfl, rfl⟩
  · exact .inl ⟨rfl, rfl⟩

theorem lowerHardlink_onMount : lowerHardlink.OnMount indexedMount := by
  refine ⟨fun u hu => (by cases hu), fun p hp => ?_⟩
  obtain rfl : p = (⟨1, 1⟩, ⟨1, 5, 2, 8⟩) := List.mem_singleton.mp hp
  exact ⟨.head _, rfl, by decide, by decide⟩

/-- `lowerHardlink`, found again after its copy-up by its upper inode and its index. -/
def remadeHardlink : NumDentry ℕ :=
  ⟨.reg, some ⟨0, 9, 2, 8⟩, [(⟨1, 1⟩, ⟨1, 5, 2, 8⟩)], 2 ^ 63 + 5, 2, true, true, true, true⟩

theorem remadeHardlink_onMount : remadeHardlink.OnMount indexedMount := by
  refine ⟨fun u hu => ?_, lowerHardlink_onMount.lower⟩
  obtain rfl : (⟨0, 9, 2, 8⟩ : RealNode ℕ) = u := Option.some.inj hu
  exact ⟨rfl, by decide⟩

/-- The file is indexed when it is copied up, and its inode is made anew from the index. -/
theorem constant_inode_number_hardlink :
    ovlGetattr indexedMount (fun _ => none) lowerHardlink = .ok ⟨10, 2 ^ 63 + 5, 2, 8⟩ ∧
      (∀ st, ovlGetattr indexedMount (fun _ => none)
        (lowerHardlink.copyUp indexedMount ⟨0, 9, 2, 8⟩ false) = .ok st → st.ino = 2 ^ 63 + 5) ∧
      ∀ st, ovlGetattr indexedMount (fun _ => none) remadeHardlink = .ok st →
        st.dev = 10 ∧ st.ino = 2 ^ 63 + 5 := by
  have hnew : ovlGetNewInode indexedMount 0 .reg none [(⟨1, 1⟩, ⟨1, 5, 2, 8⟩)] false 2 false =
      .ok lowerHardlink := rfl
  have hst : ovlGetattr indexedMount (fun _ => none) lowerHardlink =
      .ok ⟨10, 2 ^ 63 + 5, 2, 8⟩ := rfl
  have hagain : ovlGetNewInode indexedMount 7 .reg (some ⟨0, 9, 2, 8⟩)
      [(⟨1, 1⟩, ⟨1, 5, 2, 8⟩)] (lowerHardlink.needIndex indexedMount) 2 true =
      .ok remadeHardlink := rfl
  have hconst := constant_inode_number indexedMount_fits hnew lowerHardlink_onMount rfl
    (u := ⟨0, 9, 2, 8⟩) rfl hst
  refine ⟨hst, fun st hst' => (hconst.1 false _ st hst').2, fun st hst' => ?_⟩
  exact hconst.2 7 _ 2 true remadeHardlink _ st rfl (fun h => by cases h) hagain
    remadeHardlink_onMount hst'

end Result

section Mounts

variable {δ σ ν : Type} {env : MountEnv δ σ ν} {m : Mounting δ σ}

/-- What `Super.Mounted` knows of a mount, as far as numbers go. -/
def Mounting.numbers (m : Mounting δ σ) (env : MountEnv δ σ ν) (sDev : ℕ) (realDev : σ → ℕ) :
    NumMount σ :=
  ⟨m.ofs env, sDev, realDev, m.indexdir.isSome, m.exportOp⟩

theorem OptionsFit.numbers (h : OptionsFit env m) (sDev : ℕ) (realDev : σ → ℕ)
    (htable : FsidTable (m.ofs env))
    (hsame : ∀ sb, ovlSameSb (m.ofs env) = .ret (some sb) → m.xinoBits = 0) :
    (m.numbers env sDev realDev).Fits where
  table := htable
  same := hsame
  index := h.index
  exported := h.exportOp
  exportIndex hup hexport :=
    (h.exported hexport).2.1 (Option.isSome_map.symm.trans hup)

end Mounts

end FzzOverlay

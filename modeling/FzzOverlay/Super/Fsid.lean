import Mathlib.Data.List.Nodup
import FzzOverlay.Entry

/-!
# Filesystem ids and inode numbers

`ovl_get_fsid` and `ovl_get_lower_layers` of `super.c`, and `ovl_map_dev_ino` of
`inode.c`. A superblock is a value of any type, compared like a pointer. Field `fs` of
a layer is `&lower_fs[fsid - 1]`, so the layer is kept without it.
-/

namespace FzzOverlay

inductive XinoMode where
  | off
  | auto
  | on
  deriving DecidableEq

/-- `struct ovl_sb`. -/
structure OvlSb (σ : Type) where
  sb : σ
  pseudoDev : ℕ

/-- `struct ovl_layer`: the superblock it is on, and its fsid. -/
structure OvlLayer (σ : Type) where
  sb : σ
  fsid : ℕ

/-- `struct ovl_fs`, as far as layers and inode numbers go. -/
structure OvlFs (σ : Type) where
  upperMnt : Option σ
  lowerFs : List (OvlSb σ)
  lowerLayers : List (OvlLayer σ)
  xinoBits : ℕ
  index : Bool
  nfsExport : Bool
  xino : XinoMode

/-- `struct kstat`. -/
structure Kstat where
  dev : ℕ
  ino : ℕ

def OVL_MAX_STACK : ℕ := 500

section Layers

variable {σ ν : Type} [DecidableEq σ] [DecidableEq ν]

def ovlLowerUuidOk (uuid : σ → ν) (ofs : OvlFs σ) (sb : σ) : Bool :=
  if !ofs.nfsExport && !(ofs.index && ofs.upperMnt.isSome) then true
  else ofs.lowerFs.all fun f => uuid f.sb ≠ uuid sb

/-- `ovl_get_fsid`; `bdev` is what `get_anon_bdev` returns. -/
def ovlGetFsid (uuid : σ → ν) (bdev : Except Errno ℕ) (ofs : OvlFs σ) (sb : σ) : ℤ × OvlFs σ :=
  if ofs.upperMnt = some sb then (0, ofs)
  else
    match ofs.lowerFs.findIdx? fun f => f.sb = sb with
    | some i => (i + 1, ofs)
    | none =>
      let ofs := if ovlLowerUuidOk uuid ofs sb then ofs
        else { ofs with index := false, nfsExport := false }
      match bdev with
      | .error e => (e.ret, ofs)
      | .ok dev => (ofs.lowerFs.length + 1, { ofs with lowerFs := ofs.lowerFs ++ [⟨sb, dev⟩] })

/-- What the rest of the kernel does while one layer is set up. -/
structure LayerEnv where
  bdev : Except Errno ℕ
  setupTrap : Option Errno
  isInuse : Bool
  cloneMount : Option Errno

/-- The loop of `ovl_get_lower_layers` over the stack. -/
def lowerLayersLoop (uuid : σ → ν) : List (σ × LayerEnv) → OvlFs σ → ℤ × OvlFs σ
  | [], ofs => (0, ofs)
  | (sb, env) :: stack, ofs =>
    let r := ovlGetFsid uuid env.bdev ofs sb
    if r.1 < 0 then r
    else
      match env.setupTrap with
      | some e => (e.ret, r.2)
      | none =>
        -- `ovl_report_in_use` only warns without an index.
        if env.isInuse && r.2.index then (EBUSY.ret, r.2)
        else
          match env.cloneMount with
          | some e => (e.ret, r.2)
          | none =>
            lowerLayersLoop uuid stack
              { r.2 with lowerLayers := r.2.lowerLayers ++ [⟨sb, r.1.toNat⟩] }

/-- The end of `ovl_get_lower_layers`: how many high bits of an inode number hold the
fsid. -/
def setXinoBits (ofs : OvlFs σ) : OvlFs σ :=
  if ofs.lowerFs.length = 0 ∨ (ofs.lowerFs.length = 1 ∧ ofs.upperMnt = none) then
    { ofs with xinoBits := 0, xino := .off }
  else if ofs.xino = .on ∧ ofs.xinoBits = 0 then
    { ofs with xinoBits := Nat.log2 ofs.lowerFs.length + 1 }
  else ofs

/-- `ovl_get_lower_layers`; `mem` says whether both `kcalloc`s succeed. -/
def ovlGetLowerLayers (uuid : σ → ν) (mem : Bool) (stack : List (σ × LayerEnv)) (ofs : OvlFs σ) :
    ℤ × OvlFs σ :=
  if mem then
    let r := lowerLayersLoop uuid stack ofs
    if r.1 < 0 then r else (0, setXinoBits r.2)
  else (ENOMEM.ret, ofs)

/-- `ovl_same_sb`: the superblock all layers are on, if there is one. -/
def ovlSameSb (ofs : OvlFs σ) : Outcome (Option σ) :=
  match ofs.lowerFs, ofs.upperMnt with
  | [], none => .oops
  | [], some sb => .ret (some sb)
  | [fs], none => .ret (some fs.sb)
  | _, _ => .ret none

/-- `ovl_map_dev_ino`. `sDev` is the overlay's own device, `iIno` the number of the
overlay inode, and `lowerLayer` is `NULL` for an upper inode. -/
def ovlMapDevIno (ofs : OvlFs σ) (sDev : ℕ) (isDir : Bool) (iIno : ℕ) (stat : Kstat)
    (lowerLayer : Option (OvlLayer σ)) : Outcome Kstat :=
  let fsid := (lowerLayer.map OvlLayer.fsid).getD 0
  let shift := 64 - ofs.xinoBits
  match ovlSameSb ofs with
  | .oops => .oops
  | .running => .running
  | .ret (some _) => .ret { stat with dev := sDev }
  | .ret none =>
    if ofs.xinoBits ≠ 0 ∧ stat.ino >>> shift = 0 then
      .ret ⟨sDev, stat.ino ||| (fsid <<< shift) % 2 ^ 64⟩
    else if isDir then .ret ⟨sDev, iIno⟩
    else if fsid = 0 then .ret stat
    else
      match ofs.lowerFs[fsid - 1]? with
      | some fs => .ret { stat with dev := fs.pseudoDev }
      | none => .oops

/-- The table of filesystems: one entry for each superblock other than the upper one, and
the fsid of a layer says which entry its superblock has. -/
structure FsidTable (ofs : OvlFs σ) : Prop where
  nodup : (ofs.lowerFs.map OvlSb.sb).Nodup
  notUpper : ∀ fs ∈ ofs.lowerFs, ofs.upperMnt ≠ some fs.sb
  layers : ∀ l ∈ ofs.lowerLayers,
    (l.fsid = 0 ∧ ofs.upperMnt = some l.sb) ∨
      ∃ i fs, l.fsid = i + 1 ∧ ofs.lowerFs[i]? = some fs ∧ fs.sb = l.sb

omit [DecidableEq σ] in
/-- Flags do not matter, and the table may grow at its end. -/
theorem FsidTable.grow {ofs ofs' : OvlFs σ} (h : FsidTable ofs) (fs : List (OvlSb σ))
    (hup : ofs'.upperMnt = ofs.upperMnt) (hfs : ofs'.lowerFs = ofs.lowerFs ++ fs)
    (hl : ofs'.lowerLayers = ofs.lowerLayers) (hnodup : (ofs'.lowerFs.map OvlSb.sb).Nodup)
    (hnew : ∀ f ∈ fs, ofs.upperMnt ≠ some f.sb) : FsidTable ofs' := by
  refine ⟨hnodup, fun f hf => ?_, fun l hmem => ?_⟩
  · rw [hfs] at hf
    rw [hup]
    rcases List.mem_append.mp hf with hf | hf
    · exact h.notUpper f hf
    · exact hnew f hf
  · rw [hl] at hmem
    rw [hup]
    rcases h.layers l hmem with hz | ⟨i, f, hi, hget, hsb⟩
    · exact .inl hz
    · refine .inr ⟨i, f, hi, ?_, hsb⟩
      have hlt : i < ofs.lowerFs.length := (List.getElem?_eq_some_iff.mp hget).1
      rw [hfs, List.getElem?_append_left hlt, hget]

/-- What a call of `ovl_get_fsid` returns, and what it leaves. -/
theorem ovlGetFsid_spec (uuid : σ → ν) (bdev : Except Errno ℕ) {ofs : OvlFs σ} (sb : σ)
    (h : FsidTable ofs) :
    FsidTable (ovlGetFsid uuid bdev ofs sb).2 ∧
      (ovlGetFsid uuid bdev ofs sb).2.upperMnt = ofs.upperMnt ∧
      (ovlGetFsid uuid bdev ofs sb).2.lowerLayers = ofs.lowerLayers ∧
      (ovlGetFsid uuid bdev ofs sb).2.xinoBits = ofs.xinoBits ∧
      (ovlGetFsid uuid bdev ofs sb).2.lowerFs.length ≤ ofs.lowerFs.length + 1 ∧
      (¬ (ovlGetFsid uuid bdev ofs sb).1 < 0 →
        ((ovlGetFsid uuid bdev ofs sb).1.toNat = 0 ∧ ofs.upperMnt = some sb) ∨
          ∃ i fs, (ovlGetFsid uuid bdev ofs sb).1.toNat = i + 1 ∧
            (ovlGetFsid uuid bdev ofs sb).2.lowerFs[i]? = some fs ∧ fs.sb = sb) := by
  unfold ovlGetFsid
  by_cases hup : ofs.upperMnt = some sb
  · rw [if_pos hup]
    exact ⟨h, rfl, rfl, rfl, Nat.le_succ _, fun _ => .inl ⟨rfl, hup⟩⟩
  rw [if_neg hup]
  cases hfind : ofs.lowerFs.findIdx? fun f => f.sb = sb with
  | some i =>
    obtain ⟨hi, hsb, -⟩ := List.findIdx?_eq_some_iff_getElem.mp hfind
    exact ⟨h, rfl, rfl, rfl, Nat.le_succ _, fun _ => .inr ⟨i, ofs.lowerFs[i], by simp,
      List.getElem?_eq_getElem hi, of_decide_eq_true hsb⟩⟩
  | none =>
    have hnone : ∀ f ∈ ofs.lowerFs, f.sb ≠ sb := by
      intro f hf
      simpa using List.findIdx?_eq_none_iff.mp hfind f hf
    -- The flags may have been switched off before the new entry is made.
    generalize hofs : (if ovlLowerUuidOk uuid ofs sb then ofs
      else { ofs with index := false, nfsExport := false }) = ofs'
    have hsame : ofs'.upperMnt = ofs.upperMnt ∧ ofs'.lowerFs = ofs.lowerFs ∧
        ofs'.lowerLayers = ofs.lowerLayers ∧ ofs'.xinoBits = ofs.xinoBits := by
      rw [← hofs]
      split <;> exact ⟨rfl, rfl, rfl, rfl⟩
    obtain ⟨hup', hfs, hl, hbits⟩ := hsame
    cases bdev with
    | error e =>
      dsimp only
      refine ⟨h.grow [] hup' (by rw [hfs, List.append_nil]) hl (by rw [hfs]; exact h.nodup)
        nofun, hup', hl, hbits, ?_, fun hneg => absurd e.ret_neg hneg⟩
      show ofs'.lowerFs.length ≤ _
      rw [hfs]
      omega
    | ok dev =>
      dsimp only
      have hnodup : ((ofs'.lowerFs ++ [(⟨sb, dev⟩ : OvlSb σ)]).map OvlSb.sb).Nodup := by
        rw [hfs, List.map_append, List.nodup_append']
        refine ⟨h.nodup, List.nodup_singleton _, fun x hx hx' => ?_⟩
        obtain ⟨f, hf, rfl⟩ := List.mem_map.mp hx
        exact hnone f hf (List.mem_singleton.mp hx')
      refine ⟨h.grow [⟨sb, dev⟩] hup' (by rw [hfs]) hl hnodup ?_, hup', hl, hbits, ?_,
        fun _ => .inr ⟨ofs'.lowerFs.length, ⟨sb, dev⟩, by simp, ?_, rfl⟩⟩
      · intro f hf
        obtain rfl := List.mem_singleton.mp hf
        exact hup
      · show (ofs'.lowerFs ++ [_]).length ≤ _
        rw [hfs, List.length_append]
        rfl
      · show (ofs'.lowerFs ++ [_])[_]? = _
        rw [List.getElem?_append_right le_rfl, Nat.sub_self]
        rfl

/-- The loop keeps the table, whether it gets to the end of the stack or not. -/
theorem lowerLayersLoop_spec (uuid : σ → ν) (stack : List (σ × LayerEnv)) (ofs : OvlFs σ)
    (h : FsidTable ofs) :
    FsidTable (lowerLayersLoop uuid stack ofs).2 ∧
      (lowerLayersLoop uuid stack ofs).2.xinoBits = ofs.xinoBits ∧
      (lowerLayersLoop uuid stack ofs).2.lowerFs.length ≤ ofs.lowerFs.length + stack.length := by
  induction stack generalizing ofs with
  | nil => exact ⟨h, rfl, le_rfl⟩
  | cons p stack ih =>
    obtain ⟨sb, env⟩ := p
    obtain ⟨htab, hup, hl, hbits, hlen, hret⟩ := ovlGetFsid_spec uuid env.bdev sb h
    rw [lowerLayersLoop]
    generalize ovlGetFsid uuid env.bdev ofs sb = r at *
    have hstop : FsidTable r.2 ∧ r.2.xinoBits = ofs.xinoBits ∧
        r.2.lowerFs.length ≤ ofs.lowerFs.length + (stack.length + 1) :=
      ⟨htab, hbits, by omega⟩
    dsimp only [List.length_cons]
    by_cases hneg : r.1 < 0
    · rw [if_pos hneg]
      exact hstop
    rw [if_neg hneg]
    cases env.setupTrap with
    | some e => exact hstop
    | none =>
      dsimp only
      split
      · exact hstop
      · cases env.cloneMount with
        | some e => exact hstop
        | none =>
          have hnext : FsidTable { r.2 with
              lowerLayers := r.2.lowerLayers ++ [⟨sb, r.1.toNat⟩] } := by
            refine ⟨htab.nodup, htab.notUpper, fun l hmem => ?_⟩
            rcases List.mem_append.mp hmem with hmem | hmem
            · exact htab.layers l hmem
            · obtain rfl := List.mem_singleton.mp hmem
              rcases hret hneg with ⟨hz, hsb⟩ | hpos
              · exact .inl ⟨hz, hup.trans hsb⟩
              · exact .inr hpos
          obtain ⟨htab', hbits', hlen'⟩ := ih _ hnext
          refine ⟨htab', hbits'.trans hbits, Nat.le_trans hlen' ?_⟩
          show r.2.lowerFs.length + stack.length ≤ _
          omega

/-- What `ovl_fill_super` has before it looks at the lower layers: no filesystem yet, and
no bit or `BITS_PER_LONG - 32` bits for the fsid. -/
structure NoLayers (ofs : OvlFs σ) : Prop where
  lowerFs : ofs.lowerFs = []
  lowerLayers : ofs.lowerLayers = []
  xinoBits : ofs.xinoBits = 0 ∨ ofs.xinoBits = 32

/-- The mount that `ovl_get_lower_layers` sets up has a table and enough bits for its
fsids. -/
theorem ovlGetLowerLayers_spec {uuid : σ → ν} {mem : Bool} {stack : List (σ × LayerEnv)}
    {ofs₀ ofs : OvlFs σ} (h₀ : NoLayers ofs₀) (hstack : stack.length ≤ OVL_MAX_STACK)
    (h : ovlGetLowerLayers uuid mem stack ofs₀ = (0, ofs)) :
    FsidTable ofs ∧ (ofs.xinoBits ≠ 0 →
      ofs.xinoBits ≤ 64 ∧ ofs.lowerFs.length < 2 ^ ofs.xinoBits) := by
  have htab₀ : FsidTable ofs₀ := by
    refine ⟨?_, fun fs hfs => ?_, fun l hl => ?_⟩
    · rw [h₀.lowerFs]
      exact List.nodup_nil
    · rw [h₀.lowerFs] at hfs
      cases hfs
    · rw [h₀.lowerLayers] at hl
      cases hl
  obtain ⟨htab, hbits, hlen⟩ := lowerLayersLoop_spec uuid stack ofs₀ htab₀
  rw [h₀.lowerFs, List.length_nil, Nat.zero_add] at hlen
  unfold ovlGetLowerLayers at h
  cases mem with
  | false => exact absurd (congrArg Prod.fst h) (Int.ne_of_lt ENOMEM.ret_neg)
  | true =>
    rw [if_pos rfl] at h
    generalize lowerLayersLoop uuid stack ofs₀ = r at *
    dsimp only at h
    by_cases hneg : r.1 < 0
    · rw [if_pos hneg] at h
      rw [h] at hneg
      exact absurd hneg (Int.lt_irrefl 0)
    rw [if_neg hneg] at h
    obtain rfl : setXinoBits r.2 = ofs := congrArg Prod.snd h
    have hmax : OVL_MAX_STACK = 500 := rfl
    unfold setXinoBits
    split
    · exact ⟨⟨htab.nodup, htab.notUpper, htab.layers⟩, fun hne => absurd rfl hne⟩
    · rename_i hmany
      split
      · refine ⟨⟨htab.nodup, htab.notUpper, htab.layers⟩, fun _ => ?_⟩
        have hne : r.2.lowerFs.length ≠ 0 := fun hz => hmany (.inl hz)
        have hlog : Nat.log2 r.2.lowerFs.length < 9 :=
          (Nat.log2_lt hne).mpr (Nat.lt_of_le_of_lt hlen (by omega))
        exact ⟨show Nat.log2 r.2.lowerFs.length + 1 ≤ 64 by omega, Nat.lt_log2_self⟩
      · refine ⟨htab, fun hne => ?_⟩
        have h32 : r.2.xinoBits = 32 := by
          rw [hbits] at hne ⊢
          exact h₀.xinoBits.resolve_left hne
        rw [h32]
        exact ⟨by omega, by omega⟩

end Layers

/-- A real inode as `ovl_getattr` passes it on: the layer it is on (`none` for the upper
one), and its `stat`. -/
structure RealStat (σ : Type) where
  layer : Option (OvlLayer σ)
  stat : Kstat

namespace RealStat

variable {σ : Type}

def fsid (x : RealStat σ) : ℕ := (x.layer.map OvlLayer.fsid).getD 0

/-- The filesystem the inode is on. -/
def fileSystem (ofs : OvlFs σ) (x : RealStat σ) : Option σ :=
  match x.layer with
  | none => ofs.upperMnt
  | some l => some l.sb

/-- The layer is one of the mount, the inode number has 64 bits, and an inode of the
upper filesystem has the upper device. -/
structure OnLayer (ofs : OvlFs σ) (upperDev : ℕ) (x : RealStat σ) : Prop where
  upper : x.layer = none → ofs.upperMnt.isSome
  lower : ∀ l, x.layer = some l → l ∈ ofs.lowerLayers
  ino : x.stat.ino < 2 ^ 64
  dev : x.fsid = 0 → x.stat.dev = upperDev

variable {ofs : OvlFs σ} {upperDev : ℕ} {x y : RealStat σ}

/-- The fsid is zero on the upper filesystem, else it points to the table. -/
theorem OnLayer.cases (h : FsidTable ofs) (hx : x.OnLayer ofs upperDev) :
    (x.fsid = 0 ∧ ofs.upperMnt.isSome ∧ x.fileSystem ofs = ofs.upperMnt) ∨
      ∃ i fs, x.fsid = i + 1 ∧ ofs.lowerFs[i]? = some fs ∧ x.fileSystem ofs = some fs.sb := by
  cases hl : x.layer with
  | none =>
    refine .inl ⟨?_, hx.upper hl, ?_⟩
    · rw [fsid, hl]
      rfl
    · rw [fileSystem, hl]
  | some l =>
    have hfsid : x.fsid = l.fsid := by
      rw [fsid, hl]
      rfl
    have hfs : x.fileSystem ofs = some l.sb := by
      rw [fileSystem, hl]
    rw [hfsid, hfs]
    rcases h.layers l (hx.lower l hl) with ⟨hz, hup⟩ | ⟨i, fs, hi, hget, hsb⟩
    · exact .inl ⟨hz, by rw [hup]; rfl, hup.symm⟩
    · exact .inr ⟨i, fs, hi, hget, by rw [hsb]⟩

theorem OnLayer.fsid_le (h : FsidTable ofs) (hx : x.OnLayer ofs upperDev) :
    x.fsid ≤ ofs.lowerFs.length := by
  rcases hx.cases h with ⟨hz, -⟩ | ⟨i, fs, hi, hget, -⟩
  · omega
  · have hlt : i < ofs.lowerFs.length := (List.getElem?_eq_some_iff.mp hget).1
    omega

/-- Inodes with one fsid are on one filesystem. -/
theorem OnLayer.fileSystem_eq (h : FsidTable ofs) (hx : x.OnLayer ofs upperDev)
    (hy : y.OnLayer ofs upperDev) (heq : x.fsid = y.fsid) :
    x.fileSystem ofs = y.fileSystem ofs := by
  rcases hx.cases h with ⟨hxz, -, hxf⟩ | ⟨i, f, hxi, hxg, hxf⟩
  · rcases hy.cases h with ⟨-, -, hyf⟩ | ⟨j, g, hyj, -, -⟩
    · rw [hxf, hyf]
    · omega
  · rcases hy.cases h with ⟨hyz, -, -⟩ | ⟨j, g, hyj, hyg, hyf⟩
    · omega
    · obtain rfl : i = j := by omega
      rw [hxg] at hyg
      obtain rfl := Option.some.inj hyg
      rw [hxf, hyf]

/-- The device of an inode that is not mapped. -/
def ownDev (ofs : OvlFs σ) (upperDev fsid : ℕ) : ℕ :=
  match fsid with
  | 0 => upperDev
  | i + 1 => ((ofs.lowerFs[i]?).map OvlSb.pseudoDev).getD upperDev

theorem ownDev_mem (upperDev : ℕ) {fsid : ℕ} (h : fsid ≤ ofs.lowerFs.length) :
    (upperDev :: ofs.lowerFs.map OvlSb.pseudoDev)[fsid]? = some (ownDev ofs upperDev fsid) := by
  cases fsid with
  | zero => rfl
  | succ i =>
    rw [List.getElem?_cons_succ, List.getElem?_map, ownDev, List.getElem?_eq_getElem h]
    rfl

/-- The three ways in which `ovl_map_dev_ino` treats an inode that is no directory. -/
theorem OnLayer.map_cases (h : FsidTable ofs) (hx : x.OnLayer ofs upperDev)
    (hbits : ofs.xinoBits ≠ 0 → ofs.xinoBits ≤ 64 ∧ ofs.lowerFs.length < 2 ^ ofs.xinoBits)
    (sDev iIno : ℕ) :
    ((∃ sb, ovlSameSb ofs = .ret (some sb)) ∧
        ovlMapDevIno ofs sDev false iIno x.stat x.layer = .ret ⟨sDev, x.stat.ino⟩) ∨
      (ovlSameSb ofs = .ret none ∧ x.stat.ino < 2 ^ (64 - ofs.xinoBits) ∧
        ovlMapDevIno ofs sDev false iIno x.stat x.layer =
          .ret ⟨sDev, x.fsid * 2 ^ (64 - ofs.xinoBits) + x.stat.ino⟩) ∨
      (ovlSameSb ofs = .ret none ∧
        ovlMapDevIno ofs sDev false iIno x.stat x.layer =
          .ret ⟨ownDev ofs upperDev x.fsid, x.stat.ino⟩) := by
  have hle := hx.fsid_le h
  unfold ovlMapDevIno
  rw [show (x.layer.map OvlLayer.fsid).getD 0 = x.fsid from rfl]
  cases hsame : ovlSameSb ofs with
  | oops =>
    -- There is no filesystem at all, so the inode cannot be on one.
    unfold ovlSameSb at hsame
    split at hsame
    · rename_i hnil hnone
      rcases hx.cases h with ⟨-, hup, -⟩ | ⟨i, fs, -, hget, -⟩
      · rw [hnone] at hup
        cases hup
      · rw [hnil] at hget
        cases hget
    all_goals cases hsame
  | running =>
    unfold ovlSameSb at hsame
    split at hsame
    all_goals cases hsame
  | ret o =>
    cases o with
    | some sb => exact .inl ⟨⟨sb, rfl⟩, rfl⟩
    | none =>
      refine .inr ?_
      dsimp only
      by_cases hmap : ofs.xinoBits ≠ 0 ∧ x.stat.ino >>> (64 - ofs.xinoBits) = 0
      · rw [if_pos hmap]
        obtain ⟨h64, hlen⟩ := hbits hmap.1
        have hino : x.stat.ino < 2 ^ (64 - ofs.xinoBits) := by
          rw [Nat.shiftRight_eq_div_pow] at hmap
          exact (Nat.div_eq_zero_iff_lt (Nat.two_pow_pos _)).mp hmap.2
        have hfit : x.fsid <<< (64 - ofs.xinoBits) < 2 ^ 64 := by
          rw [Nat.shiftLeft_eq]
          calc x.fsid * 2 ^ (64 - ofs.xinoBits)
              < 2 ^ ofs.xinoBits * 2 ^ (64 - ofs.xinoBits) :=
                Nat.mul_lt_mul_of_pos_right (Nat.lt_of_le_of_lt hle hlen) (Nat.two_pow_pos _)
            _ = 2 ^ 64 := by rw [← Nat.pow_add, Nat.add_sub_cancel' h64]
        refine .inl ⟨rfl, hino, ?_⟩
        rw [Nat.mod_eq_of_lt hfit, Nat.or_comm, ← Nat.shiftLeft_add_eq_or_of_lt hino,
          Nat.shiftLeft_eq]
      · rw [if_neg hmap, if_neg (by simp)]
        refine .inr ⟨rfl, ?_⟩
        by_cases hz : x.fsid = 0
        · rw [if_pos hz, hz, ownDev, ← hx.dev hz]
        · rw [if_neg hz]
          obtain ⟨i, hi⟩ := Nat.exists_eq_succ_of_ne_zero hz
          have hlt : i < ofs.lowerFs.length := by omega
          rw [hi, Nat.succ_sub_one, List.getElem?_eq_getElem hlt, ownDev,
            List.getElem?_eq_getElem hlt]
          rfl

/-- On one filesystem all inodes have one fsid. -/
theorem OnLayer.fsid_eq_of_same (h : FsidTable ofs) (hx : x.OnLayer ofs upperDev)
    (hy : y.OnLayer ofs upperDev) {sb : σ} (hsame : ovlSameSb ofs = .ret (some sb)) :
    x.fsid = y.fsid := by
  have hone : ∀ z : RealStat σ, z.OnLayer ofs upperDev →
      z.fsid = if ofs.upperMnt.isSome then 0 else 1 := by
    intro z hz
    unfold ovlSameSb at hsame
    split at hsame
    · cases hsame
    · rename_i hnil hup
      rcases hz.cases h with ⟨hzero, -⟩ | ⟨i, fs, -, hget, -⟩
      · rw [hzero, hup]
        rfl
      · rw [hnil] at hget
        cases hget
    · rename_i fs hone hup
      rw [hup]
      rcases hz.cases h with ⟨-, hsome, -⟩ | ⟨i, f, hi, hget, -⟩
      · rw [hup] at hsome
        cases hsome
      · rw [hone] at hget
        have hlt : i < 1 := (List.getElem?_eq_some_iff.mp hget).1
        rw [hi, show i = 0 by omega]
        rfl
    · cases hsame
  rw [hone x hx, hone y hy]

end RealStat

theorem split_low {a b m : ℕ} (h : b < m) : (a * m + b) % m = b := by
  rw [Nat.add_comm, Nat.add_mul_mod_self_right, Nat.mod_eq_of_lt h]

theorem split_high {a b m : ℕ} (h : b < m) : (a * m + b) / m = a := by
  rw [Nat.add_comm, Nat.add_mul_div_right _ _ (Nat.zero_lt_of_lt h), Nat.div_eq_of_lt h,
    Nat.zero_add]

/-- On every mount that `ovl_get_lower_layers` sets up, two inodes that are no
directories and differ in filesystem or inode number get different pairs of device and
inode number. -/
theorem inode_identity_unique {σ ν : Type} [DecidableEq σ] [DecidableEq ν] {uuid : σ → ν}
    {mem : Bool} {stack : List (σ × LayerEnv)}
    {ofs₀ ofs : OvlFs σ} (h₀ : NoLayers ofs₀) (hstack : stack.length ≤ OVL_MAX_STACK)
    (hget : ovlGetLowerLayers uuid mem stack ofs₀ = (0, ofs)) {sDev upperDev : ℕ}
    (hdev : (sDev :: upperDev :: ofs.lowerFs.map OvlSb.pseudoDev).Nodup) {x y : RealStat σ}
    (hx : x.OnLayer ofs upperDev) (hy : y.OnLayer ofs upperDev)
    (hne : x.fileSystem ofs ≠ y.fileSystem ofs ∨ x.stat.ino ≠ y.stat.ino) (iIno jIno : ℕ) :
    ∃ p q, ovlMapDevIno ofs sDev false iIno x.stat x.layer = .ret p ∧
      ovlMapDevIno ofs sDev false jIno y.stat y.layer = .ret q ∧ p ≠ q := by
  obtain ⟨h, hbits⟩ := ovlGetLowerLayers_spec h₀ hstack hget
  have hdiff : x.fsid = y.fsid → x.stat.ino ≠ y.stat.ino := by
    intro heq
    exact hne.resolve_left fun hfs => hfs (hx.fileSystem_eq h hy heq)
  obtain ⟨hs, hnodup⟩ := List.nodup_cons.mp hdev
  have hown : ∀ z : RealStat σ, z.OnLayer ofs upperDev →
      RealStat.ownDev ofs upperDev z.fsid ≠ sDev := by
    intro z hz heq
    have hmem := List.mem_of_getElem? (RealStat.ownDev_mem upperDev (hz.fsid_le h))
    rw [heq] at hmem
    exact hs hmem
  rcases hx.map_cases h hbits sDev iIno with ⟨⟨sb, hsame⟩, hpx⟩ | ⟨hnone, hlx, hpx⟩ | ⟨hnone, hpx⟩
  · rcases hy.map_cases h hbits sDev jIno with ⟨-, hpy⟩ | ⟨hno, -, -⟩ | ⟨hno, -⟩
    · refine ⟨_, _, hpx, hpy, fun heq => ?_⟩
      exact hdiff (hx.fsid_eq_of_same h hy hsame) (Kstat.mk.inj heq).2
    · rw [hsame] at hno
      cases hno
    · rw [hsame] at hno
      cases hno
  · rcases hy.map_cases h hbits sDev jIno with ⟨⟨sb, hsame⟩, -⟩ | ⟨-, hly, hpy⟩ | ⟨-, hpy⟩
    · rw [hnone] at hsame
      cases hsame
    · refine ⟨_, _, hpx, hpy, fun heq => ?_⟩
      -- The high bits give back the fsid, the low ones the inode number.
      have hino := (Kstat.mk.inj heq).2
      refine hdiff ?_ ?_
      · have hhigh := congrArg (fun n => n / 2 ^ (64 - ofs.xinoBits)) hino
        rwa [split_high hlx, split_high hly] at hhigh
      · have hlow := congrArg (fun n => n % 2 ^ (64 - ofs.xinoBits)) hino
        rwa [split_low hlx, split_low hly] at hlow
    · refine ⟨_, _, hpx, hpy, fun heq => ?_⟩
      exact hown y hy (Kstat.mk.inj heq).1.symm
  · rcases hy.map_cases h hbits sDev jIno with ⟨⟨sb, hsame⟩, -⟩ | ⟨-, hly, hpy⟩ | ⟨-, hpy⟩
    · rw [hnone] at hsame
      cases hsame
    · refine ⟨_, _, hpx, hpy, fun heq => ?_⟩
      exact hown x hx (Kstat.mk.inj heq).1
    · refine ⟨_, _, hpx, hpy, fun heq => ?_⟩
      have hfsid : x.fsid = y.fsid := by
        have hgx := RealStat.ownDev_mem upperDev (hx.fsid_le h)
        have hgy := RealStat.ownDev_mem upperDev (hy.fsid_le h)
        rw [(Kstat.mk.inj heq).1, ← hgy] at hgx
        refine (List.getElem?_inj ?_ hnodup).mp hgx
        rw [List.length_cons, List.length_map]
        exact Nat.lt_succ_of_le (hx.fsid_le h)
      exact hdiff hfsid (Kstat.mk.inj heq).2

/-- An upper filesystem, mounted with `xino=on`; nothing fails for the layers. -/
def xinoMount : OvlFs ℕ := ⟨some 0, [], [], 0, false, false, .on⟩

def plainLayer (dev : ℕ) : LayerEnv := ⟨.ok dev, none, false, none⟩

/-- The mount with two lower layers, the second one on the upper filesystem. -/
def xinoMounted : OvlFs ℕ := ⟨some 0, [⟨1, 20⟩], [⟨1, 1⟩, ⟨0, 0⟩], 1, false, false, .on⟩

/-- Inode 5 of the upper and of the lower filesystem. -/
theorem inode_identity_unique_xino :
    ovlGetLowerLayers id true [(1, plainLayer 20), (0, plainLayer 21)] xinoMount =
      (0, xinoMounted) ∧
    ovlMapDevIno xinoMounted 10 false 0 ⟨11, 5⟩ none = .ret ⟨10, 5⟩ ∧
    ovlMapDevIno xinoMounted 10 false 0 ⟨12, 5⟩ (some ⟨1, 1⟩) = .ret ⟨10, 2 ^ 63 + 5⟩ ∧
    ∃ p q, ovlMapDevIno xinoMounted 10 false 0 ⟨11, 5⟩ none = .ret p ∧
      ovlMapDevIno xinoMounted 10 false 0 ⟨12, 5⟩ (some ⟨1, 1⟩) = .ret q ∧ p ≠ q := by
  have hget : ovlGetLowerLayers id true [(1, plainLayer 20), (0, plainLayer 21)] xinoMount =
      (0, xinoMounted) := rfl
  refine ⟨hget, rfl, rfl, ?_⟩
  refine inode_identity_unique (x := ⟨none, ⟨11, 5⟩⟩) (y := ⟨some ⟨1, 1⟩, ⟨12, 5⟩⟩)
    ⟨rfl, rfl, .inl rfl⟩ (by decide) hget (show [10, 11, 20].Nodup by decide)
    ⟨fun _ => rfl, nofun, by decide, fun _ => rfl⟩ ⟨nofun, ?_, by decide, nofun⟩
    (.inl (by decide)) 0 0
  rintro l hl
  cases hl
  exact List.mem_cons_self

end FzzOverlay

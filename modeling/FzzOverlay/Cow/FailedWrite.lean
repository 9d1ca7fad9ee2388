import FzzOverlay.Cow.Hidden
import FzzOverlay.File.Alike

/-!
# Writes that fail

A request that fails before it stores a byte may have copied lower bytes to the upper file, in
blocks that stay unmarked. `Twin` relates the file after such a request to the file without
it; later writes keep the relation, and reads do not tell the two apart. The relation needs
that the upper file is long enough before the request.
-/

namespace FzzOverlay

open SparseFile

-- ════════════════════════════════════════════════════════════════════════
-- The file with and without the failed write
-- ════════════════════════════════════════════════════════════════════════

/-- `block_write_iter` returns an error, and no byte of the request was stored: the part before
`copy_done` failed, or the first `vfs_iter_write` did. -/
structure FailedWrite (env : WriteEnv) (f : OvlFile) (req : WriteReq) (r : WriteResult) :
    Prop where
  returns : blockWriteIter env f req = .ret r
  negative : r.ret < 0
  cause : (∃ m ret g, f.oi.blockStatus = some m ∧
    (if req.append then prepareAppend env m f else preparePositioned env m f req) =
      .fail ret g) ∨ ∃ e, env.wr 0 = .fail e

/-- Two files over the same lower layer with the same block map. Their upper contents agree
where reads look at them and behind the end of the lower file. -/
structure Twin (lower : File) (f g : OvlFile) : Prop where
  left : CowShape lower f
  right : CowShape lower g
  cowStatus : g.oi.cowStatus = f.oi.cowStatus
  blockCount : g.oi.blockCount = f.oi.blockCount
  copyCount : g.oi.copyCount = f.oi.copyCount
  blockStatus : g.oi.blockStatus = f.oi.blockStatus
  cells : ∀ i, ¬ f.Uncopied i ∨ lower.size ≤ i → f.upperData.cell i = g.upperData.cell i
  /-- The upper files end at the same offset, or both end before the end of the lower file,
  whose last block is not copied. -/
  sizes : f.upperData.size = g.upperData.size ∨
    (f.Uncopied (lower.size - 1) ∧ f.upperData.size ≤ lower.size ∧
      g.upperData.size ≤ lower.size ∧
      ∀ i, f.Copied i → (i < f.upperData.size ↔ i < g.upperData.size))

section Failed

variable {lower : File} {f g : OvlFile} {env : WriteEnv} {req : WriteReq} {r : WriteResult}

theorem storeData_nil (env : WriteEnv) (m : BlockMap) (g : OvlFile) (hdata : req.data = [])
    (hreal : g.realdataIsUpper = true) : (storeData env m g req).ret = 0 := by
  rw [storeData, if_pos hreal, hdata]
  simp [writeLoop]

theorem storeData_fail {e : Errno} (m : BlockMap) (he : env.wr 0 = .fail e)
    (hreal : f.realdataIsUpper = true) (hdata : req.data ≠ []) :
    storeData env m f req = ⟨EPERM.ret, req.pos, f, none⟩ := by
  rw [storeData, if_pos hreal]
  simp only [writeLoop_fail he req.append req.pos hdata, Bool.false_eq_true, if_false,
    OvlFile.setUpperData_upperData]

/-- A failed write has only patched uncopied blocks with their lower bytes. -/
theorem FailedWrite.patched (h : CowShape lower f) (hmax : lower.size ≤ MAX_COW_SIZE)
    (hcow : f.oi.cowStatus = true) (hfail : FailedWrite env f req r) :
    ∃ up lp data, r.file = f.withFiles up lp data ∧ lp.First ∧
      PatchedFrom f.Uncopied lower f.upperData data := by
  obtain ⟨hret, hneg, hcause⟩ := hfail
  obtain ⟨m, hm, -⟩ := h.map hcow
  have hun : ∀ i, InRanges (copyRanges env.oob f.oi m lower.size req) i → i < lower.size →
      f.Uncopied i := fun i hi hlt => uncopied_of_inRanges h.counts hmax hcow hm hi hlt
  have hprep := prepOk_prepare (m := m) h.upper h.lowerFile env req
  rw [h.lowerAt_zero] at hprep
  have hcause' : (∃ ret g, (if req.append then prepareAppend env m f
      else preparePositioned env m f req) = .fail ret g) ∨ ∃ e, env.wr 0 = .fail e := by
    refine hcause.imp_left ?_
    rintro ⟨m', ret, g, hm', hg⟩
    obtain rfl : m = m' := Option.some.inj (hm.symm.trans hm')
    exact ⟨ret, g, hg⟩
  rw [blockWriteIter, hm] at hret
  simp only at hret
  revert hprep hret hcause'
  generalize (if req.append then prepareAppend env m f else preparePositioned env m f req) = p
  intro hret hprep hcause'
  cases p with
  | oops => cases hret
  | fail ret g =>
    obtain ⟨-, up, lp, data, rfl, hlp, hpatch⟩ := hprep
    cases hret
    rw [h.lowerAt_zero] at hpatch
    exact ⟨up, lp, data, rfl, hlp, hpatch.mono hun⟩
  | ready g =>
    obtain ⟨ret, g', hno⟩ | ⟨e, he⟩ := hcause'
    · cases hno
    obtain ⟨up, lp, rfl, hlp⟩ := hprep
    have hr := Outcome.ret.inj hret
    rw [h.lowerAt_zero] at hr
    have hreal : (f.withFiles up lp (fill lower f.upperData
        (copyRanges env.oob f.oi m lower.size req))).realdataIsUpper = true :=
      OvlFile.realdataIsUpper_of_upperdata (OvlFile.withFiles_upper_isSome h.upper _ _ _)
        h.upperdata
    have hdata : req.data ≠ [] := by
      intro hnil
      have hzero := storeData_nil env m _ hnil hreal
      rw [hr] at hzero
      omega
    refine ⟨up, lp, _, ?_, hlp, (patchedFrom_fill lower f.upperData _).mono hun⟩
    rw [← hr, storeData_fail m he hreal hdata]

/-- After a failed write the file is a twin of the file without it. -/
theorem FailedWrite.twin (h : CowShape lower f) (hh : Hidden lower f)
    (hmax : lower.size ≤ MAX_COW_SIZE) (hcow : f.oi.cowStatus = true)
    (hfail : FailedWrite env f.ovlCopyattr req r) : Twin lower r.file.ovlCopyattr f := by
  obtain ⟨up, lp, data, hfile, hlp, hpatch'⟩ := hfail.patched h.ovlCopyattr hmax hcow
  have hpatch : PatchedFrom f.Uncopied lower f.upperData data := hpatch'
  rw [hfile]
  have hdata : (f.ovlCopyattr.withFiles up lp data).ovlCopyattr.upperData = data :=
    OvlFile.withFiles_upperData h.upper up lp data
  have hshape : CowShape lower (f.ovlCopyattr.withFiles up lp data).ovlCopyattr :=
    ⟨h.lowerstack, OvlFile.withFiles_upper_isSome h.upper up lp data, h.upperdata, hlp, h.counts,
      h.map⟩
  refine ⟨hshape, h, rfl, rfl, rfl, rfl, fun i hi => ?_, ?_⟩
  · rw [hdata]
    obtain hi | hi := hi
    · exact hpatch.cell_eq hi
    · exact hpatch.cell_eq_of_le hi
  · rw [hdata]
    have hle := hpatch.size_le
    by_cases heq : data.size = f.upperData.size
    · exact .inl heq
    obtain hlt | ⟨j, hj, hun, hjl⟩ := hpatch.grown (data.size - 1) (by omega)
    · omega
    obtain ⟨hlast, hcov⟩ := hh j hun hjl (by omega)
    refine .inr ⟨hlast, by omega, by omega, fun i hi => ⟨fun hlt => ?_, fun hlt => by omega⟩⟩
    exact hcov i hi (by omega)

end Failed

-- ════════════════════════════════════════════════════════════════════════
-- Later writes
-- ════════════════════════════════════════════════════════════════════════

/-- What a request copies depends on the map alone. -/
theorem copyRanges_congr {oob : ℕ → BlockStatus} {oi oi' : OvlInode} (m : BlockMap) (size : ℕ)
    (req : WriteReq) (h : oi'.blockCount = oi.blockCount) :
    copyRanges oob oi' m size req = copyRanges oob oi m size req := by
  have hstatus : ∀ b, statusAt oob oi' m b = statusAt oob oi m b := by
    intro b
    rw [statusAt, statusAt, h]
  have hstart : startCopies oob oi' m req = startCopies oob oi m req := by
    rw [startCopies, startCopies, hstatus]
  have hend : endCopies oob oi' m req = endCopies oob oi m req := by
    rw [endCopies, endCopies, hstatus, hstart]
  rw [copyRanges, copyRanges, hstart, hend, h]

section Later

variable {lower : File} {f g f' g' : OvlFile} {env : WriteEnv} {req : WriteReq}
  {m mf mg : BlockMap}

theorem Twin.uncopied_iff (h : Twin lower f g) (i : ℕ) : g.Uncopied i ↔ f.Uncopied i := by
  rw [OvlFile.Uncopied, OvlFile.Uncopied, h.cowStatus, h.blockCount, h.blockStatus]

theorem Twin.copied_iff (h : Twin lower f g) (i : ℕ) : g.Copied i ↔ f.Copied i := by
  rw [OvlFile.Copied, OvlFile.Copied, h.cowStatus, h.blockCount, h.blockStatus]

theorem Twin.symm (h : Twin lower f g) : Twin lower g f := by
  refine ⟨h.right, h.left, h.cowStatus.symm, h.blockCount.symm, h.copyCount.symm,
    h.blockStatus.symm, fun i hi => ?_, ?_⟩
  · rw [h.uncopied_iff] at hi
    exact (h.cells i hi).symm
  · obtain heq | ⟨hlast, hf, hg, hcov⟩ := h.sizes
    · exact .inl heq.symm
    · exact .inr ⟨(h.uncopied_iff _).mpr hlast, hg, hf, fun i hi =>
        (hcov i ((h.copied_iff i).mp hi)).symm⟩

/-- The twins of a file outside copy-on-write mode have its contents. -/
theorem Twin.upperData_eq (h : Twin lower f g) (hcow : f.oi.cowStatus = false) :
    f.upperData = g.upperData := by
  have hno := Tracks.not_uncopied_of_plain hcow
  refine SparseFile.ext ?_ fun i => h.cells i (.inl (hno i))
  obtain heq | ⟨hlast, -⟩ := h.sizes
  · exact heq
  · exact absurd hlast (hno _)

/-- Twins are filled from the same ranges. -/
theorem Twin.filledData_eq (h : Twin lower f g) :
    filledData env m g req =
      fill lower g.upperData (copyRanges env.oob f.oi m lower.size req) := by
  rw [filledData, h.right.lowerAt_zero, copyRanges_congr m lower.size req h.blockCount]

theorem CowShape.filledData_eq (h : CowShape lower f) :
    filledData env m f req =
      fill lower f.upperData (copyRanges env.oob f.oi m lower.size req) := by
  rw [filledData, h.lowerAt_zero]

/-- Filling the last block makes the upper files of twins equally long. -/
theorem Twin.fill_size_eq (h : Twin lower f g) {rs : List (ℕ × ℕ)}
    (hlast : f.Uncopied (lower.size - 1) → InRanges rs (lower.size - 1) ∧ 0 < lower.size) :
    (fill lower f.upperData rs).size = (fill lower g.upperData rs).size := by
  obtain heq | ⟨hun, hf, hg, -⟩ := h.sizes
  · exact fill_size_eq_of_eq lower rs heq
  · obtain ⟨hin, h0⟩ := hlast hun
    have hf' := fill_size_le lower f.upperData rs
    have hg' := fill_size_le lower g.upperData rs
    have hlf := lt_fill_size (f := f.upperData) hin (show lower.size - 1 < lower.size by omega)
    have hlg := lt_fill_size (f := g.upperData) hin (show lower.size - 1 < lower.size by omega)
    omega

/-- A request that returns its full length stored all its data. -/
theorem CowWrite.stored_of_full {r : WriteResult} (h : CowWrite env m f req r)
    (hfull : r.ret = req.data.length) :
    ∃ m', Updated (storedData env m f req req.data.length) f r.file ∧
      Marked (blockRange f.oi req).1 (blockRange f.oi req).2 m m' f r.file := by
  cases h with
  | unprepared data hret => omega
  | torn n hret => omega
  | stored n m' hn hle _ _ hret hpos hfile hmap =>
    obtain rfl : n = req.data.length := by omega
    exact ⟨m', hfile, hmap⟩

theorem ovlWriteIter_plain_full {r : WriteResult} (h : CowShape lower f)
    (hcow : f.oi.cowStatus = false) (hdata : req.data ≠ []) (hr : ovlWriteIter env f req = .ret r)
    (hfull : r.ret = req.data.length) : SameMap f r.file ∧
      Updated (f.upperData.write (writeAt req.append f.upperData req.pos) req.data) f r.file := by
  obtain ⟨hmap, ⟨hneg, -⟩ | ⟨n, -, -, -, -, hret, -, hfile⟩⟩ :=
    ovlWriteIter_plain h.upper h.upperdata h.lowerFile hcow hdata hr
  · omega
  · obtain rfl : n = req.data.length := by omega
    rw [List.take_length] at hfile
    exact ⟨hmap, hfile⟩

/-- A completed write goes to the same offset of twins. -/
theorem Twin.writeAt_eq (h : Twin lower f g) (env : WriteEnv) (req : WriteReq)
    (hmax : lower.size ≤ MAX_COW_SIZE) (hcow : f.oi.cowStatus = true)
    (hm : f.oi.blockStatus = some m) :
    writeAt req.append (filledData env m f req) req.pos =
      writeAt req.append (filledData env m g req) req.pos := by
  rw [h.filledData_eq, h.left.filledData_eq, writeAt, writeAt]
  by_cases happ : req.append = true
  · rw [if_pos happ, if_pos happ]
    refine h.fill_size_eq fun hlast => ?_
    obtain ⟨-, h0, hblast, -⟩ := h.left.counts.block_last hmax hcow
    have hrange : blockRange f.oi req = (f.oi.blockCount, f.oi.blockCount) := if_pos happ
    refine ⟨inRanges_of_marked h.left.counts hmax hm hlast (by omega) ?_ ?_ ?_, h0⟩
    · rw [hrange, hblast]
    · rw [hrange, hblast]
    · rw [happ]
      intro h
      cases h
  · rw [if_neg happ, if_neg happ]

theorem Marked.map_eq {first last : ℕ} (hf : Marked first last m mf f f')
    (hg : Marked first last m mg g g') (hbc : g.oi.blockCount = f.oi.blockCount) : mg = mf := by
  have hcells : mg.cells = mf.cells := by
    funext j
    rw [hf.cells, hg.cells, hbc]
  have haddr : mg.addr = mf.addr := hg.addr.trans hf.addr.symm
  cases mf
  cases mg
  simp only at hcells haddr
  rw [hcells, haddr]

/-- A lower byte of a block that a completed write marked was overwritten or copied. -/
theorem CowShape.inRanges_of_new (h : CowShape lower f) (env : WriteEnv)
    (hmax : lower.size ≤ MAX_COW_SIZE) (hm : f.oi.blockStatus = some m) {data : File}
    (hfile : Updated data f f')
    (hmark : Marked (blockRange f.oi req).1 (blockRange f.oi req).2 m mf f f') {at_ : ℕ}
    (hat : req.append = false → at_ = req.pos) {i : ℕ} (hi : f.Uncopied i) (hi' : ¬ f'.Uncopied i)
    (hlt : i < lower.size) (hout : i < at_ ∨ at_ + req.data.length ≤ i) :
    InRanges (copyRanges env.oob f.oi m lower.size req) i := by
  obtain ⟨m₀, hm₀, hcount⟩ := h.map hi.1
  obtain rfl : m = m₀ := Option.some.inj (hm.symm.trans hm₀)
  obtain ⟨h₁, h₂⟩ := hmark.range_of_uncopied hfile hm
    (one_le_blockRange req h.counts hmax hi.1) hcount hi hi'
  refine inRanges_of_marked h.counts hmax hm hi hlt h₁ h₂ fun happ => ?_
  rw [hat happ] at hout
  exact hout

/-- What a completed write stores in twins: the same data at the same offset, over contents
filled from the same ranges. -/
structure TwinWrite (lower : File) (f f' g g' : OvlFile) (rs : List (ℕ × ℕ)) (at_ : ℕ)
    (xs : List UInt8) : Prop where
  left : f'.upperData = (fill lower f.upperData rs).write at_ xs
  right : g'.upperData = (fill lower g.upperData rs).write at_ xs
  /-- Only lower bytes of uncopied blocks are filled. -/
  uncopied : ∀ i, InRanges rs i → i < lower.size → f.Uncopied i
  /-- A block that is marked was overwritten or filled. -/
  filled : ∀ i, f.Uncopied i → ¬ f'.Uncopied i → i < lower.size →
    i < at_ ∨ at_ + xs.length ≤ i → InRanges rs i
  /-- A block that is copied afterwards was in the map before. -/
  copied : ∀ i, f'.Copied i → f.Copied i ∨ f.Uncopied i

namespace TwinWrite

variable {rs : List (ℕ × ℕ)} {at_ : ℕ} {xs : List UInt8}

theorem cells (hw : TwinWrite lower f f' g g' rs at_ xs) (h : Twin lower f g) {i : ℕ}
    (hi : ¬ f'.Uncopied i ∨ lower.size ≤ i) : f'.upperData.cell i = g'.upperData.cell i := by
  rw [hw.left, hw.right]
  by_cases hmem : at_ ≤ i ∧ i < at_ + xs.length
  · rw [write_cell_of_mem _ hmem.1 hmem.2, write_cell_of_mem _ hmem.1 hmem.2]
  have hout : i < at_ ∨ at_ + xs.length ≤ i := by omega
  rw [write_cell_of_not_mem _ hout, write_cell_of_not_mem _ hout]
  have hpf := patchedFrom_fill lower f.upperData rs
  have hpg := patchedFrom_fill lower g.upperData rs
  by_cases hle : lower.size ≤ i
  · rw [hpf.cell_eq_of_le hle, hpg.cell_eq_of_le hle]
    exact h.cells i (.inr hle)
  have hlt : i < lower.size := Nat.lt_of_not_le hle
  by_cases hun : f.Uncopied i
  · have hin := hw.filled i hun (hi.resolve_right hle) hlt hout
    rw [fill_cell hin hlt, fill_cell hin hlt]
  · have hno : ¬ InRanges rs i := fun hin => hun (hw.uncopied i hin hlt)
    rw [hpf.cell_eq hno, hpg.cell_eq hno]
    exact h.cells i (.inl hun)

theorem sizes (hw : TwinWrite lower f f' g g' rs at_ xs) (h : Twin lower f g)
    (h' : CowShape lower f') (hmax : lower.size ≤ MAX_COW_SIZE) (hcow : f.oi.cowStatus = true)
    (hne : xs ≠ []) :
    f'.upperData.size = g'.upperData.size ∨
      (f'.Uncopied (lower.size - 1) ∧ f'.upperData.size ≤ lower.size ∧
        g'.upperData.size ≤ lower.size ∧
        ∀ i, f'.Copied i → (i < f'.upperData.size ↔ i < g'.upperData.size)) := by
  rw [hw.left, hw.right, write_size_of_ne_nil _ _ hne, write_size_of_ne_nil _ _ hne]
  obtain ⟨-, h0, -⟩ := h.left.counts.block_last hmax hcow
  have hfs := fill_size_le lower f.upperData rs
  have hgs := fill_size_le lower g.upperData rs
  obtain heq | ⟨hlast, hf, hg, hcov⟩ := h.sizes
  · left
    rw [fill_size_eq_of_eq lower rs heq]
  by_cases hlong : lower.size ≤ at_ + xs.length
  · -- The request reaches the end of the lower file.
    left
    omega
  by_cases hlast' : f'.Uncopied (lower.size - 1)
  · refine .inr ⟨hlast', by omega, by omega, fun i hi => ?_⟩
    have hlow : i < lower.size := by
      by_contra hle
      obtain ⟨-, -, hend, hpast⟩ := h'.counts.block_last hmax hlast'.1
      have hblock : ovlGetBlock (lower.size - 1) = ovlGetBlock i :=
        le_antisymm (ovlGetBlock_mono (by omega)) (hend ▸ hi.2.1)
      exact (hi.of_block_eq hblock).not_uncopied hlast'
    obtain hc | hu := hw.copied i hi
    · have := hcov i hc
      rw [lt_max_iff, lt_max_iff, lt_fill_size_iff, lt_fill_size_iff, this]
    · by_cases hmem : i < at_ + xs.length
      · rw [lt_max_iff, lt_max_iff]
        exact iff_of_true (.inr hmem) (.inr hmem)
      · have hin := hw.filled i hu hi.not_uncopied hlow (by omega)
        rw [lt_max_iff, lt_max_iff]
        exact iff_of_true (.inl (lt_fill_size hin hlow)) (.inl (lt_fill_size hin hlow))
  · -- The last block was filled.
    left
    have hin := hw.filled _ hlast hlast' (by omega) (by omega)
    rw [h.fill_size_eq fun _ => ⟨hin, h0⟩]

end TwinWrite

/-- A completed write of the same request stores the same in twins. -/
theorem Twin.twinWrite (h : Twin lower f g) (hmax : lower.size ≤ MAX_COW_SIZE)
    (hcow : f.oi.cowStatus = true) (hm : f.oi.blockStatus = some m)
    (hf : Updated (storedData env m f req req.data.length) f f')
    (hfm : Marked (blockRange f.oi req).1 (blockRange f.oi req).2 m mf f f')
    (hg : Updated (storedData env m g req req.data.length) g g') :
    TwinWrite lower f f' g g' (copyRanges env.oob f.oi m lower.size req)
      (writeAt req.append (filledData env m f req) req.pos) req.data := by
  constructor
  · rw [hf.upperData_eq h.left.upper, storedData, List.take_length, h.left.filledData_eq]
  · rw [hg.upperData_eq h.right.upper, storedData, List.take_length,
      h.writeAt_eq env req hmax hcow hm, h.filledData_eq]
  · intro i hi hlt
    exact uncopied_of_inRanges h.left.counts hmax hcow hm hi hlt
  · intro i hi hi' hlt hout
    refine h.left.inRanges_of_new env hmax hm hf hfm (fun happ => ?_) hi hi' hlt hout
    rw [happ]
    rfl
  · intro i hi
    exact (hfm.copied hf hm hi).imp_right And.left

/-- A completed write of the same request keeps twins. -/
theorem Twin.stored (h : Twin lower f g) (hmax : lower.size ≤ MAX_COW_SIZE)
    (hcow : f.oi.cowStatus = true) (hm : f.oi.blockStatus = some m) (hdata : req.data ≠ [])
    (hf : Updated (storedData env m f req req.data.length) f f')
    (hfm : Marked (blockRange f.oi req).1 (blockRange f.oi req).2 m mf f f')
    (hg : Updated (storedData env m g req req.data.length) g g')
    (hgm : Marked (blockRange g.oi req).1 (blockRange g.oi req).2 m mg g g') :
    Twin lower f' g' := by
  have hrange : blockRange g.oi req = blockRange f.oi req := by
    rw [blockRange, blockRange, h.blockCount]
  rw [hrange] at hgm
  obtain rfl := hfm.map_eq hgm h.blockCount
  have hfirst := one_le_blockRange req h.left.counts hmax hcow
  have hleft := h.left.marked hcow hm hf hfm hfirst
  have hright := h.right.marked (h.cowStatus.trans hcow) (h.blockStatus.trans hm) hg hgm hfirst
  have hcount : g'.oi.copyCount = f'.oi.copyCount := by
    have h₁ := hfm.copyCount hfirst
    have h₂ := hgm.copyCount hfirst
    rw [h.blockCount, h.copyCount] at h₂
    omega
  have hw := h.twinWrite hmax hcow hm hf hfm hg
  refine ⟨hleft, hright, ?_, ?_, hcount, ?_, fun i hi => hw.cells h hi,
    hw.sizes h hleft hmax hcow hdata⟩
  · rw [hfm.cowStatus, hgm.cowStatus, hcount, h.blockCount, h.cowStatus]
  · rw [hf.blockCount, hg.blockCount, h.blockCount]
  · rw [hfm.blockStatus, hgm.blockStatus]

/-- A complete write that is made to both files keeps twins. -/
theorem Twin.write {r r' : WriteResult} (h : Twin lower f g) (hmax : lower.size ≤ MAX_COW_SIZE)
    (hf : ovlWriteIter env f req = .ret r) (hfull : r.ret = req.data.length)
    (hg : ovlWriteIter env g req = .ret r') (hfull' : r'.ret = req.data.length) :
    Twin lower r.file r'.file := by
  by_cases hdata : req.data = []
  · rw [ovlWriteIter, if_pos hdata] at hf hg
    cases hf
    cases hg
    exact h
  cases hcow : f.oi.cowStatus with
  | true =>
    obtain ⟨m, hm, -⟩ := h.left.map hcow
    obtain ⟨mf, hfd, hfm⟩ := (ovlWriteIter_cow h.left.upper h.left.upperdata h.left.lowerFile hm
      hcow hdata hf).stored_of_full hfull
    obtain ⟨mg, hgd, hgm⟩ := (ovlWriteIter_cow h.right.upper h.right.upperdata h.right.lowerFile
      (h.blockStatus.trans hm) (h.cowStatus.trans hcow) hdata hg).stored_of_full hfull'
    exact h.stored hmax hcow hm hdata hfd hfm hgd hgm
  | false =>
    obtain ⟨hfm, hfd⟩ := ovlWriteIter_plain_full h.left hcow hdata hf hfull
    obtain ⟨hgm, hgd⟩ := ovlWriteIter_plain_full h.right (h.cowStatus.trans hcow) hdata hg hfull'
    rw [← h.upperData_eq hcow] at hgd
    refine ⟨h.left.patched hfm hfd, h.right.patched hgm hgd, ?_, ?_, ?_, ?_, fun i _ => ?_, ?_⟩
    · rw [hfm.cowStatus, hgm.cowStatus, h.cowStatus]
    · rw [hfd.blockCount, hgd.blockCount, h.blockCount]
    · rw [hfm.copyCount, hgm.copyCount, h.copyCount]
    · rw [hfm.blockStatus, hgm.blockStatus, h.blockStatus]
    · rw [hfd.upperData_eq h.left.upper, hgd.upperData_eq h.right.upper]
    · left
      rw [hfd.upperData_eq h.left.upper, hgd.upperData_eq h.right.upper]

/-- Reads change the cached files of twins only. -/
theorem Twin.cached {oi oi' : OvlInode} (h : Twin lower f g) (hf : Cached f f.oi oi)
    (hg : Cached g g.oi oi') : Twin lower { f with oi := oi } { g with oi := oi' } := by
  have hleft := h.left.cached hf
  have hright := h.right.cached hg
  obtain ⟨up, lp, rfl, -⟩ := hf
  obtain ⟨up', lp', rfl, -⟩ := hg
  exact ⟨hleft, hright, h.cowStatus, h.blockCount, h.copyCount, h.blockStatus, h.cells, h.sizes⟩

/-- The upper files of twins have the same bytes where reads look at them. -/
theorem Twin.get?_eq (h : Twin lower f g) (hmax : lower.size ≤ MAX_COW_SIZE) {i : ℕ}
    (hi : ¬ f.Uncopied i) : g.upperData.get? i = f.upperData.get? i := by
  have hsize : i < g.upperData.size ↔ i < f.upperData.size := by
    obtain heq | ⟨hlast, hf, hg, hcov⟩ := h.sizes
    · rw [heq]
    obtain hu | hc | hp := h.left.block_cases hlast.1 i
    · exact absurd hu hi
    · exact (hcov i hc).symm
    · -- Past the map both files have ended.
      obtain ⟨-, -, hend, -⟩ := h.left.counts.block_last hmax hlast.1
      have hle : lower.size ≤ i := by
        by_contra hlt
        have := ovlGetBlock_mono (show i ≤ lower.size - 1 by omega)
        omega
      exact iff_of_false (by omega) (by omega)
  by_cases hlt : i < f.upperData.size
  · rw [get?_of_lt hlt, get?_of_lt (hsize.mpr hlt), h.cells i (.inl hi)]
  · rw [get?_of_le (Nat.le_of_not_lt hlt), get?_of_le (Nat.le_of_not_lt (mt hsize.mp hlt))]

theorem Twin.readsAlike (h : Twin lower f g) (hmax : lower.size ≤ MAX_COW_SIZE) :
    ReadsAlike f g where
  cowStatus := h.cowStatus
  blockCount := h.blockCount
  blockStatus := h.blockStatus
  lower := h.right.readLower_eq.trans h.left.readLower_eq.symm
  upper _ hi := h.get?_eq hmax hi
  realdata hcow := by
    rw [OvlFile.ovlInodeRealdata_of_upperdata h.right.upper h.right.upperdata,
      OvlFile.ovlInodeRealdata_of_upperdata h.left.upper h.left.upperdata, h.upperData_eq hcow]

end Later

-- ════════════════════════════════════════════════════════════════════════
-- Runs with and without the failed write
-- ════════════════════════════════════════════════════════════════════════

/-- The same call in two runs: a write that is successful in both, or a read that returns in
both. -/
inductive BothStep : OvlFile × OvlFile → DataOp → OvlFile × OvlFile → Prop
  | write {f g : OvlFile} {env : WriteEnv} {req : WriteReq} {r r' : WriteResult}
      (hf : ovlWriteIter env f req = .ret r) (hfull : r.ret = req.data.length)
      (hg : ovlWriteIter env g req = .ret r') (hfull' : r'.ret = req.data.length) :
      BothStep (f, g) (.write env req) (r.file, r'.file)
  | read {f g : OvlFile} {fuel : ℕ} {env : ReadEnv} {pos count : ℕ} {res res' : ReadResult}
      (hf : ovlReadIter fuel env f pos count = .ret res)
      (hg : ovlReadIter fuel env g pos count = .ret res') :
      BothStep (f, g) (.read fuel env pos count) ({ f with oi := res.oi }, { g with oi := res'.oi })

theorem BothStep.twin {lower : File} {s t : OvlFile × OvlFile} {op : DataOp}
    (hmax : lower.size ≤ MAX_COW_SIZE) (hs : BothStep s op t) (h : Twin lower s.1 s.2) :
    Twin lower t.1 t.2 := by
  cases hs with
  | write hf hfull hg hfull' => exact h.write hmax hf hfull hg hfull'
  | read hf hg => exact h.cached (ovlReadIter_cached hf) (ovlReadIter_cached hg)

/-- In every state that calls reach from a lookup, when they hide no lower byte behind the end
of the upper file, a write that failed before it stored a byte changes no later read: after any
successful writes and reads, a read that returns delivers the bytes it delivers in the run
without the failed write. `ovl_write_iter` copies the attributes before and after the call. -/
theorem failed_write_invisible {lower : File} {old : OvlInode} {f a b : OvlFile}
    {tr : List (OvlFile × DataOp)} {tr' : List ((OvlFile × OvlFile) × DataOp)} {env : WriteEnv}
    {req : WriteReq} {r : WriteResult} (hmax : lower.size ≤ 2 ^ 44 - 4096)
    (hrun : Lts.Run DataStep (.lookedUp [lower] old) tr f)
    (hkeep : ∀ p ∈ tr, p.2.KeepsHidden lower p.1) (hcow : f.oi.cowStatus = true)
    (hopen : f.OpenForWrite) (hfail : FailedWrite env f.ovlCopyattr req r)
    (hlater : Lts.Run BothStep (r.file.ovlCopyattr, f) tr' (a, b))
    {fuel pos count : ℕ} {renv : ReadEnv} {res : ReadResult}
    (hres : ovlReadIter fuel renv a pos count = .ret res) (h0 : 0 ≤ res.ret) :
    ovlReadIter fuel renv b pos count ≠ .running ∧
      ∀ res', ovlReadIter fuel renv b pos count = .ret res' → 0 ≤ res'.ret →
        res'.ret = res.ret ∧ res'.pos = res.pos ∧ res'.out = res.out := by
  have hreached : ReachedFile lower f := hrun.invariant_of_guard (I := ReachedFile lower)
    (G := fun f op => op.KeepsHidden lower f) (.notCopied (notCopied_lookedUp lower old))
    (fun g op g' hg hop hs => hg.step hmax hop hs) hkeep
  obtain ⟨hshape, hhidden⟩ := hreached.of_open hopen hfail.returns
  have htwin : Twin lower a b := hlater.invariant (I := fun s => Twin lower s.1 s.2)
    (hfail.twin hshape hhidden hmax hcow) fun s op t h hs => hs.twin hmax h
  exact ovlReadIter_alike (htwin.readsAlike hmax)
    (fun hon => Option.isSome_iff_exists.mpr ((htwin.left.map hon).imp fun _ => And.left)) hres h0

/-- Nothing fails but the first `vfs_iter_write`. -/
def WriteEnv.refused : WriteEnv := { WriteEnv.full with wr := fun _ => .fail EINTR }

/-- A write behind the end of the file fails, having copied the last byte. One byte is appended,
and the last byte is read. -/
theorem failed_write_invisible_append : ∃ r a b res,
    Lts.Run DataStep (.lookedUp [twoBlocks] zeroInode)
        [(.lookedUp [twoBlocks] zeroInode, .copyUp (.full false) 1)] twoBlockCow ∧
      FailedWrite .refused twoBlockCow.ovlCopyattr ⟨4097, false, [9]⟩ r ∧
      Lts.Run BothStep (r.file.ovlCopyattr, twoBlockCow)
        [((r.file.ovlCopyattr, twoBlockCow), .write .full ⟨0, true, [7]⟩)] (a, b) ∧
      ovlReadIter 3 .full a 4096 1 = .ret res ∧ 0 ≤ res.ret ∧
      ovlReadIter 3 .full b 4096 1 ≠ .running ∧
      ∀ res', ovlReadIter 3 .full b 4096 1 = .ret res' → 0 ≤ res'.ret →
        res'.ret = res.ret ∧ res'.pos = res.pos ∧ res'.out = res.out := by
  obtain ⟨r, hfail, wa, wb, hwa, hra, hwb, hrb, res, hres, h0⟩ : ∃ r,
      FailedWrite .refused twoBlockCow.ovlCopyattr ⟨4097, false, [9]⟩ r ∧ ∃ wa wb,
        ovlWriteIter .full r.file.ovlCopyattr ⟨0, true, [7]⟩ = .ret wa ∧ wa.ret = 1 ∧
        ovlWriteIter .full twoBlockCow ⟨0, true, [7]⟩ = .ret wb ∧ wb.ret = 1 ∧
        ∃ res, ovlReadIter 3 .full wa.file 4096 1 = .ret res ∧ 0 ≤ res.ret :=
    ⟨_, ⟨rfl, by decide, .inr ⟨EINTR, rfl⟩⟩, _, _, rfl, rfl, rfl, rfl, _, rfl, by decide⟩
  have hlater : Lts.Run BothStep (r.file.ovlCopyattr, twoBlockCow)
      [((r.file.ovlCopyattr, twoBlockCow), .write .full ⟨0, true, [7]⟩)] (wa.file, wb.file) :=
    .snoc .nil (.write hwa hra hwb hrb)
  have hrun : Lts.Run DataStep (.lookedUp [twoBlocks] zeroInode)
      [(.lookedUp [twoBlocks] zeroInode, .copyUp (.full false) 1)] twoBlockCow :=
    .snoc .nil (.copyUp twoBlockCow_copyUp)
  have hkeep : ∀ p ∈ [(OvlFile.lookedUp [twoBlocks] zeroInode, DataOp.copyUp (.full false) 1)],
      p.2.KeepsHidden twoBlocks p.1 := by
    intro p hp
    obtain rfl := List.mem_singleton.mp hp
    exact fun _ htrunc => absurd htrunc (by decide)
  exact ⟨r, wa.file, wb.file, res, hrun, hfail, hlater, hres, h0,
    failed_write_invisible (by decide) hrun hkeep rfl ⟨rfl, rfl⟩ hfail hlater hres h0⟩

/-- With both files open, a request for the first byte copies the first block and then fails. -/
theorem failedWrite_first {lower : File} {f : OvlFile} {m : BlockMap}
    (hstack : f.lowerstack = [lower]) (hup : f.upper.isSome) (hdata : f.oi.upperdata = true)
    (hupf : f.oi.upperFile = .opened 0) (hlowf : f.oi.lowerFile = .opened 0)
    (hm : f.oi.blockStatus = some m) (hcount : 1 ≤ f.oi.blockCount) (hcell : m.cells 1 = .uncopy) :
    FailedWrite .refused f ⟨0, false, [9]⟩ ⟨EPERM.ret, 0, f.setUpperData
      (ovlCopyUpBlock .plain lower f.upperData 0 (blockLen 1 lower.size)).2, none⟩ := by
  obtain ⟨u, hu⟩ := Option.isSome_iff_exists.mp hup
  have hlower : f.derefLower = some lower := by
    simp [OvlFile.derefLower, hlowf, OvlFile.lowerAt, hstack]
  have hupper : f.derefUpper = some f.upperData := by
    simp [OvlFile.derefUpper, hupf, OvlFile.upperData, hu]
  have hblock : ovlGetBlock 1 = 1 := by decide
  have hstart : startCopies WriteEnv.refused.oob f.oi m ⟨0, false, [9]⟩ = false := by
    rw [startCopies, decide_eq_false (by decide), Bool.false_and]
  have hend : endCopies WriteEnv.refused.oob f.oi m ⟨0, false, [9]⟩ = true := by
    rw [endCopies, hstart, statusAt]
    simp [hblock, hcount, hcell, BLOCK_SIZE]
  have hcopy : copyRange .plain f 0 (blockLen 1) = .ready
      (f.setUpperData (ovlCopyUpBlock .plain lower f.upperData 0 (blockLen 1 lower.size)).2) := by
    rw [copyRange, hlower, hupper]
    simp only
    rw [if_neg (by rw [ovlCopyUpBlock_plain]; decide)]
  have hprep : preparePositioned .refused m f ⟨0, false, [9]⟩ = .ready
      (f.setUpperData (ovlCopyUpBlock .plain lower f.upperData 0 (blockLen 1 lower.size)).2) := by
    have hopenU : openUpper none f = .ready f := by
      unfold openUpper
      rw [hu, hupf]
    have hopenL : openLower none f = .ready f := by
      unfold openLower
      rw [hlowf]
    rw [preparePositioned, hstart]
    simp only [Bool.false_eq_true, if_false, Prep.andThen, hend, if_true, copyBlock]
    rw [show WriteEnv.refused.openUpper = none from rfl, hopenU]
    simp only
    rw [show WriteEnv.refused.openLower = none from rfl, hopenL]
    simp only [List.length_singleton, Nat.zero_add, hblock, Nat.sub_self, Nat.zero_mul]
    exact hcopy
  refine ⟨?_, EPERM.ret_neg, .inr ⟨EINTR, rfl⟩⟩
  rw [blockWriteIter, hm]
  simp only [Bool.false_eq_true, if_false, hprep]
  refine congrArg Outcome.ret (storeData_fail (e := EINTR) m rfl ?_ (List.cons_ne_nil _ _))
  refine OvlFile.realdataIsUpper_of_upperdata ?_ hdata
  rw [OvlFile.setUpperData, Option.isSome_map]
  exact hup

/-- An append of two bytes to that file was complete, and left `v` behind the first block. -/
def LastByte (r : WriteResult) (v : UInt8) : Prop :=
  r.ret = 2 ∧ r.file.upper.isSome ∧ r.file.oi.upperFile = .opened 0 ∧ r.file.Copied 4096 ∧
    r.file.upperData.get? 4096 = some v

theorem LastByte.returns {r : WriteResult} {v : UInt8} (h : LastByte r v) :
    Returns r.file 4096 1 1 [v] := by
  obtain ⟨-, hup, hfile, hcopied, hget⟩ := h
  refine returns_one_copied hup ?_ hcopied hget
  rw [hfile]
  trivial

/-- A file of two blocks: its last byte is written, and the file is cut before the end of the
first block. A write of its first byte fails, and two bytes are appended. They end up one byte
further than in the run without the failed write, where a read sees them. -/
theorem failed_write_visible : ∃ r f r' a b,
    ovlWriteIter .full twoBlockCow ⟨4096, false, [9]⟩ = .ret r ∧
      ovlSetattr .full r.file (some 4095) = .ret (0, f) ∧
      Lts.Run DataStep (.lookedUp [twoBlocks] zeroInode)
        [(.lookedUp [twoBlocks] zeroInode, .copyUp (.full false) 1),
          (twoBlockCow, .write .full ⟨4096, false, [9]⟩), (r.file, .truncate .full 4095)] f ∧
      f.oi.cowStatus = true ∧ f.OpenForWrite ∧
      FailedWrite .refused f.ovlCopyattr ⟨0, false, [9]⟩ r' ∧
      Lts.Run BothStep (r'.file.ovlCopyattr, f)
        [((r'.file.ovlCopyattr, f), .write .full ⟨0, true, [7, 8]⟩)] (a, b) ∧
      Returns a 4096 1 1 [7] ∧ Returns b 4096 1 1 [8] := by
  obtain ⟨r, f, b, hr, hf, hcow, hfail, hwb, hb, hlater⟩ : ∃ r f b,
      ovlWriteIter .full twoBlockCow ⟨4096, false, [9]⟩ = .ret r ∧
        ovlSetattr .full r.file (some 4095) = .ret (0, f) ∧ f.oi.cowStatus = true ∧
        (∃ m, f.lowerstack = [twoBlocks] ∧ f.upper.isSome ∧ f.oi.upperdata = true ∧
          f.oi.upperFile = .opened 0 ∧ f.oi.lowerFile = .opened 0 ∧
          f.oi.blockStatus = some m ∧ 1 ≤ f.oi.blockCount ∧ m.cells 1 = .uncopy ∧
          f.upperData.size = 4095) ∧
        ovlWriteIter .full f ⟨0, true, [7, 8]⟩ = .ret b ∧ LastByte b 8 ∧
        ∀ cell h, ∃ a, ovlWriteIter .full (f.ovlCopyattr.setUpperData ⟨4096, cell, h⟩).ovlCopyattr
          ⟨0, true, [7, 8]⟩ = .ret a ∧ LastByte a 7 := by
    refine ⟨_, _, _, rfl, rfl, rfl, ⟨_, rfl, rfl, rfl, rfl, rfl, rfl, ?_, rfl, rfl⟩, rfl, ?_, ?_⟩
    · decide
    · refine ⟨rfl, rfl, rfl, ⟨rfl, Nat.le_of_ble_eq_true rfl, _, rfl, ?_⟩, ?_⟩
      · exact fun h => BlockStatus.noConfusion (show BlockStatus.copied = .uncopy from h)
      · exact get?_eq_some_iff.mpr ⟨Nat.le_of_ble_eq_true rfl, rfl⟩
    · intro cell h
      refine ⟨_, rfl, rfl, rfl, rfl, ⟨rfl, Nat.le_of_ble_eq_true rfl, _, rfl, ?_⟩, ?_⟩
      · exact fun h => BlockStatus.noConfusion (show BlockStatus.copied = .uncopy from h)
      · exact get?_eq_some_iff.mpr ⟨Nat.le_of_ble_eq_true rfl, rfl⟩
  obtain ⟨m, hstack, hup, hdata, hupf, hlowf, hm, hcount, hcell, hsize⟩ := hfail
  have hfailed := failedWrite_first (f := f.ovlCopyattr) hstack hup hdata hupf hlowf hm hcount hcell
  obtain ⟨⟨size, cell, hz⟩, hnew⟩ : ∃ data,
      (ovlCopyUpBlock .plain twoBlocks f.upperData 0 (blockLen 1 twoBlocks.size)).2 = data :=
    ⟨_, rfl⟩
  obtain rfl : size = 4096 := by
    have hlen : blockLen 1 twoBlocks.size = 4096 := by decide
    have hgrown : _ = size := congrArg SparseFile.size hnew
    rw [hlen, ovlCopyUpBlock_of_nonneg (by rw [ovlCopyUpBlock_plain]),
      write_size_of_ne_nil, length_read_of_le] at hgrown
    · omega
    · decide
    · rw [← List.length_pos_iff, length_read_of_le]
      · decide
      · decide
  obtain ⟨a, hwa, ha⟩ := hlater cell hz
  rw [show f.ovlCopyattr.upperData = f.upperData from rfl, hnew] at hfailed
  have hrun : Lts.Run DataStep (.lookedUp [twoBlocks] zeroInode)
      [(.lookedUp [twoBlocks] zeroInode, .copyUp (.full false) 1),
        (twoBlockCow, .write .full ⟨4096, false, [9]⟩), (r.file, .truncate .full 4095)] f :=
    .snoc (.snoc (.snoc .nil (.copyUp twoBlockCow_copyUp)) (.write ⟨rfl, rfl⟩ hr)) (.truncate hf)
  exact ⟨r, f, _, a.file, b.file, hr, hf, hrun, hcow, ⟨hup, hdata⟩, hfailed,
    .snoc .nil (.write hwa ha.1 hwb hb.1), ha.returns, hb.returns⟩

end FzzOverlay

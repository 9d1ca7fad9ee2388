import FzzOverlay.Cow.DataPaths
import FzzOverlay.Cow.EndOfFile
import FzzOverlay.Cow.Truncate

/-!
# Uncopied bytes behind the end of the upper file

A file in copy-on-write mode over one lower layer, whatever the rest of the kernel did to it.
`Hidden` says which lower bytes may lie behind the end of the upper file: every write keeps
it, and a truncation may break it.
-/

namespace FzzOverlay

open SparseFile

-- ════════════════════════════════════════════════════════════════════════
-- Files over one lower layer
-- ════════════════════════════════════════════════════════════════════════

/-- A file that was copied up with its data, over one lower layer: what holds of it whatever
its contents are. -/
structure CowShape (lower : File) (f : OvlFile) : Prop where
  lowerstack : f.lowerstack = [lower]
  upper : f.upper.isSome
  upperdata : f.oi.upperdata = true
  lowerFile : f.oi.lowerFile.First
  counts : CountsBlocks lower f
  map : f.oi.cowStatus = true → ∃ m, f.oi.blockStatus = some m ∧
    f.oi.copyCount + (unmarked f.oi.blockCount m.cells).card ≤ f.oi.blockCount

theorem Tracks.shape {lower X : File} {f : OvlFile} (h : Tracks lower X f) : CowShape lower f :=
  ⟨h.lowerstack, h.upper, h.upperdata, h.lowerFile, h.blockCount, h.map⟩

/-- A lower byte that is not copied lies behind the end of the upper file only if the last
block is not copied either and no copied offset lies between. -/
def Hidden (lower : File) (f : OvlFile) : Prop :=
  ∀ j, f.Uncopied j → j < lower.size → f.upperData.size ≤ j →
    f.Uncopied (lower.size - 1) ∧ ∀ i, f.Copied i → i ≤ j → i < f.upperData.size

section Shape

variable {lower data : File} {f g : OvlFile} {m m' : BlockMap} {first last : ℕ}

namespace CowShape

theorem lowerAt_zero (h : CowShape lower f) : f.lowerAt 0 = lower :=
  OvlFile.lowerAt_zero_of_single h.lowerstack

theorem readLower_eq (h : CowShape lower f) : f.readLower f.oi = lower :=
  OvlFile.readLower_of_single h.lowerstack h.lowerFile

theorem block_cases (h : CowShape lower f) (hcow : f.oi.cowStatus = true) (i : ℕ) :
    f.Uncopied i ∨ f.Copied i ∨ f.oi.blockCount < ovlGetBlock i := by
  obtain ⟨m, hm, -⟩ := h.map hcow
  exact OvlFile.block_cases (Option.isSome_iff_exists.mpr ⟨m, hm⟩) hcow i

theorem patched (h : CowShape lower f) (hmap : SameMap f g) (hfile : Updated data f g) :
    CowShape lower g := by
  refine ⟨hfile.lowerstack.trans h.lowerstack, hfile.upper_isSome h.upper,
    hfile.upperdata.trans h.upperdata, hfile.lowerFile, ?_, ?_⟩
  · rw [CountsBlocks, hmap.cowStatus, hfile.blockCount]
    exact h.counts
  · rw [hmap.cowStatus, hmap.blockStatus, hmap.copyCount, hfile.blockCount]
    exact h.map

theorem marked (h : CowShape lower f) (hcow : f.oi.cowStatus = true)
    (hm : f.oi.blockStatus = some m) (hfile : Updated data f g)
    (hmark : Marked first last m m' f g) (hfirst : 1 ≤ first) : CowShape lower g := by
  refine ⟨hfile.lowerstack.trans h.lowerstack, hfile.upper_isSome h.upper,
    hfile.upperdata.trans h.upperdata, hfile.lowerFile, ?_, ?_⟩
  · intro _
    rw [hfile.blockCount]
    exact h.counts hcow
  · intro _
    obtain ⟨m₀, hm₀, hcount⟩ := h.map hcow
    obtain rfl : m = m₀ := Option.some.inj (hm.symm.trans hm₀)
    refine ⟨m', hmark.blockStatus, ?_⟩
    rw [hfile.blockCount, hmark.copyCount hfirst]
    exact hcount

theorem ovlCopyattr (h : CowShape lower f) : CowShape lower f.ovlCopyattr :=
  ⟨h.lowerstack, h.upper, h.upperdata, h.lowerFile, h.counts, h.map⟩

theorem cached {oi : OvlInode} (h : CowShape lower f) (hc : Cached f f.oi oi) :
    CowShape lower { f with oi := oi } := by
  obtain ⟨up, lp, rfl, hlp⟩ := hc
  exact ⟨h.lowerstack, h.upper, h.upperdata,
    hlp (OvlFile.ovlPathLowerdata_of_single h.lowerstack) h.lowerFile, h.counts, h.map⟩

end CowShape

theorem Marked.uncopied_of_not_mem (h : Marked first last m m' f g) (hfile : Updated data f g)
    (hm : f.oi.blockStatus = some m) (hcow : g.oi.cowStatus = true) {i : ℕ} (hi : f.Uncopied i)
    (hnot : ¬ (first ≤ ovlGetBlock i ∧ ovlGetBlock i ≤ last)) : g.Uncopied i := by
  obtain ⟨-, hle, m₁, hm₁, hcell⟩ := hi
  obtain rfl : m = m₁ := Option.some.inj (hm.symm.trans hm₁)
  refine ⟨hcow, hfile.blockCount ▸ hle, m', h.blockStatus, ?_⟩
  rw [h.cells, if_neg fun hin => hnot ⟨hin.1, hin.2.1⟩]
  exact hcell

end Shape

-- ════════════════════════════════════════════════════════════════════════
-- Every write keeps the upper file long enough
-- ════════════════════════════════════════════════════════════════════════

section Hidden

variable {lower data : File} {f g : OvlFile} {m m' : BlockMap} {env : WriteEnv} {req : WriteReq}

theorem Hidden.grown (hh : Hidden lower f) (hup : f.upper.isSome) (hmap : SameMap f g)
    (hfile : Updated data f g) (hsize : f.upperData.size ≤ data.size) : Hidden lower g := by
  intro j hj hlt hend
  rw [hfile.upperData_eq hup] at hend ⊢
  rw [hmap.uncopied_iff hfile] at hj
  obtain ⟨hlast, hcov⟩ := hh j hj hlt (by omega)
  refine ⟨(hmap.uncopied_iff hfile _).mpr hlast, fun i hi hij => ?_⟩
  have := hcov i ((hmap.copied_iff hfile i).mp hi) hij
  omega

theorem size_le_storedData (env : WriteEnv) (m : BlockMap) (f : OvlFile) (req : WriteReq) (n : ℕ) :
    f.upperData.size ≤ (filledData env m f req).size ∧
      (filledData env m f req).size ≤ (storedData env m f req n).size :=
  ⟨(patchedFrom_fill _ _ _).size_le, size_le_write _ _ _⟩

/-- The lower bytes of an uncopied block that the request marks are in the upper file when its
data is stored, except those it overwrites. -/
theorem CowShape.lt_filledData (h : CowShape lower f) (env : WriteEnv) (req : WriteReq)
    (hmax : lower.size ≤ MAX_COW_SIZE) (hm : f.oi.blockStatus = some m) {i : ℕ}
    (hi : f.Uncopied i) (hlt : i < lower.size)
    (hfirst : (blockRange f.oi req).1 ≤ ovlGetBlock i)
    (hlast : ovlGetBlock i ≤ (blockRange f.oi req).2)
    (hout : req.append = false → i < req.pos ∨ req.pos + req.data.length ≤ i) :
    i < (filledData env m f req).size := by
  rw [filledData, h.lowerAt_zero]
  exact lt_fill_size (inRanges_of_marked h.counts hmax hm hi hlt hfirst hlast hout) hlt

/-- A write that marks its blocks, also when it stored only some of its data. -/
theorem Hidden.stored {n : ℕ} (hh : Hidden lower f) (h : CowShape lower f)
    (hmax : lower.size ≤ MAX_COW_SIZE) (hcow : f.oi.cowStatus = true)
    (hm : f.oi.blockStatus = some m) (hn : 0 < n) (hle : n ≤ req.data.length)
    (hfile : Updated (storedData env m f req n) f g)
    (hmark : Marked (blockRange f.oi req).1 (blockRange f.oi req).2 m m' f g) :
    Hidden lower g := by
  intro j hj hlt hend
  obtain ⟨hbc, h0, hblast, -⟩ := h.counts.block_last hmax hcow
  obtain ⟨hfill, hstored⟩ := size_le_storedData env m f req n
  rw [hfile.upperData_eq h.upper] at hend ⊢
  obtain ⟨hj', hnot⟩ := hmark.uncopied hfile hm hj
  obtain ⟨hlastun, hcov⟩ := hh j hj' hlt (by omega)
  by_cases happ : req.append = true
  · -- The last block is copied up, so the upper file reaches over the whole lower file.
    have hrange : blockRange f.oi req = (f.oi.blockCount, f.oi.blockCount) := if_pos happ
    have := h.lt_filledData env req hmax hm hlastun (by omega)
      (by rw [hrange, hblast]) (by rw [hrange, hblast]) fun hno => by rw [happ] at hno; cases hno
    omega
  have hrange : blockRange f.oi req =
      (ovlGetBlock req.pos, ovlGetBlock (req.pos + req.data.length)) := if_neg happ
  have hsize : req.pos + n ≤ (storedData env m f req n).size := by
    have hne : req.data.take n ≠ [] := by
      rw [← List.length_pos_iff, List.length_take]
      omega
    rw [storedData, write_size_of_ne_nil _ _ hne, writeAt, if_neg happ, List.length_take,
      Nat.min_eq_left hle]
    exact Nat.le_max_right _ _
  rw [hrange] at hnot hmark
  have hbehind : ovlGetBlock (req.pos + req.data.length) < ovlGetBlock j := by
    by_contra hge
    have hlt' : j < req.pos := by
      by_contra hpos
      exact hnot ⟨ovlGetBlock_mono (Nat.le_of_not_lt hpos), Nat.le_of_not_lt hge⟩
    omega
  refine ⟨?_, fun i hi hij => ?_⟩
  · refine hmark.uncopied_of_not_mem hfile hm hj.1 hlastun fun hin => ?_
    have := ovlGetBlock_mono (show j ≤ lower.size - 1 by omega)
    omega
  · obtain hd | ⟨hu, hfirst, hlast⟩ := hmark.copied hfile hm hi
    · have := hcov i hd hij
      omega
    · -- The end of the last block of the request lies before `j`, and is in the upper file.
      obtain ⟨e, he, hie, hej, hpe⟩ : ∃ e, ovlGetBlock e =
          ovlGetBlock (req.pos + req.data.length) ∧ i ≤ e ∧ e ≤ j ∧
            req.pos + req.data.length ≤ e := by
        refine ⟨ovlGetBlock (req.pos + req.data.length) * 4096 - 1, ?_, ?_, ?_, ?_⟩
        · simp only [ovlGetBlock_eq]
          omega
        · simp only [ovlGetBlock_eq] at hlast ⊢
          omega
        · simp only [ovlGetBlock_eq] at hbehind ⊢
          omega
        · simp only [ovlGetBlock_eq]
          omega
      have hin := hj'.2.1
      have hlte : e < (storedData env m f req n).size := by
        obtain hue | hce | hpe' := h.block_cases hcow e
        · have := h.lt_filledData env req hmax hm hue (by omega)
            (by rw [hrange, he]; exact ovlGetBlock_mono (Nat.le_add_right _ _))
            (by rw [hrange, he]) fun _ => .inr hpe
          omega
        · have := hcov e hce hej
          omega
        · omega
      omega

/-- Every write that returns keeps the shape and the length of the upper file, whatever the
rest of the kernel does. -/
theorem CowShape.writes {e : WriteEnv × WriteReq} (h : CowShape lower f) (hh : Hidden lower f)
    (hmax : lower.size ≤ MAX_COW_SIZE) (hw : Writes f e g) : CowShape lower g ∧ Hidden lower g := by
  obtain ⟨r, hr, rfl⟩ := hw
  by_cases hdata : e.2.data = []
  · rw [ovlWriteIter, if_pos hdata] at hr
    cases hr
    exact ⟨h, hh⟩
  cases hcow : f.oi.cowStatus with
  | true =>
    obtain ⟨m, hm, -⟩ := h.map hcow
    cases ovlWriteIter_cow h.upper h.upperdata h.lowerFile hm hcow hdata hr with
    | unprepared data hret hpatch hfile hmap =>
      exact ⟨h.patched hmap hfile, hh.grown h.upper hmap hfile hpatch.size_le⟩
    | torn n hret hn hfull hfail hfile hmap =>
      obtain ⟨hfill, hstored⟩ := size_le_storedData e.1 m f e.2 n
      exact ⟨h.patched hmap hfile, hh.grown h.upper hmap hfile (le_trans hfill hstored)⟩
    | stored n m' hn hle hfull hfail hret hpos hfile hmark =>
      exact ⟨h.marked hcow hm hfile hmark (one_le_blockRange e.2 h.counts hmax hcow),
        hh.stored h hmax hcow hm hn hle hfile hmark⟩
  | false =>
    have hno : ∀ g' : OvlFile, SameMap f g' → Hidden lower g' := by
      intro g' hmap j hj
      have hoff := hj.1
      rw [hmap.cowStatus, hcow] at hoff
      cases hoff
    obtain ⟨hmap, ⟨-, hfile⟩ | ⟨n, -, -, -, -, -, -, hfile⟩⟩ :=
      ovlWriteIter_plain h.upper h.upperdata h.lowerFile hcow hdata hr
    · exact ⟨h.patched hmap hfile, hno _ hmap⟩
    · exact ⟨h.patched hmap hfile, hno _ hmap⟩

end Hidden

-- ════════════════════════════════════════════════════════════════════════
-- Reachable files
-- ════════════════════════════════════════════════════════════════════════

/-- In copy-on-write mode without a map, as `kmalloc` leaves it when it fails: requests that
reach a block of the map fault. -/
structure NoMap (lower : File) (f : OvlFile) : Prop where
  lowerstack : f.lowerstack = [lower]
  upper : f.upper.isSome
  upperdata : f.oi.upperdata = true
  cowStatus : f.oi.cowStatus = true
  blockStatus : f.oi.blockStatus = none

/-- What calls reach from a file that was just looked up: it is not copied up, or only its
metadata is, or it has its data in the upper layer, without a map or with one. -/
inductive ReachedFile (lower : File) (f : OvlFile) : Prop
  | notCopied (h : NotCopied lower f)
  | metaOnly (h : UpperHole lower lower.size f) (hno : f.oi.upperdata = false)
  | noMap (h : NoMap lower f)
  | cow (h : CowShape lower f) (hh : Hidden lower f)

/-- A truncation of an upper file to `n` that succeeds leaves no uncopied lower byte behind the
new end, unless the last block is not copied and no copied offset lies between the two. The same
holds of the empty upper file that a copy-up with `O_TRUNC` makes, where an earlier one failed
and left a map. -/
def DataOp.KeepsHidden (lower : File) (f : OvlFile) : DataOp → Prop
  | .copyUp _ flags => f.upper = none → hasTrunc flags = true →
      ∀ j, f.Uncopied j → j < lower.size →
        f.Uncopied (lower.size - 1) ∧ ∀ i, f.Copied i → j < i
  | .truncate env n => f.upper.isSome → (∃ g, ovlSetattr env f (some n) = .ret (0, g)) →
      ∀ j, f.Uncopied j → j < lower.size → n ≤ j →
        f.Uncopied (lower.size - 1) ∧ ∀ i, f.Copied i → i ≤ j → i < n
  | _ => True

section Reachable

variable {lower : File} {f g : OvlFile}

theorem CowShape.linked (h : CowShape lower f) (a : Bool) :
    CowShape lower { f with upperAlias := a } :=
  ⟨h.lowerstack, h.upper, h.upperdata, h.lowerFile, h.counts, h.map⟩

theorem CowShape.truncated (h : CowShape lower f) (n : ℕ) : CowShape lower (truncated f n) := by
  refine ⟨h.lowerstack, ?_, h.upperdata, h.lowerFile, h.counts, h.map⟩
  rw [FzzOverlay.truncated, OvlFile.ovlCopyattr, OvlFile.setUpperData, Option.isSome_map]
  exact h.upper

theorem size_truncated (hup : f.upper.isSome) (n : ℕ) : (truncated f n).upperData.size = n :=
  congrArg SparseFile.size (OvlFile.upperData_setUpperData hup (f.upperData.truncate n))

theorem Hidden.truncated (hup : f.upper.isSome) {n : ℕ}
    (hkeep : ∀ j, f.Uncopied j → j < lower.size → n ≤ j →
      f.Uncopied (lower.size - 1) ∧ ∀ i, f.Copied i → i ≤ j → i < n) :
    Hidden lower (truncated f n) := by
  intro j hj hlt hend
  rw [size_truncated hup] at hend ⊢
  exact hkeep j hj hlt hend

/-- When the upper file has every copied block, it is long enough. -/
theorem Covered.hidden (hc : Covered lower f) (h : CowShape lower f)
    (hmax : lower.size ≤ MAX_COW_SIZE) : Hidden lower f := by
  intro j hj hlt hend
  obtain ⟨-, h0, hlast, -⟩ := h.counts.block_last hmax hj.1
  refine ⟨?_, fun i hi hij => hc i hi (by omega)⟩
  obtain hu | hd | hp := h.block_cases hj.1 (lower.size - 1)
  · exact hu
  · have := hc _ hd (by omega)
    omega
  · omega

/-- A file that was just copied up with its data in copy-on-write mode has no copied block. -/
theorem freshCow_not_copied (f : OvlFile) (addr i : ℕ) (a : Bool) :
    ¬ (freshCow f addr a).Copied i := by
  rintro ⟨-, -, m, hm, hcell⟩
  cases hm
  exact hcell rfl

theorem NoMap.linked (h : NoMap lower f) (a : Bool) : NoMap lower { f with upperAlias := a } :=
  ⟨h.lowerstack, h.upper, h.upperdata, h.cowStatus, h.blockStatus⟩

/-- The upper inode of a file with its data there gets other contents, or only attributes. -/
theorem NoMap.setUpperData (h : NoMap lower f) (data : File) :
    NoMap lower (f.setUpperData data).ovlCopyattr := by
  refine ⟨h.lowerstack, ?_, h.upperdata, h.cowStatus, h.blockStatus⟩
  rw [OvlFile.ovlCopyattr, OvlFile.setUpperData, Option.isSome_map]
  exact h.upper

namespace ReachedFile

theorem lowerstack (h : ReachedFile lower f) : f.lowerstack = [lower] := by
  cases h with
  | notCopied hf => exact hf.lowerstack
  | metaOnly hf hno => exact hf.lowerstack
  | noMap hf => exact hf.lowerstack
  | cow hf hh => exact hf.lowerstack

/-- An upper file whose map counts no copied block. -/
theorem of_counts (hstack : f.lowerstack = [lower]) (hup : f.upper.isSome)
    (hdata : f.oi.upperdata = true) (hlow : f.oi.lowerFile.First) (hcounts : CountsBlocks lower f)
    (hcopy : f.oi.copyCount = 0) (hh : Hidden lower f) : ReachedFile lower f := by
  cases hm : f.oi.blockStatus with
  | some m =>
    refine .cow ⟨hstack, hup, hdata, hlow, hcounts, fun _ => ⟨m, hm, ?_⟩⟩ hh
    rw [hcopy, Nat.zero_add]
    exact (Finset.card_filter_le _ _).trans (by simp)
  | none =>
    cases hcow : f.oi.cowStatus with
    | true => exact .noMap ⟨hstack, hup, hdata, hcow, hm⟩
    | false =>
      refine .cow ⟨hstack, hup, hdata, hlow, hcounts, fun hon => ?_⟩ hh
      rw [hcow] at hon
      cases hon

theorem linked (h : ReachedFile lower f) (a : Bool) :
    ReachedFile lower { f with upperAlias := a } := by
  cases h with
  | notCopied hf =>
    exact .notCopied ⟨hf.lowerstack, hf.upper, hf.upperdata, hf.copyCount, hf.lowerFile, hf.counts⟩
  | metaOnly hf hno =>
    exact .metaOnly ⟨hf.lowerstack, hf.upper, hf.data, hf.copyCount, hf.lowerFile, hf.counts⟩ hno
  | noMap hf => exact .noMap (hf.linked a)
  | cow hf hh => exact .cow (hf.linked a) hh

/-- The file after a copy-up of a file without an upper inode. -/
theorem of_notCopied {env : CopyUpEnv} {flags : ℕ} {ret : ℤ} (h : NotCopied lower f)
    (hmax : lower.size ≤ MAX_COW_SIZE) (hkeep : (DataOp.copyUp env flags).KeepsHidden lower f)
    (hcase : CopyUpCase env flags f (ret, g)) : ReachedFile lower g := by
  have hno : ¬ f.upper.isSome := by
    rw [h.upper]
    simp
  generalize hr : (ret, g) = r at hcase
  cases hcase with
  | linked ret a hok =>
    cases hr
    exact (ReachedFile.notCopied h).linked a
  | unfinished ret hup hret =>
    cases hr
    exact .notCopied h.unfinished
  | installed ret a hup hmem =>
    obtain ⟨-, rfl⟩ := Prod.mk.inj hr
    obtain ⟨-, hg⟩ | ⟨-, hsize, hg⟩ | ⟨-, -, h0, addr, hg⟩ := h.installed_cases (a := a) hmem
    · rw [hg]
      exact .metaOnly (h.upperHole_freshHole a) h.upperdata
    · rw [hg]
      refine of_counts h.lowerstack rfl rfl h.lowerFile h.counts h.copyCount ?_
      intro j hj hlt hend
      obtain htrunc | h0 := hsize
      · obtain ⟨hlast, hcov⟩ := hkeep h.upper htrunc j hj hlt
        refine ⟨hlast, fun i hi hij => ?_⟩
        have := hcov i hi
        omega
      · omega
    · rw [hg]
      have hshape := (h.tracks_freshCow h0 hmax addr a).shape
      have hcov : Covered lower (freshCow f addr a) :=
        fun i hi => absurd hi (freshCow_not_copied f addr i a)
      exact .cow hshape (hcov.hidden hshape hmax)
  | completed ret a hup hneed hret => exact absurd hup hno

/-- A metadata-only copy whose data counts as copied up is as long as the lower file. -/
theorem completed (h : UpperHole lower lower.size f) (a : Bool) :
    ReachedFile lower (completedFile f a) := by
  have hg := h.completed a
  refine of_counts hg.lowerstack hg.upper rfl hg.lowerFile hg.counts hg.copyCount ?_
  intro j hj hlt hend
  rw [hg.size_eq] at hend
  omega

theorem copyUp {env : CopyUpEnv} {flags : ℕ} {ret : ℤ} (h : ReachedFile lower f)
    (hmax : lower.size ≤ MAX_COW_SIZE) (hkeep : (DataOp.copyUp env flags).KeepsHidden lower f)
    (hcase : CopyUpCase env flags f (ret, g)) : ReachedFile lower g := by
  cases h with
  | notCopied hf => exact of_notCopied hf hmax hkeep hcase
  | metaOnly hf hno =>
    obtain ⟨-, a, rfl⟩ | ⟨-, -, a, rfl⟩ := hcase.of_upper hf.upper
    · exact (ReachedFile.metaOnly hf hno).linked a
    · exact completed hf a
  | noMap hf =>
    obtain ⟨a, rfl⟩ := hcase.of_upperdata hf.upper hf.upperdata
    exact (ReachedFile.noMap hf).linked a
  | cow hf hh =>
    obtain ⟨a, rfl⟩ := hcase.of_upperdata hf.upper hf.upperdata
    exact (ReachedFile.cow hf hh).linked a

theorem cached {oi : OvlInode} (h : ReachedFile lower f) (hc : Cached f f.oi oi) :
    ReachedFile lower { f with oi := oi } := by
  have hdata := OvlFile.ovlPathLowerdata_of_single h.lowerstack
  have hcached := hc
  obtain ⟨up, lp, rfl, hlp⟩ := hc
  cases h with
  | notCopied hf =>
    exact .notCopied ⟨hf.lowerstack, hf.upper, hf.upperdata, hf.copyCount, hlp hdata hf.lowerFile,
      hf.counts⟩
  | metaOnly hf hno =>
    exact .metaOnly ⟨hf.lowerstack, hf.upper, hf.data, hf.copyCount, hlp hdata hf.lowerFile,
      hf.counts⟩ hno
  | noMap hf => exact .noMap ⟨hf.lowerstack, hf.upper, hf.upperdata, hf.cowStatus, hf.blockStatus⟩
  | cow hf hh => exact .cow (hf.cached hcached) hh

/-- A truncation that succeeds: the file was copied up with its data, and cut. -/
theorem truncated {env : SetattrEnv} {n : ℕ} {g : OvlFile} (h : ReachedFile lower f)
    (hmax : lower.size ≤ MAX_COW_SIZE)
    (hkeep : f.upper.isSome → ∀ j, f.Uncopied j → j < lower.size → n ≤ j →
      f.Uncopied (lower.size - 1) ∧ ∀ i, f.Copied i → i ≤ j → i < n)
    (hcase : CopyUpCase env.copyUp O_WRONLY f (0, g)) : ReachedFile lower (truncated g n) := by
  cases h with
  | notCopied hf =>
    obtain ⟨h0, addr, a, rfl⟩ | ⟨h0, a, rfl⟩ := hf.copyUp_wronly hcase
    · have hshape := (hf.tracks_freshCow h0 hmax addr a).shape
      have hno := freshCow_not_copied f addr (a := a)
      refine .cow (hshape.truncated n) (.truncated hshape.upper fun j hj _ _ => ?_)
      obtain ⟨-, -, hlast, -⟩ := hshape.counts.block_last hmax hj.1
      obtain hu | hc | hp := hshape.block_cases hj.1 (lower.size - 1)
      · exact ⟨hu, fun i hi => absurd hi (hno i)⟩
      · exact absurd hc (hno _)
      · omega
    · exact of_counts hf.lowerstack rfl rfl hf.lowerFile hf.counts hf.copyCount
        fun j _ hlt => by omega
  | metaOnly hf hno =>
    obtain ⟨hdata, -⟩ | ⟨-, a, rfl⟩ := hcase.wronly_of_upper hf.upper
    · rw [hno] at hdata
      cases hdata
    · have hg := (hf.completed a).truncate n
      exact of_counts hg.lowerstack hg.upper rfl hg.lowerFile hg.counts hg.copyCount
        (.truncated (hf.completed a).upper (hkeep hf.upper))
  | noMap hf =>
    obtain ⟨a, rfl⟩ := hcase.of_upperdata hf.upper hf.upperdata
    exact .noMap ((hf.linked a).setUpperData _)
  | cow hf hh =>
    obtain ⟨a, rfl⟩ := hcase.of_upperdata hf.upper hf.upperdata
    exact .cow ((hf.linked a).truncated n) (.truncated hf.upper (hkeep hf.upper))

/-- A write to a file that is open for writing. -/
theorem write {env : WriteEnv} {req : WriteReq} {r : WriteResult} (h : ReachedFile lower f)
    (hmax : lower.size ≤ MAX_COW_SIZE) (hopen : f.OpenForWrite)
    (hr : ovlWriteIter env f req = .ret r) : ReachedFile lower r.file := by
  have hno : f.upper ≠ none := Option.isSome_iff_ne_none.mp hopen.upper
  cases h with
  | notCopied hf => exact absurd hf.upper hno
  | metaOnly hf hdata =>
    rw [hopen.upperdata] at hdata
    cases hdata
  | noMap hf =>
    obtain ⟨hfile | hfile, -⟩ := ovlWriteIter_noMap hf.cowStatus hf.blockStatus hr
    · rw [hfile]
      exact .noMap hf
    · rw [hfile]
      exact .noMap ⟨hf.lowerstack, hf.upper, hf.upperdata, hf.cowStatus, hf.blockStatus⟩
  | cow hf hh =>
    obtain ⟨hf', hh'⟩ := hf.writes (e := (env, req)) hh hmax ⟨r, hr, rfl⟩
    exact .cow hf' hh'

/-- The destination of an `ovl_copyfile` call is open for writing. -/
theorem copyfile {env : CopyfileEnv} {fin : OvlFile} {fileIn : OpenFile} {posIn : ℕ}
    {fileOut : OpenFile} {posOut len : ℕ} {op : OvlCopyop} (h : ReachedFile lower f)
    (hopen : f.OpenForWrite) :
    ReachedFile lower (ovlCopyfile env fin fileIn posIn f fileOut posOut len op).out := by
  have hno : f.upper ≠ none := Option.isSome_iff_ne_none.mp hopen.upper
  have hout := ovlCopyfile_out env fin fileIn posIn f fileOut posOut len op
  cases h with
  | notCopied hf => exact absurd hf.upper hno
  | metaOnly hf hdata =>
    rw [hopen.upperdata] at hdata
    cases hdata
  | noMap hf =>
    obtain hout | hout | ⟨bs, hout⟩ := hout
    · rw [hout]
      exact .noMap hf
    · rw [hout]
      exact .noMap ⟨hf.lowerstack, hf.upper, hf.upperdata, hf.cowStatus, hf.blockStatus⟩
    · rw [hout]
      exact .noMap (hf.setUpperData _)
  | cow hf hh =>
    obtain hout | hout | ⟨bs, hout⟩ := hout
    · rw [hout]
      exact .cow hf hh
    · rw [hout]
      exact .cow hf.ovlCopyattr hh
    · rw [hout]
      have hfile : Updated (f.upperData.write posOut bs) f (storedFile f posOut bs) :=
        updated_ovlCopyattr hf.upper rfl rfl rfl rfl rfl rfl hf.lowerFile
      have hmap : SameMap f (storedFile f posOut bs) := ⟨rfl, rfl, rfl⟩
      exact .cow (hf.patched hmap hfile) (hh.grown hf.upper hmap hfile (size_le_write _ _ _))

theorem step {op : DataOp} (h : ReachedFile lower f) (hmax : lower.size ≤ MAX_COW_SIZE)
    (hop : op.KeepsHidden lower f) (hstep : DataStep f op g) : ReachedFile lower g := by
  have hstack : f.lowerstack ≠ [] := by
    rw [h.lowerstack]
    exact List.cons_ne_nil _ _
  cases hstep with
  | @copyUp g env flags ret hret =>
    obtain ⟨r, hr, hcase⟩ := ovlCopyUpFlags_cases env hstack flags
    rw [hret] at hr
    cases hr
    exact h.copyUp hmax hop hcase
  | write hopen hret => exact h.write hmax hopen hret
  | read hret => exact h.cached (ovlReadIter_cached hret)
  | @truncate g env n ret hret =>
    obtain ⟨r, hr, hcase⟩ := ovlSetattr_cases env hstack n
    rw [hret] at hr
    cases hr
    generalize hres : (ret, g) = r at hcase
    cases hcase with
    | refused ret hne =>
      cases hres
      exact h
    | copied ret cuRet g' hne hcase =>
      cases hres
      have hnoTrunc : (DataOp.copyUp env.copyUp O_WRONLY).KeepsHidden lower f :=
        fun _ htrunc => absurd htrunc (by decide)
      exact h.copyUp hmax hnoTrunc hcase
    | truncated g₀ hcase =>
      obtain ⟨rfl, rfl⟩ := Prod.mk.inj hres
      exact h.truncated hmax (fun hup => hop hup ⟨_, hret⟩) hcase
  | copyfile hopen => exact h.copyfile hopen

/-- A file open for writing whose requests to write do not fault. -/
theorem of_open {env : WriteEnv} {req : WriteReq} {r : WriteResult} (h : ReachedFile lower f)
    (hopen : f.OpenForWrite) (hr : blockWriteIter env f.ovlCopyattr req = .ret r) :
    CowShape lower f ∧ Hidden lower f := by
  cases h with
  | notCopied hf => exact absurd hf.upper (Option.isSome_iff_ne_none.mp hopen.upper)
  | metaOnly hf hdata =>
    rw [hopen.upperdata] at hdata
    cases hdata
  | noMap hf =>
    rw [blockWriteIter, show f.ovlCopyattr.oi.blockStatus = none from hf.blockStatus] at hr
    cases hr
  | cow hf hh => exact ⟨hf, hh⟩

end ReachedFile

end Reachable

end FzzOverlay

import FzzOverlay.Cow.Ranges

/-!
# The logical content of a file in copy-on-write mode

`Tracks lower X f` ties the logical content `X` of a file to its lower and upper
contents, its block map and its counters. It implies that reads deliver bytes of
`X` (`Tracks.readsFrom`), holds after a copy-up and is kept by every write.
-/

namespace FzzOverlay

open SparseFile

/-- `f` holds the logical content `X` over the lower content `lower`. -/
structure Tracks (lower X : File) (f : OvlFile) : Prop where
  lowerstack : f.lowerstack = [lower]
  upper : f.upper.isSome
  upperdata : f.oi.upperdata = true
  lowerFile : f.oi.lowerFile.First
  blockCount : CountsBlocks lower f
  /-- No unmarked block is counted, so that copy-on-write mode ends with all of them marked. -/
  map : f.oi.cowStatus = true → ∃ m, f.oi.blockStatus = some m ∧
    f.oi.copyCount + (unmarked f.oi.blockCount m.cells).card ≤ f.oi.blockCount
  marked : ∀ i, ¬ f.Uncopied i → f.upperData.cell i = X.cell i
  /-- The lower bytes of an uncopied block are still part of the content. -/
  uncopied : ∀ i, f.Uncopied i → i < lower.size → X.cell i = lower.cell i ∧ i < X.size
  /-- The last block past the end of the lower file. -/
  beyond : ∀ i, f.Uncopied i → lower.size ≤ i → X.cell i = 0 ∧ f.upperData.cell i = 0
  upper_le : f.upperData.size ≤ X.size
  /-- The upper file ends where the content ends, unless the last block is uncopied. -/
  reaches : X.size ≤ f.upperData.size ∨ (f.Uncopied (lower.size - 1) ∧ X.size ≤ lower.size)

namespace Tracks

variable {lower X : File} {f : OvlFile}

theorem lowerAt_zero (h : Tracks lower X f) : f.lowerAt 0 = lower :=
  OvlFile.lowerAt_zero_of_single h.lowerstack

theorem readLower_eq (h : Tracks lower X f) : f.readLower f.oi = lower :=
  OvlFile.readLower_of_single h.lowerstack h.lowerFile

theorem realdata_eq (h : Tracks lower X f) : f.ovlInodeRealdata = f.upperData :=
  OvlFile.ovlInodeRealdata_of_upperdata h.upper h.upperdata

/-- Reads deliver the logical content. -/
theorem readsFrom (h : Tracks lower X f) : ReadsFrom X f := by
  refine readsFrom_of_served fun i v hv => ?_
  by_cases hu : f.Uncopied i
  · rw [OvlFile.served_of_uncopied hu, h.readLower_eq, get?_eq_some_iff] at hv
    obtain ⟨hcell, hlt⟩ := h.uncopied i hu hv.1
    rw [get?_eq_some_iff]
    exact ⟨hlt, hcell.trans hv.2⟩
  · have hup : f.upperData.get? i = some v := by
      cases hcow : f.oi.cowStatus with
      | true => exact (OvlFile.served_upper hcow hu hv).2
      | false =>
        rw [OvlFile.served_of_not_cow hcow, h.realdata_eq] at hv
        exact hv
    rw [get?_eq_some_iff] at hup ⊢
    exact ⟨lt_of_lt_of_le hup.1 h.upper_le, by rw [← h.marked i hu]; exact hup.2⟩

/-- The blocks of the map that lie before the last one are inside the lower file. -/
theorem lt_size_of_uncopied (h : Tracks lower X f) (hmax : lower.size ≤ MAX_COW_SIZE) {i : ℕ}
    (hi : f.Uncopied i) (hlast : ovlGetBlock i ≠ f.oi.blockCount) : i < lower.size := by
  obtain ⟨hbc, h0⟩ := h.blockCount hi.1
  obtain ⟨-, -, hlt, -⟩ := countBlocks_bounds h0 hmax
  have hle := hi.2.1
  rw [← hbc, BLOCK_SIZE] at hlt
  rw [ovlGetBlock_eq] at hle hlast
  omega

end Tracks

-- ════════════════════════════════════════════════════════════════════════
-- Writes keep the invariant
-- ════════════════════════════════════════════════════════════════════════

namespace Tracks

variable {lower X data : File} {f g : OvlFile}

theorem size_le_of_patched (h : Tracks lower X f)
    (hp : PatchedFrom f.Uncopied lower f.upperData data) : data.size ≤ X.size := by
  by_contra hlt
  obtain hu | ⟨j, hj, hun, hjl⟩ := hp.grown (data.size - 1) (by omega)
  · have := h.upper_le
    omega
  · have := (h.uncopied j hun hjl).2
    omega

/-- Copying lower bytes of uncopied blocks does not change the content. -/
theorem patched (h : Tracks lower X f) (hmap : SameMap f g) (hfile : Updated data f g)
    (hp : PatchedFrom f.Uncopied lower f.upperData data) : Tracks lower X g := by
  have hdata := hfile.upperData_eq h.upper
  have hun := hmap.uncopied_iff hfile
  refine ⟨hfile.lowerstack.trans h.lowerstack, hfile.upper_isSome h.upper,
    hfile.upperdata.trans h.upperdata, hfile.lowerFile, ?_, ?_, ?_, ?_, ?_, ?_, ?_⟩
  · rw [CountsBlocks, hmap.cowStatus, hfile.blockCount]
    exact h.blockCount
  · rw [hmap.cowStatus, hmap.blockStatus, hmap.copyCount, hfile.blockCount]
    exact h.map
  · intro i hi
    rw [hun] at hi
    rw [hdata, hp.cell_eq hi]
    exact h.marked i hi
  · intro i hi
    exact h.uncopied i ((hun i).mp hi)
  · intro i hi hle
    rw [hdata, hp.cell_eq_of_le hle]
    exact h.beyond i ((hun i).mp hi) hle
  · rw [hdata]
    exact h.size_le_of_patched hp
  · rw [hdata, hun]
    obtain hr | hr := h.reaches
    · exact .inl (hr.trans hp.size_le)
    · exact .inr hr

theorem not_uncopied_of_plain (hcow : f.oi.cowStatus = false) (i : ℕ) : ¬ f.Uncopied i := by
  rintro ⟨h, -, -⟩
  rw [hcow] at h
  cases h

/-- Outside copy-on-write mode the content is the upper file. -/
theorem eq_upperData (h : Tracks lower X f) (hcow : f.oi.cowStatus = false) : X = f.upperData := by
  have hno := not_uncopied_of_plain hcow
  refine SparseFile.ext ?_ fun i => (h.marked i (hno i)).symm
  obtain hr | hr := h.reaches
  · exact le_antisymm hr h.upper_le
  · exact absurd hr.1 (hno _)

theorem of_plain (hstack : f.lowerstack = [lower]) (hup : f.upper.isSome)
    (hreal : f.oi.upperdata = true) (hlow : f.oi.lowerFile.First)
    (hcow : f.oi.cowStatus = false) : Tracks lower f.upperData f := by
  have hno := not_uncopied_of_plain hcow
  refine ⟨hstack, hup, hreal, hlow, ?_, ?_, fun _ _ => rfl, ?_, ?_, le_rfl, .inl le_rfl⟩
  · intro h
    rw [hcow] at h
    cases h
  · intro h
    rw [hcow] at h
    cases h
  · exact fun i hi => absurd hi (hno i)
  · exact fun i hi => absurd hi (hno i)

end Tracks

/-- The content after a completed write. -/
def logicalWrite (X : File) (req : WriteReq) : File :=
  X.write (if req.append then X.size else req.pos) req.data

section Write

variable {lower X : File} {f g : OvlFile} {env : WriteEnv} {req : WriteReq} {m m' : BlockMap}

/-- An append finds the upper file as long as the content, the last block being
copied first where needed. -/
theorem Tracks.filledData_size (h : Tracks lower X f) (hmax : lower.size ≤ MAX_COW_SIZE)
    (hcow : f.oi.cowStatus = true) (hm : f.oi.blockStatus = some m)
    (happ : req.append = true) : (filledData env m f req).size = X.size := by
  obtain ⟨-, h0, hb, -⟩ := CountsBlocks.block_last h.blockCount hmax hcow
  rw [filledData, h.lowerAt_zero]
  have hp : PatchedFrom f.Uncopied lower f.upperData (fill lower f.upperData
      (copyRanges env.oob f.oi m lower.size req)) :=
    (patchedFrom_fill _ _ _).mono fun i hi hlt =>
      uncopied_of_inRanges h.blockCount hmax hcow hm hi hlt
  refine le_antisymm (h.size_le_of_patched hp) ?_
  obtain hr | ⟨hr, hle⟩ := h.reaches
  · exact hr.trans hp.size_le
  · have hin : InRanges (copyRanges env.oob f.oi m lower.size req) (lower.size - 1) := by
      refine inRanges_of_marked h.blockCount hmax hm hr (by omega) ?_ ?_ ?_
      · rw [blockRange, if_pos happ, hb]
      · rw [blockRange, if_pos happ, hb]
      · rw [happ]
        intro h
        cases h
    have := lt_fill_size (f := f.upperData) hin (show lower.size - 1 < lower.size by omega)
    omega

/-- The data goes to the end of the content or to its position. -/
theorem Tracks.writeAt_filledData (h : Tracks lower X f) (hmax : lower.size ≤ MAX_COW_SIZE)
    (hcow : f.oi.cowStatus = true) (hm : f.oi.blockStatus = some m) :
    writeAt req.append (filledData env m f req) req.pos =
      if req.append then X.size else req.pos := by
  rw [writeAt]
  split
  · next happ => exact h.filledData_size hmax hcow hm happ
  · rfl

/-- The request with its first `n` bytes. -/
def WriteReq.first (req : WriteReq) (n : ℕ) : WriteReq := { req with data := req.data.take n }

/-- From the `n`-th byte of the request on, the upper file already has the lower bytes of the
uncopied blocks that the request covers. It also reaches them, or the block behind the request is
copied and extends it. -/
def RestPresent (lower : File) (f : OvlFile) (req : WriteReq) (n : ℕ) : Prop :=
  ∀ i, req.Covers i → req.pos + n ≤ i → f.Uncopied i → i < lower.size →
    f.upperData.cell i = lower.cell i ∧
      (i < f.upperData.size ∨ f.Uncopied (req.pos + req.data.length))

/-- The upper contents and the content after the first `n` bytes of a request. -/
structure FirstStored (lower X : File) (f : OvlFile) (rs : List (ℕ × ℕ)) (at_ : ℕ)
    (bytes : List UInt8) (U X' : File) : Prop where
  upper : U = (fill lower f.upperData rs).write at_ bytes
  content : X' = X.write at_ bytes
  ne_nil : bytes ≠ []
  uncopied : ∀ i, InRanges rs i → i < lower.size → f.Uncopied i

namespace FirstStored

variable {rs : List (ℕ × ℕ)} {at_ i : ℕ} {bytes : List UInt8} {U X' : File}

theorem patched (hs : FirstStored lower X f rs at_ bytes U X') :
    PatchedFrom f.Uncopied lower f.upperData (fill lower f.upperData rs) :=
  (patchedFrom_fill _ _ _).mono hs.uncopied

theorem size_upper (hs : FirstStored lower X f rs at_ bytes U X') :
    U.size = max (fill lower f.upperData rs).size (at_ + bytes.length) := by
  rw [hs.upper, write_size_of_ne_nil _ _ hs.ne_nil]

theorem size_content (hs : FirstStored lower X f rs at_ bytes U X') :
    X'.size = max X.size (at_ + bytes.length) := by
  rw [hs.content, write_size_of_ne_nil _ _ hs.ne_nil]

theorem get?_of_mem (hs : FirstStored lower X f rs at_ bytes U X') (h₁ : at_ ≤ i)
    (h₂ : i < at_ + bytes.length) : U.get? i = X'.get? i := by
  rw [hs.upper, hs.content, get?_write_of_mem _ h₁ h₂, get?_write_of_mem _ h₁ h₂]

/-- A lower byte that is not overwritten is still part of the content. -/
theorem get?_content (hs : FirstStored lower X f rs at_ bytes U X') (h : Tracks lower X f)
    (hi : f.Uncopied i) (hlt : i < lower.size) (hout : i < at_ ∨ at_ + bytes.length ≤ i) :
    X'.get? i = some (lower.cell i) := by
  obtain ⟨hcell, hsize⟩ := h.uncopied i hi hlt
  have hsize' := hs.size_content
  rw [get?_eq_some_iff]
  refine ⟨by omega, ?_⟩
  rw [hs.content, write_cell_of_not_mem _ hout, hcell]

/-- A byte that was copied and is not overwritten. -/
theorem get?_of_inRanges (hs : FirstStored lower X f rs at_ bytes U X') (h : Tracks lower X f)
    (hin : InRanges rs i) (hlt : i < lower.size) (hout : i < at_ ∨ at_ + bytes.length ≤ i) :
    U.get? i = X'.get? i := by
  have hfill := lt_fill_size (f := f.upperData) hin hlt
  have hsize := hs.size_upper
  rw [hs.get?_content h (hs.uncopied i hin hlt) hlt hout, get?_eq_some_iff]
  refine ⟨by omega, ?_⟩
  rw [hs.upper, write_cell_of_not_mem _ hout, fill_cell hin hlt]

/-- Behind the end of the lower file. -/
theorem get?_of_beyond (hs : FirstStored lower X f rs at_ bytes U X') (h : Tracks lower X f)
    (hi : f.Uncopied i) (hle : lower.size ≤ i) (hout : i < at_ ∨ at_ + bytes.length ≤ i) :
    U.get? i = X'.get? i := by
  have hcell : U.cell i = X'.cell i := by
    rw [hs.upper, hs.content, write_cell_of_not_mem _ hout, write_cell_of_not_mem _ hout,
      hs.patched.cell_eq_of_le hle, (h.beyond i hi hle).1, (h.beyond i hi hle).2]
  have hsize : i < U.size ↔ i < X'.size := by
    have hfill := h.size_le_of_patched hs.patched
    have hgrow := hs.patched.size_le
    rw [hs.size_upper, hs.size_content]
    obtain hr | ⟨-, hr⟩ := h.reaches
    · rw [show (fill lower f.upperData rs).size = X.size by omega]
    · omega
  by_cases hlt : i < X'.size
  · rw [get?_of_lt hlt, get?_of_lt (hsize.mpr hlt), hcell]
  · rw [get?_of_le (Nat.le_of_not_lt hlt), get?_of_le (Nat.le_of_not_lt (mt hsize.mp hlt))]

/-- Where no uncopied block is, the upper file has the content. -/
theorem cell_eq_of_not_uncopied (hs : FirstStored lower X f rs at_ bytes U X')
    (h : Tracks lower X f) (hi : ¬ f.Uncopied i) : U.cell i = X'.cell i := by
  rw [hs.upper, hs.content]
  by_cases hin : at_ ≤ i ∧ i < at_ + bytes.length
  · rw [write_cell_of_mem _ hin.1 hin.2, write_cell_of_mem _ hin.1 hin.2]
  · rw [write_cell_of_not_mem _ (by omega), write_cell_of_not_mem _ (by omega),
      hs.patched.cell_eq hi, h.marked i hi]

/-- A lower byte that was neither copied nor overwritten. -/
theorem get?_iff_of_rest (hs : FirstStored lower X f rs at_ bytes U X') (h : Tracks lower X f)
    (hi : f.Uncopied i) (hlt : i < lower.size) (hnot : ¬ InRanges rs i)
    (hout : at_ + bytes.length ≤ i) :
    U.get? i = X'.get? i ↔ f.upperData.cell i = lower.cell i ∧
      i < (fill lower f.upperData rs).size := by
  have hcell : U.cell i = f.upperData.cell i := by
    rw [hs.upper, write_cell_of_not_mem _ (.inr hout), (patchedFrom_fill _ _ _).cell_eq hnot]
  have hsize := hs.size_upper
  rw [hs.get?_content h hi hlt (.inr hout), get?_eq_some_iff, hcell, and_comm]
  refine and_congr_right fun _ => ?_
  omega

end FirstStored

theorem length_take_first {n : ℕ} (hle : n ≤ req.data.length) :
    (req.data.take n).length = n := by
  rw [List.length_take]
  omega

/-- What is stored when the first `n` bytes of a request are. -/
theorem Tracks.firstStored {n : ℕ} (h : Tracks lower X f) (hmax : lower.size ≤ MAX_COW_SIZE)
    (hcow : f.oi.cowStatus = true) (hm : f.oi.blockStatus = some m) (hn : 0 < n)
    (hle : n ≤ req.data.length) (hfile : Updated (storedData env m f req n) f g) :
    FirstStored lower X f (copyRanges env.oob f.oi m lower.size req)
      (if req.append then X.size else req.pos) (req.data.take n) g.upperData
      (logicalWrite X (req.first n)) where
  upper := by
    rw [hfile.upperData_eq h.upper, storedData, h.writeAt_filledData hmax hcow hm, filledData,
      h.lowerAt_zero]
  content := rfl
  ne_nil := by
    rw [← List.length_pos_iff, length_take_first hle]
    exact hn
  uncopied i hi hlt := uncopied_of_inRanges h.blockCount hmax hcow hm hi hlt

/-- The newly marked blocks hold the content after the first `n` bytes exactly if the rest of the
request is present. -/
theorem Tracks.newlyMarked_iff {n : ℕ} (h : Tracks lower X f) (hmax : lower.size ≤ MAX_COW_SIZE)
    (hcow : f.oi.cowStatus = true) (hm : f.oi.blockStatus = some m) (hn : 0 < n)
    (hle : n ≤ req.data.length) (hfile : Updated (storedData env m f req n) f g)
    (hmark : Marked (blockRange f.oi req).1 (blockRange f.oi req).2 m m' f g) :
    (∀ i, NewlyMarked f g i →
      g.upperData.get? i = (logicalWrite X (req.first n)).get? i) ↔ RestPresent lower f req n := by
  have hs := h.firstStored hmax hcow hm hn hle hfile
  have hlen := length_take_first hle
  have hrest : ∀ i, req.Covers i → req.pos + n ≤ i → f.Uncopied i → i < lower.size →
      (g.upperData.get? i = (logicalWrite X (req.first n)).get? i ↔
        f.upperData.cell i = lower.cell i ∧
          (i < f.upperData.size ∨ f.Uncopied (req.pos + req.data.length))) := by
    intro i hc hpos hi hlt
    have hnot : ¬ InRanges (copyRanges env.oob f.oi m lower.size req) i := fun hin =>
      absurd (block_of_inRanges_covers hc le_rfl hin) hc.block_lt.ne
    rw [hs.get?_iff_of_rest h hi hlt hnot (by rw [hlen, if_neg (by simp [hc.1])]; exact hpos),
      lt_fill_iff_of_covers env.oob h.blockCount hmax hm hcow hc]
  constructor
  · intro hnew i hc hpos hi hlt
    refine (hrest i hc hpos hi hlt).mp (hnew i ((hmark.newlyMarked_iff hm hi).mpr ?_))
    rw [blockRange, if_neg (by simp [hc.1])]
    exact ⟨ovlGetBlock_mono hc.pos_le, hc.block_lt.le⟩
  · intro hpres i hnew
    have hi := hnew.1
    obtain ⟨hfirst, hlast⟩ := (hmark.newlyMarked_iff hm hi).mp hnew
    by_cases hmem : (if req.append then X.size else req.pos) ≤ i ∧
        i < (if req.append then X.size else req.pos) + (req.data.take n).length
    · exact hs.get?_of_mem hmem.1 hmem.2
    have hout : i < (if req.append then X.size else req.pos) ∨
        (if req.append then X.size else req.pos) + (req.data.take n).length ≤ i := by omega
    by_cases hlt : i < lower.size
    · obtain hin | hc := inRanges_or_covers env.oob h.blockCount hmax hm hi hlt hfirst hlast
      · exact hs.get?_of_inRanges h hin hlt hout
      · rw [if_neg (by simp [hc.1]), hlen] at hout
        have hpos : req.pos + n ≤ i := hout.resolve_left (Nat.not_lt.mpr hc.pos_le)
        exact (hrest i hc hpos hi hlt).mpr (hpres i hc hpos hi hlt)
    · exact hs.get?_of_beyond h hi (Nat.le_of_not_lt hlt) hout

/-- What a request overwrites of an uncopied block lies in the blocks it marks. -/
theorem Tracks.range_of_overwritten (h : Tracks lower X f) (hmax : lower.size ≤ MAX_COW_SIZE)
    {i : ℕ} (hi : f.Uncopied i) (h₁ : (if req.append then X.size else req.pos) ≤ i)
    (h₂ : i < (if req.append then X.size else req.pos) + req.data.length) :
    (blockRange f.oi req).1 ≤ ovlGetBlock i ∧ ovlGetBlock i ≤ (blockRange f.oi req).2 := by
  rw [blockRange]
  by_cases happ : req.append = true
  · rw [if_pos happ] at h₁ ⊢
    -- Past the end of the content only the last block can be uncopied.
    have hb : ovlGetBlock i = f.oi.blockCount := by
      by_contra hne
      have := (h.uncopied i hi (h.lt_size_of_uncopied hmax hi hne)).2
      omega
    exact ⟨hb.ge, hb.le⟩
  · rw [if_neg happ] at h₁ h₂ ⊢
    exact ⟨ovlGetBlock_mono h₁, ovlGetBlock_mono h₂.le⟩

/-- Storing the first bytes of a request keeps the invariant if the rest is present. -/
theorem Tracks.first_write {n : ℕ} (h : Tracks lower X f) (hmax : lower.size ≤ MAX_COW_SIZE)
    (hcow : f.oi.cowStatus = true) (hm : f.oi.blockStatus = some m) (hn : 0 < n)
    (hle : n ≤ req.data.length) (hfile : Updated (storedData env m f req n) f g)
    (hmark : Marked (blockRange f.oi req).1 (blockRange f.oi req).2 m m' f g)
    (hpres : RestPresent lower f req n) : Tracks lower (logicalWrite X (req.first n)) g := by
  have hs := h.firstStored hmax hcow hm hn hle hfile
  have hnew := (h.newlyMarked_iff hmax hcow hm hn hle hfile hmark).mpr hpres
  have hlen := length_take_first hle
  have hfirst := one_le_blockRange req h.blockCount hmax hcow
  obtain ⟨m₀, hm₀, hcount⟩ := h.map hcow
  obtain rfl : m = m₀ := Option.some.inj (hm.symm.trans hm₀)
  have hold : ∀ i, g.Uncopied i → f.Uncopied i := fun i hi => (hmark.uncopied hfile hm hi).1
  have hmarked : ∀ i, f.Uncopied i → ¬ g.Uncopied i →
      g.upperData.get? i = (logicalWrite X (req.first n)).get? i := by
    intro i hi hi'
    exact hnew i ((hmark.newlyMarked_iff hm hi).mpr
      (hmark.range_of_uncopied hfile hm hfirst hcount hi hi'))
  have hout : ∀ i, g.Uncopied i → i < (if req.append then X.size else req.pos) ∨
      (if req.append then X.size else req.pos) + (req.data.take n).length ≤ i := by
    intro i hi
    by_contra hin
    exact (hmark.uncopied hfile hm hi).2
      (h.range_of_overwritten hmax (hold i hi) (by omega) (by omega))
  have hfill := h.size_le_of_patched hs.patched
  have hgrow := hs.patched.size_le
  have hU := hs.size_upper
  have hX := hs.size_content
  refine ⟨hfile.lowerstack.trans h.lowerstack, hfile.upper_isSome h.upper,
    hfile.upperdata.trans h.upperdata, hfile.lowerFile, fun _ => ?_, fun _ => ?_, fun i hi => ?_,
    fun i hi hlt => ?_, fun i hi hend => ?_, by omega, ?_⟩
  · rw [hfile.blockCount]
    exact h.blockCount hcow
  · refine ⟨m', hmark.blockStatus, ?_⟩
    rw [hfile.blockCount, hmark.copyCount hfirst]
    exact hcount
  · by_cases hun : f.Uncopied i
    · exact cell_eq_of_get?_eq (hmarked i hun hi)
    · exact hs.cell_eq_of_not_uncopied h hun
  · obtain ⟨hc, hsize⟩ := h.uncopied i (hold i hi) hlt
    refine ⟨?_, by omega⟩
    rw [hs.content, write_cell_of_not_mem _ (hout i hi), hc]
  · rw [hs.upper, hs.content, write_cell_of_not_mem _ (hout i hi),
      write_cell_of_not_mem _ (hout i hi), hs.patched.cell_eq_of_le hend]
    exact h.beyond i (hold i hi) hend
  · obtain hr | ⟨hr, hend⟩ := h.reaches
    · exact .inl (by omega)
    by_cases hl : g.Uncopied (lower.size - 1)
    · by_cases he : (if req.append then X.size else req.pos) + (req.data.take n).length ≤
          lower.size
      · exact .inr ⟨hl, by omega⟩
      · exact .inl (by omega)
    · -- The last lower byte is in the upper file now.
      have h0 := (h.blockCount hcow).2
      have hin := (h.uncopied _ hr (by omega)).2
      have hget := hmarked _ hr hl
      rw [get?_of_lt (show lower.size - 1 < (logicalWrite X (req.first n)).size by omega),
        get?_eq_some_iff] at hget
      exact .inl (by omega)

theorem WriteReq.first_length (req : WriteReq) : req.first req.data.length = req := by
  rw [WriteReq.first, List.take_length]

/-- When the whole request is stored no rest is left. -/
theorem restPresent_length (lower : File) (f : OvlFile) (req : WriteReq) :
    RestPresent lower f req req.data.length := by
  intro i hc hpos
  have hend := hc.2.2
  have := lt_ovlGetBlock_mul i
  omega

theorem Tracks.stored_write (h : Tracks lower X f) (hmax : lower.size ≤ MAX_COW_SIZE)
    (hcow : f.oi.cowStatus = true) (hm : f.oi.blockStatus = some m) (hdata : req.data ≠ [])
    (hfile : Updated (storedData env m f req req.data.length) f g)
    (hmark : Marked (blockRange f.oi req).1 (blockRange f.oi req).2 m m' f g) :
    Tracks lower (logicalWrite X req) g := by
  have hfirst := h.first_write hmax hcow hm (List.length_pos_iff.mpr hdata) le_rfl hfile hmark
    (restPresent_length lower f req)
  rw [req.first_length] at hfirst
  exact hfirst

/-- Every write that returns keeps the invariant: a completed one changes the
content as it should, a failed one leaves it. -/
theorem Tracks.write {r : WriteResult} (h : Tracks lower X f) (hmax : lower.size ≤ MAX_COW_SIZE)
    (henv : env.wr 0 = .full ∨ ∃ e, env.wr 0 = .fail e)
    (hr : ovlWriteIter env f req = .ret r) :
    Tracks lower (if 0 ≤ r.ret then logicalWrite X req else X) r.file := by
  by_cases hdata : req.data = []
  · rw [ovlWriteIter, if_pos hdata] at hr
    cases hr
    rw [logicalWrite, hdata, write_nil, ite_self]
    exact h
  cases hcow : f.oi.cowStatus with
  | true =>
    obtain ⟨m, hm, -⟩ := h.map hcow
    cases ovlWriteIter_cow h.upper h.upperdata h.lowerFile hm hcow hdata hr with
    | unprepared data hret hpatch hfile hmap =>
      rw [if_neg (by omega)]
      rw [h.lowerAt_zero] at hpatch
      exact h.patched hmap hfile
        (hpatch.mono fun i hi hlt => uncopied_of_inRanges h.blockCount hmax hcow hm hi hlt)
    | torn n hret hn hfull hfail hfile hmap =>
      rw [if_neg (by omega)]
      obtain he | ⟨e, he⟩ := henv
      · exact absurd he hfull
      · obtain rfl := hfail e he
        rw [storedData, List.take_zero, write_nil, filledData, h.lowerAt_zero] at hfile
        exact h.patched hmap hfile ((patchedFrom_fill _ _ _).mono fun i hi hlt =>
          uncopied_of_inRanges h.blockCount hmax hcow hm hi hlt)
    | stored n m' hn hle hfull hfail hret hpos hfile hmark =>
      rw [if_pos (by omega)]
      obtain he | ⟨e, he⟩ := henv
      · obtain rfl := hfull he
        exact h.stored_write hmax hcow hm hdata hfile hmark
      · exact absurd he (hfail e)
  | false =>
    have hX := h.eq_upperData hcow
    obtain ⟨hmap, ⟨hret, hfile⟩ | ⟨n, hn, hle, hfull, hfail, hret, hpos, hfile⟩⟩ :=
      ovlWriteIter_plain h.upper h.upperdata h.lowerFile hcow hdata hr
    · rw [if_neg (by omega)]
      exact h.patched hmap hfile (.refl _ _ _)
    · rw [if_pos (by omega)]
      obtain he | ⟨e, he⟩ := henv
      · obtain rfl := hfull he
        have hg := Tracks.of_plain (hfile.lowerstack.trans h.lowerstack)
          (hfile.upper_isSome h.upper) (hfile.upperdata.trans h.upperdata) hfile.lowerFile
          (hmap.cowStatus.trans hcow)
        rw [hfile.upperData_eq h.upper, List.take_length, ← hX] at hg
        exact hg
      · exact absurd he (hfail e)

end Write

-- ════════════════════════════════════════════════════════════════════════
-- Copy-up establishes the invariant
-- ════════════════════════════════════════════════════════════════════════

/-- A file of one lower layer that is not copied up yet, perhaps after copy-ups
that failed. -/
structure NotCopied (lower : File) (f : OvlFile) : Prop where
  lowerstack : f.lowerstack = [lower]
  upper : f.upper = none
  upperdata : f.oi.upperdata = false
  copyCount : f.oi.copyCount = 0
  lowerFile : f.oi.lowerFile.First
  counts : CountsBlocks lower f

theorem notCopied_lookedUp (lower : File) (old : OvlInode) :
    NotCopied lower (.lookedUp [lower] old) :=
  ⟨rfl, rfl, rfl, rfl, nofun, nofun⟩

theorem unmarked_uncopy (bc : ℕ) : (unmarked bc fun _ => .uncopy).card = bc := by
  simp [unmarked]

/-- A new upper file over an all-uncopied map holds the lower content. -/
theorem NotCopied.tracks_freshCow {lower : File} {f : OvlFile} (h : NotCopied lower f)
    (h0 : 0 < lower.size) (hmax : lower.size ≤ MAX_COW_SIZE) (addr : ℕ) (linked : Bool) :
    Tracks lower lower (freshCow f addr linked) := by
  rw [freshCow, OvlFile.lowerAt_zero_of_single h.lowerstack]
  obtain ⟨hpos, -, hlast, hend⟩ := countBlocks_bounds h0 hmax
  have hun : ∀ i, i < lower.size → ovlGetBlock i ≤ countBlocks lower.size := by
    intro i hi
    rw [BLOCK_SIZE] at hend
    rw [ovlGetBlock_eq]
    omega
  refine ⟨h.lowerstack, rfl, rfl, h.lowerFile, fun _ => ⟨rfl, h0⟩, fun _ => ⟨_, rfl, ?_⟩, ?_,
    fun i _ hi => ⟨rfl, hi⟩, fun i _ hi => ⟨lower.cell_eq_zero i hi, rfl⟩, Nat.zero_le _,
    .inr ⟨?_, le_rfl⟩⟩
  · simp only [cowSetUp]
    rw [h.copyCount, unmarked_uncopy, Nat.zero_add]
  · intro i hi
    refine (lower.cell_eq_zero i ?_).symm
    by_contra hlt
    exact hi ⟨rfl, hun i (by omega), _, rfl, rfl⟩
  · exact ⟨rfl, hun _ (by omega), _, rfl, rfl⟩

end FzzOverlay

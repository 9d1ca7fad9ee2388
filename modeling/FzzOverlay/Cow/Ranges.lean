import FzzOverlay.Cow.Shape

/-!
# The ranges a write copies and the blocks it marks

Which bytes of the lower file `block_write_iter` copies before it stores the data of a request,
and which blocks it marks afterwards.
-/

namespace FzzOverlay

open SparseFile

/-- The largest lower file whose number of blocks fits in `block_count`. -/
def MAX_COW_SIZE : ℕ := 2 ^ 44 - BLOCK_SIZE

/-- The number of blocks of a file that is not too large. -/
theorem countBlocks_bounds {size : ℕ} (h0 : 0 < size) (hmax : size ≤ MAX_COW_SIZE) :
    0 < countBlocks size ∧ countBlocks size < 2 ^ 32 ∧
      (countBlocks size - 1) * BLOCK_SIZE < size ∧ size ≤ countBlocks size * BLOCK_SIZE := by
  have hcount : countBlocks size = (size + 4095) / 4096 := by
    rw [MAX_COW_SIZE, BLOCK_SIZE] at hmax
    rw [countBlocks, BLOCK_SIZE]
    split <;> omega
  rw [MAX_COW_SIZE, BLOCK_SIZE] at hmax
  rw [hcount, BLOCK_SIZE]
  omega

-- ════════════════════════════════════════════════════════════════════════
-- The ranges a write copies
-- ════════════════════════════════════════════════════════════════════════

theorem blockLen_le (b size : ℕ) : blockLen b size ≤ BLOCK_SIZE := by
  rw [blockLen]
  split <;> omega

theorem blockLen_eq {b size : ℕ} (h : (b - 1) * BLOCK_SIZE ≤ size) (hsize : size < 2 ^ 64) :
    blockLen b size = min (size - (b - 1) * BLOCK_SIZE) BLOCK_SIZE := by
  rw [blockLen, usub64_of_le h hsize]
  split <;> omega

/-- Block `b` starts at `s` and is `BLOCK_SIZE` long. -/
theorem ovlGetBlock_eq_iff_start {i b : ℕ} (hb : 0 < b) :
    ovlGetBlock i = b ↔ (b - 1) * BLOCK_SIZE ≤ i ∧ i < (b - 1) * BLOCK_SIZE + BLOCK_SIZE := by
  have hstart : (b - 1) * BLOCK_SIZE + BLOCK_SIZE = b * BLOCK_SIZE := by
    rw [← Nat.succ_mul, Nat.succ_eq_add_one, Nat.sub_add_cancel hb]
  rw [hstart]
  exact ovlGetBlock_eq_iff hb

/-- The span of a block holds the lower bytes of the block. -/
theorem lt_blockSpan {size i : ℕ} (hi : i < size) (hsize : size < 2 ^ 64) :
    (blockSpan size (ovlGetBlock i)).1 ≤ i ∧
      i < (blockSpan size (ovlGetBlock i)).1 + (blockSpan size (ovlGetBlock i)).2 := by
  obtain ⟨hle, hlt⟩ := (ovlGetBlock_eq_iff_start (ovlGetBlock_pos i)).mp rfl
  refine ⟨hle, ?_⟩
  simp only [blockSpan]
  rw [blockLen_eq (by omega) hsize]
  omega

theorem ovlGetBlock_of_blockSpan {size b i : ℕ} (hb : 0 < b) (h₁ : (blockSpan size b).1 ≤ i)
    (h₂ : i < (blockSpan size b).1 + (blockSpan size b).2) : ovlGetBlock i = b := by
  have hlen := blockLen_le b size
  simp only [blockSpan] at h₁ h₂
  rw [ovlGetBlock_eq_iff_start hb]
  exact ⟨h₁, by omega⟩

theorem lastBlockStart_eq {bc : ℕ} (h0 : 0 < bc) (hlt : bc < 2 ^ 32) :
    lastBlockStart bc = (bc - 1) * BLOCK_SIZE := by
  rw [lastBlockStart, show (bc + (2 ^ 32 - 1)) % 2 ^ 32 = bc - 1 by omega]

/-- In copy-on-write mode the map has the blocks of the lower file. -/
def CountsBlocks (lower : File) (f : OvlFile) : Prop :=
  f.oi.cowStatus = true → f.oi.blockCount = countBlocks lower.size ∧ 0 < lower.size

/-- The map ends with the block of the last lower byte. -/
theorem CountsBlocks.block_last {lower : File} {f : OvlFile} (h : CountsBlocks lower f)
    (hmax : lower.size ≤ MAX_COW_SIZE) (hcow : f.oi.cowStatus = true) :
    0 < f.oi.blockCount ∧ 0 < lower.size ∧ ovlGetBlock (lower.size - 1) = f.oi.blockCount ∧
      ∀ i, lower.size ≤ i → f.oi.blockCount ≤ ovlGetBlock i := by
  obtain ⟨hbc, h0⟩ := h hcow
  obtain ⟨hpos, -, hlast, hend⟩ := countBlocks_bounds h0 hmax
  rw [← hbc, BLOCK_SIZE] at hlast hend
  rw [← hbc] at hpos
  refine ⟨hpos, h0, ?_, fun i hi => ?_⟩
  · rw [ovlGetBlock_eq]
    omega
  · rw [ovlGetBlock_eq]
    omega

/-- Past the map is past the end of the lower file. -/
theorem CountsBlocks.le_of_past {lower : File} {f : OvlFile} (h : CountsBlocks lower f)
    (hmax : lower.size ≤ MAX_COW_SIZE) (hcow : f.oi.cowStatus = true) {i : ℕ}
    (hi : f.oi.blockCount < ovlGetBlock i) : lower.size ≤ i := by
  obtain ⟨-, -, hlast, -⟩ := h.block_last hmax hcow
  by_contra hlt
  have := ovlGetBlock_mono (show i ≤ lower.size - 1 by omega)
  omega

section Ranges

variable {lower : File} {f : OvlFile} {m : BlockMap} {req : WriteReq} {oob : ℕ → BlockStatus}

/-- Only lower bytes of uncopied blocks are copied. -/
theorem uncopied_of_inRanges (h : CountsBlocks lower f) (hmax : lower.size ≤ MAX_COW_SIZE)
    (hcow : f.oi.cowStatus = true) (hm : f.oi.blockStatus = some m) {i : ℕ}
    (hi : InRanges (copyRanges oob f.oi m lower.size req) i) (hlt : i < lower.size) :
    f.Uncopied i := by
  obtain ⟨hbc, h0⟩ := h hcow
  obtain ⟨hpos, hfit, hlast, hend⟩ := countBlocks_bounds h0 hmax
  rw [← hbc] at hpos hfit hlast hend
  have hin : ovlGetBlock i ≤ f.oi.blockCount := by
    rw [ovlGetBlock_eq]
    rw [BLOCK_SIZE] at hend
    omega
  have hblock : ∀ b, 0 < b → statusAt oob f.oi m b = .uncopy →
      (blockSpan lower.size b).1 ≤ i →
      i < (blockSpan lower.size b).1 + (blockSpan lower.size b).2 → f.Uncopied i := by
    intro b hb hst h₁ h₂
    obtain rfl := ovlGetBlock_of_blockSpan hb h₁ h₂
    rw [statusAt, if_pos hin] at hst
    exact ⟨hcow, hin, m, hm, hst⟩
  obtain ⟨r, hr, h₁, h₂⟩ := hi
  rw [copyRanges] at hr
  split at hr
  · split at hr
    · next hun =>
      obtain rfl := List.mem_singleton.mp hr
      refine ⟨hcow, hin, m, hm, ?_⟩
      rw [lastBlockStart_eq hpos hfit, BLOCK_SIZE] at h₁
      rw [show ovlGetBlock i = f.oi.blockCount by rw [ovlGetBlock_eq] at hin ⊢; omega]
      exact hun
    · cases hr
  · rcases List.mem_append.mp hr with hr | hr
    · split at hr
      · next hs =>
        obtain rfl := List.mem_singleton.mp hr
        simp only [startCopies, Bool.and_eq_true, decide_eq_true_eq] at hs
        exact hblock _ (ovlGetBlock_pos _) hs.2 h₁ h₂
      · cases hr
    · split at hr
      · next hs =>
        obtain rfl := List.mem_singleton.mp hr
        simp only [endCopies, Bool.and_eq_true, decide_eq_true_eq] at hs
        exact hblock _ (ovlGetBlock_pos _) hs.1.2 h₁ h₂
      · cases hr

theorem lt_two_pow_of_max (hmax : lower.size ≤ MAX_COW_SIZE) : lower.size < 2 ^ 64 := by
  rw [MAX_COW_SIZE, BLOCK_SIZE] at hmax
  omega

theorem statusAt_of_uncopied (oob : ℕ → BlockStatus) (hm : f.oi.blockStatus = some m) {i : ℕ}
    (hi : f.Uncopied i) : statusAt oob f.oi m (ovlGetBlock i) = .uncopy := by
  obtain ⟨-, hin, m', hm', hcell⟩ := hi
  obtain rfl : m = m' := Option.some.inj (hm.symm.trans hm')
  rw [statusAt, if_pos hin]
  exact hcell

/-- The lower bytes of the first block are copied if the request starts inside it. -/
theorem inRanges_of_first (oob : ℕ → BlockStatus) (hmax : lower.size ≤ MAX_COW_SIZE)
    (hm : f.oi.blockStatus = some m) {i : ℕ} (hi : f.Uncopied i) (hlt : i < lower.size)
    (happ : req.append = false) (hb : ovlGetBlock i = ovlGetBlock req.pos)
    (hpart : (ovlGetBlock i - 1) * BLOCK_SIZE < req.pos) :
    InRanges (copyRanges oob f.oi m lower.size req) i := by
  have hspan := lt_blockSpan hlt (lt_two_pow_of_max hmax)
  have hs : startCopies oob f.oi m req = true := by
    simp only [startCopies, Bool.and_eq_true, decide_eq_true_eq]
    rw [← hb]
    exact ⟨hpart, statusAt_of_uncopied oob hm hi⟩
  rw [copyRanges, if_neg (by simp [happ])]
  refine ⟨_, List.mem_append_left _ ?_, hspan.1, hspan.2⟩
  rw [if_pos hs, hb]
  exact List.mem_singleton_self _

/-- The lower bytes of the last block are always copied. -/
theorem inRanges_of_last (oob : ℕ → BlockStatus) (hmax : lower.size ≤ MAX_COW_SIZE)
    (hm : f.oi.blockStatus = some m) {i : ℕ} (hi : f.Uncopied i) (hlt : i < lower.size)
    (happ : req.append = false) (hb : ovlGetBlock i = ovlGetBlock (req.pos + req.data.length)) :
    InRanges (copyRanges oob f.oi m lower.size req) i := by
  have hspan := lt_blockSpan hlt (lt_two_pow_of_max hmax)
  have hend := lt_ovlGetBlock_mul (req.pos + req.data.length)
  rw [copyRanges, if_neg (by simp [happ])]
  by_cases hs : startCopies oob f.oi m req = true ∧
      ovlGetBlock (req.pos + req.data.length) = ovlGetBlock req.pos
  · refine ⟨_, List.mem_append_left _ ?_, hspan.1, hspan.2⟩
    rw [if_pos hs.1, hb, hs.2]
    exact List.mem_singleton_self _
  · have he : endCopies oob f.oi m req = true := by
      simp only [endCopies, Bool.and_eq_true, decide_eq_true_eq, Bool.not_eq_true',
        Bool.and_eq_false_iff, decide_eq_false_iff_not]
      rw [← hb]
      refine ⟨⟨by rw [hb]; exact hend, statusAt_of_uncopied oob hm hi⟩, ?_⟩
      by_cases hstart : startCopies oob f.oi m req = true
      · exact .inr fun hq => hs ⟨hstart, by rw [← hb]; exact hq⟩
      · exact .inl (by simpa using hstart)
    refine ⟨_, List.mem_append_right _ ?_, hspan.1, hspan.2⟩
    rw [if_pos he, hb]
    exact List.mem_singleton_self _

/-- The lower bytes of an uncopied block that a request marks are copied, except
those it overwrites. -/
theorem inRanges_of_marked (h : CountsBlocks lower f) (hmax : lower.size ≤ MAX_COW_SIZE)
    (hm : f.oi.blockStatus = some m) {i : ℕ} (hi : f.Uncopied i)
    (hlt : i < lower.size) (hfirst : (blockRange f.oi req).1 ≤ ovlGetBlock i)
    (hlast : ovlGetBlock i ≤ (blockRange f.oi req).2)
    (hout : req.append = false → i < req.pos ∨ req.pos + req.data.length ≤ i) :
    InRanges (copyRanges oob f.oi m lower.size req) i := by
  rw [blockRange] at hfirst hlast
  by_cases happ : req.append = true
  · obtain ⟨hcow, -, m', hm', hcell⟩ := hi
    obtain rfl : m = m' := Option.some.inj (hm.symm.trans hm')
    obtain ⟨hbc, h0⟩ := h hcow
    obtain ⟨hpos, hfit, hlo, -⟩ := countBlocks_bounds h0 hmax
    rw [← hbc] at hpos hfit hlo
    rw [if_pos happ] at hfirst hlast
    have hb : ovlGetBlock i = f.oi.blockCount := le_antisymm hlast hfirst
    rw [hb] at hcell
    rw [copyRanges, if_pos happ, if_pos hcell]
    refine ⟨_, List.mem_singleton_self _, ?_, ?_⟩
    · rw [lastBlockStart_eq hpos hfit, ← hb]
      exact ovlGetBlock_sub_one_mul_le i
    · simp only
      rw [lastBlockStart_eq hpos hfit, usub64_of_le hlo.le (lt_two_pow_of_max hmax)]
      omega
  · rw [if_neg happ] at hfirst hlast
    have happ' : req.append = false := by simpa using happ
    obtain hbefore | hafter := hout happ'
    · -- Before the request the block is its first block.
      have hb : ovlGetBlock i = ovlGetBlock req.pos :=
        le_antisymm (ovlGetBlock_mono hbefore.le) hfirst
      exact inRanges_of_first oob hmax hm hi hlt happ' hb
        (lt_of_le_of_lt (ovlGetBlock_sub_one_mul_le i) hbefore)
    · exact inRanges_of_last oob hmax hm hi hlt happ'
        (le_antisymm hlast (ovlGetBlock_mono hafter))

theorem one_le_blockRange (req : WriteReq) (h : CountsBlocks lower f)
    (hmax : lower.size ≤ MAX_COW_SIZE) (hcow : f.oi.cowStatus = true) :
    1 ≤ (blockRange f.oi req).1 := by
  rw [blockRange]
  split
  · exact (h.block_last hmax hcow).1
  · exact ovlGetBlock_pos _

end Ranges

-- ════════════════════════════════════════════════════════════════════════
-- The blocks a request covers
-- ════════════════════════════════════════════════════════════════════════

/-- A positioned request covers the whole block of offset `i`. -/
def WriteReq.Covers (req : WriteReq) (i : ℕ) : Prop :=
  req.append = false ∧ req.pos ≤ (ovlGetBlock i - 1) * BLOCK_SIZE ∧
    ovlGetBlock i * BLOCK_SIZE ≤ req.pos + req.data.length

section Covers

variable {lower : File} {f : OvlFile} {m : BlockMap} {req : WriteReq}

/-- A positioned request copies bytes of its first block, if it starts inside it, and of the
block behind it. -/
theorem block_of_inRanges {oob : ℕ → BlockStatus} (happ : req.append = false) {j : ℕ}
    (hj : InRanges (copyRanges oob f.oi m lower.size req) j) :
    (ovlGetBlock j - 1) * BLOCK_SIZE < req.pos ∧ ovlGetBlock j = ovlGetBlock req.pos ∨
      ovlGetBlock j = ovlGetBlock (req.pos + req.data.length) := by
  obtain ⟨r, hr, h₁, h₂⟩ := hj
  rw [copyRanges, if_neg (by simp [happ])] at hr
  rcases List.mem_append.mp hr with hr | hr
  · split at hr
    · next hs =>
      obtain rfl := List.mem_singleton.mp hr
      have hb := ovlGetBlock_of_blockSpan (ovlGetBlock_pos _) h₁ h₂
      simp only [startCopies, Bool.and_eq_true, decide_eq_true_eq] at hs
      rw [hb]
      exact .inl ⟨hs.1, rfl⟩
    · cases hr
  · split at hr
    · obtain rfl := List.mem_singleton.mp hr
      exact .inr (ovlGetBlock_of_blockSpan (ovlGetBlock_pos _) h₁ h₂)
    · cases hr

/-- What is copied at or behind an offset of a covered block lies behind the request. -/
theorem block_of_inRanges_covers {oob : ℕ → BlockStatus} {i j : ℕ} (hc : req.Covers i)
    (hij : i ≤ j) (hj : InRanges (copyRanges oob f.oi m lower.size req) j) :
    ovlGetBlock j = ovlGetBlock (req.pos + req.data.length) := by
  obtain ⟨happ, hstart, -⟩ := hc
  obtain ⟨hpart, -⟩ | hb := block_of_inRanges happ hj
  · have hmono : (ovlGetBlock i - 1) * BLOCK_SIZE ≤ (ovlGetBlock j - 1) * BLOCK_SIZE :=
      Nat.mul_le_mul_right _ (Nat.sub_le_sub_right (ovlGetBlock_mono hij) 1)
    omega
  · exact hb

/-- A covered block ends before the block behind the request. -/
theorem WriteReq.Covers.block_lt {i : ℕ} (hc : req.Covers i) :
    ovlGetBlock i < ovlGetBlock (req.pos + req.data.length) := by
  obtain ⟨-, -, hend⟩ := hc
  have hlt := lt_ovlGetBlock_mul (req.pos + req.data.length)
  rw [BLOCK_SIZE] at hend hlt
  omega

theorem WriteReq.Covers.pos_le {i : ℕ} (hc : req.Covers i) : req.pos ≤ i :=
  le_trans hc.2.1 (ovlGetBlock_sub_one_mul_le i)

/-- The lower bytes of a block that a request marks are copied, or the request covers it. -/
theorem inRanges_or_covers (oob : ℕ → BlockStatus) (h : CountsBlocks lower f)
    (hmax : lower.size ≤ MAX_COW_SIZE) (hm : f.oi.blockStatus = some m) {i : ℕ}
    (hi : f.Uncopied i) (hlt : i < lower.size) (hfirst : (blockRange f.oi req).1 ≤ ovlGetBlock i)
    (hlast : ovlGetBlock i ≤ (blockRange f.oi req).2) :
    InRanges (copyRanges oob f.oi m lower.size req) i ∨ req.Covers i := by
  by_cases happ : req.append = true
  · refine .inl (inRanges_of_marked h hmax hm hi hlt hfirst hlast ?_)
    rw [happ]
    exact nofun
  have happ' : req.append = false := by simpa using happ
  rw [blockRange, if_neg happ] at hfirst hlast
  by_cases hb : ovlGetBlock i = ovlGetBlock (req.pos + req.data.length)
  · exact .inl (inRanges_of_last oob hmax hm hi hlt happ' hb)
  by_cases hpart : (ovlGetBlock i - 1) * BLOCK_SIZE < req.pos
  · refine .inl (inRanges_of_first oob hmax hm hi hlt happ' ?_ hpart)
    simp only [ovlGetBlock_eq, BLOCK_SIZE] at hpart hfirst ⊢
    omega
  · refine .inr ⟨happ', Nat.le_of_not_lt hpart, ?_⟩
    simp only [ovlGetBlock_eq, BLOCK_SIZE] at hb hlast ⊢
    omega

/-- The upper file reaches into a covered block before the data is stored if it did so before
the request, or if the block behind the request is copied. -/
theorem lt_fill_iff_of_covers (oob : ℕ → BlockStatus) (h : CountsBlocks lower f)
    (hmax : lower.size ≤ MAX_COW_SIZE) (hm : f.oi.blockStatus = some m)
    (hcow : f.oi.cowStatus = true) {i : ℕ} (hc : req.Covers i) :
    i < (fill lower f.upperData (copyRanges oob f.oi m lower.size req)).size ↔
      i < f.upperData.size ∨ f.Uncopied (req.pos + req.data.length) := by
  rw [lt_fill_size_iff]
  refine or_congr_right ⟨?_, fun hun => ?_⟩
  · rintro ⟨j, hij, hj, hlt⟩
    exact (uncopied_of_inRanges h hmax hcow hm hj hlt).of_block_eq
      (block_of_inRanges_covers hc hij hj).symm
  · -- The block behind the request starts inside the lower file.
    obtain ⟨hbc, h0⟩ := h hcow
    obtain ⟨-, -, hlast, -⟩ := countBlocks_bounds h0 hmax
    have hle := hun.2.1
    have hblt := hc.block_lt
    have hb : ovlGetBlock ((ovlGetBlock (req.pos + req.data.length) - 1) * BLOCK_SIZE) =
        ovlGetBlock (req.pos + req.data.length) := by
      simp only [ovlGetBlock_eq, BLOCK_SIZE]
      omega
    rw [← hbc] at hlast
    have hlt : (ovlGetBlock (req.pos + req.data.length) - 1) * BLOCK_SIZE < lower.size :=
      lt_of_le_of_lt (Nat.mul_le_mul_right _ (Nat.sub_le_sub_right hle 1)) hlast
    refine ⟨_, ?_, inRanges_of_last oob hmax hm (hun.of_block_eq hb) hlt hc.1 hb, hlt⟩
    simp only [ovlGetBlock_eq, BLOCK_SIZE] at hblt ⊢
    omega

end Covers

-- ════════════════════════════════════════════════════════════════════════
-- The blocks a write marks
-- ════════════════════════════════════════════════════════════════════════

/-- The block of offset `i` is not marked in `f` and is marked in `g`. -/
def NewlyMarked (f g : OvlFile) (i : ℕ) : Prop :=
  f.Uncopied i ∧ ∃ m, g.oi.blockStatus = some m ∧ m.cells (ovlGetBlock i) ≠ .uncopy

theorem SameMap.uncopied_iff {data : File} {f g : OvlFile} (h : SameMap f g)
    (hfile : Updated data f g) (i : ℕ) : g.Uncopied i ↔ f.Uncopied i := by
  rw [OvlFile.Uncopied, OvlFile.Uncopied, h.cowStatus, hfile.blockCount, h.blockStatus]

section Marks

variable {data : File} {f g : OvlFile} {m m' : BlockMap} {first last : ℕ}

theorem Marked.uncopied (h : Marked first last m m' f g) (hfile : Updated data f g)
    (hm : f.oi.blockStatus = some m) {i : ℕ} (hi : g.Uncopied i) :
    f.Uncopied i ∧ ¬ (first ≤ ovlGetBlock i ∧ ovlGetBlock i ≤ last) := by
  obtain ⟨hcow, hle, m₁, hm₁, hcell⟩ := hi
  rw [h.blockStatus] at hm₁
  cases hm₁
  rw [hfile.blockCount] at hle
  have hcow' : f.oi.cowStatus = true := by
    have hc := h.cowStatus
    rw [hcow] at hc
    split at hc
    · cases hc
    · exact hc.symm
  rw [h.cells] at hcell
  by_cases hin : first ≤ ovlGetBlock i ∧ ovlGetBlock i ≤ last ∧
      ovlGetBlock i ≤ f.oi.blockCount ∧ m.cells (ovlGetBlock i) = .uncopy
  · rw [if_pos hin] at hcell
    cases hcell
  · rw [if_neg hin] at hcell
    exact ⟨⟨hcow', hle, m, hm, hcell⟩, fun hr => hin ⟨hr.1, hr.2, hle, hcell⟩⟩

/-- A block that is no longer uncopied was among the marked ones, also when the
file has left copy-on-write mode. -/
theorem Marked.range_of_uncopied (h : Marked first last m m' f g) (hfile : Updated data f g)
    (hm : f.oi.blockStatus = some m) (hfirst : 1 ≤ first)
    (hcount : f.oi.copyCount + (unmarked f.oi.blockCount m.cells).card ≤ f.oi.blockCount)
    {i : ℕ} (hi : f.Uncopied i) (hi' : ¬ g.Uncopied i) :
    first ≤ ovlGetBlock i ∧ ovlGetBlock i ≤ last := by
  obtain ⟨hcow, hle, m₁, hm₁, hcell⟩ := hi
  rw [hm] at hm₁
  cases hm₁
  have hmarked : m'.cells (ovlGetBlock i) ≠ .uncopy := by
    intro hun
    by_cases hcow' : g.oi.cowStatus = true
    · exact hi' ⟨hcow', by rw [hfile.blockCount]; exact hle, m', h.blockStatus, hun⟩
    · -- Leaving copy-on-write mode takes a full count, which leaves no block unmarked.
      have hfull : g.oi.copyCount = f.oi.blockCount := by
        by_contra hne
        rw [h.cowStatus, if_neg hne] at hcow'
        exact hcow' hcow
      have hcard := h.copyCount hfirst
      have hempty : unmarked f.oi.blockCount m'.cells = ∅ := by
        rw [← Finset.card_eq_zero]
        omega
      have hmem : ovlGetBlock i ∈ unmarked f.oi.blockCount m'.cells := by
        simp only [unmarked, Finset.mem_filter, Finset.mem_Icc]
        exact ⟨⟨ovlGetBlock_pos i, hle⟩, hun⟩
      rw [hempty] at hmem
      cases hmem
  rw [h.cells] at hmarked
  by_cases hin : first ≤ ovlGetBlock i ∧ ovlGetBlock i ≤ last ∧
      ovlGetBlock i ≤ f.oi.blockCount ∧ m.cells (ovlGetBlock i) = .uncopy
  · exact ⟨hin.1, hin.2.1⟩
  · rw [if_neg hin] at hmarked
    exact absurd hcell hmarked

theorem Marked.newlyMarked_iff (h : Marked first last m m' f g)
    (hm : f.oi.blockStatus = some m) {i : ℕ} (hi : f.Uncopied i) :
    NewlyMarked f g i ↔ first ≤ ovlGetBlock i ∧ ovlGetBlock i ≤ last := by
  obtain ⟨hcow, hle, m₀, hm₀, hcell⟩ := hi
  obtain rfl : m = m₀ := Option.some.inj (hm.symm.trans hm₀)
  constructor
  · rintro ⟨-, m₁, hm₁, hne⟩
    obtain rfl : m' = m₁ := Option.some.inj (h.blockStatus.symm.trans hm₁)
    rw [h.cells] at hne
    by_contra hnot
    rw [if_neg fun hin => hnot ⟨hin.1, hin.2.1⟩] at hne
    exact hne hcell
  · intro hin
    refine ⟨⟨hcow, hle, m, hm, hcell⟩, m', h.blockStatus, ?_⟩
    rw [h.cells, if_pos ⟨hin.1, hin.2, hle, hcell⟩]
    exact nofun

end Marks

end FzzOverlay

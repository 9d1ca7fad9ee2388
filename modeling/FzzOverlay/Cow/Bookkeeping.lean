import FzzOverlay.CopyUp.Setup
import FzzOverlay.File.WriteSpec
import FzzOverlay.Inode
import FzzOverlay.Lib.Run

/-!
# The bookkeeping of copy-on-write mode

`copy_count` counts the blocks of the map that are marked, whatever requests come, and
copy-on-write mode is left by the request that marks the last of them. Only the end of
`block_write_iter` changes the map and the counters.

## Main definitions

- `SameBooks` — the map and the counters are as they were
- `Booked` — the counters say what the map says

## Main results

- `blockWriteIter_books` — a request leaves the books, or marks its blocks
- `cow_bookkeeping_exact`
-/

namespace FzzOverlay

/-- The block map, its size and its counters are those of `f`. -/
structure SameBooks (f g : OvlFile) : Prop where
  map : SameMap f g
  blockCount : g.oi.blockCount = f.oi.blockCount

/-- A preparation leaves the books, however it ends. -/
def PrepBooks (f : OvlFile) : Prep → Prop
  | .oops => True
  | .fail _ g => SameBooks f g
  | .ready g => SameBooks f g

section Prepare

variable {f g h : OvlFile}

theorem SameBooks.refl (f : OvlFile) : SameBooks f f := ⟨⟨rfl, rfl, rfl⟩, rfl⟩

theorem SameBooks.trans (hfg : SameBooks f g) (hgh : SameBooks g h) : SameBooks f h :=
  ⟨⟨hgh.map.cowStatus.trans hfg.map.cowStatus, hgh.map.copyCount.trans hfg.map.copyCount,
    hgh.map.blockStatus.trans hfg.map.blockStatus⟩, hgh.blockCount.trans hfg.blockCount⟩

theorem sameBooks_setUpperData (f : OvlFile) (data : File) : SameBooks f (f.setUpperData data) :=
  ⟨⟨rfl, rfl, rfl⟩, rfl⟩

theorem PrepBooks.andThen {p : Prep} {k : OvlFile → Prep} (hp : PrepBooks f p)
    (hk : ∀ g, PrepBooks g (k g)) : PrepBooks f (p.andThen k) := by
  cases p with
  | oops => trivial
  | fail ret g => exact hp
  | ready g =>
    have hnext := hk g
    show PrepBooks f (k g)
    cases hkg : k g with
    | oops => trivial
    | fail ret h =>
      rw [hkg] at hnext
      exact SameBooks.trans hp hnext
    | ready h =>
      rw [hkg] at hnext
      exact SameBooks.trans hp hnext

theorem prepBooks_openUpper (o : Option Errno) (f : OvlFile) : PrepBooks f (openUpper o f) := by
  unfold openUpper
  split
  · trivial
  · exact ⟨⟨rfl, rfl, rfl⟩, rfl⟩
  · exact ⟨⟨rfl, rfl, rfl⟩, rfl⟩
  · exact SameBooks.refl f

theorem prepBooks_openLower (o : Option Errno) (f : OvlFile) : PrepBooks f (openLower o f) := by
  unfold openLower
  split
  · exact ⟨⟨rfl, rfl, rfl⟩, rfl⟩
  · exact ⟨⟨rfl, rfl, rfl⟩, rfl⟩
  · exact SameBooks.refl f

theorem prepBooks_copyRange (env : CopyEnv) (f : OvlFile) (pos : ℕ) (len : ℕ → ℕ) :
    PrepBooks f (copyRange env f pos len) := by
  unfold copyRange
  split
  · split
    · exact sameBooks_setUpperData f _
    · exact sameBooks_setUpperData f _
  · trivial

theorem prepBooks_copyBlock (env : WriteEnv) (cenv : CopyEnv) (b : ℕ) (f : OvlFile) :
    PrepBooks f (copyBlock env cenv b f) :=
  (prepBooks_openUpper _ f).andThen fun g =>
    (prepBooks_openLower _ g).andThen fun _ => prepBooks_copyRange _ _ _ _

theorem prepBooks_prepareAppend (env : WriteEnv) (m : BlockMap) (f : OvlFile) :
    PrepBooks f (prepareAppend env m f) := by
  refine (prepBooks_openUpper _ f).andThen fun g => (prepBooks_openLower _ g).andThen fun h => ?_
  split
  · exact prepBooks_copyRange _ _ _ _
  · split
    · exact SameBooks.refl h
    · trivial

theorem prepBooks_preparePositioned (env : WriteEnv) (m : BlockMap) (f : OvlFile)
    (req : WriteReq) : PrepBooks f (preparePositioned env m f req) := by
  refine PrepBooks.andThen ?_ fun g => ?_
  · split
    · exact prepBooks_copyBlock _ _ _ _
    · exact SameBooks.refl f
  · split
    · exact prepBooks_copyBlock _ _ _ _
    · exact SameBooks.refl g

end Prepare

section Request

variable {env : WriteEnv} {f g : OvlFile} {req : WriteReq} {m : BlockMap} {r : WriteResult}

/-- The end of a request: an error leaves the books, and else the blocks are marked. -/
theorem storeData_books (hbooks : SameBooks f g) :
    SameBooks f (storeData env m g req).file ∨
      ∃ m', Marked (blockRange f.oi req).1 (blockRange f.oi req).2 m m' f
        (storeData env m g req).file ∧
        (storeData env m g req).file.oi.blockCount = f.oi.blockCount := by
  have hrange : blockRange g.oi req = blockRange f.oi req := by
    rw [blockRange, blockRange, hbooks.blockCount]
  have hfinish : ∀ first last, (finishWrite m first last g.oi).blockStatus =
        (finishWrite m first last f.oi).blockStatus ∧
      (finishWrite m first last g.oi).copyCount = (finishWrite m first last f.oi).copyCount ∧
      (finishWrite m first last g.oi).cowStatus = (finishWrite m first last f.oi).cowStatus := by
    intro first last
    simp only [finishWrite, hbooks.blockCount, hbooks.map.copyCount, hbooks.map.cowStatus,
      and_self]
  rw [storeData]
  split
  · simp only
    split
    · rw [hrange]
      obtain ⟨hmap, hcount, hcow⟩ := hfinish (blockRange f.oi req).1 (blockRange f.oi req).2
      exact .inr ⟨_, marked_finishWrite hmap hcount hcow, hbooks.blockCount⟩
    · exact .inl (hbooks.trans (sameBooks_setUpperData g _))
  · exact .inl hbooks

/-- What a returning `block_write_iter` does to the books. -/
theorem blockWriteIter_books (hmap : f.oi.blockStatus = some m)
    (h : blockWriteIter env f req = .ret r) :
    SameBooks f r.file ∨
      ∃ m', Marked (blockRange f.oi req).1 (blockRange f.oi req).2 m m' f r.file ∧
        r.file.oi.blockCount = f.oi.blockCount := by
  have hprep : PrepBooks f
      (if req.append then prepareAppend env m f else preparePositioned env m f req) := by
    split
    · exact prepBooks_prepareAppend env m f
    · exact prepBooks_preparePositioned env m f req
  rw [blockWriteIter, hmap] at h
  simp only at h
  split at h
  · cases h
  · next ret g hg =>
    rw [hg] at hprep
    cases h
    exact .inl hprep
  · next g hg =>
    rw [hg] at hprep
    cases h
    exact storeData_books hprep

end Request

section Books

/-- `copy_count` and `cow_status` say what the map says. -/
structure Booked (oi : OvlInode) (m : BlockMap) : Prop where
  map : oi.blockStatus = some m
  blockCount : 1 ≤ oi.blockCount
  copyCount : oi.copyCount + (unmarked oi.blockCount m.cells).card = oi.blockCount
  cowStatus : oi.cowStatus = false ↔ unmarked oi.blockCount m.cells = ∅

variable {f g : OvlFile} {m m' : BlockMap} {oi : OvlInode}

theorem unmarked_eq_empty {n : ℕ} {cells : ℕ → BlockStatus} :
    unmarked n cells = ∅ ↔ ∀ i, 1 ≤ i → i ≤ n → cells i ≠ .uncopy := by
  rw [unmarked, Finset.filter_eq_empty_iff]
  simp only [Finset.mem_Icc, and_imp]

/-- The marked blocks and the others are all blocks. -/
theorem card_marked_add_unmarked (n : ℕ) (cells : ℕ → BlockStatus) :
    ((Finset.Icc 1 n).filter fun i => cells i ≠ .uncopy).card + (unmarked n cells).card = n := by
  have hsplit := Finset.card_filter_add_card_filter_not (s := Finset.Icc 1 n)
    (fun i => cells i = .uncopy)
  rw [Nat.card_Icc] at hsplit
  rw [unmarked]
  simp only [ne_eq]
  omega

theorem Booked.sameBooks (h : Booked f.oi m) (hg : SameBooks f g) : Booked g.oi m := by
  refine ⟨hg.map.blockStatus.trans h.map, ?_, ?_, ?_⟩
  · rw [hg.blockCount]
    exact h.blockCount
  · rw [hg.blockCount, hg.map.copyCount]
    exact h.copyCount
  · rw [hg.blockCount, hg.map.cowStatus]
    exact h.cowStatus

/-- Marking blocks never unmarks one. -/
theorem Marked.mono {first last i : ℕ} (h : Marked first last m m' f g)
    (hi : m.cells i ≠ .uncopy) : m'.cells i ≠ .uncopy := by
  rw [h.cells, if_neg fun hc => hi hc.2.2.2]
  exact hi

/-- Marking blocks keeps the books. -/
theorem Booked.marked {first last : ℕ} (h : Booked f.oi m) (hmark : Marked first last m m' f g)
    (hfirst : 1 ≤ first) (hcount : g.oi.blockCount = f.oi.blockCount) : Booked g.oi m' := by
  have hcopied := hmark.copyCount hfirst
  rw [h.copyCount] at hcopied
  refine ⟨hmark.blockStatus, ?_, ?_, ?_⟩
  · rw [hcount]
    exact h.blockCount
  · rw [hcount]
    exact hcopied
  · rw [hcount, hmark.cowStatus]
    by_cases hfull : g.oi.copyCount = f.oi.blockCount
    · rw [if_pos hfull]
      exact iff_of_true rfl (Finset.card_eq_zero.mp (by omega))
    · rw [if_neg hfull, h.cowStatus]
      have hleft : unmarked f.oi.blockCount m'.cells ≠ ∅ := by
        intro hnone
        rw [hnone, Finset.card_empty] at hcopied
        omega
      refine iff_of_false (fun hnone => hleft ?_) hleft
      -- what is unmarked now was unmarked before
      rw [unmarked_eq_empty] at hnone ⊢
      exact fun i h1 hn => hmark.mono (hnone i h1 hn)

/-- The blocks of a request have positive numbers. -/
theorem Booked.one_le_blockRange (h : Booked oi m) (req : WriteReq) :
    1 ≤ (blockRange oi req).1 := by
  rw [blockRange]
  split
  · exact h.blockCount
  · exact ovlGetBlock_pos req.pos

/-- The map of a file that was just copied up. -/
theorem booked_cowSetUp {size : ℕ} (h0 : 0 < size) (hmax : size ≤ 2 ^ 44 - 4096) (addr : ℕ)
    (hzero : oi.copyCount = 0) :
    Booked (cowSetUp addr size oi) ⟨addr, fun _ => .uncopy⟩ := by
  have hcount : 1 ≤ countBlocks size := by
    rw [countBlocks, BLOCK_SIZE]
    split <;> omega
  have hcard := card_marked_add_unmarked (countBlocks size) fun _ => BlockStatus.uncopy
  simp only [ne_eq, not_true_eq_false, Finset.filter_false, Finset.card_empty, Nat.zero_add]
    at hcard
  refine ⟨rfl, hcount, ?_, ?_⟩
  · show oi.copyCount + (unmarked (countBlocks size) fun _ => .uncopy).card = countBlocks size
    rw [hzero, hcard, Nat.zero_add]
  · refine iff_of_false (fun h => by cases h) fun hnone => ?_
    exact unmarked_eq_empty.mp hnone 1 (Nat.le_refl 1) hcount rfl

end Books

section Run

/-- A call of `block_write_iter` that returns. -/
def BlockWrites (f : OvlFile) (e : WriteEnv × WriteReq) (g : OvlFile) : Prop :=
  ∃ r, blockWriteIter e.1 f e.2 = .ret r ∧ g = r.file

variable {f g : OvlFile} {e : WriteEnv × WriteReq} {m : BlockMap}

/-- What a call, or a run of calls, does to the books. -/
structure BooksKept (m : BlockMap) (f g : OvlFile) (m' : BlockMap) : Prop where
  booked : Booked g.oi m'
  blockCount : g.oi.blockCount = f.oi.blockCount
  mono : ∀ i, m.cells i ≠ .uncopy → m'.cells i ≠ .uncopy

/-- One call keeps the books and unmarks no block. -/
theorem Booked.blockWrites (h : Booked f.oi m) (hw : BlockWrites f e g) :
    ∃ m', BooksKept m f g m' := by
  obtain ⟨r, hr, rfl⟩ := hw
  obtain hsame | ⟨m', hmark, hcount⟩ := blockWriteIter_books h.map hr
  · exact ⟨m, h.sameBooks hsame, hsame.blockCount, fun _ => id⟩
  · exact ⟨m', h.marked hmark (h.one_le_blockRange e.2) hcount, hcount, fun _ hi => hmark.mono hi⟩

/-- Every run of calls keeps the books, and unmarks no block that was marked at any time. -/
theorem Booked.run {tr : List (OvlFile × (WriteEnv × WriteReq))}
    (h : Booked f.oi m) (hrun : Lts.Run BlockWrites f tr g) :
    ∃ m', BooksKept m f g m' ∧ ∀ p ∈ tr, ∃ m₀, BooksKept m₀ p.1 g m' ∧ Booked p.1.oi m₀ := by
  induction hrun with
  | nil =>
    refine ⟨m, ⟨h, rfl, fun _ => id⟩, fun p hp => ?_⟩
    cases hp
  | @snoc tr t u e hrun hstep ih =>
    obtain ⟨m₁, h₁, hbefore⟩ := ih
    obtain ⟨m₂, h₂⟩ := h₁.booked.blockWrites hstep
    refine ⟨m₂, ⟨h₂.booked, h₂.blockCount.trans h₁.blockCount,
      fun i hi => h₂.mono i (h₁.mono i hi)⟩, fun p hp => ?_⟩
    obtain hp | hp := List.mem_append.mp hp
    · obtain ⟨m₀, hkept, h₀⟩ := hbefore p hp
      exact ⟨m₀, ⟨h₂.booked, h₂.blockCount.trans hkept.blockCount,
        fun i hi => h₂.mono i (hkept.mono i hi)⟩, h₀⟩
    · rw [List.mem_singleton] at hp
      subst hp
      exact ⟨m₁, h₂, h₁.booked⟩

/-- The bookkeeping of copy-on-write mode. After a copy-up with data on a fresh inode, whose map
and counters the installed file `f` has, and any calls of `block_write_iter`, whatever they are
and however they end, `copy_count` is the number of marked blocks, no block that was marked is
unmarked, and `cow_status` is off exactly when all blocks are marked. -/
theorem cow_bookkeeping_exact {c : CopyUpCtx} (h0 : 0 < c.size) (hmax : c.size ≤ 2 ^ 44 - 4096)
    (hmeta : c.metacopy = false) {env : CopyUpEnv} {old oi : OvlInode} {temp : UpperInode}
    (hcopy : ovlCopyUpInode env c (ovlAllocInode old) newTemp = (0, (oi, temp)))
    (hf : SameBooks { f with oi := oi } f) {tr : List (OvlFile × (WriteEnv × WriteReq))}
    (hrun : Lts.Run BlockWrites f tr g) :
    ∃ m, g.oi.blockStatus = some m ∧ g.oi.blockCount = (c.size - 1) / BLOCK_SIZE + 1 ∧
      g.oi.copyCount =
        ((Finset.Icc 1 g.oi.blockCount).filter fun i => m.cells i ≠ .uncopy).card ∧
      (g.oi.cowStatus = false ↔ ∀ i, 1 ≤ i → i ≤ g.oi.blockCount → m.cells i ≠ .uncopy) ∧
      ∀ p ∈ tr, ∃ m₀, p.1.oi.blockStatus = some m₀ ∧
        ∀ i, m₀.cells i ≠ .uncopy → m.cells i ≠ .uncopy := by
  have hcases := ovlCopyUpInode_cases env c (ovlAllocInode old)
  rw [hcopy] at hcases
  obtain ⟨hoi, hok⟩ := hcases
  have hskip : ¬ (c.metacopy = true ∨ c.size = 0) := by
    rw [hmeta]
    simp only [Bool.false_eq_true, false_or]
    omega
  -- the copy-up succeeded, so there is a map
  obtain ⟨addr, haddr⟩ : ∃ addr, env.mem = some addr := by
    obtain hm | hz | hmem := (hok rfl).2
    · exact absurd (.inl hm) hskip
    · exact absurd (.inr hz) hskip
    · exact Option.isSome_iff_exists.mp hmem
  have hstart : oi = cowSetUp addr c.size (ovlAllocInode old) := by
    rw [show oi = copiedUpInode env c (ovlAllocInode old) from hoi, copiedUpInode, if_neg hskip,
      haddr]
  have hbooked : Booked oi ⟨addr, fun _ => .uncopy⟩ := by
    rw [hstart]
    exact booked_cowSetUp h0 hmax addr rfl
  have hbookedf : Booked f.oi ⟨addr, fun _ => .uncopy⟩ :=
    @Booked.sameBooks { f with oi := oi } _ _ hbooked hf
  obtain ⟨m, hkept, hbefore⟩ := hbookedf.run hrun
  have hcount : g.oi.blockCount = (c.size - 1) / BLOCK_SIZE + 1 := by
    rw [hkept.blockCount, hf.blockCount, hstart]
    exact (coversFile_iff h0).mp ((countBlocks_covers_iff h0).mpr hmax)
  refine ⟨m, hkept.booked.map, hcount, ?_, ?_, fun p hp => ?_⟩
  · have hcard := card_marked_add_unmarked g.oi.blockCount m.cells
    have hbook := hkept.booked.copyCount
    omega
  · exact hkept.booked.cowStatus.trans unmarked_eq_empty
  · obtain ⟨m₀, hkept', h₀⟩ := hbefore p hp
    exact ⟨m₀, h₀.map, hkept'.mono⟩

/-- A file of one byte that was just copied up. -/
def copiedByte : OvlFile :=
  ⟨[SparseFile.ofList [1]], some newTemp, true,
    { cowSetUp 0 1 zeroInode with upperdata := true }⟩

/-- Its byte is overwritten. -/
theorem cow_bookkeeping_exact_one :
    ∃ g m, Lts.Run BlockWrites copiedByte [(copiedByte, (.full, ⟨0, false, [7]⟩))] g ∧
      g.oi.blockStatus = some m ∧ g.oi.copyCount = 1 ∧
      (g.oi.cowStatus = false ↔ ∀ i, 1 ≤ i → i ≤ g.oi.blockCount → m.cells i ≠ .uncopy) := by
  obtain ⟨r, hr, hcount⟩ : ∃ r, blockWriteIter .full copiedByte ⟨0, false, [7]⟩ = .ret r ∧
      r.file.oi.copyCount = 1 := ⟨_, rfl, rfl⟩
  have hrun : Lts.Run BlockWrites copiedByte [(copiedByte, (.full, ⟨0, false, [7]⟩))] r.file :=
    .snoc .nil ⟨r, hr, rfl⟩
  obtain ⟨temp, hcopy⟩ : ∃ temp, ovlCopyUpInode (.full false) ⟨1, false, false⟩
      (ovlAllocInode zeroInode) newTemp = (0, (cowSetUp 0 1 zeroInode, temp)) := ⟨_, rfl⟩
  obtain ⟨m, hmap, -, -, hcow, -⟩ := cow_bookkeeping_exact (c := ⟨1, false, false⟩) (by decide)
    (by decide) rfl hcopy ⟨⟨rfl, rfl, rfl⟩, rfl⟩ hrun
  exact ⟨r.file, m, hrun, hmap, hcount, hcow⟩

end Run

end FzzOverlay

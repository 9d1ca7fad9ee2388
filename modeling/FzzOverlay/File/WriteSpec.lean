import FzzOverlay.File.Write
import FzzOverlay.Lib.Run
import Mathlib.Algebra.Order.Group.Nat
import Mathlib.Data.Finset.Card
import Mathlib.Order.Interval.Finset.Nat
import Mathlib.Data.Finset.Basic

/-!
# What a write request does

One lemma for each part of the write path, put together in `ovlWriteIter_cow` and
`ovlWriteIter_plain`: everything a returning `ovl_write_iter` can have done to the
file. A request first fills `copyRanges` of the upper file from the lower one,
then stores its data, then marks its blocks.
-/

namespace FzzOverlay

open SparseFile

/-- An open pointer is to entry 0 of the lower stack, as the write path opens it. -/
def FilePtr.First (p : FilePtr) : Prop := ∀ idx, p = .opened idx → idx = 0

namespace OvlFile

/-- The file with other cached pointers and other upper contents. -/
def withFiles (f : OvlFile) (up lp : FilePtr) (data : File) : OvlFile :=
  { f.setUpperData data with oi := { f.oi with upperFile := up, lowerFile := lp } }

theorem withFiles_self (f : OvlFile) :
    f.withFiles f.oi.upperFile f.oi.lowerFile f.upperData = f := by
  rw [withFiles, setUpperData_upperData]

theorem withFiles_withFiles (f : OvlFile) (up lp up' lp' : FilePtr) (data data' : File) :
    (f.withFiles up lp data).withFiles up' lp' data' = f.withFiles up' lp' data' := by
  cases hu : f.upper <;> simp [withFiles, setUpperData, hu]

theorem withFiles_upper_isSome {f : OvlFile} (h : f.upper.isSome) (up lp : FilePtr) (data : File) :
    (f.withFiles up lp data).upper.isSome := by
  simpa [withFiles, setUpperData] using h

theorem withFiles_upperData {f : OvlFile} (h : f.upper.isSome) (up lp : FilePtr) (data : File) :
    (f.withFiles up lp data).upperData = data :=
  upperData_setUpperData h data

end OvlFile

-- ════════════════════════════════════════════════════════════════════════
-- Preparation
-- ════════════════════════════════════════════════════════════════════════

/-- The range of the lower file that makes up block `b`. -/
def blockSpan (size b : ℕ) : ℕ × ℕ := ((b - 1) * BLOCK_SIZE, blockLen b size)

/-- The ranges a request copies from a lower file of the given size before it
stores its data. -/
def copyRanges (oob : ℕ → BlockStatus) (oi : OvlInode) (m : BlockMap) (size : ℕ)
    (req : WriteReq) : List (ℕ × ℕ) :=
  if req.append then
    if m.cells oi.blockCount = .uncopy then
      [(lastBlockStart oi.blockCount, usub64 size (lastBlockStart oi.blockCount))]
    else []
  else
    (if startCopies oob oi m req then [blockSpan size (ovlGetBlock req.pos)] else []) ++
      if endCopies oob oi m req then
        [blockSpan size (ovlGetBlock (req.pos + req.data.length))]
      else []

/-- What a preparation that copies the ranges `rs` may end with. -/
def PrepOk (rs : List (ℕ × ℕ)) (f : OvlFile) : Prep → Prop
  | .oops => True
  | .fail ret g => ret < 0 ∧ ∃ up lp data, g = f.withFiles up lp data ∧ lp.First ∧
      PatchedFrom (InRanges rs) (f.lowerAt 0) f.upperData data
  | .ready g => ∃ up lp, g = f.withFiles up lp (fill (f.lowerAt 0) f.upperData rs) ∧ lp.First

section Prep

variable {f : OvlFile}

theorem prepOk_ready (hlow : f.oi.lowerFile.First) : PrepOk [] f (.ready f) :=
  ⟨_, _, (OvlFile.withFiles_self f).symm, hlow⟩

theorem PrepOk.andThen {rs ts : List (ℕ × ℕ)} {p : Prep} {k : OvlFile → Prep}
    (hf : f.upper.isSome) (hp : PrepOk rs f p)
    (hk : ∀ g up lp, g = f.withFiles up lp (fill (f.lowerAt 0) f.upperData rs) → lp.First →
      p = .ready g → PrepOk ts g (k g)) :
    PrepOk (rs ++ ts) f (p.andThen k) := by
  cases p with
  | oops => trivial
  | fail ret g =>
    obtain ⟨hret, up, lp, data, hg, hlp, hpatch⟩ := hp
    refine ⟨hret, up, lp, data, hg, hlp, hpatch.mono ?_⟩
    rintro i ⟨r, hr, hi⟩ -
    exact ⟨r, List.mem_append_left ts hr, hi⟩
  | ready g =>
    obtain ⟨up, lp, hg, hlp⟩ := hp
    have hnext := hk g up lp hg hlp rfl
    have hdata : g.upperData = fill (f.lowerAt 0) f.upperData rs := by
      rw [hg, OvlFile.withFiles_upperData hf]
    have hlower : g.lowerAt 0 = f.lowerAt 0 := by
      rw [hg]
      rfl
    show PrepOk (rs ++ ts) f (k g)
    cases hkg : k g with
    | oops => trivial
    | fail ret h =>
      rw [hkg] at hnext
      obtain ⟨hret, up', lp', data, hh, hlp', hpatch⟩ := hnext
      rw [hdata, hlower] at hpatch
      refine ⟨hret, up', lp', data, ?_, hlp', ?_⟩
      · rw [hh, hg, OvlFile.withFiles_withFiles]
      · refine ((patchedFrom_fill _ _ rs).mono ?_).trans (hpatch.mono ?_)
        · rintro i ⟨r, hr, hi⟩ -
          exact ⟨r, List.mem_append_left ts hr, hi⟩
        · rintro i ⟨r, hr, hi⟩ -
          exact ⟨r, List.mem_append_right rs hr, hi⟩
    | ready h =>
      rw [hkg] at hnext
      obtain ⟨up', lp', hh, hlp'⟩ := hnext
      refine ⟨up', lp', ?_, hlp'⟩
      rw [hh, hdata, hlower, hg, OvlFile.withFiles_withFiles, fill_append]

theorem PrepOk.andThen_nil {ts : List (ℕ × ℕ)} {p : Prep} {k : OvlFile → Prep}
    (hf : f.upper.isSome) (hp : PrepOk [] f p)
    (hk : ∀ g up lp, g = f.withFiles up lp f.upperData → lp.First → PrepOk ts g (k g)) :
    PrepOk ts f (p.andThen k) :=
  hp.andThen hf fun g up lp hg hlp _ => hk g up lp hg hlp

theorem prepOk_openUpper (hlow : f.oi.lowerFile.First) (o : Option Errno) :
    PrepOk [] f (openUpper o f) := by
  have hset : ∀ p : FilePtr, { f with oi := { f.oi with upperFile := p } } =
      f.withFiles p f.oi.lowerFile f.upperData := by
    intro p
    rw [OvlFile.withFiles, OvlFile.setUpperData_upperData]
  unfold openUpper
  split
  · trivial
  · exact ⟨_, _, hset _, hlow⟩
  · next e _ _ => exact ⟨e.ret_neg, _, _, _, hset _, hlow, .refl _ _ _⟩
  · exact prepOk_ready hlow

theorem prepOk_openLower (hlow : f.oi.lowerFile.First) (o : Option Errno) :
    PrepOk [] f (openLower o f) := by
  have hset : ∀ p : FilePtr, { f with oi := { f.oi with lowerFile := p } } =
      f.withFiles f.oi.upperFile p f.upperData := by
    intro p
    rw [OvlFile.withFiles, OvlFile.setUpperData_upperData]
  unfold openLower
  split
  · refine ⟨_, _, hset _, ?_⟩
    rintro idx ⟨⟩
    rfl
  · next e _ => exact ⟨e.ret_neg, _, _, _, hset _, nofun, .refl _ _ _⟩
  · exact prepOk_ready hlow

theorem prepOk_copyRange (hlow : f.oi.lowerFile.First) (env : CopyEnv) (pos : ℕ) (len : ℕ → ℕ) :
    PrepOk [(pos, len (f.lowerAt 0).size)] f (copyRange env f pos len) := by
  rw [copyRange]
  split
  · next lower upper hl hu =>
    have hlower : lower = f.lowerAt 0 := by
      rw [OvlFile.derefLower] at hl
      split at hl
      · next idx hidx =>
        cases hl
        rw [hlow idx hidx]
      · cases hl
    have hupper : upper = f.upperData := by
      rw [OvlFile.derefUpper] at hu
      split at hu
      · obtain ⟨u, hu', rfl⟩ := Option.map_eq_some_iff.mp hu
        rw [OvlFile.upperData, hu']
      · cases hu
    subst hlower hupper
    have hset : ∀ data, f.setUpperData data = f.withFiles f.oi.upperFile f.oi.lowerFile data :=
      fun _ => rfl
    split
    · next hneg =>
      refine ⟨hneg, _, _, _, hset _, hlow, patchedFrom_ovlCopyUpBlock env _ _ pos _ ?_⟩
      exact fun i h₁ h₂ _ => ⟨_, List.mem_cons_self, h₁, h₂⟩
    · next hok =>
      refine ⟨f.oi.upperFile, f.oi.lowerFile, ?_, hlow⟩
      rw [hset, ovlCopyUpBlock_of_nonneg (not_lt.mp hok)]
      rfl
  · trivial

theorem prepOk_copyBlock (hf : f.upper.isSome) (hlow : f.oi.lowerFile.First) (env : WriteEnv)
    (cenv : CopyEnv) (b : ℕ) :
    PrepOk [blockSpan (f.lowerAt 0).size b] f (copyBlock env cenv b f) := by
  refine (prepOk_openUpper hlow env.openUpper).andThen_nil hf ?_
  rintro g up lp rfl hlp
  have hg := OvlFile.withFiles_upper_isSome hf up lp f.upperData
  refine (prepOk_openLower hlp env.openLower).andThen_nil hg ?_
  rintro g up' lp' rfl hlp'
  exact prepOk_copyRange hlp' cenv _ _

theorem prepOk_prepareAppend {m : BlockMap} {req : WriteReq} (hf : f.upper.isSome)
    (hlow : f.oi.lowerFile.First) (env : WriteEnv) (hreq : req.append = true) :
    PrepOk (copyRanges env.oob f.oi m (f.lowerAt 0).size req) f (prepareAppend env m f) := by
  rw [copyRanges, if_pos hreq]
  refine (prepOk_openUpper hlow env.openUpper).andThen_nil hf ?_
  rintro g up lp rfl hlp
  have hg := OvlFile.withFiles_upper_isSome hf up lp f.upperData
  refine (prepOk_openLower hlp env.openLower).andThen_nil hg ?_
  intro g up' lp' hg' hlp'
  have hlow' : g.oi.lowerFile.First := by
    rw [hg']
    exact hlp'
  have hcount : g.oi.blockCount = f.oi.blockCount := by rw [hg']; rfl
  have hlower : g.lowerAt 0 = f.lowerAt 0 := by rw [hg']; rfl
  by_cases hc : m.cells f.oi.blockCount = .uncopy
  · rw [if_pos hc, hcount, if_pos hc, ← hlower]
    exact prepOk_copyRange hlow' env.copyStart _
      fun size => usub64 size (lastBlockStart f.oi.blockCount)
  · rw [if_neg hc, hcount, if_neg hc]
    split
    · exact prepOk_ready hlow'
    · trivial

theorem prepOk_preparePositioned {m : BlockMap} {req : WriteReq} (hf : f.upper.isSome)
    (hlow : f.oi.lowerFile.First) (env : WriteEnv) (hreq : req.append = false) :
    PrepOk (copyRanges env.oob f.oi m (f.lowerAt 0).size req) f
      (preparePositioned env m f req) := by
  rw [copyRanges, if_neg (by simp [hreq])]
  refine PrepOk.andThen hf ?_ ?_
  · split
    · exact prepOk_copyBlock hf hlow env _ _
    · exact prepOk_ready hlow
  · rintro g up lp rfl hlp -
    have hend : endCopies env.oob (f.withFiles up lp (fill (f.lowerAt 0) f.upperData
        (if startCopies env.oob f.oi m req then
          [blockSpan (f.lowerAt 0).size (ovlGetBlock req.pos)] else []))).oi m req =
        endCopies env.oob f.oi m req := rfl
    rw [hend]
    split
    · exact prepOk_copyBlock (OvlFile.withFiles_upper_isSome hf _ _ _) hlp env _ _
    · exact prepOk_ready hlp

/-- The part before `copy_done`, for either kind of request. -/
theorem prepOk_prepare {m : BlockMap} (hf : f.upper.isSome) (hlow : f.oi.lowerFile.First)
    (env : WriteEnv) (req : WriteReq) :
    PrepOk (copyRanges env.oob f.oi m (f.lowerAt 0).size req) f
      (if req.append then prepareAppend env m f else preparePositioned env m f req) := by
  cases hreq : req.append with
  | true => exact prepOk_prepareAppend hf hlow env hreq
  | false => exact prepOk_preparePositioned hf hlow env hreq

end Prep

-- ════════════════════════════════════════════════════════════════════════
-- Storing the data and marking the blocks
-- ════════════════════════════════════════════════════════════════════════

/-- Where `vfs_iter_write` stores the next byte of a request. -/
def writeAt (append : Bool) (upper : File) (pos : ℕ) : ℕ := if append then upper.size else pos

theorem VfsWrite.taken_eq_take {o : VfsWrite} {rest : List UInt8} (ho : ∀ e, o ≠ .fail e)
    (hrest : rest ≠ []) : ∃ a, 0 < a ∧ a ≤ rest.length ∧ o.taken rest = rest.take a := by
  have hpos := List.length_pos_iff.mpr hrest
  cases o with
  | full => exact ⟨rest.length, hpos, le_rfl, by simp [VfsWrite.taken]⟩
  | short k =>
    refine ⟨min (k + 1) rest.length, by omega, by omega, ?_⟩
    rw [VfsWrite.taken, List.take_eq_take_min]
  | fail e => exact absurd rfl (ho e)

theorem writeAt_write (append : Bool) (upper : File) (pos : ℕ) {bytes : List UInt8}
    (hb : bytes ≠ []) :
    writeAt append (upper.write (writeAt append upper pos) bytes)
      (writeAt append upper pos + bytes.length) = writeAt append upper pos + bytes.length := by
  cases append with
  | false => rfl
  | true =>
    simp only [writeAt, if_true]
    rw [write_size_of_ne_nil _ _ hb]
    omega

/-- Whatever the VFS does, a prefix of the data is stored, and a loop that does not
fail stores some of it. -/
theorem writeLoop_spec (env : WriteEnv) (append : Bool) (fuel k ret pos : ℕ) (rest : List UInt8)
    (upper : File) (hfuel : rest.length ≤ fuel) :
    ∃ n, n ≤ rest.length ∧
      (writeLoop env append fuel k ret pos rest upper).upper =
        upper.write (writeAt append upper pos) (rest.take n) ∧
      (writeLoop env append fuel k ret pos rest upper).ret = ret + n ∧
      (writeLoop env append fuel k ret pos rest upper).pos =
        (if n = 0 then pos else writeAt append upper pos + n) ∧
      ((writeLoop env append fuel k ret pos rest upper).ok = true → ret < rest.length → 0 < n) := by
  induction fuel generalizing k ret pos rest upper with
  | zero =>
    refine ⟨0, Nat.zero_le _, by simp [writeLoop], rfl, rfl, ?_⟩
    intro _ hlt
    omega
  | succ fuel ih =>
    by_cases hlt : ret < rest.length
    · have hrest : rest ≠ [] := by
        rintro rfl
        simp at hlt
      by_cases hfail : ∃ e, env.wr k = .fail e
      · obtain ⟨e, he⟩ := hfail
        have hw : writeLoop env append (fuel + 1) k ret pos rest upper =
            ⟨false, ret, pos, upper⟩ := by
          rw [writeLoop, if_pos hlt, he]
        rw [hw]
        exact ⟨0, Nat.zero_le _, by simp, rfl, rfl, nofun⟩
      · obtain ⟨a, ha, hale, htake⟩ :=
          VfsWrite.taken_eq_take (fun e he => hfail ⟨e, he⟩) hrest
        have hlen : (rest.take a).length = a := by
          rw [List.length_take]
          omega
        have hne : rest.take a ≠ [] := by
          rw [← List.length_pos_iff]
          omega
        have hw : writeLoop env append (fuel + 1) k ret pos rest upper =
            writeLoop env append fuel (k + 1) (ret + a) (writeAt append upper pos + a)
              (rest.drop a) (upper.write (writeAt append upper pos) (rest.take a)) := by
          rw [writeLoop, if_pos hlt]
          cases ho : env.wr k with
          | fail e => exact absurd ⟨e, ho⟩ hfail
          | full =>
            rw [ho] at htake
            simp only [htake, hlen, writeAt]
          | short j =>
            rw [ho] at htake
            simp only [htake, hlen, writeAt]
        obtain ⟨n, hn, hupper, hret, hpos, -⟩ := ih (k + 1) (ret + a) (writeAt append upper pos + a)
          (rest.drop a) (upper.write (writeAt append upper pos) (rest.take a))
          (by rw [List.length_drop]; omega)
        have hat : writeAt append (upper.write (writeAt append upper pos) (rest.take a))
            (writeAt append upper pos + a) = writeAt append upper pos + a := by
          have := writeAt_write append upper pos hne
          rwa [hlen] at this
        rw [List.length_drop] at hn
        rw [hw]
        refine ⟨a + n, by omega, ?_, by rw [hret]; omega, ?_, fun _ _ => by omega⟩
        · rw [hupper, hat, List.take_add, ← write_write_append, hlen]
        · rw [hpos, hat, if_neg (show ¬ a + n = 0 by omega)]
          split <;> omega
    · have hw : writeLoop env append (fuel + 1) k ret pos rest upper = ⟨true, ret, pos, upper⟩ := by
        rw [writeLoop, if_neg hlt]
      rw [hw]
      exact ⟨0, Nat.zero_le _, by simp, rfl, rfl, fun _ h => absurd h hlt⟩

/-- A first call that takes the whole request ends the loop. -/
theorem writeLoop_full {env : WriteEnv} (henv : env.wr 0 = .full) (append : Bool) (pos : ℕ)
    {data : List UInt8} (hdata : data ≠ []) (upper : File) :
    writeLoop env append data.length 0 0 pos data upper =
      ⟨true, data.length, writeAt append upper pos + data.length,
        upper.write (writeAt append upper pos) data⟩ := by
  obtain ⟨x, xs, rfl⟩ := List.exists_cons_of_ne_nil hdata
  rw [List.length_cons, writeLoop, if_pos (by simp), henv]
  cases xs <;> simp [writeLoop, VfsWrite.taken, writeAt]

theorem writeLoop_fail {env : WriteEnv} {e : Errno} (henv : env.wr 0 = .fail e) (append : Bool)
    (pos : ℕ) {data : List UInt8} (hdata : data ≠ []) (upper : File) :
    writeLoop env append data.length 0 0 pos data upper = ⟨false, 0, pos, upper⟩ := by
  obtain ⟨x, xs, rfl⟩ := List.exists_cons_of_ne_nil hdata
  rw [List.length_cons, writeLoop, if_pos (by simp), henv]

/-- The blocks of the map that are not marked. -/
def unmarked (blockCount : ℕ) (cells : ℕ → BlockStatus) : Finset ℕ :=
  (Finset.Icc 1 blockCount).filter fun i => cells i = .uncopy

theorem markLoop_cells (blockCount endBlock fuel i : ℕ) (r : (ℕ → BlockStatus) × ℕ)
    (hfuel : blockCount < i + fuel) (j : ℕ) :
    (markLoop blockCount endBlock fuel i r).1 j =
      if i ≤ j ∧ j ≤ endBlock ∧ j ≤ blockCount ∧ r.1 j = .uncopy then .copied else r.1 j := by
  induction fuel generalizing i r with
  | zero =>
    rw [markLoop, if_neg (by omega)]
  | succ fuel ih =>
    rw [markLoop]
    by_cases hstop : endBlock < i ∨ blockCount < i
    · rw [if_pos hstop, if_neg (by omega)]
    rw [if_neg hstop]
    by_cases hi : r.1 i = .uncopy
    · rw [if_pos hi, ih (i + 1) _ (by omega)]
      by_cases hj : j = i
      · subst hj
        simp only [Function.update_self]
        rw [if_neg (by omega), if_pos ⟨le_rfl, by omega, by omega, hi⟩]
      · simp only [Function.update_of_ne hj]
        by_cases hij : i ≤ j
        · simp only [hij, show i + 1 ≤ j by omega]
        · simp only [hij, show ¬ i + 1 ≤ j by omega]
    · rw [if_neg hi, ih (i + 1) _ (by omega)]
      by_cases hj : j = i
      · subst hj
        rw [if_neg (by omega), if_neg (by simp [hi])]
      · by_cases hij : i ≤ j
        · simp only [hij, show i + 1 ≤ j by omega]
        · simp only [hij, show ¬ i + 1 ≤ j by omega]

theorem card_unmarked_update {blockCount i : ℕ} {cells : ℕ → BlockStatus} (hpos : 1 ≤ i)
    (hle : i ≤ blockCount) (hi : cells i = .uncopy) :
    (unmarked blockCount (Function.update cells i .copied)).card + 1 =
      (unmarked blockCount cells).card := by
  have hmem : i ∈ unmarked blockCount cells := by
    simp [unmarked, hpos, hle, hi]
  have heq : unmarked blockCount (Function.update cells i .copied) =
      (unmarked blockCount cells).erase i := by
    ext j
    by_cases hj : j = i
    · subst hj
      simp [unmarked]
    · simp [unmarked, hj]
  rw [heq, Finset.card_erase_add_one hmem]

/-- Each block the loop marks is counted once. -/
theorem markLoop_count (blockCount endBlock fuel i : ℕ) (r : (ℕ → BlockStatus) × ℕ)
    (hpos : 1 ≤ i) :
    (markLoop blockCount endBlock fuel i r).2 +
        (unmarked blockCount (markLoop blockCount endBlock fuel i r).1).card =
      r.2 + (unmarked blockCount r.1).card := by
  induction fuel generalizing i r with
  | zero => rfl
  | succ fuel ih =>
    rw [markLoop]
    by_cases hstop : endBlock < i ∨ blockCount < i
    · rw [if_pos hstop]
    rw [if_neg hstop]
    by_cases hi : r.1 i = .uncopy
    · rw [if_pos hi, ih (i + 1) _ (by omega)]
      have := card_unmarked_update hpos (show i ≤ blockCount by omega) hi
      simp only
      omega
    · rw [if_neg hi, ih (i + 1) _ (by omega)]

-- ════════════════════════════════════════════════════════════════════════
-- The whole request
-- ════════════════════════════════════════════════════════════════════════

/-- `g` is `f` with the upper contents `data`; only the block map, the counters and
the cached pointers may differ besides. -/
structure Updated (data : File) (f g : OvlFile) : Prop where
  lowerstack : g.lowerstack = f.lowerstack
  upper : g.upper = f.upper.map fun u => { u with data := data }
  upperAlias : g.upperAlias = f.upperAlias
  upperdata : g.oi.upperdata = f.oi.upperdata
  blockCount : g.oi.blockCount = f.oi.blockCount
  metaFile : g.oi.metaFile = f.oi.metaFile
  lowerFile : g.oi.lowerFile.First
  iSize : g.oi.iSize = data.size

/-- The block map and its counters are those of `f`. -/
structure SameMap (f g : OvlFile) : Prop where
  cowStatus : g.oi.cowStatus = f.oi.cowStatus
  copyCount : g.oi.copyCount = f.oi.copyCount
  blockStatus : g.oi.blockStatus = f.oi.blockStatus

/-- The blocks `first .. last` of the map `m` were marked, which gives the map `m'`. -/
structure Marked (first last : ℕ) (m m' : BlockMap) (f g : OvlFile) : Prop where
  blockStatus : g.oi.blockStatus = some m'
  addr : m'.addr = m.addr
  cells : ∀ j, m'.cells j =
    if first ≤ j ∧ j ≤ last ∧ j ≤ f.oi.blockCount ∧ m.cells j = .uncopy then .copied
    else m.cells j
  copyCount : 1 ≤ first → g.oi.copyCount + (unmarked f.oi.blockCount m'.cells).card =
    f.oi.copyCount + (unmarked f.oi.blockCount m.cells).card
  cowStatus : g.oi.cowStatus =
    if g.oi.copyCount = f.oi.blockCount then false else f.oi.cowStatus

/-- The upper contents when the data of a request is about to be stored. -/
def filledData (env : WriteEnv) (m : BlockMap) (f : OvlFile) (req : WriteReq) : File :=
  fill (f.lowerAt 0) f.upperData (copyRanges env.oob f.oi m (f.lowerAt 0).size req)

/-- The upper contents after the first `n` bytes of a request. -/
def storedData (env : WriteEnv) (m : BlockMap) (f : OvlFile) (req : WriteReq) (n : ℕ) : File :=
  (filledData env m f req).write (writeAt req.append (filledData env m f req) req.pos)
    (req.data.take n)

/-- Everything a request in copy-on-write mode can have done when it returns:
nothing was stored, `vfs_iter_write` failed after `n` bytes, or `n` bytes were stored
and the blocks marked. -/
inductive CowWrite (env : WriteEnv) (m : BlockMap) (f : OvlFile) (req : WriteReq)
    (r : WriteResult) : Prop
  | unprepared (data : File) (hret : r.ret < 0)
      (hpatch : PatchedFrom (InRanges (copyRanges env.oob f.oi m (f.lowerAt 0).size req))
        (f.lowerAt 0) f.upperData data)
      (hfile : Updated data f r.file) (hmap : SameMap f r.file)
  | torn (n : ℕ) (hret : r.ret < 0) (hn : n ≤ req.data.length) (hfull : env.wr 0 ≠ .full)
      (hfail : ∀ e, env.wr 0 = .fail e → n = 0)
      (hfile : Updated (storedData env m f req n) f r.file) (hmap : SameMap f r.file)
  | stored (n : ℕ) (m' : BlockMap) (hn : 0 < n) (hle : n ≤ req.data.length)
      (hfull : env.wr 0 = .full → n = req.data.length) (hfail : ∀ e, env.wr 0 ≠ .fail e)
      (hret : r.ret = n)
      (hpos : r.pos = writeAt req.append (filledData env m f req) req.pos + n)
      (hfile : Updated (storedData env m f req n) f r.file)
      (hmap : Marked (blockRange f.oi req).1 (blockRange f.oi req).2 m m' f r.file)

theorem marked_finishWrite {m : BlockMap} {f g : OvlFile} {first last : ℕ}
    (hmap : g.oi.blockStatus = (finishWrite m first last f.oi).blockStatus)
    (hcount : g.oi.copyCount = (finishWrite m first last f.oi).copyCount)
    (hcow : g.oi.cowStatus = (finishWrite m first last f.oi).cowStatus) :
    Marked first last m
      { m with cells := (markLoop f.oi.blockCount last (f.oi.blockCount + 1) first
        (m.cells, f.oi.copyCount)).1 } f g := by
  refine ⟨hmap, rfl, ?_, ?_, ?_⟩
  · intro j
    exact markLoop_cells _ _ _ _ _ (by omega) j
  · intro hfirst
    rw [hcount]
    exact markLoop_count f.oi.blockCount last (f.oi.blockCount + 1) first (m.cells, f.oi.copyCount)
      hfirst
  · rw [hcow, hcount]
    rfl

/-- From `copy_done` on, a prefix of the data is stored; the blocks are marked
unless `vfs_iter_write` failed. -/
theorem storeData_cases (env : WriteEnv) (m : BlockMap) {f : OvlFile} {req : WriteReq}
    (hreal : f.realdataIsUpper = true) (hdata : req.data ≠ []) :
    ∃ n, n ≤ req.data.length ∧
      ((storeData env m f req = ⟨EPERM.ret, (storeData env m f req).pos,
          f.setUpperData (f.upperData.write (writeAt req.append f.upperData req.pos)
            (req.data.take n)), none⟩ ∧
        env.wr 0 ≠ .full ∧ ∀ e, env.wr 0 = .fail e → n = 0) ∨
      (storeData env m f req = ⟨n, writeAt req.append f.upperData req.pos + n,
          { f.setUpperData (f.upperData.write (writeAt req.append f.upperData req.pos)
            (req.data.take n)) with
            oi := finishWrite m (blockRange f.oi req).1 (blockRange f.oi req).2 f.oi },
          metaTask env f.oi (blockRange f.oi req).1 (blockRange f.oi req).2⟩ ∧
        0 < n ∧ (env.wr 0 = .full → n = req.data.length) ∧ ∀ e, env.wr 0 ≠ .fail e)) := by
  have hlen := List.length_pos_iff.mpr hdata
  obtain ⟨n, hn, hupper, hret, hpos, hok⟩ := writeLoop_spec env req.append req.data.length 0 0
    req.pos req.data f.upperData le_rfl
  refine ⟨n, hn, ?_⟩
  rw [storeData, if_pos hreal]
  simp only
  split
  · next hw =>
    have hpos' := hok hw hlen
    refine .inr ⟨?_, hpos', fun he => ?_, fun e he => ?_⟩
    · rw [hupper, hret, hpos, if_neg (by omega), Nat.zero_add]
    · have := congrArg Written.ret (writeLoop_full he req.append req.pos hdata f.upperData)
      simp only at this
      omega
    · rw [writeLoop_fail he req.append req.pos hdata f.upperData] at hw
      cases hw
  · next hw =>
    refine .inl ⟨?_, fun he => ?_, fun e he => ?_⟩
    · rw [hupper]
    · rw [writeLoop_full he req.append req.pos hdata f.upperData] at hw
      exact hw rfl
    · have := congrArg Written.ret (writeLoop_fail he req.append req.pos hdata f.upperData)
      simp only at this
      omega

theorem updated_ovlCopyattr {data : File} {f g : OvlFile} (hup : f.upper.isSome)
    (hstack : g.lowerstack = f.lowerstack)
    (hupper : g.upper = f.upper.map fun u => { u with data := data })
    (halias : g.upperAlias = f.upperAlias) (hreal : g.oi.upperdata = f.oi.upperdata)
    (hcount : g.oi.blockCount = f.oi.blockCount) (hmeta : g.oi.metaFile = f.oi.metaFile)
    (hlow : g.oi.lowerFile.First) : Updated data f g.ovlCopyattr := by
  refine ⟨hstack, hupper, halias, hreal, hcount, hmeta, hlow, ?_⟩
  obtain ⟨u, hu⟩ := Option.isSome_iff_exists.mp hup
  rw [hu] at hupper
  simp [OvlFile.ovlCopyattr, OvlFile.ovlInodeReal, OvlFile.upperData, hupper]

/-- What a returning `block_write_iter` can have done, up to `i_size`. -/
theorem blockWriteIter_cases {env : WriteEnv} {f : OvlFile} {req : WriteReq} {m : BlockMap}
    {r : WriteResult} (hup : f.upper.isSome) (hreal : f.oi.upperdata = true)
    (hlow : f.oi.lowerFile.First) (hmap : f.oi.blockStatus = some m) (hdata : req.data ≠ [])
    (h : blockWriteIter env f req = .ret r) :
    CowWrite env m f req { r with file := r.file.ovlCopyattr } := by
  have hprep := prepOk_prepare (m := m) hup hlow env req
  rw [blockWriteIter, hmap] at h
  simp only at h
  split at h
  · cases h
  · next ret g hg =>
    rw [hg] at hprep
    obtain ⟨hret, up, lp, data, rfl, hlp, hpatch⟩ := hprep
    cases h
    exact .unprepared data hret hpatch
      (updated_ovlCopyattr hup rfl rfl rfl rfl rfl rfl hlp) ⟨rfl, rfl, rfl⟩
  · next g hg =>
    rw [hg] at hprep
    obtain ⟨up, lp, rfl, hlp⟩ := hprep
    have hset : ∀ data d : File, ((f.withFiles up lp d).setUpperData data).upper =
        f.upper.map fun u => { u with data := data } := by
      intro data d
      simp [OvlFile.withFiles, OvlFile.setUpperData, Function.comp_def]
    cases h
    have hreal' : (f.withFiles up lp (filledData env m f req)).realdataIsUpper = true :=
      OvlFile.realdataIsUpper_of_upperdata (OvlFile.withFiles_upper_isSome hup _ _ _) hreal
    obtain ⟨n, hn, ⟨hs, hfull, hfail⟩ | ⟨hs, hpos, hfull, hfail⟩⟩ :=
      storeData_cases env m hreal' hdata
    · rw [OvlFile.withFiles_upperData hup] at hs
      rw [filledData] at hs
      rw [hs]
      exact .torn n EPERM.ret_neg hn hfull hfail
        (updated_ovlCopyattr hup rfl (hset _ _) rfl rfl rfl rfl hlp) ⟨rfl, rfl, rfl⟩
    · rw [OvlFile.withFiles_upperData hup] at hs
      rw [filledData] at hs
      rw [hs]
      exact .stored n _ hpos hn hfull hfail rfl rfl
        (updated_ovlCopyattr hup rfl (hset _ _) rfl rfl rfl rfl hlp)
        (marked_finishWrite rfl rfl rfl)

section Request

variable {env : WriteEnv} {f : OvlFile} {req : WriteReq} {r : WriteResult}

theorem updated_self (hup : f.upper.isSome) (hlow : f.oi.lowerFile.First) :
    Updated f.upperData f f.ovlCopyattr := by
  refine updated_ovlCopyattr hup rfl ?_ rfl rfl rfl rfl hlow
  exact congrArg OvlFile.upper (f.setUpperData_upperData).symm

theorem Updated.of_ovlCopyattr {data : File} {g : OvlFile} (h : Updated data f.ovlCopyattr g) :
    Updated data f g :=
  ⟨h.lowerstack, h.upper, h.upperAlias, h.upperdata, h.blockCount, h.metaFile, h.lowerFile,
    h.iSize⟩

/-- What a returning `ovl_write_iter` can have done in copy-on-write mode. -/
theorem ovlWriteIter_cow {m : BlockMap} (hup : f.upper.isSome) (hreal : f.oi.upperdata = true)
    (hlow : f.oi.lowerFile.First) (hmap : f.oi.blockStatus = some m)
    (hcow : f.oi.cowStatus = true) (hdata : req.data ≠ [])
    (h : ovlWriteIter env f req = .ret r) : CowWrite env m f req r := by
  have hself := updated_self hup hlow
  rw [ovlWriteIter, if_neg hdata] at h
  split at h
  · next e _ =>
    cases h
    exact .unprepared _ e.ret_neg (.refl _ _ _) hself ⟨rfl, rfl, rfl⟩
  · next e _ _ =>
    cases h
    exact .unprepared _ e.ret_neg (.refl _ _ _) hself ⟨rfl, rfl, rfl⟩
  · rw [if_pos hcow] at h
    split at h
    · next r' hr =>
      cases h
      -- `ovl_copyattr` at the start of the request changes nothing the request looks at.
      cases blockWriteIter_cases (f := f.ovlCopyattr) hup hreal hlow hmap hdata hr with
      | unprepared data hret hpatch hfile hsame =>
        exact .unprepared data hret hpatch (hfile.of_ovlCopyattr) ⟨hsame.1, hsame.2, hsame.3⟩
      | torn n hret hn hfull hfail hfile hsame =>
        exact .torn n hret hn hfull hfail hfile.of_ovlCopyattr ⟨hsame.1, hsame.2, hsame.3⟩
      | stored n m' hn hle hfull hfail hret hpos hfile hmark =>
        exact .stored n m' hn hle hfull hfail hret hpos hfile.of_ovlCopyattr
          ⟨hmark.1, hmark.2, hmark.3, hmark.4, hmark.5⟩
    · cases h
    · cases h

/-- What a returning `ovl_write_iter` can have done outside copy-on-write mode. -/
theorem ovlWriteIter_plain (hup : f.upper.isSome) (hreal : f.oi.upperdata = true)
    (hlow : f.oi.lowerFile.First) (hcow : f.oi.cowStatus = false) (hdata : req.data ≠ [])
    (h : ovlWriteIter env f req = .ret r) :
    SameMap f r.file ∧ ((r.ret < 0 ∧ Updated f.upperData f r.file) ∨
      ∃ n, 0 < n ∧ n ≤ req.data.length ∧ (env.wr 0 = .full → n = req.data.length) ∧
        (∀ e, env.wr 0 ≠ .fail e) ∧ r.ret = n ∧
        r.pos = writeAt req.append f.upperData req.pos + n ∧
        Updated (f.upperData.write (writeAt req.append f.upperData req.pos) (req.data.take n))
          f r.file) := by
  have hself := updated_self hup hlow
  have hreal' : f.ovlCopyattr.realdataIsUpper = true :=
    OvlFile.realdataIsUpper_of_upperdata hup hreal
  rw [ovlWriteIter, if_neg hdata] at h
  split at h
  · next e _ =>
    cases h
    exact ⟨⟨rfl, rfl, rfl⟩, .inl ⟨e.ret_neg, hself⟩⟩
  · next e _ _ =>
    cases h
    exact ⟨⟨rfl, rfl, rfl⟩, .inl ⟨e.ret_neg, hself⟩⟩
  · rw [if_neg (by simp [hcow])] at h
    cases h
    unfold plainWrite
    split
    · next e _ =>
      exact ⟨⟨rfl, rfl, rfl⟩, .inl ⟨e.ret_neg, updated_ovlCopyattr hup rfl hself.upper rfl rfl rfl
        rfl hlow⟩⟩
    · next hfail =>
      rw [if_pos hreal']
      obtain ⟨n, hn, hle, htake⟩ := VfsWrite.taken_eq_take hfail hdata
      refine ⟨⟨rfl, rfl, rfl⟩, .inr ⟨n, hn, hle, ?_, hfail, ?_, ?_, ?_⟩⟩
      · intro he
        have := congrArg List.length htake
        rw [he, VfsWrite.taken, List.length_take] at this
        omega
      · simp only [htake, List.length_take, Nat.min_eq_left hle]
      · simp only [htake, List.length_take, Nat.min_eq_left hle]
        rfl
      · rw [htake]
        exact updated_ovlCopyattr hup rfl rfl rfl rfl rfl rfl hlow

end Request

end FzzOverlay

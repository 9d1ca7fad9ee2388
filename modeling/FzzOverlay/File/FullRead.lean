import FzzOverlay.File.Serve

/-!
# Reads from a VFS that does not fail

With `ReadEnv.full` the passes of `block_read_iter` can be followed exactly. This
gives the converse of `ovlReadIter_served` (a served byte is delivered), the exact
condition under which all returned reads are those of one given file
(`returns_eq_read_iff`), and the states in which every request returns.
-/

namespace FzzOverlay

open SparseFile

/-- The request returns `ret` with the bytes `out`, no VFS call failing or being short. -/
def Returns (f : OvlFile) (pos count : ℕ) (ret : ℤ) (out : List UInt8) : Prop :=
  ∃ fuel res, ovlReadIter fuel .full f pos count = .ret res ∧ res.ret = ret ∧ res.out = out

/-- `s` after delivering `bs`, with the files and call counter as they are then. -/
def ReadState.after (s : ReadState) (bs : List UInt8) (oi : OvlInode) (calls : ℕ) : ReadState :=
  { s with
    oi := oi, pos := s.pos + bs.length, count := s.count - bs.length, ret := s.ret + bs.length,
    out := s.out ++ bs, calls := calls }

theorem chunk_pos (pos : ℕ) {count : ℕ} (h : 0 < count) : 0 < chunk pos count := by
  simp only [chunk, ovlGetBlock_eq, BLOCK_SIZE]
  split <;> omega

theorem chunk_one (pos : ℕ) : chunk pos 1 = 1 := by
  have h₁ := chunk_pos pos (show 0 < 1 by omega)
  have h₂ := chunk_le_count pos 1
  omega

theorem readLoop_full (file : File) {cCount : ℕ} (s : ReadState) (hc : 0 < cCount) :
    ∃ calls, (readLoop .full file cCount cCount s).1 =
        s.after (file.read s.pos cCount) s.oi calls ∧
      ((file.read s.pos cCount).length = cCount →
        (readLoop .full file cCount cCount s).2 = .drained) ∧
      ((file.read s.pos cCount).length ≠ cCount →
        (readLoop .full file cCount cCount s).2 = .atEnd) := by
  obtain ⟨fuel, rfl⟩ : ∃ n, cCount = n + 1 := ⟨cCount - 1, by omega⟩
  have hrun : ∀ k pos n, ((ReadEnv.full.rd k).run file pos n) = .ok (file.read pos n) :=
    fun _ _ _ => rfl
  by_cases hnil : file.read s.pos (fuel + 1) = []
  · refine ⟨s.calls + 1, ?_, ?_, ?_⟩
    · simp [readLoop, hrun, hnil, ReadState.after]
    · simp [hnil]
    · simp [readLoop, hrun, hnil]
  have hlen : (file.read s.pos (fuel + 1)).length ≠ 0 := by
    rw [Ne, List.length_eq_zero_iff]
    exact hnil
  have hle : (file.read s.pos (fuel + 1)).length ≤ fuel + 1 := by
    rw [length_read]
    omega
  have hstep : readLoop .full file (fuel + 1) (fuel + 1) s =
      readLoop .full file fuel (fuel + 1 - (file.read s.pos (fuel + 1)).length)
        (s.deliver (file.read s.pos (fuel + 1))) := by
    rw [readLoop, if_neg (by omega), hrun]
    exact if_neg hnil
  rw [hstep]
  by_cases hfull : (file.read s.pos (fuel + 1)).length = fuel + 1
  · have hz : fuel + 1 - (file.read s.pos (fuel + 1)).length = 0 := by omega
    rw [hz]
    refine ⟨s.calls + 1, ?_, ?_, ?_⟩
    · cases fuel <;> simp [readLoop, ReadState.deliver, ReadState.after]
    · intro _
      cases fuel <;> simp [readLoop]
    · exact fun h => absurd hfull h
  · -- The file ended inside the chunk, so the second read of the loop finds nothing.
    have hend : file.size ≤ s.pos + (file.read s.pos (fuel + 1)).length := by
      rw [length_read] at hfull ⊢
      omega
    obtain ⟨fuel, rfl⟩ : ∃ n, fuel = n + 1 := ⟨fuel - 1, by omega⟩
    have hrest : fuel + 1 + 1 - (file.read s.pos (fuel + 1 + 1)).length ≠ 0 := by omega
    have hnil' : file.read (s.deliver (file.read s.pos (fuel + 1 + 1))).pos
        (fuel + 1 + 1 - (file.read s.pos (fuel + 1 + 1)).length) = [] := by
      rw [read_eq_nil_iff]
      exact .inr hend
    refine ⟨s.calls + 1 + 1, ?_, ?_, ?_⟩
    · rw [readLoop, if_neg hrest, hrun]
      simp only [hnil', if_true]
      simp [ReadState.deliver, ReadState.after]
    · exact fun h => absurd h hfull
    · intro _
      rw [readLoop, if_neg hrest, hrun]
      simp only [hnil', if_true]

/-- The overlay inode of a running request: nothing but its file pointers changed,
and none of them became an error value. -/
structure Live (f : OvlFile) (oi : OvlInode) : Prop where
  reopened : Reopened f f.oi oi
  upperFile : f.oi.upperFile.Usable → oi.upperFile.Usable
  lowerFile : f.oi.lowerFile.Usable → oi.lowerFile.Usable

theorem Live.refl (f : OvlFile) : Live f f.oi := ⟨.refl f f.oi, id, id⟩

theorem useUpper_full {f : OvlFile} {s : ReadState} (hup : f.upper.isSome)
    (hfile : f.oi.upperFile.Usable) (hs : Live f s.oi) (k : File → ReadState → Pass) :
    ∃ oi, Live f oi ∧ useUpper .full f s k = k f.upperData { s with oi := oi } := by
  obtain ⟨u, hu⟩ := Option.isSome_iff_exists.mp hup
  have hdata : f.upperData = u.data := by rw [OvlFile.upperData, hu]
  have hptr' := hs.upperFile hfile
  rw [useUpper, hu]
  cases hptr : s.oi.upperFile with
  | null =>
    refine ⟨{ s.oi with upperFile := .opened 0 },
      ⟨⟨hs.reopened.1, hs.reopened.2, hs.reopened.3⟩, fun _ => trivial, hs.lowerFile⟩, ?_⟩
    rw [hdata]
    rfl
  | opened idx =>
    refine ⟨s.oi, hs, ?_⟩
    rw [hdata]
  | err e =>
    rw [hptr] at hptr'
    exact hptr'.elim

theorem useLower_full {f : OvlFile} {s : ReadState} (hstack : f.lowerstack ≠ [])
    (hfile : f.oi.lowerFile.Usable) (hs : Live f s.oi) (k : File → ReadState → Pass) :
    ∃ oi, Live f oi ∧ useLower .full f s k = k (f.readLower f.oi) { s with oi := oi } := by
  have hlow := hs.lowerFile hfile
  rw [useLower, if_neg hstack, ← hs.reopened.readLower]
  cases hptr : s.oi.lowerFile with
  | null =>
    have hdata : f.readLower s.oi = f.lowerdata := by rw [OvlFile.readLower, hptr]
    refine ⟨{ s.oi with lowerFile := .opened f.ovlPathLowerdata },
      ⟨⟨hs.reopened.1, hs.reopened.2, ?_⟩, hs.upperFile, fun _ => trivial⟩, ?_⟩
    · rw [← hs.reopened.readLower, hdata]
      rfl
    · rw [hdata]
      rfl
  | opened idx =>
    have hdata : f.readLower s.oi = f.lowerAt idx := by rw [OvlFile.readLower, hptr]
    exact ⟨s.oi, hs, by rw [hdata]⟩
  | err e =>
    rw [hptr] at hlow
    exact hlow.elim

section Passes

variable {f : OvlFile} {s : ReadState}

/-- A pass past the map ends the request with what the upper file has. -/
theorem blockReadPass_past (hup : f.upper.isSome) (hfile : f.oi.upperFile.Usable)
    (hs : Live f s.oi)
    (hb : f.oi.blockCount < ovlGetBlock s.pos) :
    ∃ oi calls, blockReadPass .full f s =
      .done (s.ret + (f.upperData.read s.pos s.count).length)
        (s.after (f.upperData.read s.pos s.count) oi calls) := by
  rw [blockReadPass_of_past .full hs.reopened hb]
  obtain ⟨oi, -, h⟩ := useUpper_full hup hfile hs (tailPass .full)
  exact ⟨oi, s.calls + 1, h⟩

/-- A pass over a copied block delivers what the upper file has of the chunk, and
goes round again even when that is nothing. -/
theorem blockReadPass_copied (hup : f.upper.isSome) (hfile : f.oi.upperFile.Usable)
    (hs : Live f s.oi) (hend : s.lowerEnd = false) (hcount : 0 < s.count) (hb : f.Copied s.pos) :
    ∃ oi calls, Live f oi ∧ blockReadPass .full f s =
      .again (s.after (f.upperData.read s.pos (chunk s.pos s.count)) oi calls) := by
  rw [blockReadPass_of_copied .full hs.reopened hb]
  obtain ⟨oi, hoi, h⟩ := useUpper_full hup hfile hs (copiedPass .full (chunk s.pos s.count))
  obtain ⟨calls, hst, hdrained, hatEnd⟩ :=
    readLoop_full f.upperData { s with oi := oi } (chunk_pos s.pos hcount)
  refine ⟨oi, calls, hoi, h.trans ?_⟩
  rw [copiedPass]
  revert hst hdrained hatEnd
  obtain ⟨s', x⟩ := readLoop .full f.upperData (chunk s.pos s.count) (chunk s.pos s.count)
    { s with oi := oi }
  rintro rfl hdrained hatEnd
  by_cases hfull : (f.upperData.read s.pos (chunk s.pos s.count)).length = chunk s.pos s.count
  · rw [show x = .drained from hdrained hfull]
    rfl
  · rw [show x = .atEnd from hatEnd hfull]
    simp [ReadState.after, hend]

/-- A pass over an uncopied block delivers what the lower file has of the chunk
and remembers when that was less than the chunk. -/
theorem blockReadPass_uncopied (hstack : f.lowerstack ≠ []) (hfile : f.oi.lowerFile.Usable)
    (hs : Live f s.oi) (hend : s.lowerEnd = false) (hcount : 0 < s.count) (hb : f.Uncopied s.pos) :
    ∃ oi calls, Live f oi ∧ blockReadPass .full f s =
      .again { s.after ((f.readLower f.oi).read s.pos (chunk s.pos s.count)) oi calls with
        lowerEnd := decide (((f.readLower f.oi).read s.pos (chunk s.pos s.count)).length ≠
          chunk s.pos s.count) } := by
  rw [blockReadPass_of_uncopied .full hs.reopened hb, if_neg (by simp [hend])]
  obtain ⟨oi, hoi, h⟩ := useLower_full hstack hfile hs (uncopiedPass .full (chunk s.pos s.count))
  obtain ⟨calls, hst, hdrained, hatEnd⟩ :=
    readLoop_full (f.readLower f.oi) { s with oi := oi } (chunk_pos s.pos hcount)
  refine ⟨oi, calls, hoi, h.trans ?_⟩
  rw [uncopiedPass]
  revert hst hdrained hatEnd
  obtain ⟨s', x⟩ := readLoop .full (f.readLower f.oi) (chunk s.pos s.count) (chunk s.pos s.count)
    { s with oi := oi }
  rintro rfl hdrained hatEnd
  by_cases hfull : ((f.readLower f.oi).read s.pos (chunk s.pos s.count)).length =
      chunk s.pos s.count
  · rw [show x = .drained from hdrained hfull]
    simp only [ReadState.after, hfull, ne_eq, not_true_eq_false, decide_false, hend]
  · rw [show x = .atEnd from hatEnd hfull]
    simp only [ReadState.after, ne_eq, hfull, not_false_eq_true, decide_true]

theorem blockReadPass_uncopied_end (hs : Live f s.oi) (hend : s.lowerEnd = true)
    (hb : f.Uncopied s.pos) : blockReadPass .full f s = .done s.ret s := by
  rw [blockReadPass_of_uncopied .full hs.reopened hb, if_pos hend]

end Passes

/-- In copy-on-write mode an offset is in an uncopied block, in a copied block, or
past the map. -/
theorem OvlFile.block_cases {f : OvlFile} (hmap : f.oi.blockStatus.isSome)
    (hcow : f.oi.cowStatus = true) (i : ℕ) :
    f.Uncopied i ∨ f.Copied i ∨ f.oi.blockCount < ovlGetBlock i := by
  obtain ⟨m, hm⟩ := Option.isSome_iff_exists.mp hmap
  by_cases hb : ovlGetBlock i ≤ f.oi.blockCount
  · by_cases hc : m.cells (ovlGetBlock i) = .uncopy
    · exact .inl ⟨hcow, hb, m, hm, hc⟩
    · exact .inr (.inl ⟨hcow, hb, m, hm, hc⟩)
  · exact .inr (.inr (by omega))

/-- The same when there may be no map. -/
theorem OvlFile.block_cases_or {f : OvlFile} (hcow : f.oi.cowStatus = true) (i : ℕ) :
    f.Uncopied i ∨ f.Copied i ∨ f.oi.blockCount < ovlGetBlock i ∨
      (f.oi.blockStatus = none ∧ ovlGetBlock i ≤ f.oi.blockCount) := by
  cases hm : f.oi.blockStatus with
  | none =>
    by_cases hb : ovlGetBlock i ≤ f.oi.blockCount
    · exact .inr (.inr (.inr ⟨rfl, hb⟩))
    · exact .inr (.inr (.inl (by omega)))
  | some m =>
    obtain hu | hc | hp := OvlFile.block_cases (by rw [hm]; rfl) hcow i
    · exact .inl hu
    · exact .inr (.inl hc)
    · exact .inr (.inr (.inl hp))

theorem OvlFile.Openable.block_cases {f : OvlFile} (hf : f.Openable)
    (hcow : f.oi.cowStatus = true) (i : ℕ) :
    f.Uncopied i ∨ f.Copied i ∨ f.oi.blockCount < ovlGetBlock i :=
  OvlFile.block_cases hf.map hcow i

theorem ovlReadIter_cow {f : OvlFile} {pos count : ℕ} (hcow : f.oi.cowStatus = true)
    (hc : 0 < count) (fuel : ℕ) :
    ovlReadIter fuel .full f pos count =
      blockReadLoop .full f fuel ⟨f.oi, pos, count, 0, false, [], 0⟩ := by
  rw [ovlReadIter, if_neg (by omega)]
  simp only [ReadEnv.full, hcow, if_true, blockReadIter]

/-- Outside copy-on-write mode a request returns what the real file has. -/
theorem returns_of_not_cow {f : OvlFile} (hcow : f.oi.cowStatus = false) (pos count : ℕ) (ret : ℤ)
    (out : List UInt8) : Returns f pos count ret out ↔
      out = f.ovlInodeRealdata.read pos count ∧ ret = out.length := by
  have hrun : ∀ fuel, ovlReadIter fuel .full f pos count =
      .ret ⟨(f.ovlInodeRealdata.read pos count).length,
        pos + (f.ovlInodeRealdata.read pos count).length,
        f.ovlInodeRealdata.read pos count, f.oi⟩ := by
    intro fuel
    by_cases h0 : count = 0
    · subst h0
      simp [ovlReadIter]
    · simp only [ovlReadIter, if_neg h0, ReadEnv.full, hcow, Bool.false_eq_true, if_false]
      rfl
  constructor
  · rintro ⟨fuel, res, h, rfl, rfl⟩
    rw [hrun] at h
    cases h
    exact ⟨rfl, rfl⟩
  · rintro ⟨rfl, rfl⟩
    exact ⟨0, _, hrun 0, rfl, rfl⟩

/-- A one-byte read of an uncopied block returns what the lower file has there. -/
theorem returns_one_uncopied {f : OvlFile} {i : ℕ} (hstack : f.lowerstack ≠ [])
    (hfile : f.oi.lowerFile.Usable) (h : f.Uncopied i) :
    Returns f i 1 ((f.readLower f.oi).get? i).toList.length
      ((f.readLower f.oi).get? i).toList := by
  obtain ⟨oi, calls, hoi, hpass⟩ :=
    blockReadPass_uncopied (s := ⟨f.oi, i, 1, 0, false, [], 0⟩) hstack hfile (.refl f) rfl
      Nat.one_pos h
  simp only [chunk_one, read_one, ReadState.after, List.nil_append] at hpass
  cases hget : (f.readLower f.oi).get? i with
  | none =>
    rw [hget] at hpass
    change blockReadPass .full f _ = .again ⟨oi, i, 1, 0, true, [], calls⟩ at hpass
    have hend := blockReadPass_uncopied_end (f := f) (s := ⟨oi, i, 1, 0, true, [], calls⟩) hoi rfl h
    refine ⟨3, ⟨0, i, [], oi⟩, ?_, rfl, rfl⟩
    rw [ovlReadIter_cow h.1 Nat.one_pos, blockReadLoop, if_neg (by simp), hpass]
    change blockReadLoop .full f 2 ⟨oi, i, 1, 0, true, [], calls⟩ = _
    rw [blockReadLoop, if_neg (by simp), hend]
    rfl
  | some v =>
    rw [hget] at hpass
    refine ⟨2, ⟨1, i + 1, [v], oi⟩, ?_, rfl, rfl⟩
    rw [ovlReadIter_cow h.1 Nat.one_pos, blockReadLoop, if_neg (by simp), hpass]
    rfl

theorem returns_one_past {f : OvlFile} {i : ℕ} (hup : f.upper.isSome)
    (hfile : f.oi.upperFile.Usable) (hcow : f.oi.cowStatus = true)
    (h : f.oi.blockCount < ovlGetBlock i) :
    Returns f i 1 (f.upperData.get? i).toList.length (f.upperData.get? i).toList := by
  obtain ⟨oi, calls, hpass⟩ :=
    blockReadPass_past (s := ⟨f.oi, i, 1, 0, false, [], 0⟩) hup hfile (.refl f) h
  simp only [read_one, ReadState.after, List.nil_append] at hpass
  refine ⟨1, ⟨(f.upperData.get? i).toList.length, i + (f.upperData.get? i).toList.length,
    (f.upperData.get? i).toList, oi⟩, ?_, rfl, rfl⟩
  rw [ovlReadIter_cow hcow Nat.one_pos, blockReadLoop, if_neg (by simp), hpass]
  simp

theorem returns_one_copied {f : OvlFile} {i : ℕ} {v : UInt8} (hup : f.upper.isSome)
    (hfile : f.oi.upperFile.Usable) (h : f.Copied i) (hv : f.upperData.get? i = some v) :
    Returns f i 1 1 [v] := by
  obtain ⟨oi, calls, hoi, hpass⟩ :=
    blockReadPass_copied (s := ⟨f.oi, i, 1, 0, false, [], 0⟩) hup hfile (.refl f) rfl
      Nat.one_pos h
  simp only [chunk_one, read_one, ReadState.after, List.nil_append, hv] at hpass
  refine ⟨2, ⟨1, i + 1, [v], oi⟩, ?_, rfl, rfl⟩
  rw [ovlReadIter_cow h.1 Nat.one_pos, blockReadLoop, if_neg (by simp), hpass]
  rfl

/-- A request at an offset of a copied block past the end of the upper file goes
round for ever. -/
theorem not_returns_copied_end {f : OvlFile} {i count : ℕ} (hup : f.upper.isSome)
    (hfile : f.oi.upperFile.Usable) (h : f.Copied i) (hend : f.upperData.size ≤ i)
    (hcount : 0 < count) (ret : ℤ) (out : List UInt8) : ¬ Returns f i count ret out := by
  rintro ⟨fuel, res, hres, -, -⟩
  rw [ovlReadIter_cow h.1 hcount] at hres
  have hread : f.upperData.read i (chunk i count) = [] := read_eq_nil_iff.mpr (.inr hend)
  have hrun : ∀ fuel oi calls, Live f oi →
      blockReadLoop .full f fuel ⟨oi, i, count, 0, false, [], calls⟩ = .running := by
    intro fuel
    induction fuel with
    | zero => intro _ _ _; rfl
    | succ fuel ih =>
      intro oi calls hoi
      obtain ⟨oi', calls', hoi', hpass⟩ :=
        blockReadPass_copied (s := ⟨oi, i, count, 0, false, [], calls⟩) hup hfile hoi rfl hcount h
      simp only [hread, ReadState.after, List.nil_append, List.length_nil, Nat.add_zero,
        Nat.sub_zero] at hpass
      rw [blockReadLoop, if_neg (Nat.ne_of_gt hcount), hpass]
      exact ih oi' calls' hoi'
  rw [hrun fuel f.oi 0 (.refl f)] at hres
  cases hres

/-- A request at an offset of a block of the map does not return without a map. -/
theorem not_returns_of_noMap {f : OvlFile} {i count : ℕ} (hcow : f.oi.cowStatus = true)
    (hmap : f.oi.blockStatus = none) (hb : ovlGetBlock i ≤ f.oi.blockCount) (hcount : 0 < count)
    (ret : ℤ) (out : List UInt8) : ¬ Returns f i count ret out := by
  rintro ⟨fuel, res, hres, -, -⟩
  rw [ovlReadIter_cow hcow hcount] at hres
  cases fuel with
  | zero => cases hres
  | succ fuel =>
    have hpass := blockReadPass_of_noMap (s := ⟨f.oi, i, count, 0, false, [], 0⟩) .full
      (.refl f f.oi) hmap hb
    rw [blockReadLoop, if_neg (Nat.ne_of_gt hcount), hpass] at hres
    cases hres

/-- A request at an offset of an uncopied block past the end of the lower file
returns nothing. -/
theorem returns_uncopied_end {f : OvlFile} {i count : ℕ} (hstack : f.lowerstack ≠ [])
    (hfile : f.oi.lowerFile.Usable) (h : f.Uncopied i) (hend : (f.readLower f.oi).size ≤ i)
    (hcount : 0 < count) : Returns f i count 0 [] := by
  have hread : (f.readLower f.oi).read i (chunk i count) = [] :=
    read_eq_nil_iff.mpr (.inr hend)
  have hchunk := Nat.ne_of_lt (chunk_pos i hcount)
  obtain ⟨oi, calls, hoi, hpass⟩ :=
    blockReadPass_uncopied (s := ⟨f.oi, i, count, 0, false, [], 0⟩) hstack hfile (.refl f) rfl
      hcount h
  simp only [hread, ReadState.after, List.nil_append, List.length_nil, Nat.add_zero, Nat.sub_zero,
    ne_eq, hchunk, not_false_eq_true, decide_true] at hpass
  have hdone := blockReadPass_uncopied_end (f := f) (s := ⟨oi, i, count, 0, true, [], calls⟩) hoi
    rfl h
  refine ⟨2, ⟨0, i, [], oi⟩, ?_, rfl, rfl⟩
  rw [ovlReadIter_cow h.1 hcount, blockReadLoop, if_neg (Nat.ne_of_gt hcount), hpass]
  simp only
  rw [blockReadLoop, if_neg (Nat.ne_of_gt hcount), hdone]
  rfl

/-- A request past the map and past the end of the upper file returns nothing. -/
theorem returns_past_end {f : OvlFile} {i count : ℕ} (hup : f.upper.isSome)
    (hfile : f.oi.upperFile.Usable) (hcow : f.oi.cowStatus = true)
    (h : f.oi.blockCount < ovlGetBlock i) (hend : f.upperData.size ≤ i) (hcount : 0 < count) :
    Returns f i count 0 [] := by
  have hread : f.upperData.read i count = [] := read_eq_nil_iff.mpr (.inr hend)
  obtain ⟨oi, calls, hpass⟩ :=
    blockReadPass_past (s := ⟨f.oi, i, count, 0, false, [], 0⟩) hup hfile (.refl f) h
  simp only [hread, ReadState.after, List.nil_append, List.length_nil] at hpass
  refine ⟨1, ⟨0, i, [], oi⟩, ?_, rfl, rfl⟩
  rw [ovlReadIter_cow hcow hcount, blockReadLoop, if_neg (Nat.ne_of_gt hcount), hpass]
  rfl

-- ════════════════════════════════════════════════════════════════════════
-- What the returned reads show
-- ════════════════════════════════════════════════════════════════════════

/-- Reads of `f` show bytes of `X` only, exactly when every served byte is one. -/
theorem readsFrom_of_served {X : File} {f : OvlFile}
    (h : ∀ i v, f.served i = some v → X.get? i = some v) : ReadsFrom X f := by
  intro fuel env pos count res hres hret k hk
  obtain ⟨hlen, hbytes⟩ := ovlReadIter_served hres hret
  have hk' : k < res.out.length := by omega
  refine ⟨res.out.get ⟨k, hk'⟩, by simp [List.getElem?_eq_getElem hk'], h _ _ ?_⟩
  rw [← hbytes k hk', List.getElem?_eq_getElem hk']
  rfl

theorem Returns.served {X : File} {f : OvlFile} (hX : ReadsFrom X f) {i : ℕ} {v : UInt8}
    (h : Returns f i 1 1 [v]) : X.get? i = some v := by
  obtain ⟨fuel, res, hres, hret, hout⟩ := h
  obtain ⟨w, hw, hXw⟩ := hX fuel .full i 1 res hres (by omega) 0 (by omega)
  rw [hout] at hw
  cases hw
  exact hXw

/-- Every served byte is delivered by a one-byte read. -/
theorem returns_one {f : OvlFile} (hf : f.oi.cowStatus = true → f.Openable) {i : ℕ} {v : UInt8}
    (h : f.served i = some v) : Returns f i 1 1 [v] := by
  cases hcow : f.oi.cowStatus with
  | false =>
    rw [OvlFile.served_of_not_cow hcow] at h
    rw [returns_of_not_cow hcow, read_one, h]
    exact ⟨rfl, rfl⟩
  | true =>
    have ho := hf hcow
    rcases ho.block_cases hcow i with hu | hc | hp
    · rw [OvlFile.served_of_uncopied hu] at h
      have := returns_one_uncopied ho.lower (ho.lowerFile i hu) hu
      rw [h] at this
      exact this
    · rw [OvlFile.served_of_copied hc] at h
      exact returns_one_copied ho.upper ho.upperFile hc h
    · rw [OvlFile.served_of_past hcow hp] at h
      have := returns_one_past ho.upper ho.upperFile hcow hp
      rw [h] at this
      exact this

/-- Reads of `f` show bytes of `X` only, exactly when every served byte is one. -/
theorem readsFrom_iff {X : File} {f : OvlFile} (hf : f.oi.cowStatus = true → f.Openable) :
    ReadsFrom X f ↔ ∀ i v, f.served i = some v → X.get? i = some v :=
  ⟨fun hX _ _ h => (returns_one hf h).served hX, readsFrom_of_served⟩

/-- Invariant of a request on `f` whose passes all agree with the file `X`. -/
structure Matching (X : File) (f : OvlFile) (pos count : ℕ) (s : ReadState) : Prop where
  live : Live f s.oi
  pos_eq : s.pos = pos + s.out.length
  ret_eq : s.ret = s.out.length
  count_eq : s.out.length + s.count = count
  out_eq : s.out = X.read pos s.out.length
  atEnd : s.lowerEnd = true → X.size ≤ s.pos ∧ f.Uncopied s.pos

theorem Matching.after {X : File} {f : OvlFile} {pos count n : ℕ} {s : ReadState}
    {bs : List UInt8} {oi : OvlInode} {calls : ℕ} (h : Matching X f pos count s)
    (hoi : Live f oi) (hend : s.lowerEnd = false) (hn : n ≤ s.count) (hle : bs.length ≤ n)
    (hbs : bs = X.read s.pos bs.length) : Matching X f pos count (s.after bs oi calls) := by
  have hl : (s.after bs oi calls).out.length = s.out.length + bs.length := by
    simp [ReadState.after]
  refine ⟨hoi, ?_, ?_, ?_, ?_, ?_⟩
  · rw [hl, ← Nat.add_assoc, ← h.pos_eq]
    rfl
  · rw [hl, ← h.ret_eq]
    rfl
  · have := h.count_eq
    rw [hl]
    simp only [ReadState.after]
    omega
  · rw [hl, read_add, ← h.out_eq, ← h.pos_eq, ← hbs]
    rfl
  · intro he
    simp [ReadState.after, hend] at he

theorem read_eq_of_get? {X Y : File} {pos n : ℕ}
    (h : ∀ i, pos ≤ i → i < pos + n → Y.get? i = X.get? i) : Y.read pos n = X.read pos n := by
  apply List.ext_getElem?
  intro k
  rw [getElem?_read, getElem?_read]
  split
  · exact h _ (by omega) (by omega)
  · rfl

theorem read_eq_read_length {X Y : File} {pos n : ℕ}
    (h : ∀ i v, pos ≤ i → i < pos + n → Y.get? i = some v → X.get? i = some v) :
    Y.read pos n = X.read pos (Y.read pos n).length := by
  rw [read_length_self Y pos n]
  refine (read_eq_of_get? fun i h₁ h₂ => ?_).trans (congrArg _ (by rw [← read_length_self]))
  rw [length_read] at h₂
  have hlt : i < Y.size := by omega
  rw [get?_of_lt hlt]
  exact (h i _ h₁ (by omega) (get?_of_lt hlt)).symm

/-- The served bytes of a file in copy-on-write mode are those of `X`, ends of
file included: a request that runs past the end finds the end of `X`. -/
structure SameBytes (X : File) (f : OvlFile) : Prop where
  uncopied : ∀ i, f.Uncopied i → (f.readLower f.oi).get? i = X.get? i
  copied : ∀ i, f.Copied i → ∀ v, f.upperData.get? i = some v → X.get? i = some v
  past : f.upper.isSome → ∀ i, f.oi.blockCount < ovlGetBlock i → f.upperData.get? i = X.get? i

theorem OvlFile.Uncopied.of_block_eq {f : OvlFile} {i j : ℕ} (h : f.Uncopied i)
    (hb : ovlGetBlock j = ovlGetBlock i) : f.Uncopied j := by
  obtain ⟨hcow, hle, m, hm, hcell⟩ := h
  exact ⟨hcow, by rw [hb]; exact hle, m, hm, by rw [hb]; exact hcell⟩

theorem OvlFile.Copied.of_block_eq {f : OvlFile} {i j : ℕ} (h : f.Copied i)
    (hb : ovlGetBlock j = ovlGetBlock i) : f.Copied j := by
  obtain ⟨hcow, hle, m, hm, hcell⟩ := h
  exact ⟨hcow, by rw [hb]; exact hle, m, hm, by rw [hb]; exact hcell⟩

/-- One pass: it goes round in a matching state, or it ends the request with the
bytes `X` has, or it faults. -/
theorem blockReadPass_matching {X : File} {f : OvlFile} {pos count : ℕ} {s : ReadState}
    (hf : f.PtrsUsable) (hcow : f.oi.cowStatus = true) (hX : SameBytes X f)
    (hs : Matching X f pos count s) (hc : 0 < s.count) :
    (∃ s', blockReadPass .full f s = .again s' ∧ Matching X f pos count s') ∨
      (∃ s', blockReadPass .full f s = .done s'.out.length s' ∧ s'.out = X.read pos count) ∨
      (blockReadPass .full f s = .oops ∧ ¬ (f.upper.isSome ∧ f.oi.blockStatus.isSome)) := by
  have hcount := hs.count_eq
  rcases OvlFile.block_cases_or hcow s.pos with hu | hd | hp | ⟨hm, hb⟩
  · cases hend : s.lowerEnd with
    | true =>
      refine .inr (.inl ⟨s, ?_, ?_⟩)
      · rw [blockReadPass_uncopied_end hs.live hend hu, hs.ret_eq]
      · rw [← hcount, read_add, ← hs.out_eq, ← hs.pos_eq,
          read_eq_nil_iff.mpr (.inr (hs.atEnd hend).1), List.append_nil]
    | false =>
      obtain ⟨oi, calls, hoi, hpass⟩ := blockReadPass_uncopied hf.lower (hf.lowerFile _ hu)
        hs.live hend hc hu
      refine .inl ⟨_, hpass, ?_⟩
      have hchunk : ∀ i, s.pos ≤ i → i < s.pos + chunk s.pos s.count → f.Uncopied i :=
        fun i h₁ h₂ => hu.of_block_eq (ovlGetBlock_chunk h₁ h₂)
      have hm : Matching X f pos count
          (s.after ((f.readLower f.oi).read s.pos (chunk s.pos s.count)) oi calls) := by
        refine hs.after hoi hend (chunk_le_count s.pos s.count) (by rw [length_read]; omega)
          (read_eq_read_length fun i v h₁ h₂ hv => ?_)
        rw [← hX.uncopied i (hchunk i h₁ h₂)]
        exact hv
      refine ⟨hm.live, hm.pos_eq, hm.ret_eq, hm.count_eq, hm.out_eq, ?_⟩
      intro he
      -- The lower file ended inside the chunk; so does `X`, in the same block.
      have hshort : ((f.readLower f.oi).read s.pos (chunk s.pos s.count)).length ≠
          chunk s.pos s.count := by simpa using he
      have hblk := hchunk (s.pos + ((f.readLower f.oi).read s.pos (chunk s.pos s.count)).length)
        (by omega) (by rw [length_read] at hshort ⊢; omega)
      refine ⟨?_, hblk⟩
      have hnone := hX.uncopied _ hblk
      rw [get?_of_le (by rw [length_read] at hshort ⊢; omega)] at hnone
      exact get?_eq_none_iff.mp hnone.symm
  · have hend : s.lowerEnd = false := by
      by_contra he
      exact hd.not_uncopied (hs.atEnd (by simpa using he)).2
    by_cases hup : f.upper.isSome
    · obtain ⟨oi, calls, hoi, hpass⟩ := blockReadPass_copied hup hf.upperFile hs.live hend hc hd
      refine .inl ⟨_, hpass, hs.after hoi hend (chunk_le_count s.pos s.count)
        (by rw [length_read]; omega) (read_eq_read_length fun i v h₁ h₂ hv => ?_)⟩
      exact hX.copied i (hd.of_block_eq (ovlGetBlock_chunk h₁ h₂)) v hv
    · exact .inr (.inr ⟨blockReadPass_of_noUpper .full hs.live.reopened (by simpa using hup)
        (.inl hd), fun h => hup h.1⟩)
  · by_cases hup : f.upper.isSome
    · obtain ⟨oi, calls, hpass⟩ := blockReadPass_past hup hf.upperFile hs.live hp
      have hread : f.upperData.read s.pos s.count = X.read s.pos s.count :=
        read_eq_of_get? fun i h₁ _ => hX.past hup i (by have := ovlGetBlock_mono h₁; omega)
      refine .inr (.inl ⟨s.after (f.upperData.read s.pos s.count) oi calls, hpass.trans ?_, ?_⟩)
      · simp only [ReadState.after, List.length_append, hs.ret_eq, Int.natCast_add]
      · simp only [ReadState.after]
        rw [hread, ← hcount, read_add, ← hs.out_eq, ← hs.pos_eq]
    · exact .inr (.inr ⟨blockReadPass_of_noUpper .full hs.live.reopened (by simpa using hup)
        (.inr hp), fun h => hup h.1⟩)
  · exact .inr (.inr ⟨blockReadPass_of_noMap .full hs.live.reopened hm hb, by simp [hm]⟩)

theorem blockReadLoop_matching {X : File} {f : OvlFile} {pos count fuel : ℕ} {s : ReadState}
    {res : ReadResult} (hf : f.PtrsUsable) (hcow : f.oi.cowStatus = true) (hX : SameBytes X f)
    (hs : Matching X f pos count s) (h : blockReadLoop .full f fuel s = .ret res) :
    res.out = X.read pos count ∧ res.ret = res.out.length := by
  induction fuel generalizing s with
  | zero => cases h
  | succ fuel ih =>
    rw [blockReadLoop] at h
    by_cases hz : s.count = 0
    · rw [if_pos hz] at h
      cases h
      have hcount := hs.count_eq
      have hlen : s.out.length = count := by omega
      rw [← hlen]
      exact ⟨hs.out_eq, by rw [hs.ret_eq]⟩
    · rw [if_neg hz] at h
      obtain ⟨s', hp, hm⟩ | ⟨s', hp, hout⟩ | ⟨hp, -⟩ :=
        blockReadPass_matching hf hcow hX hs (Nat.pos_of_ne_zero hz)
      · rw [hp] at h
        exact ih hm h
      · rw [hp] at h
        cases h
        exact ⟨hout, rfl⟩
      · rw [hp] at h
        cases h

theorem matching_init (X : File) (f : OvlFile) (pos count : ℕ) :
    Matching X f pos count ⟨f.oi, pos, count, 0, false, [], 0⟩ :=
  ⟨.refl f, rfl, rfl, by simp, by simp, nofun⟩

theorem toList_read_one {X : File} {i : ℕ} {a : Option UInt8} (h : a.toList = X.read i 1) :
    a = X.get? i := by
  rw [read_one] at h
  cases a <;> cases hx : X.get? i <;> simp_all

/-- In copy-on-write mode the returned reads are the reads of `X` exactly when the
two have the same bytes. -/
theorem returns_eq_read_iff {X : File} {f : OvlFile} (hf : f.PtrsUsable)
    (hcow : f.oi.cowStatus = true) :
    (∀ pos count ret out, Returns f pos count ret out →
      out = X.read pos count ∧ ret = out.length) ↔ SameBytes X f := by
  constructor
  · intro h
    refine ⟨fun i hi => ?_, fun i hi v hv => ?_, fun hup i hi => ?_⟩
    · exact toList_read_one (h i 1 _ _ (returns_one_uncopied hf.lower (hf.lowerFile i hi) hi)).1
    · have hup : f.upper.isSome := by
        by_contra hno
        rw [OvlFile.upperData, show f.upper = none by simpa using hno] at hv
        cases hv
      have hread := (h i 1 _ _ (returns_one_copied hup hf.upperFile hi hv)).1
      exact (toList_read_one (a := some v) hread).symm
    · exact toList_read_one (h i 1 _ _ (returns_one_past hup hf.upperFile hcow hi)).1
  · rintro hX pos count ret out ⟨fuel, res, hres, rfl, rfl⟩
    by_cases h0 : count = 0
    · subst h0
      rw [ovlReadIter, if_pos rfl] at hres
      cases hres
      exact ⟨by simp, rfl⟩
    · rw [ovlReadIter_cow hcow (Nat.pos_of_ne_zero h0)] at hres
      exact blockReadLoop_matching hf hcow hX (matching_init _ f pos count) hres

/-- What bounds the passes that are left: two for each byte, and one until the end of the
lower file is met. -/
def ReadState.passesLeft (s : ReadState) : ℕ := 2 * s.count + if s.lowerEnd then 0 else 1

/-- A pass that goes on moves a byte or meets the end of the lower file. -/
theorem passesLeft_lt {f : OvlFile} {pos count : ℕ} {s s' : ReadState} (hf : f.Openable)
    (hcow : f.oi.cowStatus = true) (hup : ∀ i, f.Copied i → i < f.upperData.size)
    (hs : Matching f.upperData f pos count s) (hc : 0 < s.count)
    (hp : blockReadPass .full f s = .again s') : s'.passesLeft < s.passesLeft := by
  have hpos := chunk_pos s.pos hc
  have hle := chunk_le_count s.pos s.count
  rcases hf.block_cases hcow s.pos with hu | hd | hq
  · cases hend : s.lowerEnd with
    | true =>
      rw [blockReadPass_uncopied_end hs.live hend hu] at hp
      cases hp
    | false =>
      obtain ⟨oi, calls, -, hp'⟩ := blockReadPass_uncopied hf.lower (hf.lowerFile _ hu)
        hs.live hend hc hu
      rw [hp] at hp'
      cases hp'
      simp only [ReadState.passesLeft, ReadState.after, hend, Bool.false_eq_true, if_false]
      by_cases hfull : ((f.readLower f.oi).read s.pos (chunk s.pos s.count)).length =
          chunk s.pos s.count
      · simp only [hfull, ne_eq, not_true_eq_false, decide_false, Bool.false_eq_true, if_false]
        omega
      · simp only [ne_eq, hfull, not_false_eq_true, decide_true, if_true]
        omega
  · have hend : s.lowerEnd = false := by
      by_contra he
      exact hd.not_uncopied (hs.atEnd (by simpa using he)).2
    obtain ⟨oi, calls, -, hp'⟩ := blockReadPass_copied hf.upper hf.upperFile hs.live hend hc hd
    rw [hp] at hp'
    cases hp'
    have hlast := hup (s.pos + chunk s.pos s.count - 1)
      (hd.of_block_eq (ovlGetBlock_chunk (by omega)
        (show _ < s.pos + chunk s.pos s.count by omega)))
    simp only [ReadState.passesLeft, ReadState.after, hend, Bool.false_eq_true, if_false,
      length_read]
    omega
  · obtain ⟨oi, calls, hp'⟩ := blockReadPass_past hf.upper hf.upperFile hs.live hq
    rw [hp] at hp'
    cases hp'

/-- If the upper file reaches over every copied block, every request returns. -/
theorem exists_returns {f : OvlFile} (hf : f.Openable) (hcow : f.oi.cowStatus = true)
    (hX : SameBytes f.upperData f) (hup : ∀ i, f.Copied i → i < f.upperData.size)
    (pos count : ℕ) : ∃ ret out, Returns f pos count ret out := by
  by_cases h0 : count = 0
  · subst h0
    exact ⟨0, [], 0, ⟨0, pos, [], f.oi⟩, by simp [ovlReadIter], rfl, rfl⟩
  have hloop : ∀ n s, Matching f.upperData f pos count s → s.passesLeft ≤ n →
      ∃ res, blockReadLoop .full f (n + 1) s = .ret res := by
    intro n
    induction n with
    | zero =>
      intro s _ hn
      rw [ReadState.passesLeft] at hn
      rw [blockReadLoop, if_pos (by omega)]
      exact ⟨_, rfl⟩
    | succ n ih =>
      intro s hs hn
      rw [blockReadLoop]
      by_cases hz : s.count = 0
      · rw [if_pos hz]
        exact ⟨_, rfl⟩
      rw [if_neg hz]
      have hc := Nat.pos_of_ne_zero hz
      obtain ⟨s', hp, hm⟩ | ⟨s', hp, -⟩ | ⟨-, hno⟩ :=
        blockReadPass_matching hf.toPtrsUsable hcow hX hs hc
      · have hlt := passesLeft_lt hf hcow hup hs hc hp
        rw [hp]
        exact ih s' hm (by omega)
      · rw [hp]
        exact ⟨_, rfl⟩
      · exact absurd ⟨hf.upper, hf.map⟩ hno
  obtain ⟨res, hres⟩ := hloop _ _ (matching_init _ f pos count) le_rfl
  rw [← ovlReadIter_cow hcow (Nat.pos_of_ne_zero h0)] at hres
  exact ⟨res.ret, res.out, _, res, hres, rfl, rfl⟩

end FzzOverlay

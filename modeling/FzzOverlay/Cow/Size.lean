import FzzOverlay.Cow.Logical

/-!
# The reported size

The upper file starts empty and grows with the blocks and data that reach it, and
both `i_size` and `st_size` are its size. So they are the logical size exactly after
runs in which some write reached the end of the lower file.
-/

namespace FzzOverlay

open SparseFile

/-- `st_size` as `ovl_getattr` returns it: `ovl_path_real` is the upper file if
there is one. -/
def ovlGetattrSize (f : OvlFile) : ℕ :=
  if f.upper.isSome then f.upperData.size else (f.lowerAt f.ovlPathLower).size

/-- One write that stores its whole request, with the largest end offset so far. -/
def SizeStep (s : OvlFile × ℕ) (e : WriteEnv × WriteReq) (t : OvlFile × ℕ) : Prop :=
  e.2.data ≠ [] ∧ ∃ r, ovlWriteIter e.1 s.1 e.2 = .ret r ∧ r.ret = e.2.data.length ∧
    t = (r.file, max s.2 r.pos)

/-- The request ends at or past the end of a lower file of the given size, or it
first copies a range up that does. -/
def ReachesEnd (size : ℕ) (f : OvlFile) (e : WriteEnv × WriteReq) : Prop :=
  size ≤ writeAt e.2.append f.upperData e.2.pos + e.2.data.length ∨
    (f.oi.cowStatus = true ∧ ∃ m, f.oi.blockStatus = some m ∧
      ∃ r ∈ copyRanges e.1.oob f.oi m size e.2, r.1 < size ∧ size ≤ r.1 + r.2)

/-- Invariant of the runs: the upper file has everything that was written and
nothing past the logical end. -/
structure SizeInv (lower : File) (s : OvlFile × ℕ) : Prop where
  copied : CopiedUp s.1
  lowerAt : s.1.lowerAt 0 = lower
  blockCount : s.1.oi.cowStatus = true → s.1.oi.blockCount = countBlocks lower.size
  written_le : s.2 ≤ s.1.upperData.size
  size_le : s.1.upperData.size ≤ max lower.size s.2

theorem sizeInv_freshCow {f : OvlFile} (hstack : f.lowerstack ≠ [])
    (hlow : f.oi.lowerFile.First) (addr : ℕ) (linked : Bool) :
    SizeInv (f.lowerAt 0) (freshCow f addr linked, 0) :=
  ⟨copiedUp_freshCow hstack hlow addr linked, rfl, fun _ => rfl, Nat.zero_le _, Nat.zero_le _⟩

/-- An append that finds the last block uncopied copies up to the end. -/
theorem lastBlock_reaches {size : ℕ} (h0 : 0 < size) (hmax : size < 2 ^ 63) :
    lastBlockStart (countBlocks size) < size ∧
      size ≤ lastBlockStart (countBlocks size) +
        usub64 size (lastBlockStart (countBlocks size)) := by
  have hstart : lastBlockStart (countBlocks size) < size := by
    rw [lastBlockStart, countBlocks, BLOCK_SIZE]
    split <;> omega
  refine ⟨hstart, ?_⟩
  rw [usub64_of_le hstart.le (by omega)]
  omega

section Step

variable {lower : File} {s t : OvlFile × ℕ} {e : WriteEnv × WriteReq}

theorem writeAt_filled {m : BlockMap} (h : SizeInv lower s) (h0 : 0 < lower.size)
    (hmax : lower.size < 2 ^ 63) (hcow : s.1.oi.cowStatus = true) :
    lower.size ≤ (filledData e.1 m s.1 e.2).size ∨
      writeAt e.2.append (filledData e.1 m s.1 e.2) e.2.pos =
        writeAt e.2.append s.1.upperData e.2.pos := by
  cases happ : e.2.append with
  | false => exact .inr rfl
  | true =>
    rw [filledData, h.lowerAt]
    by_cases hc : m.cells s.1.oi.blockCount = .uncopy
    · refine .inl ((size_le_fill_iff h0).mpr (.inr ?_))
      rw [copyRanges, if_pos happ, if_pos hc, h.blockCount hcow]
      exact ⟨_, List.mem_singleton_self _, lastBlock_reaches h0 hmax⟩
    · rw [copyRanges, if_pos happ, if_neg hc]
      exact .inr rfl

/-- The sizes after a request stored its data at `at_` of the contents `base`. -/
theorem SizeInv.stored {base : File} {at_ : ℕ} {g : OvlFile} {R : Prop} (h : SizeInv lower s)
    (hdata : e.2.data ≠ []) (hbase : base.size ≤ max s.1.upperData.size lower.size)
    (hgrow : s.1.upperData.size ≤ base.size)
    (hreach : lower.size ≤ base.size ↔ lower.size ≤ s.1.upperData.size ∨ R)
    (hat : lower.size ≤ base.size ∨ at_ = writeAt e.2.append s.1.upperData e.2.pos)
    (hg : g.upperData = base.write at_ e.2.data) :
    max s.2 (at_ + e.2.data.length) ≤ g.upperData.size ∧
      g.upperData.size ≤ max lower.size (max s.2 (at_ + e.2.data.length)) ∧
      (lower.size ≤ g.upperData.size ↔ lower.size ≤ s.1.upperData.size ∨
        lower.size ≤ writeAt e.2.append s.1.upperData e.2.pos + e.2.data.length ∨ R) := by
  have hle := h.size_le
  have hwr := h.written_le
  rw [hg, write_size_of_ne_nil _ _ hdata]
  refine ⟨by omega, by omega, ?_⟩
  rw [le_max_iff, hreach]
  constructor
  · rintro ((hl | hr) | hl)
    · exact .inl hl
    · exact .inr (.inr hr)
    · obtain hb | rfl := hat
      · rcases hreach.mp hb with hl | hr
        · exact .inl hl
        · exact .inr (.inr hr)
      · exact .inr (.inl hl)
  · rintro (hl | hl | hr)
    · exact .inl (.inl hl)
    · obtain hb | rfl := hat
      · exact .inl (hreach.mp hb)
      · exact .inr hl
    · exact .inl (.inr hr)

/-- One write: the invariant is kept, `i_size` is the size of the upper file, and
that file reaches the lower end if it did before or the write reaches it. -/
theorem SizeStep.spec (h : SizeInv lower s) (h0 : 0 < lower.size) (hmax : lower.size < 2 ^ 63)
    (hs : SizeStep s e t) :
    SizeInv lower t ∧ t.1.oi.iSize = t.1.upperData.size ∧
      (lower.size ≤ t.1.upperData.size ↔
        lower.size ≤ s.1.upperData.size ∨ ReachesEnd lower.size s.1 e) := by
  obtain ⟨hdata, r, hr, hret, rfl⟩ := hs
  have hup := h.copied.upper_isSome
  have hcopied := h.copied.writes ⟨r, hr, rfl⟩
  -- Both kinds of request end with a write of the whole data over some contents.
  have hfinish : ∀ {base data : File} {at_ : ℕ} {R : Prop},
      (ReachesEnd lower.size s.1 e ↔
        lower.size ≤ writeAt e.2.append s.1.upperData e.2.pos + e.2.data.length ∨ R) →
      Updated data s.1 r.file → data = base.write at_ e.2.data → r.pos = at_ + e.2.data.length →
      (r.file.oi.cowStatus = true → s.1.oi.cowStatus = true) →
      base.size ≤ max s.1.upperData.size lower.size → s.1.upperData.size ≤ base.size →
      (lower.size ≤ base.size ↔ lower.size ≤ s.1.upperData.size ∨ R) →
      (lower.size ≤ base.size ∨ at_ = writeAt e.2.append s.1.upperData e.2.pos) →
      SizeInv lower (r.file, max s.2 r.pos) ∧ r.file.oi.iSize = r.file.upperData.size ∧
        (lower.size ≤ r.file.upperData.size ↔
          lower.size ≤ s.1.upperData.size ∨ ReachesEnd lower.size s.1 e) := by
    intro base data at_ R hR hfile hd hpos hcow hbase hgrow hreach hat
    have hg := hfile.upperData_eq hup
    obtain ⟨h₁, h₂, h₃⟩ := h.stored hdata hbase hgrow hreach hat (hg.trans hd)
    rw [← hpos] at h₁ h₂
    refine ⟨⟨hcopied, ?_, ?_, h₁, h₂⟩, ?_, ?_⟩
    · rw [← h.lowerAt, OvlFile.lowerAt, OvlFile.lowerAt, hfile.lowerstack]
    · intro hc
      rw [hfile.blockCount]
      exact h.blockCount (hcow hc)
    · rw [hfile.iSize, hg]
    · rw [h₃, hR]
  cases hcow : s.1.oi.cowStatus with
  | true =>
    obtain ⟨m, hm⟩ := Option.isSome_iff_exists.mp h.copied.map
    cases ovlWriteIter_cow hup h.copied.upperdata h.copied.lowerFile hm hcow hdata hr with
    | unprepared data hneg => omega
    | torn n hneg => omega
    | stored n m' hn hle hfull hfail hn' hpos hfile hmark =>
      obtain rfl : n = e.2.data.length := by omega
      rw [storedData, List.take_length] at hfile
      have hfill : filledData e.1 m s.1 e.2 = fill lower s.1.upperData
          (copyRanges e.1.oob s.1.oi m lower.size e.2) := by
        rw [filledData, h.lowerAt]
      refine hfinish (R := ∃ q ∈ copyRanges e.1.oob s.1.oi m lower.size e.2,
          q.1 < lower.size ∧ lower.size ≤ q.1 + q.2) ?_ hfile rfl hpos ?_ ?_ ?_ ?_
        (writeAt_filled h h0 hmax hcow)
      · rw [ReachesEnd]
        refine or_congr_right ⟨?_, fun hq => ⟨hcow, m, hm, hq⟩⟩
        rintro ⟨-, m₁, hm₁, hq⟩
        rw [hm] at hm₁
        cases hm₁
        exact hq
      · exact fun _ => hcow
      · rw [hfill]
        exact fill_size_le _ _ _
      · rw [hfill]
        exact (patchedFrom_fill _ _ _).size_le
      · rw [hfill]
        exact size_le_fill_iff h0
  | false =>
    obtain ⟨hmap, ⟨hneg, -⟩ | ⟨n, hn, hle, hfull, hfail, hn', hpos, hfile⟩⟩ :=
      ovlWriteIter_plain hup h.copied.upperdata h.copied.lowerFile hcow hdata hr
    · omega
    · obtain rfl : n = e.2.data.length := by omega
      rw [List.take_length] at hfile
      refine hfinish (R := False) ?_ hfile rfl hpos ?_ (le_max_left _ _) le_rfl (by simp) (.inr rfl)
      · rw [ReachesEnd, hcow]
        simp
      · rw [hmap.cowStatus]
        exact id

end Step

theorem sizeRun_spec {lower : File} {s t : OvlFile × ℕ}
    {tr : List ((OvlFile × ℕ) × WriteEnv × WriteReq)} (h : SizeInv lower s) (h0 : 0 < lower.size)
    (hmax : lower.size < 2 ^ 63) (hempty : s.1.upperData.size = 0)
    (hrun : Lts.Run SizeStep s tr t) :
    SizeInv lower t ∧ (tr ≠ [] → t.1.oi.iSize = t.1.upperData.size) ∧
      (lower.size ≤ t.1.upperData.size ↔ ∃ p ∈ tr, ReachesEnd lower.size p.1.1 p.2) := by
  induction hrun with
  | nil =>
    refine ⟨h, fun hne => absurd rfl hne, ?_⟩
    rw [hempty]
    simpa using Nat.pos_iff_ne_zero.mp h0
  | snoc _ hstep ih =>
    obtain ⟨hinv, -, hreach⟩ := ih
    obtain ⟨hinv', hsize, hreach'⟩ := hstep.spec hinv h0 hmax
    refine ⟨hinv', fun _ => hsize, ?_⟩
    rw [hreach', hreach]
    simp only [List.mem_append, List.mem_singleton]
    constructor
    · rintro (⟨p, hp, hr⟩ | hr)
      · exact ⟨p, .inl hp, hr⟩
      · exact ⟨_, .inr rfl, hr⟩
    · rintro ⟨p, hp | rfl, hr⟩
      · exact .inl ⟨p, hp, hr⟩
      · exact .inr hr

/-- After a run of writes that store their whole requests, both reported sizes are
the larger of the lower size and the largest end offset written, if and only if one
of the writes reached the end of the lower file. File sizes are `loff_t` values. -/
theorem reported_size_iff {stack : List File} {old : OvlInode} {env : CopyUpEnv} {flags E : ℕ}
    {f₀ f : OvlFile} {tr : List ((OvlFile × ℕ) × WriteEnv × WriteReq)} (hstack : stack ≠ [])
    (hmax : (f₀.lowerAt 0).size < 2 ^ 63)
    (hcopy : ovlCopyUpFlags env (.lookedUp stack old) flags = .ret (0, f₀))
    (hcow : f₀.oi.cowStatus = true) (hrun : Lts.Run SizeStep (f₀, 0) tr (f, E)) :
    (f.oi.iSize = max (f₀.lowerAt 0).size E ∧ ovlGetattrSize f = max (f₀.lowerAt 0).size E) ↔
      ∃ p ∈ tr, ReachesEnd (f₀.lowerAt 0).size p.1.1 p.2 := by
  obtain ⟨h0, addr, linked, rfl⟩ := ovlCopyUpFlags_cow hstack rfl rfl hcopy hcow
  have hinit := sizeInv_freshCow (f := .lookedUp stack old) hstack
    (show FilePtr.First .null from nofun) addr linked
  obtain ⟨hinv, hsize, hreach⟩ := sizeRun_spec hinit h0 hmax rfl hrun
  have hle := hinv.size_le
  have hwr := hinv.written_le
  have hattr : ovlGetattrSize f = f.upperData.size := if_pos hinv.copied.upper_isSome
  rw [hattr]
  change (_ = max ((OvlFile.lookedUp stack old).lowerAt 0).size E ∧
    _ = max ((OvlFile.lookedUp stack old).lowerAt 0).size E) ↔
      ∃ p ∈ tr, ReachesEnd ((OvlFile.lookedUp stack old).lowerAt 0).size p.1.1 p.2
  rw [← hreach]
  constructor
  · rintro ⟨-, hup⟩
    rw [hup]
    exact le_max_left _ _
  · intro hup
    have hne : tr ≠ [] := by
      rintro rfl
      obtain ⟨p, hp, -⟩ := hreach.mp hup
      cases hp
    have hmaxeq : f.upperData.size = max ((OvlFile.lookedUp stack old).lowerAt 0).size E := by
      simp only at hle hwr hup
      omega
    exact ⟨(hsize hne).trans hmaxeq, hmaxeq⟩

/-- A write at the end of the lower file. -/
theorem reported_size_append : ∃ f₀ f E tr,
    ovlCopyUpFlags (.full false) (.lookedUp [ofList [1, 2]] zeroInode) 1 = .ret (0, f₀) ∧
      f₀.oi.cowStatus = true ∧ Lts.Run SizeStep (f₀, 0) tr (f, E) ∧
      f.oi.iSize = max (f₀.lowerAt 0).size E ∧ ovlGetattrSize f = max (f₀.lowerAt 0).size E := by
  have hcopy : ovlCopyUpFlags (.full false) (.lookedUp [ofList [1, 2]] zeroInode) 1 =
      .ret (0, freshCow (.lookedUp [ofList [1, 2]] zeroInode) 0 true) := rfl
  have hstep : ∃ r, ovlWriteIter .full (freshCow (.lookedUp [ofList [1, 2]] zeroInode) 0 true)
      ⟨0, true, [3]⟩ = .ret r ∧ r.ret = ([3] : List UInt8).length := ⟨_, rfl, rfl⟩
  obtain ⟨r, hr, hret⟩ := hstep
  have hrun : Lts.Run SizeStep (freshCow (.lookedUp [ofList [1, 2]] zeroInode) 0 true, 0)
      [((freshCow (.lookedUp [ofList [1, 2]] zeroInode) 0 true, 0), (.full, ⟨0, true, [3]⟩))]
      (r.file, max 0 r.pos) :=
    .snoc .nil ⟨List.cons_ne_nil _ _, r, hr, hret, rfl⟩
  refine ⟨_, _, _, _, hcopy, rfl, hrun, (reported_size_iff (List.cons_ne_nil _ _) (by decide) hcopy
    rfl hrun).mpr ⟨_, List.mem_singleton_self _, .inr ⟨rfl, _, rfl, (0, 2), ?_, ?_⟩⟩⟩
  · decide
  · decide

/-- A file of three blocks after one byte was written to the first one, the upper
file system being able to clone. -/
theorem reported_size_short : ∃ f₀ f tr,
    ovlCopyUpFlags (.full false) (.lookedUp [truncate empty 10000] zeroInode) 1 = .ret (0, f₀) ∧
      f₀.oi.cowStatus = true ∧ Lts.Run SizeStep (f₀, 0) tr (f, 1) ∧
      max (f₀.lowerAt 0).size 1 = 10000 ∧ f.oi.iSize = 4096 ∧ ovlGetattrSize f = 4096 := by
  have hcopied : CopiedUp (freshCow (.lookedUp [truncate empty 10000] zeroInode) 0 true) :=
    copiedUp_freshCow (List.cons_ne_nil _ _) (show FilePtr.First .null from nofun) 0 true
  have hstep : ∃ r, ovlWriteIter { WriteEnv.full with copyEnd := ⟨true, fun _ => .full⟩ }
      (freshCow (.lookedUp [truncate empty 10000] zeroInode) 0 true) ⟨0, false, [9]⟩ = .ret r ∧
      r.ret = 1 ∧ r.pos = 1 := ⟨_, rfl, rfl, rfl⟩
  obtain ⟨r, hr, hret, hpos⟩ := hstep
  have hranges : copyRanges WriteEnv.full.oob
      (freshCow (.lookedUp [truncate empty 10000] zeroInode) 0 true).oi ⟨0, fun _ => .uncopy⟩ 10000
      ⟨0, false, [9]⟩ = [(0, 4096)] := by decide
  have hup : Updated (((empty : File).write 0 ((truncate empty 10000 : File).read 0 4096)).write 0
      [9]) (freshCow (.lookedUp [truncate empty 10000] zeroInode) 0 true) r.file := by
    cases ovlWriteIter_cow hcopied.upper_isSome rfl hcopied.lowerFile rfl rfl
      (List.cons_ne_nil _ _) hr with
    | unprepared data hneg => omega
    | torn n hneg => omega
    | stored n m' hn hle hfull hfail hn' hpos' hfile hmark =>
      obtain rfl : n = 1 := by omega
      change Updated ((fill (truncate empty 10000) empty (copyRanges WriteEnv.full.oob
        (freshCow (.lookedUp [truncate empty 10000] zeroInode) 0 true).oi ⟨0, fun _ => .uncopy⟩
        10000 ⟨0, false, [9]⟩)).write 0 [9]) _ _ at hfile
      rw [hranges] at hfile
      exact hfile
  have hne : (truncate empty 10000 : File).read 0 4096 ≠ [] := by
    rw [Ne, read_eq_nil_iff, truncate_size]
    omega
  have hsize : (((empty : File).write 0 ((truncate empty 10000 : File).read 0 4096)).write 0
      [9]).size = 4096 := by
    rw [write_size_of_ne_nil _ _ (List.cons_ne_nil _ _), write_size_of_ne_nil _ _ hne, length_read,
      truncate_size]
    rfl
  have hsized : SizeStep (freshCow (.lookedUp [truncate empty 10000] zeroInode) 0 true, 0)
      ({ WriteEnv.full with copyEnd := ⟨true, fun _ => .full⟩ }, ⟨0, false, [9]⟩) (r.file, 1) :=
    ⟨List.cons_ne_nil _ _, r, hr, hret, by rw [hpos]; rfl⟩
  refine ⟨freshCow (.lookedUp [truncate empty 10000] zeroInode) 0 true, r.file, _, rfl, rfl,
    .snoc .nil hsized, rfl, ?_, ?_⟩
  · rw [hup.iSize, hsize]
  · rw [ovlGetattrSize, if_pos (hup.upper_isSome hcopied.upper_isSome),
      hup.upperData_eq hcopied.upper_isSome, hsize]

end FzzOverlay

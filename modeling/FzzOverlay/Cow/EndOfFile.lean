import FzzOverlay.Cow.Refinement
import FzzOverlay.File.Position

/-!
# Reads before the end of the content

The upper file of a file in copy-on-write mode has every copied block as far as the lower
file had it (`Covered`). So a read before the end of the content finds a byte, except behind
the end of the lower file in a block that is not copied.
-/

namespace FzzOverlay

open SparseFile

-- ════════════════════════════════════════════════════════════════════════
-- Copied blocks are in the upper file
-- ════════════════════════════════════════════════════════════════════════

/-- The upper file reaches over the lower bytes of every copied block. -/
def Covered (lower : File) (f : OvlFile) : Prop :=
  ∀ i, f.Copied i → i < lower.size → i < f.upperData.size

theorem SameMap.copied_iff {data : File} {f g : OvlFile} (h : SameMap f g)
    (hfile : Updated data f g) (i : ℕ) : g.Copied i ↔ f.Copied i := by
  rw [OvlFile.Copied, OvlFile.Copied, h.cowStatus, hfile.blockCount, h.blockStatus]

theorem Marked.copied {data : File} {f g : OvlFile} {m m' : BlockMap} {first last : ℕ}
    (h : Marked first last m m' f g) (hfile : Updated data f g)
    (hm : f.oi.blockStatus = some m) {i : ℕ} (hi : g.Copied i) :
    f.Copied i ∨ (f.Uncopied i ∧ first ≤ ovlGetBlock i ∧ ovlGetBlock i ≤ last) := by
  obtain ⟨hcow, hle, m₁, hm₁, hcell⟩ := hi
  rw [h.blockStatus] at hm₁
  cases hm₁
  rw [hfile.blockCount] at hle
  have hcow' : f.oi.cowStatus = true := by
    have hc := h.cowStatus
    rw [hcow] at hc
    split at hc
    · cases hc
    · exact hc.symm
  by_cases hun : m.cells (ovlGetBlock i) = .uncopy
  · right
    refine ⟨⟨hcow', hle, m, hm, hun⟩, ?_⟩
    rw [h.cells] at hcell
    by_cases hin : first ≤ ovlGetBlock i ∧ ovlGetBlock i ≤ last ∧
        ovlGetBlock i ≤ f.oi.blockCount ∧ m.cells (ovlGetBlock i) = .uncopy
    · exact ⟨hin.1, hin.2.1⟩
    · rw [if_neg hin] at hcell
      exact absurd hun hcell
  · exact .inl ⟨hcow', hle, m, hm, hun⟩

section Covered

variable {lower X : File} {f g : OvlFile} {env : WriteEnv} {req : WriteReq}

theorem Covered.patched {data : File} {P : ℕ → Prop} (hc : Covered lower f)
    (hup : f.upper.isSome) (hmap : SameMap f g) (hfile : Updated data f g)
    (hp : PatchedFrom P lower f.upperData data) : Covered lower g := by
  intro i hi hlt
  rw [hfile.upperData_eq hup]
  exact lt_of_lt_of_le (hc i ((hmap.copied_iff hfile i).mp hi) hlt) hp.size_le

/-- A request whose data was stored from offset `at_` on. -/
theorem Covered.stored {m m' : BlockMap} (hc : Covered lower f) (h : Tracks lower X f)
    (hmax : lower.size ≤ MAX_COW_SIZE) (hm : f.oi.blockStatus = some m) (hdata : req.data ≠ [])
    (hfile : Updated (storedData env m f req req.data.length) f g)
    (hmark : Marked (blockRange f.oi req).1 (blockRange f.oi req).2 m m' f g) :
    Covered lower g := by
  intro i hi hlt
  have hsize : g.upperData.size = max (filledData env m f req).size
      (writeAt req.append (filledData env m f req) req.pos + req.data.length) := by
    rw [hfile.upperData_eq h.upper, storedData, List.take_length, write_size_of_ne_nil _ _ hdata]
  have hfill : f.upperData.size ≤ (filledData env m f req).size :=
    (patchedFrom_fill _ _ _).size_le
  rw [hsize]
  obtain hd | ⟨hu, hfirst, hlast⟩ := hmark.copied hfile hm hi
  · have hold := hc i hd hlt
    omega
  · by_cases hout : req.append = false → i < req.pos ∨ req.pos + req.data.length ≤ i
    · have hin : InRanges (copyRanges env.oob f.oi m lower.size req) i :=
        inRanges_of_marked h.blockCount hmax hm hu hlt hfirst hlast hout
      have hlen : i < (filledData env m f req).size := by
        rw [filledData, h.lowerAt_zero]
        exact lt_fill_size hin hlt
      omega
    · simp only [Classical.not_imp, not_or, not_lt, not_le] at hout
      rw [writeAt, hout.1]
      simp only [Bool.false_eq_true, if_false]
      omega

theorem Covered.write {r : WriteResult} (hc : Covered lower f) (h : Tracks lower X f)
    (hmax : lower.size ≤ MAX_COW_SIZE) (henv : env.wr 0 = .full ∨ ∃ e, env.wr 0 = .fail e)
    (hr : ovlWriteIter env f req = .ret r) : Covered lower r.file := by
  by_cases hdata : req.data = []
  · rw [ovlWriteIter, if_pos hdata] at hr
    cases hr
    exact hc
  cases hcow : f.oi.cowStatus with
  | true =>
    obtain ⟨m, hm, -⟩ := h.map hcow
    cases ovlWriteIter_cow h.upper h.upperdata h.lowerFile hm hcow hdata hr with
    | unprepared data hret hpatch hfile hmap =>
      rw [h.lowerAt_zero] at hpatch
      exact hc.patched h.upper hmap hfile hpatch
    | torn n hret hn hfull hfail hfile hmap =>
      obtain he | ⟨e, he⟩ := henv
      · exact absurd he hfull
      · obtain rfl := hfail e he
        rw [storedData, List.take_zero, write_nil, filledData, h.lowerAt_zero] at hfile
        exact hc.patched h.upper hmap hfile (patchedFrom_fill _ _ _)
    | stored n m' hn hle hfull hfail hret hpos hfile hmark =>
      obtain he | ⟨e, he⟩ := henv
      · obtain rfl := hfull he
        exact hc.stored h hmax hm hdata hfile hmark
      · exact absurd he (hfail e)
  | false =>
    obtain ⟨hmap, -⟩ := ovlWriteIter_plain h.upper h.upperdata h.lowerFile hcow hdata hr
    intro i hi
    have hoff := hi.1
    rw [hmap.cowStatus, hcow] at hoff
    cases hoff

theorem covered_of_copyUp {old : OvlInode} {cenv : CopyUpEnv} {flags : ℕ}
    (hcopy : ovlCopyUpFlags cenv (.lookedUp [lower] old) flags = .ret (0, f))
    (hcow : f.oi.cowStatus = true) : Covered lower f := by
  obtain ⟨-, addr, linked, rfl⟩ :=
    ovlCopyUpFlags_cow (List.cons_ne_nil lower []) rfl rfl hcopy hcow
  rintro i ⟨-, -, m, hm, hcell⟩
  cases hm
  exact absurd rfl hcell

end Covered

-- ════════════════════════════════════════════════════════════════════════
-- A read that finds a byte does not return 0
-- ════════════════════════════════════════════════════════════════════════

/-- The pass delivered `n` bytes in all, or ends with an error. -/
def Pass.AtLeast (n : ℕ) : Pass → Prop
  | .again s => n ≤ s.ret
  | .done ret _ => n ≤ ret ∨ ret < 0
  | .oops => True

section AtLeast

variable {env : ReadEnv} {f : OvlFile} {s : ReadState} {n : ℕ}

theorem atLeast_useUpper {k : File → ReadState → Pass}
    (hk : ∀ oi, (k f.upperData { s with oi := oi }).AtLeast n) :
    (useUpper env f s k).AtLeast n := by
  obtain h | ⟨e, oi, h⟩ | ⟨oi, -, h⟩ := useUpper_cases env f s k
  · rw [h]
    trivial
  · rw [h]
    exact .inr e.ret_neg
  · rw [h]
    exact hk oi

theorem atLeast_useLower {k : File → ReadState → Pass}
    (hk : ∀ oi, (k (f.readLower s.oi) { s with oi := oi }).AtLeast n) :
    (useLower env f s k).AtLeast n := by
  obtain h | ⟨e, oi, h⟩ | ⟨oi, -, h⟩ := useLower_cases env f s k
  · rw [h]
    trivial
  · rw [h]
    exact .inr e.ret_neg
  · rw [h]
    exact hk oi

theorem atLeast_tailPass (henv : env.Complete) (file : File)
    (h : n ≤ s.ret + (file.read s.pos s.count).length) : (tailPass env file s).AtLeast n := by
  rw [tailPass_complete henv]
  exact .inl (by exact_mod_cast h)

theorem atLeast_copiedPass {c : ℕ} (file : File) (h : n ≤ (readLoop env file c c s).1.ret) :
    (copiedPass env c file s).AtLeast n := by
  rw [copiedPass]
  revert h
  obtain ⟨s', x⟩ := readLoop env file c c s
  intro h
  cases x with
  | drained => exact h
  | failed => exact h
  | atEnd =>
    simp only
    split
    · exact .inl (by exact_mod_cast h)
    · exact h

theorem atLeast_uncopiedPass {c : ℕ} (file : File) (h : n ≤ (readLoop env file c c s).1.ret) :
    (uncopiedPass env c file s).AtLeast n := by
  rw [uncopiedPass]
  revert h
  obtain ⟨s', x⟩ := readLoop env file c c s
  intro h
  cases x with
  | drained => exact h
  | failed => exact h
  | atEnd => exact h

theorem ret_le_readLoop (env : ReadEnv) (file : File) (c : ℕ) (s : ReadState) :
    s.ret ≤ (readLoop env file c c s).1.ret := by
  obtain ⟨-, -, bs, -, -, -, -, hret, -⟩ := readLoop_advanced env file c c s
  omega

/-- What was delivered is not lost, if no read fails. -/
theorem blockReadPass_atLeast (henv : env.Complete) (hn : n ≤ s.ret) :
    (blockReadPass env f s).AtLeast n := by
  rw [blockReadPass]
  split
  · exact atLeast_useUpper fun oi => atLeast_tailPass henv _ (le_trans hn (Nat.le_add_right _ _))
  · split
    · trivial
    · split
      · exact atLeast_useUpper fun oi =>
          atLeast_copiedPass _ (le_trans hn (ret_le_readLoop env _ _ { s with oi := oi }))
      · split
        · exact .inl (by exact_mod_cast hn)
        · exact atLeast_useLower fun oi =>
            atLeast_uncopiedPass _ (le_trans hn (ret_le_readLoop env _ _ { s with oi := oi }))

theorem readLoop_ret_pos (henv : env.Complete) {file : File} {c : ℕ} (hc : 0 < c)
    (hpos : s.pos < file.size) : s.ret + 1 ≤ (readLoop env file c c s).1.ret := by
  rw [readLoop_complete henv]
  obtain ⟨calls, hst, -⟩ := readLoop_full file s hc
  rw [hst]
  have hlen := length_read file s.pos c
  simp only [ReadState.after]
  omega

/-- A pass that finds a byte delivers it. -/
theorem blockReadPass_finds (henv : env.Complete) (hs : Reopened f f.oi s.oi)
    (hcow : f.oi.cowStatus = true) (hend : s.lowerEnd = false) (hcount : 0 < s.count)
    (hmap : f.oi.blockStatus.isSome) (h : (f.served s.pos).isSome) :
    (blockReadPass env f s).AtLeast (s.ret + 1) := by
  obtain ⟨v, hv⟩ := Option.isSome_iff_exists.mp h
  have hchunk := chunk_pos s.pos hcount
  obtain hu | hd | hp := OvlFile.block_cases hmap hcow s.pos
  · rw [OvlFile.served_of_uncopied hu, get?_eq_some_iff] at hv
    rw [blockReadPass_of_uncopied env hs hu, if_neg (by simp [hend])]
    refine atLeast_useLower fun oi => atLeast_uncopiedPass _ ?_
    rw [hs.readLower]
    exact readLoop_ret_pos (s := { s with oi := oi }) henv hchunk hv.1
  · rw [OvlFile.served_of_copied hd, get?_eq_some_iff] at hv
    rw [blockReadPass_of_copied env hs hd]
    refine atLeast_useUpper fun oi => atLeast_copiedPass _ ?_
    exact readLoop_ret_pos (s := { s with oi := oi }) henv hchunk hv.1
  · rw [OvlFile.served_of_past hcow hp, get?_eq_some_iff] at hv
    rw [blockReadPass_of_past env hs hp]
    refine atLeast_useUpper fun oi => atLeast_tailPass henv _ ?_
    simp only [length_read]
    omega

theorem blockReadLoop_atLeast {fuel : ℕ} {res : ReadResult} (henv : env.Complete)
    (hn : n ≤ s.ret) (h : blockReadLoop env f fuel s = .ret res) : n ≤ res.ret ∨ res.ret < 0 := by
  induction fuel generalizing s with
  | zero => cases h
  | succ fuel ih =>
    by_cases hz : s.count = 0
    · rw [blockReadLoop, if_pos hz] at h
      cases h
      exact .inl (Int.ofNat_le.mpr hn)
    · rw [blockReadLoop, if_neg hz] at h
      have hpass : (blockReadPass env f s).AtLeast n := blockReadPass_atLeast henv hn
      cases hp : blockReadPass env f s with
      | again s' =>
        rw [hp] at h hpass
        exact ih hpass h
      | done ret s' =>
        rw [hp] at h hpass
        cases h
        exact hpass
      | oops =>
        rw [hp] at h
        cases h

/-- A request that finds a byte at its start does not return 0. -/
theorem blockReadIter_ne_zero {fuel pos count : ℕ} {res : ReadResult} (henv : env.Complete)
    (hcow : f.oi.cowStatus = true) (hmap : f.oi.blockStatus.isSome) (hcount : 0 < count)
    (hserved : (f.served pos).isSome) (h : blockReadIter fuel env f pos count = .ret res) :
    res.ret ≠ 0 := by
  cases fuel with
  | zero => cases h
  | succ fuel =>
    rw [blockReadIter, blockReadLoop, if_neg (Nat.ne_of_gt hcount)] at h
    have hpass := blockReadPass_finds (s := ⟨f.oi, pos, count, 0, false, [], 0⟩) henv
      (.refl f f.oi) hcow rfl hcount hmap hserved
    cases hp : blockReadPass env f ⟨f.oi, pos, count, 0, false, [], 0⟩ with
    | again s' =>
      rw [hp] at h hpass
      have := blockReadLoop_atLeast henv hpass h
      omega
    | done ret s' =>
      rw [hp] at h hpass
      cases h
      obtain hge | hlt := hpass
      · simp only at hge ⊢
        omega
      · exact hlt.ne
    | oops =>
      rw [hp] at h
      cases h

/-- A request that starts in an uncopied block does not return if `lower_file` holds an error
value. -/
theorem lowerFile_usable_of_ret {fuel pos count : ℕ} {res : ReadResult} (hu : f.Uncopied pos)
    (hcount : 0 < count) (h : blockReadIter fuel env f pos count = .ret res) :
    f.oi.lowerFile.Usable := by
  cases fuel with
  | zero => cases h
  | succ fuel =>
    cases hptr : f.oi.lowerFile with
    | null => trivial
    | opened idx => trivial
    | err e =>
      have hoops : ∀ k, useLower env f ⟨f.oi, pos, count, 0, false, [], 0⟩ k = .oops := by
        intro k
        rw [useLower, hptr]
        split
        · rfl
        · rfl
      rw [blockReadIter, blockReadLoop, if_neg (Nat.ne_of_gt hcount),
        blockReadPass_of_uncopied env (.refl f f.oi) hu, if_neg (by simp), hoops] at h
      cases h

end AtLeast

/-- Before the end of the content every offset has a byte, except behind the end of the lower
file in an uncopied block. -/
theorem Tracks.served_isSome {lower X : File} {f : OvlFile} {pos : ℕ} (h : Tracks lower X f)
    (hmax : lower.size ≤ MAX_COW_SIZE) (hc : Covered lower f) (hcow : f.oi.cowStatus = true)
    (hpos : pos < X.size) (hend : ¬ (f.Uncopied pos ∧ lower.size ≤ pos)) :
    (f.served pos).isSome := by
  obtain ⟨m, hm, -⟩ := h.map hcow
  obtain ⟨hbc, h0⟩ := h.blockCount hcow
  have hlast : lower.size ≤ f.oi.blockCount * BLOCK_SIZE := by
    rw [hbc]
    exact (countBlocks_bounds h0 hmax).2.2.2
  have hupper : lower.size ≤ pos → pos < f.upperData.size := by
    intro hle
    obtain hr | hr := h.reaches
    · omega
    · have := hr.2
      omega
  obtain hu | hd | hp := OvlFile.block_cases (Option.isSome_iff_exists.mpr ⟨m, hm⟩) hcow pos
  · have hlt : pos < lower.size := by
      by_contra hge
      exact hend ⟨hu, Nat.le_of_not_lt hge⟩
    rw [OvlFile.served_of_uncopied hu, h.readLower_eq, get?_of_lt hlt]
    rfl
  · have hlt : pos < f.upperData.size := by
      by_cases hlow : pos < lower.size
      · exact hc pos hd hlow
      · exact hupper (Nat.le_of_not_lt hlow)
    rw [OvlFile.served_of_copied hd, get?_of_lt hlt]
    rfl
  · have hlt : pos < f.upperData.size := by
      refine hupper (le_trans hlast ?_)
      rw [ovlGetBlock_eq] at hp
      rw [BLOCK_SIZE]
      omega
    rw [OvlFile.served_of_past hcow hp, get?_of_lt hlt]
    rfl

/-- In every state a run of writes reaches, a read that starts before the end of the content
never returns 0, if and only if it does not start behind the end of the lower file in an
uncopied block (or the lower file cannot be read at all). -/
theorem read_not_zero_iff {lower X : File} {old : OvlInode} {cenv : CopyUpEnv} {flags : ℕ}
    {f₀ f : OvlFile} {tr : List ((OvlFile × File) × WriteEnv × WriteReq)}
    (hmax : lower.size ≤ 2 ^ 44 - 4096)
    (hcopy : ovlCopyUpFlags cenv (.lookedUp [lower] old) flags = .ret (0, f₀))
    (hcow : f₀.oi.cowStatus = true) (hrun : Lts.Run WriteStep (f₀, lower) tr (f, X))
    {pos count : ℕ} (hpos : pos < X.size) (hcount : 0 < count) :
    (∀ fuel env res, env.Complete → ovlReadIter fuel env f pos count = .ret res →
      res.ret ≠ 0) ↔
      ¬ (f.Uncopied pos ∧ lower.size ≤ pos ∧ f.oi.lowerFile.Usable) := by
  obtain ⟨h, hc⟩ : Tracks lower X f ∧ Covered lower f :=
    hrun.invariant (I := fun s => Tracks lower s.2 s.1 ∧ Covered lower s.1)
      ⟨tracks_of_copyUp hmax hcopy hcow, covered_of_copyUp hcopy hcow⟩ fun s e t hs hw => by
        refine ⟨hw.tracks hmax hs.1, ?_⟩
        obtain ⟨henv, r, hr, rfl⟩ := hw
        exact hs.2.write hs.1 hmax henv hr
  have hstack : f.lowerstack ≠ [] := by
    rw [h.lowerstack]
    exact List.cons_ne_nil _ _
  constructor
  · rintro hne ⟨hu, hend, huse⟩
    obtain ⟨fuel, res, hres, hret, -⟩ :=
      returns_uncopied_end hstack huse hu (by rw [h.readLower_eq]; exact hend) hcount
    exact hne fuel .full res (fun _ => rfl) hres hret
  · intro hcond fuel env res henv hres
    rw [ovlReadIter, if_neg (Nat.ne_of_gt hcount)] at hres
    cases hfd : env.fdget with
    | some e =>
      rw [hfd] at hres
      cases hres
      exact e.ret_neg.ne
    | none =>
      rw [hfd] at hres
      simp only at hres
      cases hon : f.oi.cowStatus with
      | false =>
        rw [if_neg (by simp [hon]), h.realdata_eq, ← h.eq_upperData hon, henv] at hres
        cases hres
        simp only [length_read]
        omega
      | true =>
        rw [if_pos hon] at hres
        obtain ⟨m, hm, -⟩ := h.map hon
        have hmap : f.oi.blockStatus.isSome := Option.isSome_iff_exists.mpr ⟨m, hm⟩
        by_cases hend : f.Uncopied pos ∧ lower.size ≤ pos
        · exact absurd ⟨hend.1, hend.2, lowerFile_usable_of_ret hend.1 hcount hres⟩ hcond
        · exact blockReadIter_ne_zero henv hon hmap hcount
            (h.served_isSome hmax hc hon hpos hend) hres

/-- A byte is appended to the second block. A read in the first one, which is not copied, returns
and finds the byte of the lower file. -/
theorem read_not_zero_written : ∃ r,
    ovlWriteIter .full twoBlockCow ⟨4097, false, [9]⟩ = .ret r ∧ r.file.Uncopied 4095 ∧
      (∃ res, ovlReadIter 2 .full r.file 4095 1 = .ret res) ∧ ∀ fuel env res, env.Complete →
        ovlReadIter fuel env r.file 4095 1 = .ret res → res.ret ≠ 0 := by
  obtain ⟨r, hr, hret, hun, hread⟩ : ∃ r,
      ovlWriteIter .full twoBlockCow ⟨4097, false, [9]⟩ = .ret r ∧ r.ret = 1 ∧
        r.file.Uncopied 4095 ∧ ∃ res, ovlReadIter 2 .full r.file 4095 1 = .ret res := by
    refine ⟨_, rfl, rfl, ⟨rfl, ?_, _, rfl, ?_⟩, _, rfl⟩
    · decide
    · decide
  have hrun : Lts.Run WriteStep (twoBlockCow, twoBlocks)
      [((twoBlockCow, twoBlocks), (.full, ⟨4097, false, [9]⟩))]
      (r.file, twoBlocks.write 4097 [9]) := by
    refine .snoc .nil ⟨.inl rfl, r, hr, ?_⟩
    rw [hret]
    rfl
  refine ⟨r, hr, hun, hread, (read_not_zero_iff (by decide) twoBlockCow_copyUp rfl hrun
    (show 4095 < (twoBlocks.write 4097 [9]).size by decide) Nat.one_pos).mpr ?_⟩
  rintro ⟨-, h, -⟩
  exact absurd h (by decide)

/-- A byte is written past the map. A read in the gap before it, behind the end of the lower
file, returns 0. -/
theorem read_zero_in_gap : ∃ r,
    ovlWriteIter .full twoBlockCow ⟨9000, false, [9]⟩ = .ret r ∧ r.ret = 1 ∧
      Lts.Run WriteStep (twoBlockCow, twoBlocks)
        [((twoBlockCow, twoBlocks), (.full, ⟨9000, false, [9]⟩))]
        (r.file, twoBlocks.write 9000 [9]) ∧
      4097 < (twoBlocks.write 9000 [9]).size ∧ Returns r.file 4097 1 0 [] := by
  obtain ⟨r, hr, hret, hstack, hfile, hun⟩ : ∃ r,
      ovlWriteIter .full twoBlockCow ⟨9000, false, [9]⟩ = .ret r ∧ r.ret = 1 ∧
        r.file.lowerstack = [twoBlocks] ∧ r.file.oi.lowerFile = .opened 0 ∧
        r.file.Uncopied 4097 := by
    refine ⟨_, rfl, rfl, rfl, rfl, rfl, ?_, _, rfl, ?_⟩
    · decide
    · decide
  refine ⟨r, hr, hret, .snoc .nil ⟨.inl rfl, r, hr, ?_⟩, by decide, ?_⟩
  · rw [hret]
    rfl
  · refine returns_uncopied_end (by simp [hstack]) ?_ hun ?_ Nat.one_pos
    · rw [hfile]
      trivial
    · have hlow : r.file.readLower r.file.oi = twoBlocks := by
        simp [OvlFile.readLower, hfile, OvlFile.lowerAt, hstack]
      rw [hlow]
      decide

end FzzOverlay

import FzzOverlay.Cow.Shape
import FzzOverlay.File.Cache

/-!
# Which reads terminate

The outer loop of `block_read_iter` goes round as long as bytes are missing. A pass over a
copied block that finds the end of the upper file delivers nothing and goes round again,
unless the end of the lower file was met before.
-/

namespace FzzOverlay

open SparseFile

-- ════════════════════════════════════════════════════════════════════════
-- Passes with reads that are complete and opens that may fail
-- ════════════════════════════════════════════════════════════════════════

/-- Every `vfs_iter_read` returns what the file has of its range. Opens may fail. -/
def ReadEnv.Complete (env : ReadEnv) : Prop := ∀ k, env.rd k = .full

/-- During a request a cached file opens exactly when it did at its start. -/
structure OpensAlike (env : ReadEnv) (f : OvlFile) (oi : OvlInode) : Prop where
  upper : oi.upperFile.Opens env.openUpper ↔ f.oi.upperFile.Opens env.openUpper
  lower : oi.lowerFile.Opens env.openLower ↔ f.oi.lowerFile.Opens env.openLower

section Passes

variable {env : ReadEnv} {f : OvlFile} {s : ReadState}

theorem FilePtr.ofOpen_opens_iff (o : Option Errno) (idx : ℕ) :
    (FilePtr.ofOpen o idx).Opens o ↔ FilePtr.null.Opens o := by
  cases o with
  | none => exact ⟨fun _ => rfl, fun _ => trivial⟩
  | some e => exact ⟨False.elim, nofun⟩

theorem opensKeep_alike (env : ReadEnv) (f : OvlFile) : OpensKeep env f (OpensAlike env f) where
  upper oi h hnull := by
    refine ⟨?_, h.lower⟩
    rw [← h.upper, hnull]
    exact FilePtr.ofOpen_opens_iff _ _
  lower oi h hnull := by
    refine ⟨h.upper, ?_⟩
    rw [← h.lower, hnull]
    exact FilePtr.ofOpen_opens_iff _ _

theorem readLoop_complete (henv : env.Complete) (file : File) (fuel c : ℕ) (s : ReadState) :
    readLoop env file fuel c s = readLoop .full file fuel c s := by
  induction fuel generalizing c s with
  | zero => rfl
  | succ fuel ih =>
    rw [readLoop, readLoop, henv, show ReadEnv.full.rd s.calls = .full from rfl]
    simp only [ih]

theorem copiedPass_complete (henv : env.Complete) (c : ℕ) :
    copiedPass env c = copiedPass .full c := by
  funext file s
  rw [copiedPass, copiedPass, readLoop_complete henv]

theorem uncopiedPass_complete (henv : env.Complete) (c : ℕ) :
    uncopiedPass env c = uncopiedPass .full c := by
  funext file s
  rw [uncopiedPass, uncopiedPass, readLoop_complete henv]

theorem tailPass_complete (henv : env.Complete) : tailPass env = tailPass .full := by
  funext file s
  rw [tailPass, tailPass, henv, show ReadEnv.full.rd s.calls = .full from rfl]

theorem useUpper_opens (h : s.oi.upperFile.Opens env.openUpper) (k : File → ReadState → Pass) :
    useUpper env f s k = useUpper .full f s k := by
  rw [useUpper, useUpper]
  cases hp : s.oi.upperFile with
  | null =>
    rw [hp] at h
    rw [show env.openUpper = none from h]
    rfl
  | opened idx => rfl
  | err e => rfl

theorem useLower_opens (h : s.oi.lowerFile.Opens env.openLower) (k : File → ReadState → Pass) :
    useLower env f s k = useLower .full f s k := by
  rw [useLower, useLower]
  cases hp : s.oi.lowerFile with
  | null =>
    rw [hp] at h
    rw [show env.openLower = none from h]
    rfl
  | opened idx => rfl
  | err e => rfl

theorem useUpper_not_again (h : ¬ s.oi.upperFile.Opens env.openUpper)
    (k : File → ReadState → Pass) (s' : ReadState) : useUpper env f s k ≠ .again s' := by
  unfold useUpper
  split
  · exact nofun
  · split
    · next hnull ho =>
      rw [hnull, ho] at h
      exact absurd rfl h
    · exact nofun
    · next hp =>
      rw [hp] at h
      exact absurd trivial h
    · exact nofun

theorem useLower_not_again (h : ¬ s.oi.lowerFile.Opens env.openLower)
    (k : File → ReadState → Pass) (s' : ReadState) : useLower env f s k ≠ .again s' := by
  unfold useLower
  split
  · exact nofun
  · split
    · next hnull ho =>
      rw [hnull, ho] at h
      exact absurd rfl h
    · exact nofun
    · next hp =>
      rw [hp] at h
      exact absurd trivial h
    · exact nofun

theorem Live.uncopied_iff {m : BlockMap} (hs : Live f s.oi) (hcow : f.oi.cowStatus = true)
    (hin : ¬ s.oi.blockCount < ovlGetBlock s.pos) (hm : s.oi.blockStatus = some m) :
    f.Uncopied s.pos ↔ m.cells (ovlGetBlock s.pos) = .uncopy := by
  rw [hs.reopened.blockCount] at hin
  rw [hs.reopened.blockStatus] at hm
  constructor
  · rintro ⟨-, -, m', hm', hcell⟩
    rw [hm] at hm'
    cases hm'
    exact hcell
  · intro hcell
    exact ⟨hcow, Nat.le_of_not_lt hin, m, hm, hcell⟩

/-- While the files a pass needs can be opened, it is the pass of a VFS that does not fail. -/
theorem blockReadPass_complete (henv : env.Complete) (hcow : f.oi.cowStatus = true)
    (hs : Live f s.oi) (hup : ¬ f.Uncopied s.pos → s.oi.upperFile.Opens env.openUpper)
    (hlow : f.Uncopied s.pos → s.lowerEnd = false → s.oi.lowerFile.Opens env.openLower) :
    blockReadPass env f s = blockReadPass .full f s := by
  rw [blockReadPass, blockReadPass, tailPass_complete henv, copiedPass_complete henv,
    uncopiedPass_complete henv]
  by_cases hpast : s.oi.blockCount < ovlGetBlock s.pos
  · rw [if_pos hpast, if_pos hpast]
    refine useUpper_opens (hup (OvlFile.not_uncopied_of_past ?_)) _
    rwa [← hs.reopened.blockCount]
  rw [if_neg hpast, if_neg hpast]
  cases hm : s.oi.blockStatus with
  | none => rfl
  | some m =>
    have hiff := hs.uncopied_iff hcow hpast hm
    simp only
    by_cases hcell : m.cells (ovlGetBlock s.pos) = .uncopy
    · rw [if_neg (not_ne_iff.mpr hcell), if_neg (not_ne_iff.mpr hcell)]
      by_cases hend : s.lowerEnd = true
      · rw [if_pos hend, if_pos hend]
      · rw [if_neg hend, if_neg hend]
        exact useLower_opens (hlow (hiff.mpr hcell) (by simpa using hend)) _
    · rw [if_pos hcell, if_pos hcell]
      exact useUpper_opens (hup fun h => hcell (hiff.mp h)) _

/-- A pass that cannot open the file it needs does not go round. -/
theorem blockReadPass_not_again (hcow : f.oi.cowStatus = true) (hs : Live f s.oi)
    (h : (¬ f.Uncopied s.pos ∧ ¬ s.oi.upperFile.Opens env.openUpper) ∨
      (f.Uncopied s.pos ∧ ¬ s.oi.lowerFile.Opens env.openLower)) (s' : ReadState) :
    blockReadPass env f s ≠ .again s' := by
  rw [blockReadPass]
  by_cases hpast : s.oi.blockCount < ovlGetBlock s.pos
  · have hno : ¬ f.Uncopied s.pos := by
      refine OvlFile.not_uncopied_of_past ?_
      rwa [← hs.reopened.blockCount]
    rw [if_pos hpast]
    exact useUpper_not_again (h.resolve_right fun h => hno h.1).2 _ _
  rw [if_neg hpast]
  cases hm : s.oi.blockStatus with
  | none =>
    intro h
    cases h
  | some m =>
    have hiff := hs.uncopied_iff hcow hpast hm
    simp only
    by_cases hcell : m.cells (ovlGetBlock s.pos) = .uncopy
    · rw [if_neg (not_ne_iff.mpr hcell)]
      have hlow := (h.resolve_left fun h => h.1 (hiff.mpr hcell)).2
      split
      · intro h
        cases h
      · exact useLower_not_again hlow _ _
    · rw [if_pos hcell]
      exact useUpper_not_again (h.resolve_right fun h => hcell (hiff.mp h.1)).2 _ _

/-- The overlay inode in a running request. -/
structure Running (env : ReadEnv) (f : OvlFile) (oi : OvlInode) : Prop where
  live : Live f oi
  opens : OpensAlike env f oi

theorem Running.refl (env : ReadEnv) (f : OvlFile) : Running env f f.oi :=
  ⟨.refl f, ⟨.rfl, .rfl⟩⟩

theorem Running.of_again {s' : ReadState} (hs : Running env f s.oi) (hlive : Live f s'.oi)
    (h : blockReadPass env f s = .again s') : Running env f s'.oi := by
  have hleaves := blockReadPass_leaves (opensKeep_alike env f) hs.opens
  rw [h] at hleaves
  exact ⟨hlive, hleaves⟩

theorem runningPass_copied (henv : env.Complete) (hup : f.upper.isSome)
    (hopen : f.oi.upperFile.Opens env.openUpper) (hs : Running env f s.oi)
    (hend : s.lowerEnd = false) (hcount : 0 < s.count) (hb : f.Copied s.pos) :
    ∃ oi calls, Running env f oi ∧ blockReadPass env f s =
      .again (s.after (f.upperData.read s.pos (chunk s.pos s.count)) oi calls) := by
  obtain ⟨oi, calls, hlive, hpass⟩ :=
    blockReadPass_copied hup hopen.usable hs.live hend hcount hb
  rw [← blockReadPass_complete henv hb.1 hs.live (fun _ => hs.opens.upper.mpr hopen)
    fun hu => absurd hu hb.not_uncopied] at hpass
  exact ⟨oi, calls, hs.of_again hlive hpass, hpass⟩

theorem runningPass_uncopied (henv : env.Complete) (hstack : f.lowerstack ≠ [])
    (hopen : f.oi.lowerFile.Opens env.openLower) (hs : Running env f s.oi)
    (hend : s.lowerEnd = false) (hcount : 0 < s.count) (hb : f.Uncopied s.pos) :
    ∃ oi calls, Running env f oi ∧ blockReadPass env f s =
      .again { s.after ((f.readLower f.oi).read s.pos (chunk s.pos s.count)) oi calls with
        lowerEnd := decide (((f.readLower f.oi).read s.pos (chunk s.pos s.count)).length ≠
          chunk s.pos s.count) } := by
  obtain ⟨oi, calls, hlive, hpass⟩ :=
    blockReadPass_uncopied hstack hopen.usable hs.live hend hcount hb
  rw [← blockReadPass_complete henv hb.1 hs.live (fun h => absurd hb h)
    fun _ _ => hs.opens.lower.mpr hopen] at hpass
  exact ⟨oi, calls, hs.of_again hlive hpass, hpass⟩

theorem runningPass_uncopied_end (henv : env.Complete) (hs : Running env f s.oi)
    (hend : s.lowerEnd = true) (hb : f.Uncopied s.pos) :
    blockReadPass env f s = .done s.ret s := by
  rw [blockReadPass_complete henv hb.1 hs.live (fun h => absurd hb h) fun _ h => by
    rw [hend] at h
    cases h]
  exact blockReadPass_uncopied_end hs.live hend hb

theorem runningPass_past (henv : env.Complete) (hcow : f.oi.cowStatus = true)
    (hup : f.upper.isSome) (hopen : f.oi.upperFile.Opens env.openUpper)
    (hs : Running env f s.oi) (hb : f.oi.blockCount < ovlGetBlock s.pos) :
    ∃ oi calls, blockReadPass env f s =
      .done (s.ret + (f.upperData.read s.pos s.count).length)
        (s.after (f.upperData.read s.pos s.count) oi calls) := by
  rw [blockReadPass_complete henv hcow hs.live (fun _ => hs.opens.upper.mpr hopen) fun h =>
    absurd h (OvlFile.not_uncopied_of_past hb)]
  exact blockReadPass_past hup hopen.usable hs.live hb

end Passes

-- ════════════════════════════════════════════════════════════════════════
-- Requests that loop
-- ════════════════════════════════════════════════════════════════════════

/-- The request runs into a copied block behind the end of the upper file: the files it needs
on the way can be opened, and it does not meet the end of the lower file before. -/
def Stuck (env : ReadEnv) (f : OvlFile) (pos count : ℕ) : Prop :=
  ∃ i, pos ≤ i ∧ i < pos + count ∧ f.Copied i ∧ f.upperData.size ≤ i ∧
    f.oi.upperFile.Opens env.openUpper ∧
    ∀ k, pos ≤ k → k < i → f.Uncopied k →
      k < (f.readLower f.oi).size ∧ f.oi.lowerFile.Opens env.openLower

theorem chunk_add_le {pos count i : ℕ} (h₁ : pos ≤ i) (h₂ : i < pos + count)
    (hb : ovlGetBlock pos ≠ ovlGetBlock i) : pos + chunk pos count ≤ i := by
  simp only [chunk, ovlGetBlock_eq, BLOCK_SIZE] at hb ⊢
  split <;> omega

/-- Invariant of a request that is on its way to offset `i` and never gets past it. -/
structure Looping (env : ReadEnv) (f : OvlFile) (pos count i : ℕ) (s : ReadState) : Prop where
  running : Running env f s.oi
  lowerEnd : s.lowerEnd = false
  pos_le : pos ≤ s.pos
  le_stop : s.pos ≤ i
  count_eq : s.pos + s.count = pos + count

section Loops

variable {env : ReadEnv} {f : OvlFile} {pos count i : ℕ} {s : ReadState}

theorem Looping.after {bs : List UInt8} {oi : OvlInode} {calls : ℕ}
    (h : Looping env f pos count i s) (hoi : Running env f oi) (hle : bs.length ≤ s.count)
    (hstop : s.pos + bs.length ≤ i) : Looping env f pos count i (s.after bs oi calls) := by
  refine ⟨hoi, h.lowerEnd, ?_, hstop, ?_⟩
  · have := h.pos_le
    simp only [ReadState.after]
    omega
  · have := h.count_eq
    simp only [ReadState.after]
    omega

/-- One pass of a request on its way to a copied offset behind the end of the upper file. -/
theorem blockReadPass_looping (henv : env.Complete) (hup : f.upper.isSome)
    (hstack : f.lowerstack ≠ []) (hi : i < pos + count) (hcopied : f.Copied i)
    (hsize : f.upperData.size ≤ i) (hopen : f.oi.upperFile.Opens env.openUpper)
    (hway : ∀ k, pos ≤ k → k < i → f.Uncopied k →
      k < (f.readLower f.oi).size ∧ f.oi.lowerFile.Opens env.openLower)
    (hs : Looping env f pos count i s) :
    ∃ s', blockReadPass env f s = .again s' ∧ Looping env f pos count i s' := by
  have hend := hs.count_eq
  have hle := hs.le_stop
  have hcount : 0 < s.count := by omega
  have hchunk := chunk_le_count s.pos s.count
  have hin : ovlGetBlock s.pos ≤ f.oi.blockCount :=
    le_trans (ovlGetBlock_mono hle) hcopied.2.1
  obtain ⟨hcow, -, m, hm, -⟩ := id hcopied
  by_cases hcell : m.cells (ovlGetBlock s.pos) = .uncopy
  · have hu : f.Uncopied s.pos := ⟨hcow, hin, m, hm, hcell⟩
    have hne : ovlGetBlock s.pos ≠ ovlGetBlock i := fun hb =>
      hcopied.not_uncopied (hu.of_block_eq hb.symm)
    have hstop : s.pos + chunk s.pos s.count ≤ i := chunk_add_le hle (by omega) hne
    have hpos := chunk_pos s.pos hcount
    -- The lower file reaches over the chunk, so the end of the file is not met in it.
    have hlast : s.pos + chunk s.pos s.count - 1 < (f.readLower f.oi).size :=
      (hway _ (by have := hs.pos_le; omega) (by omega)
        (hu.of_block_eq (ovlGetBlock_chunk (by omega)
          (show _ < s.pos + chunk s.pos s.count by omega)))).1
    have hlen : ((f.readLower f.oi).read s.pos (chunk s.pos s.count)).length =
        chunk s.pos s.count := length_read_of_le (by omega)
    have hlopen := (hway s.pos hs.pos_le (by omega) hu).2
    obtain ⟨oi, calls, hoi, hpass⟩ :=
      runningPass_uncopied henv hstack hlopen hs.running hs.lowerEnd hcount hu
    refine ⟨_, hpass, ?_⟩
    have hnext : Looping env f pos count i
        (s.after ((f.readLower f.oi).read s.pos (chunk s.pos s.count)) oi calls) :=
      hs.after hoi (by omega) (by omega)
    exact ⟨hnext.running, by simp [hlen], hnext.pos_le, hnext.le_stop, hnext.count_eq⟩
  · have hd : f.Copied s.pos := ⟨hcow, hin, m, hm, hcell⟩
    obtain ⟨oi, calls, hoi, hpass⟩ :=
      runningPass_copied henv hup hopen hs.running hs.lowerEnd hcount hd
    refine ⟨_, hpass, hs.after hoi (le_trans (length_read_le _ _ _) hchunk) ?_⟩
    rw [length_read]
    omega

/-- A stuck request never ends. -/
theorem Stuck.running (henv : env.Complete) (hup : f.upper.isSome) (hstack : f.lowerstack ≠ [])
    (h : Stuck env f pos count) (fuel : ℕ) : blockReadIter fuel env f pos count = .running := by
  obtain ⟨i, hpos, hi, hcopied, hsize, hopen, hway⟩ := h
  have hloop : ∀ fuel s, Looping env f pos count i s → blockReadLoop env f fuel s = .running := by
    intro fuel
    induction fuel with
    | zero => exact fun _ _ => rfl
    | succ fuel ih =>
      intro s hs
      have hz : s.count ≠ 0 := by
        have h₁ := hs.count_eq
        have h₂ := hs.le_stop
        omega
      obtain ⟨s', hpass, hs'⟩ :=
        blockReadPass_looping henv hup hstack hi hcopied hsize hopen hway hs
      rw [blockReadLoop, if_neg hz, hpass]
      exact ih s' hs'
  exact hloop fuel _ ⟨.refl env f, rfl, le_rfl, hpos, rfl⟩

end Loops

-- ════════════════════════════════════════════════════════════════════════
-- Requests that end
-- ════════════════════════════════════════════════════════════════════════

/-- Invariant of a request that is not stuck. -/
structure Halting (env : ReadEnv) (f : OvlFile) (pos count : ℕ) (s : ReadState) : Prop where
  running : Running env f s.oi
  pos_le : pos ≤ s.pos
  count_eq : s.pos + s.count = pos + count
  way : s.lowerEnd = false → ∀ k, pos ≤ k → k < s.pos → f.Uncopied k →
    k < (f.readLower f.oi).size ∧ f.oi.lowerFile.Opens env.openLower
  atEnd : s.lowerEnd = true → f.Uncopied s.pos

/-- What every pass that goes round makes smaller. -/
def ReadState.left (s : ReadState) : ℕ := 2 * s.count + if s.lowerEnd then 0 else 1

section Ends

variable {env : ReadEnv} {f : OvlFile} {pos count : ℕ} {s s' : ReadState}

theorem Halting.not_atEnd (h : Halting env f pos count s) (hu : ¬ f.Uncopied s.pos) :
    s.lowerEnd = false := by
  by_contra hend
  exact hu (h.atEnd (by simpa using hend))

theorem halting_uncopied (henv : env.Complete) (hstack : f.lowerstack ≠ [])
    (hs : Halting env f pos count s) (hcount : 0 < s.count) (hu : f.Uncopied s.pos)
    (hpass : blockReadPass env f s = .again s') :
    Halting env f pos count s' ∧ s'.left < s.left := by
  cases hend : s.lowerEnd with
  | true =>
    rw [runningPass_uncopied_end henv hs.running hend hu] at hpass
    cases hpass
  | false =>
    have hopen : f.oi.lowerFile.Opens env.openLower := by
      by_contra hno
      rw [← hs.running.opens.lower] at hno
      exact blockReadPass_not_again hu.1 hs.running.live (.inr ⟨hu, hno⟩) s' hpass
    obtain ⟨oi, calls, hoi, hpass'⟩ :=
      runningPass_uncopied henv hstack hopen hs.running hend hcount hu
    rw [hpass] at hpass'
    cases hpass'
    have hpos := chunk_pos s.pos hcount
    have hchunk := chunk_le_count s.pos s.count
    have hblk : ∀ k, s.pos ≤ k → k < s.pos + chunk s.pos s.count → f.Uncopied k :=
      fun k h₁ h₂ => hu.of_block_eq (ovlGetBlock_chunk h₁ h₂)
    have hlow := hs.pos_le
    have heq := hs.count_eq
    generalize chunk s.pos s.count = c at hpos hchunk hblk ⊢
    have hlen := length_read (f.readLower f.oi) s.pos c
    generalize (f.readLower f.oi).read s.pos c = bs at hlen ⊢
    by_cases hfull : bs.length = c
    · refine ⟨⟨hoi, ?_, ?_, ?_, ?_⟩, ?_⟩
      · exact le_trans hlow (Nat.le_add_right _ _)
      · simp only [ReadState.after]
        omega
      · intro _ k h₁ h₂ hk
        by_cases hold : k < s.pos
        · exact hs.way hend k h₁ hold hk
        · simp only [ReadState.after] at h₂
          exact ⟨by omega, hopen⟩
      · intro h
        simp [hfull] at h
      · simp only [ReadState.left, ReadState.after, hfull, hend, ne_eq, not_true_eq_false,
          decide_false, Bool.false_eq_true, if_false]
        omega
    · refine ⟨⟨hoi, ?_, ?_, ?_, ?_⟩, ?_⟩
      · exact le_trans hlow (Nat.le_add_right _ _)
      · simp only [ReadState.after]
        omega
      · intro h
        simp [hfull] at h
      · intro _
        exact hblk _ (Nat.le_add_right _ _) (by simp only [ReadState.after]; omega)
      · simp only [ReadState.left, ReadState.after, hfull, hend, ne_eq, not_false_eq_true,
          decide_true, Bool.false_eq_true, if_false, if_true]
        omega

theorem halting_copied (henv : env.Complete) (hup : f.upper.isSome)
    (hstuck : ¬ Stuck env f pos count) (hs : Halting env f pos count s) (hcount : 0 < s.count)
    (hd : f.Copied s.pos) (hpass : blockReadPass env f s = .again s') :
    Halting env f pos count s' ∧ s'.left < s.left := by
  have hend := hs.not_atEnd hd.not_uncopied
  have hopen : f.oi.upperFile.Opens env.openUpper := by
    by_contra hno
    rw [← hs.running.opens.upper] at hno
    exact blockReadPass_not_again hd.1 hs.running.live (.inl ⟨hd.not_uncopied, hno⟩) s' hpass
  obtain ⟨oi, calls, hoi, hpass'⟩ :=
    runningPass_copied henv hup hopen hs.running hend hcount hd
  rw [hpass] at hpass'
  cases hpass'
  have hlow := hs.pos_le
  have heq := hs.count_eq
  -- At the end of the upper file the request would be stuck.
  have hlt : s.pos < f.upperData.size := by
    by_contra hge
    exact hstuck ⟨s.pos, hlow, by omega, hd, Nat.le_of_not_lt hge, hopen, hs.way hend⟩
  have hpos := chunk_pos s.pos hcount
  have hchunk := chunk_le_count s.pos s.count
  have hblk : ∀ k, s.pos ≤ k → k < s.pos + chunk s.pos s.count → f.Copied k :=
    fun k h₁ h₂ => hd.of_block_eq (ovlGetBlock_chunk h₁ h₂)
  generalize chunk s.pos s.count = c at hpos hchunk hblk ⊢
  have hlen := length_read f.upperData s.pos c
  generalize f.upperData.read s.pos c = bs at hlen ⊢
  refine ⟨⟨hoi, ?_, ?_, ?_, ?_⟩, ?_⟩
  · exact le_trans hlow (Nat.le_add_right _ _)
  · simp only [ReadState.after]
    omega
  · intro _ k h₁ h₂ hk
    by_cases hold : k < s.pos
    · exact hs.way hend k h₁ hold hk
    · simp only [ReadState.after] at h₂
      exact absurd hk (hblk k (by omega) (by omega)).not_uncopied
  · intro h
    rw [show (s.after bs oi calls).lowerEnd = s.lowerEnd from rfl, hend] at h
    cases h
  · simp only [ReadState.left, ReadState.after, hend, Bool.false_eq_true, if_false]
    omega

theorem not_again_past (henv : env.Complete) (hcow : f.oi.cowStatus = true)
    (hup : f.upper.isSome) (hs : Running env f s.oi) (hb : f.oi.blockCount < ovlGetBlock s.pos) :
    blockReadPass env f s ≠ .again s' := by
  intro hpass
  by_cases hopen : f.oi.upperFile.Opens env.openUpper
  · obtain ⟨oi, calls, hpass'⟩ := runningPass_past henv hcow hup hopen hs hb
    rw [hpass] at hpass'
    cases hpass'
  · rw [← hs.opens.upper] at hopen
    exact blockReadPass_not_again hcow hs.live
      (.inl ⟨OvlFile.not_uncopied_of_past hb, hopen⟩) s' hpass

/-- A request that is not stuck ends. -/
theorem not_running_of_not_stuck (henv : env.Complete) (hcow : f.oi.cowStatus = true)
    (hup : f.upper.isSome) (hstack : f.lowerstack ≠ []) (hmap : f.oi.blockStatus.isSome)
    (hstuck : ¬ Stuck env f pos count) : ∃ fuel, blockReadIter fuel env f pos count ≠ .running := by
  have hloop : ∀ n s, Halting env f pos count s → s.left ≤ n →
      blockReadLoop env f (n + 1) s ≠ .running := by
    intro n
    induction n with
    | zero =>
      intro s _ hn
      rw [blockReadLoop, if_pos (by rw [ReadState.left] at hn; omega)]
      intro h
      cases h
    | succ n ih =>
      intro s hs hn
      rw [blockReadLoop]
      by_cases hz : s.count = 0
      · rw [if_pos hz]
        intro h
        cases h
      rw [if_neg hz]
      have hcount := Nat.pos_of_ne_zero hz
      cases hpass : blockReadPass env f s with
      | again s' =>
        have hnext : Halting env f pos count s' ∧ s'.left < s.left := by
          obtain hu | hd | hp := OvlFile.block_cases hmap hcow s.pos
          · exact halting_uncopied henv hstack hs hcount hu hpass
          · exact halting_copied henv hup hstuck hs hcount hd hpass
          · exact absurd hpass (not_again_past henv hcow hup hs.running hp)
        exact ih s' hnext.1 (by omega)
      | done ret s' =>
        intro h
        cases h
      | oops =>
        intro h
        cases h
  refine ⟨_, hloop _ ⟨f.oi, pos, count, 0, false, [], 0⟩ ?_ le_rfl⟩
  exact ⟨.refl env f, le_rfl, rfl, fun _ k h₁ h₂ => absurd h₁ (Nat.not_le_of_lt h₂),
    fun h => by cases h⟩

end Ends

/-- In every state a run of writes reaches after a copy-up, with the file still in
copy-on-write mode, a read whose `vfs_iter_read` calls return what the files have ends (it
returns, or faults on an error value) if and only if it is not stuck. -/
theorem block_read_terminates_iff {stack : List File} {old : OvlInode} {cenv : CopyUpEnv}
    {flags : ℕ} {f₀ f : OvlFile} {tr : List (OvlFile × WriteEnv × WriteReq)} (hstack : stack ≠ [])
    (hcopy : ovlCopyUpFlags cenv (.lookedUp stack old) flags = .ret (0, f₀))
    (hcow₀ : f₀.oi.cowStatus = true) (hrun : Lts.Run Writes f₀ tr f)
    (hcow : f.oi.cowStatus = true) {env : ReadEnv} (henv : env.Complete) (pos count : ℕ) :
    (∃ fuel, blockReadIter fuel env f pos count ≠ .running) ↔ ¬ Stuck env f pos count := by
  have h : CopiedUp f := hrun.invariant (copiedUp_of_copyUp hstack hcopy hcow₀)
    fun g e g' hg hw => hg.writes hw
  constructor
  · rintro ⟨fuel, hfuel⟩ hstuck
    exact hfuel (hstuck.running henv h.upper_isSome h.lowerstack fuel)
  · exact not_running_of_not_stuck henv hcow h.upper_isSome h.lowerstack h.map

/-- A lower file of two blocks, the second holding the single byte `1`. -/
def twoBlocks : File := SparseFile.empty.write 4096 [1]

/-- That file after the copy-up. -/
def twoBlockCow : OvlFile := freshCow (.lookedUp [twoBlocks] zeroInode) 0 true

theorem twoBlockCow_copyUp :
    ovlCopyUpFlags (.full false) (.lookedUp [twoBlocks] zeroInode) 1 = .ret (0, twoBlockCow) :=
  rfl

/-- A byte is appended to the second block, and then a read goes from the last byte of the first
block, which is not copied, to the new byte. -/
theorem block_read_terminates_written : ∃ r,
    ovlWriteIter .full twoBlockCow ⟨4097, false, [9]⟩ = .ret r ∧ r.file.Copied 4097 ∧
      ∃ fuel, blockReadIter fuel .full r.file 4095 3 ≠ .running := by
  obtain ⟨r, hr, hcow, hsize, hcopied⟩ : ∃ r,
      ovlWriteIter .full twoBlockCow ⟨4097, false, [9]⟩ = .ret r ∧ r.file.oi.cowStatus = true ∧
        r.file.upperData.size = 4098 ∧ r.file.Copied 4097 := by
    refine ⟨_, rfl, rfl, rfl, rfl, ?_, _, rfl, ?_⟩
    · decide
    · decide
  have hrun : Lts.Run Writes twoBlockCow [(twoBlockCow, (.full, ⟨4097, false, [9]⟩))] r.file :=
    .snoc .nil ⟨r, hr, rfl⟩
  refine ⟨r, hr, hcopied, (block_read_terminates_iff (List.cons_ne_nil _ _) twoBlockCow_copyUp rfl
    hrun hcow (fun _ => rfl) 4095 3).mpr ?_⟩
  rintro ⟨i, -, hlt, -, hend, -⟩
  omega

/-- One byte is written to the second block, and then a read asks for the byte behind the end
of the file: it never returns. -/
theorem block_read_loops : ∃ r,
    ovlWriteIter .full twoBlockCow ⟨4096, false, [9]⟩ = .ret r ∧ r.ret = 1 ∧
      r.file.oi.cowStatus = true ∧ r.file.upperData.size = 4097 ∧
      ∀ fuel, blockReadIter fuel .full r.file 4097 1 = .running := by
  obtain ⟨r, hr, hret, hcow, hsize, hup, hstack, hfile, hcopied⟩ : ∃ r,
      ovlWriteIter .full twoBlockCow ⟨4096, false, [9]⟩ = .ret r ∧ r.ret = 1 ∧
        r.file.oi.cowStatus = true ∧ r.file.upperData.size = 4097 ∧ r.file.upper.isSome ∧
        r.file.lowerstack = [twoBlocks] ∧ r.file.oi.upperFile = .opened 0 ∧
        r.file.Copied 4097 := by
    refine ⟨_, rfl, rfl, rfl, rfl, rfl, rfl, rfl, rfl, ?_, _, rfl, ?_⟩
    · decide
    · decide
  refine ⟨r, hr, hret, hcow, hsize, Stuck.running (fun _ => rfl) hup (by simp [hstack]) ?_⟩
  refine ⟨4097, le_rfl, by omega, hcopied, by omega, ?_, fun k h₁ h₂ => by omega⟩
  rw [hfile]
  trivial

end FzzOverlay

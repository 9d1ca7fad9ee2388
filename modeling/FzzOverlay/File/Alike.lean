import FzzOverlay.File.FullRead

/-!
# Reads of files that agree

What a read delivers depends on the block map and on the bytes the map directs it to, not on
the rest of the real files or on which of them are already open. Two files that agree there
give the same result to every read that both complete.
-/

namespace FzzOverlay

open SparseFile

/-- Reads of the two files look at the same bytes. -/
structure ReadsAlike (f g : OvlFile) : Prop where
  cowStatus : g.oi.cowStatus = f.oi.cowStatus
  blockCount : g.oi.blockCount = f.oi.blockCount
  blockStatus : g.oi.blockStatus = f.oi.blockStatus
  lower : g.readLower g.oi = f.readLower f.oi
  upper : ∀ i, ¬ f.Uncopied i → g.upperData.get? i = f.upperData.get? i
  realdata : f.oi.cowStatus = false → g.ovlInodeRealdata = f.ovlInodeRealdata

/-- The pass with another inode in the state it ends with. -/
def Pass.withOi (oi : OvlInode) : Pass → Pass
  | .again s => .again { s with oi := oi }
  | .done ret s => .done ret { s with oi := oi }
  | .oops => .oops

/-- The request faults or returns an error. -/
def Pass.Fails : Pass → Prop
  | .again _ => False
  | .done ret _ => ret < 0
  | .oops => True

-- ════════════════════════════════════════════════════════════════════════
-- One pass
-- ════════════════════════════════════════════════════════════════════════

section Files

variable {env : ReadEnv} {file file' : File} {s : ReadState}

theorem VfsRead.run_congr {o : VfsRead} {pos count : ℕ}
    (h : ∀ i, pos ≤ i → i < pos + count → file'.get? i = file.get? i) :
    o.run file' pos count = o.run file pos count := by
  cases o with
  | full => exact congrArg Except.ok (read_eq_of_get? h)
  | short k =>
    exact congrArg Except.ok (read_eq_of_get? fun i h₁ h₂ => h i h₁ (by omega))
  | fail e => rfl

/-- The inner loop looks at the bytes of its range, and not at the inode. -/
theorem readLoop_congr (oi : OvlInode) {fuel c : ℕ}
    (h : ∀ i, s.pos ≤ i → i < s.pos + c → file'.get? i = file.get? i) :
    readLoop env file' fuel c { s with oi := oi } =
      ({ (readLoop env file fuel c s).1 with oi := oi }, (readLoop env file fuel c s).2) := by
  induction fuel generalizing c s with
  | zero => rfl
  | succ fuel ih =>
    rw [readLoop, readLoop]
    by_cases hc : c = 0
    · rw [if_pos hc, if_pos hc]
    rw [if_neg hc, if_neg hc, VfsRead.run_congr h]
    cases hrun : (env.rd s.calls).run file s.pos c with
    | error e => rfl
    | ok bs =>
      simp only
      by_cases hbs : bs = []
      · rw [if_pos hbs, if_pos hbs]
      rw [if_neg hbs, if_neg hbs]
      refine ih (s := s.deliver bs) fun i h₁ h₂ => h i ?_ ?_
      · exact le_trans (Nat.le_add_right _ _) h₁
      · obtain ⟨k, hk, rfl⟩ := VfsRead.run_ok hrun
        have hlen := length_read_le file s.pos k
        simp only [ReadState.deliver] at h₁ h₂
        omega

theorem tailPass_congr (oi : OvlInode)
    (h : ∀ i, s.pos ≤ i → i < s.pos + s.count → file'.get? i = file.get? i) :
    tailPass env file' { s with oi := oi } = (tailPass env file s).withOi oi := by
  rw [tailPass, tailPass, VfsRead.run_congr h]
  cases (env.rd s.calls).run file s.pos s.count with
  | error e => rfl
  | ok bs => rfl

theorem copiedPass_congr (oi : OvlInode) {c : ℕ}
    (h : ∀ i, s.pos ≤ i → i < s.pos + c → file'.get? i = file.get? i) :
    copiedPass env c file' { s with oi := oi } = (copiedPass env c file s).withOi oi := by
  rw [copiedPass, copiedPass, readLoop_congr oi h]
  generalize readLoop env file c c s = p
  obtain ⟨s', exit⟩ := p
  cases exit with
  | drained => rfl
  | failed => rfl
  | atEnd =>
    by_cases hend : s'.lowerEnd = true
    · simp only [if_pos hend]
      rfl
    · simp only [if_neg hend]
      rfl

theorem uncopiedPass_congr (oi : OvlInode) {c : ℕ} (file : File) :
    uncopiedPass env c file { s with oi := oi } = (uncopiedPass env c file s).withOi oi := by
  rw [uncopiedPass, uncopiedPass, readLoop_congr oi fun _ _ _ => rfl]
  generalize readLoop env file c c s = p
  obtain ⟨s', exit⟩ := p
  cases exit with
  | drained => rfl
  | failed => rfl
  | atEnd => rfl

end Files

section Passes

variable {env : ReadEnv} {f g : OvlFile} {s : ReadState} {oi : OvlInode}

/-- A pass that does not fail has opened its upper file. -/
theorem useUpper_of_not_fails {k : File → ReadState → Pass} (h : ¬ (useUpper env f s k).Fails) :
    ∃ oi, Reopened f s.oi oi ∧ useUpper env f s k = k f.upperData { s with oi := oi } := by
  obtain hoops | ⟨e, oi, herr⟩ | hopen := useUpper_cases env f s k
  · rw [hoops] at h
    exact absurd trivial h
  · rw [herr] at h
    exact absurd e.ret_neg h
  · exact hopen

/-- A pass that does not fail has opened its lower file. -/
theorem useLower_of_not_fails {k : File → ReadState → Pass} (h : ¬ (useLower env f s k).Fails) :
    ∃ oi, Reopened f s.oi oi ∧
      useLower env f s k = k (f.readLower s.oi) { s with oi := oi } := by
  obtain hoops | ⟨e, oi, herr⟩ | hopen := useLower_cases env f s k
  · rw [hoops] at h
    exact absurd trivial h
  · rw [herr] at h
    exact absurd e.ret_neg h
  · exact hopen

theorem ReadsAlike.uncopied_iff (h : ReadsAlike f g) (i : ℕ) : g.Uncopied i ↔ f.Uncopied i := by
  rw [OvlFile.Uncopied, OvlFile.Uncopied, h.cowStatus, h.blockCount, h.blockStatus]

theorem ReadsAlike.copied_iff (h : ReadsAlike f g) (i : ℕ) : g.Copied i ↔ f.Copied i := by
  rw [OvlFile.Copied, OvlFile.Copied, h.cowStatus, h.blockCount, h.blockStatus]

theorem Reopened.trans {oi' oi'' : OvlInode} (h : Reopened f oi oi') (h' : Reopened f oi' oi'') :
    Reopened f oi oi'' :=
  ⟨h'.blockStatus.trans h.blockStatus, h'.blockCount.trans h.blockCount,
    h'.readLower.trans h.readLower⟩

/-- Two passes that do the same except for the files they open. -/
def SamePass (f g : OvlFile) (p p' : Pass) : Prop :=
  ∃ (q : Pass) (oi oi' : OvlInode), p = q.withOi oi ∧ p' = q.withOi oi' ∧
    Reopened f f.oi oi ∧ Reopened g g.oi oi'

theorem samePass_useUpper {k : File → ReadState → Pass} (hs : Reopened f f.oi s.oi)
    (ht : Reopened g g.oi oi) (hf : ¬ (useUpper env f s k).Fails)
    (hg : ¬ (useUpper env g { s with oi := oi } k).Fails)
    (hk : ∀ oi, k f.upperData { s with oi := oi } = (k f.upperData s).withOi oi)
    (hk' : ∀ oi, k g.upperData { s with oi := oi } = (k f.upperData s).withOi oi) :
    SamePass f g (useUpper env f s k) (useUpper env g { s with oi := oi } k) := by
  obtain ⟨oi₁, h₁, hp₁⟩ := useUpper_of_not_fails hf
  obtain ⟨oi₂, h₂, hp₂⟩ := useUpper_of_not_fails hg
  exact ⟨k f.upperData s, oi₁, oi₂, hp₁.trans (hk oi₁), hp₂.trans (hk' oi₂), hs.trans h₁,
    ht.trans h₂⟩

/-- From the same state, passes that do not fail do the same. -/
theorem blockReadPass_alike (h : ReadsAlike f g) (hcow : f.oi.cowStatus = true)
    (hmap : f.oi.blockStatus.isSome) (hs : Reopened f f.oi s.oi) (ht : Reopened g g.oi oi)
    (hf : ¬ (blockReadPass env f s).Fails)
    (hg : ¬ (blockReadPass env g { s with oi := oi }).Fails) :
    SamePass f g (blockReadPass env f s) (blockReadPass env g { s with oi := oi }) := by
  have ht' : Reopened g g.oi ({ s with oi := oi } : ReadState).oi := ht
  obtain hu | hc | hp := OvlFile.block_cases hmap hcow s.pos
  · rw [blockReadPass_of_uncopied env hs hu] at hf ⊢
    rw [blockReadPass_of_uncopied env ht' ((h.uncopied_iff _).mpr hu)] at hg ⊢
    by_cases hend : s.lowerEnd = true
    · rw [if_pos hend, if_pos hend]
      exact ⟨.done s.ret s, s.oi, oi, rfl, rfl, hs, ht⟩
    · rw [if_neg hend] at hf ⊢
      rw [if_neg hend] at hg ⊢
      obtain ⟨oi₁, h₁, hp₁⟩ := useLower_of_not_fails hf
      obtain ⟨oi₂, h₂, hp₂⟩ := useLower_of_not_fails hg
      have hlower : g.readLower oi = f.readLower s.oi := by
        rw [ht.readLower, hs.readLower, h.lower]
      refine ⟨uncopiedPass env (chunk s.pos s.count) (f.readLower s.oi) s, oi₁, oi₂, ?_, ?_,
        hs.trans h₁, ht.trans h₂⟩
      · rw [hp₁, uncopiedPass_congr]
      · rw [hp₂, ← hlower]
        exact uncopiedPass_congr (s := s) oi₂ _
  · rw [blockReadPass_of_copied env hs hc] at hf ⊢
    rw [blockReadPass_of_copied env ht' ((h.copied_iff _).mpr hc)] at hg ⊢
    refine samePass_useUpper hs ht hf hg (fun oi' => copiedPass_congr oi' fun _ _ _ => rfl)
      fun oi' => copiedPass_congr oi' fun i h₁ h₂ => h.upper i ?_
    exact (hc.of_block_eq (ovlGetBlock_chunk h₁ h₂)).not_uncopied
  · rw [blockReadPass_of_past env hs hp] at hf ⊢
    rw [blockReadPass_of_past env ht' (h.blockCount ▸ hp)] at hg ⊢
    refine samePass_useUpper hs ht hf hg (fun oi' => tailPass_congr oi' fun _ _ _ => rfl)
      fun oi' => tailPass_congr oi' fun i h₁ _ => h.upper i ?_
    exact OvlFile.not_uncopied_of_past (lt_of_lt_of_le hp (ovlGetBlock_mono h₁))

end Passes

-- ════════════════════════════════════════════════════════════════════════
-- Whole requests
-- ════════════════════════════════════════════════════════════════════════

section Requests

variable {env : ReadEnv} {f g : OvlFile} {res res' : ReadResult}

/-- The read comes to an end, and if it returns no error, then what `res` says. -/
def Outcome.Delivers (res : ReadResult) (o : Outcome ReadResult) : Prop :=
  o ≠ .running ∧ ∀ res', o = .ret res' → 0 ≤ res'.ret →
    res'.ret = res.ret ∧ res'.pos = res.pos ∧ res'.out = res.out

theorem delivers_ret (ret : ℤ) (pos : ℕ) (out : List UInt8) (oi oi' : OvlInode) :
    (Outcome.ret ⟨ret, pos, out, oi'⟩).Delivers ⟨ret, pos, out, oi⟩ := by
  refine ⟨nofun, ?_⟩
  rintro _ ⟨⟩ -
  exact ⟨rfl, rfl, rfl⟩

/-- A pass that fails ends the request, with an error if it returns. -/
theorem blockReadLoop_of_fails (fuel : ℕ) {s : ReadState} (hz : s.count ≠ 0)
    (h : (blockReadPass env f s).Fails) : blockReadLoop env f (fuel + 1) s ≠ .running ∧
      ∀ res, blockReadLoop env f (fuel + 1) s = .ret res → res.ret < 0 := by
  rw [blockReadLoop, if_neg hz]
  cases hp : blockReadPass env f s with
  | again s' =>
    rw [hp] at h
    exact h.elim
  | done ret s' =>
    rw [hp] at h
    refine ⟨(fun h => by cases h), ?_⟩
    rintro _ ⟨⟩
    exact h
  | oops => exact ⟨(fun h => by cases h), fun _ h => by cases h⟩

theorem blockReadLoop_alike {fuel : ℕ} {s : ReadState} {oi : OvlInode} (h : ReadsAlike f g)
    (hcow : f.oi.cowStatus = true) (hmap : f.oi.blockStatus.isSome)
    (hs : Reopened f f.oi s.oi) (ht : Reopened g g.oi oi)
    (hf : blockReadLoop env f fuel s = .ret res) (h0 : 0 ≤ res.ret) :
    (blockReadLoop env g fuel { s with oi := oi }).Delivers res := by
  induction fuel generalizing s oi with
  | zero => cases hf
  | succ fuel ih =>
    by_cases hz : s.count = 0
    · rw [blockReadLoop, if_pos hz] at hf ⊢
      cases hf
      exact delivers_ret _ _ _ _ _
    by_cases hg : (blockReadPass env g { s with oi := oi }).Fails
    · obtain ⟨hrun, hneg⟩ := blockReadLoop_of_fails (s := { s with oi := oi }) fuel hz hg
      exact ⟨hrun, fun res' hres' h0' => absurd (hneg res' hres') (Int.not_lt.mpr h0')⟩
    have hf' : ¬ (blockReadPass env f s).Fails := fun hfails =>
      absurd ((blockReadLoop_of_fails fuel hz hfails).2 res hf) (Int.not_lt.mpr h0)
    obtain ⟨q, oi₁, oi₂, hp₁, hp₂, h₁, h₂⟩ := blockReadPass_alike h hcow hmap hs ht hf' hg
    rw [blockReadLoop, if_neg hz, hp₁] at hf
    rw [blockReadLoop, if_neg hz, hp₂]
    cases q with
    | oops => cases hf
    | again s' => exact ih (s := { s' with oi := oi₁ }) h₁ h₂ hf
    | done ret s' =>
      cases hf
      exact delivers_ret _ _ _ _ _

/-- If a read of `f` returns no error, the same read of `g` delivers the same bytes or fails. -/
theorem ovlReadIter_alike {fuel pos count : ℕ} (h : ReadsAlike f g)
    (hmap : f.oi.cowStatus = true → f.oi.blockStatus.isSome)
    (hf : ovlReadIter fuel env f pos count = .ret res) (h0 : 0 ≤ res.ret) :
    (ovlReadIter fuel env g pos count).Delivers res := by
  rw [ovlReadIter] at hf ⊢
  by_cases hz : count = 0
  · rw [if_pos hz] at hf ⊢
    cases hf
    exact delivers_ret _ _ _ _ _
  rw [if_neg hz] at hf ⊢
  cases hfd : env.fdget with
  | some e =>
    rw [hfd] at hf
    cases hf
    exact delivers_ret _ _ _ _ _
  | none =>
    rw [hfd] at hf
    simp only [h.cowStatus] at hf ⊢
    by_cases hcow : f.oi.cowStatus = true
    · rw [if_pos hcow] at hf ⊢
      exact blockReadLoop_alike h hcow (hmap hcow) (.refl f f.oi) (.refl g g.oi) hf h0
    · rw [if_neg hcow] at hf ⊢
      rw [h.realdata (Bool.eq_false_iff.mpr hcow)]
      cases hrun : (env.rd 0).run f.ovlInodeRealdata pos count with
      | error e =>
        rw [hrun] at hf
        cases hf
        exact delivers_ret _ _ _ _ _
      | ok bs =>
        rw [hrun] at hf
        cases hf
        exact delivers_ret _ _ _ _ _

end Requests

end FzzOverlay

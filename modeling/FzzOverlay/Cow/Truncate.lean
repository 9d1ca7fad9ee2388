import FzzOverlay.Cow.Reachable

/-!
# Truncation

`ovl_setattr` changes the size of the upper file, while reads of uncopied blocks go
to the lower file, and the upper file of a metadata-only copy has no data. Reads see a
truncation exactly when it cuts off no lower byte of an uncopied block and keeps no byte
that the upper file of such a copy lacks (`TruncateSafe`).
-/

namespace FzzOverlay

open SparseFile

/-- A truncation to `n` bytes that reads see. -/
structure TruncateSafe (lower : File) (f : OvlFile) (n : ℕ) : Prop where
  /-- Before the copy-up no lower byte is cut off. -/
  notCopied : f.upper = none → lower.size ≤ n
  /-- No lower byte that reads still take from the lower file is cut off. -/
  uncopied : f.upper.isSome → ∀ i, f.Uncopied i → i < lower.size → i < n
  /-- The bytes that are kept of a metadata-only copy are zero where reads go to it. -/
  metaOnly : f.upper.isSome → f.oi.upperdata = false →
    ∀ i, i < n → f.ReadsUpper i → lower.cell i = 0

/-- The truncations of a run that return 0 are safe, and its copy-ups hide no byte. A truncation
that fails behind its copy-up is one of these. -/
def CowOp.Safe (lower : File) (s : OvlFile × File) : CowOp → Prop
  | .copyUp _ flags => CopyUpKeeps lower s.1 flags
  | .truncate env n =>
    ((∃ g, ovlSetattr env s.1 (some n) = .ret (0, g)) → TruncateSafe lower s.1 n) ∧
      (env.FailsLate → CopyUpKeeps lower s.1 O_WRONLY)
  | _ => True

/-- Reads that return see the content `X` cut or extended to `n` bytes, and nothing
from `n` on. -/
def TruncationSeen (X : File) (n : ℕ) (f : OvlFile) : Prop :=
  ReadsFrom (X.truncate n) f ∧
    ∀ fuel env pos count res, n ≤ pos → ovlReadIter fuel env f pos count = .ret res →
      0 ≤ res.ret → res.ret = 0

/-- The file after `notify_change` set the size of the upper inode. -/
def truncated (f : OvlFile) (n : ℕ) : OvlFile :=
  (f.setUpperData (f.upperData.truncate n)).ovlCopyattr

theorem truncated_upper_isSome {f : OvlFile} (h : f.upper.isSome) (n : ℕ) :
    (truncated f n).upper.isSome := by
  rw [truncated, OvlFile.ovlCopyattr, OvlFile.setUpperData, Option.isSome_map]
  exact h

theorem truncated_upperData {f : OvlFile} (h : f.upper.isSome) (n : ℕ) :
    (truncated f n).upperData = f.upperData.truncate n :=
  OvlFile.upperData_setUpperData h _

theorem ReadsFrom.truncationSeen {X : File} {n : ℕ} {f : OvlFile}
    (h : ReadsFrom (X.truncate n) f) : TruncationSeen X n f := by
  refine ⟨h, fun fuel env pos count res hpos hres hret => ?_⟩
  by_contra hne
  obtain ⟨v, -, hv⟩ := h fuel env pos count res hres hret 0 (by omega)
  rw [get?_eq_some_iff, truncate_size] at hv
  omega

-- ════════════════════════════════════════════════════════════════════════
-- Setting the upper size
-- ════════════════════════════════════════════════════════════════════════

section Size

variable {lower X : File} {f : OvlFile} {n k : ℕ}

/-- A truncation that cuts off no byte of an uncopied block keeps the invariant. -/
theorem Tracks.truncate (h : Tracks lower X f)
    (hsafe : ∀ i, f.Uncopied i → i < lower.size → i < n) :
    Tracks lower (X.truncate n) (truncated f n) := by
  have hdata := truncated_upperData h.upper n
  refine ⟨h.lowerstack, truncated_upper_isSome h.upper n, h.upperdata, h.lowerFile, h.blockCount,
    h.map, ?_, ?_, ?_, ?_, ?_⟩
  · intro i hi
    rw [hdata]
    by_cases hn : i < n
    · rw [truncate_cell_of_lt _ hn, truncate_cell_of_lt _ hn]
      exact h.marked i hi
    · rw [truncate_cell_of_ge _ (by omega), truncate_cell_of_ge _ (by omega)]
  · intro i hi hlt
    have hn := hsafe i hi hlt
    rw [truncate_cell_of_lt _ hn]
    exact ⟨(h.uncopied i hi hlt).1, hn⟩
  · intro i hi hle
    rw [hdata]
    obtain ⟨hX, hup⟩ := h.beyond i hi hle
    by_cases hn : i < n
    · rw [truncate_cell_of_lt _ hn, truncate_cell_of_lt _ hn]
      exact ⟨hX, hup⟩
    · rw [truncate_cell_of_ge _ (by omega), truncate_cell_of_ge _ (by omega)]
      exact ⟨rfl, rfl⟩
  · rw [hdata]
    exact le_rfl
  · rw [hdata]
    exact .inl le_rfl

theorem Mapless.truncate (h : Mapless lower X f) (n : ℕ) :
    Mapless lower (X.truncate n) (truncated f n) := by
  have hdata := truncated_upperData h.upper n
  refine ⟨h.lowerstack, truncated_upper_isSome h.upper n, h.cowStatus, h.blockStatus, h.counts,
    fun i hi => ?_, ?_⟩
  · rw [hdata]
    by_cases hn : i < n
    · rw [truncate_cell_of_lt _ hn, truncate_cell_of_lt _ hn]
      exact h.past i hi
    · rw [truncate_cell_of_ge _ (by omega), truncate_cell_of_ge _ (by omega)]
  · rw [hdata]
    exact le_rfl

theorem HoldsContent.truncate (h : HoldsContent lower X f)
    (hsafe : ∀ i, f.Uncopied i → i < lower.size → i < n) :
    HoldsContent lower (X.truncate n) (truncated f n) := by
  obtain hf | hf := h
  · exact .inl (hf.truncate n)
  · exact .inr (hf.truncate hsafe)

/-- A hole of another size. -/
theorem UpperHole.truncate (h : UpperHole lower k f) (n : ℕ) :
    UpperHole lower n (truncated f n) := by
  refine ⟨h.lowerstack, truncated_upper_isSome h.upper n, ?_, h.copyCount, h.lowerFile, h.counts⟩
  rw [truncated_upperData h.upper]
  refine SparseFile.ext rfl fun i => ?_
  by_cases hn : i < n
  · rw [truncate_cell_of_lt _ hn, truncate_cell_of_lt _ hn]
    exact h.cell_eq i
  · rw [truncate_cell_of_ge _ (by omega), truncate_cell_of_ge _ (by omega)]

end Size

-- ════════════════════════════════════════════════════════════════════════
-- Reads past the end
-- ════════════════════════════════════════════════════════════════════════

section PastEnd

variable {lower X : File} {f : OvlFile} {pos count : ℕ}

/-- Past the end of the content a read returns, with nothing, unless the offset is in a block
of the map that is not read from the lower file: a copied block goes round for ever, and
without a map the read faults. -/
theorem HoldsContent.returns_past_end (h : HoldsContent lower X f) (hup : f.oi.upperFile.Usable)
    (hlow : f.oi.lowerFile.Usable) (hpos : X.size ≤ pos) (hcount : 0 < count) :
    Returns f pos count 0 [] ↔ ¬ f.Stuck pos := by
  obtain hf | hf := h
  · have hend : f.upperData.size ≤ pos := hf.upper_le.trans hpos
    by_cases hb : f.oi.blockCount < ovlGetBlock pos
    · have hret := FzzOverlay.returns_past_end hf.upper hup hf.cowStatus hb hend hcount
      exact iff_of_true hret fun hs => absurd hs.2.1 (by omega)
    · have hle := Nat.le_of_not_lt hb
      exact iff_of_false (not_returns_of_noMap hf.cowStatus hf.blockStatus hle hcount _ _)
        (not_not.mpr ⟨hf.cowStatus, hle, hf.not_uncopied pos⟩)
  · have hend : f.upperData.size ≤ pos := hf.upper_le.trans hpos
    have hstack : f.lowerstack ≠ [] := by
      rw [hf.lowerstack]
      exact List.cons_ne_nil _ _
    cases hcow : f.oi.cowStatus with
    | false =>
      rw [returns_of_not_cow hcow, hf.realdata_eq, read_eq_nil_iff.mpr (.inr hend)]
      exact iff_of_true ⟨rfl, rfl⟩ fun hs => absurd (hcow.symm.trans hs.1) (by simp)
    | true =>
      obtain ⟨m, hm, -⟩ := hf.map hcow
      obtain hu | hc | hb := OvlFile.block_cases (Option.isSome_iff_exists.mpr ⟨m, hm⟩) hcow pos
      · refine iff_of_true (returns_uncopied_end hstack hlow hu ?_ hcount) fun hs => hs.2.2 hu
        rw [hf.readLower_eq]
        by_contra hlt
        have := (hf.uncopied pos hu (by omega)).2
        omega
      · exact iff_of_false (not_returns_copied_end hf.upper hup hc hend hcount _ _)
          (not_not.mpr hc.stuck)
      · exact iff_of_true (FzzOverlay.returns_past_end hf.upper hup hcow hb hend hcount)
          fun hs => absurd hs.2.1 (by omega)

end PastEnd

-- ════════════════════════════════════════════════════════════════════════
-- The copy-up a truncation starts with
-- ════════════════════════════════════════════════════════════════════════

section CopyUp

variable {lower X : File} {env : CopyUpEnv} {f g : OvlFile} {n : ℕ}

theorem ovlNeedMetaCopyUp_wronly (metacopy : Bool) :
    ovlNeedMetaCopyUp metacopy O_WRONLY = false := by
  rw [ovlNeedMetaCopyUp_eq]
  cases metacopy <;> rfl

theorem needsDataCopyUpLocked_wronly (f : OvlFile) :
    needsDataCopyUpLocked f O_WRONLY = !f.oi.upperdata := rfl

/-- A copy-up with data of a file that has an upper file, when it returns 0. -/
theorem CopyUpCase.wronly_of_upper (hcase : CopyUpCase env O_WRONLY f (0, g))
    (hup : f.upper.isSome) :
    (f.oi.upperdata = true ∧ ∃ a, g = { f with upperAlias := a }) ∨
      (f.oi.upperdata = false ∧ ∃ a, g = completedFile f a) := by
  obtain ⟨hok, hg⟩ | ⟨-, hneed, hg⟩ := hcase.of_upper hup
  · have hdata := hok rfl
    rw [needsDataCopyUpLocked_wronly, Bool.not_eq_false'] at hdata
    exact .inl ⟨hdata, hg⟩
  · rw [needsDataCopyUpLocked_wronly, Bool.not_eq_true'] at hneed
    exact .inr ⟨hneed, hg⟩

/-- The same of a file that is not copied up. -/
theorem NotCopied.copyUp_wronly (h : NotCopied lower f) (hcase : CopyUpCase env O_WRONLY f (0, g)) :
    (0 < lower.size ∧ ∃ addr a, g = freshCow f addr a) ∨
      (lower.size = 0 ∧ ∃ a, g = freshEmpty f a) := by
  have hno : ¬ f.upper.isSome := by
    rw [h.upper]
    simp
  generalize hr : ((0 : ℤ), g) = r at hcase
  cases hcase with
  | linked ret a hok =>
    obtain ⟨rfl, -⟩ := Prod.mk.inj hr
    exact absurd (hok rfl).1 hno
  | unfinished ret hup hret =>
    obtain ⟨rfl, -⟩ := Prod.mk.inj hr
    exact absurd rfl hret
  | completed ret a hup hneed => exact absurd hup hno
  | installed ret a hup hmem =>
    obtain ⟨-, rfl⟩ := Prod.mk.inj hr
    obtain ⟨hmeta, -⟩ | ⟨-, htrunc | h0, hg⟩ | ⟨-, -, h0, addr, hg⟩ :=
      h.installed_cases (a := a) hmem
    · rw [ovlNeedMetaCopyUp_wronly] at hmeta
      cases hmeta
    · cases htrunc
    · exact .inr ⟨h0, a, hg⟩
    · exact .inl ⟨h0, addr, a, hg⟩

/-- The copy-up does not touch the cached files. -/
theorem Consistent.files (h : Consistent lower (f, X)) (hcase : CopyUpCase env O_WRONLY f (0, g)) :
    g.oi.upperFile = f.oi.upperFile ∧ g.oi.lowerFile = f.oi.lowerFile := by
  by_cases hup : f.upper.isSome
  · obtain ⟨-, a, rfl⟩ | ⟨-, a, rfl⟩ := hcase.wronly_of_upper hup
    · exact ⟨rfl, rfl⟩
    · exact ⟨rfl, rfl⟩
  · cases h with
    | notCopied hf =>
      obtain ⟨-, addr, a, rfl⟩ | ⟨-, a, rfl⟩ := hf.copyUp_wronly hcase
      · exact ⟨rfl, rfl⟩
      · exact ⟨rfl, rfl⟩
    | metaOnly hf _ => exact absurd hf.upper hup
    | mapless hf => exact absurd hf.upper hup
    | tracks hf => exact absurd hf.upper hup

theorem not_stuck_freshCow (f : OvlFile) (addr : ℕ) (a : Bool) (i : ℕ) :
    ¬ (freshCow f addr a).Stuck i :=
  fun ⟨hcow, hle, hun⟩ => hun ⟨hcow, hle, _, rfl, rfl⟩

/-- Reads are stuck where they were before if the file was copied up then. -/
theorem Consistent.stuck_iff (h : Consistent lower (f, X))
    (hcase : CopyUpCase env O_WRONLY f (0, g)) (i : ℕ) :
    g.Stuck i ↔ f.upper.isSome ∧ f.Stuck i := by
  by_cases hup : f.upper.isSome
  · obtain ⟨-, a, rfl⟩ | ⟨-, a, rfl⟩ := hcase.wronly_of_upper hup
    · exact ⟨fun hs => ⟨hup, hs⟩, And.right⟩
    · exact ⟨fun hs => ⟨hup, hs⟩, And.right⟩
  · refine iff_of_false (fun hs => ?_) fun hs => hup hs.1
    cases h with
    | notCopied hf =>
      obtain ⟨-, addr, a, rfl⟩ | ⟨h0, a, rfl⟩ := hf.copyUp_wronly hcase
      · exact not_stuck_freshCow f addr a i hs
      · have hcow : f.oi.cowStatus = true := hs.1
        rw [hf.cow_eq_false h0] at hcow
        cases hcow
    | metaOnly hf _ => exact hup hf.upper
    | mapless hf => exact hup hf.upper
    | tracks hf => exact hup hf.upper

/-- Behind the copy-up a safe truncation leaves the content cut or extended. -/
theorem Consistent.holds_truncated (h : Consistent lower (f, X))
    (hmax : lower.size ≤ MAX_COW_SIZE) (hcase : CopyUpCase env O_WRONLY f (0, g))
    (hsafe : TruncateSafe lower f n) : HoldsContent lower (X.truncate n) (truncated g n) := by
  cases h with
  | notCopied hf =>
    have hn := hsafe.notCopied hf.upper
    obtain ⟨h0, addr, a, rfl⟩ | ⟨h0, a, rfl⟩ := hf.copyUp_wronly hcase
    · exact .inr ((hf.tracks_freshCow h0 hmax addr a).truncate fun i _ hi => by omega)
    · exact (hf.holds_freshEmpty_of_empty hmax h0 a).truncate fun i _ hi => by omega
  | metaOnly hf hno =>
    obtain ⟨hdata, -⟩ | ⟨-, a, rfl⟩ := hcase.wronly_of_upper hf.upper
    · rw [hno] at hdata
      cases hdata
    · exact ((hf.completed a).truncate n).holdsContent hmax rfl (hsafe.metaOnly hf.upper hno)
        (hsafe.uncopied hf.upper)
  | mapless hf =>
    obtain ⟨-, a, rfl⟩ | ⟨-, a, rfl⟩ := hcase.wronly_of_upper hf.upper
    · exact .inl ((hf.linked a).truncate n)
    · exact .inl ((hf.completed a).truncate n)
  | tracks hf =>
    obtain ⟨a, rfl⟩ := hcase.of_upperdata hf.upper hf.upperdata
    exact .inr ((hf.linked a).truncate (hsafe.uncopied hf.upper))

-- ════════════════════════════════════════════════════════════════════════
-- Truncations that are not safe
-- ════════════════════════════════════════════════════════════════════════

/-- A byte that was cut off is still read from the lower file. -/
theorem lt_of_truncationSeen (hstack : f.lowerstack = [lower]) (hfirst : f.oi.lowerFile.First)
    (hfile : f.oi.lowerFile.Usable) (hseen : TruncationSeen X n (truncated f n)) {i : ℕ}
    (hi : f.Uncopied i) (hlt : i < lower.size) : i < n := by
  by_contra hge
  have hne : f.lowerstack ≠ [] := by
    rw [hstack]
    exact List.cons_ne_nil _ _
  obtain ⟨fuel, res, hres, hret, -⟩ := returns_one_uncopied (f := truncated f n) hne hfile hi
  have hlower : (truncated f n).readLower (truncated f n).oi = lower :=
    OvlFile.readLower_of_single (f := f) hstack hfirst
  rw [hlower, get?_of_lt hlt] at hret
  have hnonneg : 0 ≤ res.ret := by
    rw [hret]
    exact Int.natCast_nonneg _
  have hzero := hseen.2 fuel .full i 1 res (by omega) hres hnonneg
  rw [hret] at hzero
  cases hzero

/-- Where reads go to a hole they deliver zeroes. -/
theorem UpperHole.returns_zero {i : ℕ} (h : UpperHole lower n f) (hreal : f.oi.upperdata = true)
    (hfile : f.oi.upperFile.Usable) (hi : f.ReadsUpper i) (hlt : i < n) :
    Returns f i 1 1 [0] := by
  have hget : f.upperData.get? i = some 0 :=
    get?_eq_some_iff.mpr ⟨by rw [h.size_eq]; exact hlt, h.cell_eq i⟩
  obtain hcow | hc := hi
  · rw [returns_of_not_cow hcow, OvlFile.ovlInodeRealdata_of_upperdata h.upper hreal, read_one,
      hget]
    exact ⟨rfl, rfl⟩
  · exact returns_one_copied h.upper hfile hc hget

/-- A truncation that reads see was safe, unless an error value keeps them from looking. -/
theorem Consistent.safe_of_truncationSeen (h : Consistent lower (f, X))
    (hmax : lower.size ≤ MAX_COW_SIZE) (hcase : CopyUpCase env O_WRONLY f (0, g))
    (hlow : f.oi.lowerFile.Usable)
    (hup : f.upper.isSome → f.oi.upperdata = false → f.oi.upperFile.Usable)
    (hseen : TruncationSeen X n (truncated g n)) : TruncateSafe lower f n := by
  cases h with
  | notCopied hf =>
    refine ⟨fun _ => ?_, fun hs => ?_, fun hs => ?_⟩
    · obtain ⟨h0, addr, a, rfl⟩ | ⟨h0, -⟩ := hf.copyUp_wronly hcase
      · have htracks := hf.tracks_freshCow h0 hmax addr a
        obtain hle | ⟨hlast, -⟩ := htracks.reaches
        · exact absurd hle (by simpa [freshCow, OvlFile.upperData, newTemp] using h0.ne')
        · have := lt_of_truncationSeen htracks.lowerstack htracks.lowerFile hlow hseen hlast
            (by omega)
          omega
      · omega
    · exact absurd hs (by simp [hf.upper])
    · exact absurd hs (by simp [hf.upper])
  | metaOnly hf hno =>
    have hne : f.upper ≠ none := Option.isSome_iff_ne_none.mp hf.upper
    obtain ⟨hdata, -⟩ | ⟨-, a, rfl⟩ := hcase.wronly_of_upper hf.upper
    · rw [hno] at hdata
      cases hdata
    · refine ⟨fun h => absurd h hne, fun _ i hi hlt => ?_, fun _ _ i hi hreads => ?_⟩
      · exact lt_of_truncationSeen (f := completedFile f a) hf.lowerstack hf.lowerFile hlow hseen
          hi hlt
      · have hret := ((hf.completed a).truncate n).returns_zero rfl (hup hf.upper hno) hreads hi
        have hget := Returns.served hseen.1 hret
        rw [get?_eq_some_iff, truncate_cell_of_lt _ hi] at hget
        exact hget.2
  | mapless hf =>
    have hne : f.upper ≠ none := Option.isSome_iff_ne_none.mp hf.upper
    refine ⟨fun h => absurd h hne, fun _ i hi => absurd hi (hf.not_uncopied i), ?_⟩
    rintro - - i - (hcow | hc)
    · rw [hf.cowStatus] at hcow
      cases hcow
    · exact absurd hc (hf.not_copied i)
  | tracks hf =>
    have hne : f.upper ≠ none := Option.isSome_iff_ne_none.mp hf.upper
    obtain ⟨a, rfl⟩ := hcase.of_upperdata hf.upper hf.upperdata
    refine ⟨fun h => absurd h hne, fun _ i hi hlt => ?_, fun _ hno => ?_⟩
    · exact lt_of_truncationSeen (f := { f with upperAlias := a }) hf.lowerstack hf.lowerFile hlow
        hseen hi hlt
    · rw [hf.upperdata] at hno
      cases hno

/-- A truncation that succeeds copies the file up and sets the upper size. -/
theorem ovlSetattr_zero {env : SetattrEnv} (hstack : f.lowerstack ≠ [])
    (h : ovlSetattr env f (some n) = .ret (0, g)) :
    ∃ g₀, CopyUpCase env.copyUp O_WRONLY f (0, g₀) ∧ g = truncated g₀ n := by
  obtain ⟨r, hr, hcase⟩ := ovlSetattr_cases env hstack n
  rw [h] at hr
  cases hr
  generalize hres : ((0 : ℤ), g) = r at hcase
  cases hcase with
  | refused ret hret => exact absurd (Prod.mk.inj hres).1.symm hret
  | copied ret cuRet g' hret hcase => exact absurd (Prod.mk.inj hres).1.symm hret
  | truncated g₀ hcase =>
    obtain ⟨-, rfl⟩ := Prod.mk.inj hres
    exact ⟨g₀, hcase, rfl⟩

end CopyUp

-- ════════════════════════════════════════════════════════════════════════
-- Runs
-- ════════════════════════════════════════════════════════════════════════

/-- A truncation that fails keeps the invariant, also when it has copied the file up. -/
theorem Consistent.truncate_failed {lower X : File} {f g : OvlFile} {env : SetattrEnv} {cuRet : ℤ}
    (h : Consistent lower (f, X)) (hmax : lower.size ≤ MAX_COW_SIZE)
    (hcase : CopyUpCase env.copyUp O_WRONLY f (cuRet, g)) (hlate : cuRet = 0 → env.FailsLate)
    (hsafe : env.FailsLate → CopyUpKeeps lower f O_WRONLY) : Consistent lower (g, X) := by
  have hsame : copiedContent O_WRONLY f g X = X := copiedContent_of_noTrunc rfl
  rw [← hsame]
  exact h.copyUp hmax (fun h0 => (hsafe (hlate h0)).metaOnly) (fun _ htrunc => by cases htrunc)
    hcase

/-- Every step keeps the invariant, truncations that are safe included. -/
theorem Consistent.step {lower : File} {s t : OvlFile × File} {op : CowOp}
    (h : Consistent lower s) (hmax : lower.size ≤ MAX_COW_SIZE) (hsafe : op.Safe lower s)
    (hstep : CowStep s op t) : Consistent lower t := by
  have hstack : s.1.lowerstack ≠ [] := by
    rw [h.lowerstack]
    exact List.cons_ne_nil _ _
  cases hstep with
  | @copyUp f g X env flags ret hret =>
    obtain ⟨r, hr, hcase⟩ := ovlCopyUpFlags_cases env hstack flags
    rw [hret] at hr
    cases hr
    exact h.copyUp hmax (fun _ => hsafe.metaOnly) hsafe.trunc hcase
  | @write f X env req r hup hdata henv hret =>
    cases h with
    | notCopied hf => exact absurd hup (by simp [hf.upper])
    | metaOnly _ hno =>
      rw [hno] at hdata
      cases hdata
    | mapless hf =>
      obtain ⟨hg, hnil⟩ := hf.write hret
      have hsame : (if 0 ≤ r.ret then logicalWrite X req else X) = X := by
        split
        · next h0 => exact logicalWrite_of_nil (hnil h0)
        · rfl
      rw [hsame]
      exact .mapless hg
    | tracks hf => exact .tracks (hf.write hmax henv hret)
  | @read f X fuel env pos count res hret => exact h.cached (ovlReadIter_cached hret)
  | @truncate f g X env n ret hret =>
    obtain ⟨r, hr, hcase⟩ := ovlSetattr_cases env hstack n
    rw [hret] at hr
    cases hr
    generalize hres : (ret, g) = r at hcase
    cases hcase with
    | refused ret hne =>
      obtain ⟨rfl, rfl⟩ := Prod.mk.inj hres
      rw [if_neg hne]
      exact h
    | copied ret cuRet g' hne hcase hlate =>
      obtain ⟨rfl, rfl⟩ := Prod.mk.inj hres
      rw [if_neg hne]
      exact h.truncate_failed hmax hcase hlate hsafe.2
    | truncated g₀ hcase =>
      obtain ⟨rfl, rfl⟩ := Prod.mk.inj hres
      rw [if_pos rfl]
      exact (h.holds_truncated hmax hcase (hsafe.1 ⟨_, hret⟩)).consistent

/-- In every state a run of safe steps reaches, reads see one more truncation that returns 0
if it is safe, and only then unless a cached file holds an error value. A read past the new
end does return, with nothing, except in blocks of the map that are not read from the lower
file. -/
theorem truncation_seen_iff {lower X : File} {old : OvlInode} {f g : OvlFile} {n : ℕ}
    {tr : List ((OvlFile × File) × CowOp)} {env : SetattrEnv}
    (hmax : lower.size ≤ 2 ^ 44 - 4096)
    (hrun : Lts.Run CowStep (.lookedUp [lower] old, lower) tr (f, X))
    (hsafe : ∀ p ∈ tr, p.2.Safe lower p.1)
    (htrunc : ovlSetattr env f (some n) = .ret (0, g)) :
    (TruncateSafe lower f n → TruncationSeen X n g) ∧
      (f.oi.lowerFile.Usable →
        (f.upper.isSome → f.oi.upperdata = false → f.oi.upperFile.Usable) →
        TruncationSeen X n g → TruncateSafe lower f n) ∧
      (TruncateSafe lower f n → f.oi.upperFile.Usable → f.oi.lowerFile.Usable →
        ∀ pos count, n ≤ pos → 0 < count →
          (Returns g pos count 0 [] ↔ ¬ (f.upper.isSome ∧ f.Stuck pos))) := by
  have h : Consistent lower (f, X) := hrun.invariant_of_guard (I := Consistent lower)
    (.notCopied (notCopied_lookedUp lower old)) (fun s op t hs hsafe hstep =>
      hs.step hmax hsafe hstep) hsafe
  obtain ⟨g₀, hcase, rfl⟩ :=
    ovlSetattr_zero (by rw [h.lowerstack]; exact List.cons_ne_nil _ _) htrunc
  obtain ⟨hup, hlow⟩ := h.files hcase
  refine ⟨fun hs => ?_, fun hlowf hupf hseen => ?_, fun hs hupf hlowf pos count hpos hcount => ?_⟩
  · exact (h.holds_truncated hmax hcase hs).readsFrom.truncationSeen
  · exact h.safe_of_truncationSeen hmax hcase hlowf hupf hseen
  · rw [← h.stuck_iff hcase]
    rw [← hup] at hupf
    rw [← hlow] at hlowf
    exact (h.holds_truncated hmax hcase hs).returns_past_end hupf hlowf hpos hcount

/-- A file whose metadata alone was copied up is cut down to its leading zero byte and written.
It can be extended then. -/
theorem truncation_seen_written : ∃ f g X tr,
    Lts.Run CowStep (.lookedUp [ofList [0, 2]] zeroInode, ofList [0, 2]) tr (f, X) ∧
      (∀ p ∈ tr, p.2.Safe (ofList [0, 2]) p.1) ∧ tr.length = 3 ∧
      ovlSetattr .full f (some 3) = .ret (0, g) ∧ TruncationSeen X 3 g := by
  have hcopy : CowStep (.lookedUp [ofList [0, 2]] zeroInode, ofList [0, 2])
      (.copyUp (.full true) 0)
      (freshHole (.lookedUp [ofList [0, 2]] zeroInode) 2 true, ofList [0, 2]) := .copyUp rfl
  obtain ⟨f, hcut, hup, hdata, hcow⟩ : ∃ f,
      ovlSetattr .full (freshHole (.lookedUp [ofList [0, 2]] zeroInode) 2 true) (some 1) =
          .ret (0, f) ∧ f.upper.isSome ∧ f.oi.upperdata = true ∧ f.oi.cowStatus = false :=
    ⟨_, rfl, rfl, rfl, rfl⟩
  obtain ⟨r, g, hr, hcow', hup', hdata', hg⟩ : ∃ r g,
      ovlWriteIter .full f ⟨0, false, [9]⟩ = .ret r ∧ r.file.oi.cowStatus = false ∧
        r.file.upper.isSome ∧ r.file.oi.upperdata = true ∧
        ovlSetattr .full r.file (some 3) = .ret (0, g) := by
    cases hcut
    exact ⟨_, _, rfl, rfl, rfl, rfl, rfl⟩
  have hrun := Lts.Run.snoc (.snoc (.snoc .nil hcopy) (.truncate hcut))
    (.write hup hdata (.inl rfl) hr)
  have hsafe : ∀ p ∈ [((OvlFile.lookedUp [ofList [0, 2]] zeroInode, ofList [0, 2]),
      CowOp.copyUp (.full true) 0), ((freshHole (.lookedUp [ofList [0, 2]] zeroInode) 2 true,
      ofList [0, 2]), .truncate .full 1), ((f, (ofList [0, 2]).truncate 1),
      .write .full ⟨0, false, [9]⟩)], p.2.Safe (ofList [0, 2]) p.1 := by
    intro p hp
    simp only [List.mem_cons, List.not_mem_nil, or_false] at hp
    obtain rfl | rfl | rfl := hp
    · exact ⟨nofun, nofun⟩
    · refine ⟨fun _ => ⟨nofun, fun _ i hi => ?_, fun _ _ i hi _ => ?_⟩, fun hlate => ?_⟩
      · cases hi.1
      · obtain rfl := Nat.lt_one_iff.mp hi
        rfl
      · simp [SetattrEnv.FailsLate, SetattrEnv.full] at hlate
    · trivial
  refine ⟨_, g, _, _, hrun, hsafe, rfl, hg, (truncation_seen_iff (by decide) hrun hsafe hg).1 ?_⟩
  refine ⟨fun h => ?_, fun _ i hi => absurd hi (Tracks.not_uncopied_of_plain hcow' i),
    fun _ h => ?_⟩
  · rw [h] at hup'
    cases hup'
  · rw [hdata'] at h
    cases h

/-- A file of two bytes that is cut to one while it is not copied up: the second
byte is still read. -/
theorem truncation_unseen : ∃ g,
    ovlSetattr .full (.lookedUp [ofList [1, 2]] zeroInode) (some 1) = .ret (0, g) ∧
      Returns g 1 1 1 [2] ∧ ¬ TruncationSeen (ofList [1, 2]) 1 g := by
  have hread : Returns (truncated (freshCow (.lookedUp [ofList [1, 2]] zeroInode) 0 true) 1)
      1 1 1 [2] := ⟨2, _, rfl, rfl, rfl⟩
  refine ⟨_, rfl, hread, fun hseen => ?_⟩
  obtain ⟨fuel, res, hres, hret, -⟩ := hread
  have hzero := hseen.2 fuel .full 1 1 res le_rfl hres (by rw [hret]; decide)
  rw [hret] at hzero
  cases hzero

end FzzOverlay

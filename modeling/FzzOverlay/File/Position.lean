import FzzOverlay.File.Terminates

/-!
# Return value and position of a read

`block_read_iter` advances `ki_pos` by what its `vfs_iter_read` calls deliver. Two of its
exits forget what was delivered before: the one for an error past the map returns 0, and a
file that cannot be opened makes it return the error.
-/

namespace FzzOverlay

open SparseFile

/-- The call returned a count, by which it advanced the position and which it delivered, or an
error, and left the position. -/
def ReadResult.Agrees (pos : ℕ) (res : ReadResult) : Prop :=
  (0 ≤ res.ret ∧ res.pos = pos + res.ret.toNat ∧ res.out.length = res.ret.toNat) ∨
    (res.ret < 0 ∧ res.pos = pos)

/-- A request in the map can deliver the byte at offset `k`. -/
def Delivers (f : OvlFile) (k : ℕ) : Prop :=
  (f.Uncopied k ∧ f.oi.lowerFile.Usable ∧ k < (f.readLower f.oi).size) ∨
    (f.Copied k ∧ f.oi.upperFile.Usable ∧ k < f.upperData.size)

/-- After delivering at least one byte the request reaches an offset where a call may fail
and end it: past the map, or in the first block that needs a file which is not open yet. -/
def LateFailure (f : OvlFile) (pos count : ℕ) : Prop :=
  ∃ i, pos < i ∧ i < pos + count ∧ (∀ k, pos ≤ k → k < i → Delivers f k) ∧
    ((f.oi.blockCount < ovlGetBlock i ∧ f.oi.upperFile.Usable) ∨
      (f.Copied i ∧ f.oi.upperFile = .null ∧ ∀ k, pos ≤ k → k < i → f.Uncopied k) ∨
      (f.Uncopied i ∧ f.oi.lowerFile = .null ∧ ∀ k, pos ≤ k → k < i → f.Copied k))

-- ════════════════════════════════════════════════════════════════════════
-- Opening a file
-- ════════════════════════════════════════════════════════════════════════

section Opening

variable {f : OvlFile}

theorem useUpper_of_opens {env : ReadEnv} {s : ReadState} (hup : f.upper.isSome)
    (hopen : s.oi.upperFile.Opens env.openUpper) (k : File → ReadState → Pass) :
    useUpper env f s k = k f.upperData
      { s with oi := { s.oi with upperFile := s.oi.upperFile.openWith env.openUpper 0 } } := by
  obtain ⟨u, hu⟩ := Option.isSome_iff_exists.mp hup
  have hdata : f.upperData = u.data := by rw [OvlFile.upperData, hu]
  rw [useUpper, hu, hdata]
  cases hp : s.oi.upperFile with
  | null =>
    rw [hp] at hopen
    rw [show env.openUpper = none from hopen]
    rfl
  | opened idx =>
    have hself : ({ s.oi with upperFile := .opened idx } : OvlInode) = s.oi := by rw [← hp]
    rw [show (FilePtr.opened idx).openWith env.openUpper 0 = .opened idx from rfl, hself]
  | err e =>
    rw [hp] at hopen
    exact hopen.elim

theorem useLower_of_opens {env : ReadEnv} {s : ReadState} (hstack : f.lowerstack ≠ [])
    (hopen : s.oi.lowerFile.Opens env.openLower) (k : File → ReadState → Pass) :
    useLower env f s k = k (f.readLower s.oi) { s with oi := { s.oi with
      lowerFile := s.oi.lowerFile.openWith env.openLower f.ovlPathLowerdata } } := by
  rw [useLower, if_neg hstack]
  cases hp : s.oi.lowerFile with
  | null =>
    have hlow : f.readLower s.oi = f.lowerdata := by rw [OvlFile.readLower, hp]
    rw [hp] at hopen
    rw [show env.openLower = none from hopen, hlow]
    rfl
  | opened idx =>
    have hlow : f.readLower s.oi = f.lowerAt idx := by rw [OvlFile.readLower, hp]
    have hself : ({ s.oi with lowerFile := .opened idx } : OvlInode) = s.oi := by rw [← hp]
    rw [hlow, show (FilePtr.opened idx).openWith env.openLower f.ovlPathLowerdata =
      .opened idx from rfl, hself]
  | err e =>
    rw [hp] at hopen
    exact hopen.elim

theorem useUpper_of_error {env : ReadEnv} {s : ReadState} {e : Errno} (hup : f.upper.isSome)
    (hnull : s.oi.upperFile = .null) (ho : env.openUpper = some e)
    (k : File → ReadState → Pass) :
    useUpper env f s k = .done e.ret { s with oi := { s.oi with upperFile := .err e } } := by
  obtain ⟨u, hu⟩ := Option.isSome_iff_exists.mp hup
  rw [useUpper, hu, hnull, ho]

theorem useLower_of_error {env : ReadEnv} {s : ReadState} {e : Errno}
    (hstack : f.lowerstack ≠ []) (hnull : s.oi.lowerFile = .null) (ho : env.openLower = some e)
    (k : File → ReadState → Pass) :
    useLower env f s k = .done e.ret { s with oi := { s.oi with lowerFile := .err e } } := by
  rw [useLower, if_neg hstack, hnull, ho]

/-- Open `upper_file` and go on with it, return the error of the open, or fault. -/
theorem useUpper_exact (env : ReadEnv) (s : ReadState) (hup : f.upper.isSome)
    (k : File → ReadState → Pass) :
    useUpper env f s k = .oops ∨
      (∃ (e : Errno) (oi : OvlInode), s.oi.upperFile = .null ∧
        useUpper env f s k = .done e.ret { s with oi := oi }) ∨
      (s.oi.upperFile.Opens env.openUpper ∧ useUpper env f s k = k f.upperData
        { s with oi := { s.oi with upperFile := s.oi.upperFile.openWith env.openUpper 0 } }) := by
  by_cases hopen : s.oi.upperFile.Opens env.openUpper
  · exact .inr (.inr ⟨hopen, useUpper_of_opens hup hopen k⟩)
  cases hp : s.oi.upperFile with
  | null =>
    cases ho : env.openUpper with
    | none =>
      rw [hp] at hopen
      exact absurd ho hopen
    | some e => exact .inr (.inl ⟨e, _, rfl, useUpper_of_error hup hp ho k⟩)
  | opened idx =>
    rw [hp] at hopen
    exact absurd trivial hopen
  | err e =>
    obtain ⟨u, hu⟩ := Option.isSome_iff_exists.mp hup
    left
    rw [useUpper, hu, hp]

/-- Open `lower_file` and go on with it, return the error of the open, or fault. -/
theorem useLower_exact (env : ReadEnv) (f : OvlFile) (s : ReadState)
    (k : File → ReadState → Pass) :
    useLower env f s k = .oops ∨
      (∃ (e : Errno) (oi : OvlInode), s.oi.lowerFile = .null ∧
        useLower env f s k = .done e.ret { s with oi := oi }) ∨
      (s.oi.lowerFile.Opens env.openLower ∧ useLower env f s k = k (f.readLower s.oi)
        { s with oi := { s.oi with
          lowerFile := s.oi.lowerFile.openWith env.openLower f.ovlPathLowerdata } }) := by
  by_cases hstack : f.lowerstack = []
  · left
    rw [useLower, if_pos hstack]
  by_cases hopen : s.oi.lowerFile.Opens env.openLower
  · exact .inr (.inr ⟨hopen, useLower_of_opens hstack hopen k⟩)
  cases hp : s.oi.lowerFile with
  | null =>
    cases ho : env.openLower with
    | none =>
      rw [hp] at hopen
      exact absurd ho hopen
    | some e => exact .inr (.inl ⟨e, _, rfl, useLower_of_error hstack hp ho k⟩)
  | opened idx =>
    rw [hp] at hopen
    exact absurd trivial hopen
  | err e =>
    left
    rw [useLower, if_neg hstack, hp]

end Opening

-- ════════════════════════════════════════════════════════════════════════
-- The accounts of a request
-- ════════════════════════════════════════════════════════════════════════

/-- Invariant of the outer loop: the counters agree, and a file that is not open was not
needed yet. -/
structure Accounted (f : OvlFile) (pos count : ℕ) (s : ReadState) : Prop where
  reopened : Reopened f f.oi s.oi
  pos_eq : s.pos = pos + s.out.length
  ret_eq : s.ret = s.out.length
  count_eq : s.count + s.out.length = count
  way : ∀ k, pos ≤ k → k < s.pos → Delivers f k
  upperUsable : s.oi.upperFile.Usable → f.oi.upperFile.Usable
  lowerUsable : s.oi.lowerFile.Usable → f.oi.lowerFile.Usable
  upperNull : s.oi.upperFile = .null →
    f.oi.upperFile = .null ∧ ∀ k, pos ≤ k → k < s.pos → f.Uncopied k
  lowerNull : s.oi.lowerFile = .null →
    f.oi.lowerFile = .null ∧ ∀ k, pos ≤ k → k < s.pos → f.Copied k

section Accounts

variable {env : ReadEnv} {f : OvlFile} {pos count : ℕ} {s : ReadState}

theorem Accounted.agrees (h : Accounted f pos count s) (oi : OvlInode) :
    (⟨s.ret, s.pos, s.out, oi⟩ : ReadResult).Agrees pos := by
  refine .inl ⟨by simp, ?_, ?_⟩
  · simp only [Int.toNat_natCast]
    rw [h.ret_eq, h.pos_eq]
  · simp only [Int.toNat_natCast]
    rw [h.ret_eq]

/-- An error before anything was delivered. -/
theorem agrees_of_start {ret : ℤ} (hret : ret ≤ 0) (hpos : s.pos = pos) (hout : s.out = [])
    (oi : OvlInode) : (⟨ret, s.pos, s.out, oi⟩ : ReadResult).Agrees pos := by
  obtain rfl | hneg := eq_or_lt_of_le hret
  · refine .inl ⟨le_rfl, ?_, ?_⟩
    · simpa using hpos
    · simp [hout]
  · exact .inr ⟨hneg, hpos⟩

theorem Accounted.out_nil (h : Accounted f pos count s) (hpos : s.pos = pos) : s.out = [] := by
  have := h.pos_eq
  rw [← List.length_eq_zero_iff]
  omega

theorem Advanced.size_le {file : File} {n : ℕ} {s s' : ReadState} (h : Advanced file n s s')
    {k : ℕ} (h₁ : s.pos ≤ k) (h₂ : k < s'.pos) : k < file.size ∧ k < s.pos + n := by
  obtain ⟨-, -, bs, hlen, hbs, -, hpos, -, -⟩ := h
  have := congrArg List.length hbs
  rw [length_read] at this
  omega

/-- Delivering bytes of a chunk whose file is open now. -/
theorem Accounted.advance {file : File} {n : ℕ} {s' : ReadState} (h : Accounted f pos count s)
    (ha : Advanced file n s s') (hn : n ≤ s.count)
    (hdel : ∀ k, s.pos ≤ k → k < s.pos + n → k < file.size → Delivers f k)
    (hup : s.oi.upperFile = .null → ∀ k, s.pos ≤ k → k < s.pos + n → f.Uncopied k)
    (hlow : s.oi.lowerFile = .null → ∀ k, s.pos ≤ k → k < s.pos + n → f.Copied k) :
    Accounted f pos count s' := by
  have hsize : ∀ k, s.pos ≤ k → k < s'.pos → k < file.size ∧ k < s.pos + n :=
    fun k h₁ h₂ => ha.size_le h₁ h₂
  obtain ⟨hoi, -, bs, hlen, -, hout, hpos, hret, hcount⟩ := ha
  have hl : s'.out.length = s.out.length + bs.length := by rw [hout, List.length_append]
  refine ⟨hoi ▸ h.reopened, ?_, ?_, ?_, ?_, hoi ▸ h.upperUsable, hoi ▸ h.lowerUsable, ?_, ?_⟩
  · rw [hpos, h.pos_eq, hl, Nat.add_assoc]
  · rw [hret, h.ret_eq, hl]
  · have := h.count_eq
    omega
  · intro k h₁ h₂
    by_cases hold : k < s.pos
    · exact h.way k h₁ hold
    · have hk := hsize k (by omega) h₂
      exact hdel k (by omega) hk.2 hk.1
  · intro hnull
    rw [hoi] at hnull
    refine ⟨(h.upperNull hnull).1, fun k h₁ h₂ => ?_⟩
    by_cases hold : k < s.pos
    · exact (h.upperNull hnull).2 k h₁ hold
    · exact hup hnull k (by omega) (hsize k (by omega) h₂).2
  · intro hnull
    rw [hoi] at hnull
    refine ⟨(h.lowerNull hnull).1, fun k h₁ h₂ => ?_⟩
    by_cases hold : k < s.pos
    · exact (h.lowerNull hnull).2 k h₁ hold
    · exact hlow hnull k (by omega) (hsize k (by omega) h₂).2

theorem FilePtr.openWith_ne_null {p : FilePtr} {o : Option Errno} (idx : ℕ) :
    p.openWith o idx ≠ .null := by
  cases p with
  | null => cases o <;> exact nofun
  | opened _ => exact nofun
  | err _ => exact nofun

theorem Accounted.openUpper (h : Accounted f pos count s)
    (hopen : s.oi.upperFile.Opens env.openUpper) :
    Accounted f pos count { s with oi := { s.oi with
      upperFile := s.oi.upperFile.openWith env.openUpper 0 } } :=
  ⟨⟨h.reopened.1, h.reopened.2, h.reopened.3⟩, h.pos_eq, h.ret_eq, h.count_eq, h.way,
    fun _ => h.upperUsable hopen.usable, h.lowerUsable,
    fun hnull => absurd hnull (FilePtr.openWith_ne_null 0), h.lowerNull⟩

theorem readLower_openWith (f : OvlFile) (oi : OvlInode) {o : Option Errno}
    (hopen : oi.lowerFile.Opens o) :
    f.readLower { oi with lowerFile := oi.lowerFile.openWith o f.ovlPathLowerdata } =
      f.readLower oi := by
  cases hp : oi.lowerFile with
  | null =>
    rw [hp] at hopen
    rw [show o = none from hopen, OvlFile.readLower, OvlFile.readLower, hp]
    rfl
  | opened idx =>
    rw [OvlFile.readLower, OvlFile.readLower, hp]
    rfl
  | err e =>
    rw [hp] at hopen
    exact hopen.elim

theorem Accounted.openLower (h : Accounted f pos count s)
    (hopen : s.oi.lowerFile.Opens env.openLower) :
    Accounted f pos count { s with oi := { s.oi with
      lowerFile := s.oi.lowerFile.openWith env.openLower f.ovlPathLowerdata } } :=
  ⟨⟨h.reopened.1, h.reopened.2, (readLower_openWith f s.oi hopen).trans h.reopened.3⟩, h.pos_eq,
    h.ret_eq, h.count_eq, h.way, h.upperUsable, fun _ => h.lowerUsable hopen.usable, h.upperNull,
    fun hnull => absurd hnull (FilePtr.openWith_ne_null _)⟩

/-- What a pass may end with if the accounts are to agree. -/
def Pass.Accounted (f : OvlFile) (pos count : ℕ) : Pass → Prop
  | .again s => FzzOverlay.Accounted f pos count s
  | .done ret s => (⟨ret, s.pos, s.out, s.oi⟩ : ReadResult).Agrees pos
  | .oops => True

/-- Where a late failure is excluded, a call can only end the request at its start. -/
theorem Accounted.at_start (hlate : ¬ LateFailure f pos count) (h : Accounted f pos count s)
    (hc : 0 < s.count)
    (hbad : (f.oi.blockCount < ovlGetBlock s.pos ∧ s.oi.upperFile.Usable) ∨
      (f.Copied s.pos ∧ s.oi.upperFile = .null) ∨ (f.Uncopied s.pos ∧ s.oi.lowerFile = .null)) :
    s.pos = pos := by
  by_contra hne
  have hpos := h.pos_eq
  have hcount := h.count_eq
  refine hlate ⟨s.pos, by omega, by omega, h.way, ?_⟩
  obtain ⟨hpast, huse⟩ | ⟨hd, hnull⟩ | ⟨hu, hnull⟩ := hbad
  · exact .inl ⟨hpast, h.upperUsable huse⟩
  · exact .inr (.inl ⟨hd, h.upperNull hnull⟩)
  · exact .inr (.inr ⟨hu, h.lowerNull hnull⟩)

theorem tailPass_accounted (h : Accounted f pos count s) (hstart : s.pos = pos) (file : File) :
    (tailPass env file s).Accounted f pos count := by
  have hnil := h.out_nil hstart
  unfold tailPass
  split
  · exact agrees_of_start le_rfl hstart hnil s.oi
  · next bs _ =>
    have hret := h.ret_eq
    rw [hnil, List.length_nil] at hret
    refine .inl ⟨by simp only; omega, ?_, ?_⟩
    · simp only [ReadState.deliver]
      omega
    · simp only [ReadState.deliver, hnil, List.nil_append]
      omega

theorem copiedPass_accounted {c : ℕ} (h : Accounted f pos count s) (hc : c ≤ s.count)
    (hup : f.oi.upperFile.Usable) (hptr : s.oi.upperFile ≠ .null)
    (hblk : ∀ k, s.pos ≤ k → k < s.pos + c → f.Copied k) :
    (copiedPass env c f.upperData s).Accounted f pos count := by
  have hnext : Accounted f pos count (readLoop env f.upperData c c s).1 :=
    h.advance (readLoop_advanced env f.upperData c c s) hc
      (fun k h₁ h₂ hsize => .inr ⟨hblk k h₁ h₂, hup, hsize⟩) (fun hnull => absurd hnull hptr)
      fun _ => hblk
  rw [copiedPass]
  revert hnext
  obtain ⟨s', x⟩ := readLoop env f.upperData c c s
  intro hnext
  cases x with
  | drained => exact hnext
  | failed => exact hnext
  | atEnd =>
    simp only
    split
    · exact hnext.agrees s'.oi
    · exact hnext

theorem uncopiedPass_accounted {c : ℕ} (h : Accounted f pos count s) (hc : c ≤ s.count)
    (hlow : f.oi.lowerFile.Usable) (hptr : s.oi.lowerFile ≠ .null)
    (hblk : ∀ k, s.pos ≤ k → k < s.pos + c → f.Uncopied k) :
    (uncopiedPass env c (f.readLower f.oi) s).Accounted f pos count := by
  have hnext : Accounted f pos count (readLoop env (f.readLower f.oi) c c s).1 :=
    h.advance (readLoop_advanced env (f.readLower f.oi) c c s) hc
      (fun k h₁ h₂ hsize => .inl ⟨hblk k h₁ h₂, hlow, hsize⟩) (fun _ => hblk)
      fun hnull => absurd hnull hptr
  rw [uncopiedPass]
  revert hnext
  obtain ⟨s', x⟩ := readLoop env (f.readLower f.oi) c c s
  intro hnext
  cases x with
  | drained => exact hnext
  | failed => exact hnext
  | atEnd =>
    exact ⟨hnext.reopened, hnext.pos_eq, hnext.ret_eq, hnext.count_eq, hnext.way,
      hnext.upperUsable, hnext.lowerUsable, hnext.upperNull, hnext.lowerNull⟩

theorem blockReadPass_accounted (hcow : f.oi.cowStatus = true) (hup : f.upper.isSome)
    (hlate : ¬ LateFailure f pos count) (h : Accounted f pos count s) (hc : 0 < s.count) :
    (blockReadPass env f s).Accounted f pos count := by
  have hchunk := chunk_le_count s.pos s.count
  rw [blockReadPass]
  by_cases hpast : s.oi.blockCount < ovlGetBlock s.pos
  · have hpast' : f.oi.blockCount < ovlGetBlock s.pos := by rwa [← h.reopened.blockCount]
    rw [if_pos hpast]
    obtain hp | ⟨e, oi, hnull, hp⟩ | ⟨hopen, hp⟩ :=
      useUpper_exact env s hup (tailPass env)
    · rw [hp]
      trivial
    · have hstart := h.at_start hlate hc (.inl ⟨hpast', by rw [hnull]; trivial⟩)
      rw [hp]
      exact agrees_of_start e.ret_neg.le hstart (h.out_nil hstart) oi
    · have hstart := h.at_start hlate hc (.inl ⟨hpast', hopen.usable⟩)
      rw [hp]
      exact tailPass_accounted (h.openUpper hopen) hstart _
  rw [if_neg hpast]
  rw [h.reopened.blockCount] at hpast
  cases hm : s.oi.blockStatus with
  | none => trivial
  | some m =>
    have hm' := hm
    rw [h.reopened.blockStatus] at hm'
    simp only
    by_cases hcell : m.cells (ovlGetBlock s.pos) = .uncopy
    · have hu : f.Uncopied s.pos := ⟨hcow, Nat.le_of_not_lt hpast, m, hm', hcell⟩
      rw [if_neg (not_ne_iff.mpr hcell)]
      split
      · exact h.agrees s.oi
      obtain hp | ⟨e, oi, hnull, hp⟩ | ⟨hopen, hp⟩ :=
        useLower_exact env f s (uncopiedPass env (chunk s.pos s.count))
      · rw [hp]
        trivial
      · have hstart := h.at_start hlate hc (.inr (.inr ⟨hu, hnull⟩))
        rw [hp]
        exact agrees_of_start e.ret_neg.le hstart (h.out_nil hstart) oi
      · rw [hp, h.reopened.readLower]
        exact uncopiedPass_accounted (h.openLower hopen) hchunk (h.lowerUsable hopen.usable)
          (FilePtr.openWith_ne_null _) fun k h₁ h₂ => hu.of_block_eq (ovlGetBlock_chunk h₁ h₂)
    · have hd : f.Copied s.pos := ⟨hcow, Nat.le_of_not_lt hpast, m, hm', hcell⟩
      rw [if_pos hcell]
      obtain hp | ⟨e, oi, hnull, hp⟩ | ⟨hopen, hp⟩ :=
        useUpper_exact env s hup (copiedPass env (chunk s.pos s.count))
      · rw [hp]
        trivial
      · have hstart := h.at_start hlate hc (.inr (.inl ⟨hd, hnull⟩))
        rw [hp]
        exact agrees_of_start e.ret_neg.le hstart (h.out_nil hstart) oi
      · rw [hp]
        exact copiedPass_accounted (h.openUpper hopen) hchunk (h.upperUsable hopen.usable)
          (FilePtr.openWith_ne_null _) fun k h₁ h₂ => hd.of_block_eq (ovlGetBlock_chunk h₁ h₂)

/-- Without late failures the accounts of every request that returns agree. -/
theorem agrees_of_not_late {fuel : ℕ} {res : ReadResult} (hcow : f.oi.cowStatus = true)
    (hup : f.upper.isSome) (hlate : ¬ LateFailure f pos count)
    (h : blockReadIter fuel env f pos count = .ret res) : res.Agrees pos := by
  have hloop : ∀ fuel s, Accounted f pos count s → blockReadLoop env f fuel s = .ret res →
      res.Agrees pos := by
    intro fuel
    induction fuel with
    | zero => exact fun _ _ h => nomatch h
    | succ fuel ih =>
      intro s hs h
      by_cases hz : s.count = 0
      · rw [blockReadLoop, if_pos hz] at h
        cases h
        exact hs.agrees s.oi
      · rw [blockReadLoop, if_neg hz] at h
        have hpass : (blockReadPass env f s).Accounted f pos count :=
          blockReadPass_accounted hcow hup hlate hs (Nat.pos_of_ne_zero hz)
        cases hp : blockReadPass env f s with
        | again s' =>
          rw [hp] at h hpass
          exact ih s' hpass h
        | done ret s' =>
          rw [hp] at h hpass
          cases h
          exact hpass
        | oops =>
          rw [hp] at h
          cases h
  refine hloop fuel _ ⟨.refl f f.oi, rfl, rfl, rfl, ?_, id, id, ?_, ?_⟩ h
  · exact fun k h₁ h₂ => absurd h₁ (Nat.not_le_of_lt h₂)
  · exact fun hnull => ⟨hnull, fun k h₁ h₂ => absurd h₁ (Nat.not_le_of_lt h₂)⟩
  · exact fun hnull => ⟨hnull, fun k h₁ h₂ => absurd h₁ (Nat.not_le_of_lt h₂)⟩

end Accounts

-- ════════════════════════════════════════════════════════════════════════
-- A request that fails late
-- ════════════════════════════════════════════════════════════════════════

theorem readLoop_one {env : ReadEnv} {file : File} {c : ℕ} {s : ReadState} (hc : 0 < c)
    (hrd : env.rd s.calls = .full) (hsize : s.pos + c ≤ file.size) :
    readLoop env file c c s = (s.deliver (file.read s.pos c), .drained) := by
  have hlen := length_read_of_le hsize
  have hne : file.read s.pos c ≠ [] := by
    intro hnil
    rw [hnil, List.length_nil] at hlen
    omega
  obtain ⟨n, rfl⟩ : ∃ n, c = n + 1 := ⟨c - 1, by omega⟩
  rw [readLoop, if_neg (by omega), hrd, VfsRead.run]
  simp only
  rw [if_neg hne, hlen, Nat.sub_self]
  cases n with
  | zero => rfl
  | succ n => rw [readLoop, if_pos rfl]

theorem copiedPass_one {env : ReadEnv} {file : File} {c : ℕ} {s : ReadState} (oi : OvlInode)
    (hc : 0 < c) (hrd : env.rd s.calls = .full) (hsize : s.pos + c ≤ file.size) :
    copiedPass env c file { s with oi := oi } =
      .again (({ s with oi := oi } : ReadState).deliver (file.read s.pos c)) := by
  rw [copiedPass, readLoop_one (s := { s with oi := oi }) hc hrd hsize]

theorem uncopiedPass_one {env : ReadEnv} {file : File} {c : ℕ} {s : ReadState} (oi : OvlInode)
    (hc : 0 < c) (hrd : env.rd s.calls = .full) (hsize : s.pos + c ≤ file.size) :
    uncopiedPass env c file { s with oi := oi } =
      .again (({ s with oi := oi } : ReadState).deliver (file.read s.pos c)) := by
  rw [uncopiedPass, readLoop_one (s := { s with oi := oi }) hc hrd hsize]

theorem tailPass_fail {env : ReadEnv} {s : ReadState} {e : Errno} (file : File) (oi : OvlInode)
    (hrd : env.rd s.calls = .fail e) :
    tailPass env file { s with oi := oi } =
      .done 0 { s with oi := oi, calls := s.calls + 1 } := by
  rw [tailPass, hrd, VfsRead.run]

theorem chunk_add_eq {pos count i : ℕ} (h₁ : pos ≤ i) (h₂ : i < pos + count)
    (hb : ovlGetBlock pos ≠ ovlGetBlock i) :
    pos + chunk pos count = ovlGetBlock pos * BLOCK_SIZE := by
  simp only [chunk, ovlGetBlock_eq, BLOCK_SIZE] at hb ⊢
  split <;> omega

theorem ovlGetBlock_mul (b : ℕ) : ovlGetBlock (b * BLOCK_SIZE) = b + 1 := by
  rw [ovlGetBlock_eq, BLOCK_SIZE]
  omega

/-- In `env` the request gets to the block of offset `i`: the files it needs open, and the
reads before that block are complete. -/
structure Reaches (env : ReadEnv) (f : OvlFile) (pos count i : ℕ) : Prop where
  upper : f.upper.isSome
  lowerstack : f.lowerstack ≠ []
  cow : f.oi.cowStatus = true
  lt : i < pos + count
  delivers : ∀ k, pos ≤ k → k < i → Delivers f k
  openUpper : ∀ k, pos ≤ k → k < i → f.Copied k → f.oi.upperFile.Opens env.openUpper
  openLower : ∀ k, pos ≤ k → k < i → f.Uncopied k → f.oi.lowerFile.Opens env.openLower
  reads : ∀ n, n < ovlGetBlock i - ovlGetBlock pos → env.rd n = .full

/-- Invariant of such a request: every pass so far delivered the rest of a block. -/
structure Walking (env : ReadEnv) (f : OvlFile) (pos count i : ℕ) (s : ReadState) : Prop where
  reopened : Reopened f f.oi s.oi
  opens : OpensAlike env f s.oi
  lowerEnd : s.lowerEnd = false
  pos_le : pos ≤ s.pos
  le_stop : s.pos ≤ i
  count_eq : s.pos + s.count = pos + count
  calls_eq : s.calls + ovlGetBlock pos = ovlGetBlock s.pos
  upperSame : (∀ k, pos ≤ k → k < s.pos → f.Uncopied k) → s.oi.upperFile = f.oi.upperFile
  lowerSame : (∀ k, pos ≤ k → k < s.pos → f.Copied k) → s.oi.lowerFile = f.oi.lowerFile

section Late

variable {env : ReadEnv} {f : OvlFile} {pos count i : ℕ} {s : ReadState}

theorem Walking.next {bs : List UInt8} {oi : OvlInode} (hr : Reaches env f pos count i)
    (h : Walking env f pos count i s) (hb : ovlGetBlock s.pos ≠ ovlGetBlock i)
    (hlen : bs.length = chunk s.pos s.count) (hreop : Reopened f f.oi oi)
    (hopens : OpensAlike env f oi)
    (hup : f.Uncopied s.pos → oi.upperFile = s.oi.upperFile)
    (hlow : f.Copied s.pos → oi.lowerFile = s.oi.lowerFile) :
    Walking env f pos count i (({ s with oi := oi } : ReadState).deliver bs) ∧
      ovlGetBlock (({ s with oi := oi } : ReadState).deliver bs).pos = ovlGetBlock s.pos + 1 := by
  have hlt := hr.lt
  have hle := h.le_stop
  have hcount := h.count_eq
  have hc : 0 < s.count := by omega
  have hstop : s.pos + chunk s.pos s.count ≤ i := chunk_add_le hle (by omega) hb
  have hend : s.pos + chunk s.pos s.count = ovlGetBlock s.pos * BLOCK_SIZE :=
    chunk_add_eq hle (by omega) hb
  have hpos := chunk_pos s.pos hc
  have hblock : ovlGetBlock (s.pos + bs.length) = ovlGetBlock s.pos + 1 := by
    rw [hlen, hend, ovlGetBlock_mul]
  refine ⟨⟨hreop, hopens, h.lowerEnd, ?_, ?_, ?_, ?_, ?_, ?_⟩, hblock⟩
  · exact le_trans h.pos_le (Nat.le_add_right _ _)
  · simp only [ReadState.deliver]
    omega
  · simp only [ReadState.deliver]
    omega
  · have := h.calls_eq
    simp only [ReadState.deliver]
    omega
  · intro hall
    simp only [ReadState.deliver] at hall
    refine (hup (hall s.pos h.pos_le (by omega))).trans (h.upperSame fun k h₁ h₂ => ?_)
    exact hall k h₁ (by omega)
  · intro hall
    simp only [ReadState.deliver] at hall
    refine (hlow (hall s.pos h.pos_le (by omega))).trans (h.lowerSame fun k h₁ h₂ => ?_)
    exact hall k h₁ (by omega)

theorem FilePtr.openWith_opens_iff (p : FilePtr) (o : Option Errno) (idx : ℕ) :
    (p.openWith o idx).Opens o ↔ p.Opens o := by
  cases p with
  | null => exact FilePtr.ofOpen_opens_iff o idx
  | opened _ => exact .rfl
  | err _ => exact .rfl

theorem Walking.reads (hr : Reaches env f pos count i) (h : Walking env f pos count i s)
    (hb : ovlGetBlock s.pos ≠ ovlGetBlock i) : env.rd s.calls = .full := by
  have hcalls := h.calls_eq
  have hmono := ovlGetBlock_mono h.le_stop
  exact hr.reads s.calls (by omega)

/-- Every pass before the block of offset `i` delivers the rest of its block. -/
theorem Walking.pass (hr : Reaches env f pos count i) (h : Walking env f pos count i s)
    (hb : ovlGetBlock s.pos ≠ ovlGetBlock i) :
    ∃ s', blockReadPass env f s = .again s' ∧ Walking env f pos count i s' ∧
      ovlGetBlock s'.pos = ovlGetBlock s.pos + 1 := by
  have hlt := hr.lt
  have hle := h.le_stop
  have hcount := h.count_eq
  have hc : 0 < s.count := by omega
  have hne : s.pos ≠ i := fun heq => hb (heq ▸ rfl)
  have hstop : s.pos + chunk s.pos s.count ≤ i := chunk_add_le hle (by omega) hb
  have hpos := chunk_pos s.pos hc
  have hlow := h.pos_le
  have hlast := hr.delivers (s.pos + chunk s.pos s.count - 1) (by omega) (by omega)
  have hblk : ovlGetBlock (s.pos + chunk s.pos s.count - 1) = ovlGetBlock s.pos :=
    ovlGetBlock_chunk (by omega) (show _ < s.pos + chunk s.pos s.count by omega)
  have hrd := h.reads hr hb
  obtain ⟨hu, -, -⟩ | ⟨hd, -, -⟩ := hr.delivers s.pos hlow (by omega)
  · have hopen := h.opens.lower.mpr (hr.openLower s.pos hlow (by omega) hu)
    have hsize : s.pos + chunk s.pos s.count ≤ (f.readLower s.oi).size := by
      obtain ⟨-, -, hk⟩ | ⟨hd, -, -⟩ := hlast
      · rw [h.reopened.readLower]
        omega
      · exact absurd (hu.of_block_eq hblk) hd.not_uncopied
    rw [blockReadPass_of_uncopied env h.reopened hu, if_neg (by simp [h.lowerEnd]),
      useLower_of_opens hr.lowerstack hopen, uncopiedPass_one _ hpos hrd hsize]
    refine ⟨_, rfl, h.next hr hb (length_read_of_le hsize) ?_ ?_ (fun _ => rfl) ?_⟩
    · exact ⟨h.reopened.1, h.reopened.2, (readLower_openWith f s.oi hopen).trans h.reopened.3⟩
    · exact ⟨h.opens.upper, (FilePtr.openWith_opens_iff _ _ _).trans h.opens.lower⟩
    · exact fun hd => absurd hu hd.not_uncopied
  · have hopen := h.opens.upper.mpr (hr.openUpper s.pos hlow (by omega) hd)
    have hsize : s.pos + chunk s.pos s.count ≤ f.upperData.size := by
      obtain ⟨hu, -, -⟩ | ⟨-, -, hk⟩ := hlast
      · exact absurd hu (hd.of_block_eq hblk).not_uncopied
      · omega
    rw [blockReadPass_of_copied env h.reopened hd, useUpper_of_opens hr.upper hopen,
      copiedPass_one _ hpos hrd hsize]
    refine ⟨_, rfl, h.next hr hb (length_read_of_le hsize) ?_ ?_ ?_ fun _ => rfl⟩
    · exact ⟨h.reopened.1, h.reopened.2, h.reopened.3⟩
    · exact ⟨(FilePtr.openWith_opens_iff _ _ _).trans h.opens.upper, h.opens.lower⟩
    · exact fun hu => absurd hu hd.not_uncopied

/-- The request gets to the block of offset `i`. -/
theorem Walking.arrives (hr : Reaches env f pos count i) (h : Walking env f pos count i s) :
    ∃ n s', Walking env f pos count i s' ∧ ovlGetBlock s'.pos = ovlGetBlock i ∧
      ∀ fuel, blockReadLoop env f (fuel + n) s = blockReadLoop env f fuel s' := by
  have hmono := ovlGetBlock_mono h.le_stop
  obtain ⟨d, hd⟩ : ∃ d, ovlGetBlock s.pos + d = ovlGetBlock i := ⟨_, Nat.add_sub_of_le hmono⟩
  clear hmono
  induction d generalizing s with
  | zero => exact ⟨0, s, h, hd, fun _ => rfl⟩
  | succ d ih =>
    obtain ⟨s₁, hpass, h₁, hblock⟩ := h.pass hr (by omega)
    obtain ⟨n, s', h', hat, hrun⟩ := ih h₁ (by omega)
    refine ⟨n + 1, s', h', hat, fun fuel => ?_⟩
    have hz : s.count ≠ 0 := by
      have h₁ := h.count_eq
      have h₂ := h.le_stop
      have h₃ := hr.lt
      omega
    rw [← Nat.add_assoc, blockReadLoop, if_neg hz, hpass]
    exact hrun fuel

/-- A request whose pass in the block of offset `i` returns an error or 0 disagrees. -/
theorem disagrees_of_pass (hr : Reaches env f pos count i)
    (hb : ovlGetBlock pos < ovlGetBlock i)
    (hfail : ∀ s, Walking env f pos count i s → ovlGetBlock s.pos = ovlGetBlock i →
      ∃ (ret : ℤ) (t : ReadState), blockReadPass env f s = .done ret t ∧ ret ≤ 0 ∧
        t.pos = s.pos) :
    ∃ fuel res, blockReadIter fuel env f pos count = .ret res ∧ ¬ res.Agrees pos := by
  have hle : pos ≤ i := by
    by_contra hlt
    have := ovlGetBlock_mono (Nat.le_of_not_le hlt)
    omega
  have hinit : Walking env f pos count i ⟨f.oi, pos, count, 0, false, [], 0⟩ :=
    ⟨.refl f f.oi, ⟨.rfl, .rfl⟩, rfl, le_rfl, hle, rfl, Nat.zero_add _, fun _ => rfl, fun _ => rfl⟩
  obtain ⟨n, s, h, hat, hrun⟩ := hinit.arrives hr
  obtain ⟨ret, t, hpass, hret, hpos⟩ := hfail s h hat
  have hz : s.count ≠ 0 := by
    have h₁ := h.count_eq
    have h₂ := h.le_stop
    have h₃ := hr.lt
    omega
  have hlt : pos < s.pos := by
    by_contra hge
    have := ovlGetBlock_mono (Nat.le_of_not_lt hge)
    omega
  refine ⟨1 + n, ⟨ret, t.pos, t.out, t.oi⟩, ?_, ?_⟩
  · rw [blockReadIter, hrun, blockReadLoop, if_neg hz, hpass]
  · rintro (⟨h₁, h₂, -⟩ | ⟨-, h₂⟩)
    · simp only at h₁ h₂
      omega
    · simp only at h₂
      omega

/-- The block that a late failure ends in is not the first one. -/
theorem LateFailure.block_lt (hi : pos < i) (hdel : ∀ k, pos ≤ k → k < i → Delivers f k)
    (h : (f.oi.blockCount < ovlGetBlock i ∧ f.oi.upperFile.Usable) ∨
      (f.Copied i ∧ f.oi.upperFile = .null ∧ ∀ k, pos ≤ k → k < i → f.Uncopied k) ∨
      (f.Uncopied i ∧ f.oi.lowerFile = .null ∧ ∀ k, pos ≤ k → k < i → f.Copied k)) :
    ovlGetBlock pos < ovlGetBlock i := by
  refine lt_of_le_of_ne (ovlGetBlock_mono hi.le) fun heq => ?_
  obtain ⟨hpast, -⟩ | ⟨hd, -, hall⟩ | ⟨hu, -, hall⟩ := h
  · obtain ⟨⟨-, hle, -⟩, -⟩ | ⟨⟨-, hle, -⟩, -⟩ := hdel pos le_rfl hi
    · omega
    · omega
  · exact (hd.of_block_eq heq).not_uncopied (hall pos le_rfl hi)
  · exact (hall pos le_rfl hi).not_uncopied (hu.of_block_eq heq)

/-- In the block of an offset past the map, a read that fails makes the request return 0. -/
theorem late_past (hup : f.upper.isSome) (hstack : f.lowerstack ≠ [])
    (hcow : f.oi.cowStatus = true) (hi : pos < i) (hlt : i < pos + count)
    (hdel : ∀ k, pos ≤ k → k < i → Delivers f k) (hpast : f.oi.blockCount < ovlGetBlock i)
    (huse : f.oi.upperFile.Usable) :
    ∃ fuel env res, blockReadIter fuel env f pos count = .ret res ∧ ¬ res.Agrees pos := by
  have hb : ovlGetBlock pos < ovlGetBlock i := LateFailure.block_lt hi hdel (.inl ⟨hpast, huse⟩)
  obtain ⟨rd, hfull, hfail⟩ : ∃ rd : ℕ → VfsRead,
      (∀ n, n < ovlGetBlock i - ovlGetBlock pos → rd n = .full) ∧
        rd (ovlGetBlock i - ovlGetBlock pos) = .fail EINTR :=
    ⟨fun n => if n < ovlGetBlock i - ovlGetBlock pos then .full else .fail EINTR,
      fun n hn => if_pos hn, if_neg (lt_irrefl _)⟩
  have hr : Reaches ⟨none, none, none, rd⟩ f pos count i := by
    refine ⟨hup, hstack, hcow, hlt, hdel, ?_, ?_, hfull⟩
    · exact fun _ _ _ _ => huse.opens fun _ => rfl
    · intro k h₁ h₂ hu
      obtain ⟨-, hlow, -⟩ | ⟨hd, -, -⟩ := hdel k h₁ h₂
      · exact hlow.opens fun _ => rfl
      · exact absurd hu hd.not_uncopied
  obtain ⟨fuel, res, hres⟩ := disagrees_of_pass hr hb fun s hs hat => by
    have hopen := hs.opens.upper.mpr (huse.opens fun _ => rfl)
    have hcalls : s.calls = ovlGetBlock i - ovlGetBlock pos := by
      have := hs.calls_eq
      omega
    rw [← hat] at hpast
    rw [blockReadPass_of_past _ hs.reopened hpast, useUpper_of_opens hup hopen,
      tailPass_fail _ _ (show rd s.calls = .fail EINTR by rw [hcalls, hfail])]
    exact ⟨0, _, rfl, le_rfl, rfl⟩
  exact ⟨fuel, _, res, hres⟩

/-- In the first copied block, `upper_file` cannot be opened. -/
theorem late_copied (hup : f.upper.isSome) (hstack : f.lowerstack ≠ [])
    (hcow : f.oi.cowStatus = true) (hi : pos < i) (hlt : i < pos + count)
    (hdel : ∀ k, pos ≤ k → k < i → Delivers f k) (hd : f.Copied i)
    (hnull : f.oi.upperFile = .null) (hall : ∀ k, pos ≤ k → k < i → f.Uncopied k) :
    ∃ fuel env res, blockReadIter fuel env f pos count = .ret res ∧ ¬ res.Agrees pos := by
  have hb := LateFailure.block_lt hi hdel (.inr (.inl ⟨hd, hnull, hall⟩))
  have hr : Reaches ⟨none, some EINTR, none, fun _ => .full⟩ f pos count i := by
    refine ⟨hup, hstack, hcow, hlt, hdel, ?_, ?_, fun _ _ => rfl⟩
    · exact fun k h₁ h₂ hd => absurd (hall k h₁ h₂) hd.not_uncopied
    · intro k h₁ h₂ hu
      obtain ⟨-, hlow, -⟩ | ⟨hd, -, -⟩ := hdel k h₁ h₂
      · exact hlow.opens fun _ => rfl
      · exact absurd hu hd.not_uncopied
  obtain ⟨fuel, res, hres⟩ := disagrees_of_pass hr hb fun s hs hat => by
    have hptr : s.oi.upperFile = .null := by
      rw [hs.upperSame fun k h₁ h₂ => hall k h₁ (lt_of_lt_of_le h₂ hs.le_stop), hnull]
    rw [blockReadPass_of_copied _ hs.reopened (hd.of_block_eq hat),
      useUpper_of_error hup hptr rfl]
    exact ⟨_, _, rfl, EINTR.ret_neg.le, rfl⟩
  exact ⟨fuel, _, res, hres⟩

/-- In the first uncopied block, `lower_file` cannot be opened. -/
theorem late_uncopied (hup : f.upper.isSome) (hstack : f.lowerstack ≠ [])
    (hcow : f.oi.cowStatus = true) (hi : pos < i) (hlt : i < pos + count)
    (hdel : ∀ k, pos ≤ k → k < i → Delivers f k) (hu : f.Uncopied i)
    (hnull : f.oi.lowerFile = .null) (hall : ∀ k, pos ≤ k → k < i → f.Copied k) :
    ∃ fuel env res, blockReadIter fuel env f pos count = .ret res ∧ ¬ res.Agrees pos := by
  have hb := LateFailure.block_lt hi hdel (.inr (.inr ⟨hu, hnull, hall⟩))
  have hr : Reaches ⟨none, none, some EINTR, fun _ => .full⟩ f pos count i := by
    refine ⟨hup, hstack, hcow, hlt, hdel, ?_, ?_, fun _ _ => rfl⟩
    · intro k h₁ h₂ hd
      obtain ⟨hu, -, -⟩ | ⟨-, huse, -⟩ := hdel k h₁ h₂
      · exact absurd hu hd.not_uncopied
      · exact huse.opens fun _ => rfl
    · exact fun k h₁ h₂ hu => absurd hu (hall k h₁ h₂).not_uncopied
  obtain ⟨fuel, res, hres⟩ := disagrees_of_pass hr hb fun s hs hat => by
    have hptr : s.oi.lowerFile = .null := by
      rw [hs.lowerSame fun k h₁ h₂ => hall k h₁ (lt_of_lt_of_le h₂ hs.le_stop), hnull]
    rw [blockReadPass_of_uncopied _ hs.reopened (hu.of_block_eq hat),
      if_neg (by simp [hs.lowerEnd]), useLower_of_error hstack hptr rfl]
    exact ⟨_, _, rfl, EINTR.ret_neg.le, rfl⟩
  exact ⟨fuel, _, res, hres⟩

/-- The position and the return value of a read of a file in copy-on-write mode agree in every
environment, if and only if the request cannot fail late. -/
theorem read_position_agrees_iff (hcow : f.oi.cowStatus = true) (hup : f.upper.isSome)
    (hstack : f.lowerstack ≠ []) (pos count : ℕ) :
    (∀ fuel env res, blockReadIter fuel env f pos count = .ret res → res.Agrees pos) ↔
      ¬ LateFailure f pos count := by
  constructor
  · rintro hagree ⟨i, hi, hlt, hdel, h⟩
    have hbad : ∃ fuel env res, blockReadIter fuel env f pos count = .ret res ∧
        ¬ res.Agrees pos := by
      obtain ⟨hpast, huse⟩ | ⟨hd, hnull, hall⟩ | ⟨hu, hnull, hall⟩ := h
      · exact late_past hup hstack hcow hi hlt hdel hpast huse
      · exact late_copied hup hstack hcow hi hlt hdel hd hnull hall
      · exact late_uncopied hup hstack hcow hi hlt hdel hu hnull hall
    obtain ⟨fuel, env, res, hres, hno⟩ := hbad
    exact hno (hagree fuel env res hres)
  · intro hlate fuel env res hres
    exact agrees_of_not_late hcow hup hlate hres

end Late

/-- A lower file of exactly one block, its last byte being `1`, after the copy-up. -/
def oneBlockCow : OvlFile := freshCow (.lookedUp [SparseFile.empty.write 4095 [1]] zeroInode) 0 true

/-- A read of three bytes across two blocks that are not copied returns, and however its calls
end the position and the return value agree. -/
theorem read_position_agrees_across :
    (∃ res, blockReadIter 3 .full twoBlockCow 4094 3 = .ret res ∧ res.ret = 3) ∧
      ∀ fuel env res, blockReadIter fuel env twoBlockCow 4094 3 = .ret res → res.Agrees 4094 := by
  refine ⟨⟨_, rfl, rfl⟩, (read_position_agrees_iff rfl rfl (List.cons_ne_nil _ _) 4094 3).mpr ?_⟩
  have hnone : ∀ k, ¬ twoBlockCow.Copied k := by
    rintro k ⟨-, -, m, hm, hcell⟩
    cases hm
    exact hcell rfl
  rintro ⟨i, h₁, h₂, -, ⟨hpast, -⟩ | ⟨hd, -⟩ | ⟨-, -, hall⟩⟩
  · have hle : ovlGetBlock i ≤ 2 := by
      rw [ovlGetBlock_eq]
      omega
    exact absurd hpast (Nat.not_lt.mpr hle)
  · exact hnone i hd
  · exact hnone 4094 (hall 4094 le_rfl h₁)

/-- A read of two bytes across the end of the map delivers the first, and returns 0 when the
upper file cannot be read. -/
theorem read_position_disagrees : ∃ res,
    blockReadIter 2 ⟨none, none, none, fun n => if n < 1 then .full else .fail EINTR⟩ oneBlockCow
        4095 2 = .ret res ∧
      res.ret = 0 ∧ res.pos = 4096 ∧ res.out = [1] ∧ ¬ res.Agrees 4095 := by
  refine ⟨_, rfl, rfl, rfl, rfl, ?_⟩
  rintro (⟨-, h, -⟩ | ⟨h, -⟩)
  · cases h
  · cases h

end FzzOverlay

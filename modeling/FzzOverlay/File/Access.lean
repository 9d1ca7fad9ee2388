import FzzOverlay.File.Cache

/-!
# Accesses to the block map

`block_read_iter` and `block_write_iter` again, together with the indices at which they
read or write `block_status`, in order. Only the indices up to `block_count` lie in the
buffer.
-/

namespace FzzOverlay

open SparseFile

-- ════════════════════════════════════════════════════════════════════════
-- The calls with their accesses
-- ════════════════════════════════════════════════════════════════════════

/-- The accesses `is` come before those of `r`. -/
def logged {α : Type*} (is : List ℕ) (r : α × List ℕ) : α × List ℕ := (r.1, is ++ r.2)

@[simp] theorem logged_fst {α : Type*} (is : List ℕ) (r : α × List ℕ) : (logged is r).1 = r.1 :=
  rfl

@[simp] theorem logged_snd {α : Type*} (is : List ℕ) (r : α × List ℕ) :
    (logged is r).2 = is ++ r.2 :=
  rfl

/-- The access of one pass of the outer loop of `block_read_iter`. -/
def passAccess (s : ReadState) : List ℕ :=
  if s.oi.blockCount < ovlGetBlock s.pos then [] else [ovlGetBlock s.pos]

/-- `blockReadLoop` with its accesses. -/
def blockReadLoopT (env : ReadEnv) (f : OvlFile) :
    ℕ → ReadState → Outcome ReadResult × List ℕ
  | 0, _ => (.running, [])
  | fuel + 1, s =>
    if s.count = 0 then (.ret ⟨s.ret, s.pos, s.out, s.oi⟩, [])
    else
      match blockReadPass env f s with
      | .again s' => logged (passAccess s) (blockReadLoopT env f fuel s')
      | .done ret s' => (.ret ⟨ret, s'.pos, s'.out, s'.oi⟩, passAccess s)
      | .oops => (.oops, passAccess s)

/-- `blockReadIter` with its accesses. -/
def blockReadIterT (fuel : ℕ) (env : ReadEnv) (f : OvlFile) (pos count : ℕ) :
    Outcome ReadResult × List ℕ :=
  blockReadLoopT env f fuel ⟨f.oi, pos, count, 0, false, [], 0⟩

/-- `prepareAppend` with its accesses: the status of the last block is read once both files
are open. -/
def prepareAppendT (env : WriteEnv) (m : BlockMap) (f : OvlFile) : Prep × List ℕ :=
  (prepareAppend env m f,
    match (openUpper env.openUpper f).andThen (openLower env.openLower) with
    | .ready g => [g.oi.blockCount]
    | _ => [])

/-- The access of the test whether the first block has to be copied: `&&` does not look at
the status when the request starts at the beginning of the block. -/
def startAccess (req : WriteReq) : List ℕ :=
  if (ovlGetBlock req.pos - 1) * BLOCK_SIZE < req.pos then [ovlGetBlock req.pos] else []

/-- The access of the test whether the last block has to be copied. -/
def endAccess (req : WriteReq) : List ℕ :=
  if req.pos + req.data.length < ovlGetBlock (req.pos + req.data.length) * BLOCK_SIZE then
    [ovlGetBlock (req.pos + req.data.length)]
  else []

/-- `preparePositioned` with its accesses. -/
def preparePositionedT (env : WriteEnv) (m : BlockMap) (f : OvlFile) (req : WriteReq) :
    Prep × List ℕ :=
  match (if startCopies env.oob f.oi m req then
      copyBlock env env.copyStart (ovlGetBlock req.pos) f else .ready f) with
  | .ready g =>
    (if endCopies env.oob g.oi m req then
        copyBlock env env.copyEnd (ovlGetBlock (req.pos + req.data.length)) g
      else .ready g, startAccess req ++ endAccess req)
  | p => (p, startAccess req)

/-- `markLoop` with its accesses. -/
def markLoopT (blockCount endBlock : ℕ) :
    ℕ → ℕ → (ℕ → BlockStatus) × ℕ → ((ℕ → BlockStatus) × ℕ) × List ℕ
  | 0, _, r => (r, [])
  | fuel + 1, i, r =>
    if endBlock < i ∨ blockCount < i then (r, [])
    else if r.1 i = .uncopy then
      logged [i, i] (markLoopT blockCount endBlock fuel (i + 1)
        (Function.update r.1 i .copied, r.2 + 1))
    else logged [i] (markLoopT blockCount endBlock fuel (i + 1) r)

/-- The accesses of `storeData`: those of the marking loop, if it is reached. -/
def storeAccess (env : WriteEnv) (m : BlockMap) (f : OvlFile) (req : WriteReq) : List ℕ :=
  if f.realdataIsUpper ∧
      (writeLoop env req.append req.data.length 0 0 req.pos req.data f.upperData).ok then
    (markLoopT f.oi.blockCount (blockRange f.oi req).2 (f.oi.blockCount + 1)
      (blockRange f.oi req).1 (m.cells, f.oi.copyCount)).2
  else []

/-- `blockWriteIter` with its accesses. -/
def blockWriteIterT (env : WriteEnv) (f : OvlFile) (req : WriteReq) :
    Outcome WriteResult × List ℕ :=
  match f.oi.blockStatus with
  | none => (.oops, [])
  | some m =>
    match if req.append then prepareAppendT env m f else preparePositionedT env m f req with
    | (.oops, is) => (.oops, is)
    | (.fail ret g, is) => (.ret ⟨ret, req.pos, g, none⟩, is)
    | (.ready g, is) => (.ret (storeData env m g req), is ++ storeAccess env m g req)

-- ════════════════════════════════════════════════════════════════════════
-- They are the same calls
-- ════════════════════════════════════════════════════════════════════════

theorem blockReadLoopT_fst (env : ReadEnv) (f : OvlFile) (fuel : ℕ) (s : ReadState) :
    (blockReadLoopT env f fuel s).1 = blockReadLoop env f fuel s := by
  induction fuel generalizing s with
  | zero => rfl
  | succ fuel ih =>
    by_cases hc : s.count = 0
    · rw [blockReadLoopT, if_pos hc, blockReadLoop, if_pos hc]
    · rw [blockReadLoopT, if_neg hc, blockReadLoop, if_neg hc]
      cases blockReadPass env f s with
      | again s' => rw [logged_fst, ih]
      | done ret s' => rfl
      | oops => rfl

theorem preparePositionedT_fst (env : WriteEnv) (m : BlockMap) (f : OvlFile) (req : WriteReq) :
    (preparePositionedT env m f req).1 = preparePositioned env m f req := by
  rw [preparePositionedT, preparePositioned]
  generalize (if startCopies env.oob f.oi m req = true then
    copyBlock env env.copyStart (ovlGetBlock req.pos) f else .ready f) = p
  cases p with
  | ready g => rw [Prep.andThen_ready]
  | fail ret g => rw [Prep.andThen]
  | oops => rw [Prep.andThen]

theorem markLoopT_fst (bc e fuel i : ℕ) (r : (ℕ → BlockStatus) × ℕ) :
    (markLoopT bc e fuel i r).1 = markLoop bc e fuel i r := by
  induction fuel generalizing i r with
  | zero => rfl
  | succ fuel ih =>
    rw [markLoopT, markLoop]
    split
    · rfl
    · split
      · rw [logged_fst, ih]
      · rw [logged_fst, ih]

theorem blockWriteIterT_fst (env : WriteEnv) (f : OvlFile) (req : WriteReq) :
    (blockWriteIterT env f req).1 = blockWriteIter env f req := by
  rw [blockWriteIterT, blockWriteIter]
  cases f.oi.blockStatus with
  | none => rfl
  | some m =>
    have hprep : (if req.append then prepareAppendT env m f
        else preparePositionedT env m f req).1 =
        if req.append then prepareAppend env m f else preparePositioned env m f req := by
      split
      · rfl
      · exact preparePositionedT_fst env m f req
    simp only
    rw [← hprep]
    obtain ⟨p, is⟩ := if req.append then prepareAppendT env m f
      else preparePositionedT env m f req
    cases p with
    | ready g => rfl
    | fail ret g => rfl
    | oops => rfl

-- ════════════════════════════════════════════════════════════════════════
-- Which accesses lie in the buffer
-- ════════════════════════════════════════════════════════════════════════

section Bounds

variable {f : OvlFile} {m : BlockMap} {req : WriteReq}

theorem passAccess_le {s : ReadState} {i : ℕ} (h : i ∈ passAccess s) : i ≤ s.oi.blockCount := by
  unfold passAccess at h
  split at h
  · cases h
  · next hle =>
    rw [List.mem_singleton.mp h]
    exact Nat.le_of_not_lt hle

theorem blockReadLoopT_le {env : ReadEnv} {fuel : ℕ} {s : ReadState}
    (hs : s.oi.blockCount = f.oi.blockCount) :
    ∀ i ∈ (blockReadLoopT env f fuel s).2, i ≤ f.oi.blockCount := by
  have hkeep : OpensKeep env f fun oi => oi.blockCount = f.oi.blockCount :=
    ⟨fun _ h _ => h, fun _ h _ => h⟩
  induction fuel generalizing s with
  | zero =>
    intro i hi
    cases hi
  | succ fuel ih =>
    intro i hi
    rw [blockReadLoopT] at hi
    split at hi
    · cases hi
    · have hpass := blockReadPass_leaves hkeep hs
      cases hp : blockReadPass env f s with
      | again s' =>
        rw [hp] at hi hpass
        obtain hi | hi := List.mem_append.mp hi
        · exact hs ▸ passAccess_le hi
        · exact ih hpass i hi
      | done ret s' =>
        rw [hp] at hi
        exact hs ▸ passAccess_le hi
      | oops =>
        rw [hp] at hi
        exact hs ▸ passAccess_le hi

theorem markLoopT_le (bc e fuel i : ℕ) (r : (ℕ → BlockStatus) × ℕ) :
    ∀ j ∈ (markLoopT bc e fuel i r).2, j ≤ bc := by
  induction fuel generalizing i r with
  | zero =>
    intro j hj
    cases hj
  | succ fuel ih =>
    intro j hj
    rw [markLoopT] at hj
    split at hj
    · cases hj
    · next hguard =>
      have hi : i ≤ bc := by omega
      split at hj
      · rw [logged_snd, List.mem_append] at hj
        obtain hj | hj := hj
        · simp only [List.mem_cons, List.not_mem_nil, or_false, or_self] at hj
          exact hj ▸ hi
        · exact ih _ _ j hj
      · rw [logged_snd, List.mem_append] at hj
        obtain hj | hj := hj
        · exact List.mem_singleton.mp hj ▸ hi
        · exact ih _ _ j hj

theorem storeAccess_le (env : WriteEnv) (g : OvlFile) :
    ∀ i ∈ storeAccess env m g req, i ≤ g.oi.blockCount := by
  intro i hi
  unfold storeAccess at hi
  split at hi
  · exact markLoopT_le _ _ _ _ _ i hi
  · cases hi

theorem Prep.andThen_self (p : Prep) : p.andThen .ready = p := by
  cases p <;> rfl

theorem Prep.From.blockCount {x : FilePtr × FilePtr} {g : OvlFile}
    (h : (Prep.ready g).From f x) : g.oi.blockCount = f.oi.blockCount := by
  obtain ⟨data, rfl⟩ := h
  rfl

theorem prepareAppendT_le (env : WriteEnv) :
    ∀ i ∈ (prepareAppendT env m f).2, i ≤ f.oi.blockCount := by
  intro i hi
  have hfrom : ((openUpper env.openUpper f).andThen fun f =>
      (openLower env.openLower f).andThen .ready).From f
        (openedFiles env f.oi.upperFile f.oi.lowerFile) :=
    from_opens fun g => ⟨_, g.withFiles_files.symm⟩
  simp only [Prep.andThen_self] at hfrom
  simp only [prepareAppendT] at hi
  cases hp : (openUpper env.openUpper f).andThen (openLower env.openLower) with
  | ready g =>
    rw [hp] at hi hfrom
    rw [List.mem_singleton.mp hi, hfrom.blockCount]
  | fail ret g =>
    rw [hp] at hi
    cases hi
  | oops =>
    rw [hp] at hi
    cases hi

theorem startAccess_le {b : ℕ} (h : ovlGetBlock (req.pos + req.data.length) ≤ b) :
    ∀ i ∈ startAccess req, i ≤ b := by
  intro i hi
  have hmono : ovlGetBlock req.pos ≤ ovlGetBlock (req.pos + req.data.length) :=
    ovlGetBlock_mono (Nat.le_add_right _ _)
  unfold startAccess at hi
  split at hi
  · rw [List.mem_singleton.mp hi]
    omega
  · cases hi

/-- The end of a request always lies before the end of its block, so the status of that
block is always looked at. -/
theorem endAccess_eq (req : WriteReq) :
    endAccess req = [ovlGetBlock (req.pos + req.data.length)] :=
  if_pos (lt_ovlGetBlock_mul _)

theorem copyRange_usable {cenv : CopyEnv} {g g' : OvlFile} {pos : ℕ} {len : ℕ → ℕ}
    (h : copyRange cenv g pos len = .ready g') :
    g.oi.upperFile.Usable ∧ g.oi.lowerFile.Usable := by
  unfold copyRange at h
  split at h
  · next hl hu =>
    constructor
    · cases hup : g.oi.upperFile with
      | err e => simp [OvlFile.derefUpper, hup] at hu
      | _ => trivial
    · cases hlp : g.oi.lowerFile with
      | err e => simp [OvlFile.derefLower, hlp] at hl
      | _ => trivial
  · cases h

theorem openLower_usable {o : Option Errno} {g : OvlFile} (h : openLower o f = .ready g)
    (hg : g.oi.lowerFile.Usable) :
    g.oi.upperFile = f.oi.upperFile ∧ f.oi.lowerFile.Usable := by
  unfold openLower at h
  split at h
  · next hnull =>
    cases h
    exact ⟨rfl, hnull ▸ trivial⟩
  · cases h
  · cases h
    exact ⟨rfl, hg⟩

theorem openUpper_usable {o : Option Errno} {g : OvlFile} (h : openUpper o f = .ready g)
    (hg : g.oi.upperFile.Usable) :
    f.oi.upperFile.Usable ∧ g.oi.lowerFile = f.oi.lowerFile := by
  unfold openUpper at h
  split at h
  · cases h
  · next hnull =>
    cases h
    exact ⟨hnull ▸ trivial, rfl⟩
  · cases h
  · cases h
    exact ⟨hg, rfl⟩

/-- A block is copied only between files that can be used. -/
theorem copyBlock_usable {env : WriteEnv} {cenv : CopyEnv} {b : ℕ} {g : OvlFile}
    (h : copyBlock env cenv b f = .ready g) :
    f.oi.upperFile.Usable ∧ f.oi.lowerFile.Usable := by
  obtain ⟨f₁, h₁, h⟩ := Prep.andThen_eq_ready h
  obtain ⟨f₂, h₂, h⟩ := Prep.andThen_eq_ready h
  obtain ⟨hup, hlp⟩ := copyRange_usable h
  obtain ⟨hup₁, hlp₁⟩ := openLower_usable h₂ hlp
  rw [hup₁] at hup
  obtain ⟨hup₀, hlp₀⟩ := openUpper_usable h₁ hup
  exact ⟨hup₀, hlp₀ ▸ hlp₁⟩

theorem openUpper_none (hup : f.upper.isSome) (hfile : f.oi.upperFile.Usable) :
    ∃ idx, openUpper none f = .ready { f with oi := { f.oi with upperFile := .opened idx } } := by
  obtain ⟨u, hu⟩ := Option.isSome_iff_exists.mp hup
  unfold openUpper
  cases hp : f.oi.upperFile with
  | null =>
    rw [hu]
    exact ⟨0, rfl⟩
  | opened idx =>
    have hself : ({ f with oi := { f.oi with upperFile := .opened idx } } : OvlFile) = f := by
      rw [← hp]
    exact ⟨idx, by rw [hself, hu]⟩
  | err e =>
    rw [hp] at hfile
    exact hfile.elim

theorem openLower_none (hfile : f.oi.lowerFile.Usable) :
    ∃ idx, openLower none f = .ready { f with oi := { f.oi with lowerFile := .opened idx } } := by
  unfold openLower
  cases hp : f.oi.lowerFile with
  | null => exact ⟨_, rfl⟩
  | opened idx =>
    have hself : ({ f with oi := { f.oi with lowerFile := .opened idx } } : OvlFile) = f := by
      rw [← hp]
    exact ⟨idx, by rw [hself]⟩
  | err e =>
    rw [hp] at hfile
    exact hfile.elim

/-- With both files usable, a block is copied when nothing fails. -/
theorem copyBlock_plain (env : WriteEnv) (b : ℕ) (hup : f.upper.isSome)
    (ho : env.openUpper = none ∧ env.openLower = none)
    (hfiles : f.oi.upperFile.Usable ∧ f.oi.lowerFile.Usable) :
    ∃ g, copyBlock env .plain b f = .ready g := by
  obtain ⟨u, hu⟩ := Option.isSome_iff_exists.mp hup
  obtain ⟨idx, h₁⟩ := openUpper_none hup hfiles.1
  obtain ⟨idx', h₂⟩ := openLower_none
    (f := { f with oi := { f.oi with upperFile := .opened idx } }) hfiles.2
  rw [copyBlock, ho.1, h₁, Prep.andThen_ready, ho.2, h₂, Prep.andThen_ready, copyRange]
  simp only [OvlFile.derefLower, OvlFile.derefUpper, hu, Option.map_some, ovlCopyUpBlock_plain,
    lt_irrefl, if_false]
  exact ⟨_, rfl⟩

theorem prepAccess_subset {env : WriteEnv} {i : ℕ} (hm : f.oi.blockStatus = some m)
    (hreq : req.append = false) (hi : i ∈ (preparePositionedT env m f req).2) :
    i ∈ (blockWriteIterT env f req).2 := by
  rw [blockWriteIterT, hm]
  simp only [hreq, Bool.false_eq_true, if_false]
  revert hi
  obtain ⟨p, is⟩ := preparePositionedT env m f req
  intro hi
  cases p with
  | ready g => exact List.mem_append_left _ hi
  | fail ret g => exact hi
  | oops => exact hi

/-- A write makes no accesses past the map besides those of its preparation. -/
theorem blockWriteIterT_le {env : WriteEnv} (hm : f.oi.blockStatus = some m)
    (hprep : ∀ i ∈ (if req.append then prepareAppendT env m f
      else preparePositionedT env m f req).2, i ≤ f.oi.blockCount) :
    ∀ i ∈ (blockWriteIterT env f req).2, i ≤ f.oi.blockCount := by
  intro i hi
  have hfrom : ∃ x, (if req.append then prepareAppendT env m f
      else preparePositionedT env m f req).1.From f x := by
    by_cases hreq : req.append = true
    · rw [if_pos hreq]
      exact ⟨_, prepareAppend_from⟩
    · rw [if_neg hreq, preparePositionedT_fst]
      exact ⟨_, preparePositioned_from (by simpa using hreq)⟩
  rw [blockWriteIterT, hm] at hi
  simp only at hi
  revert hi hprep hfrom
  obtain ⟨p, is⟩ := if req.append then prepareAppendT env m f
    else preparePositionedT env m f req
  rintro hprep hi ⟨x, hfrom⟩
  cases p with
  | ready g =>
    obtain hi | hi := List.mem_append.mp hi
    · exact hprep i hi
    · exact hfrom.blockCount ▸ storeAccess_le env g i hi
  | fail ret g => exact hprep i hi
  | oops => exact hprep i hi

/-- The first block of the request is copied up, and one of the two cached files is an error
value: the kernel stops there. -/
def FirstCopyFaults (f : OvlFile) (m : BlockMap) (req : WriteReq) : Prop :=
  (ovlGetBlock req.pos - 1) * BLOCK_SIZE < req.pos ∧
    ovlGetBlock req.pos ≤ f.oi.blockCount ∧ m.cells (ovlGetBlock req.pos) = .uncopy ∧
    ¬ (f.oi.upperFile.Usable ∧ f.oi.lowerFile.Usable)

theorem startCopies_iff {oob : ℕ → BlockStatus} {oi : OvlInode} :
    startCopies oob oi m req = true ↔ (ovlGetBlock req.pos - 1) * BLOCK_SIZE < req.pos ∧
      statusAt oob oi m (ovlGetBlock req.pos) = .uncopy := by
  rw [startCopies, Bool.and_eq_true, decide_eq_true_eq, decide_eq_true_eq]

theorem preparePositionedT_faults {env : WriteEnv} (h : FirstCopyFaults f m req) :
    (preparePositionedT env m f req).2 = startAccess req := by
  obtain ⟨hpart, hin, hcell, hfiles⟩ := h
  have hstart : startCopies env.oob f.oi m req = true := by
    rw [startCopies_iff, statusAt, if_pos hin]
    exact ⟨hpart, hcell⟩
  rw [preparePositionedT, if_pos hstart]
  cases hp : copyBlock env env.copyStart (ovlGetBlock req.pos) f with
  | ready g => exact absurd (copyBlock_usable hp) hfiles
  | fail ret g => rfl
  | oops => rfl

theorem preparePositionedT_subset (env : WriteEnv) :
    ∀ i ∈ (preparePositionedT env m f req).2, i ∈ startAccess req ++ endAccess req := by
  intro i
  rw [preparePositionedT]
  generalize (if startCopies env.oob f.oi m req = true then
    copyBlock env env.copyStart (ovlGetBlock req.pos) f else .ready f) = p
  cases p with
  | ready g => exact id
  | fail ret g => exact List.mem_append_left _
  | oops => exact List.mem_append_left _

/-- Memory behind the map that reads as copied; nothing fails. -/
def copiedBehind : WriteEnv := { WriteEnv.full with oob := fun _ => .copied }

theorem preparePositionedT_copiedBehind (hup : f.upper.isSome)
    (h : ¬ FirstCopyFaults f m req) :
    ovlGetBlock (req.pos + req.data.length) ∈ (preparePositionedT copiedBehind m f req).2 := by
  have hmem : ovlGetBlock (req.pos + req.data.length) ∈ startAccess req ++ endAccess req := by
    rw [endAccess_eq]
    exact List.mem_append_right _ (List.mem_singleton_self _)
  rw [preparePositionedT]
  by_cases hstart : startCopies copiedBehind.oob f.oi m req = true
  · rw [if_pos hstart]
    obtain ⟨hpart, hstatus⟩ := startCopies_iff.mp hstart
    have hin : ovlGetBlock req.pos ≤ f.oi.blockCount := by
      by_contra hout
      rw [statusAt, if_neg hout] at hstatus
      cases hstatus
    rw [statusAt, if_pos hin] at hstatus
    have hfiles : f.oi.upperFile.Usable ∧ f.oi.lowerFile.Usable := by
      by_contra hfiles
      exact h ⟨hpart, hin, hstatus, hfiles⟩
    obtain ⟨g, hg⟩ := copyBlock_plain copiedBehind (ovlGetBlock req.pos) hup ⟨rfl, rfl⟩ hfiles
    rw [show copiedBehind.copyStart = .plain from rfl, hg]
    exact hmem
  · rw [if_neg hstart]
    exact hmem

/-- Reads access the map only inside its buffer. A positioned write does, whatever happens
during it, exactly when its end lies in a block of the map or the kernel stops before it
gets there; a write with `O_APPEND` always does. -/
theorem block_status_in_bounds_iff (hup : f.upper.isSome) (hm : f.oi.blockStatus = some m) :
    (∀ fuel env pos count, ∀ i ∈ (blockReadIterT fuel env f pos count).2,
      i ≤ f.oi.blockCount) ∧
    ∀ req, (∀ env, ∀ i ∈ (blockWriteIterT env f req).2, i ≤ f.oi.blockCount) ↔
      req.append ∨ ovlGetBlock (req.pos + req.data.length) ≤ f.oi.blockCount ∨
        FirstCopyFaults f m req := by
  refine ⟨fun fuel env pos count => blockReadLoopT_le rfl, fun req => ⟨fun h => ?_, fun h => ?_⟩⟩
  · by_cases happ : req.append = true
    · exact .inl happ
    by_cases hfault : FirstCopyFaults f m req
    · exact .inr (.inr hfault)
    · refine .inr (.inl (h copiedBehind _ ?_))
      exact prepAccess_subset hm (by simpa using happ) (preparePositionedT_copiedBehind hup hfault)
  · intro env
    refine blockWriteIterT_le hm ?_
    by_cases happ : req.append = true
    · rw [if_pos happ]
      exact prepareAppendT_le env
    rw [if_neg happ]
    obtain h | h | h := h
    · exact absurd h happ
    · intro i hi
      obtain hi | hi := List.mem_append.mp (preparePositionedT_subset env i hi)
      · exact startAccess_le h i hi
      · rw [endAccess_eq] at hi
        exact List.mem_singleton.mp hi ▸ h
    · rw [preparePositionedT_faults h]
      intro i hi
      unfold startAccess at hi
      split at hi
      · exact List.mem_singleton.mp hi ▸ h.2.1
      · cases hi

end Bounds

/-- A write of one byte at the start of a file of one byte stays in the map. -/
theorem block_status_in_bounds_first :
    (blockWriteIterT .full oneByteCow ⟨0, false, [7]⟩).2 ≠ [] ∧
      ∀ env, ∀ i ∈ (blockWriteIterT env oneByteCow ⟨0, false, [7]⟩).2, i ≤ 1 :=
  ⟨by decide, ((block_status_in_bounds_iff (f := oneByteCow) rfl rfl).2 ⟨0, false, [7]⟩).mpr
    (.inr (.inl (by decide)))⟩

/-- A write of the whole first block of that file ends on the boundary of the last block, and
reads the status of the block behind it. -/
theorem block_status_out_of_bounds :
    ∃ i ∈ (blockWriteIterT .full oneByteCow ⟨0, false, List.replicate 4096 7⟩).2,
      oneByteCow.oi.blockCount < i := by
  refine ⟨2, prepAccess_subset (m := ⟨0, fun _ => .uncopy⟩) rfl rfl ?_, by decide⟩
  have hstart : ¬ startCopies WriteEnv.full.oob oneByteCow.oi ⟨0, fun _ => .uncopy⟩
      ⟨0, false, List.replicate 4096 7⟩ = true := by
    rw [startCopies_iff]
    exact fun h => absurd h.1 (by decide)
  rw [preparePositionedT, if_neg hstart]
  refine List.mem_append_right _ ?_
  rw [endAccess_eq, List.length_replicate]
  decide

end FzzOverlay

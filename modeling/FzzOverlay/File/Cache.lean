import FzzOverlay.CopyUp.FlagsSpec
import FzzOverlay.File.Serve
import FzzOverlay.File.WriteSpec

/-!
# The cached real files

`block_read_iter` and `block_write_iter` open the upper and the lower file when they first
need them and keep the result in the overlay inode, also when it is an error value. The
two open different entries of the lower stack.
-/

namespace FzzOverlay

/-- The result of `ovl_path_open`. -/
def FilePtr.ofOpen (o : Option Errno) (idx : ℕ) : FilePtr :=
  match o with
  | none => .opened idx
  | some e => .err e

/-- The pointer is open, or `NULL` and opening it does not fail. -/
def FilePtr.Opens (o : Option Errno) : FilePtr → Prop
  | .null => o = none
  | .opened _ => True
  | .err _ => False

theorem FilePtr.Opens.usable {o : Option Errno} {p : FilePtr} (h : p.Opens o) : p.Usable := by
  cases p with
  | null => trivial
  | opened idx => trivial
  | err e => exact h

theorem FilePtr.Usable.opens {o : Option Errno} {p : FilePtr} (h : p.Usable)
    (hnull : p = .null → o = none) : p.Opens o := by
  cases p with
  | null => exact hnull rfl
  | opened idx => trivial
  | err e => exact h

theorem FilePtr.opens_ofOpen {o : Option Errno} (h : FilePtr.null.Opens o) (idx : ℕ) :
    (FilePtr.ofOpen o idx).Opens o := by
  rw [show o = none from h]
  trivial

-- ════════════════════════════════════════════════════════════════════════
-- Reads
-- ════════════════════════════════════════════════════════════════════════

/-- Opening a file during a read keeps the property `I` of the overlay inode. -/
structure OpensKeep (env : ReadEnv) (f : OvlFile) (I : OvlInode → Prop) : Prop where
  upper : ∀ oi, I oi → oi.upperFile = .null → I { oi with upperFile := .ofOpen env.openUpper 0 }
  lower : ∀ oi, I oi → oi.lowerFile = .null →
    I { oi with lowerFile := .ofOpen env.openLower f.ovlPathLowerdata }

/-- The overlay inode that a pass leaves has the property `I`. -/
def Pass.Leaves (I : OvlInode → Prop) : Pass → Prop
  | .again s => I s.oi
  | .done _ s => I s.oi
  | .oops => True

section Reads

variable {env : ReadEnv} {f : OvlFile} {I : OvlInode → Prop} {s : ReadState}

theorem useUpper_leaves {k : File → ReadState → Pass} (hI : OpensKeep env f I) (hs : I s.oi)
    (hk : ∀ file s, I s.oi → (k file s).Leaves I) : (useUpper env f s k).Leaves I := by
  unfold useUpper
  split
  · trivial
  · split
    · next hnull ho =>
      have := hI.upper s.oi hs hnull
      rw [ho] at this
      exact hk _ _ this
    · next e hnull ho =>
      have := hI.upper s.oi hs hnull
      rw [ho] at this
      exact this
    · exact hk _ _ hs
    · trivial

theorem useLower_leaves {k : File → ReadState → Pass} (hI : OpensKeep env f I) (hs : I s.oi)
    (hk : ∀ file s, I s.oi → (k file s).Leaves I) : (useLower env f s k).Leaves I := by
  unfold useLower
  split
  · trivial
  · split
    · next hnull ho =>
      have := hI.lower s.oi hs hnull
      rw [ho] at this
      exact hk _ _ this
    · next e hnull ho =>
      have := hI.lower s.oi hs hnull
      rw [ho] at this
      exact this
    · exact hk _ _ hs
    · trivial

theorem tailPass_leaves (file : File) (s : ReadState) (hs : I s.oi) :
    (tailPass env file s).Leaves I := by
  unfold tailPass
  split
  · exact hs
  · exact hs

theorem copiedPass_leaves (c : ℕ) (file : File) (s : ReadState) (hs : I s.oi) :
    (copiedPass env c file s).Leaves I := by
  have hoi := (readLoop_advanced env file c c s).oi
  unfold copiedPass
  revert hoi
  obtain ⟨s', x⟩ := readLoop env file c c s
  intro hoi
  have hs' : I s'.oi := hoi ▸ hs
  cases x with
  | drained => exact hs'
  | failed => exact hs'
  | atEnd =>
    simp only
    split
    · exact hs'
    · exact hs'

theorem uncopiedPass_leaves (c : ℕ) (file : File) (s : ReadState) (hs : I s.oi) :
    (uncopiedPass env c file s).Leaves I := by
  have hoi := (readLoop_advanced env file c c s).oi
  unfold uncopiedPass
  revert hoi
  obtain ⟨s', x⟩ := readLoop env file c c s
  intro hoi
  have hs' : I s'.oi := hoi ▸ hs
  cases x with
  | drained => exact hs'
  | failed => exact hs'
  | atEnd => exact hs'

theorem blockReadPass_leaves (hI : OpensKeep env f I) (hs : I s.oi) :
    (blockReadPass env f s).Leaves I := by
  unfold blockReadPass
  split
  · exact useUpper_leaves hI hs tailPass_leaves
  · split
    · trivial
    · split
      · exact useUpper_leaves hI hs (copiedPass_leaves _)
      · split
        · exact hs
        · exact useLower_leaves hI hs (uncopiedPass_leaves _)

/-- What every open keeps, a read that returns keeps. -/
theorem blockReadLoop_leaves {fuel : ℕ} {res : ReadResult} (hI : OpensKeep env f I)
    (hs : I s.oi) (h : blockReadLoop env f fuel s = .ret res) : I res.oi := by
  induction fuel generalizing s with
  | zero => cases h
  | succ fuel ih =>
    rw [blockReadLoop] at h
    split at h
    · cases h
      exact hs
    · have hpass := blockReadPass_leaves hI hs
      cases hp : blockReadPass env f s with
      | again s' =>
        rw [hp] at h hpass
        exact ih hpass h
      | done ret s' =>
        rw [hp] at h hpass
        cases h
        exact hpass
      | oops =>
        rw [hp] at h
        cases h

end Reads

-- ════════════════════════════════════════════════════════════════════════
-- Writes
-- ════════════════════════════════════════════════════════════════════════

/-- `if (!file) file = ovl_path_open(..)`. -/
def FilePtr.openWith (o : Option Errno) (idx : ℕ) : FilePtr → FilePtr
  | .null => .ofOpen o idx
  | p => p

/-- The cached files after a write opened what was not open. When the upper file cannot be
opened, the lower one is not tried. -/
def openedFiles (env : WriteEnv) (up lp : FilePtr) : FilePtr × FilePtr :=
  match up, env.openUpper with
  | .null, some e => (.err e, lp)
  | up, o => (up.openWith o 0, lp.openWith env.openLower 0)

/-- The request copies a block, so it opens the files. -/
def writeCopies (env : WriteEnv) (m : BlockMap) (f : OvlFile) (req : WriteReq) : Bool :=
  req.append || startCopies env.oob f.oi m req || endCopies env.oob f.oi m req

/-- The cached files of an overlay file. -/
def OvlFile.files (f : OvlFile) : FilePtr × FilePtr := (f.oi.upperFile, f.oi.lowerFile)

/-- The preparation ends with the cached files `x`, and only the upper contents differ
from those of `f` besides. -/
def Prep.From (f : OvlFile) (x : FilePtr × FilePtr) : Prep → Prop
  | .ready g => ∃ data, g = f.withFiles x.1 x.2 data
  | .fail _ g => ∃ data, g = f.withFiles x.1 x.2 data
  | .oops => True

section Writes

variable {env : WriteEnv} {f : OvlFile} {req : WriteReq} {m : BlockMap}

theorem OvlFile.withFiles_files (f : OvlFile) : f.withFiles f.files.1 f.files.2 f.upperData = f :=
  f.withFiles_self

theorem Prep.From.trans {g : OvlFile} {up lp : FilePtr} {data : File} {x : FilePtr × FilePtr}
    {p : Prep} (hg : g = f.withFiles up lp data) (h : p.From g x) : p.From f x := by
  subst hg
  cases p with
  | ready g' =>
    obtain ⟨data', rfl⟩ := h
    exact ⟨data', OvlFile.withFiles_withFiles _ _ _ _ _ _ _⟩
  | fail ret g' =>
    obtain ⟨data', rfl⟩ := h
    exact ⟨data', OvlFile.withFiles_withFiles _ _ _ _ _ _ _⟩
  | oops => trivial

theorem OvlFile.setUpperFile_eq (f : OvlFile) (p : FilePtr) :
    { f with oi := { f.oi with upperFile := p } } =
      f.withFiles p f.oi.lowerFile f.upperData := by
  rw [withFiles, setUpperData_upperData]

theorem OvlFile.setLowerFile_eq (f : OvlFile) (p : FilePtr) :
    { f with oi := { f.oi with lowerFile := p } } =
      f.withFiles f.oi.upperFile p f.upperData := by
  rw [withFiles, setUpperData_upperData]

theorem openedFiles_of_ne_null {up lp : FilePtr} (hup : up ≠ .null) (hlp : lp ≠ .null) :
    openedFiles env up lp = (up, lp) := by
  cases up with
  | null => exact absurd rfl hup
  | opened idx =>
    cases lp with
    | null => exact absurd rfl hlp
    | opened _ => rfl
    | err _ => rfl
  | err e =>
    cases lp with
    | null => exact absurd rfl hlp
    | opened _ => rfl
    | err _ => rfl

theorem openUpper_cases (env : WriteEnv) (f : OvlFile) :
    openUpper env.openUpper f = .oops ∨
      (∃ e, openUpper env.openUpper f =
          .fail e.ret { f with oi := { f.oi with upperFile := .err e } } ∧
        ∀ lp, openedFiles env f.oi.upperFile lp = (.err e, lp)) ∨
      ∃ up, openUpper env.openUpper f =
          .ready { f with oi := { f.oi with upperFile := up } } ∧
        ∀ lp, openedFiles env f.oi.upperFile lp = (up, lp.openWith env.openLower 0) := by
  unfold openUpper openedFiles
  cases hup : f.oi.upperFile with
  | null =>
    cases hu : f.upper with
    | none => exact .inl rfl
    | some u =>
      cases ho : env.openUpper with
      | none => exact .inr (.inr ⟨.opened 0, rfl, fun _ => rfl⟩)
      | some e => exact .inr (.inl ⟨e, rfl, fun _ => rfl⟩)
  | opened idx =>
    have hself : ({ f with oi := { f.oi with upperFile := .opened idx } } : OvlFile) = f := by
      rw [← hup]
    refine .inr (.inr ⟨.opened idx, ?_, fun _ => rfl⟩)
    rw [hself]
    cases f.upper <;> rfl
  | err e =>
    have hself : ({ f with oi := { f.oi with upperFile := .err e } } : OvlFile) = f := by
      rw [← hup]
    refine .inr (.inr ⟨.err e, ?_, fun _ => rfl⟩)
    rw [hself]
    cases f.upper <;> rfl

/-- Opening the lower file, and a continuation that leaves the files. -/
theorem from_openLower {k : OvlFile → Prep} (hk : ∀ g, (k g).From g g.files) (g : OvlFile) :
    ((openLower env.openLower g).andThen k).From g
      (g.oi.upperFile, g.oi.lowerFile.openWith env.openLower 0) := by
  unfold openLower
  cases hlp : g.oi.lowerFile with
  | null =>
    cases ho : env.openLower with
    | none => exact (hk _).trans (g.setLowerFile_eq _)
    | some e => exact ⟨g.upperData, g.setLowerFile_eq _⟩
  | opened idx =>
    have := hk g
    rwa [OvlFile.files, hlp] at this
  | err e =>
    have := hk g
    rwa [OvlFile.files, hlp] at this

/-- The two opens, and a continuation that leaves the files. -/
theorem from_opens {k : OvlFile → Prep} (hk : ∀ g, (k g).From g g.files) :
    ((openUpper env.openUpper f).andThen fun f =>
      (openLower env.openLower f).andThen k).From f
        (openedFiles env f.oi.upperFile f.oi.lowerFile) := by
  obtain h | ⟨e, h, hfiles⟩ | ⟨up, h, hfiles⟩ := openUpper_cases env f
  · rw [h]
    trivial
  · rw [h, hfiles]
    exact ⟨f.upperData, f.setUpperFile_eq _⟩
  · rw [h, hfiles]
    exact (from_openLower hk _).trans (f.setUpperFile_eq up)

theorem copyRange_from (cenv : CopyEnv) (g : OvlFile) (pos : ℕ) (len : ℕ → ℕ) :
    (copyRange cenv g pos len).From g g.files := by
  unfold copyRange
  split
  · split
    · exact ⟨_, rfl⟩
    · exact ⟨_, rfl⟩
  · trivial

theorem copyBlock_from (cenv : CopyEnv) (b : ℕ) :
    (copyBlock env cenv b f).From f (openedFiles env f.oi.upperFile f.oi.lowerFile) :=
  from_opens fun g => copyRange_from cenv g _ _

theorem prepareAppend_from :
    (prepareAppend env m f).From f (openedFiles env f.oi.upperFile f.oi.lowerFile) := by
  refine from_opens fun g => ?_
  split
  · exact copyRange_from _ _ _ _
  · split
    · exact ⟨_, g.withFiles_files.symm⟩
    · trivial

/-- A block is copied between two open files. -/
theorem copyRange_ready {cenv : CopyEnv} {g g' : OvlFile} {pos : ℕ} {len : ℕ → ℕ}
    (h : copyRange cenv g pos len = .ready g') :
    g'.oi.upperFile ≠ .null ∧ g'.oi.lowerFile ≠ .null := by
  unfold copyRange at h
  split at h
  · next hl hu =>
    have hfiles : g.oi.upperFile ≠ .null ∧ g.oi.lowerFile ≠ .null := by
      constructor
      · intro hnull
        simp [OvlFile.derefUpper, hnull] at hu
      · intro hnull
        simp [OvlFile.derefLower, hnull] at hl
    split at h
    · cases h
    · rw [← Prep.ready.inj h]
      exact hfiles
  · cases h

theorem Prep.andThen_ready (g : OvlFile) (k : OvlFile → Prep) : (Prep.ready g).andThen k = k g :=
  rfl

theorem Prep.andThen_eq_ready {p : Prep} {k : OvlFile → Prep} {g : OvlFile}
    (h : p.andThen k = .ready g) : ∃ f, p = .ready f ∧ k f = .ready g := by
  cases p with
  | ready f => exact ⟨f, rfl, h⟩
  | fail ret f => cases h
  | oops => cases h

theorem copyBlock_ready {cenv : CopyEnv} {b : ℕ} {g : OvlFile}
    (h : copyBlock env cenv b f = .ready g) :
    g.oi.upperFile ≠ .null ∧ g.oi.lowerFile ≠ .null := by
  obtain ⟨f₁, -, h⟩ := Prep.andThen_eq_ready h
  obtain ⟨f₂, -, h⟩ := Prep.andThen_eq_ready h
  exact copyRange_ready h

theorem preparePositioned_from (hreq : req.append = false) :
    (preparePositioned env m f req).From f (if writeCopies env m f req then
      openedFiles env f.oi.upperFile f.oi.lowerFile else f.files) := by
  unfold preparePositioned
  by_cases hstart : startCopies env.oob f.oi m req = true
  · have hcopies : writeCopies env m f req = true := by simp [writeCopies, hstart]
    rw [if_pos hstart, if_pos hcopies]
    have hfirst : (copyBlock env env.copyStart (ovlGetBlock req.pos) f).From f
        (openedFiles env f.oi.upperFile f.oi.lowerFile) := copyBlock_from _ _
    cases hp : copyBlock env env.copyStart (ovlGetBlock req.pos) f with
    | oops => trivial
    | fail ret g =>
      rw [hp] at hfirst
      exact hfirst
    | ready g =>
      -- Both files are open now, so the copy of the last block opens nothing.
      rw [hp] at hfirst
      obtain ⟨hup, hlp⟩ := copyBlock_ready hp
      obtain ⟨data, hg⟩ := hfirst
      rw [Prep.andThen_ready]
      split
      · have hsecond : (copyBlock env env.copyEnd (ovlGetBlock (req.pos + req.data.length))
          g).From g (openedFiles env g.oi.upperFile g.oi.lowerFile) := copyBlock_from _ _
        rw [openedFiles_of_ne_null hup hlp] at hsecond
        have hfiles : (g.oi.upperFile, g.oi.lowerFile) =
            openedFiles env f.oi.upperFile f.oi.lowerFile := by
          rw [hg]
          rfl
        rw [hfiles] at hsecond
        exact hsecond.trans hg
      · exact ⟨data, hg⟩
  · rw [if_neg hstart, Prep.andThen_ready]
    by_cases hend : endCopies env.oob f.oi m req = true
    · have hcopies : writeCopies env m f req = true := by simp [writeCopies, hend]
      rw [if_pos hend, if_pos hcopies]
      exact copyBlock_from _ _
    · have hcopies : ¬ writeCopies env m f req = true := by
        simp [writeCopies, hstart, hend, hreq]
      rw [if_neg hend, if_neg hcopies]
      exact ⟨_, f.withFiles_files.symm⟩

theorem storeData_files (g : OvlFile) :
    (storeData env m g req).file.lowerstack = g.lowerstack ∧
      (storeData env m g req).file.oi.metaFile = g.oi.metaFile ∧
      (storeData env m g req).file.files = g.files := by
  unfold storeData
  split
  · simp only
    split
    · exact ⟨rfl, rfl, rfl⟩
    · exact ⟨rfl, rfl, rfl⟩
  · exact ⟨rfl, rfl, rfl⟩

/-- A write that returns leaves the lower stack, and the files as it opened them. -/
theorem blockWriteIter_files {r : WriteResult} (hm : f.oi.blockStatus = some m)
    (h : blockWriteIter env f req = .ret r) :
    r.file.lowerstack = f.lowerstack ∧ r.file.oi.metaFile = f.oi.metaFile ∧
      r.file.files = if writeCopies env m f req then
        openedFiles env f.oi.upperFile f.oi.lowerFile else f.files := by
  have hprep : (if req.append then prepareAppend env m f
      else preparePositioned env m f req).From f (if writeCopies env m f req then
        openedFiles env f.oi.upperFile f.oi.lowerFile else f.files) := by
    cases hreq : req.append with
    | true =>
      have hcopies : writeCopies env m f req = true := by simp [writeCopies, hreq]
      rw [if_pos rfl, if_pos hcopies]
      exact prepareAppend_from
    | false => exact preparePositioned_from hreq
  rw [blockWriteIter, hm] at h
  simp only at h
  split at h
  · cases h
  · next ret g hg =>
    rw [hg] at hprep
    obtain ⟨data, rfl⟩ := hprep
    cases h
    exact ⟨rfl, rfl, rfl⟩
  · next g hg =>
    rw [hg] at hprep
    obtain ⟨data, rfl⟩ := hprep
    cases h
    exact storeData_files _

end Writes

-- ════════════════════════════════════════════════════════════════════════
-- Runs
-- ════════════════════════════════════════════════════════════════════════

/-- A call of `block_read_iter` or `block_write_iter`. -/
inductive BlockOp where
  | read (fuel : ℕ) (env : ReadEnv) (pos count : ℕ)
  | write (env : WriteEnv) (req : WriteReq)

/-- One call that returns. -/
inductive BlockStep : OvlFile → BlockOp → OvlFile → Prop
  | read {f : OvlFile} {fuel : ℕ} {env : ReadEnv} {pos count : ℕ} {res : ReadResult}
      (h : blockReadIter fuel env f pos count = .ret res) :
      BlockStep f (.read fuel env pos count) { f with oi := res.oi }
  | write {f : OvlFile} {env : WriteEnv} {req : WriteReq} {r : WriteResult}
      (h : blockWriteIter env f req = .ret r) : BlockStep f (.write env req) r.file

/-- The outcomes of opening the upper and the lower file during a call. -/
def BlockOp.opens : BlockOp → Option Errno × Option Errno
  | .read _ env _ _ => (env.openUpper, env.openLower)
  | .write env _ => (env.openUpper, env.openLower)

/-- No file that is not open yet fails to open. -/
def BlockOp.OpensFiles (f : OvlFile) (op : BlockOp) : Prop :=
  (f.oi.upperFile = .null → op.opens.1 = none) ∧ (f.oi.lowerFile = .null → op.opens.2 = none)

/-- The cached files are absent or open. -/
structure FilesUsable (f : OvlFile) : Prop where
  upperFile : f.oi.upperFile.Usable
  lowerFile : f.oi.lowerFile.Usable
  metaFile : f.oi.metaFile.Usable

theorem FilePtr.Usable.closes {p : FilePtr} (h : p.Usable) : p.closes = true := by
  cases p with
  | null => rfl
  | opened idx => rfl
  | err e => exact h.elim

theorem FilePtr.usable_of_closes {p : FilePtr} (h : p.closes = true) : p.Usable := by
  cases p with
  | null => trivial
  | opened idx => trivial
  | err e => cases h

/-- `ovl_free_inode` closes such files without a fault. -/
theorem FilesUsable.free {f : OvlFile} (h : FilesUsable f) :
    ovlFreeInode f.oi = .ret (f.oi.blockStatus.map BlockMap.addr) := by
  rw [ovlFreeInode, h.upperFile.closes, h.lowerFile.closes, h.metaFile.closes]
  rfl

section Usable

variable {f g : OvlFile} {op : BlockOp}

theorem blockWriteIter_map {env : WriteEnv} {req : WriteReq} {r : WriteResult}
    (h : blockWriteIter env f req = .ret r) : ∃ m, f.oi.blockStatus = some m := by
  cases hm : f.oi.blockStatus with
  | none =>
    rw [blockWriteIter, hm] at h
    cases h
  | some m => exact ⟨m, rfl⟩

theorem FilePtr.Opens.openWith {o : Option Errno} {p : FilePtr} (h : p.Opens o) (idx : ℕ) :
    (p.openWith o idx).Usable := by
  cases p with
  | null => exact (FilePtr.opens_ofOpen h idx).usable
  | opened _ => trivial
  | err _ => exact h

theorem openedFiles_usable {env : WriteEnv} {up lp : FilePtr} (hup : up.Opens env.openUpper)
    (hlp : lp.Opens env.openLower) :
    (openedFiles env up lp).1.Usable ∧ (openedFiles env up lp).2.Usable := by
  unfold openedFiles
  split
  · next e ho =>
    rw [ho] at hup
    cases hup
  · exact ⟨hup.openWith 0, hlp.openWith 0⟩

/-- A call none of whose opens fails leaves no error value. -/
theorem BlockStep.filesUsable (hs : BlockStep f op g) (h : FilesUsable f)
    (hop : op.OpensFiles f) : FilesUsable g := by
  cases hs with
  | @read fuel env pos count res hr =>
    have hup : f.oi.upperFile.Opens env.openUpper := h.upperFile.opens hop.1
    have hlp : f.oi.lowerFile.Opens env.openLower := h.lowerFile.opens hop.2
    have hI : OpensKeep env f fun oi => oi.upperFile.Opens env.openUpper ∧
        oi.lowerFile.Opens env.openLower ∧ oi.metaFile.Usable := by
      refine ⟨fun oi hoi hnull => ?_, fun oi hoi hnull => ?_⟩
      · exact ⟨FilePtr.opens_ofOpen (hnull ▸ hoi.1) 0, hoi.2⟩
      · exact ⟨hoi.1, FilePtr.opens_ofOpen (hnull ▸ hoi.2.1) _, hoi.2.2⟩
    have hres := blockReadLoop_leaves hI ⟨hup, hlp, h.metaFile⟩ hr
    exact ⟨hres.1.usable, hres.2.1.usable, hres.2.2⟩
  | @write env req r hr =>
    have hup : f.oi.upperFile.Opens env.openUpper := h.upperFile.opens hop.1
    have hlp : f.oi.lowerFile.Opens env.openLower := h.lowerFile.opens hop.2
    obtain ⟨m, hm⟩ := blockWriteIter_map hr
    obtain ⟨-, hmeta, hfiles⟩ := blockWriteIter_files hm hr
    have husable : r.file.files.1.Usable ∧ r.file.files.2.Usable := by
      rw [hfiles]
      split
      · exact openedFiles_usable hup hlp
      · exact ⟨h.upperFile, h.lowerFile⟩
    exact ⟨husable.1, husable.2, hmeta ▸ h.metaFile⟩

/-- In every run none of whose opens fails, the cached files are absent or open between the
calls, and `ovl_free_inode` closes open files only. -/
theorem cached_files_open {f₀ f : OvlFile} {tr : List (OvlFile × BlockOp)} (h₀ : FilesUsable f₀)
    (hrun : Lts.Run BlockStep f₀ tr f) (hopen : ∀ p ∈ tr, p.2.OpensFiles p.1) :
    (∀ p ∈ tr, FilesUsable p.1) ∧ FilesUsable f ∧
      ovlFreeInode f.oi = .ret (f.oi.blockStatus.map BlockMap.addr) := by
  have hstep : ∀ g op g', FilesUsable g → op.OpensFiles g → BlockStep g op g' → FilesUsable g' :=
    fun g op g' hg hop hs => hs.filesUsable hg hop
  have hlast := hrun.invariant_of_guard h₀ hstep hopen
  exact ⟨hrun.invariant_mem h₀ hstep hopen, hlast, hlast.free⟩

end Usable

/-- A one-byte file in copy-on-write mode. -/
def oneByteCow : OvlFile := freshCow (.lookedUp [SparseFile.ofList [1]] zeroInode) 0 true

/-- A read of that file opens its lower file. -/
theorem cached_files_open_read : ∃ g,
    Lts.Run BlockStep oneByteCow [(oneByteCow, .read 2 .full 0 1)] g ∧ FilesUsable g ∧
      g.oi.lowerFile = .opened 0 := by
  obtain ⟨res, hres, hopen⟩ : ∃ res, blockReadIter 2 .full oneByteCow 0 1 = .ret res ∧
      res.oi.lowerFile = .opened 0 := ⟨_, rfl, rfl⟩
  have hrun : Lts.Run BlockStep oneByteCow [(oneByteCow, .read 2 .full 0 1)]
      { oneByteCow with oi := res.oi } := .snoc .nil (.read hres)
  have h₀ : FilesUsable oneByteCow := ⟨trivial, trivial, trivial⟩
  refine ⟨_, hrun, (cached_files_open h₀ hrun ?_).2.1, hopen⟩
  simp [BlockOp.OpensFiles, BlockOp.opens, ReadEnv.full]

/-- When the lower file cannot be opened, the error value stays: the next read faults
though nothing fails any more, and so does `ovl_free_inode`. -/
theorem cached_error_used : ∃ res,
    blockReadIter 1 { ReadEnv.full with openLower := some EIO } oneByteCow 0 1 = .ret res ∧
      res.ret = EIO.ret ∧ ¬ FilesUsable { oneByteCow with oi := res.oi } ∧
      blockReadIter 1 .full { oneByteCow with oi := res.oi } 0 1 = .oops ∧
      ovlFreeInode res.oi = .oops :=
  ⟨_, rfl, rfl, fun h => h.lowerFile, rfl, rfl⟩

-- ════════════════════════════════════════════════════════════════════════
-- The entry of the lower stack
-- ════════════════════════════════════════════════════════════════════════

/-- An open `lower_file` is the entry that holds the data. -/
def LowerIsData (f : OvlFile) : Prop :=
  ∀ idx, f.oi.lowerFile = .opened idx → idx = f.ovlPathLowerdata

/-- The call opens `lower_file`, and it is a write. -/
def BlockOp.WriteOpensLower (f : OvlFile) : BlockOp → Prop
  | .read _ _ _ _ => False
  | .write env req => f.oi.lowerFile = .null ∧ env.openLower = none ∧
      (f.oi.upperFile = .null → env.openUpper = none) ∧
      ∃ m, f.oi.blockStatus = some m ∧ writeCopies env m f req = true

section Entry

variable {f g : OvlFile} {op : BlockOp}

theorem BlockStep.lowerstack (hs : BlockStep f op g) : g.lowerstack = f.lowerstack := by
  cases hs with
  | read hr => rfl
  | write hr =>
    obtain ⟨m, hm⟩ := blockWriteIter_map hr
    exact (blockWriteIter_files hm hr).1

theorem ovlPathLowerdata_eq_zero_iff (hstack : f.lowerstack ≠ []) :
    f.ovlPathLowerdata = 0 ↔ f.lowerstack.length = 1 := by
  have := List.length_pos_iff.mpr hstack
  rw [OvlFile.ovlPathLowerdata]
  omega

/-- What a write makes of `lower_file`: it opens entry 0, leaves an error value, or leaves
the pointer. -/
theorem openedFiles_lower {env : WriteEnv} {up lp : FilePtr} {idx : ℕ} :
    (openedFiles env up lp).2 = .opened idx ↔ lp = .opened idx ∨
      (lp = .null ∧ env.openLower = none ∧ (up = .null → env.openUpper = none) ∧ idx = 0) := by
  have hopen : lp.openWith env.openLower 0 = .opened idx ↔
      lp = .opened idx ∨ (lp = .null ∧ env.openLower = none ∧ idx = 0) := by
    cases lp with
    | null =>
      cases env.openLower with
      | none => simp [FilePtr.openWith, FilePtr.ofOpen, eq_comm]
      | some e => simp [FilePtr.openWith, FilePtr.ofOpen]
    | opened i => simp [FilePtr.openWith]
    | err e => simp [FilePtr.openWith]
  cases up with
  | null =>
    cases ho : env.openUpper with
    | none => simpa [openedFiles, ho] using hopen
    | some e => simp [openedFiles, ho]
  | opened i => simpa [openedFiles] using hopen
  | err e => simpa [openedFiles] using hopen

/-- One call keeps the entry right exactly when there is but one entry, or it is not a write
that opens the file. -/
theorem BlockStep.lowerIsData_iff (hs : BlockStep f op g) (hstack : f.lowerstack ≠ [])
    (h : LowerIsData f) :
    LowerIsData g ↔ f.lowerstack.length = 1 ∨ ¬ op.WriteOpensLower f := by
  cases hs with
  | @read fuel env pos count res hr =>
    refine iff_of_true ?_ (.inr fun hw => hw)
    have hI : OpensKeep env f fun oi =>
        ∀ idx, oi.lowerFile = .opened idx → idx = f.ovlPathLowerdata := by
      refine ⟨fun oi hoi _ => hoi, fun oi hoi hnull idx hidx => ?_⟩
      cases ho : env.openLower with
      | none =>
        rw [ho] at hidx
        exact (FilePtr.opened.inj hidx).symm
      | some e =>
        rw [ho] at hidx
        cases hidx
    exact blockReadLoop_leaves (s := ⟨f.oi, pos, count, 0, false, [], 0⟩) hI h hr
  | @write env req r hr =>
    obtain ⟨m, hm⟩ := blockWriteIter_map hr
    obtain ⟨hst, -, hfiles⟩ := blockWriteIter_files hm hr
    have hdata : r.file.ovlPathLowerdata = f.ovlPathLowerdata := by
      rw [OvlFile.ovlPathLowerdata, hst, OvlFile.ovlPathLowerdata]
    have hlower : r.file.oi.lowerFile = r.file.files.2 := rfl
    rw [LowerIsData, hdata, hlower, hfiles]
    by_cases hc : writeCopies env m f req = true
    · rw [if_pos hc]
      constructor
      · intro hg
        by_cases hopens : BlockOp.WriteOpensLower f (.write env req)
        · left
          obtain ⟨hnull, hlow, hup, -⟩ := hopens
          rw [← ovlPathLowerdata_eq_zero_iff hstack]
          exact (hg 0 (openedFiles_lower.mpr (.inr ⟨hnull, hlow, hup, rfl⟩))).symm
        · exact .inr hopens
      · intro hcond idx hidx
        obtain hidx | ⟨hnull, hlow, hup, rfl⟩ := openedFiles_lower.mp hidx
        · exact h idx hidx
        · obtain hone | hnot := hcond
          · exact ((ovlPathLowerdata_eq_zero_iff hstack).mpr hone).symm
          · exact absurd ⟨hnull, hlow, hup, m, hm, hc⟩ hnot
    · rw [if_neg hc]
      refine iff_of_true h (.inr ?_)
      rintro ⟨-, -, -, m', hm', hc'⟩
      rw [hm] at hm'
      rw [← Option.some.inj hm'] at hc'
      exact hc hc'

end Entry

/-- In every run of reads and writes, `lower_file` is the data entry in all states exactly
when the lower stack has one entry or no write opens the file. -/
theorem lower_file_is_data_iff {f₀ f : OvlFile} {tr : List (OvlFile × BlockOp)}
    (hstack : f₀.lowerstack ≠ []) (h₀ : f₀.oi.lowerFile = .null)
    (hrun : Lts.Run BlockStep f₀ tr f) :
    ((∀ p ∈ tr, LowerIsData p.1) ∧ LowerIsData f) ↔
      f₀.lowerstack.length = 1 ∨ ∀ p ∈ tr, ¬ p.2.WriteOpensLower p.1 := by
  have hinit : f₀.lowerstack = f₀.lowerstack ∧ LowerIsData f₀ := by
    refine ⟨rfl, fun idx hidx => ?_⟩
    rw [h₀] at hidx
    cases hidx
  have hsame : ∀ p ∈ tr, p.1.lowerstack = f₀.lowerstack :=
    hrun.invariant_mem (I := fun g => g.lowerstack = f₀.lowerstack) (G := fun _ _ => True) rfl
      (fun g op g' hg _ hs => hs.lowerstack.trans hg) fun _ _ => trivial
  constructor
  · rintro ⟨hmem, hlast⟩
    by_contra hnot
    rw [not_or] at hnot
    obtain ⟨hlen, hex⟩ := hnot
    simp only [not_forall, not_not] at hex
    obtain ⟨p, hp, hopens⟩ := hex
    obtain ⟨g, hs, hg⟩ := hrun.next_of_mem p hp
    have hdata : LowerIsData g := by
      obtain rfl | ⟨q, hq, rfl⟩ := hg
      · exact hlast
      · exact hmem q hq
    obtain hone | hno := (hs.lowerIsData_iff (hsame p hp ▸ hstack) (hmem p hp)).mp hdata
    · rw [hsame p hp] at hone
      exact hlen hone
    · exact hno hopens
  · intro hcond
    have hstep : ∀ g op g', (g.lowerstack = f₀.lowerstack ∧ LowerIsData g) →
        (f₀.lowerstack.length = 1 ∨ ¬ op.WriteOpensLower g) → BlockStep g op g' →
        g'.lowerstack = f₀.lowerstack ∧ LowerIsData g' := by
      intro g op g' hg hop hs
      refine ⟨hs.lowerstack.trans hg.1, (hs.lowerIsData_iff (hg.1 ▸ hstack) hg.2).mpr ?_⟩
      rw [hg.1]
      exact hop
    have hguard : ∀ p ∈ tr, f₀.lowerstack.length = 1 ∨ ¬ p.2.WriteOpensLower p.1 :=
      fun p hp => hcond.imp_right fun h => h p hp
    exact ⟨fun p hp => (hrun.invariant_mem hinit hstep hguard p hp).2,
      (hrun.invariant_of_guard hinit hstep hguard).2⟩

/-- A file of two bytes whose topmost lower entry holds metadata only: its data reads as
zeroes there. -/
def metacopyCow : OvlFile :=
  freshCow (.lookedUp [SparseFile.ofList [0, 0], SparseFile.ofList [1, 2]] zeroInode) 0 true

/-- When a read comes first, it opens the entry that holds the data. -/
theorem lower_file_is_data_read : ∃ g,
    Lts.Run BlockStep metacopyCow [(metacopyCow, .read 2 .full 0 1)] g ∧
      g.oi.lowerFile = .opened 1 ∧ LowerIsData g := by
  obtain ⟨res, hres, hopen⟩ : ∃ res, blockReadIter 2 .full metacopyCow 0 1 = .ret res ∧
      res.oi.lowerFile = .opened 1 := ⟨_, rfl, rfl⟩
  have hrun : Lts.Run BlockStep metacopyCow [(metacopyCow, .read 2 .full 0 1)]
      { metacopyCow with oi := res.oi } := .snoc .nil (.read hres)
  have hstack : metacopyCow.lowerstack ≠ [] := List.cons_ne_nil _ _
  refine ⟨_, hrun, hopen, ((lower_file_is_data_iff hstack rfl hrun).mpr (.inr ?_)).2⟩
  simp [BlockOp.WriteOpensLower]

/-- When a write comes first, it opens the entry without data, and copies zeroes from it. -/
theorem lower_file_is_metadata : ∃ r,
    blockWriteIter .full metacopyCow ⟨0, false, [9]⟩ = .ret r ∧ r.ret = 1 ∧
      Lts.Run BlockStep metacopyCow [(metacopyCow, .write .full ⟨0, false, [9]⟩)] r.file ∧
      r.file.oi.lowerFile = .opened 0 ∧ r.file.ovlPathLowerdata = 1 ∧
      r.file.upperData.read 0 2 = [9, 0] ∧ ¬ LowerIsData r.file := by
  obtain ⟨r, hr, hret, hopen, hdata, hread⟩ : ∃ r,
      blockWriteIter .full metacopyCow ⟨0, false, [9]⟩ = .ret r ∧ r.ret = 1 ∧
        r.file.oi.lowerFile = .opened 0 ∧ r.file.ovlPathLowerdata = 1 ∧
        r.file.upperData.read 0 2 = [9, 0] := ⟨_, rfl, rfl, rfl, rfl, rfl⟩
  refine ⟨r, hr, hret, .snoc .nil (.write hr), hopen, hdata, hread, fun h => ?_⟩
  have := h 0 hopen
  omega

end FzzOverlay

import FzzOverlay.Cow.Reachable
import FzzOverlay.File.Paths
import FzzOverlay.File.RangeRead

/-!
# Agreement of the data paths

Only reads and writes look at the block map. In every state a copied-up file can
reach, the results below say exactly which bytes stored by `ovl_copyfile` later
reads return, and when the bytes `ovl_copyfile` and `ovl_mmap` take from the file are
those reads deliver.
-/

namespace FzzOverlay

open SparseFile

-- ════════════════════════════════════════════════════════════════════════
-- Every call keeps the lower stack
-- ════════════════════════════════════════════════════════════════════════

/-- `g` is over the lower stack of `f`. -/
def SameStack (f g : OvlFile) : Prop := g.lowerstack = f.lowerstack

theorem SameStack.refl (f : OvlFile) : SameStack f f := rfl

theorem SameStack.trans {f g h : OvlFile} (hfg : SameStack f g) (hgh : SameStack g h) :
    SameStack f h := Eq.trans hgh hfg

/-- The file a preparation ends with. -/
def Prep.StackFrom (f : OvlFile) : Prep → Prop
  | .ready g => SameStack f g
  | .fail _ g => SameStack f g
  | .oops => True

section Writes

variable {f g : OvlFile} {m : BlockMap}

theorem Prep.StackFrom.andThen {p : Prep} {k : OvlFile → Prep} (hp : p.StackFrom f)
    (hk : ∀ g, (k g).StackFrom g) : (p.andThen k).StackFrom f := by
  cases p with
  | ready g =>
    have hg := hk g
    change (k g).StackFrom f
    cases hkg : k g with
    | ready h =>
      rw [hkg] at hg
      exact SameStack.trans hp hg
    | fail ret h =>
      rw [hkg] at hg
      exact SameStack.trans hp hg
    | oops => trivial
  | fail ret g => exact hp
  | oops => trivial

theorem openUpper_stack (o : Option Errno) (f : OvlFile) : (openUpper o f).StackFrom f := by
  unfold openUpper
  split
  · trivial
  · exact .refl f
  · exact .refl f
  · exact .refl f

theorem openLower_stack (o : Option Errno) (f : OvlFile) : (openLower o f).StackFrom f := by
  unfold openLower
  split
  · exact .refl f
  · exact .refl f
  · exact .refl f

theorem copyRange_stack (env : CopyEnv) (f : OvlFile) (pos : ℕ) (len : ℕ → ℕ) :
    (copyRange env f pos len).StackFrom f := by
  rw [copyRange]
  split
  · split
    · exact .refl f
    · exact .refl f
  · trivial

theorem prepareAppend_stack (env : WriteEnv) (m : BlockMap) (f : OvlFile) :
    (prepareAppend env m f).StackFrom f := by
  refine (openUpper_stack _ f).andThen fun g => (openLower_stack _ g).andThen fun g => ?_
  split
  · exact copyRange_stack _ g _ _
  · split
    · exact .refl g
    · trivial

theorem copyBlock_stack (env : WriteEnv) (cenv : CopyEnv) (b : ℕ) (f : OvlFile) :
    (copyBlock env cenv b f).StackFrom f :=
  (openUpper_stack _ f).andThen fun g => (openLower_stack _ g).andThen fun g =>
    copyRange_stack cenv g _ _

theorem preparePositioned_stack (env : WriteEnv) (m : BlockMap) (f : OvlFile) (req : WriteReq) :
    (preparePositioned env m f req).StackFrom f := by
  rw [preparePositioned]
  refine Prep.StackFrom.andThen ?_ fun g => ?_
  · split
    · exact copyBlock_stack env _ _ f
    · exact .refl f
  · split
    · exact copyBlock_stack env _ _ g
    · exact .refl g

theorem storeData_stack (env : WriteEnv) (m : BlockMap) (f : OvlFile) (req : WriteReq) :
    SameStack f (storeData env m f req).file := by
  rw [storeData]
  split
  · simp only
    split
    · exact .refl f
    · exact .refl f
  · exact .refl f

theorem plainWrite_stack (env : WriteEnv) (f : OvlFile) (req : WriteReq) :
    SameStack f (plainWrite env f req).file := by
  rw [plainWrite]
  split
  · exact .refl f
  · split
    · exact .refl f
    · exact .refl f

theorem blockWriteIter_stack {env : WriteEnv} {req : WriteReq} {r : WriteResult}
    (h : blockWriteIter env f req = .ret r) : SameStack f r.file := by
  rw [blockWriteIter] at h
  cases hm : f.oi.blockStatus with
  | none =>
    rw [hm] at h
    cases h
  | some m =>
    rw [hm] at h
    simp only at h
    have hprep : (if req.append then prepareAppend env m f
        else preparePositioned env m f req).StackFrom f := by
      split
      · exact prepareAppend_stack env m f
      · exact preparePositioned_stack env m f req
    revert h hprep
    generalize (if req.append then prepareAppend env m f
      else preparePositioned env m f req) = p
    intro h hprep
    cases p with
    | ready g =>
      cases h
      exact SameStack.trans hprep (storeData_stack env m g req)
    | fail ret g =>
      cases h
      exact hprep
    | oops => cases h

theorem ovlWriteIter_stack {env : WriteEnv} {req : WriteReq} {r : WriteResult}
    (h : ovlWriteIter env f req = .ret r) : SameStack f r.file := by
  rw [ovlWriteIter] at h
  split at h
  · cases h
    exact .refl f
  split at h
  · cases h
    exact .refl f
  · cases h
    exact .refl f
  split at h
  · split at h
    · next r' hr =>
      cases h
      have hsame := blockWriteIter_stack hr
      exact hsame
    · cases h
    · cases h
  · cases h
    exact plainWrite_stack env f.ovlCopyattr req

end Writes

-- ════════════════════════════════════════════════════════════════════════
-- Runs
-- ════════════════════════════════════════════════════════════════════════

/-- The calls that reach the data of a regular file, `ovl_copyfile` among them. -/
inductive DataOp where
  | copyUp (env : CopyUpEnv) (flags : ℕ)
  | write (env : WriteEnv) (req : WriteReq)
  | read (fuel : ℕ) (env : ReadEnv) (pos count : ℕ)
  | truncate (env : SetattrEnv) (n : ℕ)
  | copyfile (env : CopyfileEnv) (fin : OvlFile) (fileIn : OpenFile) (posIn : ℕ)
      (fileOut : OpenFile) (posOut len : ℕ) (op : OvlCopyop)

/-- A file is open for writing only once it is copied up with its data. -/
structure OvlFile.OpenForWrite (f : OvlFile) : Prop where
  upper : f.upper.isSome
  upperdata : f.oi.upperdata = true

/-- One call that returns, in any environment. -/
inductive DataStep : OvlFile → DataOp → OvlFile → Prop
  | copyUp {f g : OvlFile} {env : CopyUpEnv} {flags : ℕ} {ret : ℤ}
      (h : ovlCopyUpFlags env f flags = .ret (ret, g)) : DataStep f (.copyUp env flags) g
  | write {f : OvlFile} {env : WriteEnv} {req : WriteReq} {r : WriteResult}
      (hopen : f.OpenForWrite) (h : ovlWriteIter env f req = .ret r) :
      DataStep f (.write env req) r.file
  | read {f : OvlFile} {fuel : ℕ} {env : ReadEnv} {pos count : ℕ} {res : ReadResult}
      (h : ovlReadIter fuel env f pos count = .ret res) :
      DataStep f (.read fuel env pos count) { f with oi := res.oi }
  | truncate {f g : OvlFile} {env : SetattrEnv} {n : ℕ} {ret : ℤ}
      (h : ovlSetattr env f (some n) = .ret (ret, g)) : DataStep f (.truncate env n) g
  | copyfile {f : OvlFile} {env : CopyfileEnv} {fin : OvlFile} {fileIn : OpenFile} {posIn : ℕ}
      {fileOut : OpenFile} {posOut len : ℕ} {op : OvlCopyop} (hopen : f.OpenForWrite) :
      DataStep f (.copyfile env fin fileIn posIn fileOut posOut len op)
        (ovlCopyfile env fin fileIn posIn f fileOut posOut len op).out

theorem CopyUpCase.sameStack {f g : OvlFile} {env : CopyUpEnv} {flags : ℕ} {ret : ℤ}
    (h : CopyUpCase env flags f (ret, g)) : SameStack f g := by
  generalize hr : (ret, g) = r at h
  cases h with
  | linked ret a hok =>
    cases hr
    exact .refl f
  | unfinished ret hup hret =>
    cases hr
    exact .refl f
  | installed ret a hup hmem =>
    cases hr
    exact .refl f
  | completed ret a hup hneed hret =>
    cases hr
    exact .refl f

theorem TruncateCase.sameStack {f g : OvlFile} {env : SetattrEnv} {n : ℕ} {ret : ℤ}
    (h : TruncateCase env n f (ret, g)) : SameStack f g := by
  generalize hr : (ret, g) = r at h
  cases h with
  | refused ret hret =>
    cases hr
    exact .refl f
  | copied ret cuRet g' hret hcase =>
    cases hr
    exact hcase.sameStack
  | truncated g' hcase =>
    cases hr
    exact hcase.sameStack

theorem ovlRealFdget_none (f : OvlFile) (file : OpenFile) :
    ovlRealFdget none f file = .ok f.realInode := by
  simp only [ovlRealFdget]
  split
  · rfl
  · next hsame => rw [not_ne_iff.mp hsame]

theorem OvlFile.upper_isSome_of_realInode {f : OvlFile} (h : f.realInode = .upper) :
    f.upper.isSome := by
  rw [realInode] at h
  split at h
  · next hreal =>
    rw [realdataIsUpper, Bool.and_eq_true] at hreal
    exact hreal.1
  · cases h

/-- The file after `bs` was stored in its upper inode at `pos`. -/
def storedFile (f : OvlFile) (pos : ℕ) (bs : List UInt8) : OvlFile :=
  (f.setUpperData (f.upperData.write pos bs)).ovlCopyattr

/-- The bytes the two real files exchange. -/
def movedBytes (fin : OvlFile) (posIn len : ℕ) (op : OvlCopyop) (k : ℕ) : List UInt8 :=
  fin.ovlInodeRealdata.read posIn (min k (op.range fin.ovlInodeRealdata posIn len))

section Copyfile

variable (env : CopyfileEnv) (fin : OvlFile) (fileIn : OpenFile) (posIn : ℕ) (fout : OvlFile)
  (fileOut : OpenFile) (posOut len : ℕ) {op : OvlCopyop}

/-- `ovl_copyfile` fails, or it moves bytes between the real files behind the two
overlay files. -/
theorem ovlCopyfile_cases (hop : op ≠ .dedupe) :
    (ovlCopyfile env fin fileIn posIn fout fileOut posOut len op).ret < 0 ∨
      ∃ k, env.remap = .done k ∧ fout.upper.isSome ∧
        ovlCopyfile env fin fileIn posIn fout fileOut posOut len op =
          ⟨(movedBytes fin posIn len op k).length, movedBytes fin posIn len op k,
            storedFile fout posOut (movedBytes fin posIn len op k)⟩ := by
  rw [ovlCopyfile]
  cases hfo : ovlRealFdget env.fdgetOut fout fileOut with
  | error e => exact .inl e.ret_neg
  | ok realOut =>
    cases hfi : ovlRealFdget env.fdgetIn fin fileIn with
    | error e => exact .inl e.ret_neg
    | ok realIn =>
      obtain rfl := ovlRealFdget_ok hfi
      obtain rfl := ovlRealFdget_ok hfo
      simp only [vfsRemap]
      cases env.remap with
      | fail e => exact .inl e.ret_neg
      | done k =>
        simp only [if_neg hop]
        split
        · next hreal =>
          refine .inr ⟨k, rfl, OvlFile.upper_isSome_of_realInode hreal, ?_⟩
          simp only [OvlFile.contents_realInode]
          rfl
        · exact .inl EBADF.ret_neg

/-- Into a file whose data is in the upper inode. -/
theorem ovlCopyfile_done (k : ℕ) (hout : fout.realInode = .upper) (hop : op ≠ .dedupe) :
    ovlCopyfile ⟨none, none, .done k⟩ fin fileIn posIn fout fileOut posOut len op =
      ⟨(movedBytes fin posIn len op k).length, movedBytes fin posIn len op k,
        storedFile fout posOut (movedBytes fin posIn len op k)⟩ := by
  simp only [ovlCopyfile, ovlRealFdget_none, vfsRemap, if_neg hop, hout, if_true,
    OvlFile.contents_realInode]
  rfl

end Copyfile

/-- The file `ovl_copyfile` writes to is left as it is, gets new attributes, or gets bytes
stored in its upper inode. -/
theorem ovlCopyfile_out (env : CopyfileEnv) (fin : OvlFile) (fileIn : OpenFile) (posIn : ℕ)
    (fout : OvlFile) (fileOut : OpenFile) (posOut len : ℕ) (op : OvlCopyop) :
    (ovlCopyfile env fin fileIn posIn fout fileOut posOut len op).out = fout ∨
      (ovlCopyfile env fin fileIn posIn fout fileOut posOut len op).out = fout.ovlCopyattr ∨
      ∃ bs, (ovlCopyfile env fin fileIn posIn fout fileOut posOut len op).out =
        storedFile fout posOut bs := by
  rw [ovlCopyfile]
  cases ovlRealFdget env.fdgetOut fout fileOut with
  | error e => exact .inl rfl
  | ok realOut =>
    cases ovlRealFdget env.fdgetIn fin fileIn with
    | error e => exact .inl rfl
    | ok realIn =>
      simp only [vfsRemap]
      cases env.remap with
      | fail e => exact .inr (.inl rfl)
      | done k =>
        simp only
        split
        · exact .inr (.inl rfl)
        · split
          · exact .inr (.inr ⟨_, rfl⟩)
          · exact .inr (.inl rfl)

theorem DataStep.sameStack {f g : OvlFile} {op : DataOp} (hstack : f.lowerstack ≠ [])
    (h : DataStep f op g) : SameStack f g := by
  cases h with
  | copyUp hret =>
    obtain ⟨r, hr, hcase⟩ := ovlCopyUpFlags_cases _ hstack _
    rw [hret] at hr
    cases hr
    exact hcase.sameStack
  | write _ hret => exact ovlWriteIter_stack hret
  | read => exact .refl f
  | truncate hret =>
    obtain ⟨r, hr, hcase⟩ := ovlSetattr_cases _ hstack _
    rw [hret] at hr
    cases hr
    exact hcase.sameStack
  | @copyfile env fin fileIn posIn fileOut posOut len op hopen =>
    obtain h | h | ⟨bs, h⟩ := ovlCopyfile_out env fin fileIn posIn f fileOut posOut len op
    · rw [h]
      exact .refl f
    · rw [h]
      exact .refl f
    · rw [h]
      exact .refl f

-- ════════════════════════════════════════════════════════════════════════
-- The paths against reads
-- ════════════════════════════════════════════════════════════════════════

/-- Later reads return the bytes `bs` that were stored at `pos`: every byte a read
delivers of the range is the stored one, and a read inside the range that meets no
failure returns all of it. -/
def StoredSeen (f : OvlFile) (pos : ℕ) (bs : List UInt8) : Prop :=
  (∀ fuel env p count res, ovlReadIter fuel env f p count = .ret res → 0 ≤ res.ret →
    ∀ k, k < res.ret.toNat → pos ≤ p + k → p + k < pos + bs.length →
      res.out[k]? = bs[p + k - pos]?) ∧
    ∀ p count, pos ≤ p → p + count ≤ pos + bs.length →
      Returns f p count count ((bs.drop (p - pos)).take count)

/-- Reads of the range look at the bytes `bs` stored there: an uncopied block of it has them in
the lower file already, and without a map it lies past the blocks of the lower file. -/
structure StoredBelow (f : OvlFile) (pos : ℕ) (bs : List UInt8) : Prop where
  uncopied : ∀ i, pos ≤ i → i < pos + bs.length → f.Uncopied i →
    (f.readLower f.oi).get? i = bs[i - pos]?
  mapped : f.oi.blockStatus = none →
    ∀ i, pos ≤ i → i < pos + bs.length → f.oi.blockCount < ovlGetBlock i

/-- Reads that return deliver what `X` has of their range. -/
def ReadsAs (X : File) (f : OvlFile) : Prop :=
  ∀ pos count ret out, Returns f pos count ret out → out = X.read pos count ∧ ret = out.length

/-- The bytes `ovl_copyfile` moves from `f` are those a read of the same range
returns. -/
def TakenAgrees (f : OvlFile) : Prop :=
  ∀ fileIn posIn fout fileOut posOut len op k, op ≠ OvlCopyop.dedupe →
    0 ≤ (ovlCopyfile ⟨none, none, .done k⟩ f fileIn posIn fout fileOut posOut len op).ret →
    ∀ ret out, Returns f posIn (min k (op.range f.ovlInodeRealdata posIn len)) ret out →
      out = (ovlCopyfile ⟨none, none, .done k⟩ f fileIn posIn fout fileOut posOut len op).moved ∧
        ret = out.length

/-- A mapping of `file` shows the bytes that reads deliver. -/
def MmapAgrees (f : OvlFile) (file : OpenFile) : Prop :=
  ∀ env r, ovlMmap env file = (0, some r) → ReadsAs (f.contents r) f

section Stored

variable {f : OvlFile} {pos : ℕ} {bs : List UInt8}

theorem storedFile_upperData (hup : f.upper.isSome) :
    (storedFile f pos bs).upperData = f.upperData.write pos bs :=
  OvlFile.upperData_setUpperData hup _

/-- The stored bytes are served, unless the lower file hides them. -/
theorem storedFile_served (hup : f.upper.isSome) (hcow : f.oi.cowStatus = true)
    (hbelow : StoredBelow f pos bs) {i : ℕ} (h₁ : pos ≤ i) (h₂ : i < pos + bs.length) :
    (storedFile f pos bs).served i = bs[i - pos]? := by
  have hupper : (storedFile f pos bs).upperData.get? i = bs[i - pos]? := by
    rw [storedFile_upperData hup]
    exact get?_write_of_mem _ h₁ h₂
  obtain hun | hco | hb | ⟨hm, hb⟩ := OvlFile.block_cases_or hcow i
  · rw [OvlFile.served_of_uncopied (f := storedFile f pos bs) hun]
    exact hbelow.uncopied i h₁ h₂ hun
  · rw [OvlFile.served_of_copied (f := storedFile f pos bs) hco]
    exact hupper
  · rw [OvlFile.served_of_past (f := storedFile f pos bs) hcow hb]
    exact hupper
  · have := hbelow.mapped hm i h₁ h₂
    omega

theorem storedSeen_iff (hf : f.PtrsUsable) (hup : f.upper.isSome) (hcow : f.oi.cowStatus = true) :
    StoredSeen (storedFile f pos bs) pos bs ↔ StoredBelow f pos bs := by
  constructor
  · rintro ⟨-, hret⟩
    refine ⟨fun i h₁ h₂ hun => ?_, fun hm i h₁ h₂ => ?_⟩
    · have hone := returns_one_uncopied (f := storedFile f pos bs) hf.lower (hf.lowerFile i hun) hun
      obtain ⟨-, hout⟩ := hone.unique (hret i 1 h₁ (by omega))
      have hk : i - pos < bs.length := by omega
      rw [List.drop_eq_getElem_cons hk, List.take_succ_cons, List.take_zero] at hout
      rw [List.getElem?_eq_getElem hk]
      change (f.readLower f.oi).get? i = _
      change ((f.readLower f.oi).get? i).toList = _ at hout
      cases hv : (f.readLower f.oi).get? i with
      | none =>
        rw [hv] at hout
        cases hout
      | some v =>
        rw [hv] at hout
        exact congrArg some (List.cons.inj hout).1
    · by_contra hle
      exact not_returns_of_noMap (f := storedFile f pos bs) hcow hm (Nat.le_of_not_lt hle)
        Nat.one_pos _ _ (hret i 1 h₁ (by omega))
  · intro hbelow
    have hserved : ∀ i, pos ≤ i → i < pos + bs.length →
        (storedFile f pos bs).served i = bs[i - pos]? :=
      fun i h₁ h₂ => storedFile_served hup hcow hbelow h₁ h₂
    refine ⟨fun fuel env p count res hres hret k hk h₁ h₂ => ?_, fun p count h₁ h₂ => ?_⟩
    · obtain ⟨hlen, hbytes⟩ := ovlReadIter_served hres hret
      rw [hbytes k (by omega)]
      exact hserved _ h₁ h₂
    · have hlen : ((bs.drop (p - pos)).take count).length = count := by
        rw [List.length_take, List.length_drop]
        omega
      have hslice : ∀ k, k < ((bs.drop (p - pos)).take count).length →
          (storedFile f pos bs).served (p + k) = ((bs.drop (p - pos)).take count)[k]? := by
        intro k hk
        rw [hlen] at hk
        rw [hserved _ (by omega) (by omega), List.getElem?_take, if_pos hk, List.getElem?_drop,
          show p - pos + k = p + k - pos by omega]
      have hopen : (storedFile f pos bs).PtrsUsable := ⟨hf.upperFile, hf.lowerFile, hf.lower⟩
      have hrange := returns_of_served (fun _ => hopen) hslice
      rw [hlen] at hrange
      exact hrange

end Stored

/-- Copying from the file moves what the real file behind it has. -/
theorem takenAgrees_iff (f : OvlFile) : TakenAgrees f ↔ ReadsAs f.ovlInodeRealdata f := by
  constructor
  · intro htaken pos count ret out hret
    -- The destination only has to be a file with its data in the upper layer.
    have hdest : (freshCow f 0 true).realInode = .upper := by
      rw [OvlFile.realInode, if_pos (OvlFile.realdataIsUpper_of_upperdata rfl rfl)]
    have hcopy : OvlCopyop.copy ≠ .dedupe := by decide
    have hdone := ovlCopyfile_done f ⟨.upper⟩ pos (freshCow f 0 true) ⟨.upper⟩ 0 count count hdest
      hcopy
    have hrange : min count (OvlCopyop.copy.range f.ovlInodeRealdata pos count) = count := by
      rw [OvlCopyop.range, if_neg (by simp), min_self]
    have hmoved : movedBytes f pos count .copy count = f.ovlInodeRealdata.read pos count := by
      rw [movedBytes, hrange]
    have hagree := htaken ⟨.upper⟩ pos (freshCow f 0 true) ⟨.upper⟩ 0 count .copy count hcopy
      (by rw [hdone]; exact Int.natCast_nonneg _) ret out (by rw [hrange]; exact hret)
    rw [hdone, hmoved] at hagree
    exact hagree
  · intro hreads fileIn posIn fout fileOut posOut len op k hop hnonneg ret out hret
    obtain hneg | ⟨k', hk, -, hcall⟩ :=
      ovlCopyfile_cases ⟨none, none, .done k⟩ f fileIn posIn fout fileOut posOut len hop
    · omega
    · cases hk
      rw [hcall, movedBytes]
      exact hreads _ _ _ _ hret

theorem mmapAgrees_iff (f : OvlFile) (file : OpenFile) :
    MmapAgrees f file ↔ ReadsAs (f.contents file.privateData) f := by
  constructor
  · exact fun h => h ⟨true, true, none⟩ _ rfl
  · intro h env r hr
    have hr' : r = file.privateData := by
      simp only [ovlMmap] at hr
      split at hr
      · cases hr
      · split at hr
        · cases hr
        · split at hr
          · next e _ => exact absurd (Prod.mk.inj hr).1 (Int.ne_of_lt e.ret_neg)
          · cases hr
            rfl
    rw [hr']
    exact h

/-- In every copy-on-write state that calls reach, with no error value among the cached
files: bytes stored by `ovl_copyfile` are returned by later reads exactly where reads look at
them, and bytes taken by `ovl_copyfile` or shown by `ovl_mmap` are the ones reads return
exactly when the real file they come from has the bytes of the map. -/
theorem data_paths_agree_iff {stack : List File} {old : OvlInode} {f : OvlFile}
    {tr : List (OvlFile × DataOp)} (hstack : stack ≠ [])
    (hrun : Lts.Run DataStep (.lookedUp stack old) tr f) (hcow : f.oi.cowStatus = true)
    (hup : f.oi.upperFile.Usable) (hlow : f.oi.lowerFile.Usable) :
    (∀ env fin fileIn posIn fileOut posOut len op r, op ≠ OvlCopyop.dedupe →
      ovlCopyfile env fin fileIn posIn f fileOut posOut len op = r → 0 ≤ r.ret →
        (StoredSeen r.out posOut r.moved ↔ StoredBelow f posOut r.moved)) ∧
      (TakenAgrees f ↔ SameBytes f.ovlInodeRealdata f) ∧
      ∀ file, MmapAgrees f file ↔ SameBytes (f.contents file.privateData) f := by
  have hsame : f.lowerstack = stack := by
    refine hrun.invariant (I := fun g => g.lowerstack = stack) rfl fun g op g' hg hs => ?_
    have hstep : g'.lowerstack = g.lowerstack := hs.sameStack (by rw [hg]; exact hstack)
    exact hstep.trans hg
  have hf : f.PtrsUsable := ⟨hup, fun _ _ => hlow, by rw [hsame]; exact hstack⟩
  refine ⟨fun env fin fileIn posIn fileOut posOut len op r hop hr hret => ?_, ?_, fun file => ?_⟩
  · subst hr
    obtain hneg | ⟨k, -, hupper, hcall⟩ :=
      ovlCopyfile_cases env fin fileIn posIn f fileOut posOut len hop
    · omega
    · rw [hcall]
      exact storedSeen_iff hf hupper hcow
  · rw [takenAgrees_iff]
    exact returns_eq_read_iff hf hcow
  · rw [mmapAgrees_iff]
    exact returns_eq_read_iff hf hcow

/-- A byte copied past the last block of a one-byte file. -/
theorem data_paths_agree_past : ∃ f₀ r,
    Lts.Run DataStep (.lookedUp [ofList [1]] zeroInode)
        [(.lookedUp [ofList [1]] zeroInode, .copyUp (.full false) 1)] f₀ ∧
      f₀.oi.cowStatus = true ∧
      ovlCopyfile ⟨none, none, .done 1⟩ (.lookedUp [ofList [9]] zeroInode) ⟨.lowerdata⟩ 0 f₀
        ⟨.upper⟩ 4096 1 .copy = r ∧ r.moved = [9] ∧ StoredSeen r.out 4096 r.moved := by
  have hcopy : ovlCopyUpFlags (.full false) (.lookedUp [ofList [1]] zeroInode) 1 =
      .ret (0, freshCow (.lookedUp [ofList [1]] zeroInode) 0 true) := rfl
  have hrun : Lts.Run DataStep (.lookedUp [ofList [1]] zeroInode)
      [(.lookedUp [ofList [1]] zeroInode, .copyUp (.full false) 1)]
      (freshCow (.lookedUp [ofList [1]] zeroInode) 0 true) := .snoc .nil (.copyUp hcopy)
  have hagree := data_paths_agree_iff (List.cons_ne_nil _ _) hrun rfl trivial trivial
  refine ⟨_, _, hrun, rfl, rfl, rfl, (hagree.1 _ _ _ _ _ _ _ _ _ (by decide) rfl
    (by decide)).mpr ⟨?_, fun hm => ?_⟩⟩
  · rintro i h₁ - ⟨-, hle, -⟩
    rw [ovlGetBlock_eq] at hle
    change i / 4096 + 1 ≤ 1 at hle
    omega
  · cases hm

/-- A one-byte file just copied up: a byte copied into it is not read back, and a
copy or a mapping of it does not have its byte. -/
theorem data_paths_disagree : ∃ f₀ r,
    ovlCopyUpFlags (.full false) (.lookedUp [ofList [1]] zeroInode) 1 = .ret (0, f₀) ∧
      f₀.oi.cowStatus = true ∧
      ovlCopyfile ⟨none, none, .done 1⟩ (.lookedUp [ofList [9]] zeroInode) ⟨.lowerdata⟩ 0 f₀
        ⟨.upper⟩ 0 1 .copy = r ∧ r.ret = 1 ∧ r.moved = [9] ∧ Returns r.out 0 1 1 [1] ∧
      ¬ StoredSeen r.out 0 r.moved ∧ Returns f₀ 0 1 1 [1] ∧
      ¬ TakenAgrees f₀ ∧ ¬ MmapAgrees f₀ ⟨.upper⟩ := by
  have hread : Returns (freshCow (.lookedUp [ofList [1]] zeroInode) 0 true) 0 1 1 [1] :=
    ⟨2, _, rfl, rfl, rfl⟩
  have hstored : Returns (storedFile (freshCow (.lookedUp [ofList [1]] zeroInode) 0 true) 0 [9])
      0 1 1 [1] := ⟨2, _, rfl, rfl, rfl⟩
  refine ⟨_, _, rfl, rfl, rfl, rfl, rfl, hstored, fun hseen => ?_, hread, fun htaken => ?_,
    fun hmap => ?_⟩
  · obtain ⟨fuel, res, hres, hret, hout⟩ := hstored
    have hbyte := hseen.1 fuel .full 0 1 res hres (by rw [hret]; decide) 0 (by rw [hret]; decide)
      le_rfl (by decide)
    rw [hout] at hbyte
    revert hbyte
    decide
  · obtain ⟨hout, -⟩ := htaken ⟨.upper⟩ 0 (freshCow (.lookedUp [ofList [1]] zeroInode) 0 true)
      ⟨.upper⟩ 0 1 .copy 1 (by decide) (by decide) 1 [1] hread
    cases hout
  · obtain ⟨hout, -⟩ := hmap ⟨true, true, none⟩ .upper rfl 0 1 1 [1] hread
    cases hout

end FzzOverlay

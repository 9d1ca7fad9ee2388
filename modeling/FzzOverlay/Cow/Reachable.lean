import FzzOverlay.Cow.Logical
import FzzOverlay.File.Cache
import FzzOverlay.Setattr

/-!
# Reachable states of a file over one lower layer

Runs of copy-ups, metadata-only ones included, writes, reads and truncations, in any order
and with failures at any point, carry the logical content along with the file. `Consistent`
is their invariant.
-/

namespace FzzOverlay

open SparseFile

-- ════════════════════════════════════════════════════════════════════════
-- Reads change the cached files only
-- ════════════════════════════════════════════════════════════════════════

/-- `oi'` is `oi` up to the cached files. Reads and writes open the same lower file
if the lower stack has one entry. -/
def Cached (f : OvlFile) (oi oi' : OvlInode) : Prop :=
  ∃ up lp, oi' = { oi with upperFile := up, lowerFile := lp } ∧
    (f.ovlPathLowerdata = 0 → oi.lowerFile.First → lp.First)

theorem Cached.refl (f : OvlFile) (oi : OvlInode) : Cached f oi oi := ⟨_, _, rfl, fun _ => id⟩

theorem Cached.trans {f : OvlFile} {oi oi' oi'' : OvlInode} (h : Cached f oi oi')
    (h' : Cached f oi' oi'') : Cached f oi oi'' := by
  obtain ⟨up, lp, rfl, hlp⟩ := h
  obtain ⟨up', lp', rfl, hlp'⟩ := h'
  exact ⟨up', lp', rfl, fun hdata hf => hlp' hdata (hlp hdata hf)⟩

/-- The inode in the state a pass ends with. -/
def Pass.CachedFrom (f : OvlFile) (oi : OvlInode) : Pass → Prop
  | .again s => Cached f oi s.oi
  | .done _ s => Cached f oi s.oi
  | .oops => True

section Reads

variable {env : ReadEnv} {f : OvlFile} {s : ReadState}

/-- A read opens the data of the lowest layer, which is the first one if there is one. -/
theorem opensKeep_cached (env : ReadEnv) (f : OvlFile) (oi : OvlInode) :
    OpensKeep env f (Cached f oi) where
  upper oi' h _ := by
    have hopen : Cached f oi' { oi' with upperFile := .ofOpen env.openUpper 0 } :=
      ⟨_, oi'.lowerFile, rfl, fun _ => id⟩
    exact h.trans hopen
  lower oi' h _ := by
    refine h.trans ⟨oi'.upperFile, _, rfl, fun hdata _ => ?_⟩
    cases env.openLower with
    | none =>
      rintro idx hidx
      cases hidx
      exact hdata
    | some e => nofun

theorem blockReadPass_cached :
    (blockReadPass env f s).CachedFrom f s.oi := by
  have hleaves := blockReadPass_leaves (opensKeep_cached env f s.oi) (.refl f s.oi)
  cases hp : blockReadPass env f s with
  | again s' =>
    rw [hp] at hleaves
    exact hleaves
  | done ret s' =>
    rw [hp] at hleaves
    exact hleaves
  | oops => trivial

theorem blockReadLoop_cached {fuel : ℕ} {res : ReadResult}
    (h : blockReadLoop env f fuel s = .ret res) : Cached f s.oi res.oi := by
  induction fuel generalizing s with
  | zero => cases h
  | succ fuel ih =>
    rw [blockReadLoop] at h
    split at h
    · cases h
      exact .refl f _
    · have hpass : (blockReadPass env f s).CachedFrom f s.oi := blockReadPass_cached
      split at h
      · next s' hp =>
        rw [hp] at hpass
        exact Cached.trans hpass (ih h)
      · next ret s' hp =>
        rw [hp] at hpass
        cases h
        exact hpass
      · cases h

/-- A read request leaves everything but the cached files. -/
theorem ovlReadIter_cached {fuel pos count : ℕ} {res : ReadResult}
    (h : ovlReadIter fuel env f pos count = .ret res) : Cached f f.oi res.oi := by
  rw [ovlReadIter] at h
  split at h
  · cases h
    exact .refl f _
  · split at h
    · cases h
      exact .refl f _
    · split at h
      · exact blockReadLoop_cached h
      · split at h
        · cases h
          exact .refl f _
        · cases h
          exact .refl f _

end Reads

-- ════════════════════════════════════════════════════════════════════════
-- Runs
-- ════════════════════════════════════════════════════════════════════════

/-- The calls that reach the data of a regular file. -/
inductive CowOp where
  | copyUp (env : CopyUpEnv) (flags : ℕ)
  | write (env : WriteEnv) (req : WriteReq)
  | read (fuel : ℕ) (env : ReadEnv) (pos count : ℕ)
  | truncate (env : SetattrEnv) (n : ℕ)

/-- The content after a call of `ovl_copy_up_flags`: with `O_TRUNC` the new upper file is to be
empty. -/
def copiedContent (flags : ℕ) (f g : OvlFile) (X : File) : File :=
  if hasTrunc flags && f.upper.isNone && g.upper.isSome then empty else X

/-- One call that returns, on the file and its logical content. A file is open for
writing only once it is copied up with its data, and `vfs_iter_write` stores the whole
request or fails before storing anything. -/
inductive CowStep : OvlFile × File → CowOp → OvlFile × File → Prop
  | copyUp {f g : OvlFile} {X : File} {env : CopyUpEnv} {flags : ℕ} {ret : ℤ}
      (h : ovlCopyUpFlags env f flags = .ret (ret, g)) :
      CowStep (f, X) (.copyUp env flags) (g, copiedContent flags f g X)
  | write {f : OvlFile} {X : File} {env : WriteEnv} {req : WriteReq} {r : WriteResult}
      (hup : f.upper.isSome) (hdata : f.oi.upperdata = true)
      (henv : env.wr 0 = .full ∨ ∃ e, env.wr 0 = .fail e) (h : ovlWriteIter env f req = .ret r) :
      CowStep (f, X) (.write env req) (r.file, if 0 ≤ r.ret then logicalWrite X req else X)
  | read {f : OvlFile} {X : File} {fuel : ℕ} {env : ReadEnv} {pos count : ℕ} {res : ReadResult}
      (h : ovlReadIter fuel env f pos count = .ret res) :
      CowStep (f, X) (.read fuel env pos count) ({ f with oi := res.oi }, X)
  | truncate {f g : OvlFile} {X : File} {env : SetattrEnv} {n : ℕ} {ret : ℤ}
      (h : ovlSetattr env f (some n) = .ret (ret, g)) :
      CowStep (f, X) (.truncate env n) (g, if ret = 0 then X.truncate n else X)

/-- The upper file of one lower layer is a hole of `n` bytes, as after a metadata-only copy-up. -/
structure UpperHole (lower : File) (n : ℕ) (f : OvlFile) : Prop where
  lowerstack : f.lowerstack = [lower]
  upper : f.upper.isSome
  data : f.upperData = empty.truncate n
  copyCount : f.oi.copyCount = 0
  lowerFile : f.oi.lowerFile.First
  counts : CountsBlocks lower f

/-- In copy-on-write mode without a map, as `kmalloc` leaves it when it fails, calls that reach
a block of the lower file fault. What lies past it is the content. -/
structure Mapless (lower X : File) (f : OvlFile) : Prop where
  lowerstack : f.lowerstack = [lower]
  upper : f.upper.isSome
  cowStatus : f.oi.cowStatus = true
  blockStatus : f.oi.blockStatus = none
  counts : CountsBlocks lower f
  past : ∀ i, f.oi.blockCount < ovlGetBlock i → f.upperData.cell i = X.cell i
  upper_le : f.upperData.size ≤ X.size

/-- The file is not copied up or only its metadata is, and it has its lower content, or
reads that return find the content. -/
inductive Consistent (lower : File) : OvlFile × File → Prop
  | notCopied {f : OvlFile} (h : NotCopied lower f) : Consistent lower (f, lower)
  | metaOnly {f : OvlFile} (h : UpperHole lower lower.size f) (hno : f.oi.upperdata = false) :
      Consistent lower (f, lower)
  | mapless {f : OvlFile} {X : File} (h : Mapless lower X f) : Consistent lower (f, X)
  | tracks {f : OvlFile} {X : File} (h : Tracks lower X f) : Consistent lower (f, X)

theorem Consistent.lowerstack {lower : File} {s : OvlFile × File} (h : Consistent lower s) :
    s.1.lowerstack = [lower] := by
  cases h with
  | notCopied hf => exact hf.lowerstack
  | metaOnly hf _ => exact hf.lowerstack
  | mapless hf => exact hf.lowerstack
  | tracks hf => exact hf.lowerstack

/-- Reads leave the invariant. -/
theorem Consistent.cached {lower X : File} {f : OvlFile} {oi : OvlInode}
    (h : Consistent lower (f, X)) (hc : Cached f f.oi oi) :
    Consistent lower ({ f with oi := oi }, X) := by
  have hdata := OvlFile.ovlPathLowerdata_of_single h.lowerstack
  obtain ⟨up, lp, rfl, hlp⟩ := hc
  cases h with
  | notCopied hf =>
    exact .notCopied ⟨hf.lowerstack, hf.upper, hf.upperdata, hf.copyCount,
      hlp hdata hf.lowerFile, hf.counts⟩
  | metaOnly hf hno =>
    exact .metaOnly ⟨hf.lowerstack, hf.upper, hf.data, hf.copyCount, hlp hdata hf.lowerFile,
      hf.counts⟩ hno
  | mapless hf =>
    exact .mapless ⟨hf.lowerstack, hf.upper, hf.cowStatus, hf.blockStatus, hf.counts, hf.past,
      hf.upper_le⟩
  | tracks hf =>
    exact .tracks ⟨hf.lowerstack, hf.upper, hf.upperdata, hlp hdata hf.lowerFile, hf.blockCount,
      hf.map, hf.marked, hf.uncopied, hf.beyond, hf.upper_le, hf.reaches⟩

theorem Tracks.linked {lower X : File} {f : OvlFile} (h : Tracks lower X f) (a : Bool) :
    Tracks lower X { f with upperAlias := a } :=
  ⟨h.lowerstack, h.upper, h.upperdata, h.lowerFile, h.blockCount, h.map, h.marked, h.uncopied,
    h.beyond, h.upper_le, h.reaches⟩

theorem Mapless.linked {lower X : File} {f : OvlFile} (h : Mapless lower X f) (a : Bool) :
    Mapless lower X { f with upperAlias := a } :=
  ⟨h.lowerstack, h.upper, h.cowStatus, h.blockStatus, h.counts, h.past, h.upper_le⟩

theorem Consistent.linked {lower X : File} {f : OvlFile} (h : Consistent lower (f, X)) (a : Bool) :
    Consistent lower ({ f with upperAlias := a }, X) := by
  cases h with
  | notCopied hf =>
    exact .notCopied ⟨hf.lowerstack, hf.upper, hf.upperdata, hf.copyCount, hf.lowerFile,
      hf.counts⟩
  | metaOnly hf hno =>
    exact .metaOnly ⟨hf.lowerstack, hf.upper, hf.data, hf.copyCount, hf.lowerFile, hf.counts⟩ hno
  | mapless hf => exact .mapless (hf.linked a)
  | tracks hf => exact .tracks (hf.linked a)

-- ════════════════════════════════════════════════════════════════════════
-- Files whose upper file is a hole
-- ════════════════════════════════════════════════════════════════════════

/-- Once the file counts as copied up, reads of offset `i` go to the upper file. -/
def OvlFile.ReadsUpper (f : OvlFile) (i : ℕ) : Prop := f.oi.cowStatus = false ∨ f.Copied i

/-- In copy-on-write mode the block of `i` belongs to the map, and reads do not take it from the
lower file. -/
def OvlFile.Stuck (f : OvlFile) (i : ℕ) : Prop :=
  f.oi.cowStatus = true ∧ ovlGetBlock i ≤ f.oi.blockCount ∧ ¬ f.Uncopied i

theorem OvlFile.Copied.stuck {f : OvlFile} {i : ℕ} (h : f.Copied i) : f.Stuck i :=
  ⟨h.1, h.2.1, h.not_uncopied⟩

/-- Reads that return find the content `X`. -/
def HoldsContent (lower X : File) (f : OvlFile) : Prop := Mapless lower X f ∨ Tracks lower X f

theorem HoldsContent.consistent {lower X : File} {f : OvlFile} (h : HoldsContent lower X f) :
    Consistent lower (f, X) := by
  obtain hf | hf := h
  · exact .mapless hf
  · exact .tracks hf

theorem Mapless.not_uncopied {lower X : File} {f : OvlFile} (h : Mapless lower X f) (i : ℕ) :
    ¬ f.Uncopied i := by
  rintro ⟨-, -, m, hm, -⟩
  rw [h.blockStatus] at hm
  cases hm

theorem Mapless.not_copied {lower X : File} {f : OvlFile} (h : Mapless lower X f) (i : ℕ) :
    ¬ f.Copied i := by
  rintro ⟨-, -, m, hm, -⟩
  rw [h.blockStatus] at hm
  cases hm

theorem HoldsContent.readsFrom {lower X : File} {f : OvlFile} (h : HoldsContent lower X f) :
    ReadsFrom X f := by
  obtain hf | hf := h
  · refine readsFrom_of_served fun i v hv => ?_
    obtain ⟨hc | hp, hup⟩ := OvlFile.served_upper hf.cowStatus (hf.not_uncopied i) hv
    · exact absurd hc (hf.not_copied i)
    · rw [get?_eq_some_iff] at hup ⊢
      exact ⟨lt_of_lt_of_le hup.1 hf.upper_le, by rw [← hf.past i hp]; exact hup.2⟩
  · exact hf.readsFrom

namespace UpperHole

variable {lower : File} {f : OvlFile} {n i : ℕ}

theorem cell_eq (h : UpperHole lower n f) (i : ℕ) : f.upperData.cell i = 0 := by
  rw [h.data]
  by_cases hi : i < n
  · exact truncate_cell_of_lt _ hi
  · exact truncate_cell_of_ge _ (by omega)

theorem size_eq (h : UpperHole lower n f) : f.upperData.size = n := by
  rw [h.data, truncate_size]

theorem readLower_eq (h : UpperHole lower n f) : f.readLower f.oi = lower :=
  OvlFile.readLower_of_single h.lowerstack h.lowerFile

/-- The lower content cut to the size of the hole is zero where reads find the hole. -/
theorem cell_truncate (hzero : ∀ i, i < n → f.ReadsUpper i → lower.cell i = 0)
    (hi : f.ReadsUpper i) : (lower.truncate n).cell i = 0 := by
  by_cases hn : i < n
  · rw [truncate_cell_of_lt _ hn, hzero i hn hi]
  · exact truncate_cell_of_ge _ (by omega)

/-- When the hole counts as copied up, it is the lower content cut to its size if that is zero
where reads find the hole, and no uncopied block has a byte behind it. -/
theorem holdsContent (h : UpperHole lower n f) (hmax : lower.size ≤ MAX_COW_SIZE)
    (hreal : f.oi.upperdata = true) (hzero : ∀ i, i < n → f.ReadsUpper i → lower.cell i = 0)
    (hun : ∀ i, f.Uncopied i → i < lower.size → i < n) :
    HoldsContent lower (lower.truncate n) f := by
  have hsize : f.upperData.size = (lower.truncate n).size := h.size_eq
  cases hcow : f.oi.cowStatus with
  | false =>
    have hX : f.upperData = lower.truncate n := by
      refine SparseFile.ext hsize fun i => ?_
      rw [h.cell_eq, cell_truncate hzero (.inl hcow)]
    rw [← hX]
    exact .inr (.of_plain h.lowerstack h.upper hreal h.lowerFile hcow)
  | true =>
    have hpast : ∀ i, f.oi.blockCount < ovlGetBlock i →
        f.upperData.cell i = (lower.truncate n).cell i := by
      intro i hi
      have hle := h.counts.le_of_past hmax hcow hi
      rw [h.cell_eq]
      by_cases hn : i < n
      · rw [truncate_cell_of_lt _ hn, lower.cell_eq_zero i hle]
      · rw [truncate_cell_of_ge _ (by omega)]
    cases hm : f.oi.blockStatus with
    | none =>
      exact .inl ⟨h.lowerstack, h.upper, hcow, hm, h.counts, hpast, hsize.le⟩
    | some m =>
      refine .inr ⟨h.lowerstack, h.upper, hreal, h.lowerFile, h.counts, fun _ => ⟨m, hm, ?_⟩, ?_,
        ?_, ?_, hsize.le, .inl hsize.ge⟩
      · rw [h.copyCount, Nat.zero_add]
        exact (Finset.card_filter_le _ _).trans (by simp)
      · intro i hi
        obtain hu | hc | hp := OvlFile.block_cases (by rw [hm]; rfl) hcow i
        · exact absurd hu hi
        · rw [h.cell_eq, cell_truncate hzero (.inr hc)]
        · exact hpast i hp
      · intro i hi hlt
        have hn := hun i hi hlt
        exact ⟨truncate_cell_of_lt _ hn, hn⟩
      · intro i _ hle
        refine ⟨?_, h.cell_eq i⟩
        by_cases hn : i < n
        · rw [truncate_cell_of_lt _ hn, lower.cell_eq_zero i hle]
        · exact truncate_cell_of_ge _ (by omega)

end UpperHole

theorem truncate_size_self (X : File) : X.truncate X.size = X := by
  refine SparseFile.ext rfl fun i => ?_
  by_cases hi : i < X.size
  · exact truncate_cell_of_lt _ hi
  · rw [truncate_cell_of_ge _ (by omega), X.cell_eq_zero i (by omega)]

-- ════════════════════════════════════════════════════════════════════════
-- Copy-ups
-- ════════════════════════════════════════════════════════════════════════

/-- The copy-up hides no byte of the content. -/
structure CopyUpKeeps (lower : File) (f : OvlFile) (flags : ℕ) : Prop where
  /-- A metadata-only copy is completed where reads find zeroes in the lower file. -/
  metaOnly : f.upper.isSome → needsDataCopyUpLocked f flags = true →
    ∀ i, f.ReadsUpper i → lower.cell i = 0
  /-- With `O_TRUNC` an earlier copy-up that failed left no uncopied lower byte. -/
  trunc : f.upper = none → hasTrunc flags = true → ∀ i, f.Uncopied i → lower.size ≤ i

section CopyUp

variable {lower X : File} {env : CopyUpEnv} {flags : ℕ} {f g : OvlFile} {ret : ℤ}

theorem ovlNeedMetaCopyUp_of_hasTrunc (metacopy : Bool) (h : hasTrunc flags = true) :
    ovlNeedMetaCopyUp metacopy flags = false := by
  have hne : flags ≠ 0 := by
    rintro rfl
    cases h
  rw [ovlNeedMetaCopyUp, h]
  simp [hne]

/-- The file after the copy-up of an empty lower file. -/
def freshEmpty (f : OvlFile) (linked : Bool) : OvlFile :=
  { f with upper := some newTemp, upperAlias := linked, oi := { f.oi with upperdata := true } }

/-- The file after a metadata-only copy-up. -/
def freshHole (f : OvlFile) (size : ℕ) (linked : Bool) : OvlFile :=
  { f with upper := some ⟨empty.truncate size, true⟩, upperAlias := linked }

namespace NotCopied

theorem lowerAt_zero (h : NotCopied lower f) : f.lowerAt 0 = lower :=
  OvlFile.lowerAt_zero_of_single h.lowerstack

theorem cow_eq_false (h : NotCopied lower f) (h0 : lower.size = 0) :
    f.oi.cowStatus = false := by
  by_contra hc
  obtain ⟨-, hpos⟩ := h.counts (by simpa using hc)
  omega

/-- The new upper file of a copy-up. -/
theorem installed_cases (h : NotCopied lower f) {a : Bool}
    (hmem : (copyUpCtx env f flags).metacopy = true ∨ (copyUpCtx env f flags).size = 0 ∨
      env.mem.isSome) :
    (ovlNeedMetaCopyUp env.metacopy flags = true ∧
        installedFile env (copyUpCtx env f flags) f a = freshHole f lower.size a) ∨
      (ovlNeedMetaCopyUp env.metacopy flags = false ∧
        (hasTrunc flags = true ∨ lower.size = 0) ∧
        installedFile env (copyUpCtx env f flags) f a = freshEmpty f a) ∨
      (ovlNeedMetaCopyUp env.metacopy flags = false ∧ hasTrunc flags = false ∧ 0 < lower.size ∧
        ∃ addr, installedFile env (copyUpCtx env f flags) f a = freshCow f addr a) := by
  cases hmeta : ovlNeedMetaCopyUp env.metacopy flags with
  | true =>
    have htrunc : hasTrunc flags = false := by
      by_contra ht
      rw [ovlNeedMetaCopyUp_of_hasTrunc _ (by simpa using ht)] at hmeta
      cases hmeta
    have hmeta' : (copyUpCtx env f flags).metacopy = true := hmeta
    have hsize : (copyUpCtx env f flags).size = lower.size := by
      rw [copyUpCtx_size env f htrunc, h.lowerAt_zero]
    refine .inl ⟨rfl, ?_⟩
    rw [installedFile, copiedUpTemp, if_pos hmeta', if_pos hmeta', copiedUpInode,
      if_pos (Or.inl hmeta'), hsize]
    rfl
  | false =>
    have hmeta' : (copyUpCtx env f flags).metacopy = false := hmeta
    have hne : ¬ (copyUpCtx env f flags).metacopy = true := by simp [hmeta']
    by_cases h0 : (copyUpCtx env f flags).size = 0
    · refine .inr (.inl ⟨rfl, ?_, ?_⟩)
      · cases htrunc : hasTrunc flags with
        | true => exact .inl rfl
        | false =>
          rw [copyUpCtx_size env f htrunc, h.lowerAt_zero] at h0
          exact .inr h0
      · rw [installedFile, copiedUpTemp, if_neg hne, if_neg hne, copiedUpInode, if_pos (Or.inr h0)]
        rfl
    · have htrunc : hasTrunc flags = false := by
        by_contra ht
        refine h0 ?_
        rw [copyUpCtx, if_pos (by simpa using ht)]
      have hsize : (copyUpCtx env f flags).size = lower.size := by
        rw [copyUpCtx_size env f htrunc, h.lowerAt_zero]
      rw [hmeta'] at hmem
      obtain ⟨addr, haddr⟩ : ∃ addr, env.mem = some addr := by
        rw [← Option.isSome_iff_exists]
        simpa [h0] using hmem
      exact .inr (.inr ⟨rfl, htrunc, Nat.pos_of_ne_zero (hsize ▸ h0), addr,
        installedFile_eq_freshCow hmeta' h0 haddr⟩)

/-- A metadata-only copy-up leaves a hole as long as the lower file. -/
theorem upperHole_freshHole (h : NotCopied lower f) (a : Bool) :
    UpperHole lower lower.size (freshHole f lower.size a) :=
  ⟨h.lowerstack, rfl, rfl, h.copyCount, h.lowerFile, h.counts⟩

theorem upperHole_freshEmpty (h : NotCopied lower f) (a : Bool) :
    UpperHole lower 0 (freshEmpty f a) :=
  ⟨h.lowerstack, rfl, SparseFile.ext rfl fun _ => (truncate_cell_of_ge _ (Nat.zero_le _)).symm,
    h.copyCount, h.lowerFile, h.counts⟩

/-- An empty upper file without uncopied lower bytes is the content cut to nothing. -/
theorem holds_freshEmpty (h : NotCopied lower f) (hmax : lower.size ≤ MAX_COW_SIZE)
    (hun : ∀ i, f.Uncopied i → lower.size ≤ i) (a : Bool) :
    HoldsContent lower (lower.truncate 0) (freshEmpty f a) := by
  refine (h.upperHole_freshEmpty a).holdsContent hmax rfl
    (fun i hi => absurd hi (Nat.not_lt_zero i)) ?_
  intro i hi hlt
  have hle := hun i hi
  omega

theorem holds_freshEmpty_of_empty (h : NotCopied lower f) (hmax : lower.size ≤ MAX_COW_SIZE)
    (h0 : lower.size = 0) (a : Bool) : HoldsContent lower lower (freshEmpty f a) := by
  have hset := h.holds_freshEmpty hmax (fun i _ => by omega) a
  rwa [← h0, truncate_size_self] at hset

end NotCopied

theorem truncate_zero (X : File) : X.truncate 0 = empty :=
  SparseFile.ext rfl fun _ => truncate_cell_of_ge _ (Nat.zero_le _)

/-- The data copy-up of a metadata-only copy changes the overlay inode only. -/
theorem UpperHole.completed {n : ℕ} (h : UpperHole lower n f) (a : Bool) :
    UpperHole lower n (completedFile f a) := by
  obtain ⟨u, hu⟩ := Option.isSome_iff_exists.mp h.upper
  refine ⟨h.lowerstack, by simp [completedFile, hu], ?_, h.copyCount, h.lowerFile, h.counts⟩
  rw [← h.data]
  simp [completedFile, OvlFile.upperData, hu]

theorem Mapless.completed (h : Mapless lower X f) (a : Bool) :
    Mapless lower X (completedFile f a) := by
  obtain ⟨u, hu⟩ := Option.isSome_iff_exists.mp h.upper
  have hdata : (completedFile f a).upperData = f.upperData := by
    simp [completedFile, OvlFile.upperData, hu]
  refine ⟨h.lowerstack, by simp [completedFile, hu], h.cowStatus, h.blockStatus, h.counts, ?_, ?_⟩
  · rw [hdata]
    exact h.past
  · rw [hdata]
    exact h.upper_le

/-- A file with its metadata and zeroes for its data, declared copied up. -/
theorem UpperHole.holds_completed (h : UpperHole lower lower.size f)
    (hmax : lower.size ≤ MAX_COW_SIZE) (hzero : ∀ i, f.ReadsUpper i → lower.cell i = 0) (a : Bool) :
    HoldsContent lower lower (completedFile f a) := by
  have hset := (h.completed a).holdsContent hmax rfl (fun i _ hi => hzero i hi) fun i _ hlt => hlt
  rwa [truncate_size_self] at hset

theorem copiedContent_of_upper (h : f.upper.isSome) : copiedContent flags f g X = X := by
  rw [copiedContent, if_neg]
  simp [Option.isSome_iff_ne_none.mp h]

theorem copiedContent_of_noTrunc (h : hasTrunc flags = false) :
    copiedContent flags f g X = X := by
  rw [copiedContent, h]
  rfl

theorem copiedContent_of_none (h : g.upper = none) : copiedContent flags f g X = X := by
  rw [copiedContent, if_neg]
  simp [h]

/-- A copy-up that fails may leave copy-on-write mode set without an upper file. -/
theorem NotCopied.unfinished (h : NotCopied lower f) :
    NotCopied lower { f with oi := copiedUpInode env (copyUpCtx env f flags) f.oi } := by
  rw [copiedUpInode]
  split
  · exact h
  next hcond =>
    rw [not_or] at hcond
    have htrunc : hasTrunc flags = false := by
      by_contra ht
      refine hcond.2 ?_
      rw [copyUpCtx, if_pos (by simpa using ht)]
    rw [copyUpCtx_size env f htrunc, h.lowerAt_zero] at hcond ⊢
    have h0 : 0 < lower.size := Nat.pos_of_ne_zero hcond.2
    split
    · exact ⟨h.lowerstack, h.upper, h.upperdata, h.copyCount, h.lowerFile, fun _ => ⟨rfl, h0⟩⟩
    · exact ⟨h.lowerstack, h.upper, h.upperdata, h.copyCount, h.lowerFile, fun _ => ⟨rfl, h0⟩⟩

/-- A copy-up of a file that is not copied up. -/
theorem NotCopied.copyUp (h : NotCopied lower f) (hmax : lower.size ≤ MAX_COW_SIZE)
    (hempty : hasTrunc flags = true → ∀ i, f.Uncopied i → lower.size ≤ i)
    (hcase : CopyUpCase env flags f (ret, g)) :
    Consistent lower (g, copiedContent flags f g lower) := by
  have hno : ¬ f.upper.isSome := by
    rw [h.upper]
    simp
  generalize hr : (ret, g) = r at hcase
  cases hcase with
  | linked ret a hok =>
    obtain ⟨rfl, rfl⟩ := Prod.mk.inj hr
    have hsame : copiedContent flags f { f with upperAlias := a } lower = lower :=
      copiedContent_of_none h.upper
    rw [hsame]
    exact (Consistent.notCopied h).linked a
  | unfinished ret hup hret =>
    obtain ⟨rfl, rfl⟩ := Prod.mk.inj hr
    have hsame : copiedContent flags f
        { f with oi := copiedUpInode env (copyUpCtx env f flags) f.oi } lower = lower :=
      copiedContent_of_none h.upper
    rw [hsame]
    exact .notCopied h.unfinished
  | installed ret a hup hmem =>
    obtain ⟨-, rfl⟩ := Prod.mk.inj hr
    obtain ⟨hmeta, hg⟩ | ⟨-, htrunc | h0, hg⟩ | ⟨-, htrunc, h0, addr, hg⟩ :=
      h.installed_cases (a := a) hmem
    · have htrunc : hasTrunc flags = false := by
        by_contra ht
        rw [ovlNeedMetaCopyUp_of_hasTrunc _ (by simpa using ht)] at hmeta
        cases hmeta
      rw [copiedContent_of_noTrunc htrunc, hg]
      exact .metaOnly (h.upperHole_freshHole a) h.upperdata
    · have hcut : copiedContent flags f (installedFile env (copyUpCtx env f flags) f a) lower =
          lower.truncate 0 := by
        rw [copiedContent, htrunc, h.upper, truncate_zero]
        rfl
      rw [hcut, hg]
      exact (h.holds_freshEmpty hmax (hempty htrunc) a).consistent
    · have hsame : copiedContent flags f (installedFile env (copyUpCtx env f flags) f a) lower =
          lower := by
        rw [copiedContent]
        split
        · exact SparseFile.ext h0.symm fun i => (lower.cell_eq_zero i (by omega)).symm
        · rfl
      rw [hsame, hg]
      exact (h.holds_freshEmpty_of_empty hmax h0 a).consistent
    · rw [copiedContent_of_noTrunc htrunc, hg]
      exact .tracks (h.tracks_freshCow h0 hmax addr a)
  | completed ret a hup hneed => exact absurd hup hno

/-- A copy-up of a file that has an upper file links it, or declares its data copied. -/
theorem CopyUpCase.of_upper (hcase : CopyUpCase env flags f (ret, g)) (hup : f.upper.isSome) :
    ((ret = 0 → needsDataCopyUpLocked f flags = false) ∧ ∃ a, g = { f with upperAlias := a }) ∨
      (ret = 0 ∧ needsDataCopyUpLocked f flags = true ∧ ∃ a, g = completedFile f a) := by
  have hne : f.upper ≠ none := Option.isSome_iff_ne_none.mp hup
  generalize hr : (ret, g) = r at hcase
  cases hcase with
  | linked ret a hok =>
    obtain ⟨rfl, rfl⟩ := Prod.mk.inj hr
    exact .inl ⟨fun h0 => (hok h0).2, a, rfl⟩
  | unfinished ret hup hret => exact absurd hup hne
  | installed ret a hup hmem => exact absurd hup hne
  | completed ret a hup hneed h0 =>
    obtain ⟨rfl, rfl⟩ := Prod.mk.inj hr
    exact .inr ⟨h0, hneed, a, rfl⟩

/-- Every copy-up that hides no byte keeps the invariant. One that fails completes no
metadata-only copy. -/
theorem Consistent.copyUp (h : Consistent lower (f, X)) (hmax : lower.size ≤ MAX_COW_SIZE)
    (hzero : ret = 0 → f.upper.isSome → needsDataCopyUpLocked f flags = true →
      ∀ i, f.ReadsUpper i → lower.cell i = 0)
    (hempty : f.upper = none → hasTrunc flags = true → ∀ i, f.Uncopied i → lower.size ≤ i)
    (hcase : CopyUpCase env flags f (ret, g)) :
    Consistent lower (g, copiedContent flags f g X) := by
  cases h with
  | notCopied hf => exact hf.copyUp hmax (hempty hf.upper) hcase
  | metaOnly hf hno =>
    rw [copiedContent_of_upper hf.upper]
    obtain ⟨-, a, rfl⟩ | ⟨h0, hneed, a, rfl⟩ := hcase.of_upper hf.upper
    · exact (Consistent.metaOnly hf hno).linked a
    · exact (hf.holds_completed hmax (hzero h0 hf.upper hneed) a).consistent
  | mapless hf =>
    rw [copiedContent_of_upper hf.upper]
    obtain ⟨-, a, rfl⟩ | ⟨-, -, a, rfl⟩ := hcase.of_upper hf.upper
    · exact .mapless (hf.linked a)
    · exact .mapless (hf.completed a)
  | tracks hf =>
    rw [copiedContent_of_upper hf.upper]
    obtain ⟨a, rfl⟩ := hcase.of_upperdata hf.upper hf.upperdata
    exact .tracks (hf.linked a)

end CopyUp

theorem logicalWrite_of_nil {X : File} {req : WriteReq} (h : req.data = []) :
    logicalWrite X req = X := by
  rw [logicalWrite, h, write_nil]

/-- In copy-on-write mode without a map no request to write reaches the data. -/
theorem ovlWriteIter_noMap {f : OvlFile} {env : WriteEnv} {req : WriteReq} {r : WriteResult}
    (hcow : f.oi.cowStatus = true) (hmap : f.oi.blockStatus = none)
    (hr : ovlWriteIter env f req = .ret r) :
    (r.file = f ∨ r.file = f.ovlCopyattr) ∧ (0 ≤ r.ret → req.data = []) := by
  have hmap' : f.ovlCopyattr.oi.blockStatus = none := hmap
  rw [ovlWriteIter] at hr
  split at hr
  · next hdata =>
    cases hr
    exact ⟨.inl rfl, fun _ => hdata⟩
  split at hr
  · next e _ =>
    cases hr
    exact ⟨.inr rfl, fun h0 => absurd e.ret_neg (Int.not_lt.mpr h0)⟩
  · next e _ _ =>
    cases hr
    exact ⟨.inr rfl, fun h0 => absurd e.ret_neg (Int.not_lt.mpr h0)⟩
  · rw [blockWriteIter, hmap'] at hr
    cases hr

theorem Mapless.write {lower X : File} {f : OvlFile} {env : WriteEnv} {req : WriteReq}
    {r : WriteResult} (h : Mapless lower X f) (hr : ovlWriteIter env f req = .ret r) :
    Mapless lower X r.file ∧ (0 ≤ r.ret → req.data = []) := by
  obtain ⟨hfile | hfile, hdata⟩ := ovlWriteIter_noMap h.cowStatus h.blockStatus hr
  · rw [hfile]
    exact ⟨h, hdata⟩
  · rw [hfile]
    exact ⟨⟨h.lowerstack, h.upper, h.cowStatus, h.blockStatus, h.counts, h.past, h.upper_le⟩, hdata⟩

end FzzOverlay

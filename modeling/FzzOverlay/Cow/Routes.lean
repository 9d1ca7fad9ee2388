import FzzOverlay.Cow.Shape

/-!
# Copy-up and the content of the file

Runs of `ovl_copy_up_flags` on a regular file, in any order of metadata-only and
data copy-ups, with failures at any point. `CopyUpSafe` is the exact condition
under which one more call that succeeds keeps the content.
-/

namespace FzzOverlay

open SparseFile

/-- One call of `ovl_copy_up_flags` without `O_TRUNC` that returns `ret`. -/
def CopiesUp (metacopy : Bool) (ret : ℤ) (f : OvlFile) (e : CopyUpEnv × ℕ) (g : OvlFile) : Prop :=
  e.1.metacopy = metacopy ∧ hasTrunc e.2 = false ∧ ovlCopyUpFlags e.1 f e.2 = .ret (ret, g)

/-- One call, whatever it returns. -/
def CopyUpCall (metacopy : Bool) (f : OvlFile) (e : CopyUpEnv × ℕ) (g : OvlFile) : Prop :=
  ∃ ret, CopiesUp metacopy ret f e g

/-- The call does not meet one of the states in which the routes go wrong. -/
structure CopyUpSafe (f : OvlFile) (e : CopyUpEnv × ℕ) : Prop where
  /-- `kmalloc` does not fail while `block_status` holds a pointer of an earlier life. -/
  map : f.upper = none → ovlNeedMetaCopyUp e.1.metacopy e.2 = false → (f.lowerAt 0).size ≠ 0 →
    e.1.mem = none → f.oi.blockStatus = none
  /-- The data of a metadata-only inode outside copy-on-write mode is all zero. -/
  data : f.upper.isSome → needsDataCopyUpLocked f e.2 = true → f.oi.cowStatus = false →
    ∀ i, i < (f.lowerAt 0).size → f.lowerdata.get? i = some 0
  /-- A metadata-only copy-up in copy-on-write mode finds no data past the map. -/
  past : f.upper = none → ovlNeedMetaCopyUp e.1.metacopy e.2 = true → f.oi.cowStatus = true →
    ∀ i, i < (f.lowerAt 0).size → f.oi.blockCount < ovlGetBlock i → f.lowerdata.get? i = some 0

/-- Invariant of the runs: nothing is copied yet, so the upper file holds zeroes,
and reads take no byte from it that the lower content does not have. -/
structure RouteInv (stack : List File) (f : OvlFile) : Prop where
  lowerstack : f.lowerstack = stack
  lowerFile : f.oi.lowerFile = .null
  upperFile : f.oi.upperFile = .null
  zero : ∀ i, f.upperData.cell i = 0
  size : f.upperData.size ≤ (f.lowerAt 0).size
  noUpper : f.upper = none → f.oi.upperdata = false
  metaSize : f.upper.isSome → f.oi.upperdata = false →
    f.upperData.size = (f.lowerAt 0).size
  map : f.oi.cowStatus = true → ∀ m, f.oi.blockStatus = some m → ∀ i, m.cells i = .uncopy
  past : f.oi.cowStatus = true → ∀ i, i < f.upperData.size → f.oi.blockCount < ovlGetBlock i →
    f.lowerdata.get? i = some 0
  data : f.oi.cowStatus = false → f.oi.upperdata = true → ∀ i, i < f.upperData.size →
    f.lowerdata.get? i = some 0

namespace RouteInv

variable {stack : List File} {f : OvlFile}

theorem lookedUp (stack : List File) (old : OvlInode) : RouteInv stack (.lookedUp stack old) := by
  refine ⟨rfl, rfl, rfl, fun _ => rfl, Nat.zero_le _, fun _ => rfl, ?_, ?_, ?_, ?_⟩
  · intro h
    cases h
  · intro h
    cases h
  · intro h
    cases h
  · exact fun _ _ i hi => absurd hi (Nat.not_lt_zero i)

theorem get?_upperData (h : RouteInv stack f) {i : ℕ} {v : UInt8}
    (hv : f.upperData.get? i = some v) : i < f.upperData.size ∧ v = 0 := by
  rw [get?_eq_some_iff] at hv
  exact ⟨hv.1, by rw [← hv.2, h.zero]⟩

theorem readsFrom (h : RouteInv stack f) (hstack : stack ≠ []) : ReadsFrom f.lowerdata f := by
  have hlow : f.readLower f.oi = f.lowerdata := by rw [OvlFile.readLower, h.lowerFile]
  refine readsFrom_of_served fun i v hv => ?_
  cases hcow : f.oi.cowStatus with
  | true =>
    by_cases hu : f.Uncopied i
    · rwa [OvlFile.served_of_uncopied hu, hlow] at hv
    · obtain ⟨hc | hp, hup⟩ := OvlFile.served_upper hcow hu hv
      · obtain ⟨-, -, m, hm, hcell⟩ := hc
        exact absurd (h.map hcow m hm _) hcell
      · obtain ⟨hlt, rfl⟩ := h.get?_upperData hup
        exact h.past hcow i hlt hp
  | false =>
    rw [OvlFile.served_of_not_cow hcow, OvlFile.ovlInodeRealdata] at hv
    split at hv
    · next hreal =>
      have hempty : f.lowerstack.isEmpty = false := by
        rw [h.lowerstack]
        simpa using hstack
      rw [OvlFile.realdataIsUpper, OvlFile.ovlHasUpperdata, hempty, Bool.false_or,
        Bool.and_eq_true] at hreal
      obtain ⟨hlt, rfl⟩ := h.get?_upperData hv
      exact h.data hcow hreal.2 i hlt
    · exact hv

/-- Only the link to the upper directory changed. -/
theorem linked (h : RouteInv stack f) (a : Bool) : RouteInv stack { f with upperAlias := a } :=
  ⟨h.lowerstack, h.lowerFile, h.upperFile, h.zero, h.size, h.noUpper, h.metaSize, h.map, h.past,
    h.data⟩

/-- Copy-on-write mode was set up, but no upper file installed. -/
theorem unfinished {env : CopyUpEnv} {flags : ℕ} (h : RouteInv stack f)
    (hsafe : CopyUpSafe f (env, flags)) (htrunc : hasTrunc flags = false) (hup : f.upper = none) :
    RouteInv stack { f with oi := copiedUpInode env (copyUpCtx env f flags) f.oi } := by
  rw [copiedUpInode]
  split
  · exact h
  next hcond =>
    rw [not_or, copyUpCtx_size env f htrunc] at hcond
    have hmeta : ovlNeedMetaCopyUp env.metacopy flags = false := Bool.eq_false_iff.mpr hcond.1
    have hempty : ∀ i, ¬ i < f.upperData.size := by
      intro i
      rw [OvlFile.upperData, hup]
      exact Nat.not_lt_zero i
    split
    · next hmem =>
      refine ⟨h.lowerstack, h.lowerFile, h.upperFile, h.zero, h.size, h.noUpper, h.metaSize, ?_, ?_,
        fun h => by cases h⟩
      · intro _ m hm
        rw [show f.oi.blockStatus = none from hsafe.map hup hmeta hcond.2 hmem] at hm
        cases hm
      · exact fun _ i hi => absurd hi (hempty i)
    · next addr hmem =>
      refine ⟨h.lowerstack, h.lowerFile, h.upperFile, h.zero, h.size, h.noUpper, h.metaSize, ?_, ?_,
        fun h => by cases h⟩
      · rintro - m hm i
        cases hm
        rfl
      · exact fun _ i hi => absurd hi (hempty i)

/-- A new upper file was installed. -/
theorem installed {env : CopyUpEnv} {flags : ℕ} {a : Bool} (h : RouteInv stack f)
    (hsafe : CopyUpSafe f (env, flags)) (htrunc : hasTrunc flags = false) (hup : f.upper = none)
    (hmem : (copyUpCtx env f flags).metacopy = true ∨ (copyUpCtx env f flags).size = 0 ∨
      env.mem.isSome) :
    RouteInv stack (installedFile env (copyUpCtx env f flags) f a) := by
  have hsize := copyUpCtx_size env f htrunc
  by_cases hmeta : (copyUpCtx env f flags).metacopy = true
  · rw [installedFile, copiedUpInode, if_pos (.inl hmeta), copiedUpTemp, if_pos hmeta, hsize,
      hmeta]
    refine ⟨h.lowerstack, h.lowerFile, h.upperFile, ?_, le_rfl, (fun h => by cases h),
      fun _ _ => rfl, h.map, ?_, ?_⟩
    · intro i
      show (truncate empty _).cell i = 0
      by_cases hi : i < (f.lowerAt 0).size
      · exact truncate_cell_of_lt _ hi
      · exact truncate_cell_of_ge _ (by omega)
    · exact fun hcow i hi hb => hsafe.past hup hmeta hcow i hi hb
    · intro _ hreal
      have hno := h.noUpper hup
      rw [show f.oi.upperdata = true from hreal] at hno
      cases hno
  · have hnew : ∀ oi : OvlInode, oi.lowerFile = .null → oi.upperFile = .null →
        oi.upperdata = true → (oi.cowStatus = true → ∀ m, oi.blockStatus = some m →
          ∀ i, m.cells i = .uncopy) →
        RouteInv stack { f with upper := some newTemp, upperAlias := a, oi := oi } := by
      intro oi hlow hupf hreal hmap
      refine ⟨h.lowerstack, hlow, hupf, fun _ => rfl, Nat.zero_le _,
        (fun h => by cases h), ?_, hmap, ?_, ?_⟩
      · intro _ hno
        rw [show oi.upperdata = true from hreal] at hno
        cases hno
      · exact fun _ i hi => absurd hi (Nat.not_lt_zero i)
      · exact fun _ _ i hi => absurd hi (Nat.not_lt_zero i)
    rw [installedFile, copiedUpTemp, if_neg hmeta, if_neg hmeta]
    by_cases hzero : (copyUpCtx env f flags).size = 0
    · rw [copiedUpInode, if_pos (.inr hzero)]
      exact hnew _ h.lowerFile h.upperFile rfl h.map
    · obtain ⟨addr, haddr⟩ : ∃ addr, env.mem = some addr := by
        rw [← Option.isSome_iff_exists]
        simpa [hmeta, hzero] using hmem
      rw [copiedUpInode, if_neg (by simp [hmeta, hzero]), haddr]
      refine hnew _ h.lowerFile h.upperFile rfl ?_
      rintro - m hm i
      cases hm
      rfl

/-- The data of a metadata-only inode was declared copied. -/
theorem completed {e : CopyUpEnv × ℕ} {a : Bool} (h : RouteInv stack f) (hsafe : CopyUpSafe f e)
    (hup : f.upper.isSome) (hneed : needsDataCopyUpLocked f e.2 = true) :
    RouteInv stack (completedFile f a) := by
  obtain ⟨u, hu⟩ := Option.isSome_iff_exists.mp hup
  have hdata : (completedFile f a).upperData = f.upperData := by
    simp [completedFile, OvlFile.upperData, hu]
  refine ⟨h.lowerstack, h.lowerFile, h.upperFile, ?_, ?_, ?_, (fun _ h => by cases h), h.map,
    ?_, ?_⟩
  · rw [hdata]
    exact h.zero
  · rw [hdata]
    exact h.size
  · intro hnone
    rw [completedFile, hu] at hnone
    cases hnone
  · rw [hdata]
    exact h.past
  · intro hcow _ i hi
    rw [hdata] at hi
    exact hsafe.data hup hneed hcow i (lt_of_lt_of_le hi h.size)

/-- A safe call keeps the invariant, whether it succeeds or not. -/
theorem copyUpCall {metacopy : Bool} {e : CopyUpEnv × ℕ} {g : OvlFile} (hstack : stack ≠ [])
    (h : RouteInv stack f) (hsafe : CopyUpSafe f e) (hcall : CopyUpCall metacopy f e g) :
    RouteInv stack g := by
  obtain ⟨ret, -, htrunc, hret⟩ := hcall
  obtain ⟨r, hr, hcase⟩ := ovlCopyUpFlags_cases e.1 (by rw [h.lowerstack]; exact hstack) e.2
  rw [hret] at hr
  generalize hres : (ret, g) = r' at hr
  obtain rfl : r' = r := by
    cases hr
    rfl
  cases hcase with
  | linked ret a hok =>
    obtain ⟨-, rfl⟩ := Prod.mk.inj hres
    exact h.linked a
  | unfinished ret hup hne =>
    obtain ⟨-, rfl⟩ := Prod.mk.inj hres
    exact h.unfinished hsafe htrunc hup
  | installed ret a hup hmem =>
    obtain ⟨-, rfl⟩ := Prod.mk.inj hres
    exact h.installed hsafe htrunc hup hmem
  | completed ret a hup hneed =>
    obtain ⟨-, rfl⟩ := Prod.mk.inj hres
    exact h.completed hsafe hup hneed

/-- A call that succeeds and keeps the content was safe. -/
theorem copyUpSafe_of_readsFrom {metacopy : Bool} {e : CopyUpEnv × ℕ} {g : OvlFile}
    (hstack : stack ≠ []) (h : RouteInv stack f) (hcall : CopiesUp metacopy 0 f e g)
    (hreads : ReadsFrom f.lowerdata g) : CopyUpSafe f e := by
  obtain ⟨-, htrunc, hret⟩ := hcall
  obtain ⟨r, hr, hcase⟩ := ovlCopyUpFlags_cases e.1 (by rw [h.lowerstack]; exact hstack) e.2
  rw [hret] at hr
  generalize hres : ((0 : ℤ), g) = r' at hr
  obtain rfl : r' = r := by
    cases hr
    rfl
  cases hcase with
  | linked ret a hok =>
    obtain ⟨rfl, rfl⟩ := Prod.mk.inj hres
    obtain ⟨hup, hneed⟩ := hok rfl
    have hne : f.upper ≠ none := Option.isSome_iff_ne_none.mp hup
    exact ⟨fun h => absurd h hne, fun _ h => absurd (hneed.symm.trans h) (by simp),
      fun h => absurd h hne⟩
  | unfinished ret hup hne =>
    obtain ⟨rfl, -⟩ := Prod.mk.inj hres
    exact absurd rfl hne
  | installed ret a hup hmem =>
    obtain ⟨rfl, rfl⟩ := Prod.mk.inj hres
    refine ⟨?_, ?_, ?_⟩
    · intro _ hmeta hsize hnone
      have hmeta' : (copyUpCtx e.1 f e.2).metacopy = false := hmeta
      rw [copyUpCtx_size e.1 f htrunc, hnone, hmeta'] at hmem
      simp [hsize] at hmem
    · intro hsome
      rw [hup] at hsome
      cases hsome
    · intro _ hmeta hcow i hi hb
      have hmeta' : (copyUpCtx e.1 f e.2).metacopy = true := hmeta
      have hoi : copiedUpInode e.1 (copyUpCtx e.1 f e.2) f.oi = f.oi := by
        rw [copiedUpInode, if_pos (.inl hmeta')]
      -- Past the map the new upper file, all zero, is what reads find.
      have hget : (installedFile e.1 (copyUpCtx e.1 f e.2) f a).upperData.get? i = some 0 := by
        rw [installedFile, copiedUpTemp, if_pos hmeta', copyUpCtx_size e.1 f htrunc]
        show (truncate empty (f.lowerAt 0).size : File).get? i = some 0
        rw [get?_eq_some_iff]
        exact ⟨hi, truncate_cell_of_lt _ hi⟩
      have hone := returns_one_past (f := installedFile e.1 (copyUpCtx e.1 f e.2) f a) (i := i) rfl
        (by simp [installedFile, hoi, h.upperFile, FilePtr.Usable])
        (by rw [installedFile, hoi]; exact hcow) (by rw [installedFile, hoi]; exact hb)
      rw [hget] at hone
      exact Returns.served hreads hone
  | completed ret a hup hneed =>
    obtain ⟨rfl, rfl⟩ := Prod.mk.inj hres
    have hne : f.upper ≠ none := Option.isSome_iff_ne_none.mp hup
    refine ⟨fun h => absurd h hne, fun _ _ hcow i hi => ?_, fun h => absurd h hne⟩
    obtain ⟨u, hu⟩ := Option.isSome_iff_exists.mp hup
    have hno : f.oi.upperdata = false := by
      rw [needsDataCopyUpLocked] at hneed
      split at hneed
      · cases hneed
      · simpa using hneed
    have hsize := h.metaSize hup hno
    have hreal : (completedFile f a).ovlInodeRealdata = f.upperData := by
      simp [completedFile, OvlFile.ovlInodeRealdata, OvlFile.realdataIsUpper,
        OvlFile.ovlHasUpperdata, OvlFile.upperData, hu]
    have hoff : (completedFile f a).oi.cowStatus = false := hcow
    refine (readsFrom_iff (fun hon => absurd (hoff.symm.trans hon) (by simp))).mp hreads i 0 ?_
    rw [OvlFile.served_of_not_cow hoff, hreal, get?_of_lt (by rw [hsize]; exact hi), h.zero]

end RouteInv

/-- After every run of safe calls the file reads as before the copy-up, and one
more call that returns 0 keeps it so if and only if it is safe. -/
theorem copy_up_content_iff {stack : List File} {old : OvlInode} {metacopy : Bool} {f : OvlFile}
    {tr : List (OvlFile × CopyUpEnv × ℕ)} (hstack : stack ≠ [])
    (hrun : Lts.Run (CopyUpCall metacopy) (.lookedUp stack old) tr f)
    (hsafe : ∀ p ∈ tr, CopyUpSafe p.1 p.2) :
    ReadsFrom (OvlFile.lookedUp stack old).lowerdata f ∧
      ∀ e g, CopiesUp metacopy 0 f e g →
        (ReadsFrom (OvlFile.lookedUp stack old).lowerdata g ↔ CopyUpSafe f e) := by
  have h : RouteInv stack f := hrun.invariant_of_guard (RouteInv.lookedUp stack old)
    (fun g e g' hg hs hc => hg.copyUpCall hstack hs hc) hsafe
  have hlower : ∀ {g : OvlFile}, RouteInv stack g →
      (OvlFile.lookedUp stack old).lowerdata = g.lowerdata := by
    intro g hg
    rw [OvlFile.lowerdata, OvlFile.lowerdata, OvlFile.lowerAt, OvlFile.lowerAt,
      OvlFile.ovlPathLowerdata, OvlFile.ovlPathLowerdata, hg.lowerstack]
    rfl
  refine ⟨?_, fun e g hcall => ⟨fun hreads => ?_, fun hs => ?_⟩⟩
  · rw [hlower h]
    exact h.readsFrom hstack
  · rw [hlower h] at hreads
    exact h.copyUpSafe_of_readsFrom hstack hcall hreads
  · have hg := h.copyUpCall hstack hs ⟨0, hcall⟩
    rw [hlower hg]
    exact hg.readsFrom hstack

/-- A data copy-up at once, with `O_WRONLY`. -/
theorem copy_up_content_direct : ∃ tr f,
    Lts.Run (CopyUpCall true) (.lookedUp [ofList [1]] zeroInode) tr f ∧
      (∀ p ∈ tr, CopyUpSafe p.1 p.2) ∧ f.oi.cowStatus = true ∧
      ReadsFrom (OvlFile.lookedUp [ofList [1]] zeroInode).lowerdata f := by
  have hrun : Lts.Run (CopyUpCall true) (.lookedUp [ofList [1]] zeroInode)
      [(.lookedUp [ofList [1]] zeroInode, (.full true, 1))]
      (freshCow (.lookedUp [ofList [1]] zeroInode) 0 true) :=
    .snoc .nil ⟨0, rfl, rfl, rfl⟩
  have hsafe : ∀ p ∈ [((.lookedUp [ofList [1]] zeroInode : OvlFile), (CopyUpEnv.full true, 1))],
      CopyUpSafe p.1 p.2 := by
    intro p hp
    obtain rfl := List.mem_singleton.mp hp
    exact ⟨nofun, nofun, nofun⟩
  exact ⟨_, _, hrun, hsafe, rfl, (copy_up_content_iff (List.cons_ne_nil _ _) hrun hsafe).1⟩

/-- A metadata-only copy-up followed by the data copy-up: the byte reads as zero. -/
theorem copy_up_loses_content : ∃ f g,
    Lts.Run (CopyUpCall true) (.lookedUp [ofList [1]] zeroInode)
      [(.lookedUp [ofList [1]] zeroInode, (.full true, 0))] f ∧
      CopiesUp true 0 f (.full true, O_WRONLY) g ∧ Returns g 0 1 1 [0] ∧
      ¬ ReadsFrom (OvlFile.lookedUp [ofList [1]] zeroInode).lowerdata g := by
  have hread : Returns (completedFile (installedFile (.full true) ⟨1, false, true⟩
      (.lookedUp [ofList [1]] zeroInode) true) true) 0 1 1 [0] := ⟨0, _, rfl, rfl, rfl⟩
  refine ⟨installedFile (.full true) ⟨1, false, true⟩ (.lookedUp [ofList [1]] zeroInode) true, _,
    .snoc .nil ⟨0, rfl, rfl, rfl⟩, ⟨rfl, rfl, rfl⟩, hread, fun h => ?_⟩
  have hzero := Returns.served h hread
  revert hzero
  decide

end FzzOverlay

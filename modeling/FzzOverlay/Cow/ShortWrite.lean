import FzzOverlay.Cow.Refinement
import FzzOverlay.Cow.Truncate
import FzzOverlay.File.Terminates

/-!
# Short writes

The loop over `vfs_iter_write` compares what was written with what is left in the iterator, so
it stops as soon as half of the request is stored. The blocks of the whole request are marked
all the same. The blocks the request covers wholly were not copied from the lower file.
-/

namespace FzzOverlay

open SparseFile

-- ════════════════════════════════════════════════════════════════════════
-- Where the loop stops
-- ════════════════════════════════════════════════════════════════════════

/-- The number of bytes one call takes when `len` are left. -/
def VfsWrite.count (len : ℕ) : VfsWrite → ℕ
  | .full => len
  | .short k => min (k + 1) len
  | .fail _ => 0

/-- The number of bytes the first `k` calls take of a request of `len` bytes. -/
def VfsWrite.total (wr : ℕ → VfsWrite) (len : ℕ) : ℕ → ℕ
  | 0 => 0
  | k + 1 => VfsWrite.total wr len k + (wr k).count (len - VfsWrite.total wr len k)

/-- The first `k` calls are the least number of calls that take half of the request. -/
structure HalfAt (wr : ℕ → VfsWrite) (len k : ℕ) : Prop where
  half : len ≤ 2 * VfsWrite.total wr len k
  first : ∀ j, j < k → 2 * VfsWrite.total wr len j < len

section Loop

variable {env : WriteEnv} {len : ℕ}

theorem VfsWrite.length_taken {o : VfsWrite} (ho : ∀ e, o ≠ .fail e) (rest : List UInt8) :
    (o.taken rest).length = o.count rest.length := by
  cases o with
  | full => rfl
  | short k => exact List.length_take
  | fail e => exact absurd rfl (ho e)

theorem VfsWrite.count_pos {o : VfsWrite} (ho : ∀ e, o ≠ .fail e) {n : ℕ} (hn : 0 < n) :
    0 < o.count n := by
  cases o with
  | full => exact hn
  | short k => exact lt_min (Nat.succ_pos k) hn
  | fail e => exact absurd rfl (ho e)

theorem VfsWrite.count_le (o : VfsWrite) (n : ℕ) : o.count n ≤ n := by
  cases o with
  | full => exact le_rfl
  | short k => exact min_le_right _ _
  | fail e => exact Nat.zero_le n

theorem VfsWrite.total_le (wr : ℕ → VfsWrite) (len k : ℕ) : VfsWrite.total wr len k ≤ len := by
  induction k with
  | zero => exact Nat.zero_le len
  | succ k ih =>
    have := (wr k).count_le (len - VfsWrite.total wr len k)
    rw [VfsWrite.total]
    omega

/-- When no call fails, the loop stops after the call with which half of the request is
stored. -/
theorem writeLoop_half (hwr : ∀ k e, env.wr k ≠ .fail e) (append : Bool) {fuel k pos : ℕ}
    {rest : List UInt8} {upper : File} (hfuel : rest.length ≤ fuel)
    (hrest : rest.length = len - VfsWrite.total env.wr len k)
    (hfirst : ∀ j, j < k → 2 * VfsWrite.total env.wr len j < len) :
    ∃ k', HalfAt env.wr len k' ∧
      (writeLoop env append fuel k (VfsWrite.total env.wr len k) pos rest upper).ok = true ∧
      (writeLoop env append fuel k (VfsWrite.total env.wr len k) pos rest upper).ret =
        VfsWrite.total env.wr len k' := by
  induction fuel generalizing k pos rest upper with
  | zero =>
    have := VfsWrite.total_le env.wr len k
    exact ⟨k, ⟨by omega, hfirst⟩, rfl, rfl⟩
  | succ fuel ih =>
    have hle := VfsWrite.total_le env.wr len k
    by_cases hlt : VfsWrite.total env.wr len k < rest.length
    · have hlen := VfsWrite.length_taken (hwr k) rest
      have hpos := VfsWrite.count_pos (hwr k) (Nat.zero_lt_of_lt hlt)
      have htotal : VfsWrite.total env.wr len (k + 1) =
          VfsWrite.total env.wr len k + (env.wr k).count rest.length := by
        rw [VfsWrite.total, hrest]
      have hw : writeLoop env append (fuel + 1) k (VfsWrite.total env.wr len k) pos rest upper =
          writeLoop env append fuel (k + 1) (VfsWrite.total env.wr len (k + 1))
            ((if append then upper.size else pos) + ((env.wr k).taken rest).length)
            (rest.drop ((env.wr k).taken rest).length)
            (upper.write (if append then upper.size else pos) ((env.wr k).taken rest)) := by
        rw [writeLoop, if_pos hlt, htotal, ← hlen]
        cases ho : env.wr k with
        | fail e => exact absurd ho (hwr k e)
        | full => rfl
        | short j => rfl
      rw [hw]
      refine ih ?_ ?_ fun j hj => ?_
      · rw [List.length_drop]
        omega
      · rw [List.length_drop]
        omega
      · obtain hj' | rfl := Nat.lt_succ_iff_lt_or_eq.mp hj
        · exact hfirst j hj'
        · omega
    · rw [writeLoop, if_neg hlt]
      exact ⟨k, ⟨by omega, hfirst⟩, rfl, rfl⟩

theorem writeLoop_stops (hwr : ∀ k e, env.wr k ≠ .fail e) (append : Bool) (pos : ℕ)
    (data : List UInt8) (upper : File) : ∃ k, HalfAt env.wr data.length k ∧
      (writeLoop env append data.length 0 0 pos data upper).ok = true ∧
      (writeLoop env append data.length 0 0 pos data upper).ret =
        VfsWrite.total env.wr data.length k :=
  writeLoop_half (k := 0) hwr append le_rfl rfl nofun

/-- Everything a request can have done whose calls of `vfs_iter_write` do not fail: it was not
prepared, or it stored its data up to the call with which half of it was stored. -/
inductive ShortWrite (env : WriteEnv) (m : BlockMap) (f : OvlFile) (req : WriteReq)
    (r : WriteResult) : Prop
  | unprepared (data : File) (hret : r.ret < 0)
      (hpatch : PatchedFrom (InRanges (copyRanges env.oob f.oi m (f.lowerAt 0).size req))
        (f.lowerAt 0) f.upperData data)
      (hfile : Updated data f r.file) (hmap : SameMap f r.file)
  | stored (k : ℕ) (m' : BlockMap) (hk : HalfAt env.wr req.data.length k)
      (hret : r.ret = VfsWrite.total env.wr req.data.length k)
      (hfile : Updated (storedData env m f req (VfsWrite.total env.wr req.data.length k)) f r.file)
      (hmap : Marked (blockRange f.oi req).1 (blockRange f.oi req).2 m m' f r.file)

theorem HalfAt.total_pos {wr : ℕ → VfsWrite} {k : ℕ} (h : HalfAt wr len k) (hlen : 0 < len) :
    0 < VfsWrite.total wr len k := by
  have := h.half
  omega

theorem HalfAt.eq_one {len k : ℕ} {wr : ℕ → VfsWrite} (h : HalfAt wr len k) (hlen : 0 < len)
    (hfirst : len ≤ 2 * VfsWrite.total wr len 1) : k = 1 := by
  by_contra hne
  have hk : k = 0 ∨ 1 < k := by omega
  obtain rfl | hk := hk
  · have := h.half
    rw [VfsWrite.total] at this
    omega
  · have := h.first 1 hk
    omega

/-- From `copy_done` on nothing fails, and the count of the loop is returned. -/
theorem storeData_stops {f : OvlFile} (m : BlockMap) (req : WriteReq)
    (hwr : ∀ k e, env.wr k ≠ .fail e) (hreal : f.realdataIsUpper = true) :
    ∃ k, HalfAt env.wr req.data.length k ∧
      (storeData env m f req).ret = VfsWrite.total env.wr req.data.length k := by
  obtain ⟨k, hk, hok, hloop⟩ := writeLoop_stops hwr req.append req.pos req.data f.upperData
  refine ⟨k, hk, ?_⟩
  rw [storeData, if_pos hreal]
  simp only [hok, if_true, hloop]

theorem blockWriteIter_short {f : OvlFile} {req : WriteReq} {m : BlockMap} {r : WriteResult}
    (hup : f.upper.isSome) (hreal : f.oi.upperdata = true) (hlow : f.oi.lowerFile.First)
    (hm : f.oi.blockStatus = some m) (hdata : req.data ≠ [])
    (hwr : ∀ k e, env.wr k ≠ .fail e) (h : blockWriteIter env f req = .ret r) :
    ShortWrite env m f req { r with file := r.file.ovlCopyattr } := by
  have hcases := blockWriteIter_cases hup hreal hlow hm hdata h
  have hprep := prepOk_prepare (m := m) hup hlow env req
  rw [blockWriteIter, hm] at h
  simp only at h
  split at h
  · cases h
  · next ret g hg =>
    rw [hg] at hprep
    obtain ⟨hret, up, lp, data, rfl, hlp, hpatch⟩ := hprep
    cases h
    exact .unprepared data hret hpatch
      (updated_ovlCopyattr hup rfl rfl rfl rfl rfl rfl hlp) ⟨rfl, rfl, rfl⟩
  · next g hg =>
    rw [hg] at hprep
    obtain ⟨up, lp, rfl, -⟩ := hprep
    cases h
    obtain ⟨k, hk, hret⟩ := storeData_stops m req hwr
      (OvlFile.realdataIsUpper_of_upperdata (OvlFile.withFiles_upper_isSome hup up lp _) hreal)
    cases hcases with
    | unprepared data hneg => exact absurd hneg (by simp only; rw [hret]; omega)
    | torn n hneg => exact absurd hneg (by simp only; rw [hret]; omega)
    | stored n m' _ _ _ _ hn _ hfile hmap =>
      simp only at hn
      rw [hret] at hn
      obtain rfl : VfsWrite.total env.wr req.data.length k = n := by omega
      exact .stored k m' hk hret hfile hmap

theorem ovlWriteIter_short {f : OvlFile} {req : WriteReq} {m : BlockMap} {r : WriteResult}
    (hup : f.upper.isSome) (hreal : f.oi.upperdata = true) (hlow : f.oi.lowerFile.First)
    (hm : f.oi.blockStatus = some m) (hcow : f.oi.cowStatus = true) (hdata : req.data ≠ [])
    (hwr : ∀ k e, env.wr k ≠ .fail e) (h : ovlWriteIter env f req = .ret r) :
    ShortWrite env m f req r := by
  have hself := updated_self hup hlow
  rw [ovlWriteIter, if_neg hdata] at h
  split at h
  · next e _ =>
    cases h
    exact .unprepared _ e.ret_neg (.refl _ _ _) hself ⟨rfl, rfl, rfl⟩
  · next e _ _ =>
    cases h
    exact .unprepared _ e.ret_neg (.refl _ _ _) hself ⟨rfl, rfl, rfl⟩
  · rw [if_pos hcow] at h
    split at h
    · next r' hr =>
      cases h
      cases blockWriteIter_short (f := f.ovlCopyattr) hup hreal hlow hm hdata hwr hr with
      | unprepared data hret hpatch hfile hmap =>
        exact .unprepared data hret hpatch hfile.of_ovlCopyattr ⟨hmap.1, hmap.2, hmap.3⟩
      | stored k m' hk hret hfile hmap =>
        exact .stored k m' hk hret hfile.of_ovlCopyattr
          ⟨hmap.1, hmap.2, hmap.3, hmap.4, hmap.5⟩
    · cases h
    · cases h

end Loop

-- ════════════════════════════════════════════════════════════════════════
-- What the marked blocks hold
-- ════════════════════════════════════════════════════════════════════════

/-- The whole request is in the upper file and its length is returned, or less is returned and
every newly marked block holds the content after the bytes that were counted. -/
def WriteResult.AccountsFor (X : File) (f : OvlFile) (req : WriteReq) (r : WriteResult) : Prop :=
  (r.ret = req.data.length ∧ ∀ i, i < req.data.length →
    r.file.upperData.get? ((if req.append then X.size else req.pos) + i) = req.data[i]?) ∨
  (r.ret < req.data.length ∧ ∀ i, NewlyMarked f r.file i →
    r.file.upperData.get? i = (logicalWrite X (req.first r.ret.toNat)).get? i)


-- ════════════════════════════════════════════════════════════════════════
-- Runs with short writes
-- ════════════════════════════════════════════════════════════════════════

/-- One call that returns, on the file and its logical content. The calls of `vfs_iter_write`
during a write store any part of what is left, or the first one fails. -/
inductive ShortStep : OvlFile × File → CowOp → OvlFile × File → Prop
  | call {s t : OvlFile × File} {op : CowOp} (h : CowStep s op t) : ShortStep s op t
  | write {f : OvlFile} {X : File} {env : WriteEnv} {req : WriteReq} {r : WriteResult}
      (hup : f.upper.isSome) (hdata : f.oi.upperdata = true) (hwr : ∀ k e, env.wr k ≠ .fail e)
      (h : ovlWriteIter env f req = .ret r) :
      ShortStep (f, X) (.write env req)
        (r.file, if 0 ≤ r.ret then logicalWrite X (req.first r.ret.toNat) else X)

/-- The truncations and copy-ups of a run are safe, and a short write leaves out no byte that
the upper file does not have. -/
def CowOp.Counted (lower : File) (s : OvlFile × File) : CowOp → Prop
  | .write env req => s.1.oi.cowStatus = true → (∀ k e, env.wr k ≠ .fail e) →
      ∀ k, HalfAt env.wr req.data.length k →
        RestPresent lower s.1 req (VfsWrite.total env.wr req.data.length k)
  | op => op.Safe lower s

section Runs

variable {lower X : File} {f : OvlFile} {env : WriteEnv} {req : WriteReq} {r : WriteResult}

theorem Tracks.short_write (h : Tracks lower X f) (hmax : lower.size ≤ MAX_COW_SIZE)
    (hwr : ∀ k e, env.wr k ≠ .fail e) (hop : (CowOp.write env req).Counted lower (f, X))
    (hr : ovlWriteIter env f req = .ret r) :
    Tracks lower (if 0 ≤ r.ret then logicalWrite X (req.first r.ret.toNat) else X) r.file := by
  by_cases hdata : req.data = []
  · rw [ovlWriteIter, if_pos hdata] at hr
    cases hr
    rw [logicalWrite, WriteReq.first, hdata, List.take_nil, write_nil, ite_self]
    exact h
  have hlen := List.length_pos_iff.mpr hdata
  cases hcow : f.oi.cowStatus with
  | true =>
    obtain ⟨m, hm, -⟩ := h.map hcow
    cases ovlWriteIter_short h.upper h.upperdata h.lowerFile hm hcow hdata hwr hr with
    | unprepared data hret hpatch hfile hmap =>
      rw [if_neg (by omega)]
      rw [h.lowerAt_zero] at hpatch
      exact h.patched hmap hfile
        (hpatch.mono fun i hi hlt => uncopied_of_inRanges h.blockCount hmax hcow hm hi hlt)
    | stored k m' hk hret hfile hmark =>
      rw [if_pos (by omega), hret, Int.toNat_natCast]
      exact h.first_write hmax hcow hm (hk.total_pos hlen) (VfsWrite.total_le _ _ _) hfile hmark
        (hop hcow hwr k hk)
  | false =>
    have hX := h.eq_upperData hcow
    obtain ⟨hmap, ⟨hret, hfile⟩ | ⟨n, hn, hle, hfull, hfail, hret, hpos, hfile⟩⟩ :=
      ovlWriteIter_plain h.upper h.upperdata h.lowerFile hcow hdata hr
    · rw [if_neg (by omega)]
      exact h.patched hmap hfile (.refl _ _ _)
    · rw [if_pos (by omega), hret, Int.toNat_natCast]
      have hg := Tracks.of_plain (hfile.lowerstack.trans h.lowerstack)
        (hfile.upper_isSome h.upper) (hfile.upperdata.trans h.upperdata) hfile.lowerFile
        (hmap.cowStatus.trans hcow)
      rw [hfile.upperData_eq h.upper, ← hX] at hg
      exact hg

/-- A request that stored its first `n` bytes. -/
theorem Tracks.accountsFor_iff {m m' : BlockMap} {n : ℕ} (h : Tracks lower X f)
    (hmax : lower.size ≤ MAX_COW_SIZE) (hcow : f.oi.cowStatus = true)
    (hm : f.oi.blockStatus = some m) (hn : 0 < n) (hle : n ≤ req.data.length) (hret : r.ret = n)
    (hfile : Updated (storedData env m f req n) f r.file.ovlCopyattr)
    (hmark : Marked (blockRange f.oi req).1 (blockRange f.oi req).2 m m' f r.file.ovlCopyattr) :
    r.AccountsFor X f req ↔ RestPresent lower f req n := by
  have hnew := h.newlyMarked_iff hmax hcow hm hn hle hfile hmark
  rw [WriteResult.AccountsFor, hret, Int.toNat_natCast]
  by_cases hfull : n = req.data.length
  · subst hfull
    refine iff_of_true (.inl ⟨rfl, fun i hi => ?_⟩) (restPresent_length lower f req)
    have hs := h.firstStored hmax hcow hm hn hle hfile
    have hupper : r.file.upperData = _ := hs.upper
    rw [hupper, List.take_length, get?_write_of_mem _ (Nat.le_add_right _ _) (by omega),
      Nat.add_sub_cancel_left]
  · constructor
    · rintro (⟨hall, -⟩ | ⟨-, hmarked⟩)
      · omega
      · exact hnew.mp hmarked
    · intro hpres
      exact .inr ⟨by omega, hnew.mpr hpres⟩

theorem ShortStep.consistent {s t : OvlFile × File} {op : CowOp}
    (hmax : lower.size ≤ MAX_COW_SIZE) (hstep : ShortStep s op t) (h : Consistent lower s)
    (hop : op.Counted lower s) : Consistent lower t := by
  cases hstep with
  | call hs =>
    refine h.step hmax ?_ hs
    cases op with
    | write env req => trivial
    | copyUp env flags => exact hop
    | read fuel env pos count => exact hop
    | truncate env n => exact hop
  | @write f X env req r hup hdata hwr hr =>
    cases h with
    | notCopied hf => exact absurd hup (by simp [hf.upper])
    | metaOnly _ hno =>
      rw [hno] at hdata
      cases hdata
    | mapless hf =>
      obtain ⟨hg, hnil⟩ := hf.write hr
      have hsame : (if 0 ≤ r.ret then logicalWrite X (req.first r.ret.toNat) else X) = X := by
        split
        · next h0 =>
          refine logicalWrite_of_nil ?_
          rw [WriteReq.first, hnil h0, List.take_nil]
        · rfl
      rw [hsame]
      exact .mapless hg
    | tracks hf => exact .tracks (hf.short_write hmax hwr hop hr)

/-- A request on a file whose data is not in the upper layer fails and marks nothing. -/
theorem blockWriteIter_of_metaOnly (hup : f.upper.isSome) (hlow : f.oi.lowerFile.First)
    (hreal : f.realdataIsUpper = false) (h : blockWriteIter env f req = .ret r) :
    r.ret < 0 ∧ r.file.oi.blockStatus = f.oi.blockStatus := by
  rw [blockWriteIter] at h
  cases hm : f.oi.blockStatus with
  | none =>
    rw [hm] at h
    cases h
  | some m =>
    rw [hm] at h
    have hprep := prepOk_prepare (m := m) hup hlow env req
    simp only at h
    revert h hprep
    generalize (if req.append then prepareAppend env m f
      else preparePositioned env m f req) = p
    intro h hprep
    cases p with
    | oops => cases h
    | fail ret g =>
      cases h
      obtain ⟨hret, up, lp, data, rfl, -⟩ := hprep
      exact ⟨hret, hm⟩
    | ready g =>
      cases h
      obtain ⟨up, lp, rfl, -⟩ := hprep
      have hg : (f.withFiles up lp (fill (f.lowerAt 0) f.upperData
          (copyRanges env.oob f.oi m (f.lowerAt 0).size req))).realdataIsUpper = false := by
        rw [← hreal]
        simp [OvlFile.realdataIsUpper, OvlFile.withFiles, OvlFile.setUpperData,
          OvlFile.ovlHasUpperdata]
      rw [storeData, if_neg (by simp [hg])]
      exact ⟨EPERM.ret_neg, hm⟩

theorem not_newlyMarked_of_same {g : OvlFile} (h : g.oi.blockStatus = f.oi.blockStatus) (i : ℕ) :
    ¬ NewlyMarked f g i := by
  rintro ⟨⟨-, -, m, hm, hcell⟩, m', hm', hne⟩
  rw [h, hm] at hm'
  obtain rfl := Option.some.inj hm'
  exact hne hcell

/-- A request on a file with its data in the upper layer. -/
theorem Tracks.short_write_accounted (h : Tracks lower X f) (hmax : lower.size ≤ MAX_COW_SIZE)
    (hcow : f.oi.cowStatus = true) (hdata : req.data ≠ []) (hwr : ∀ k e, env.wr k ≠ .fail e)
    (hret : blockWriteIter env f req = .ret r) :
    (r.ret < 0 → r.AccountsFor X f req) ∧ (0 ≤ r.ret → ∃ k, HalfAt env.wr req.data.length k ∧
      (r.AccountsFor X f req ↔
        RestPresent lower f req (VfsWrite.total env.wr req.data.length k))) := by
  obtain ⟨m, hm, -⟩ := h.map hcow
  have hlen := List.length_pos_iff.mpr hdata
  cases blockWriteIter_short h.upper h.upperdata h.lowerFile hm hdata hwr hret with
  | unprepared data hneg hpatch hfile hmap =>
    have hneg' : r.ret < 0 := hneg
    refine ⟨fun _ => .inr ⟨by omega, fun i hi => ?_⟩, fun h0 => absurd hneg' (Int.not_lt.mpr h0)⟩
    exact absurd hi (not_newlyMarked_of_same hmap.blockStatus i)
  | stored k m' hk hn hfile hmark =>
    have hn' : r.ret = VfsWrite.total env.wr req.data.length k := hn
    refine ⟨fun hneg => absurd hneg (by omega), fun _ => ⟨k, hk, ?_⟩⟩
    exact h.accountsFor_iff hmax hcow hm (hk.total_pos hlen) (VfsWrite.total_le _ _ _) hn' hfile
      hmark

end Runs

/-- In every state that counted calls reach, a request in copy-on-write mode whose calls of
`vfs_iter_write` store any positive part of what is left is finished or accounted for if it fails
before the first of them, and else if and only if the bytes it leaves out are present. -/
theorem short_write_accounted_iff {lower X : File} {old : OvlInode} {f : OvlFile}
    {tr : List ((OvlFile × File) × CowOp)} {env : WriteEnv} {req : WriteReq} {r : WriteResult}
    (hmax : lower.size ≤ 2 ^ 44 - 4096)
    (hrun : Lts.Run ShortStep (.lookedUp [lower] old, lower) tr (f, X))
    (hcounted : ∀ p ∈ tr, p.2.Counted lower p.1) (hup : f.upper.isSome)
    (hcow : f.oi.cowStatus = true) (hdata : req.data ≠ []) (hwr : ∀ k e, env.wr k ≠ .fail e)
    (hret : blockWriteIter env f req = .ret r) :
    (r.ret < 0 → r.AccountsFor X f req) ∧ (0 ≤ r.ret → ∃ k, HalfAt env.wr req.data.length k ∧
      (r.AccountsFor X f req ↔
        RestPresent lower f req (VfsWrite.total env.wr req.data.length k))) := by
  have hcons : Consistent lower (f, X) := hrun.invariant_of_guard (I := Consistent lower)
    (G := fun s op => op.Counted lower s) (.notCopied (notCopied_lookedUp lower old))
    (fun s op t hs hop hstep => hstep.consistent hmax hs hop) hcounted
  cases hcons with
  | notCopied hf => exact absurd hup (by simp [hf.upper])
  | mapless hf =>
    rw [blockWriteIter, hf.blockStatus] at hret
    cases hret
  | metaOnly hf hno =>
    have hreal : f.realdataIsUpper = false := by
      simp [OvlFile.realdataIsUpper, OvlFile.ovlHasUpperdata, hno, hf.lowerstack]
    obtain ⟨hneg, hsame⟩ := blockWriteIter_of_metaOnly hf.upper hf.lowerFile hreal hret
    refine ⟨fun _ => .inr ⟨by omega, fun i hi => ?_⟩, fun h0 => absurd hneg (Int.not_lt.mpr h0)⟩
    exact absurd hi (not_newlyMarked_of_same hsame i)
  | tracks h => exact h.short_write_accounted hmax hcow hdata hwr hret

/-- Every `vfs_iter_write` stores at most `k + 1` bytes. -/
def WriteEnv.shortened (k : ℕ) : WriteEnv := { WriteEnv.full with wr := fun _ => .short k }

theorem WriteEnv.shortened_wr (k : ℕ) : ∀ j e, (WriteEnv.shortened k).wr j ≠ .fail e := by
  intro j e
  show VfsWrite.short k ≠ .fail e
  exact nofun

/-- Two bytes are written to the second block, of which one is stored. The block was copied
before. -/
theorem short_write_accounted_last : ∃ r,
    blockWriteIter (.shortened 0) twoBlockCow ⟨4096, false, [7, 8]⟩ = .ret r ∧ r.ret = 1 ∧
      r.AccountsFor twoBlocks twoBlockCow ⟨4096, false, [7, 8]⟩ := by
  obtain ⟨r, hr, hret⟩ : ∃ r,
      blockWriteIter (.shortened 0) twoBlockCow ⟨4096, false, [7, 8]⟩ = .ret r ∧ r.ret = 1 :=
    ⟨_, rfl, rfl⟩
  have hrun : Lts.Run ShortStep (.lookedUp [twoBlocks] zeroInode, twoBlocks) _
      (twoBlockCow, twoBlocks) := .snoc .nil (.call (.copyUp twoBlockCow_copyUp))
  have hsafe : ∀ p ∈ [((OvlFile.lookedUp [twoBlocks] zeroInode, twoBlocks),
      CowOp.copyUp (.full false) 1)], p.2.Counted twoBlocks p.1 := by
    intro p hp
    obtain rfl := List.mem_singleton.mp hp
    exact ⟨nofun, nofun⟩
  obtain ⟨k, -, hiff⟩ := (short_write_accounted_iff (by decide) hrun hsafe rfl rfl
    (List.cons_ne_nil _ _) (WriteEnv.shortened_wr 0) hr).2 (by rw [hret]; decide)
  refine ⟨r, hr, hret, hiff.mpr fun i hc => ?_⟩
  obtain ⟨-, hstart, hend⟩ := hc
  simp only [BLOCK_SIZE, List.length_cons, List.length_nil] at hstart hend
  omega

/-- A lower file of two blocks. The last byte of the first block is not zero. -/
def fullBlock : File := SparseFile.empty.write 4095 [1, 2]

/-- That file after the copy-up. -/
def fullBlockCow : OvlFile := freshCow (.lookedUp [fullBlock] zeroInode) 0 true

/-- The first block is overwritten, half of it by the first call. The loop stops there and the
block is marked: its last byte now reads zero. -/
theorem short_write_unaccounted : ∃ r,
    Lts.Run ShortStep (.lookedUp [fullBlock] zeroInode, fullBlock)
        [((.lookedUp [fullBlock] zeroInode, fullBlock), .copyUp (.full false) 1)]
        (fullBlockCow, fullBlock) ∧
      (∀ k e, (WriteEnv.shortened 2047).wr k ≠ .fail e) ∧
      blockWriteIter (.shortened 2047) fullBlockCow ⟨0, false, List.replicate 4096 9⟩ = .ret r ∧
      r.ret = 2048 ∧ ¬ r.AccountsFor fullBlock fullBlockCow ⟨0, false, List.replicate 4096 9⟩ := by
  have hcopy : ovlCopyUpFlags (.full false) (.lookedUp [fullBlock] zeroInode) 1 =
      .ret (0, fullBlockCow) := rfl
  have h : Tracks fullBlock fullBlock fullBlockCow := tracks_of_copyUp (by decide) hcopy rfl
  have hlen : (List.replicate 4096 (9 : UInt8)).length = 4096 := List.length_replicate
  obtain ⟨m, hm, hzero⟩ : ∃ m, fullBlockCow.oi.blockStatus = some m ∧ ∀ b, m.cells b = .uncopy :=
    ⟨_, rfl, fun _ => rfl⟩
  have hstart : startCopies (WriteEnv.shortened 2047).oob fullBlockCow.oi m
      ⟨0, false, List.replicate 4096 9⟩ = false := by
    rw [startCopies, decide_eq_false (by decide), Bool.false_and]
  have hblock : ovlGetBlock (0 + 4096) = 2 := by decide
  have hend : endCopies (WriteEnv.shortened 2047).oob fullBlockCow.oi m
      ⟨0, false, List.replicate 4096 9⟩ = true := by
    rw [endCopies, hstart]
    simp only [hlen, hblock, statusAt, hzero]
    decide
  obtain ⟨g, hg, hreal⟩ : ∃ g, copyBlock (.shortened 2047) .plain 2 fullBlockCow = .ready g ∧
      g.realdataIsUpper = true := ⟨_, rfl, rfl⟩
  have hprep : preparePositioned (.shortened 2047) m fullBlockCow
      ⟨0, false, List.replicate 4096 9⟩ = .ready g := by
    rw [preparePositioned, hstart]
    simp only [Bool.false_eq_true, if_false, Prep.andThen, hend, if_true, hlen, hblock]
    exact hg
  have hret : blockWriteIter (.shortened 2047) fullBlockCow ⟨0, false, List.replicate 4096 9⟩ =
      .ret (storeData (.shortened 2047) m g ⟨0, false, List.replicate 4096 9⟩) := by
    rw [blockWriteIter, hm]
    simp only [Bool.false_eq_true, if_false, hprep]
  have htotal : VfsWrite.total (WriteEnv.shortened 2047).wr 4096 1 = 2048 := by decide
  obtain ⟨k, hk, hcount⟩ := storeData_stops m ⟨0, false, List.replicate 4096 9⟩
    (WriteEnv.shortened_wr 2047) hreal
  simp only [hlen] at hk hcount
  obtain rfl := hk.eq_one (by decide) (by rw [htotal])
  rw [htotal] at hcount
  have hne : List.replicate 4096 (9 : UInt8) ≠ [] := by
    rw [← List.length_pos_iff, hlen]
    decide
  refine ⟨_, .snoc .nil (.call (.copyUp hcopy)), WriteEnv.shortened_wr 2047, hret, hcount,
    fun hacc => ?_⟩
  cases blockWriteIter_cases h.upper h.upperdata h.lowerFile hm hne hret with
  | unprepared data hneg => exact absurd hneg (by simp only; rw [hcount]; decide)
  | torn n hneg => exact absurd hneg (by simp only; rw [hcount]; decide)
  | stored n m' hn hle _ _ hstored _ hfile hmark =>
    have hacc' := (h.accountsFor_iff (by decide) rfl hm hn hle hstored hfile hmark).mp hacc
    obtain rfl : n = 2048 := by
      have : ((2048 : ℕ) : ℤ) = n := hcount.symm.trans hstored
      omega
    have hcell := (hacc' 4095 ⟨rfl, by decide, by rw [hlen]; decide⟩ (by decide)
      ⟨rfl, by decide, m, hm, hzero _⟩ (by decide)).1
    exact absurd hcell (by decide)

end FzzOverlay

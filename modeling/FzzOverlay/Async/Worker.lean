import FzzOverlay.Async.Shared

/-!
# A pass of the worker over the table of all inodes

The inner loops of `ovl_block_copy`. For each block id it has read, every request of the
bucket is looked at, whichever inode and block it is for, and deleted. What
`ovl_copy_up_block` returns is not looked at.
-/

namespace FzzOverlay

open SparseFile

namespace Shared

variable {δ ι : Type*} [DecidableEq ι]

/-- What the loop does with one request before deleting it. -/
def runReq (dInode : δ → ι) (envs : ℕ → CopyEnv) (s : Shared δ ι) (r : DentryReq δ) :
    Shared δ ι :=
  let x := dInode r.dentry
  if (s.inode x).status r.blockId ≠ .copying ∨ r.len = 0 then s
  else (s.copyUp (envs s.log.length) x r).2.setCopied x r.blockId

/-- The loop over the bucket of block `b`. -/
def bucketPass (dInode : δ → ι) (bucket : ℕ → ℕ) (envs : ℕ → CopyEnv) (s : Shared δ ι) (b : ℕ) :
    Shared δ ι :=
  { (s.inBucket bucket b).foldl (runReq dInode envs) s with
    table := s.table.filter fun r => !(bucket r.blockId == bucket b) }

/-- One pass of `ovl_block_copy` over the block ids it finds in `block_buf`. -/
def ovlBlockCopyPass (dInode : δ → ι) (bucket : ℕ → ℕ) (envs : ℕ → CopyEnv) (s : Shared δ ι)
    (ids : List ℕ) : Shared δ ι :=
  ids.foldl (bucketPass dInode bucket envs) { s with log := [] }

/-- The requests a pass looks at, in order: a bucket is empty after its first visit. -/
def visited (bucket : ℕ → ℕ) : List (DentryReq δ) → List ℕ → List (DentryReq δ)
  | _, [] => []
  | t, b :: ids =>
    t.filter (fun r => bucket r.blockId == bucket b) ++
      visited bucket (t.filter fun r => !(bucket r.blockId == bucket b)) ids

/-- Those among them that are executed, given the block maps: the first one that is not
empty for each block that is being copied. -/
def executed (dInode : δ → ι) : (ι → ℕ → BlockStatus) → List (DentryReq δ) → List (DentryReq δ)
  | _, [] => []
  | st, r :: rs =>
    if st (dInode r.dentry) r.blockId ≠ .copying ∨ r.len = 0 then executed dInode st rs
    else r :: executed dInode (Function.update st (dInode r.dentry)
      (Function.update (st (dInode r.dentry)) r.blockId .copied)) rs

/-- What the `k`-th `ovl_copy_up_block` of a pass returns, if it is for request `r`. -/
def copyRet (dInode : δ → ι) (envs : ℕ → CopyEnv) (s : Shared δ ι) (k : ℕ) (r : DentryReq δ) : ℤ :=
  (ovlCopyUpBlock (envs k) (s.inode (dInode r.dentry)).lower .empty r.offset r.len).1

/-- The ranges of the requests of inode `x`. -/
def rangesOf (dInode : δ → ι) (x : ι) (rs : List (DentryReq δ)) : List (ℕ × ℕ) :=
  (rs.filter fun r => dInode r.dentry = x).map fun r => (r.offset, r.len)

/-- A block that went from `COPYING` to `COPIED` has the lower bytes of all its requests,
and a request whose copy failed is still in the table. -/
structure Retires (dInode : δ → ι) (s t : Shared δ ι) : Prop where
  present : ∀ x b, (s.inode x).status b = .copying → (t.inode x).status b = .copied →
    ∀ r ∈ s.table, dInode r.dentry = x → r.blockId = b →
      ∀ i, r.Covers i → i < (s.inode x).lower.size →
        (t.inode x).upper.get? i = (s.inode x).lower.get? i
  kept : ∀ e ∈ t.log, e.2 < 0 → e.1 ∈ t.table

end Shared

/-- The upper file has nothing to do with what `ovl_copy_up_block` returns. -/
theorem spliceLoop_ret (env : CopyEnv) (lower : File) (fuel k : ℕ) (u w : File) (pos len : ℕ) :
    (spliceLoop env lower fuel k u pos len).1 = (spliceLoop env lower fuel k w pos len).1 := by
  induction fuel generalizing k u w pos len with
  | zero => rfl
  | succ fuel ih =>
    rw [spliceLoop, spliceLoop]
    split
    · rfl
    · dsimp only
      generalize (if len < OVL_COPY_UP_CHUNK_SIZE then len else OVL_COPY_UP_CHUNK_SIZE) = thisLen
      cases env.splice k with
      | signal => rfl
      | fail e => rfl
      | full =>
        dsimp only
        split
        · rfl
        · exact ih _ _ _ _ _
      | short j =>
        dsimp only
        split
        · rfl
        · exact ih _ _ _ _ _

theorem ovlCopyUpBlock_ret (env : CopyEnv) (lower u w : File) (pos len : ℕ) :
    (ovlCopyUpBlock env lower u pos len).1 = (ovlCopyUpBlock env lower w pos len).1 := by
  rw [ovlCopyUpBlock, ovlCopyUpBlock]
  split
  · rfl
  · split
    · rfl
    · exact spliceLoop_ret env lower len 0 u w pos len

namespace Shared

variable {δ ι : Type*} [DecidableEq ι] {dInode : δ → ι} {bucket : ℕ → ℕ} {envs : ℕ → CopyEnv}

/-! ### One request -/

/-- The state after an executed request: whatever the copy returned, the block is `COPIED`. -/
def ran (dInode : δ → ι) (envs : ℕ → CopyEnv) (s : Shared δ ι) (r : DentryReq δ) : Shared δ ι :=
  { s with
    inode := Function.update s.inode (dInode r.dentry)
      ⟨(s.inode (dInode r.dentry)).lower,
        (ovlCopyUpBlock (envs s.log.length) (s.inode (dInode r.dentry)).lower
          (s.inode (dInode r.dentry)).upper r.offset r.len).2,
        Function.update (s.inode (dInode r.dentry)).status r.blockId .copied⟩
    log := s.log ++ [(r, copyRet dInode envs s s.log.length r)] }

/-- A request is passed over, or it is executed. -/
theorem runReq_cases (dInode : δ → ι) (envs : ℕ → CopyEnv) (s : Shared δ ι) (r : DentryReq δ) :
    (((s.inode (dInode r.dentry)).status r.blockId ≠ .copying ∨ r.len = 0) ∧
        runReq dInode envs s r = s) ∨
      ((s.inode (dInode r.dentry)).status r.blockId = .copying ∧ r.len ≠ 0 ∧
        runReq dInode envs s r = ran dInode envs s r) := by
  by_cases h : (s.inode (dInode r.dentry)).status r.blockId ≠ .copying ∨ r.len = 0
  · exact .inl ⟨h, by simp only [runReq, if_pos h]⟩
  · rw [not_or, not_not] at h
    refine .inr ⟨h.1, h.2, ?_⟩
    have hret := ovlCopyUpBlock_ret (envs s.log.length) (s.inode (dInode r.dentry)).lower
      (s.inode (dInode r.dentry)).upper .empty r.offset r.len
    simp only [runReq, ran, h.1, h.2, ne_eq, not_true_eq_false, or_self, if_false, copyUp,
      setCopied, Function.update_self, Function.update_idem, copyRet, hret]

/-! ### A list of requests -/

section Requests

variable {s : Shared δ ι}

/-- The block maps of all inodes. -/
def maps (s : Shared δ ι) : ι → ℕ → BlockStatus := fun x => (s.inode x).status

theorem ran_maps (dInode : δ → ι) (envs : ℕ → CopyEnv) (s : Shared δ ι) (r : DentryReq δ) :
    (ran dInode envs s r).maps = Function.update s.maps (dInode r.dentry)
      (Function.update (s.maps (dInode r.dentry)) r.blockId .copied) := by
  funext x
  by_cases hx : x = dInode r.dentry
  · subst hx
    simp only [ran, maps, Function.update_self]
  · simp only [ran, maps, Function.update_of_ne hx]

/-- The lower files stay what they are, so the later copies return what they would have. -/
theorem ran_lower (dInode : δ → ι) (envs : ℕ → CopyEnv) (s : Shared δ ι) (r : DentryReq δ) (x : ι) :
    ((ran dInode envs s r).inode x).lower = (s.inode x).lower := by
  by_cases hx : x = dInode r.dentry
  · subst hx
    simp only [ran, Function.update_self]
  · simp only [ran, Function.update_of_ne hx]

theorem copyRet_ran (dInode : δ → ι) (envs : ℕ → CopyEnv) (s : Shared δ ι) (r : DentryReq δ)
    (k : ℕ) (q : DentryReq δ) :
    copyRet dInode envs (ran dInode envs s r) k q = copyRet dInode envs s k q := by
  rw [copyRet, copyRet, ran_lower]

/-- A copy that did not fail leaves the lower bytes of its range in the upper file. -/
theorem ran_upper {r : DentryReq δ} (h : 0 ≤ copyRet dInode envs s s.log.length r) :
    ((ran dInode envs s r).inode (dInode r.dentry)).upper =
      fill (s.inode (dInode r.dentry)).lower (s.inode (dInode r.dentry)).upper
        [(r.offset, r.len)] := by
  rw [copyRet, ovlCopyUpBlock_ret _ _ _ (s.inode (dInode r.dentry)).upper] at h
  simp only [ran, Function.update_self, fill]
  exact ovlCopyUpBlock_of_nonneg h

theorem executed_cons_of_copying (envs : ℕ → CopyEnv) {r : DentryReq δ} (rs : List (DentryReq δ))
    (hst : s.maps (dInode r.dentry) r.blockId = .copying) (hlen : r.len ≠ 0) :
    executed dInode s.maps (r :: rs) = r :: executed dInode (ran dInode envs s r).maps rs := by
  rw [executed, if_neg (by simp [hst, hlen]), ran_maps]

theorem executed_subset (dInode : δ → ι) (st : ι → ℕ → BlockStatus) (rs : List (DentryReq δ)) :
    ∀ r ∈ executed dInode st rs, r ∈ rs := by
  induction rs generalizing st with
  | nil => exact fun r hr => hr
  | cons q rs ih =>
    intro r hr
    rw [executed] at hr
    split at hr
    · exact List.mem_cons_of_mem q (ih _ r hr)
    · rcases List.mem_cons.mp hr with rfl | hr
      · exact List.mem_cons_self
      · exact List.mem_cons_of_mem q (ih _ r hr)

theorem executed_copying (dInode : δ → ι) (st : ι → ℕ → BlockStatus) (rs : List (DentryReq δ)) :
    ∀ r ∈ executed dInode st rs, st (dInode r.dentry) r.blockId = .copying := by
  induction rs generalizing st with
  | nil => exact fun r hr => absurd hr List.not_mem_nil
  | cons q rs ih =>
    intro r hr
    rw [executed] at hr
    split at hr
    · exact ih _ r hr
    · rename_i hq
      rw [not_or, not_not] at hq
      rcases List.mem_cons.mp hr with rfl | hr
      · exact hq.1
      · have hold := ih _ r hr
        by_cases hx : dInode r.dentry = dInode q.dentry
        · rw [hx, Function.update_self] at hold
          by_cases hb : r.blockId = q.blockId
          · rw [hb, Function.update_self] at hold
            cases hold
          · rwa [Function.update_of_ne hb, ← hx] at hold
        · rwa [Function.update_of_ne hx] at hold

/-- What a list of requests leaves of the state. -/
structure RunsTo (dInode : δ → ι) (envs : ℕ → CopyEnv) (rs : List (DentryReq δ))
    (s t : Shared δ ι) : Prop where
  table : t.table = s.table
  log : t.log = s.log ++ ((executed dInode s.maps rs).zipIdx s.log.length).map
    fun p => (p.1, copyRet dInode envs s p.2 p.1)
  copied : ∀ r ∈ executed dInode s.maps rs, t.maps (dInode r.dentry) r.blockId = .copied
  status : ∀ x b, (∀ r ∈ executed dInode s.maps rs, dInode r.dentry = x → r.blockId ≠ b) →
    t.maps x b = s.maps x b
  upper : (∀ p ∈ (executed dInode s.maps rs).zipIdx s.log.length,
      0 ≤ copyRet dInode envs s p.2 p.1) →
    ∀ x, (t.inode x).upper = fill (s.inode x).lower (s.inode x).upper
      (rangesOf dInode x (executed dInode s.maps rs))

theorem rangesOf_cons (dInode : δ → ι) (x : ι) (r : DentryReq δ) (rs : List (DentryReq δ)) :
    rangesOf dInode x (r :: rs) = if dInode r.dentry = x then
      (r.offset, r.len) :: rangesOf dInode x rs else rangesOf dInode x rs := by
  unfold rangesOf
  split
  · rename_i h
    rw [List.filter_cons_of_pos (by simp [h]), List.map_cons]
  · rename_i h
    rw [List.filter_cons_of_neg (by simp [h])]

/-- An executed request, followed by the others. -/
theorem RunsTo.cons {s t : Shared δ ι} {r : DentryReq δ} {rs : List (DentryReq δ)}
    (hst : s.maps (dInode r.dentry) r.blockId = .copying) (hlen : r.len ≠ 0)
    (h : RunsTo dInode envs rs (ran dInode envs s r) t) : RunsTo dInode envs (r :: rs) s t := by
  have hexec := executed_cons_of_copying envs rs hst hlen
  have hlog : (ran dInode envs s r).log = s.log ++ [(r, copyRet dInode envs s s.log.length r)] :=
    rfl
  constructor
  · exact h.table
  · rw [hexec, List.zipIdx_cons, List.map_cons, h.log, hlog, List.append_assoc]
    simp only [copyRet_ran, List.singleton_append, List.length_append, List.length_singleton]
  · intro q hq
    rw [hexec] at hq
    rcases List.mem_cons.mp hq with rfl | hq
    · -- A later request for the same block copies it as well.
      by_cases hin : ∃ p ∈ executed dInode (ran dInode envs s q).maps rs,
          dInode p.dentry = dInode q.dentry ∧ p.blockId = q.blockId
      · obtain ⟨p, hp, hpx, hpb⟩ := hin
        rw [← hpx, ← hpb]
        exact h.copied p hp
      · rw [h.status _ _ fun p hp hpx hpb => hin ⟨p, hp, hpx, hpb⟩, ran_maps,
          Function.update_self, Function.update_self]
    · exact h.copied q hq
  · intro x b hnone
    rw [hexec] at hnone
    rw [h.status x b fun q hq => hnone q (List.mem_cons_of_mem r hq), ran_maps]
    by_cases hx : x = dInode r.dentry
    · subst hx
      rw [Function.update_self, Function.update_of_ne]
      exact fun hb => hnone r List.mem_cons_self rfl hb.symm
    · rw [Function.update_of_ne hx]
  · intro hok x
    rw [hexec, List.zipIdx_cons] at hok
    rw [h.upper (by
      intro p hp
      rw [copyRet_ran]
      rw [hlog, List.length_append, List.length_singleton] at hp
      exact hok p (List.mem_cons_of_mem _ hp)) x, hexec, rangesOf_cons, ran_lower]
    by_cases hx : dInode r.dentry = x
    · subst hx
      rw [if_pos rfl, ran_upper (hok (r, _) List.mem_cons_self)]
      rfl
    · rw [if_neg hx]
      simp only [ran, Function.update_of_ne (Ne.symm hx)]

theorem runsTo_foldl (dInode : δ → ι) (envs : ℕ → CopyEnv) (rs : List (DentryReq δ))
    (s : Shared δ ι) : RunsTo dInode envs rs s (rs.foldl (runReq dInode envs) s) := by
  induction rs generalizing s with
  | nil =>
    refine ⟨rfl, ?_, fun r hr => absurd hr List.not_mem_nil, fun _ _ _ => rfl, fun _ x => rfl⟩
    exact (List.append_nil _).symm
  | cons r rs ih =>
    rw [List.foldl_cons]
    obtain ⟨hpass, heq⟩ | ⟨hst, hlen, heq⟩ := runReq_cases dInode envs s r
    · have hexec : executed dInode s.maps (r :: rs) = executed dInode s.maps rs := by
        rw [executed]
        exact if_pos hpass
      rw [heq]
      obtain ⟨h₁, h₂, h₃, h₄, h₅⟩ := ih s
      rw [← hexec] at h₂ h₃ h₄ h₅
      exact ⟨h₁, h₂, h₃, h₄, h₅⟩
    · rw [heq]
      exact .cons hst hlen (ih _)

end Requests

/-! ### A pass -/

section Pass

variable {s : Shared δ ι}

omit [DecidableEq ι] in
theorem mem_visited {t : List (DentryReq δ)} {ids : List ℕ} {r : DentryReq δ} :
    r ∈ visited bucket t ids ↔ r ∈ t ∧ ∃ b ∈ ids, bucket r.blockId = bucket b := by
  induction ids generalizing t with
  | nil => simp [visited]
  | cons b ids ih =>
    rw [visited, List.mem_append, ih, List.mem_filter, List.mem_filter, beq_iff_eq]
    by_cases hb : bucket r.blockId = bucket b
    · simp [hb]
    · simp [hb]

/-- Requests are executed the same way whatever the table is. -/
theorem runReq_table (envs : ℕ → CopyEnv) (s : Shared δ ι) (t : List (DentryReq δ))
    (r : DentryReq δ) :
    runReq dInode envs { s with table := t } r = { runReq dInode envs s r with table := t } := by
  simp only [runReq]
  split
  · rfl
  · rfl

theorem foldl_runReq_table (dInode : δ → ι) (envs : ℕ → CopyEnv) (rs : List (DentryReq δ))
    (s : Shared δ ι) (t : List (DentryReq δ)) :
    rs.foldl (runReq dInode envs) { s with table := t } =
      { rs.foldl (runReq dInode envs) s with table := t } := by
  induction rs generalizing s with
  | nil => rfl
  | cons r rs ih => rw [List.foldl_cons, List.foldl_cons, runReq_table, ih]

/-- The buckets one after the other are one list of requests. -/
theorem foldl_bucketPass (dInode : δ → ι) (bucket : ℕ → ℕ) (envs : ℕ → CopyEnv) (ids : List ℕ)
    (s : Shared δ ι) :
    (ids.foldl (bucketPass dInode bucket envs) s).inode =
        ((visited bucket s.table ids).foldl (runReq dInode envs) s).inode ∧
      (ids.foldl (bucketPass dInode bucket envs) s).log =
        ((visited bucket s.table ids).foldl (runReq dInode envs) s).log ∧
      ∀ r, r ∈ (ids.foldl (bucketPass dInode bucket envs) s).table ↔
        r ∈ s.table ∧ ∀ b ∈ ids, bucket r.blockId ≠ bucket b := by
  induction ids generalizing s with
  | nil => exact ⟨rfl, rfl, fun r => by simp⟩
  | cons b ids ih =>
    have hrest := foldl_runReq_table dInode envs
      (visited bucket (s.table.filter fun r => !(bucket r.blockId == bucket b)) ids)
      ((s.inBucket bucket b).foldl (runReq dInode envs) s)
      (s.table.filter fun r => !(bucket r.blockId == bucket b))
    have hrestInode := congrArg Shared.inode hrest
    have hrestLog := congrArg Shared.log hrest
    obtain ⟨hinode, hlog, hmem⟩ := ih (bucketPass dInode bucket envs s b)
    rw [List.foldl_cons, visited, List.foldl_append]
    refine ⟨hinode.trans hrestInode, hlog.trans hrestLog, fun r => ?_⟩
    rw [hmem r]
    show r ∈ s.table.filter _ ∧ _ ↔ _
    rw [List.mem_filter]
    simp [and_assoc]

/-- Every copy that the pass makes succeeds; and each lower byte that a request of a block
it retires waits for is in the range of an executed request of the inode, or is in the
upper file already. -/
def CopiesAll (dInode : δ → ι) (bucket : ℕ → ℕ) (envs : ℕ → CopyEnv) (s : Shared δ ι)
    (ids : List ℕ) : Prop :=
  let done := executed dInode s.maps (visited bucket s.table ids)
  (∀ p ∈ done.zipIdx 0, 0 ≤ copyRet dInode envs s p.2 p.1) ∧
    ∀ q ∈ done, ∀ r ∈ s.table, dInode r.dentry = dInode q.dentry → r.blockId = q.blockId →
      ∀ i, r.Covers i → i < (s.inode (dInode q.dentry)).lower.size →
        InRanges (rangesOf dInode (dInode q.dentry) done) i ∨
          ((s.inode (dInode q.dentry)).upper.cell i = (s.inode (dInode q.dentry)).lower.cell i ∧
            (i < (s.inode (dInode q.dentry)).upper.size ∨
              ∃ j, i ≤ j ∧ InRanges (rangesOf dInode (dInode q.dentry) done) j ∧
                j < (s.inode (dInode q.dentry)).lower.size))

end Pass

end Shared

/-- When a filled file has the byte of the source at `i`. -/
theorem fill_get?_eq_iff {src f : File} {rs : List (ℕ × ℕ)} {i : ℕ} (hi : i < src.size) :
    (fill src f rs).get? i = src.get? i ↔ InRanges rs i ∨
      (f.cell i = src.cell i ∧ (i < f.size ∨ ∃ j, i ≤ j ∧ InRanges rs j ∧ j < src.size)) := by
  rw [get?_of_lt hi, get?_eq_some_iff]
  by_cases hin : InRanges rs i
  · exact ⟨fun _ => .inl hin, fun _ => ⟨lt_fill_size hin hi, fill_cell hin hi⟩⟩
  · rw [(patchedFrom_fill src f rs).cell_eq hin, lt_fill_size_iff]
    constructor
    · exact fun h => .inr ⟨h.2, h.1⟩
    · rintro (h | h)
      · exact absurd h hin
      · exact ⟨h.2, h.1⟩

namespace Shared

variable {δ ι : Type*} [DecidableEq ι]

/-- A pass retires only what it copied if and only if it copies all. -/
theorem worker_retires_iff (dInode : δ → ι) (bucket : ℕ → ℕ) (envs : ℕ → CopyEnv)
    (s : Shared δ ι) (ids : List ℕ) :
    Retires dInode s (ovlBlockCopyPass dInode bucket envs s ids) ↔
      CopiesAll dInode bucket envs s ids := by
  set s₀ : Shared δ ι := { s with log := [] } with hs₀
  obtain ⟨hinode, hlog, htable⟩ :=
    foldl_bucketPass dInode bucket envs ids s₀
  have hruns := runsTo_foldl dInode envs (visited bucket s₀.table ids) s₀
  set done := executed dInode s.maps (visited bucket s.table ids) with hdone
  have hlog' : (ovlBlockCopyPass dInode bucket envs s ids).log =
      (done.zipIdx 0).map fun p => (p.1, copyRet dInode envs s p.2 p.1) :=
    hlog.trans hruns.log
  have hmaps : ∀ x b, ((ovlBlockCopyPass dInode bucket envs s ids).inode x).status b =
      ((visited bucket s₀.table ids).foldl (runReq dInode envs) s₀).maps x b :=
    fun x b => congrArg (fun f : ι → CopyInode => (f x).status b) hinode
  -- An executed request was in a bucket the pass emptied.
  have hgone : ∀ q ∈ done, q ∉ (ovlBlockCopyPass dInode bucket envs s ids).table := by
    intro q hq hmem
    obtain ⟨-, b, hb, hbucket⟩ := mem_visited.mp (executed_subset dInode _ _ q hq)
    exact ((htable q).mp hmem).2 b hb hbucket
  have hupper : (∀ p ∈ done.zipIdx 0, 0 ≤ copyRet dInode envs s p.2 p.1) → ∀ x,
      ((ovlBlockCopyPass dInode bucket envs s ids).inode x).upper =
        fill (s.inode x).lower (s.inode x).upper (rangesOf dInode x done) := fun hok x =>
    (congrArg (fun f : ι → CopyInode => (f x).upper) hinode).trans (hruns.upper hok x)
  constructor
  · rintro ⟨hpresent, hkept⟩
    have hok : ∀ p ∈ done.zipIdx 0, 0 ≤ copyRet dInode envs s p.2 p.1 := by
      intro p hp
      by_contra hneg
      refine hgone p.1 (List.fst_mem_of_mem_zipIdx hp)
        (hkept (p.1, copyRet dInode envs s p.2 p.1) ?_ (Int.not_le.mp hneg))
      rw [hlog']
      exact List.mem_map.mpr ⟨p, hp, rfl⟩
    refine ⟨hok, fun q hq r hr hx hb i hcov hi => ?_⟩
    have hst : (s.inode (dInode q.dentry)).status q.blockId = .copying :=
      executed_copying dInode _ _ q hq
    have hget := hpresent (dInode q.dentry) q.blockId hst ((hmaps _ _).trans (hruns.copied q hq))
      r hr hx hb i hcov hi
    rw [hupper hok] at hget
    exact (fill_get?_eq_iff hi).mp hget
  · rintro ⟨hok, hall⟩
    constructor
    · intro x b hst hcopied r hr hx hb i hcov hi
      have hin : ∃ q ∈ done, dInode q.dentry = x ∧ q.blockId = b := by
        by_contra hnone
        rw [hmaps, hruns.status x b fun q hq hqx hqb => hnone ⟨q, hq, hqx, hqb⟩] at hcopied
        have hst' : s₀.maps x b = .copying := hst
        rw [hst'] at hcopied
        cases hcopied
      obtain ⟨q, hq, rfl, rfl⟩ := hin
      rw [hupper hok]
      exact (fill_get?_eq_iff hi).mpr (hall q hq r hr hx hb i hcov hi)
    · intro e he hneg
      rw [hlog'] at he
      obtain ⟨p, hp, rfl⟩ := List.mem_map.mp he
      exact absurd (hok p hp) (Int.not_le.mpr hneg)

/-- A byte was written at offset 0 of a file of three bytes; the copy of the rest ends with an
I/O error. -/
theorem worker_retires_uncopied : ∃ s t : Shared Unit Unit,
    s = ⟨fun _ => ⟨.ofList [1, 2, 3], .ofList [9], fun b => if b = 1 then .copying else .uncopy⟩,
      [⟨⟨1, 1, 4095⟩, ()⟩], []⟩ ∧
    t = ovlBlockCopyPass (fun _ => ()) hashMin (fun _ => ⟨false, fun _ => .fail EIO⟩) s [1] ∧
    (t.inode ()).status 1 = .copied ∧ t.log = [(⟨⟨1, 1, 4095⟩, ()⟩, EIO.ret)] ∧ t.table = [] ∧
    (t.inode ()).upper.get? 1 = none ∧ (s.inode ()).lower.get? 1 = some 2 ∧
    ¬ Retires (fun _ => ()) s t := by
  refine ⟨_, _, rfl, rfl, by rfl, by rfl, by rfl, by rfl, by rfl, fun h => ?_⟩
  have hkept := h.kept (⟨⟨1, 1, 4095⟩, ()⟩, EIO.ret) (List.mem_singleton.mpr rfl) EIO.ret_neg
  exact absurd hkept List.not_mem_nil

/-! ### One inode with one dentry -/

/-- The table of all inodes, if there is one inode and it has one dentry. -/
def ofFile (f : CowFile) (s : AsyncState) (log : List (DentryReq Unit × ℤ)) : Shared Unit Unit :=
  ⟨fun _ => ⟨f.lower, s.upper, s.status⟩, s.table.map fun r => ⟨r, ()⟩, log⟩

theorem update_unit {α : Type*} (g : Unit → α) (a : α) : Function.update g () a = fun _ => a := by
  funext x
  exact Function.update_self _ _ _

/-- On one inode with one dentry `speed_block_copy` is the one for a single file. -/
theorem speedBlockCopy_ofFile (f : CowFile) (s : AsyncState) (log : List (DentryReq Unit × ℤ))
    (env : CopyEnv) (b : ℕ) :
    (speedBlockCopy (fun _ => ()) f.bucket (ofFile f s log) env () b).1 =
        (s.speedBlockCopy f env b).1 ∧
      ∃ log', (speedBlockCopy (fun _ => ()) f.bucket (ofFile f s log) env () b).2 =
        ofFile f (s.speedBlockCopy f env b).2 log' := by
  have hfind : (((ofFile f s log).inBucket f.bucket b).find? fun r =>
      r.dentry == () && r.blockId == b) = (s.findReq b).map fun r => ⟨r, ()⟩ := by
    rw [inBucket, ofFile, AsyncState.findReq, List.find?_filter, List.find?_map]
    congr 2
    funext r
    by_cases hb : r.blockId = b
    · simp [hb]
    · simp [hb]
  rw [speedBlockCopy, hfind, AsyncState.speedBlockCopy]
  cases s.findReq b with
  | none => exact ⟨rfl, log, rfl⟩
  | some r =>
    dsimp only [Option.map_some]
    by_cases hneg : (s.copyRange f env r.offset r.len).1 < 0
    · have hneg' : ((ofFile f s log).copyUp env () ⟨r, ()⟩).1 < 0 := hneg
      rw [if_pos hneg, if_pos hneg']
      refine ⟨rfl, log ++ [(⟨r, ()⟩, (s.copyRange f env r.offset r.len).1)], ?_⟩
      simp only [copyUp, update_unit]
      rfl
    · have hneg' : ¬ ((ofFile f s log).copyUp env () ⟨r, ()⟩).1 < 0 := hneg
      rw [if_neg hneg, if_neg hneg']
      refine ⟨rfl, log ++ [(⟨r, ()⟩, (s.copyRange f env r.offset r.len).1)], ?_⟩
      simp only [copyUp, setCopied, update_unit]
      rfl

/-- So is what the worker does with a request. -/
theorem runReq_ofFile (f : CowFile) (s : AsyncState) (log : List (DentryReq Unit × ℤ))
    (envs : ℕ → CopyEnv) (r : CopyReq) :
    ∃ log', runReq (fun _ => ()) envs (ofFile f s log) ⟨r, ()⟩ =
      ofFile f (AsyncState.runReq f (fun _ => envs log.length) s r) log' := by
  unfold runReq AsyncState.runReq
  by_cases h : s.status r.blockId ≠ .copying ∨ r.len = 0
  · rw [if_pos h]
    exact ⟨log, if_pos h⟩
  · rw [if_neg h]
    refine ⟨log ++ [(⟨r, ()⟩, (s.copyRange f (envs log.length) r.offset r.len).1)],
      (if_neg h).trans ?_⟩
    simp only [copyUp, setCopied, update_unit]
    rfl

end Shared

end FzzOverlay

import Mathlib.Data.List.Nodup
import FzzOverlay.Async.Requests
import FzzOverlay.Lib.Run

/-!
# Requests and newer data

The steps of one writer, of the worker and of the readers, in any order. Every
`vfs_iter_write` gets a number; a byte carries the number of the last one that stored
it, and a block the number of those done when its request was made.
-/

namespace FzzOverlay

/-- Where the writer that holds `inode_lock` is. `store` is the loop over
`vfs_iter_write`: what it has written, `ki_pos`, and what is left in the iterator. -/
inductive Writer where
  | idle
  | append (req : WriteReq)
  | same (req : WriteReq)
  | start (req : WriteReq)
  | stop (req : WriteReq)
  | store (req : WriteReq) (ret pos : ℕ) (rest : List UInt8)

/-- The shared data, the writer, and the numbers. -/
structure AsyncRun where
  st : AsyncState
  writer : Writer
  clock : ℕ
  stamp : ℕ → ℕ
  born : ℕ → ℕ

/-- Steps: a write begins, its next section under an entry lock runs (for `O_APPEND`
the branch without a lock), one `vfs_iter_write`, the marking loop, a bucket pass, a
reader's `speed_block_copy`. -/
inductive AsyncOp where
  | begin (req : WriteReq)
  | locked (env : CopyEnv) (mem : Bool) (junk : ℕ × ℕ)
  | vfsWrite (o : VfsWrite)
  | mark
  | bucketPass (b : ℕ) (envs : ℕ → CopyEnv)
  | speed (b : ℕ) (env : CopyEnv)

/-- The first section of a request. -/
def Writer.first (req : WriteReq) : Writer :=
  if req.append then .append req else if sameBlock req then .same req else .start req

/-- The section the writer is at, and where it goes on if the section returns no
error. -/
def Writer.section (f : CowFile) (env : CopyEnv) (mem : Bool) (junk : ℕ × ℕ) (s : AsyncState) :
    Writer → Option ((ℤ × AsyncState) × Writer)
  | .append req => some (s.appendSection f env, .store req 0 req.pos req.data)
  | .same req => some (s.sameSection f env (ovlGetBlock req.pos), .store req 0 req.pos req.data)
  | .start req => some (s.startSection f mem junk req.pos, .stop req)
  | .stop req =>
    some (s.endSection f mem junk (req.pos + req.data.length), .store req 0 req.pos req.data)
  | _ => none

/-- Where one `vfs_iter_write` stores. -/
def storeAt (req : WriteReq) (upper : File) (pos : ℕ) : ℕ := if req.append then upper.size else pos

namespace AsyncRun

/-- The state after a section. Blocks that get a request in it get the clock. -/
def afterSection (s : AsyncRun) (r : ℤ × AsyncState) (next : Writer) : AsyncRun :=
  { s with
    st := r.2
    writer := if r.1 < 0 then .idle else next
    born := fun b => if b ∈ s.st.table.map CopyReq.blockId then s.born b else s.clock }

/-- The state after a `vfs_iter_write` that stored `bytes` at `at_`. -/
def afterWrite (s : AsyncRun) (at_ : ℕ) (bytes : List UInt8) (next : Writer) : AsyncRun :=
  { s with
    st := { s.st with upper := s.st.upper.write at_ bytes }
    writer := next
    clock := s.clock + 1
    stamp := fun i => if at_ ≤ i ∧ i < at_ + bytes.length then s.clock + 1 else s.stamp i }

end AsyncRun

inductive AsyncStep (f : CowFile) : AsyncRun → AsyncOp → AsyncRun → Prop
  | begin {s : AsyncRun} {req : WriteReq} (hidle : s.writer = .idle) :
      AsyncStep f s (.begin req) { s with writer := .first req }
  | locked {s : AsyncRun} {env : CopyEnv} {mem : Bool} {junk : ℕ × ℕ} {r : ℤ × AsyncState}
      {next : Writer} (h : s.writer.section f env mem junk s.st = some (r, next)) :
      AsyncStep f s (.locked env mem junk) (s.afterSection r next)
  | failed {s : AsyncRun} {req : WriteReq} {ret pos : ℕ} {rest : List UInt8} {e : Errno}
      (hw : s.writer = .store req ret pos rest) (hgo : ret < rest.length) :
      AsyncStep f s (.vfsWrite (.fail e)) { s with writer := .idle }
  | stored {s : AsyncRun} {req : WriteReq} {ret pos : ℕ} {rest : List UInt8} {o : VfsWrite}
      (hw : s.writer = .store req ret pos rest) (hgo : ret < rest.length)
      (ho : ∀ e, o ≠ .fail e) :
      AsyncStep f s (.vfsWrite o) (s.afterWrite (storeAt req s.st.upper pos) (o.taken rest)
        (.store req (ret + (o.taken rest).length)
          (storeAt req s.st.upper pos + (o.taken rest).length) (rest.drop (o.taken rest).length)))
  | mark {s : AsyncRun} {req : WriteReq} {ret pos : ℕ} {rest : List UInt8}
      (hw : s.writer = .store req ret pos rest) (hgo : ¬ ret < rest.length) :
      AsyncStep f s .mark { s with
        st := s.st.markCopied f.blockCount (markRange f req).2 (f.blockCount + 1)
          (markRange f req).1
        writer := .idle }
  | bucketPass {s : AsyncRun} {b : ℕ} {envs : ℕ → CopyEnv} :
      AsyncStep f s (.bucketPass b envs) { s with st := s.st.bucketPass f envs b }
  | speed {s : AsyncRun} {b : ℕ} {env : CopyEnv} :
      AsyncStep f s (.speed b env) { s with st := s.st.readerSpeed f env b }

/-- The requests a step executes. -/
def AsyncRun.executed (f : CowFile) (s : AsyncRun) : AsyncOp → List CopyReq
  | .bucketPass b _ =>
    (s.st.inBucket f b).filter fun r => s.st.status r.blockId = .copying ∧ r.len ≠ 0
  | .speed b _ => if s.st.status b = .copying then (s.st.findReq b).toList else []
  | .locked _ _ _ =>
    match s.writer with
    | .same req =>
      if s.st.status (ovlGetBlock req.pos) = .copying then
        (s.st.findReq (ovlGetBlock req.pos)).toList
      else []
    | _ => []
  | _ => []

/-- The step executes a request over a byte that a later `vfs_iter_write` stored. -/
def AsyncRun.Overwrites (f : CowFile) (s : AsyncRun) (op : AsyncOp) : Prop :=
  ∃ r ∈ s.executed f op, ∃ i, r.Covers i ∧ i < f.lower.size ∧ s.born r.blockId < s.stamp i

/-- One of the two ranges lies strictly inside the other, so that no end of it meets
the other, or both ends of it do. -/
def CopyReq.Nested (r : CopyReq) (pos len : ℕ) : Prop :=
  (pos < r.offset ∧ r.offset + r.len < pos + len) ∨ (r.offset < pos ∧ pos + len < r.offset + r.len)

/-- A section that has to cut a request does not find it nested with the range to cut.
A `vfs_iter_write` stores no byte that a request waits for, if it is one of `O_APPEND`
or the byte is in a block that the marking loop will go over. -/
def AsyncOp.Safe (f : CowFile) (s : AsyncRun) : AsyncOp → Prop
  | .locked _ _ _ =>
    match s.writer with
    | .start req => (ovlGetBlock req.pos - 1) * BLOCK_SIZE < req.pos →
        s.st.status (ovlGetBlock req.pos) = .copying →
        ∀ r, s.st.findReq (ovlGetBlock req.pos) = some r → ¬ r.Nested req.pos (startCut f req.pos)
    | .stop req => s.st.status (ovlGetBlock (req.pos + req.data.length)) = .copying →
        ∀ r, s.st.findReq (ovlGetBlock (req.pos + req.data.length)) = some r →
          ¬ r.Nested ((ovlGetBlock (req.pos + req.data.length) - 1) * BLOCK_SIZE)
            (endCut f (req.pos + req.data.length))
    | _ => True
  | .vfsWrite o =>
    match s.writer with
    | .store req _ pos rest => ∀ i, storeAt req s.st.upper pos ≤ i →
        i < storeAt req s.st.upper pos + (o.taken rest).length → i < f.lower.size →
        (req.append = true ∨
          (markRange f req).1 ≤ ovlGetBlock i ∧ ovlGetBlock i ≤ (markRange f req).2) →
        ∀ b, ¬ s.st.Pending b i
    | _ => True
  | _ => True

theorem CopyReq.trim_spec {r : CopyReq} {pos len : ℕ} (junk : ℕ × ℕ) (hm : r.meets pos len)
    (hn : ¬ r.Nested pos len) :
    r.offset ≤ (r.trim pos len junk).offset ∧
      (r.trim pos len junk).offset + (r.trim pos len junk).len ≤ r.offset + r.len ∧
      ∀ i, (r.trim pos len junk).Covers i → ¬ (pos ≤ i ∧ i < pos + len) := by
  unfold CopyReq.meets at hm
  unfold CopyReq.Nested at hn
  unfold CopyReq.trim CopyReq.Covers
  dsimp only
  by_cases hfront : max r.offset pos = r.offset
  · rw [if_pos hfront]
    refine ⟨?_, ?_, fun i hi => ?_⟩
    · show r.offset ≤ min (r.offset + r.len) (pos + len)
      omega
    · show min (r.offset + r.len) (pos + len) + (r.offset + r.len -
        min (r.offset + r.len) (pos + len)) ≤ r.offset + r.len
      omega
    · have h₁ : min (r.offset + r.len) (pos + len) ≤ i := hi.1
      have h₂ : i < min (r.offset + r.len) (pos + len) + (r.offset + r.len -
        min (r.offset + r.len) (pos + len)) := hi.2
      omega
  · rw [if_neg hfront]
    by_cases hback : r.offset + r.len = min (r.offset + r.len) (pos + len)
    · rw [if_pos hback]
      refine ⟨le_rfl, ?_, fun i hi => ?_⟩
      · show r.offset + (max r.offset pos - r.offset) ≤ _
        omega
      · have h₂ : i < r.offset + (max r.offset pos - r.offset) := hi.2
        omega
    · exact absurd (.inr (by omega)) hn

/-- The test of the code finds every overlap that is not nested. -/
theorem CopyReq.disjoint_of_not_meets {r : CopyReq} {pos len i : ℕ} (hm : ¬ r.meets pos len)
    (hn : ¬ r.Nested pos len) (hi : r.Covers i) : ¬ (pos ≤ i ∧ i < pos + len) := by
  unfold CopyReq.meets at hm
  unfold CopyReq.Nested at hn
  unfold CopyReq.Covers at hi
  omega

/-- The range of a request lies in its block. -/
def CopyReq.Inside (r : CopyReq) : Prop :=
  0 < r.blockId ∧ (r.blockId - 1) * BLOCK_SIZE ≤ r.offset ∧
    r.offset + r.len ≤ r.blockId * BLOCK_SIZE

theorem CopyReq.Inside.block_eq {r : CopyReq} {i : ℕ} (h : r.Inside) (hi : r.Covers i) :
    ovlGetBlock i = r.blockId :=
  (ovlGetBlock_eq_iff h.1).mpr ⟨Nat.le_trans h.2.1 hi.1, Nat.lt_of_lt_of_le hi.2 h.2.2⟩

namespace AsyncState

variable {s t : AsyncState}

/-- There is at most one request for a block, its range lies in the block, and the block
is not uncopied. -/
structure OneEach (s : AsyncState) : Prop where
  nodup : (s.table.map CopyReq.blockId).Nodup
  known : ∀ r ∈ s.table, s.status r.blockId ≠ .uncopy
  inside : ∀ r ∈ s.table, r.Inside

theorem OneEach.block_eq (h : OneEach s) {b i : ℕ} (hp : s.Pending b i) : b = ovlGetBlock i := by
  obtain ⟨-, r, hr, rfl, hi⟩ := hp
  exact ((h.inside r hr).block_eq hi).symm

/-- Requests were deleted or cut, blocks were copied, and nothing else. -/
structure Withdraws (s t : AsyncState) : Prop where
  ids : (t.table.map CopyReq.blockId).Sublist (s.table.map CopyReq.blockId)
  status : ∀ b, t.status b = s.status b ∨ t.status b = .copied
  narrower : ∀ r' ∈ t.table, ∃ r ∈ s.table, r.blockId = r'.blockId ∧ r.offset ≤ r'.offset ∧
    r'.offset + r'.len ≤ r.offset + r.len

theorem Settles.withdraws (h : Settles s t) : Withdraws s t := by
  refine ⟨by rw [h.table], h.status, fun r hr => ?_⟩
  rw [h.table] at hr
  exact ⟨r, hr, rfl, le_rfl, le_rfl⟩

theorem withdraws_bucketPass (s : AsyncState) (f : CowFile) (envs : ℕ → CopyEnv) (b : ℕ) :
    Withdraws s (s.bucketPass f envs b) :=
  ⟨List.filter_sublist.map _, bucketPass_status s envs b,
    fun r hr => ⟨r, (mem_bucketPass_table.mp hr).1, rfl, le_rfl, le_rfl⟩⟩

theorem withdraws_trimReq (s : AsyncState) (b pos len : ℕ) (junk : ℕ × ℕ)
    (hn : ∀ r, s.findReq b = some r → ¬ r.Nested pos len) :
    Withdraws s (s.trimReq b pos len junk) := by
  refine ⟨by rw [trimReq_ids], trimReq_status s b pos len junk, fun q hq => ?_⟩
  obtain ⟨heq, -⟩ | ⟨r, l₁, l₂, hfind, hm, hb, htab, htab', -, -⟩ := trimReq_cases s b pos len junk
  · rw [heq] at hq
    exact ⟨q, hq, rfl, le_rfl, le_rfl⟩
  · rw [htab'] at hq
    rw [htab]
    rcases List.mem_append.mp hq with hq | hq
    · exact ⟨q, List.mem_append_left _ hq, rfl, le_rfl, le_rfl⟩
    · rcases List.mem_cons.mp hq with rfl | hq
      · obtain ⟨hlo, hhi, -⟩ := CopyReq.trim_spec junk hm (hn r hfind)
        exact ⟨r, by simp, (CopyReq.trim_blockId r pos len junk).symm, hlo, hhi⟩
      · exact ⟨q, by simp [hq], rfl, le_rfl, le_rfl⟩

theorem Withdraws.pending (h : Withdraws s t) {b i : ℕ} (hp : t.Pending b i) : s.Pending b i := by
  obtain ⟨hst, r', hr', hb, hi⟩ := hp
  obtain ⟨r, hr, hid, hlo, hhi⟩ := h.narrower r' hr'
  refine ⟨?_, r, hr, hid.trans hb, Nat.le_trans hlo hi.1, Nat.lt_of_lt_of_le hi.2 hhi⟩
  rcases h.status b with hs | hs
  · rw [← hs, hst]
  · rw [hs] at hst
    cases hst

theorem Withdraws.oneEach (h : Withdraws s t) (ho : OneEach s) : OneEach t := by
  refine ⟨ho.nodup.sublist h.ids, fun r' hr' => ?_, fun r' hr' => ?_⟩
  · obtain ⟨r, hr, hid, -, -⟩ := h.narrower r' hr'
    rw [← hid]
    rcases h.status r.blockId with hs | hs
    · rw [hs]
      exact ho.known r hr
    · rw [hs]
      exact nofun
  · obtain ⟨r, hr, hid, hlo, hhi⟩ := h.narrower r' hr'
    obtain ⟨hpos, hstart, hend⟩ := ho.inside r hr
    rw [hid] at hpos hstart hend
    exact ⟨hpos, Nat.le_trans hstart hlo, Nat.le_trans hhi hend⟩

/-- After the cut no byte of the range waits for the request. -/
theorem not_pending_trimReq (ho : OneEach s) {b pos len : ℕ} (junk : ℕ × ℕ)
    (hn : ∀ r, s.findReq b = some r → ¬ r.Nested pos len) {i : ℕ} (hi : pos ≤ i ∧ i < pos + len) :
    ¬ (s.trimReq b pos len junk).Pending b i := by
  rintro ⟨-, q, hq, hqb, hcov⟩
  obtain ⟨heq, hmeets⟩ | ⟨r, l₁, l₂, hfind, hm, hb, htab, htab', -, -⟩ :=
    trimReq_cases s b pos len junk
  · rw [heq] at hq
    cases hfind : s.findReq b with
    | none => exact absurd (beq_iff_eq.mpr hqb) (List.find?_eq_none.mp hfind q hq)
    | some r =>
      obtain ⟨hrb, l₁, l₂, htab, -⟩ := updateFirst_of_findReq hfind id
      have hqr : q = r := by
        refine List.inj_on_of_nodup_map ho.nodup hq ?_ (hqb.trans hrb.symm)
        rw [htab]
        simp
      rw [hqr] at hcov
      exact CopyReq.disjoint_of_not_meets (hmeets r hfind) (hn r hfind) hcov hi
  · -- Any other request of the table is for another block.
    have hnodup := ho.nodup
    rw [htab, List.map_append, List.map_cons, List.nodup_middle, List.nodup_cons] at hnodup
    rw [htab'] at hq
    have hother : q ∉ l₁ ∧ q ∉ l₂ := by
      refine ⟨fun hmem => hnodup.1 ?_, fun hmem => hnodup.1 ?_⟩
      · rw [hb, ← hqb]
        exact List.mem_append_left _ (List.mem_map_of_mem hmem)
      · rw [hb, ← hqb]
        exact List.mem_append_right _ (List.mem_map_of_mem hmem)
    rcases List.mem_append.mp hq with hq | hq
    · exact hother.1 hq
    · rcases List.mem_cons.mp hq with rfl | hq
      · exact (CopyReq.trim_spec junk hm (hn r hfind)).2.2 i hcov hi
      · exact hother.2 hq

/-- A request was made for a block that was uncopied. -/
structure Adds (s t : AsyncState) (r : CopyReq) : Prop where
  uncopy : s.status r.blockId = .uncopy
  inside : r.Inside
  table : t.table = r :: s.table
  status : t.status = Function.update s.status r.blockId .copying

theorem Adds.pending {r : CopyReq} (h : Adds s t r) (ho : OneEach s) {b i : ℕ}
    (hp : t.Pending b i) : s.Pending b i ∨ (b = r.blockId ∧ r.Covers i) := by
  obtain ⟨hst, q, hq, rfl, hi⟩ := hp
  rw [h.table] at hq
  rcases List.mem_cons.mp hq with rfl | hq
  · exact .inr ⟨rfl, hi⟩
  · have hne : q.blockId ≠ r.blockId := fun heq => ho.known q hq (by rw [heq, h.uncopy])
    rw [h.status, Function.update_of_ne hne] at hst
    exact .inl ⟨hst, q, hq, rfl, hi⟩

theorem Adds.not_mem {r : CopyReq} (h : Adds s t r) (ho : OneEach s) :
    r.blockId ∉ s.table.map CopyReq.blockId := by
  intro hmem
  obtain ⟨q, hq, heq⟩ := List.mem_map.mp hmem
  exact ho.known q hq (by rw [heq, h.uncopy])

theorem Adds.oneEach {r : CopyReq} (h : Adds s t r) (ho : OneEach s) : OneEach t := by
  refine ⟨?_, fun q hq => ?_, fun q hq => ?_⟩
  · rw [h.table, List.map_cons, List.nodup_cons]
    exact ⟨h.not_mem ho, ho.nodup⟩
  · rw [h.table] at hq
    rw [h.status]
    by_cases heq : q.blockId = r.blockId
    · rw [heq, Function.update_self]
      exact nofun
    · rw [Function.update_of_ne heq]
      rcases List.mem_cons.mp hq with rfl | hq
      · exact absurd rfl heq
      · exact ho.known q hq
  · rw [h.table] at hq
    rcases List.mem_cons.mp hq with rfl | hq
    · exact h.inside
    · exact ho.inside q hq

/-- What a section of the writer does to the requests. -/
def Effect (s t : AsyncState) : Prop := Withdraws s t ∨ ∃ r, Adds s t r

theorem Effect.oneEach (h : Effect s t) (ho : OneEach s) : OneEach t := by
  rcases h with h | ⟨r, h⟩
  · exact h.oneEach ho
  · exact h.oneEach ho

theorem mem_startCut {f : CowFile} {pos i : ℕ} (hlower : f.lower.size < 2 ^ 63) (hpos : pos ≤ i)
    (hi : i < f.lower.size) (hb : ovlGetBlock i = ovlGetBlock pos) :
    pos ≤ i ∧ i < pos + startCut f pos := by
  have hend := lt_ovlGetBlock_mul i
  rw [hb] at hend
  rw [startCut, usub64_of_le (by omega) (by omega)]
  omega

theorem mem_endCut {f : CowFile} {stop i : ℕ} (hlower : f.lower.size < 2 ^ 63) (hstop : i < stop)
    (hi : i < f.lower.size) (hb : ovlGetBlock i = ovlGetBlock stop) :
    (ovlGetBlock stop - 1) * BLOCK_SIZE ≤ i ∧
      i < (ovlGetBlock stop - 1) * BLOCK_SIZE + endCut f stop := by
  have hstart := ovlGetBlock_sub_one_mul_le i
  rw [hb] at hstart
  rw [endCut, usub64_of_le (by omega) (by omega)]
  omega

theorem not_pending_of_status {b i : ℕ} (h : s.status b ≠ .copying) : ¬ s.Pending b i :=
  fun hp => h hp.1

/-- The section for the first block leaves no byte of the block from `pos` on to a
request, if it starts inside the block. -/
theorem startSection_effect {f : CowFile} (hlower : f.lower.size < 2 ^ 63) (ho : OneEach s)
    (mem : Bool) (junk : ℕ × ℕ) (pos : ℕ)
    (hn : (ovlGetBlock pos - 1) * BLOCK_SIZE < pos → s.status (ovlGetBlock pos) = .copying →
      ∀ r, s.findReq (ovlGetBlock pos) = some r → ¬ r.Nested pos (startCut f pos)) :
    Effect s (s.startSection f mem junk pos).2 ∧
      (¬ (s.startSection f mem junk pos).1 < 0 → (ovlGetBlock pos - 1) * BLOCK_SIZE < pos →
        ∀ i, pos ≤ i → i < f.lower.size → ovlGetBlock i = ovlGetBlock pos →
          ¬ (s.startSection f mem junk pos).2.Pending (ovlGetBlock pos) i) := by
  obtain ⟨heq, hcop⟩ | ⟨hpart, hst, ⟨-, heq⟩ | ⟨-, heq⟩⟩ | ⟨hpart, hst, heq⟩ :=
    startSection_cases s f mem junk pos
  · rw [heq]
    refine ⟨.inl (Settles.refl s).withdraws, fun _ hpart i _ _ _ => not_pending_of_status ?_⟩
    rw [hcop hpart]
    exact nofun
  · rw [heq]
    have hadds : Adds s { s.addReq ⟨ovlGetBlock pos, (ovlGetBlock pos - 1) * BLOCK_SIZE,
        pos - (ovlGetBlock pos - 1) * BLOCK_SIZE⟩ with fifo := s.fifo ++ [ovlGetBlock pos] }
        ⟨ovlGetBlock pos, (ovlGetBlock pos - 1) * BLOCK_SIZE,
          pos - (ovlGetBlock pos - 1) * BLOCK_SIZE⟩ := by
      refine ⟨hst, ⟨ovlGetBlock_pos pos, le_rfl, ?_⟩, rfl, rfl⟩
      have hend := lt_ovlGetBlock_mul pos
      show (ovlGetBlock pos - 1) * BLOCK_SIZE + (pos - (ovlGetBlock pos - 1) * BLOCK_SIZE) ≤
        ovlGetBlock pos * BLOCK_SIZE
      omega
    refine ⟨.inr ⟨_, hadds⟩, fun _ _ i hi _ _ hp => ?_⟩
    rcases hadds.pending ho hp with hp | ⟨-, hcov⟩
    · rw [Pending, hst] at hp
      exact absurd hp.1 nofun
    · have hlt : i < (ovlGetBlock pos - 1) * BLOCK_SIZE +
          (pos - (ovlGetBlock pos - 1) * BLOCK_SIZE) := hcov.2
      omega
  · rw [heq]
    exact ⟨.inl (Settles.refl s).withdraws, fun hret => absurd ENOMEM.ret_neg hret⟩
  · rw [heq]
    refine ⟨.inl (withdraws_trimReq s _ _ _ junk (hn hpart hst)), fun _ _ i hi hlt hb => ?_⟩
    exact not_pending_trimReq ho junk (hn hpart hst) (mem_startCut hlower hi hlt hb)

/-- The section for the last block leaves no byte before `stop` to a request. -/
theorem endSection_effect {f : CowFile} (hlower : f.lower.size < 2 ^ 63) (ho : OneEach s)
    (mem : Bool) (junk : ℕ × ℕ) (stop : ℕ)
    (hn : s.status (ovlGetBlock stop) = .copying → ∀ r, s.findReq (ovlGetBlock stop) = some r →
      ¬ r.Nested ((ovlGetBlock stop - 1) * BLOCK_SIZE) (endCut f stop)) :
    Effect s (s.endSection f mem junk stop).2 ∧
      (¬ (s.endSection f mem junk stop).1 < 0 → ∀ i < stop, i < f.lower.size →
        (∀ b, ¬ s.Pending b i) ∨ ovlGetBlock i = ovlGetBlock stop →
          ∀ b, ¬ (s.endSection f mem junk stop).2.Pending b i) := by
  obtain ⟨heq, hcop⟩ | ⟨hst, ⟨-, heq⟩ | ⟨-, heq⟩⟩ | ⟨hst, heq⟩ := endSection_cases s f mem junk stop
  · rw [heq]
    refine ⟨.inl (Settles.refl s).withdraws, fun _ i _ _ hor b hp => ?_⟩
    rcases hor with hnone | hb
    · exact hnone b hp
    · rw [ho.block_eq hp, hb, Pending, hcop] at hp
      exact absurd hp.1 nofun
  · rw [heq]
    have hadds : Adds s (s.addReq ⟨ovlGetBlock stop, stop, ovlGetBlock stop * BLOCK_SIZE - stop⟩)
        ⟨ovlGetBlock stop, stop, ovlGetBlock stop * BLOCK_SIZE - stop⟩ := by
      refine ⟨hst, ⟨ovlGetBlock_pos stop, ovlGetBlock_sub_one_mul_le stop, ?_⟩, rfl, rfl⟩
      have hend := lt_ovlGetBlock_mul stop
      show stop + (ovlGetBlock stop * BLOCK_SIZE - stop) ≤ ovlGetBlock stop * BLOCK_SIZE
      omega
    refine ⟨.inr ⟨_, hadds⟩, fun _ i hi _ hor b hp => ?_⟩
    rcases hadds.pending ho hp with hp | ⟨-, hcov⟩
    · rcases hor with hnone | hb
      · exact hnone b hp
      · rw [ho.block_eq hp, hb, Pending, hst] at hp
        exact absurd hp.1 nofun
    · exact absurd hcov.1 (Nat.not_le.mpr hi)
  · rw [heq]
    exact ⟨.inl (Settles.refl s).withdraws, fun hret => absurd ENOMEM.ret_neg hret⟩
  · rw [heq]
    have hw := withdraws_trimReq s _ _ _ junk (hn hst)
    refine ⟨.inl hw, fun _ i hi hlt hor b hp => ?_⟩
    rcases hor with hnone | hb
    · exact hnone b (hw.pending hp)
    · rw [(hw.oneEach ho).block_eq hp, hb] at hp
      exact not_pending_trimReq ho junk (hn hst) (mem_endCut hlower hi hlt hb) hp

/-- The section for a request inside one block leaves no byte of it to a request. -/
theorem sameSection_done {f : CowFile} (env : CopyEnv) (b i : ℕ)
    (hret : ¬ (s.sameSection f env b).1 < 0) : ¬ (s.sameSection f env b).2.Pending b i := by
  unfold sameSection at hret ⊢
  cases hst : s.status b with
  | uncopy =>
    simp only [hst] at hret ⊢
    by_cases hneg : (s.copyRange f env ((b - 1) * BLOCK_SIZE) f.lower.size).1 < 0
    · rw [if_pos hneg] at hret
      exact absurd hneg hret
    · rw [if_neg hneg]
      refine not_pending_of_status ?_
      show Function.update _ _ _ _ ≠ _
      rw [Function.update_self]
      exact nofun
  | copying =>
    simp only [hst] at hret ⊢
    unfold speedBlockCopy at hret ⊢
    cases hfind : s.findReq b with
    | none =>
      rintro ⟨-, r, hr, hrb, -⟩
      exact absurd (beq_iff_eq.mpr hrb) (List.find?_eq_none.mp hfind r hr)
    | some r =>
      simp only [hfind] at hret ⊢
      by_cases hneg : (s.copyRange f env r.offset r.len).1 < 0
      · rw [if_pos hneg] at hret
        exact absurd hneg hret
      · rw [if_neg hneg]
        refine not_pending_of_status ?_
        show Function.update _ _ _ _ ≠ _
        rw [Function.update_self]
        exact nofun
  | copied =>
    refine not_pending_of_status ?_
    show s.status b ≠ _
    rw [hst]
    exact nofun

end AsyncState

open AsyncState

/-- What the writer relies on: the bytes it is about to store in its first and last
block wait for no request. -/
def WriterInv (f : CowFile) (s : AsyncState) : Writer → Prop
  | .idle => True
  | .append req => req.append = true
  | .same req => req.append = false ∧ sameBlock req = true
  | .start req => req.append = false ∧ sameBlock req = false
  | .stop req => req.append = false ∧ sameBlock req = false ∧
      ∀ i, req.pos ≤ i → i < f.lower.size → ovlGetBlock i < (markRange f req).1 →
        ∀ b, ¬ s.Pending b i
  | .store req _ pos rest => req.append = false →
      ∀ i, pos ≤ i → i < pos + rest.length → i < f.lower.size →
        (ovlGetBlock i < (markRange f req).1 ∨ (markRange f req).2 < ovlGetBlock i) →
        ∀ b, ¬ s.Pending b i

/-- Invariant of the runs all of whose steps are safe. -/
structure AsyncInv (f : CowFile) (s : AsyncRun) : Prop where
  oneEach : OneEach s.st
  stamped : ∀ i, s.stamp i ≤ s.clock
  clean : ∀ b i, s.st.Pending b i → i < f.lower.size → s.stamp i ≤ s.born b
  writer : WriterInv f s.st s.writer

theorem WriterInv.withdraws {f : CowFile} {s t : AsyncState} {w : Writer} (h : WriterInv f s w)
    (hw : Withdraws s t) : WriterInv f t w := by
  cases w with
  | idle => trivial
  | append req => exact h
  | same req => exact h
  | start req => exact h
  | stop req =>
    exact ⟨h.1, h.2.1, fun i hpos hi hb b hp => h.2.2 i hpos hi hb b (hw.pending hp)⟩
  | store req ret pos rest =>
    exact fun happ i hpos hlt hi hb b hp => h happ i hpos hlt hi hb b (hw.pending hp)

namespace AsyncInv

variable {f : CowFile} {s : AsyncRun}

/-- The worker, the readers and the marking loop. -/
theorem withdraws (h : AsyncInv f s) {t : AsyncState} {w : Writer} (ht : Withdraws s.st t)
    (hw : WriterInv f t w) : AsyncInv f { s with st := t, writer := w } :=
  ⟨ht.oneEach h.oneEach, h.stamped, fun b i hp => h.clean b i (ht.pending hp), hw⟩

/-- A section of the writer. A request made in it is newer than every byte stored. -/
theorem afterSection (h : AsyncInv f s) {r : ℤ × AsyncState} {next : Writer}
    (he : Effect s.st r.2) (hw : ¬ r.1 < 0 → WriterInv f r.2 next) :
    AsyncInv f (s.afterSection r next) := by
  refine ⟨he.oneEach h.oneEach, h.stamped, fun b i hp hi => ?_, ?_⟩
  · have hold : s.st.Pending b i →
        s.stamp i ≤ if b ∈ s.st.table.map CopyReq.blockId then s.born b else s.clock := by
      intro hp'
      obtain ⟨-, q, hq, hqb, -⟩ := id hp'
      rw [if_pos (List.mem_map.mpr ⟨q, hq, hqb⟩)]
      exact h.clean b i hp' hi
    show s.stamp i ≤ if b ∈ s.st.table.map CopyReq.blockId then s.born b else s.clock
    rcases he with he | ⟨q, he⟩
    · exact hold (he.pending hp)
    · rcases he.pending h.oneEach hp with hp' | ⟨rfl, -⟩
      · exact hold hp'
      · rw [if_neg (he.not_mem h.oneEach)]
        exact h.stamped i
  · show WriterInv f r.2 (if r.1 < 0 then .idle else next)
    split
    · trivial
    · exact hw ‹_›

theorem locked (hlower : f.lower.size < 2 ^ 63) (h : AsyncInv f s) {env : CopyEnv} {mem : Bool}
    {junk : ℕ × ℕ} {r : ℤ × AsyncState} {next : Writer}
    (hsec : s.writer.section f env mem junk s.st = some (r, next))
    (hsafe : (AsyncOp.locked env mem junk).Safe f s) : AsyncInv f (s.afterSection r next) := by
  have hwriter := h.writer
  unfold AsyncOp.Safe at hsafe
  cases hw : s.writer with
  | idle =>
    rw [hw] at hsec
    cases hsec
  | store req ret pos rest =>
    rw [hw] at hsec
    cases hsec
  | append req =>
    rw [hw] at hsec hwriter
    cases hsec
    refine h.afterSection (.inl (settles_appendSection s.st f env).withdraws) fun _ happ => ?_
    rw [show req.append = true from hwriter] at happ
    cases happ
  | same req =>
    rw [hw] at hsec hwriter
    cases hsec
    have hset := (settles_sameSection s.st f env (ovlGetBlock req.pos)).withdraws
    refine h.afterSection (.inl hset) fun hret _ i hpos hlt _ _ b hp => ?_
    -- The whole request is in one block.
    have hblock : ovlGetBlock req.pos = ovlGetBlock (req.pos + req.data.length) := by
      have hsame := hwriter.2
      rw [sameBlock, Bool.and_eq_true, Bool.and_eq_true, decide_eq_true_eq] at hsame
      exact hsame.1.1
    have hi : ovlGetBlock i = ovlGetBlock req.pos :=
      Nat.le_antisymm (hblock ▸ ovlGetBlock_mono (Nat.le_of_lt hlt)) (ovlGetBlock_mono hpos)
    rw [(hset.oneEach h.oneEach).block_eq hp, hi] at hp
    exact sameSection_done env _ i hret hp
  | start req =>
    rw [hw] at hsec hwriter hsafe
    cases hsec
    obtain ⟨he, hdone⟩ := startSection_effect hlower h.oneEach mem junk req.pos hsafe
    refine h.afterSection he fun hret => ⟨hwriter.1, hwriter.2, fun i hpos hi hb b hp => ?_⟩
    have hle := ovlGetBlock_mono hpos
    have hfirst : (markRange f req).1 = ovlGetBlock req.pos + startPart req := by
      simp only [markRange, hwriter.1, hwriter.2, Bool.false_eq_true, if_false]
    rw [hfirst] at hb
    by_cases hpart : (ovlGetBlock req.pos - 1) * BLOCK_SIZE < req.pos
    · rw [startPart, if_pos hpart] at hb
      have hib : ovlGetBlock i = ovlGetBlock req.pos := by omega
      rw [(he.oneEach h.oneEach).block_eq hp, hib] at hp
      exact hdone hret hpart i hpos hi hib hp
    · rw [startPart, if_neg hpart] at hb
      omega
  | stop req =>
    rw [hw] at hsec hwriter hsafe
    cases hsec
    obtain ⟨happ, hsame, hclear⟩ := hwriter
    obtain ⟨he, hdone⟩ := endSection_effect hlower h.oneEach mem junk
      (req.pos + req.data.length) hsafe
    refine h.afterSection he fun hret _ i hpos hlt hi hb => ?_
    refine hdone hret i hlt hi ?_
    have hle : ovlGetBlock i ≤ ovlGetBlock (req.pos + req.data.length) :=
      ovlGetBlock_mono (Nat.le_of_lt hlt)
    have hlast : (markRange f req).2 = ovlGetBlock (req.pos + req.data.length) - 1 := by
      have hend : endPart req = 1 := by
        rw [endPart, if_pos (lt_ovlGetBlock_mul _)]
      simp only [markRange, happ, hsame, hend, Bool.false_eq_true, if_false]
    rcases hb with hb | hb
    · exact .inl fun b => hclear i hpos hi hb b
    · rw [hlast] at hb
      exact .inr (by omega)

/-- One `vfs_iter_write`: no byte it stores waits for a request. -/
theorem stored (h : AsyncInv f s) {req : WriteReq} {ret pos : ℕ} {rest : List UInt8} {o : VfsWrite}
    (hw : s.writer = .store req ret pos rest) (hsafe : (AsyncOp.vfsWrite o).Safe f s) :
    AsyncInv f (s.afterWrite (storeAt req s.st.upper pos) (o.taken rest)
      (.store req (ret + (o.taken rest).length)
        (storeAt req s.st.upper pos + (o.taken rest).length)
        (rest.drop (o.taken rest).length))) := by
  have hwriter := h.writer
  rw [hw] at hwriter
  unfold AsyncOp.Safe at hsafe
  rw [hw] at hsafe
  have htaken : (o.taken rest).length ≤ rest.length := by
    cases o with
    | full => exact le_rfl
    | short k =>
      show (rest.take (k + 1)).length ≤ _
      rw [List.length_take]
      exact Nat.min_le_right _ _
    | fail e => exact Nat.zero_le _
  have hpos : req.append = false → storeAt req s.st.upper pos = pos := by
    intro happ
    rw [storeAt, happ, if_neg (by simp)]
  have hnone : ∀ i, storeAt req s.st.upper pos ≤ i →
      i < storeAt req s.st.upper pos + (o.taken rest).length → i < f.lower.size →
      ∀ b, ¬ s.st.Pending b i := by
    intro i hlo hhi hi
    by_cases happ : req.append = true
    · exact hsafe i hlo hhi hi (.inl happ)
    have happ' : req.append = false := Bool.eq_false_iff.mpr happ
    by_cases hmid : (markRange f req).1 ≤ ovlGetBlock i ∧ ovlGetBlock i ≤ (markRange f req).2
    · exact hsafe i hlo hhi hi (.inr hmid)
    · rw [hpos happ'] at hlo hhi
      exact hwriter happ' i hlo (by omega) hi (by omega)
  have hst : Withdraws s.st { s.st with
      upper := s.st.upper.write (storeAt req s.st.upper pos) (o.taken rest) } :=
    (settles_upper s.st _).withdraws
  refine ⟨hst.oneEach h.oneEach, fun i => ?_, fun b i hp hi => ?_, fun happ i hlo hhi => ?_⟩
  · show (if _ then s.clock + 1 else s.stamp i) ≤ s.clock + 1
    split
    · exact le_rfl
    · exact Nat.le_succ_of_le (h.stamped i)
  · show (if _ then s.clock + 1 else s.stamp i) ≤ s.born b
    split
    · rename_i hmem
      exact absurd (hst.pending hp) (hnone i hmem.1 hmem.2 hi b)
    · exact h.clean b i (hst.pending hp) hi
  · rw [hpos happ] at hlo hhi
    rw [List.length_drop] at hhi
    intro hi hb b hp
    exact hwriter happ i (by omega) (by omega) hi hb b (hst.pending hp)

theorem step (hlower : f.lower.size < 2 ^ 63) (h : AsyncInv f s) {op : AsyncOp} {t : AsyncRun}
    (hsafe : op.Safe f s) (hs : AsyncStep f s op t) : AsyncInv f t := by
  cases hs with
  | begin hidle =>
    rename_i req
    refine h.withdraws (Settles.refl s.st).withdraws ?_
    unfold Writer.first
    by_cases happ : req.append = true
    · rw [if_pos happ]
      exact happ
    · rw [if_neg happ]
      by_cases hsame : sameBlock req = true
      · rw [if_pos hsame]
        exact ⟨Bool.eq_false_iff.mpr happ, hsame⟩
      · rw [if_neg hsame]
        exact ⟨Bool.eq_false_iff.mpr happ, Bool.eq_false_iff.mpr hsame⟩
  | locked hsec => exact locked hlower h hsec hsafe
  | failed hw hgo => exact h.withdraws (Settles.refl s.st).withdraws trivial
  | stored hw hgo ho => exact h.stored hw hsafe
  | mark hw hgo => exact h.withdraws (settles_markCopied _ _ _ _ s.st).1.withdraws trivial
  | @bucketPass b envs =>
    have hst := withdraws_bucketPass s.st f envs b
    exact h.withdraws hst (h.writer.withdraws hst)
  | @speed b env =>
    have hst := (settles_readerSpeed s.st f env b).withdraws
    exact h.withdraws hst (h.writer.withdraws hst)

theorem not_overwrites (h : AsyncInv f s) (op : AsyncOp) : ¬ s.Overwrites f op := by
  rintro ⟨r, hr, i, hcov, hi, hlt⟩
  have hfound : ∀ b, r ∈ (if s.st.status b = .copying then (s.st.findReq b).toList else []) →
      s.st.status r.blockId = .copying ∧ r ∈ s.st.table := by
    intro b hmem
    split at hmem
    · rename_i hst
      have hfind : s.st.findReq b = some r := Option.mem_toList.mp hmem
      have hb : r.blockId = b := by simpa using List.find?_some hfind
      exact ⟨by rw [hb, hst], List.mem_of_find?_eq_some hfind⟩
    · cases hmem
  have hpend : s.st.status r.blockId = .copying ∧ r ∈ s.st.table := by
    cases op with
    | begin req => cases hr
    | vfsWrite o => cases hr
    | mark => cases hr
    | speed b env => exact hfound b hr
    | locked env mem junk =>
      unfold AsyncRun.executed at hr
      cases hw : s.writer with
      | same req =>
        rw [hw] at hr
        exact hfound (ovlGetBlock req.pos) hr
      | idle =>
        rw [hw] at hr
        cases hr
      | append req =>
        rw [hw] at hr
        cases hr
      | start req =>
        rw [hw] at hr
        cases hr
      | stop req =>
        rw [hw] at hr
        cases hr
      | store req ret pos rest =>
        rw [hw] at hr
        cases hr
    | bucketPass b envs =>
      obtain ⟨hmem, hst⟩ := List.mem_filter.mp hr
      exact ⟨(of_decide_eq_true hst).1, (mem_inBucket.mp hmem).1⟩
  exact absurd (h.clean _ i ⟨hpend.1, r, hpend.2, rfl, hcov⟩ hi) (Nat.not_le.mpr hlt)

end AsyncInv

/-- No request, no writer, and no byte stored yet. -/
structure Quiet (s : AsyncRun) : Prop where
  table : s.st.table = []
  writer : s.writer = .idle
  stamp : ∀ i, s.stamp i = 0

theorem Quiet.asyncInv {f : CowFile} {s : AsyncRun} (h : Quiet s) : AsyncInv f s := by
  refine ⟨⟨?_, fun r hr => ?_, fun r hr => ?_⟩, fun i => ?_, fun b i hp => ?_, ?_⟩
  · rw [h.table]
    exact List.nodup_nil
  · rw [h.table] at hr
    cases hr
  · rw [h.table] at hr
    cases hr
  · rw [h.stamp]
    exact Nat.zero_le _
  · obtain ⟨-, r, hr, -⟩ := hp
    rw [h.table] at hr
    cases hr
  · rw [h.writer]
    trivial

/-- In every interleaving of writes, bucket passes and readers all of whose steps are
safe, no step executes a request over a byte stored after the request was made. -/
theorem newer_data_kept {f : CowFile} (hlower : f.lower.size < 2 ^ 63) {s₀ s : AsyncRun}
    {tr : List (AsyncRun × AsyncOp)} (h₀ : Quiet s₀) (hrun : Lts.Run (AsyncStep f) s₀ tr s)
    (hsafe : ∀ p ∈ tr, p.2.Safe f p.1) : ∀ p ∈ tr, ¬ p.1.Overwrites f p.2 := by
  intro p hp
  have hstep : ∀ t op u, AsyncInv f t → op.Safe f t → AsyncStep f t op u → AsyncInv f u :=
    fun t op u ht hs hst => ht.step hlower hs hst
  exact (hrun.invariant_mem h₀.asyncInv hstep hsafe p hp).not_overwrites p.2

def quietStart : AsyncRun := ⟨oneBlockStart, .idle, 0, fun _ => 0, fun _ => 0⟩

theorem quietStart_quiet : Quiet quietStart := ⟨rfl, rfl, fun _ => rfl⟩

/-- The steps of a write of one byte at offset 0. -/
theorem firstByte_run : ∃ tr s, Lts.Run (AsyncStep oneBlockFile) quietStart tr s ∧
    (∀ p ∈ tr, p.2.Safe oneBlockFile p.1) ∧ s.writer = .idle ∧
    s.st = { oneBlockStart.addReq ⟨1, 1, 4095⟩ with upper := .write .empty 0 [9] } ∧
    s.born 1 = 0 ∧ s.stamp 0 = 1 ∧ s.clock = 1 := by
  refine ⟨_, _, .snoc (e := .mark) (.snoc (e := .vfsWrite .full)
    (.snoc (e := .locked .plain true (0, 0)) (.snoc (e := .locked .plain true (0, 0))
    (.snoc (e := .begin ⟨0, false, [9]⟩) .nil (.begin rfl)) (.locked rfl)) (.locked rfl))
    (.stored rfl (by decide) (by simp))) (.mark rfl (by decide)), ?_, rfl, rfl, rfl, rfl, rfl⟩
  intro p hp
  simp only [List.mem_append, List.mem_singleton, List.not_mem_nil, false_or] at hp
  rcases hp with (((rfl | rfl) | rfl) | rfl) | rfl
  · trivial
  · exact fun hpart => absurd hpart (by decide)
  · exact fun hst => absurd hst (by decide)
  · rintro i - - - (happ | ⟨hlo, hhi⟩)
    · cases happ
    · exact absurd (Nat.le_trans hlo hhi) (show ¬ 1 ≤ 0 by decide)
  · trivial

/-- A reader then executes the request, which covers only older bytes. -/
theorem newer_data_kept_byte : ∃ tr s, Lts.Run (AsyncStep oneBlockFile) quietStart tr s ∧
    (∀ p ∈ tr, p.2.Safe oneBlockFile p.1) ∧ (List.range 3).map s.st.upper.cell = [9, 2, 3] ∧
    ∀ p ∈ tr, ¬ p.1.Overwrites oneBlockFile p.2 := by
  obtain ⟨tr, s, hrun, hsafe, -, hst, -⟩ := firstByte_run
  have hrun' := hrun.snoc (e := .speed 1 .plain) .speed
  have hsafe' : ∀ p ∈ tr ++ [(s, .speed 1 .plain)], AsyncOp.Safe oneBlockFile p.1 p.2 := by
    intro p hp
    rcases List.mem_append.mp hp with hp | hp
    · exact hsafe p hp
    · obtain rfl := List.mem_singleton.mp hp
      trivial
  refine ⟨_, _, hrun', hsafe', ?_, newer_data_kept (by decide) quietStart_quiet hrun' hsafe'⟩
  show (List.range 3).map (s.st.readerSpeed oneBlockFile .plain 1).upper.cell = [9, 2, 3]
  rw [hst]
  decide

/-- An `O_APPEND` write then stores one more byte at the end of the upper file, inside
the range of the request, and a reader's `speed_block_copy` puts the lower byte over it. -/
theorem newer_data_replaced : ∃ tr s t, Lts.Run (AsyncStep oneBlockFile) quietStart tr s ∧
    s.st.upper.get? 1 = some 7 ∧ s.stamp 1 = 2 ∧ s.born 1 = 0 ∧
    s.Overwrites oneBlockFile (.speed 1 .plain) ∧
    AsyncStep oneBlockFile s (.speed 1 .plain) t ∧ t.st.upper.get? 1 = some 2 := by
  obtain ⟨tr, s, hrun, -, hidle, hst, hborn, -, hclock⟩ := firstByte_run
  obtain ⟨st, writer, clock, stamp, born⟩ := s
  obtain rfl : writer = .idle := hidle
  obtain rfl : clock = 1 := hclock
  subst hst
  have hrun' := ((hrun.snoc (e := .begin ⟨0, true, [7]⟩) (.begin rfl)).snoc
    (e := .locked .plain true (0, 0)) (.locked rfl)).snoc (e := .vfsWrite .full)
      (.stored rfl (by decide) (by simp))
  refine ⟨_, _, _, hrun', rfl, rfl, hborn, ?_, .speed, rfl⟩
  refine ⟨⟨1, 1, 4095⟩, List.mem_singleton.mpr rfl, 1, ⟨le_rfl, by decide⟩, by decide, ?_⟩
  show born 1 < 2
  rw [show born 1 = 0 from hborn]
  decide

end FzzOverlay

import FzzOverlay.Async.Requests
import FzzOverlay.Lib.Run

/-!
# Blocks that wait for the worker

Runs of whole `async_block_write_iter` and `speed_block_copy` calls and whole passes
of `ovl_block_copy`. The section for the first block of a request puts the block id
into `block_copy_fifo`; the section for the last block does not.
-/

namespace FzzOverlay

/-- One call. Other inodes share the fifo; the last one is a `kfifo_in` of theirs. -/
inductive AsyncCall where
  | write (env : AsyncEnv) (req : WriteReq)
  | speed (env : CopyEnv) (b : ℕ)
  | pass (envs : ℕ → ℕ → CopyEnv)
  | foreign (b : ℕ)

def AsyncCall.run (f : CowFile) (s : AsyncState) : AsyncCall → AsyncState
  | .write env req => (s.asyncBlockWriteIter f env req).2
  | .speed env b => (s.speedBlockCopy f env b).2
  | .pass envs => s.ovlBlockCopyPass f envs
  | .foreign b => { s with fifo := s.fifo ++ [b] }

def CallStep (f : CowFile) (s : AsyncState) (op : AsyncCall) (t : AsyncState) : Prop :=
  op.run f s = t

/-- Every block of the map that is being copied has a request, and its id is in the
fifo. -/
def Queued (f : CowFile) (s : AsyncState) : Prop :=
  ∀ b ≤ f.blockCount, s.status b = .copying → (∃ r ∈ s.table, r.blockId = b) ∧ b ∈ s.fifo

/-- The write returns no error before the section for its last block, and that section
makes a request. -/
def AddsLast (s : AsyncState) (env : AsyncEnv) (req : WriteReq) : Prop :=
  req.append = false ∧ sameBlock req = false ∧
    ¬ (startPart req = 1 ∧ s.status (ovlGetBlock req.pos) = .uncopy ∧ env.memStart = false) ∧
    s.status (ovlGetBlock (req.pos + req.data.length)) = .uncopy ∧ env.memEnd = true

/-- If the last block is in the map and gets a request, its id is already in the fifo. -/
def AsyncCall.Safe (f : CowFile) (s : AsyncState) : AsyncCall → Prop
  | .write env req => AddsLast s env req →
      ovlGetBlock (req.pos + req.data.length) ≤ f.blockCount →
      ovlGetBlock (req.pos + req.data.length) ∈ s.fifo
  | _ => True

/-- What the table has to do with the block map, whatever is in the fifo. -/
structure Present (f : CowFile) (s : AsyncState) : Prop where
  known : ∀ r ∈ s.table, s.status r.blockId ≠ .uncopy
  nonempty : ∀ r ∈ s.table, s.status r.blockId = .copying → r.len ≠ 0
  present : ∀ b ≤ f.blockCount, s.status b = .copying → ∃ r ∈ s.table, r.blockId = b

/-- Invariant of the runs all of whose calls are safe. -/
structure Waiting (f : CowFile) (s : AsyncState) : Prop extends Present f s where
  waits : ∀ b ≤ f.blockCount, s.status b = .copying → b ∈ s.fifo

theorem Waiting.queued {f : CowFile} {s : AsyncState} (h : Waiting f s) : Queued f s :=
  fun b hb hst => ⟨h.present b hb hst, h.waits b hb hst⟩

open AsyncState

section Steps

variable {f : CowFile} {s t : AsyncState}

theorem copying_of_settled {b : ℕ} (h : t.status b = s.status b ∨ t.status b = .copied)
    (hb : t.status b = .copying) : s.status b = .copying := by
  rcases h with h | h
  · rw [← h, hb]
  · rw [h] at hb
    cases hb

theorem ne_uncopy_of_settled {b : ℕ} (h : t.status b = s.status b ∨ t.status b = .copied)
    (hb : s.status b ≠ .uncopy) : t.status b ≠ .uncopy := by
  rcases h with h | h
  · rwa [h]
  · rw [h]
    exact nofun

theorem Waiting.settles (h : Waiting f s) (hs : Settles s t) : Waiting f t := by
  refine ⟨⟨fun r hr => ?_, fun r hr hst => ?_, fun b hb hst => ?_⟩, fun b hb hst => ?_⟩
  · rw [hs.table] at hr
    exact ne_uncopy_of_settled (hs.status _) (h.known r hr)
  · rw [hs.table] at hr
    exact h.nonempty r hr (copying_of_settled (hs.status _) hst)
  · rw [hs.table]
    exact h.present b hb (copying_of_settled (hs.status _) hst)
  · rw [hs.fifo]
    exact h.waits b hb (copying_of_settled (hs.status _) hst)

theorem Waiting.trimReq (h : Waiting f s) (b pos len : ℕ) (junk : ℕ × ℕ) :
    Waiting f (s.trimReq b pos len junk) := by
  have hst := trimReq_status s b pos len junk
  obtain ⟨heq, -⟩ | ⟨r, l₁, l₂, -, -, hb, htab, htab', hfifo, hlen⟩ :=
    trimReq_cases s b pos len junk
  · rwa [heq]
  -- The request of block `b` is the only one that changed.
  have hmem : ∀ {q}, q ∈ (s.trimReq b pos len junk).table →
      q ∈ s.table ∨ (q = r.trim pos len junk ∧ q.blockId = b) := by
    intro q hq
    rw [htab'] at hq
    rw [htab]
    rcases List.mem_append.mp hq with hq | hq
    · exact .inl (List.mem_append_left _ hq)
    · rcases List.mem_cons.mp hq with rfl | hq
      · exact .inr ⟨rfl, by rw [CopyReq.trim_blockId, hb]⟩
      · exact .inl (List.mem_append_right _ (List.mem_cons_of_mem _ hq))
  have hids : ∀ c, (∃ q ∈ s.table, q.blockId = c) →
      ∃ q ∈ (s.trimReq b pos len junk).table, q.blockId = c := by
    intro c hc
    have hmap := trimReq_ids s b pos len junk
    have hc' : c ∈ s.table.map CopyReq.blockId := List.mem_map.mpr hc
    rw [← hmap] at hc'
    exact List.mem_map.mp hc'
  refine ⟨⟨fun q hq => ?_, fun q hq hq' => ?_, fun c hc hc' => ?_⟩, fun c hc hc' => ?_⟩
  · rcases hmem hq with hq | ⟨-, hqb⟩
    · exact ne_uncopy_of_settled (hst _) (h.known q hq)
    · have hr : s.status b ≠ .uncopy := by
        rw [← hb]
        exact h.known r (by rw [htab]; simp)
      rw [hqb]
      exact ne_uncopy_of_settled (hst b) hr
  · rcases hmem hq with hq | ⟨rfl, hqb⟩
    · exact h.nonempty q hq (copying_of_settled (hst _) hq')
    · rcases hlen with ⟨-, hupd⟩ | ⟨hne, -⟩
      · rw [hqb, hupd, Function.update_self] at hq'
        cases hq'
      · exact hne
  · exact hids c (h.present c hc (copying_of_settled (hst _) hc'))
  · rw [hfifo]
    exact h.waits c hc (copying_of_settled (hst _) hc')

theorem Waiting.addReq {r : CopyReq} {fifo : List ℕ} (h : Waiting f s)
    (hst : s.status r.blockId = .uncopy) (hlen : r.len ≠ 0) (hsub : ∀ b ∈ s.fifo, b ∈ fifo)
    (hmem : r.blockId ≤ f.blockCount → r.blockId ∈ fifo) :
    Waiting f { s.addReq r with fifo := fifo } := by
  have hself : (s.addReq r).status r.blockId = .copying := Function.update_self _ _ _
  have hother : ∀ {b}, b ≠ r.blockId → (s.addReq r).status b = s.status b :=
    fun hne => Function.update_of_ne hne _ _
  have hnew : ∀ q ∈ s.table, q.blockId ≠ r.blockId := by
    intro q hq heq
    exact h.known q hq (by rw [heq, hst])
  refine ⟨⟨fun q hq => ?_, fun q hq hq' => ?_, fun b hb hb' => ?_⟩, fun b hb hb' => ?_⟩
  · rcases List.mem_cons.mp hq with rfl | hq
    · show (s.addReq q).status q.blockId ≠ .uncopy
      rw [hself]
      exact nofun
    · show (s.addReq r).status q.blockId ≠ .uncopy
      rw [hother (hnew q hq)]
      exact h.known q hq
  · rcases List.mem_cons.mp hq with rfl | hq
    · exact hlen
    · refine h.nonempty q hq ?_
      rw [← hother (hnew q hq)]
      exact hq'
  · by_cases hbr : b = r.blockId
    · exact ⟨r, List.mem_cons_self, hbr.symm⟩
    · obtain ⟨q, hq, hqb⟩ := h.present b hb ((hother hbr).symm.trans hb')
      exact ⟨q, List.mem_cons_of_mem _ hq, hqb⟩
  · by_cases hbr : b = r.blockId
    · rw [hbr] at hb ⊢
      exact hmem hb
    · exact hsub b (h.waits b hb ((hother hbr).symm.trans hb'))

theorem Waiting.startSection (h : Waiting f s) (mem : Bool) (junk : ℕ × ℕ) (pos : ℕ) :
    Waiting f (s.startSection f mem junk pos).2 := by
  obtain ⟨heq, -⟩ | ⟨hpart, hst, ⟨-, heq⟩ | ⟨-, heq⟩⟩ | ⟨-, -, heq⟩ :=
    startSection_cases s f mem junk pos
  · rwa [heq]
  · rw [heq]
    refine h.addReq hst (Nat.sub_ne_zero_of_lt hpart) (fun b hb => ?_) fun _ => ?_
    · exact List.mem_append_left _ hb
    · exact List.mem_append_right _ (List.mem_singleton_self _)
  · rwa [heq]
  · rw [heq]
    exact h.trimReq _ _ _ junk

/-- The section for the first block touches no other block. -/
theorem startSection_frame (s : AsyncState) (mem : Bool) (junk : ℕ × ℕ) (pos : ℕ) {b : ℕ}
    (hb : (ovlGetBlock pos - 1) * BLOCK_SIZE < pos → b ≠ ovlGetBlock pos) :
    (s.startSection f mem junk pos).2.status b = s.status b ∧
      (b ∈ (s.startSection f mem junk pos).2.fifo ↔ b ∈ s.fifo) := by
  obtain ⟨heq, -⟩ | ⟨hpart, hst, ⟨-, heq⟩ | ⟨-, heq⟩⟩ | ⟨hpart, -, heq⟩ :=
    startSection_cases s f mem junk pos
  · rw [heq]
    exact ⟨rfl, .rfl⟩
  · rw [heq]
    exact ⟨Function.update_of_ne (hb hpart) _ _, by simp [hb hpart]⟩
  · rw [heq]
    exact ⟨rfl, .rfl⟩
  · rw [heq]
    obtain ⟨heq, -⟩ | ⟨r, l₁, l₂, -, -, -, -, -, hfifo, ⟨-, hst⟩ | ⟨-, hst⟩⟩ :=
      trimReq_cases s (ovlGetBlock pos) pos (startCut f pos) junk
    · rw [heq]
      exact ⟨rfl, .rfl⟩
    · rw [hst, hfifo]
      exact ⟨Function.update_of_ne (hb hpart) _ _, .rfl⟩
    · rw [hst, hfifo]
      exact ⟨rfl, .rfl⟩

theorem startSection_neg_iff (s : AsyncState) (mem : Bool) (junk : ℕ × ℕ) (pos : ℕ) :
    (s.startSection f mem junk pos).1 < 0 ↔
      (ovlGetBlock pos - 1) * BLOCK_SIZE < pos ∧ s.status (ovlGetBlock pos) = .uncopy ∧
        mem = false := by
  obtain ⟨heq, hcop⟩ | ⟨hpart, hst, ⟨hmem, heq⟩ | ⟨hmem, heq⟩⟩ | ⟨hpart, hst, heq⟩ :=
    startSection_cases s f mem junk pos
  · rw [heq]
    refine ⟨fun h => absurd h (by simp), fun h => ?_⟩
    have hst := h.2.1
    rw [hcop h.1] at hst
    cases hst
  · rw [heq, hmem]
    simp
  · rw [heq]
    exact ⟨fun _ => ⟨hpart, hst, hmem⟩, fun _ => ENOMEM.ret_neg⟩
  · rw [heq, hst]
    simp

/-- The section for the last block, given that its id is in the fifo if it gets a
request. -/
theorem Waiting.endSection (h : Waiting f s) {mem : Bool} (junk : ℕ × ℕ) {stop : ℕ}
    (hsafe : s.status (ovlGetBlock stop) = .uncopy → mem = true →
      ovlGetBlock stop ≤ f.blockCount → ovlGetBlock stop ∈ s.fifo) :
    Waiting f (s.endSection f mem junk stop).2 := by
  obtain ⟨heq, -⟩ | ⟨hst, ⟨hmem, heq⟩ | ⟨-, heq⟩⟩ | ⟨-, heq⟩ := endSection_cases s f mem junk stop
  · rwa [heq]
  · rw [heq]
    exact h.addReq hst (Nat.sub_ne_zero_of_lt (lt_ovlGetBlock_mul stop)) (fun _ hb => hb)
      (hsafe hst hmem)
  · rwa [heq]
  · rw [heq]
    exact h.trimReq _ _ _ junk

theorem settles_storeAndMark (f : CowFile) (wr : ℕ → VfsWrite) (req : WriteReq) (s : AsyncState) :
    Settles s (storeAndMark f wr req s).2 ∧
      ∀ b, (markRange f req).2 < b → (storeAndMark f wr req s).2.status b = s.status b := by
  unfold storeAndMark
  dsimp only
  split
  · obtain ⟨hset, hkeep⟩ := settles_markCopied f.blockCount (markRange f req).2
      (f.blockCount + 1) (markRange f req).1 { s with upper := (writeLoop
        { WriteEnv.full with wr := wr } req.append req.data.length 0 0 req.pos req.data
        s.upper).upper }
    exact ⟨(settles_upper s _).trans hset, hkeep⟩
  · exact ⟨settles_upper s _, fun _ _ => rfl⟩

theorem orReturn_of_not_neg {r t : ℤ × AsyncState} {k : AsyncState → ℤ × AsyncState}
    (ht : k r.2 = t) (hr : ¬ r.1 < 0) : orReturn r k = t := by
  rw [AsyncState.orReturn, if_neg hr, ht]

theorem Waiting.orReturn {r t : ℤ × AsyncState} {k : AsyncState → ℤ × AsyncState}
    (ht : k r.2 = t) (hr : Waiting f r.2) (hk : ¬ r.1 < 0 → Waiting f t.2) :
    Waiting f (orReturn r k).2 := by
  by_cases hneg : r.1 < 0
  · rwa [AsyncState.orReturn, if_pos hneg]
  · rw [orReturn_of_not_neg ht hneg]
    exact hk hneg

theorem startPart_eq_one {req : WriteReq} :
    startPart req = 1 ↔ (ovlGetBlock req.pos - 1) * BLOCK_SIZE < req.pos := by
  unfold startPart
  split <;> simp_all

/-- A request over several blocks that starts inside its first block ends in another. -/
theorem ne_of_startPart {req : WriteReq} (hsame : sameBlock req = false)
    (hpart : (ovlGetBlock req.pos - 1) * BLOCK_SIZE < req.pos) :
    ovlGetBlock (req.pos + req.data.length) ≠ ovlGetBlock req.pos := by
  intro heq
  have hlt := lt_ovlGetBlock_mul (req.pos + req.data.length)
  rw [sameBlock, heq] at hsame
  rw [heq] at hlt
  simp [hpart, hlt] at hsame

theorem Waiting.write (h : Waiting f s) {env : AsyncEnv} {req : WriteReq}
    (hsafe : (AsyncCall.write env req).Safe f s) :
    Waiting f (s.asyncBlockWriteIter f env req).2 := by
  have hstore : ∀ u, Waiting f u → Waiting f (storeAndMark f env.wr req u).2 :=
    fun u hu => hu.settles (settles_storeAndMark f env.wr req u).1
  unfold asyncBlockWriteIter
  by_cases happ : req.append = true
  · rw [if_pos happ]
    have hsec := h.settles (settles_appendSection s f env.copy)
    exact .orReturn rfl hsec fun _ => hstore _ hsec
  rw [if_neg happ]
  by_cases hsame : sameBlock req = true
  · rw [if_pos hsame]
    have hsec := h.settles (settles_sameSection s f env.copy (ovlGetBlock req.pos))
    exact .orReturn rfl hsec fun _ => hstore _ hsec
  rw [if_neg hsame]
  have hsame' : sameBlock req = false := Bool.eq_false_iff.mpr hsame
  have hsec := h.startSection env.memStart env.junkStart req.pos
  refine .orReturn rfl hsec fun hret => ?_
  obtain ⟨hst, hfifo⟩ := startSection_frame (f := f) s env.memStart env.junkStart req.pos
    (ne_of_startPart hsame')
  have hend : Waiting f ((s.startSection f env.memStart env.junkStart req.pos).2.endSection f
      env.memEnd env.junkEnd (req.pos + req.data.length)).2 := by
    refine hsec.endSection env.junkEnd fun hun hmem hle => ?_
    rw [startSection_neg_iff, ← startPart_eq_one] at hret
    rw [hst] at hun
    exact hfifo.mpr (hsafe ⟨Bool.eq_false_iff.mpr happ, hsame', hret, hun, hmem⟩ hle)
  exact .orReturn rfl hend fun _ => hstore _ hend

theorem endPart_eq_one (req : WriteReq) : endPart req = 1 := by
  rw [endPart, if_pos (lt_ovlGetBlock_mul _)]

theorem markRange_snd {req : WriteReq} (happ : req.append = false)
    (hsame : sameBlock req = false) :
    (markRange f req).2 = ovlGetBlock (req.pos + req.data.length) - 1 := by
  simp only [markRange, happ, hsame, endPart_eq_one, Bool.false_eq_true, if_false]

theorem endSection_addReq {mem : Bool} {junk : ℕ × ℕ} {stop : ℕ}
    (hst : s.status (ovlGetBlock stop) = .uncopy) (hmem : mem = true) :
    ∃ r : CopyReq, r.blockId = ovlGetBlock stop ∧
      s.endSection f mem junk stop = (0, s.addReq r) := by
  obtain ⟨-, hcop⟩ | ⟨-, ⟨-, heq⟩ | ⟨hno, -⟩⟩ | ⟨hcop, -⟩ := endSection_cases s f mem junk stop
  · rw [hcop] at hst
    cases hst
  · exact ⟨_, rfl, heq⟩
  · rw [hno] at hmem
    cases hmem
  · rw [hcop] at hst
    cases hst

/-- The state in which a write stores its data, when its last section makes a request. -/
theorem asyncBlockWriteIter_of_addsLast {env : AsyncEnv} {req : WriteReq}
    (h : AddsLast s env req) :
    ∃ (u : AsyncState) (r : CopyReq), r.blockId = ovlGetBlock (req.pos + req.data.length) ∧
      (ovlGetBlock (req.pos + req.data.length) ∈ u.fifo ↔
        ovlGetBlock (req.pos + req.data.length) ∈ s.fifo) ∧
      s.asyncBlockWriteIter f env req = storeAndMark f env.wr req (u.addReq r) := by
  obtain ⟨happ, hsame, hstart, hst, hmem⟩ := h
  obtain ⟨hst', hfifo⟩ := startSection_frame (f := f) s env.memStart env.junkStart req.pos
    (ne_of_startPart hsame)
  rw [← hst'] at hst
  obtain ⟨r, hr, hend⟩ := endSection_addReq (f := f) hst hmem
  refine ⟨_, r, hr, hfifo, ?_⟩
  have hret : ¬ (s.startSection f env.memStart env.junkStart req.pos).1 < 0 := by
    rwa [startSection_neg_iff, ← startPart_eq_one]
  rw [asyncBlockWriteIter, happ, if_neg (by simp), hsame, if_neg (by simp)]
  refine orReturn_of_not_neg ?_ hret
  exact (congrArg (orReturn · _) hend).trans (orReturn_of_not_neg rfl (by simp))

/-- A write that is not safe leaves its last block behind. -/
theorem not_queued_of_not_safe {env : AsyncEnv} {req : WriteReq}
    (hun : ¬ (AsyncCall.write env req).Safe f s) :
    ¬ Queued f (s.asyncBlockWriteIter f env req).2 := by
  intro hq
  refine hun fun hadds hle => ?_
  obtain ⟨u, r, hr, hfifo, hw⟩ := asyncBlockWriteIter_of_addsLast (f := f) hadds
  obtain ⟨happ, hsame, -⟩ := hadds
  obtain ⟨hset, hkeep⟩ := settles_storeAndMark f env.wr req (u.addReq r)
  rw [hw] at hq
  have hlast : (markRange f req).2 < ovlGetBlock (req.pos + req.data.length) := by
    rw [markRange_snd happ hsame]
    exact Nat.sub_one_lt_of_lt (ovlGetBlock_pos _)
  have hcopy : (u.addReq r).status (ovlGetBlock (req.pos + req.data.length)) = .copying := by
    rw [← hr]
    exact Function.update_self _ _ _
  have hmemb := (hq _ hle ((hkeep _ hlast).trans hcopy)).2
  rw [hset.fifo] at hmemb
  exact hfifo.mp hmemb

theorem Present.bucketPass (h : Present f s) (envs : ℕ → CopyEnv) (b : ℕ) :
    Present f (s.bucketPass f envs b) ∧
      (b ≤ f.blockCount → (s.bucketPass f envs b).status b ≠ .copying) := by
  have hst := bucketPass_status (f := f) s envs b
  have hdone : ∀ c ≤ f.blockCount, f.bucket c = f.bucket b →
      (s.bucketPass f envs b).status c ≠ .copying := by
    intro c hc hbucket hcopy
    have hold := copying_of_settled (hst c) hcopy
    obtain ⟨r, hr, rfl⟩ := h.present c hc hold
    exact runReqs_status envs (s.inBucket f b) s (mem_inBucket.mpr ⟨hr, hbucket⟩)
      (h.nonempty r hr hold) hcopy
  refine ⟨⟨fun r hr => ?_, fun r hr hr' => ?_, fun c hc hc' => ?_⟩, fun hb => hdone b hb rfl⟩
  · exact ne_uncopy_of_settled (hst _) (h.known r (mem_bucketPass_table.mp hr).1)
  · exact h.nonempty r (mem_bucketPass_table.mp hr).1 (copying_of_settled (hst _) hr')
  · obtain ⟨r, hr, rfl⟩ := h.present c hc (copying_of_settled (hst _) hc')
    exact ⟨r, mem_bucketPass_table.mpr ⟨hr, fun heq => hdone _ hc heq hc'⟩, rfl⟩

/-- The inner loop of a pass: the blocks it went over are not being copied any more. -/
theorem Present.bucketPasses (envs : ℕ → ℕ → CopyEnv) (buf : ℕ → ℕ) (is : List ℕ)
    {s : AsyncState} (h : Present f s) :
    Present f (is.foldl (fun s i => s.bucketPass f (envs i) (buf i)) s) ∧
      ∀ b, (is.foldl (fun s i => s.bucketPass f (envs i) (buf i)) s).status b = .copying →
        s.status b = .copying ∧ (b ≤ f.blockCount → ∀ i ∈ is, buf i ≠ b) := by
  induction is generalizing s with
  | nil => exact ⟨h, fun b hb => ⟨hb, fun _ => nofun⟩⟩
  | cons i is ih =>
    rw [List.foldl_cons]
    obtain ⟨hpres, hi⟩ := h.bucketPass (envs i) (buf i)
    obtain ⟨hpres', hrest⟩ := ih hpres
    refine ⟨hpres', fun b hb => ?_⟩
    obtain ⟨hb', hnot⟩ := hrest b hb
    refine ⟨copying_of_settled (bucketPass_status s _ _ b) hb', fun hle j hj => ?_⟩
    rcases List.mem_cons.mp hj with rfl | hj
    · rintro rfl
      exact hi hle hb'
    · exact hnot hle j hj

theorem Waiting.ovlBlockCopyPass (h : Waiting f s) (envs : ℕ → ℕ → CopyEnv) :
    Waiting f (s.ovlBlockCopyPass f envs) := by
  set buf : ℕ → ℕ := fun i => if i < s.fifo.length then s.fifo.getD i 0 else s.buf i with hbuf
  have hstart : Present f { s with fifo := [], buf := buf } := ⟨h.known, h.nonempty, h.present⟩
  obtain ⟨hpres, hcopy⟩ := hstart.bucketPasses envs buf (List.range (8 * s.fifo.length))
  refine ⟨hpres, fun b hb hst => ?_⟩
  obtain ⟨hold, hnot⟩ := hcopy b hst
  -- The id of a block that was being copied is one of those read from the fifo.
  obtain ⟨i, hi, hget⟩ := List.getElem_of_mem (h.waits b hb hold)
  have hbi : buf i = b := by
    rw [hbuf]
    simp [hi, hget]
  exact absurd hbi (hnot hb i (List.mem_range.mpr (by omega)))

theorem Waiting.step {op : AsyncCall} (h : Waiting f s) (hsafe : op.Safe f s) :
    Waiting f (op.run f s) := by
  cases op with
  | write env req => exact h.write hsafe
  | speed env b => exact h.settles (settles_speedBlockCopy s f env b)
  | pass envs => exact h.ovlBlockCopyPass envs
  | foreign b =>
    exact ⟨⟨h.known, h.nonempty, h.present⟩,
      fun c hc hst => List.mem_append_left _ (h.waits c hc hst)⟩

end Steps

/-- A file whose blocks are all uncopied or copied, and for which there is no request. -/
structure NonePending (s : AsyncState) : Prop where
  table : s.table = []
  settled : ∀ b, s.status b ≠ .copying

theorem NonePending.waiting {f : CowFile} {s : AsyncState} (h : NonePending s) : Waiting f s := by
  refine ⟨⟨fun r hr => ?_, fun r hr => ?_, fun b _ hst => absurd hst (h.settled b)⟩,
    fun b _ hst => absurd hst (h.settled b)⟩
  · rw [h.table] at hr
    cases hr
  · rw [h.table] at hr
    cases hr

/-- In every run, every state reached has each block that is being copied in the table
and in the fifo, if and only if no write makes a request for its last block while the
id of that block is not in the fifo. -/
theorem pending_blocks_queued_iff {f : CowFile} {s₀ s : AsyncState}
    {tr : List (AsyncState × AsyncCall)} (h₀ : NonePending s₀)
    (hrun : Lts.Run (CallStep f) s₀ tr s) :
    ((∀ p ∈ tr, Queued f p.1) ∧ Queued f s) ↔ ∀ p ∈ tr, p.2.Safe f p.1 := by
  constructor
  · rintro ⟨hq, hlast⟩ p hp
    have hnext : Queued f (p.2.run f p.1) := by
      obtain ⟨t, ht, hreached⟩ := hrun.next_of_mem p hp
      rw [ht]
      rcases hreached with rfl | ⟨q, hq', rfl⟩
      · exact hlast
      · exact hq q hq'
    cases hop : p.2 with
    | write env req =>
      rw [hop] at hnext
      exact not_not.mp fun hun => not_queued_of_not_safe hun hnext
    | speed env b => trivial
    | pass envs => trivial
    | foreign b => trivial
  · intro hsafe
    have hstep : ∀ t op u, Waiting f t → op.Safe f t → CallStep f t op u → Waiting f u := by
      rintro t op u ht hs rfl
      exact ht.step hs
    exact ⟨fun p hp => (hrun.invariant_mem h₀.waiting hstep hsafe p hp).queued,
      (hrun.invariant_of_guard h₀.waiting hstep hsafe).queued⟩

/-- Nothing fails. -/
def AsyncEnv.plain : AsyncEnv := ⟨.plain, true, true, (0, 0), (0, 0), fun _ => .full⟩

theorem oneBlockStart_nonePending : NonePending oneBlockStart := ⟨rfl, fun _ => nofun⟩

/-- Two bytes written at offset 4095: block 1 is left being copied, and its id is queued. -/
theorem pending_blocks_queued_inside : ∃ tr s,
    Lts.Run (CallStep oneBlockFile) oneBlockStart tr s ∧
      s.status 1 = .copying ∧ s.fifo = [1] ∧
      (∀ p ∈ tr, Queued oneBlockFile p.1) ∧ Queued oneBlockFile s := by
  have hrun : Lts.Run (CallStep oneBlockFile) oneBlockStart _ _ :=
    .snoc .nil (e := .write .plain ⟨4095, false, [9, 9]⟩) rfl
  refine ⟨_, _, hrun, by decide, by decide,
    (pending_blocks_queued_iff oneBlockStart_nonePending hrun).mpr ?_⟩
  intro p hp
  obtain rfl := List.mem_singleton.mp hp
  exact fun _ hle => absurd hle (by decide)

/-- One byte written at offset 0: block 1 is left being copied, and no pass of the
worker will look for it. -/
theorem pending_block_forgotten : ∃ tr s,
    Lts.Run (CallStep oneBlockFile) oneBlockStart tr s ∧
      s.status 1 = .copying ∧ s.table = [⟨1, 1, 4095⟩] ∧ s.fifo = [] ∧
      ¬ Queued oneBlockFile s := by
  have hrun : Lts.Run (CallStep oneBlockFile) oneBlockStart _ _ :=
    .snoc .nil (e := .write .plain ⟨0, false, [9]⟩) rfl
  have hst : (AsyncCall.run oneBlockFile oneBlockStart
      (.write .plain ⟨0, false, [9]⟩)).status 1 = .copying := by decide
  refine ⟨_, _, hrun, hst, by rfl, by rfl, fun hq => ?_⟩
  exact absurd (hq 1 le_rfl hst).2 (by decide)

end FzzOverlay

import FzzOverlay.Async.Defs

/-!
# What the sections do to the requests

One lemma for each section of the asynchronous path, about the table, the block map
and the fifo. Most sections only turn blocks to `COPIED`; the others cut a request,
add one, or empty a bucket.
-/

namespace FzzOverlay

/-- Byte `i` is in the range of the request. -/
def CopyReq.Covers (r : CopyReq) (i : ℕ) : Prop := r.offset ≤ i ∧ i < r.offset + r.len

namespace AsyncState

variable {s t u : AsyncState} {f : CowFile}

/-- Byte `i` waits for the request of block `b`. -/
def Pending (s : AsyncState) (b i : ℕ) : Prop :=
  s.status b = .copying ∧ ∃ r ∈ s.table, r.blockId = b ∧ r.Covers i

/-- Blocks may have become copied; table and fifo are as they were. -/
structure Settles (s t : AsyncState) : Prop where
  table : t.table = s.table
  fifo : t.fifo = s.fifo
  status : ∀ b, t.status b = s.status b ∨ t.status b = .copied

theorem Settles.refl (s : AsyncState) : Settles s s := ⟨rfl, rfl, fun _ => .inl rfl⟩

theorem Settles.trans (h : Settles s t) (h' : Settles t u) : Settles s u := by
  refine ⟨h'.table.trans h.table, h'.fifo.trans h.fifo, fun b => ?_⟩
  rcases h'.status b with hb | hb
  · rw [hb]
    exact h.status b
  · exact .inr hb

theorem settles_setStatus (s : AsyncState) (b : ℕ) : Settles s (s.setStatus b .copied) := by
  refine ⟨rfl, rfl, fun c => ?_⟩
  by_cases hc : c = b
  · rw [hc]
    exact .inr (Function.update_self _ _ _)
  · exact .inl (Function.update_of_ne hc _ _)

theorem settles_upper (s : AsyncState) (upper : File) : Settles s { s with upper := upper } :=
  ⟨rfl, rfl, fun _ => .inl rfl⟩

theorem settles_copyRange (s : AsyncState) (f : CowFile) (env : CopyEnv) (pos len : ℕ) :
    Settles s (s.copyRange f env pos len).2 := settles_upper s _

theorem settles_speedBlockCopy (s : AsyncState) (f : CowFile) (env : CopyEnv) (b : ℕ) :
    Settles s (s.speedBlockCopy f env b).2 := by
  unfold speedBlockCopy
  cases s.findReq b with
  | none => exact .refl s
  | some r =>
    have hcopy := settles_copyRange s f env r.offset r.len
    dsimp only
    split
    · exact hcopy
    · exact hcopy.trans (settles_setStatus _ b)

theorem settles_readerSpeed (s : AsyncState) (f : CowFile) (env : CopyEnv) (b : ℕ) :
    Settles s (s.readerSpeed f env b) := by
  unfold readerSpeed
  split
  · exact settles_speedBlockCopy s f env b
  · exact .refl s

theorem settles_runReq (envs : ℕ → CopyEnv) (s : AsyncState) (r : CopyReq) :
    Settles s (runReq f envs s r) := by
  unfold runReq
  split
  · exact .refl s
  · exact (settles_copyRange s f _ _ _).trans (settles_setStatus _ _)

theorem settles_runReqs (envs : ℕ → CopyEnv) (rs : List CopyReq) (s : AsyncState) :
    Settles s (rs.foldl (runReq f envs) s) := by
  induction rs generalizing s with
  | nil => exact .refl s
  | cons r rs ih => exact (settles_runReq envs s r).trans (ih _)

/-- A copy, its error check, and the mark on block `b`. -/
theorem settles_copyRange_setStatus (s : AsyncState) (f : CowFile) (env : CopyEnv)
    (pos len b : ℕ) :
    Settles s (if (s.copyRange f env pos len).1 < 0 then s.copyRange f env pos len
      else (0, (s.copyRange f env pos len).2.setStatus b .copied)).2 := by
  have hcopy := settles_copyRange s f env pos len
  split
  · exact hcopy
  · exact hcopy.trans (settles_setStatus _ b)

theorem settles_sameSection (s : AsyncState) (f : CowFile) (env : CopyEnv) (b : ℕ) :
    Settles s (s.sameSection f env b).2 := by
  unfold sameSection
  cases s.status b with
  | uncopy => exact settles_copyRange_setStatus s f env _ _ b
  | copying => exact settles_speedBlockCopy s f env b
  | copied => exact .refl s

theorem appendSection_of_uncopy (env : CopyEnv) (h : s.status f.blockCount = .uncopy) :
    ∃ pos len, s.appendSection f env =
      if (s.copyRange f env pos len).1 < 0 then s.copyRange f env pos len
      else (0, (s.copyRange f env pos len).2.setStatus f.blockCount .copied) := by
  refine ⟨lastBlockStart f.blockCount, usub64 f.lower.size (lastBlockStart f.blockCount), ?_⟩
  unfold appendSection
  simp only [h, if_true]

theorem settles_appendSection (s : AsyncState) (f : CowFile) (env : CopyEnv) :
    Settles s (s.appendSection f env).2 := by
  by_cases h : s.status f.blockCount = .uncopy
  · obtain ⟨pos, len, heq⟩ := appendSection_of_uncopy env h
    rw [heq]
    exact settles_copyRange_setStatus s f env pos len f.blockCount
  · rw [appendSection, if_neg h]
    exact .refl s

/-- The marking loop turns blocks between `i` and `last` to copied. -/
theorem settles_markCopied (blockCount last fuel i : ℕ) (s : AsyncState) :
    Settles s (markCopied blockCount last fuel i s) ∧
      ∀ b, last < b → (markCopied blockCount last fuel i s).status b = s.status b := by
  induction fuel generalizing i s with
  | zero => exact ⟨.refl s, fun _ _ => rfl⟩
  | succ fuel ih =>
    unfold markCopied
    split
    · exact ⟨.refl s, fun _ _ => rfl⟩
    · rename_i hi
      set s' := { s.setStatus i .copied with copyCount := s.copyCount + 1 } with hs'
      have hone : Settles s s' := by
        have h := settles_setStatus s i
        exact ⟨h.table, h.fifo, h.status⟩
      obtain ⟨hset, hkeep⟩ := ih (i + 1) s'
      refine ⟨hone.trans hset, fun b hb => ?_⟩
      rw [hkeep b hb]
      exact Function.update_of_ne (by omega) _ _

/-- The first request of a block, and what changing it leaves of the table. -/
theorem updateFirst_of_findReq {b : ℕ} {r : CopyReq} (h : s.findReq b = some r)
    (g : CopyReq → CopyReq) :
    r.blockId = b ∧ ∃ l₁ l₂, s.table = l₁ ++ r :: l₂ ∧
      updateFirst b g s.table = l₁ ++ g r :: l₂ := by
  have happ := List.find?_eq_some_iff_append.mp h
  obtain ⟨hb, l₁, l₂, htab, hl₁⟩ := happ
  have hb' : r.blockId = b := by simpa using hb
  refine ⟨hb', l₁, l₂, htab, ?_⟩
  rw [htab]
  clear h htab
  induction l₁ with
  | nil => simp [updateFirst, hb']
  | cons q l₁ ih =>
    have hq : q.blockId ≠ b := by simpa using hl₁ q List.mem_cons_self
    rw [List.cons_append, updateFirst, if_neg hq, ih fun x hx => hl₁ x (List.mem_cons_of_mem _ hx),
      List.cons_append]

/-- Cutting a range out of the request of block `b`: nothing happens, or the request
is replaced by what `trim` leaves of it, and the block is copied if that is nothing. -/
theorem trimReq_cases (s : AsyncState) (b pos len : ℕ) (junk : ℕ × ℕ) :
    (s.trimReq b pos len junk = s ∧ ∀ r, s.findReq b = some r → ¬ r.meets pos len) ∨
      ∃ r l₁ l₂, s.findReq b = some r ∧ r.meets pos len ∧ r.blockId = b ∧
        s.table = l₁ ++ r :: l₂ ∧
        (s.trimReq b pos len junk).table = l₁ ++ r.trim pos len junk :: l₂ ∧
        (s.trimReq b pos len junk).fifo = s.fifo ∧
        (((r.trim pos len junk).len = 0 ∧
            (s.trimReq b pos len junk).status = Function.update s.status b .copied) ∨
          ((r.trim pos len junk).len ≠ 0 ∧ (s.trimReq b pos len junk).status = s.status)) := by
  unfold trimReq
  cases hfind : s.findReq b with
  | none => exact .inl ⟨rfl, nofun⟩
  | some r =>
    dsimp only
    by_cases hmeets : r.meets pos len
    · obtain ⟨hb, l₁, l₂, htab, hup⟩ := updateFirst_of_findReq hfind fun r => r.trim pos len junk
      rw [if_pos hmeets]
      refine .inr ⟨r, l₁, l₂, rfl, hmeets, hb, htab, ?_⟩
      by_cases hlen : (r.trim pos len junk).len = 0
      · rw [if_pos hlen]
        exact ⟨hup, rfl, .inl ⟨hlen, rfl⟩⟩
      · rw [if_neg hlen]
        exact ⟨hup, rfl, .inr ⟨hlen, rfl⟩⟩
    · rw [if_neg hmeets]
      refine .inl ⟨rfl, fun q hq => ?_⟩
      cases hq
      exact hmeets

end AsyncState

theorem CopyReq.trim_blockId (r : CopyReq) (pos len : ℕ) (junk : ℕ × ℕ) :
    (r.trim pos len junk).blockId = r.blockId := by
  unfold CopyReq.trim
  dsimp only
  split
  · rfl
  · split <;> rfl

/-- How much of the request of the first block the section cuts out. -/
def startCut (f : CowFile) (pos : ℕ) : ℕ :=
  min (usub64 f.lower.size pos) (ovlGetBlock pos * BLOCK_SIZE - pos)

/-- How much of the request of the last block the section cuts out. -/
def endCut (f : CowFile) (stop : ℕ) : ℕ :=
  min (usub64 f.lower.size ((ovlGetBlock stop - 1) * BLOCK_SIZE))
    (stop - (ovlGetBlock stop - 1) * BLOCK_SIZE)

namespace AsyncState

variable {s : AsyncState} {f : CowFile}

/-- The section for the first block does nothing, makes a request and queues it, finds
no memory for one, or cuts the request there is. -/
theorem startSection_cases (s : AsyncState) (f : CowFile) (mem : Bool) (junk : ℕ × ℕ) (pos : ℕ) :
    (s.startSection f mem junk pos = (0, s) ∧
        ((ovlGetBlock pos - 1) * BLOCK_SIZE < pos → s.status (ovlGetBlock pos) = .copied)) ∨
      ((ovlGetBlock pos - 1) * BLOCK_SIZE < pos ∧ s.status (ovlGetBlock pos) = .uncopy ∧
        ((mem = true ∧ s.startSection f mem junk pos = (0,
            { s.addReq ⟨ovlGetBlock pos, (ovlGetBlock pos - 1) * BLOCK_SIZE,
                pos - (ovlGetBlock pos - 1) * BLOCK_SIZE⟩ with
              fifo := s.fifo ++ [ovlGetBlock pos] })) ∨
          (mem = false ∧ s.startSection f mem junk pos = (ENOMEM.ret, s)))) ∨
      ((ovlGetBlock pos - 1) * BLOCK_SIZE < pos ∧ s.status (ovlGetBlock pos) = .copying ∧
        s.startSection f mem junk pos =
          (0, s.trimReq (ovlGetBlock pos) pos (startCut f pos) junk)) := by
  by_cases hpart : (ovlGetBlock pos - 1) * BLOCK_SIZE < pos
  · cases hst : s.status (ovlGetBlock pos) with
    | uncopy =>
      refine .inr (.inl ⟨hpart, rfl, ?_⟩)
      cases mem with
      | true =>
        refine .inl ⟨rfl, ?_⟩
        unfold startSection
        simp only [hpart, hst, if_true]
      | false =>
        refine .inr ⟨rfl, ?_⟩
        unfold startSection
        simp only [hpart, hst, if_true, Bool.false_eq_true, if_false]
    | copying =>
      refine .inr (.inr ⟨hpart, rfl, ?_⟩)
      unfold startSection startCut
      simp only [hpart, hst, if_true]
    | copied =>
      refine .inl ⟨?_, fun _ => rfl⟩
      unfold startSection
      simp only [hpart, hst, if_true]
  · refine .inl ⟨?_, fun h => absurd h hpart⟩
    unfold startSection
    simp only [hpart, if_false]

/-- The section for the last block: a request always ends before the end of its last
block. -/
theorem endSection_cases (s : AsyncState) (f : CowFile) (mem : Bool) (junk : ℕ × ℕ) (stop : ℕ) :
    (s.endSection f mem junk stop = (0, s) ∧ s.status (ovlGetBlock stop) = .copied) ∨
      (s.status (ovlGetBlock stop) = .uncopy ∧
        ((mem = true ∧ s.endSection f mem junk stop =
            (0, s.addReq ⟨ovlGetBlock stop, stop, ovlGetBlock stop * BLOCK_SIZE - stop⟩)) ∨
          (mem = false ∧ s.endSection f mem junk stop = (ENOMEM.ret, s)))) ∨
      (s.status (ovlGetBlock stop) = .copying ∧ s.endSection f mem junk stop =
        (0, s.trimReq (ovlGetBlock stop) ((ovlGetBlock stop - 1) * BLOCK_SIZE)
          (endCut f stop) junk)) := by
  have hpart := lt_ovlGetBlock_mul stop
  cases hst : s.status (ovlGetBlock stop) with
  | uncopy =>
    refine .inr (.inl ⟨rfl, ?_⟩)
    cases mem with
    | true =>
      refine .inl ⟨rfl, ?_⟩
      unfold endSection
      simp only [hpart, hst, if_true]
    | false =>
      refine .inr ⟨rfl, ?_⟩
      unfold endSection
      simp only [hpart, hst, if_true, Bool.false_eq_true, if_false]
  | copying =>
    refine .inr (.inr ⟨rfl, ?_⟩)
    unfold endSection endCut
    simp only [hpart, hst, if_true]
  | copied =>
    refine .inl ⟨?_, rfl⟩
    unfold endSection
    simp only [hpart, hst, if_true]

theorem trimReq_ids (s : AsyncState) (b pos len : ℕ) (junk : ℕ × ℕ) :
    (s.trimReq b pos len junk).table.map CopyReq.blockId = s.table.map CopyReq.blockId := by
  obtain ⟨heq, -⟩ | ⟨r, l₁, l₂, -, -, -, htab, htab', -, -⟩ := trimReq_cases s b pos len junk
  · rw [heq]
  · rw [htab, htab']
    simp [CopyReq.trim_blockId]

theorem trimReq_status (s : AsyncState) (b pos len : ℕ) (junk : ℕ × ℕ) (c : ℕ) :
    (s.trimReq b pos len junk).status c = s.status c ∨
      (s.trimReq b pos len junk).status c = .copied := by
  obtain ⟨heq, -⟩ | ⟨r, l₁, l₂, -, -, -, -, -, -, ⟨-, hst⟩ | ⟨-, hst⟩⟩ :=
    trimReq_cases s b pos len junk
  · rw [heq]
    exact .inl rfl
  · rw [hst]
    by_cases hc : c = b
    · rw [hc]
      exact .inr (Function.update_self _ _ _)
    · exact .inl (Function.update_of_ne hc _ _)
  · rw [hst]
    exact .inl rfl

/-- A request that was executed in a bucket pass leaves its block copied. -/
theorem runReqs_status (envs : ℕ → CopyEnv) (rs : List CopyReq) (s : AsyncState) {r : CopyReq}
    (hr : r ∈ rs) (hlen : r.len ≠ 0) :
    (rs.foldl (runReq f envs) s).status r.blockId ≠ .copying := by
  have hcopied : ∀ (rs : List CopyReq) (u : AsyncState), u.status r.blockId ≠ .copying →
      (rs.foldl (runReq f envs) u).status r.blockId ≠ .copying := by
    intro rs u hu
    rcases (settles_runReqs (f := f) envs rs u).status r.blockId with h | h
    · rwa [h]
    · rw [h]
      exact nofun
  induction rs generalizing s with
  | nil => cases hr
  | cons q rs ih =>
    rw [List.foldl_cons]
    rcases List.mem_cons.mp hr with rfl | hr
    · refine hcopied rs _ ?_
      unfold runReq
      by_cases hst : s.status r.blockId = .copying
      · rw [if_neg (by simp [hst, hlen])]
        show Function.update _ _ _ _ ≠ _
        rw [Function.update_self]
        exact nofun
      · rwa [if_pos (.inl hst)]
    · exact ih _ hr

theorem mem_inBucket {b : ℕ} {r : CopyReq} :
    r ∈ s.inBucket f b ↔ r ∈ s.table ∧ f.bucket r.blockId = f.bucket b := by
  rw [inBucket, List.mem_filter, beq_iff_eq]

theorem mem_bucketPass_table {envs : ℕ → CopyEnv} {b : ℕ} {r : CopyReq} :
    r ∈ (s.bucketPass f envs b).table ↔ r ∈ s.table ∧ f.bucket r.blockId ≠ f.bucket b := by
  show r ∈ s.table.filter _ ↔ _
  rw [List.mem_filter]
  simp

theorem bucketPass_status (s : AsyncState) (envs : ℕ → CopyEnv) (b c : ℕ) :
    (s.bucketPass f envs b).status c = s.status c ∨ (s.bucketPass f envs b).status c = .copied :=
  (settles_runReqs envs (s.inBucket f b) s).status c

end AsyncState

end FzzOverlay

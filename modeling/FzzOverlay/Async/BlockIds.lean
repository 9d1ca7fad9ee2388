import Mathlib.Data.List.Induction
import FzzOverlay.Async.Worker
import FzzOverlay.Lib.ByteFifo

/-!
# The block ids of a pass

`block_copy_fifo` and `block_buf`: how block ids get from `async_block_write_iter` to the loop of
`ovl_block_copy`. The fifo counts bytes, and the loop goes over as many words of `block_buf` as
bytes were taken out.

## Main definitions

- `BlockFifo` — the fifo and the buffer
- `ovlBlockCopyIds` — the block ids a pass looks up
- `queued` — the ids that are in the fifo after a sequence of pushes and passes

## Main results

- `ovlBlockCopyIds_eq` — the ids of a pass that is not stopped: eight words for each id
- `blockCopy_exact_iff` — when a pass looks up exactly what it took out
-/

namespace FzzOverlay

open CString ByteFifo

def COPY_REQ_NUM : ℕ := 4096 * 800

/-- `kfifo_init` rounds the size of the buffer down to a power of two. -/
def kfifoSize (size : ℕ) : ℕ := 2 ^ Nat.log2 size

/-- A `size_t` in memory. -/
def sizeT : Codec UInt64 where
  width := 8
  width_pos := by decide
  encode := fun b => leBytes 8 b.toNat
  decode := fun bs => .ofNat (leNat bs)
  length_encode := fun b => length_leBytes 8 b.toNat
  decode_encode := by
    intro b
    have hlt : b.toNat < 256 ^ 8 := b.toNat_lt
    rw [leNat_leBytes, Nat.mod_eq_of_lt hlt, UInt64.ofNat_toNat]

/-- The size of `block_copy_fifo`, which `block_tasks` is the buffer of. -/
def blockFifoSize : ℕ := kfifoSize (COPY_REQ_NUM * sizeT.width)

/-- `block_copy_fifo` and `block_buf`. -/
structure BlockFifo (σ : Type) where
  fifo : σ
  blockBuf : Mem

/-- The loop over `block_buf` from word `i` on, with `n` words to go. `stop i` is what
`kthread_should_stop` returns behind word `i`. -/
def scanIds (word : ℕ → UInt64) (stop : ℕ → Bool) : ℕ → ℕ → List UInt64
  | 0, _ => []
  | n + 1, i => word i :: if stop i then [] else scanIds word stop n (i + 1)

section Steps

variable {σ : Type} (F : Fifo σ blockFifoSize)

/-- `kfifo_in` of `async_block_write_iter`. -/
def pushBlock (w : BlockFifo σ) (b : UInt64) : BlockFifo σ :=
  { w with fifo := F.put w.fifo (sizeT.encode b) }

/-- `kfifo_out` of `ovl_block_copy`: the bytes it takes out, whose number it returns, and what
it leaves. -/
def kfifoOut (w : BlockFifo σ) : List UInt8 × BlockFifo σ :=
  let r := F.get w.fifo (COPY_REQ_NUM * sizeT.width)
  (r.1, ⟨r.2, write w.blockBuf 0 r.1⟩)

/-- One pass of the outer loop of `ovl_block_copy`: the block ids it looks up, in order. -/
def ovlBlockCopyIds (w : BlockFifo σ) (stop : ℕ → Bool) : List UInt64 :=
  let r := kfifoOut F w
  scanIds (recordAt sizeT r.2.blockBuf) stop r.1.length 0

/-- A push of a writer, or a pass of the worker. -/
inductive FifoStep where
  | push (b : UInt64)
  | pass

def BlockFifo.step (w : BlockFifo σ) : FifoStep → BlockFifo σ
  | .push b => pushBlock F w b
  | .pass => (kfifoOut F w).2

/-- After a mount and the steps that follow it. -/
def BlockFifo.run (buf : Mem) (steps : List FifoStep) : BlockFifo σ :=
  steps.foldl (BlockFifo.step F) ⟨F.empty, buf⟩

end Steps

/-- The ids in the fifo after one more step. A push to a full fifo is lost. -/
def queuedStep (ids : List UInt64) : FifoStep → List UInt64
  | .push b => if ids.length < blockFifoSize / sizeT.width then ids ++ [b] else ids
  | .pass => []

/-- The ids that were pushed since the last pass. -/
def queued (steps : List FifoStep) : List UInt64 := steps.foldl queuedStep []

/-- The loop is stopped behind word `i`, and not before. -/
def StopsAt (stop : ℕ → Bool) (i : ℕ) : Prop := stop i = true ∧ ∀ j < i, stop j = false

section Scan

variable {word : ℕ → UInt64} {stop : ℕ → Bool}

/-- The loop goes over all its words, or up to the first one that it is stopped behind. -/
theorem scanIds_cases (word : ℕ → UInt64) (stop : ℕ → Bool) (n i : ℕ) :
    ∃ k ≤ n, scanIds word stop n i = (List.range' i k).map word ∧
      (∀ j, j + 1 < k → stop (i + j) = false) ∧ (k < n → ∃ j, k = j + 1 ∧ stop (i + j) = true) := by
  induction n generalizing i with
  | zero => exact ⟨0, Nat.le_refl 0, rfl, nofun, nofun⟩
  | succ n ih =>
    rw [scanIds]
    cases hstop : stop i with
    | true => exact ⟨1, by omega, rfl, by omega, fun _ => ⟨0, rfl, hstop⟩⟩
    | false =>
      obtain ⟨k, hk, hscan, hgo, hend⟩ := ih (i + 1)
      refine ⟨k + 1, by omega, ?_, fun j hj => ?_, fun hlt => ?_⟩
      · rw [if_neg Bool.false_ne_true, hscan, List.range'_succ, List.map_cons]
      · cases j with
        | zero => exact hstop
        | succ j =>
          rw [← Nat.add_assoc, Nat.add_right_comm]
          exact hgo j (by omega)
      · obtain ⟨j, rfl, hj⟩ := hend (by omega)
        refine ⟨j + 1, rfl, ?_⟩
        rwa [← Nat.add_assoc, Nat.add_right_comm]

theorem scanIds_never (word : ℕ → UInt64) (n i : ℕ) :
    scanIds word (fun _ => false) n i = (List.range' i n).map word := by
  obtain ⟨k, hk, hscan, -, hend⟩ := scanIds_cases word (fun _ => false) n i
  obtain hlt | rfl := Nat.lt_or_eq_of_le hk
  · obtain ⟨j, -, hj⟩ := hend hlt
    cases hj
  · exact hscan

/-- The words at the start of the buffer are the ids that were written there. -/
theorem map_recordAt_stored (m : Mem) (ids : List UInt64) :
    (List.range' 0 ids.length).map (recordAt sizeT (write m 0 (sizeT.stored ids))) = ids := by
  apply List.ext_getElem
  · rw [List.length_map, List.length_range']
  · intro i h₁ h₂
    rw [List.getElem_map, List.getElem_range', recordAt_write, Nat.zero_add, Nat.one_mul,
      List.getD_eq_getElem _ _ h₂]

/-- When a loop over the words of a buffer looks up exactly the ids that were written to its
start: it is not stopped before the last one, and behind that one the bound or a stop ends it. -/
theorem scanIds_eq_iff (m : Mem) (ids : List UInt64) (stop : ℕ → Bool) {n : ℕ}
    (hn : ids.length ≤ n) :
    scanIds (recordAt sizeT (write m 0 (sizeT.stored ids))) stop n 0 = ids ↔
      (∀ j, j + 1 < ids.length → stop j = false) ∧
        (n = ids.length ∨ ∃ j, ids.length = j + 1 ∧ stop j = true) := by
  obtain ⟨k, hk, hscan, hgo, hend⟩ :=
    scanIds_cases (recordAt sizeT (write m 0 (sizeT.stored ids))) stop n 0
  simp only [Nat.zero_add] at hgo hend
  constructor
  · intro heq
    have hlen : k = ids.length := by
      rw [← heq, hscan, List.length_map, List.length_range']
    rw [← hlen]
    refine ⟨hgo, ?_⟩
    obtain hlt | hall := Nat.lt_or_eq_of_le hk
    · exact .inr (hend hlt)
    · exact .inl hall.symm
  · rintro ⟨hpass, hstop⟩
    have hlen : k = ids.length := by
      obtain hlt | heq | hgt := Nat.lt_trichotomy k ids.length
      · obtain ⟨j, rfl, hj⟩ := hend (by omega)
        rw [hpass j hlt] at hj
        cases hj
      · exact heq
      · obtain hbound | ⟨j, hj, htrue⟩ := hstop
        · omega
        · rw [hgo j (by omega)] at htrue
          cases htrue
    rw [hscan, hlen, map_recordAt_stored]

end Scan

section Runs

variable {σ : Type} {F : Fifo σ blockFifoSize} {w : BlockFifo σ} {ids : List UInt64}

theorem blockFifoSize_eq : blockFifoSize = 2 ^ 24 := by decide

theorem blockFifoSize_le : blockFifoSize ≤ COPY_REQ_NUM * sizeT.width := by
  rw [blockFifoSize_eq]
  decide

theorem dvd_blockFifoSize : sizeT.width ∣ blockFifoSize := by
  rw [blockFifoSize_eq]
  decide

/-- A step leaves whole ids in the fifo. -/
theorem queues_step (h : Queues F sizeT w.fifo ids) (e : FifoStep) :
    Queues F sizeT (w.step F e).fifo (queuedStep ids e) := by
  cases e with
  | push b => exact h.put dvd_blockFifoSize b
  | pass => exact (h.get blockFifoSize_le).2

/-- After any steps the fifo has the ids that were pushed since the last pass. -/
theorem queues_run (F : Fifo σ blockFifoSize) (buf : Mem) (steps : List FifoStep) :
    Queues F sizeT (BlockFifo.run F buf steps).fifo (queued steps) := by
  induction steps using List.reverseRecOn with
  | nil => exact Queues.empty F sizeT
  | append_singleton steps e ih =>
    rw [BlockFifo.run, queued, List.foldl_concat, List.foldl_concat]
    exact queues_step ih e

/-- A pass goes over eight words for each id. -/
theorem ovlBlockCopyIds_eq (h : Queues F sizeT w.fifo ids) (stop : ℕ → Bool) :
    ovlBlockCopyIds F w stop =
      scanIds (recordAt sizeT (write w.blockBuf 0 (sizeT.stored ids))) stop (8 * ids.length) 0 := by
  have hout := (h.get blockFifoSize_le).1
  rw [ovlBlockCopyIds, kfifoOut]
  simp only [hout, sizeT.length_stored]
  rfl

/-- The loop of `ovl_meta_save` is bounded by the number of bytes divided by the size of an
element. With that bound a pass that is not stopped looks up what it took out. -/
theorem scanIds_divided (h : Queues F sizeT w.fifo ids) {stop : ℕ → Bool}
    (hstop : ∀ j, stop j = false) :
    scanIds (recordAt sizeT (kfifoOut F w).2.blockBuf) stop
      ((kfifoOut F w).1.length / sizeT.width) 0 = ids := by
  have hout := (h.get blockFifoSize_le).1
  rw [kfifoOut]
  simp only [hout, sizeT.length_stored, Nat.mul_div_cancel_left _ sizeT.width_pos]
  exact (scanIds_eq_iff _ _ _ (Nat.le_refl _)).mpr ⟨fun j _ => hstop j, .inl rfl⟩

/-- The pass over the data of one file, as `AsyncState` has it, goes over these ids. -/
theorem ovlBlockCopyPass_eq_ids (h : Queues F sizeT w.fifo ids) {s : AsyncState}
    (hfifo : s.fifo = ids.map UInt64.toNat)
    (hbuf : ∀ i, s.buf i = (recordAt sizeT w.blockBuf i).toNat) (f : CowFile)
    (envs : ℕ → ℕ → CopyEnv) :
    s.ovlBlockCopyPass f envs =
      (ovlBlockCopyIds F w fun _ => false).zipIdx.foldl
        (fun s p => s.bucketPass f (envs p.2) p.1.toNat)
        { s with
          fifo := []
          buf := fun i => (recordAt sizeT (kfifoOut F w).2.blockBuf i).toNat } := by
  have hwords : ∀ i, (if i < ids.length then (ids.map UInt64.toNat).getD i 0 else s.buf i) =
      (recordAt sizeT (write w.blockBuf 0 (sizeT.stored ids)) i).toNat := by
    intro i
    rw [recordAt_write, hbuf]
    by_cases hi : i < ids.length
    · rw [if_pos hi, List.getD_eq_getElem _ _ (by rwa [List.length_map]),
        List.getD_eq_getElem _ _ hi, List.getElem_map]
    · rw [if_neg hi, List.getD_eq_default _ _ (Nat.le_of_not_lt hi)]
  have hzip : ∀ (word : ℕ → UInt64) n, ((List.range' 0 n).map word).zipIdx =
      (List.range n).map fun i => (word i, i) := by
    intro word n
    apply List.ext_getElem
    · simp
    · intro i h₁ h₂
      simp
  rw [ovlBlockCopyIds_eq h, scanIds_never, hzip, List.foldl_map, AsyncState.ovlBlockCopyPass,
    kfifoOut]
  simp only [(h.get blockFifoSize_le).1, hfifo, List.length_map, hwords]

/-- The ids a pass looks up. After any pushes and passes it takes out the ids that were pushed
since the last pass, and it looks up exactly these if and only if there are none or it is
stopped just behind the last one. -/
theorem blockCopy_exact_iff (F : Fifo σ blockFifoSize) (buf : Mem) (steps : List FifoStep)
    (stop : ℕ → Bool) :
    (kfifoOut F (BlockFifo.run F buf steps)).1 = sizeT.stored (queued steps) ∧
      (ovlBlockCopyIds F (BlockFifo.run F buf steps) stop = queued steps ↔
        queued steps = [] ∨ StopsAt stop ((queued steps).length - 1)) := by
  have hqueues := queues_run F buf steps
  generalize queued steps = ids at hqueues ⊢
  refine ⟨(hqueues.get blockFifoSize_le).1, ?_⟩
  rw [ovlBlockCopyIds_eq hqueues, scanIds_eq_iff _ _ _ (by omega), ← List.length_eq_zero_iff,
    StopsAt]
  constructor
  · rintro ⟨hpass, hbound | ⟨j, hj, hstop⟩⟩
    · exact .inl (by omega)
    · refine .inr ⟨by rwa [hj, Nat.add_sub_cancel], fun i hi => hpass i (by omega)⟩
  · rintro (hnone | ⟨hstop, hpass⟩)
    · exact ⟨fun j hj => by omega, .inl (by omega)⟩
    · refine ⟨fun j hj => hpass j (by omega), ?_⟩
      by_cases hnone : ids.length = 0
      · exact .inl (by omega)
      · exact .inr ⟨ids.length - 1, by omega, hstop⟩

end Runs

/-- Two ids and a pass, and then one more id. -/
def leftoverSteps : List FifoStep := [.push 1, .push 2, .pass, .push 3]

/-- The second id of the first pass is looked up again in the second one. -/
theorem leftover_lookedUp :
    queued leftoverSteps = [3] ∧
      (2 : UInt64) ∈ ovlBlockCopyIds (Fifo.ofList blockFifoSize)
        (BlockFifo.run (Fifo.ofList blockFifoSize) (fun _ => 0) leftoverSteps) fun _ => false := by
  have hthree : queued leftoverSteps = [3] := by decide
  have htwo : queued [.push 1, .push 2] = [1, 2] := by decide
  refine ⟨hthree, ?_⟩
  have hqueues := queues_run (Fifo.ofList blockFifoSize) (fun _ => 0) leftoverSteps
  have hbefore := queues_run (Fifo.ofList blockFifoSize) (fun _ => 0) [.push 1, .push 2]
  rw [hthree] at hqueues
  rw [htwo] at hbefore
  rw [ovlBlockCopyIds_eq hqueues, scanIds_never]
  refine List.mem_map.mpr ⟨1, by decide, ?_⟩
  rw [recordAt_write]
  show recordAt sizeT (kfifoOut (Fifo.ofList blockFifoSize)
    (BlockFifo.run (Fifo.ofList blockFifoSize) (fun _ => 0) [.push 1, .push 2])).2.blockBuf 1 = 2
  rw [kfifoOut]
  simp only [(hbefore.get blockFifoSize_le).1]
  rw [recordAt_write]
  rfl

end FzzOverlay

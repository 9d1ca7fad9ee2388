import Mathlib.Data.List.Induction
import FzzOverlay.File.Write

/-!
# The block map file

`ovl_open_meta` of `util.c`, from behind its early return on, and the body of
`ovl_meta_save` of `super.c`. The file holds `block_count` in four bytes, the byte
`copy_done`, and one byte for each block. `kernel_write` advances the position it is
given, and `ovl_meta_save` advances it once more.
-/

namespace FzzOverlay

open SparseFile

/-- An `int` as it lies in memory. -/
def le32 (n : ℕ) : List UInt8 :=
  [.ofNat n, .ofNat (n / 2 ^ 8), .ofNat (n / 2 ^ 16), .ofNat (n / 2 ^ 24)]

def ofLe32 (xs : List UInt8) : ℕ :=
  (xs.getD 0 0).toNat + 2 ^ 8 * (xs.getD 1 0).toNat + 2 ^ 16 * (xs.getD 2 0).toNat +
    2 ^ 24 * (xs.getD 3 0).toNat

theorem ofLe32_le32 {n : ℕ} (h : n < 2 ^ 32) : ofLe32 (le32 n) = n := by
  simp only [ofLe32, le32, List.getD_cons_zero, List.getD_cons_succ, UInt8.toNat_ofNat']
  omega

/-- The fields of `struct ovl_inode` that the file is about. `block_status` points to
bytes. -/
structure MetaInode where
  blockStatus : ℕ → UInt8
  blockCount : ℕ
  cowStatus : Bool

/-- The load branch. Its `kernel_read`s cover what the file has. A negative count is
refused. -/
def loadMeta (oi : MetaInode) (m : File) : MetaInode :=
  let blockCount := ofLe32 (m.read 0 4)
  let cells := m.read 5 blockCount
  if 2 ^ 31 ≤ blockCount then oi
  else
    ⟨fun i => if i < cells.length then cells.getD i 0 else oi.blockStatus i, blockCount,
      (m.read 4 1).getD 0 0 != 0⟩

/-- `ovl_open_meta` on an inode without `meta_file`. If `block_count + 5` does not fit
an `int`, `kzalloc` returns `NULL` and `memset` goes through it. -/
def ovlOpenMeta (oi : MetaInode) (blockCount : ℕ) (m : File) : Outcome (MetaInode × File) :=
  if m.size = 0 then
    if blockCount + 5 < 2 ^ 31 then
      .ret (oi, m.write 0 (le32 blockCount ++ List.replicate (blockCount + 1) 0))
    else .oops
  else .ret (loadMeta oi m, m)

/-- The `while (len)` loop of `ovl_meta_save`: `written` is the position. -/
def metaSaveLoop : ℕ → ℕ → ℕ → File → File
  | 0, _, _, m => m
  | fuel + 1, len, written, m =>
    if len = 0 then m
    else
      let toWrite := if 4096 < len then 4096 else len
      metaSaveLoop fuel (len - toWrite) (written + toWrite + toWrite)
        (m.write written (List.replicate toWrite 1))

/-- One task of `ovl_meta_save`. The difference is an `unsigned int`. -/
def ovlMetaSave (m : File) (task : MetaSaveTask) : File :=
  let len := (task.stop + (2 ^ 32 - task.start) + 1) % 2 ^ 32
  metaSaveLoop len len 5 m

/-- Block `i` is in the range of a task. -/
def Saved (tasks : List MetaSaveTask) (i : ℕ) : Prop := ∃ t ∈ tasks, t.start ≤ i ∧ i ≤ t.stop

/-- A new file for `blockCount` blocks, the tasks, and a load into `oi`: the map, the
count and the mode are those of the blocks that were saved. -/
def Reloads (oi₀ oi : MetaInode) (blockCount : ℕ) (tasks : List MetaSaveTask) : Prop :=
  ∃ m oi', ovlOpenMeta oi₀ blockCount .empty = .ret (oi₀, m) ∧
    ovlOpenMeta oi 0 (tasks.foldl ovlMetaSave m) = .ret (oi', tasks.foldl ovlMetaSave m) ∧
    oi'.blockCount = blockCount ∧
    (∀ i, 1 ≤ i → i ≤ blockCount → (oi'.blockStatus i = 1 ↔ Saved tasks i)) ∧
    (oi'.cowStatus = true ↔ ∃ i, 1 ≤ i ∧ i ≤ blockCount ∧ ¬ Saved tasks i)

/-- The offsets the loop stores at: chunks of 4096 bytes, 8192 apart. -/
def InChunks (len written p : ℕ) : Prop :=
  ∃ k, 4096 * k < len ∧ written + 8192 * k ≤ p ∧
    p < written + 8192 * k + min 4096 (len - 4096 * k)

theorem inChunks_of_first {len written p : ℕ} (h₁ : written ≤ p)
    (h₂ : p < written + min 4096 len) : InChunks len written p :=
  ⟨0, by omega, by omega, by omega⟩

/-- After the first chunk the offsets are those of the rest, 8192 further on. -/
theorem inChunks_succ {len written p : ℕ} (hp : written + min 4096 len ≤ p)
    (h : InChunks len written p) : InChunks (len - 4096) (written + 8192) p := by
  obtain ⟨k, hk, h₁, h₂⟩ := h
  cases k with
  | zero => omega
  | succ k => exact ⟨k, by omega, by omega, by omega⟩

theorem inChunks_of_succ {len written p : ℕ} (h : InChunks (len - 4096) (written + 8192) p) :
    InChunks len written p := by
  obtain ⟨k, hk, h₁, h₂⟩ := h
  exact ⟨k + 1, by omega, by omega, by omega⟩

theorem metaSaveLoop_size (fuel len written : ℕ) (m : File) :
    m.size ≤ (metaSaveLoop fuel len written m).size := by
  induction fuel generalizing len written m with
  | zero => exact le_rfl
  | succ fuel ih =>
    rw [metaSaveLoop]
    split
    · exact le_rfl
    · exact Nat.le_trans (size_le_write m _ _) (ih _ _ _)

/-- The loop stores ones in its chunks and leaves the rest of the file. -/
theorem metaSaveLoop_cell (fuel len written : ℕ) (m : File) (p : ℕ) (hfuel : len ≤ fuel) :
    (InChunks len written p → (metaSaveLoop fuel len written m).cell p = 1) ∧
      (¬ InChunks len written p → (metaSaveLoop fuel len written m).cell p = m.cell p) := by
  induction fuel generalizing len written m with
  | zero =>
    refine ⟨fun h => ?_, fun _ => rfl⟩
    obtain ⟨k, hk, -⟩ := h
    omega
  | succ fuel ih =>
    rw [metaSaveLoop]
    by_cases h0 : len = 0
    · rw [if_pos h0]
      refine ⟨fun h => ?_, fun _ => rfl⟩
      obtain ⟨k, hk, -⟩ := h
      omega
    rw [if_neg h0]
    dsimp only
    by_cases hlong : 4096 < len
    · rw [if_pos hlong]
      obtain ⟨hin, hout⟩ := ih (len - 4096) (written + 4096 + 4096)
        (m.write written (List.replicate 4096 1)) (by omega)
      have hlen : (List.replicate 4096 (1 : UInt8)).length = 4096 := List.length_replicate
      by_cases hrest : InChunks (len - 4096) (written + 4096 + 4096) p
      · exact ⟨fun _ => hin hrest, fun h => absurd (inChunks_of_succ hrest) h⟩
      · rw [hout hrest]
        by_cases hfirst : written ≤ p ∧ p < written + 4096
        · rw [write_cell_of_mem m hfirst.1 (by rw [hlen]; exact hfirst.2)]
          refine ⟨fun _ => ?_, fun h => absurd (inChunks_of_first hfirst.1 (by omega)) h⟩
          rw [List.getD_eq_getElem?_getD, List.getElem?_replicate, if_pos (by omega)]
          rfl
        · rw [write_cell_of_not_mem m (by rw [hlen]; omega)]
          refine ⟨fun h => absurd (inChunks_succ ?_ h) hrest, fun _ => rfl⟩
          obtain ⟨k, -, h₁, -⟩ := h
          omega
    · rw [if_neg hlong, Nat.sub_self]
      have hnone : ∀ w, ¬ InChunks 0 w p := by
        rintro w ⟨k, hk, -⟩
        omega
      rw [(ih 0 (written + len + len) (m.write written (List.replicate len 1)) (by omega)).2
        (hnone _)]
      have hlen : (List.replicate len (1 : UInt8)).length = len := List.length_replicate
      by_cases hfirst : written ≤ p ∧ p < written + len
      · rw [write_cell_of_mem m hfirst.1 (by rw [hlen]; exact hfirst.2)]
        refine ⟨fun _ => ?_, fun h => absurd (inChunks_of_first hfirst.1 (by omega)) h⟩
        rw [List.getD_eq_getElem?_getD, List.getElem?_replicate, if_pos (by omega)]
        rfl
      · rw [write_cell_of_not_mem m (by rw [hlen]; omega)]
        refine ⟨fun h => ?_, fun _ => rfl⟩
        obtain ⟨k, hk, h₁, h₂⟩ := h
        omega

/-- A task as `block_write_iter` queues it. -/
def MetaSaveTask.Valid (blockCount : ℕ) (t : MetaSaveTask) : Prop :=
  1 ≤ t.start ∧ t.start ≤ t.stop ∧ t.stop ≤ blockCount

theorem ovlMetaSave_eq {blockCount : ℕ} {t : MetaSaveTask} (m : File) (hbc : blockCount < 2 ^ 31)
    (ht : t.Valid blockCount) :
    ovlMetaSave m t = metaSaveLoop (t.stop + 1 - t.start) (t.stop + 1 - t.start) 5 m := by
  obtain ⟨h₁, h₂, h₃⟩ := ht
  have hlen : (t.stop + (2 ^ 32 - t.start) + 1) % 2 ^ 32 = t.stop + 1 - t.start := by omega
  rw [ovlMetaSave, hlen]

/-- The file after the tasks: ones in the chunks of some task, all else as it was. -/
theorem saveTasks_cell {blockCount : ℕ} {tasks : List MetaSaveTask} (m : File)
    (hbc : blockCount < 2 ^ 31) (ht : ∀ t ∈ tasks, t.Valid blockCount) (p : ℕ) :
    m.size ≤ (tasks.foldl ovlMetaSave m).size ∧
      ((∃ t ∈ tasks, InChunks (t.stop + 1 - t.start) 5 p) →
        (tasks.foldl ovlMetaSave m).cell p = 1) ∧
      ((tasks.foldl ovlMetaSave m).cell p = m.cell p ∨
        ∃ t ∈ tasks, InChunks (t.stop + 1 - t.start) 5 p) := by
  induction tasks using List.reverseRecOn with
  | nil => exact ⟨le_rfl, fun ⟨t, hmem, _⟩ => absurd hmem List.not_mem_nil, .inl rfl⟩
  | append_singleton tasks t ih =>
    rw [List.foldl_append, List.foldl_cons, List.foldl_nil,
      ovlMetaSave_eq _ hbc (ht t (by simp))]
    obtain ⟨hsize, hone, hkeep⟩ := ih fun q hq => ht q (by simp [hq])
    obtain ⟨hin, hout⟩ := metaSaveLoop_cell _ (t.stop + 1 - t.start) 5
      (tasks.foldl ovlMetaSave m) p le_rfl
    refine ⟨Nat.le_trans hsize (metaSaveLoop_size _ _ _ _), fun h => ?_, ?_⟩
    · by_cases hlast : InChunks (t.stop + 1 - t.start) 5 p
      · exact hin hlast
      · rw [hout hlast]
        obtain ⟨q, hq, hchunk⟩ := h
        rcases List.mem_append.mp hq with hq | hq
        · exact hone ⟨q, hq, hchunk⟩
        · obtain rfl := List.mem_singleton.mp hq
          exact absurd hchunk hlast
    · by_cases hlast : InChunks (t.stop + 1 - t.start) 5 p
      · exact .inr ⟨t, by simp, hlast⟩
      · rw [hout hlast]
        rcases hkeep with hkeep | ⟨q, hq, hchunk⟩
        · exact .inl hkeep
        · exact .inr ⟨q, by simp [hq], hchunk⟩

/-- The new file, byte by byte. -/
theorem freshMeta_spec (blockCount : ℕ) (hbc : blockCount + 5 < 2 ^ 31) :
    ∃ m : File, (∀ oi, ovlOpenMeta oi blockCount .empty = .ret (oi, m)) ∧
      m.size = blockCount + 5 ∧ m.read 0 4 = le32 blockCount ∧ ∀ p, 4 ≤ p → m.cell p = 0 := by
  have hlen : (le32 blockCount ++ List.replicate (blockCount + 1) 0).length = blockCount + 5 := by
    simp [le32]
  have hne : le32 blockCount ++ List.replicate (blockCount + 1) 0 ≠ [] := by simp
  refine ⟨write .empty 0 (le32 blockCount ++ List.replicate (blockCount + 1) 0),
    fun oi => by rw [ovlOpenMeta, if_pos empty_size, if_pos hbc], ?_, ?_, fun p hp => ?_⟩
  · rw [write_size_of_ne_nil _ _ hne, hlen]
    simp
  · apply List.ext_getElem?
    intro k
    rw [getElem?_read]
    by_cases hk : k < 4
    · rw [if_pos hk, get?_write_of_mem _ (by omega) (by rw [hlen]; omega)]
      rw [List.getElem?_append_left (by simp [le32]; omega)]
      simp
    · rw [if_neg hk, List.getElem?_eq_none (by simp [le32]; omega)]
  · by_cases hin : p < blockCount + 5
    · rw [write_cell_of_mem _ (by omega) (by rw [hlen]; omega), List.getD_eq_getElem?_getD,
        List.getElem?_append_right (by simp [le32]; omega), List.getElem?_replicate]
      split
      · rfl
      · rfl
    · rw [write_cell_of_not_mem _ (by rw [hlen]; omega)]
      rfl

/-- The tasks leave the first five bytes of the file alone. -/
theorem not_inChunks_header {len p : ℕ} (hp : p < 5) : ¬ InChunks len 5 p := by
  rintro ⟨k, -, h₁, -⟩
  omega

/-- What the load finds in the file: `block_status[blockCount]` is not read, and
`copy_done` is clear. -/
theorem loadMeta_saved {blockCount : ℕ} {tasks : List MetaSaveTask} {m : File} (oi : MetaInode)
    (hbc : blockCount + 5 < 2 ^ 31) (ht : ∀ t ∈ tasks, t.Valid blockCount)
    (hsize : m.size = blockCount + 5) (hhead : m.read 0 4 = le32 blockCount)
    (hzero : ∀ p, 4 ≤ p → m.cell p = 0) :
    (loadMeta oi (tasks.foldl ovlMetaSave m)).blockCount = blockCount ∧
      (loadMeta oi (tasks.foldl ovlMetaSave m)).cowStatus = false ∧
      (∀ i < blockCount, ((loadMeta oi (tasks.foldl ovlMetaSave m)).blockStatus i = 1 ↔
        ∃ t ∈ tasks, InChunks (t.stop + 1 - t.start) 5 (5 + i))) ∧
      (loadMeta oi (tasks.foldl ovlMetaSave m)).blockStatus blockCount =
        oi.blockStatus blockCount := by
  have hcell := saveTasks_cell m (show blockCount < 2 ^ 31 by omega) ht
  have hlarge := (hcell 0).1
  rw [hsize] at hlarge
  have hkept : ∀ p < 5, (tasks.foldl ovlMetaSave m).cell p = m.cell p := by
    intro p hp
    rcases (hcell p).2.2 with h | ⟨t, -, h⟩
    · exact h
    · exact absurd h (not_inChunks_header hp)
  have hread : (tasks.foldl ovlMetaSave m).read 0 4 = le32 blockCount := by
    rw [← hhead]
    apply List.ext_getElem?
    intro k
    rw [getElem?_read, getElem?_read]
    by_cases hk : k < 4
    · rw [if_pos hk, if_pos hk, get?_of_lt (by omega), get?_of_lt (by omega), hkept _ (by omega)]
    · rw [if_neg hk, if_neg hk]
  have hcount : ofLe32 ((tasks.foldl ovlMetaSave m).read 0 4) = blockCount := by
    rw [hread, ofLe32_le32 (by omega)]
  have hlen : ((tasks.foldl ovlMetaSave m).read 5 blockCount).length = blockCount := by
    rw [length_read]
    omega
  have hload : loadMeta oi (tasks.foldl ovlMetaSave m) =
      ⟨fun i => if i < blockCount then ((tasks.foldl ovlMetaSave m).read 5 blockCount).getD i 0
        else oi.blockStatus i, blockCount,
        ((tasks.foldl ovlMetaSave m).read 4 1).getD 0 0 != 0⟩ := by
    rw [loadMeta, hcount, if_neg (by omega), hlen]
  rw [hload]
  refine ⟨rfl, ?_, fun i hi => ?_, if_neg (by omega)⟩
  · rw [read_one, get?_of_lt (by omega), hkept 4 (by omega), hzero 4 le_rfl]
    rfl
  · show (if i < blockCount then _ else _) = (1 : UInt8) ↔ _
    rw [if_pos hi, List.getD_eq_getElem?_getD, getElem?_read, if_pos hi, get?_of_lt (by omega),
      Option.getD_some]
    refine ⟨fun h => ?_, (hcell (5 + i)).2.1⟩
    rcases (hcell (5 + i)).2.2 with hold | hchunk
    · rw [hold, hzero _ (by omega)] at h
      exact absurd h (by decide)
    · exact hchunk

/-- A byte of the map lies in the chunks of a task for at most `blockCount` blocks;
the last one that is read does so only if the task is for all of them. -/
theorem whole_of_inChunks {blockCount : ℕ} {t : MetaSaveTask} (ht : t.Valid blockCount)
    (h : InChunks (t.stop + 1 - t.start) 5 (5 + (blockCount - 1))) (hbc : blockCount ≤ 4096) :
    t = ⟨1, blockCount⟩ := by
  obtain ⟨k, hk, h₁, h₂⟩ := h
  obtain ⟨hs, hle, hstop⟩ := ht
  obtain ⟨start, stop⟩ := t
  have hk0 : k = 0 := by omega
  subst hk0
  simp only at *
  rw [show start = 1 by omega, show stop = blockCount by omega]

/-- The map reloads to itself if and only if there is no block at all, or there are at
most 4096, one task is for all of them, and `block_status[block_count]` was already set
in the buffer that is loaded into. -/
theorem block_map_reloads_iff (oi₀ oi : MetaInode) (blockCount : ℕ) (tasks : List MetaSaveTask)
    (ht : ∀ t ∈ tasks, t.Valid blockCount) :
    Reloads oi₀ oi blockCount tasks ↔ blockCount = 0 ∨
      (blockCount ≤ 4096 ∧ ⟨1, blockCount⟩ ∈ tasks ∧ oi.blockStatus blockCount = 1) := by
  by_cases hbc : blockCount + 5 < 2 ^ 31
  swap
  · refine ⟨fun h => ?_, fun h => ?_⟩
    · obtain ⟨m, oi', hopen, -⟩ := h
      rw [ovlOpenMeta, if_pos empty_size, if_neg hbc] at hopen
      cases hopen
    · omega
  obtain ⟨m, hfresh, hsize, hhead, hzero⟩ := freshMeta_spec blockCount hbc
  obtain ⟨hcount, hcow, hmap, hlast⟩ := loadMeta_saved oi hbc ht hsize hhead hzero
  have hopen : ovlOpenMeta oi 0 (tasks.foldl ovlMetaSave m) =
      .ret (loadMeta oi (tasks.foldl ovlMetaSave m), tasks.foldl ovlMetaSave m) := by
    have hlarge := (saveTasks_cell m (show blockCount < 2 ^ 31 by omega) ht 0).1
    rw [ovlOpenMeta, if_neg (by omega)]
  constructor
  · rintro ⟨m', oi', hopen', hload, -, hstatus, hmode⟩
    rw [hfresh] at hopen'
    cases hopen'
    rw [hopen] at hload
    cases hload
    by_cases h0 : blockCount = 0
    · exact .inl h0
    -- The mode is clear, so every block was saved.
    have hall : ∀ i, 1 ≤ i → i ≤ blockCount → Saved tasks i := by
      intro i h₁ h₂
      by_contra hno
      have := hmode.mpr ⟨i, h₁, h₂, hno⟩
      rw [hcow] at this
      cases this
    have hbyte : ∀ i, 1 ≤ i → i < blockCount →
        ∃ t ∈ tasks, InChunks (t.stop + 1 - t.start) 5 (5 + i) := by
      intro i h₁ h₂
      exact (hmap i h₂).mp ((hstatus i h₁ (Nat.le_of_lt h₂)).mpr (hall i h₁ (Nat.le_of_lt h₂)))
    have hset : oi.blockStatus blockCount = 1 := by
      rw [← hlast]
      exact (hstatus blockCount (by omega) le_rfl).mpr (hall _ (by omega) le_rfl)
    have hsmall : blockCount ≤ 4096 := by
      by_contra hbig
      obtain ⟨t, -, k, -, h₁, h₂⟩ := hbyte 4096 (by omega) (by omega)
      omega
    refine .inr ⟨hsmall, ?_, hset⟩
    by_cases h1 : blockCount = 1
    · obtain ⟨t, hmem, -⟩ := hall 1 le_rfl (by omega)
      obtain ⟨hs, hle, hstop⟩ := ht t hmem
      obtain ⟨start, stop⟩ := t
      simp only at *
      rw [show start = 1 by omega, show stop = blockCount by omega] at hmem
      exact hmem
    · obtain ⟨t, hmem, hchunk⟩ := hbyte (blockCount - 1) (by omega) (by omega)
      rwa [whole_of_inChunks (ht t hmem) hchunk hsmall] at hmem
  · intro h
    refine ⟨m, _, hfresh oi₀, hopen, hcount, ?_, ?_⟩
    · intro i h₁ h₂
      obtain rfl | ⟨hsmall, hmem, hset⟩ := h
      · omega
      have hsaved : Saved tasks i := ⟨_, hmem, h₁, h₂⟩
      refine ⟨fun _ => hsaved, fun _ => ?_⟩
      by_cases hi : i < blockCount
      · exact (hmap i hi).mpr ⟨_, hmem, inChunks_of_first (by omega)
          (show 5 + i < 5 + min 4096 (blockCount + 1 - 1) by omega)⟩
      · obtain rfl : i = blockCount := by omega
        rw [hlast, hset]
    · rw [hcow]
      refine ⟨nofun, ?_⟩
      rintro ⟨i, h₁, h₂, hno⟩
      obtain rfl | ⟨-, hmem, -⟩ := h
      · omega
      · exact absurd ⟨_, hmem, h₁, h₂⟩ hno

/-- An inode with a map of ones, and one with a map of zeros. -/
def onesMeta : MetaInode := ⟨fun _ => 1, 0, true⟩

def zerosMeta : MetaInode := ⟨fun _ => 0, 0, true⟩

theorem block_map_reloads_two : Reloads zerosMeta onesMeta 2 [⟨2, 2⟩, ⟨1, 2⟩] := by
  refine (block_map_reloads_iff zerosMeta onesMeta 2 [⟨2, 2⟩, ⟨1, 2⟩] ?_).mpr ?_
  · intro t ht
    simp only [List.mem_cons, List.not_mem_nil, or_false] at ht
    rcases ht with rfl | rfl
    · exact ⟨by decide, le_rfl, le_rfl⟩
    · exact ⟨le_rfl, by decide, le_rfl⟩
  · exact .inr ⟨by decide, by simp, rfl⟩

/-- Block 2 of two is saved. The byte goes to `block_status[0]`, so both blocks reload as
uncopied, and the mode is clear all the same. -/
theorem block_map_lost : ¬ Reloads zerosMeta zerosMeta 2 [⟨2, 2⟩] ∧
    ∃ m oi', ovlOpenMeta zerosMeta 2 .empty = .ret (zerosMeta, m) ∧
      ovlOpenMeta zerosMeta 0 (ovlMetaSave m ⟨2, 2⟩) = .ret (oi', ovlMetaSave m ⟨2, 2⟩) ∧
      (List.range 3).map oi'.blockStatus = [1, 0, 0] ∧ oi'.cowStatus = false := by
  refine ⟨?_, _, _, rfl, rfl, by decide, by decide⟩
  rintro ⟨m, oi', hopen, hload, -, hstatus, -⟩
  cases hopen
  cases hload
  exact absurd ((hstatus 2 (by decide) le_rfl).mpr ⟨⟨2, 2⟩, by simp, le_rfl, le_rfl⟩) (by decide)

end FzzOverlay

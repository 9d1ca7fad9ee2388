import FzzOverlay.Async.Requests
import FzzOverlay.File.Read

/-!
# The table of all inodes

`copying_block_table` holds the requests of every inode, each with the dentry it was
made through, in buckets chosen by block id alone. An inode may have several dentries;
the block map belongs to the inode. Here are `speed_block_copy` and the branch of
`async_block_read_iter` for a block that is being copied.
-/

namespace FzzOverlay

open SparseFile

/-- The files of an overlay inode and its block map. -/
structure CopyInode where
  lower : File
  upper : File
  status : ℕ → BlockStatus

/-- `struct block_copy_req` with its dentry. -/
structure DentryReq (δ : Type*) extends CopyReq where
  dentry : δ

/-- All inodes and the table. `log` has the `ovl_copy_up_block` calls made so far, with
what they returned. -/
structure Shared (δ ι : Type*) where
  inode : ι → CopyInode
  table : List (DentryReq δ)
  log : List (DentryReq δ × ℤ)

namespace Shared

variable {δ ι : Type*} [DecidableEq δ] [DecidableEq ι]

/-- `ovl_copy_up_block` on the range of a request, in inode `x`. -/
def copyUp (s : Shared δ ι) (env : CopyEnv) (x : ι) (r : DentryReq δ) : ℤ × Shared δ ι :=
  let c := ovlCopyUpBlock env (s.inode x).lower (s.inode x).upper r.offset r.len
  (c.1, { s with
    inode := Function.update s.inode x { s.inode x with upper := c.2 }
    log := s.log ++ [(r, c.1)] })

/-- `oi->block_status[b] = COPIED`. -/
def setCopied (s : Shared δ ι) (x : ι) (b : ℕ) : Shared δ ι :=
  { s with
    inode := Function.update s.inode x { s.inode x with
      status := Function.update (s.inode x).status b .copied } }

/-- The bucket of block `b`, with every request that hashes there. -/
def inBucket (s : Shared δ ι) (bucket : ℕ → ℕ) (b : ℕ) : List (DentryReq δ) :=
  s.table.filter fun r => bucket r.blockId == bucket b

/-- `speed_block_copy`: the first request of the bucket for this dentry and this block. -/
def speedBlockCopy (dInode : δ → ι) (bucket : ℕ → ℕ) (s : Shared δ ι) (env : CopyEnv) (d : δ)
    (b : ℕ) : ℤ × Shared δ ι :=
  match (s.inBucket bucket b).find? fun r => r.dentry == d && r.blockId == b with
  | none => (0, s)
  | some r =>
    let c := s.copyUp env (dInode d) r
    if c.1 < 0 then c else (c.1, c.2.setCopied (dInode d) b)

end Shared

/-- The variables of `async_block_read_iter` that its branches use, and the bytes
delivered so far. -/
structure ReadVars where
  pos : ℕ
  count : ℕ
  ret : ℕ
  lowerEnd : Bool
  out : List UInt8

/-- How a branch ends: the loop goes round again, or the call returns. -/
inductive ReadPass where
  | again (v : ReadVars)
  | done (ret : ℤ) (v : ReadVars)

def ReadPass.out : ReadPass → List UInt8
  | .again v => v.out
  | .done _ v => v.out

/-- `vfs_iter_read` of the upper file and what follows it in the branch. -/
def readUpper (o : VfsRead) (upper : File) (v : ReadVars) : ReadPass :=
  match o.run upper v.pos (chunk v.pos v.count) with
  | .error _ => .done v.ret v
  | .ok bs =>
    if bs = [] ∧ v.lowerEnd then .done v.ret v
    else .again { v with
      pos := v.pos + bs.length, count := v.count - bs.length, ret := v.ret + bs.length,
      out := v.out ++ bs }

namespace Shared

variable {δ ι : Type*} [DecidableEq δ] [DecidableEq ι]

/-- The `COPYING` branch of `async_block_read_iter`. What `speed_block_copy` returns is
not looked at. -/
def copyingBranch (dInode : δ → ι) (bucket : ℕ → ℕ) (s : Shared δ ι) (env : CopyEnv)
    (o : VfsRead) (d : δ) (v : ReadVars) : Shared δ ι × ReadPass :=
  let b := ovlGetBlock v.pos
  let s' := if (s.inode (dInode d)).status b = .copying then
    (speedBlockCopy dInode bucket s env d b).2 else s
  (s', readUpper o (s'.inode (dInode d)).upper v)

/-- Inode `x` with what request `r` waits to copy. -/
def logical (s : Shared δ ι) (x : ι) (r : DentryReq δ) : File :=
  (s.inode x).upper.write r.offset ((s.inode x).lower.read r.offset r.len)

/-- Block `b` of inode `x` is being copied, and `q` is its request. -/
structure HasRequest (dInode : δ → ι) (s : Shared δ ι) (x : ι) (b : ℕ) (q : DentryReq δ) :
    Prop where
  copying : (s.inode x).status b = .copying
  mem : q ∈ s.table
  inode_eq : dInode q.dentry = x
  block_eq : q.blockId = b
  only : ∀ r ∈ s.table, dInode r.dentry = x → r.blockId = b → r = q

/-- A read through `d` gets the logical contents, whatever `vfs_iter_read` does; and it
returns the error of `speed_block_copy` if there is one. -/
structure ReadsLogical (dInode : δ → ι) (bucket : ℕ → ℕ) (s : Shared δ ι) (env : CopyEnv)
    (d : δ) (v : ReadVars) (q : DentryReq δ) : Prop where
  content : 0 ≤ (speedBlockCopy dInode bucket s env d (ovlGetBlock v.pos)).1 → ∀ o,
    (s.copyingBranch dInode bucket env o d v).2 = readUpper o (s.logical (dInode d) q) v
  error : (speedBlockCopy dInode bucket s env d (ovlGetBlock v.pos)).1 < 0 → ∀ o, ∃ v',
    (s.copyingBranch dInode bucket env o d v).2 =
      .done (speedBlockCopy dInode bucket s env d (ovlGetBlock v.pos)).1 v'

/-- In the range of the read, the upper file of `x` reaches as far as the request does, and
has the lower bytes where the request has them. -/
def Settled (s : Shared δ ι) (x : ι) (q : DentryReq δ) (pos n : ℕ) : Prop :=
  q.len ≠ 0 → q.offset < (s.inode x).lower.size → ∀ i, pos ≤ i → i < pos + n →
    i < q.offset + q.len → i < (s.inode x).lower.size →
    i < (s.inode x).upper.size ∧
      (q.offset ≤ i → (s.inode x).upper.cell i = (s.inode x).lower.cell i)

/-! ### Looking a request up -/

section Lookup

variable {dInode : δ → ι} {bucket : ℕ → ℕ} {s : Shared δ ι} {x : ι} {b : ℕ} {d : δ}
  {q : DentryReq δ}

omit [DecidableEq δ] [DecidableEq ι] in
theorem mem_inBucket {r : DentryReq δ} :
    r ∈ s.inBucket bucket b ↔ r ∈ s.table ∧ bucket r.blockId = bucket b := by
  rw [inBucket, List.mem_filter, beq_iff_eq]

omit [DecidableEq ι] in
/-- A reader that comes through the dentry of the request finds it. -/
theorem HasRequest.find_self (h : HasRequest dInode s (dInode d) b q) (hd : q.dentry = d) :
    ((s.inBucket bucket b).find? fun r => r.dentry == d && r.blockId == b) = some q := by
  cases hfind : (s.inBucket bucket b).find? fun r => r.dentry == d && r.blockId == b with
  | none =>
    have hq := List.find?_eq_none.mp hfind q (mem_inBucket.mpr ⟨h.mem, by rw [h.block_eq]⟩)
    simp [hd, h.block_eq] at hq
  | some r =>
    have hr := List.find?_some hfind
    have hmem := (mem_inBucket.mp (List.mem_of_find?_eq_some hfind)).1
    rw [Bool.and_eq_true, beq_iff_eq, beq_iff_eq] at hr
    rw [h.only r hmem (by rw [hr.1]) hr.2]

omit [DecidableEq ι] in
/-- A reader that comes through another dentry of the inode does not. -/
theorem HasRequest.find_other (h : HasRequest dInode s (dInode d) b q) (hd : q.dentry ≠ d) :
    ((s.inBucket bucket b).find? fun r => r.dentry == d && r.blockId == b) = none := by
  rw [List.find?_eq_none]
  intro r hr hmatch
  rw [Bool.and_eq_true, beq_iff_eq, beq_iff_eq] at hmatch
  refine hd ?_
  rw [← h.only r (mem_inBucket.mp hr).1 (by rw [hmatch.1]) hmatch.2]
  exact hmatch.1

theorem HasRequest.speedBlockCopy_other (bucket : ℕ → ℕ) (h : HasRequest dInode s (dInode d) b q)
    (hd : q.dentry ≠ d) (env : CopyEnv) : speedBlockCopy dInode bucket s env d b = (0, s) := by
  rw [speedBlockCopy, h.find_other hd]

theorem HasRequest.speedBlockCopy_self (bucket : ℕ → ℕ) (h : HasRequest dInode s (dInode d) b q)
    (hd : q.dentry = d) (env : CopyEnv) :
    (speedBlockCopy dInode bucket s env d b).1 =
        (ovlCopyUpBlock env (s.inode (dInode d)).lower (s.inode (dInode d)).upper q.offset
          q.len).1 ∧
      (0 ≤ (speedBlockCopy dInode bucket s env d b).1 →
        ((speedBlockCopy dInode bucket s env d b).2.inode (dInode d)).upper =
          s.logical (dInode d) q) := by
  rw [speedBlockCopy, h.find_self hd]
  dsimp only
  by_cases hneg : (s.copyUp env (dInode d) q).1 < 0
  · rw [if_pos hneg]
    exact ⟨rfl, fun hnn => absurd hneg (Int.not_lt.mpr hnn)⟩
  · rw [if_neg hneg]
    refine ⟨rfl, fun hnn => ?_⟩
    have hup := ovlCopyUpBlock_of_nonneg hnn
    simp only [setCopied, copyUp, Function.update_self]
    exact hup

end Lookup

end Shared

/-! ### Reading -/

theorem readUpper_eq_iff {u w : File} {v : ReadVars} :
    (∀ o, readUpper o u v = readUpper o w v) ↔
      u.read v.pos (chunk v.pos v.count) = w.read v.pos (chunk v.pos v.count) := by
  constructor
  · intro h
    have hout := congrArg ReadPass.out (h .full)
    have hfull : ∀ u : File, (readUpper .full u v).out =
        v.out ++ u.read v.pos (chunk v.pos v.count) := by
      intro u
      simp only [readUpper, VfsRead.run]
      split
      · rename_i hnil
        rw [hnil.1, List.append_nil]
        rfl
      · rfl
    rw [hfull, hfull] at hout
    exact List.append_cancel_left hout
  · intro h o
    have hrun : o.run u v.pos (chunk v.pos v.count) = o.run w v.pos (chunk v.pos v.count) := by
      cases o with
      | full => exact congrArg Except.ok h
      | short k =>
        refine congrArg Except.ok (read_eq_read_iff.mpr fun i hlo hhi => ?_)
        exact read_eq_read_iff.mp h i hlo (by omega)
      | fail e => rfl
    rw [readUpper, readUpper, hrun]

/-- What the file with the copy has in a range, compared with the file without it. -/
theorem read_write_read_eq_iff {lower upper : File} {offset len pos n : ℕ} :
    upper.read pos n = (upper.write offset (lower.read offset len)).read pos n ↔
      (len ≠ 0 → offset < lower.size → ∀ i, pos ≤ i → i < pos + n → i < offset + len →
        i < lower.size → i < upper.size ∧ (offset ≤ i → upper.cell i = lower.cell i)) := by
  by_cases hnil : len = 0 ∨ lower.size ≤ offset
  · rw [read_eq_nil_iff.mpr hnil, write_nil]
    exact ⟨fun _ h₁ h₂ => by omega, fun _ => rfl⟩
  rw [read_eq_read_iff]
  have hne : lower.read offset len ≠ [] := by rwa [Ne, read_eq_nil_iff]
  have hsize := write_size_of_ne_nil upper offset hne
  rw [length_read] at hsize
  constructor
  · intro h _ _ i hlo hhi hlen hi
    have hget := h i hlo hhi
    have hreach : i < (upper.write offset (lower.read offset len)).size := by omega
    rw [get?_of_lt hreach] at hget
    obtain ⟨hlt, hcell⟩ := get?_eq_some_iff.mp hget
    refine ⟨hlt, fun hoff => ?_⟩
    rw [hcell, write_read_cell _ _ hoff hlen hi]
  · intro h i hlo hhi
    have hi := h (by omega) (by omega) i hlo hhi
    by_cases hin : i < offset + len ∧ i < lower.size
    · obtain ⟨hlt, hcell⟩ := hi hin.1 hin.2
      rw [get?_of_lt hlt, get?_of_lt (by omega)]
      by_cases hoff : offset ≤ i
      · rw [hcell hoff, write_read_cell _ _ hoff hin.1 hin.2]
      · rw [write_cell_of_not_mem _ (.inl (by omega))]
    · have hcell : (upper.write offset (lower.read offset len)).cell i = upper.cell i := by
        apply write_cell_of_not_mem
        rw [length_read]
        omega
      by_cases hlt : i < upper.size
      · rw [get?_of_lt hlt, get?_of_lt (by omega), hcell]
      · rw [get?_of_le (by omega), get?_of_le (by omega)]

namespace Shared

variable {δ ι : Type*} [DecidableEq δ] [DecidableEq ι]

/-- The `COPYING` branch delivers the logical contents and reports a failed copy if and
only if the reader came through the dentry of the request and the copy succeeds, or it
came through another one and the bytes it reads do not depend on the copy. -/
theorem copying_read_logical_iff (dInode : δ → ι) (bucket : ℕ → ℕ) (s : Shared δ ι)
    (env : CopyEnv) (d : δ) (v : ReadVars) (q : DentryReq δ)
    (hq : HasRequest dInode s (dInode d) (ovlGetBlock v.pos) q) :
    ReadsLogical dInode bucket s env d v q ↔
      (q.dentry = d ∧ 0 ≤ (ovlCopyUpBlock env (s.inode (dInode d)).lower
          (s.inode (dInode d)).upper q.offset q.len).1) ∨
        (q.dentry ≠ d ∧ s.Settled (dInode d) q v.pos (chunk v.pos v.count)) := by
  have hbranch : ∀ o, (s.copyingBranch dInode bucket env o d v).2 = readUpper o
      ((speedBlockCopy dInode bucket s env d (ovlGetBlock v.pos)).2.inode (dInode d)).upper v := by
    intro o
    simp only [copyingBranch, hq.copying, if_true]
  by_cases hd : q.dentry = d
  · obtain ⟨hret, hup⟩ := hq.speedBlockCopy_self bucket hd env
    constructor
    · rintro ⟨-, herr⟩
      refine .inl ⟨hd, ?_⟩
      rw [← hret]
      by_contra hneg
      -- Whatever the branch returns, it is not negative.
      obtain ⟨v', hdone⟩ := herr (Int.not_le.mp hneg) (.fail EIO)
      rw [hbranch] at hdone
      injection hdone with hcode
      rw [← hcode] at hneg
      exact hneg (Int.natCast_nonneg v.ret)
    · rintro (⟨-, hnn⟩ | ⟨hne, -⟩)
      · rw [← hret] at hnn
        refine ⟨fun _ o => ?_, fun hneg => absurd hnn (Int.not_le.mpr hneg)⟩
        rw [hbranch, hup hnn]
      · exact absurd hd hne
  · have hspeed := hq.speedBlockCopy_other bucket hd env
    simp only [hspeed] at hbranch
    have hiff : (∀ o, (s.copyingBranch dInode bucket env o d v).2 =
        readUpper o (s.logical (dInode d) q) v) ↔
          s.Settled (dInode d) q v.pos (chunk v.pos v.count) := by
      simp only [hbranch]
      rw [readUpper_eq_iff]
      exact read_write_read_eq_iff
    constructor
    · rintro ⟨hcontent, -⟩
      rw [hspeed] at hcontent
      exact .inr ⟨hd, hiff.mp (hcontent (Int.le_refl 0))⟩
    · rintro (⟨heq, -⟩ | ⟨-, hset⟩)
      · exact absurd heq hd
      · refine ⟨fun _ => hiff.mpr hset, fun hneg => ?_⟩
        rw [hspeed] at hneg
        exact absurd hneg (Int.lt_irrefl 0)

/-- One inode with two dentries. Two bytes were written at offset 4095 through one of them;
the three lower bytes wait to be copied. -/
def twoAliases : Shared Bool Unit :=
  ⟨fun _ => ⟨.ofList [1, 2, 3], .write .empty 4095 [7, 7],
    fun b => if b = 1 then .copying else .uncopy⟩, [⟨⟨1, 0, 4095⟩, true⟩], []⟩

theorem twoAliases_hasRequest :
    HasRequest (fun _ : Bool => ()) twoAliases () 1 ⟨⟨1, 0, 4095⟩, true⟩ :=
  ⟨rfl, List.mem_singleton_self _, rfl, rfl, fun _ hr _ _ => List.mem_singleton.mp hr⟩

/-- A read of three bytes through the dentry of the request. -/
theorem copying_read_logical_same :
    ReadsLogical (fun _ : Bool => ()) hashMin twoAliases .plain true ⟨0, 3, 0, false, []⟩
      ⟨⟨1, 0, 4095⟩, true⟩ :=
  (copying_read_logical_iff (fun _ : Bool => ()) hashMin twoAliases .plain true
    ⟨0, 3, 0, false, []⟩ ⟨⟨1, 0, 4095⟩, true⟩ twoAliases_hasRequest).mpr
      (.inl ⟨rfl, Int.le_of_eq (ovlCopyUpBlock_plain _ _ _ _).symm⟩)

/-- The same read through the other dentry delivers the holes of the upper file. Through
the first one it does so too if a signal interrupts the copy, and reports nothing. -/
theorem copying_read_delivers_holes :
    (twoAliases.copyingBranch (fun _ : Bool => ()) hashMin .plain .full false
        ⟨0, 3, 0, false, []⟩).2 = .again ⟨3, 0, 3, false, [0, 0, 0]⟩ ∧
      (twoAliases.logical () ⟨⟨1, 0, 4095⟩, true⟩).read 0 3 = [1, 2, 3] ∧
      ¬ ReadsLogical (fun _ : Bool => ()) hashMin twoAliases .plain false ⟨0, 3, 0, false, []⟩
        ⟨⟨1, 0, 4095⟩, true⟩ ∧
      (twoAliases.copyingBranch (fun _ : Bool => ()) hashMin ⟨false, fun _ => .signal⟩ .full true
        ⟨0, 3, 0, false, []⟩).2 = .again ⟨3, 0, 3, false, [0, 0, 0]⟩ ∧
      ¬ ReadsLogical (fun _ : Bool => ()) hashMin twoAliases ⟨false, fun _ => .signal⟩ true
        ⟨0, 3, 0, false, []⟩ ⟨⟨1, 0, 4095⟩, true⟩ := by
  have hother : (twoAliases.copyingBranch (fun _ : Bool => ()) hashMin .plain .full false
      ⟨0, 3, 0, false, []⟩).2 = .again ⟨3, 0, 3, false, [0, 0, 0]⟩ := by rfl
  have hsignal : (twoAliases.copyingBranch (fun _ : Bool => ()) hashMin
      ⟨false, fun _ => .signal⟩ .full true ⟨0, 3, 0, false, []⟩).2 =
        .again ⟨3, 0, 3, false, [0, 0, 0]⟩ := by rfl
  refine ⟨hother, by rfl, fun h => ?_, hsignal, fun h => ?_⟩
  · have hout := congrArg ReadPass.out (hother.symm.trans (h.content (by decide) .full))
    exact absurd hout (by decide)
  · obtain ⟨v', hdone⟩ := h.error (by decide) .full
    rw [hsignal] at hdone
    cases hdone

end Shared

end FzzOverlay

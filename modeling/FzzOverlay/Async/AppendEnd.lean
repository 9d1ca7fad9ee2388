import FzzOverlay.Async.Touched
import FzzOverlay.Cow.Size

/-!
# Where an asynchronous append stores

Runs of `async_block_write_iter`, with the largest end offset written so far. An
`O_APPEND` write goes to the end of the upper file, which is the logical end only if the
tail of the last lower block is already there.
-/

namespace FzzOverlay

open SparseFile AsyncState

namespace AsyncState

/-- The state after a section that returned no error. -/
def proceed (r : ℤ × AsyncState) : Option AsyncState := if r.1 < 0 then none else some r.2

/-- The state in which the call reaches `copy_done`, if it does. -/
def atStore (s : AsyncState) (f : CowFile) (env : AsyncEnv) (req : WriteReq) : Option AsyncState :=
  if req.append then proceed (s.appendSection f env.copy)
  else if sameBlock req then proceed (s.sameSection f env.copy (ovlGetBlock req.pos))
  else
    (proceed (s.startSection f env.memStart env.junkStart req.pos)).bind fun s =>
      proceed (s.endSection f env.memEnd env.junkEnd (req.pos + req.data.length))

/-- The offset and the length of what is stored from there on. -/
def stored (u : AsyncState) (env : AsyncEnv) (req : WriteReq) : ℕ × ℕ :=
  (writeAt req.append u.upper req.pos,
    (writeLoop { WriteEnv.full with wr := env.wr } req.append req.data.length 0 0 req.pos
      req.data u.upper).ret)

/-- The end offset of what the call stores; 0 if it stores nothing. -/
def writtenEnd (s : AsyncState) (f : CowFile) (env : AsyncEnv) (req : WriteReq) : ℕ :=
  match s.atStore f env req with
  | none => 0
  | some u => if (u.stored env req).2 = 0 then 0 else (u.stored env req).1 + (u.stored env req).2

end AsyncState

/-- One call, with the largest end offset written so far. -/
def EndStep (f : CowFile) (p : AsyncState × ℕ) (e : AsyncEnv × WriteReq) (q : AsyncState × ℕ) :
    Prop :=
  q = ((p.1.asyncBlockWriteIter f e.1 e.2).2, max p.2 (p.1.writtenEnd f e.1 e.2))

/-- The upper file has everything that was written and nothing past the logical end. -/
structure EndInv (f : CowFile) (p : AsyncState × ℕ) : Prop where
  written_le : p.2 ≤ p.1.upper.size
  size_le : p.1.upper.size ≤ max f.lower.size p.2

section Step

variable {f : CowFile} {s u : AsyncState} {env : AsyncEnv} {req : WriteReq}

/-- Lower bytes were copied up, and nothing else. -/
def CopiesOnly (f : CowFile) (s u : AsyncState) : Prop :=
  PatchedFrom (fun _ => True) f.lower s.upper u.upper

theorem CopiesOnly.of_eq (h : u.upper = s.upper) : CopiesOnly f s u := by
  rw [CopiesOnly, h]
  exact .refl _ _ _

theorem CopiesOnly.trans {v : AsyncState} (h : CopiesOnly f s u) (h' : CopiesOnly f u v) :
    CopiesOnly f s v := PatchedFrom.trans h h'

theorem CopiesOnly.size (h : CopiesOnly f s u) :
    s.upper.size ≤ u.upper.size ∧ u.upper.size ≤ max s.upper.size f.lower.size := by
  refine ⟨h.size_le, ?_⟩
  by_contra hlt
  obtain hold | ⟨j, hj, -, hjl⟩ := h.grown (max s.upper.size f.lower.size) (by omega)
  · omega
  · omega

theorem appendSection_copiesOnly (s : AsyncState) (f : CowFile) (env : CopyEnv) :
    CopiesOnly f s (s.appendSection f env).2 := by
  by_cases h : s.status f.blockCount = .uncopy
  · obtain ⟨pos, len, heq⟩ := appendSection_of_uncopy env h
    have hcopy : CopiesOnly f s (s.copyRange f env pos len).2 :=
      copyRange_patched env pos len fun _ _ _ _ => trivial
    rw [heq]
    split
    · exact hcopy
    · exact hcopy
  · rw [appendSection, if_neg h]
    exact .of_eq rfl

theorem sameSection_copiesOnly (s : AsyncState) (f : CowFile) (env : CopyEnv) (b : ℕ) :
    CopiesOnly f s (s.sameSection f env b).2 :=
  (sameSection_patched s f env b).mono fun _ _ _ => trivial

theorem orReturn_cases (r : ℤ × AsyncState) (k : AsyncState → ℤ × AsyncState) :
    (proceed r = none ∧ orReturn r k = r) ∨ (proceed r = some r.2 ∧ orReturn r k = k r.2) := by
  unfold AsyncState.orReturn proceed
  by_cases hneg : r.1 < 0
  · exact .inl ⟨if_pos hneg, if_pos hneg⟩
  · exact .inr ⟨if_neg hneg, if_neg hneg⟩

/-- Until `copy_done` the call only copies lower bytes up; there it goes on with the
loop over `vfs_iter_write`. -/
theorem asyncBlockWriteIter_atStore (s : AsyncState) (f : CowFile) (env : AsyncEnv)
    (req : WriteReq) :
    (∃ u, s.atStore f env req = some u ∧ CopiesOnly f s u ∧
        s.asyncBlockWriteIter f env req = storeAndMark f env.wr req u) ∨
      (s.atStore f env req = none ∧ CopiesOnly f s (s.asyncBlockWriteIter f env req).2) := by
  unfold atStore asyncBlockWriteIter
  by_cases happ : req.append = true
  · have hsec := appendSection_copiesOnly s f env.copy
    rw [if_pos happ, if_pos happ]
    obtain ⟨hnone, heq⟩ | ⟨hsome, heq⟩ :=
      orReturn_cases (s.appendSection f env.copy) (storeAndMark f env.wr req)
    · rw [heq]
      exact .inr ⟨hnone, hsec⟩
    · exact .inl ⟨_, hsome, hsec, heq⟩
  rw [if_neg happ, if_neg happ]
  by_cases hsame : sameBlock req = true
  · have hsec := sameSection_copiesOnly s f env.copy (ovlGetBlock req.pos)
    rw [if_pos hsame, if_pos hsame]
    obtain ⟨hnone, heq⟩ | ⟨hsome, heq⟩ :=
      orReturn_cases (s.sameSection f env.copy (ovlGetBlock req.pos)) (storeAndMark f env.wr req)
    · rw [heq]
      exact .inr ⟨hnone, hsec⟩
    · exact .inl ⟨_, hsome, hsec, heq⟩
  rw [if_neg hsame, if_neg hsame]
  have hstart : CopiesOnly f s (s.startSection f env.memStart env.junkStart req.pos).2 :=
    .of_eq (startSection_upper s f _ _ _)
  obtain ⟨hnone, heq⟩ | ⟨hsome, heq⟩ :=
    orReturn_cases (s.startSection f env.memStart env.junkStart req.pos) fun s =>
      orReturn (s.endSection f env.memEnd env.junkEnd (req.pos + req.data.length))
        (storeAndMark f env.wr req)
  · rw [heq, hnone]
    exact .inr ⟨rfl, hstart⟩
  · rw [heq, hsome, Option.bind_some]
    set v := (s.startSection f env.memStart env.junkStart req.pos).2
    have hend : CopiesOnly f s
        (v.endSection f env.memEnd env.junkEnd (req.pos + req.data.length)).2 :=
      hstart.trans (.of_eq (endSection_upper v f _ _ _))
    obtain ⟨hnone, heq⟩ | ⟨hsome, heq⟩ :=
      orReturn_cases (v.endSection f env.memEnd env.junkEnd (req.pos + req.data.length))
        (storeAndMark f env.wr req)
    · rw [heq]
      exact .inr ⟨hnone, hend⟩
    · exact .inl ⟨_, hsome, hend, heq⟩

theorem storeAndMark_upper (f : CowFile) (wr : ℕ → VfsWrite) (req : WriteReq) (u : AsyncState) :
    (storeAndMark f wr req u).2.upper = (writeLoop { WriteEnv.full with wr := wr } req.append
      req.data.length 0 0 req.pos req.data u.upper).upper := by
  unfold storeAndMark
  dsimp only
  split
  · rw [markCopied_upper]
  · rfl

/-- What the loop over `vfs_iter_write` makes of the size. -/
theorem storeAndMark_size (f : CowFile) (u : AsyncState) (env : AsyncEnv) (req : WriteReq) :
    (storeAndMark f env.wr req u).2.upper.size = if (u.stored env req).2 = 0 then u.upper.size
      else max u.upper.size ((u.stored env req).1 + (u.stored env req).2) := by
  obtain ⟨n, hn, hup, hret, -⟩ := writeLoop_spec { WriteEnv.full with wr := env.wr } req.append
    req.data.length 0 0 req.pos req.data u.upper le_rfl
  have hstored : (u.stored env req).2 = n := hret.trans (Nat.zero_add n)
  rw [storeAndMark_upper, hup, hstored]
  by_cases h0 : n = 0
  · rw [if_pos h0, h0, List.take_zero, write_nil]
  · have hlen : (req.data.take n).length = n := by
      rw [List.length_take]
      omega
    have hne : req.data.take n ≠ [] := by
      intro hnil
      rw [hnil] at hlen
      exact h0 hlen.symm
    rw [if_neg h0, write_size_of_ne_nil _ _ hne, hlen]
    rfl

theorem EndInv.step {p q : AsyncState × ℕ} {e : AsyncEnv × WriteReq} (h : EndInv f p)
    (hs : EndStep f p e q) : EndInv f q := by
  obtain ⟨hle, hsize⟩ := h
  cases hs
  obtain ⟨u, hu, hcopy, heq⟩ | ⟨hnone, hcopy⟩ := asyncBlockWriteIter_atStore p.1 f e.1 e.2
  · obtain ⟨hgrow, hbound⟩ := hcopy.size
    have hend : p.1.writtenEnd f e.1 e.2 = if (u.stored e.1 e.2).2 = 0 then 0
        else (u.stored e.1 e.2).1 + (u.stored e.1 e.2).2 := by
      rw [writtenEnd, hu]
    have hnew := storeAndMark_size f u e.1 e.2
    rw [← heq] at hnew
    constructor
    · show max p.2 (p.1.writtenEnd f e.1 e.2) ≤ (p.1.asyncBlockWriteIter f e.1 e.2).2.upper.size
      rw [hend, hnew]
      split <;> omega
    · show (p.1.asyncBlockWriteIter f e.1 e.2).2.upper.size ≤
        max f.lower.size (max p.2 (p.1.writtenEnd f e.1 e.2))
      rw [hend, hnew]
      split <;> omega
  · obtain ⟨hgrow, hbound⟩ := hcopy.size
    have hend : p.1.writtenEnd f e.1 e.2 = 0 := by
      rw [writtenEnd, hnone]
    constructor
    · show max p.2 (p.1.writtenEnd f e.1 e.2) ≤ (p.1.asyncBlockWriteIter f e.1 e.2).2.upper.size
      omega
    · show (p.1.asyncBlockWriteIter f e.1 e.2).2.upper.size ≤
        max f.lower.size (max p.2 (p.1.writtenEnd f e.1 e.2))
      omega

/-- The `O_APPEND` branch copies up to the end of the lower file. -/
theorem appendSection_reaches (h0 : 0 < f.lower.size) (hmax : f.lower.size < 2 ^ 63)
    (hcount : f.blockCount = countBlocks f.lower.size) (env : CopyEnv)
    (h : s.status f.blockCount = .uncopy) :
    ∃ pos len, pos < f.lower.size ∧ f.lower.size ≤ pos + len ∧ s.appendSection f env =
      if (s.copyRange f env pos len).1 < 0 then s.copyRange f env pos len
      else (0, (s.copyRange f env pos len).2.setStatus f.blockCount .copied) := by
  obtain ⟨hlo, hhi⟩ := lastBlock_reaches h0 hmax
  rw [← hcount] at hlo hhi
  refine ⟨lastBlockStart f.blockCount, usub64 f.lower.size (lastBlockStart f.blockCount), hlo, hhi,
    ?_⟩
  unfold appendSection
  simp only [h, if_true]

/-- What the `O_APPEND` branch leaves: the upper file reaches the end of the lower one if
the last block was not copied, and the same bytes wait for a request. -/
theorem atStore_append (h0 : 0 < f.lower.size) (hmax : f.lower.size < 2 ^ 63)
    (hcount : f.blockCount = countBlocks f.lower.size) (happ : req.append = true)
    (hu : s.atStore f env req = some u) :
    u.upper.size = (if s.status f.blockCount = .uncopy then max s.upper.size f.lower.size
        else s.upper.size) ∧
      ∀ b i, u.Pending b i ↔ s.Pending b i := by
  rw [atStore, if_pos happ] at hu
  by_cases hst : s.status f.blockCount = .uncopy
  · obtain ⟨pos, len, hlo, hhi, heq⟩ := appendSection_reaches h0 hmax hcount env.copy hst
    rw [heq] at hu
    by_cases hneg : (s.copyRange f env.copy pos len).1 < 0
    · rw [if_pos hneg, proceed, if_pos hneg] at hu
      cases hu
    rw [if_neg hneg, proceed, if_neg (by simp)] at hu
    obtain rfl := Option.some.inj hu
    refine ⟨?_, fun b i => ?_⟩
    · have hup : (s.copyRange f env.copy pos len).2.upper =
          s.upper.write pos (f.lower.read pos len) :=
        ovlCopyUpBlock_of_nonneg (Int.not_lt.mp hneg)
      have hne : f.lower.read pos len ≠ [] := by
        rw [Ne, read_eq_nil_iff]
        omega
      show (s.copyRange f env.copy pos len).2.upper.size = _
      rw [if_pos hst, hup, write_size_of_ne_nil _ _ hne, length_read]
      omega
    · -- The last block was not waiting for a request, and is not now.
      have hstatus : ∀ c, (Function.update s.status f.blockCount .copied) c = .copying ↔
          s.status c = .copying := by
        intro c
        by_cases hc : c = f.blockCount
        · rw [hc, Function.update_self, hst]
          exact ⟨nofun, nofun⟩
        · rw [Function.update_of_ne hc]
      exact and_congr_left fun _ => hstatus b
  · rw [appendSection, if_neg hst, proceed, if_neg (by simp)] at hu
    cases hu
    rw [if_neg hst]
    exact ⟨rfl, fun _ _ => .rfl⟩

end Step

/-- If the call stores anything, it stores it at the logical end, and no byte of it waits
for a request. -/
def AppendsAtEnd (f : CowFile) (p : AsyncState × ℕ) (env : AsyncEnv) (req : WriteReq) : Prop :=
  ∀ u, p.1.atStore f env req = some u → 0 < (u.stored env req).2 →
    (u.stored env req).1 = max f.lower.size p.2 ∧
      ∀ i, (u.stored env req).1 ≤ i → i < (u.stored env req).1 + (u.stored env req).2 →
        ∀ b, ¬ u.Pending b i

/-- The last block is not copied, or the upper file reaches the end of the lower one; and
none of the `n` bytes from the end of both on waits for a request. -/
def AppendReady (f : CowFile) (s : AsyncState) (n : ℕ) : Prop :=
  (s.status f.blockCount = .uncopy ∨ f.lower.size ≤ s.upper.size) ∧
    ∀ i, max f.lower.size s.upper.size ≤ i → i < max f.lower.size s.upper.size + n →
      ∀ b, ¬ s.Pending b i

section Append

variable {f : CowFile} {p : AsyncState × ℕ}

theorem stored_le (u : AsyncState) (env : AsyncEnv) (req : WriteReq) :
    (u.stored env req).2 ≤ req.data.length := by
  obtain ⟨n, hn, -, hret, -⟩ := writeLoop_spec { WriteEnv.full with wr := env.wr } req.append
    req.data.length 0 0 req.pos req.data u.upper le_rfl
  have hstored : (u.stored env req).2 = n := hret.trans (Nat.zero_add n)
  omega

/-- If nothing fails, the call gets to the store and stores everything. -/
theorem atStore_append_plain (s : AsyncState) (f : CowFile) {req : WriteReq}
    (happ : req.append = true) (hdata : req.data ≠ []) :
    ∃ u, s.atStore f .plain req = some u ∧ (u.stored .plain req).2 = req.data.length := by
  have hok : ¬ (s.appendSection f AsyncEnv.plain.copy).1 < 0 := by
    by_cases hst : s.status f.blockCount = .uncopy
    · obtain ⟨pos, len, heq⟩ := appendSection_of_uncopy AsyncEnv.plain.copy hst
      have hzero : (s.copyRange f AsyncEnv.plain.copy pos len).1 = 0 := (copyRange_plain s f _ _).1
      rw [heq, if_neg (by omega)]
      simp
    · rw [appendSection, if_neg hst]
      simp
  refine ⟨(s.appendSection f AsyncEnv.plain.copy).2, ?_, ?_⟩
  · rw [atStore, if_pos happ, proceed, if_neg hok]
  · exact congrArg Written.ret (writeLoop_full rfl _ _ hdata _)

theorem EndInv.appendsAtEnd_iff (h : EndInv f p) (h0 : 0 < f.lower.size)
    (hmax : f.lower.size < 2 ^ 63) (hcount : f.blockCount = countBlocks f.lower.size) (pos : ℕ)
    {data : List UInt8} (hdata : data ≠ []) :
    (∀ env, AppendsAtEnd f p env ⟨pos, true, data⟩) ↔ AppendReady f p.1 data.length := by
  obtain ⟨hle, hsize⟩ := h
  constructor
  · intro hall
    obtain ⟨u, hu, hlen⟩ := atStore_append_plain p.1 f
      (show (⟨pos, true, data⟩ : WriteReq).append = true from rfl) hdata
    obtain ⟨hup, hpend⟩ := atStore_append h0 hmax hcount rfl hu
    have hpos : 0 < data.length := List.length_pos_iff.mpr hdata
    obtain ⟨hat, hclear⟩ := hall .plain u hu (by rw [hlen]; exact hpos)
    rw [hlen] at hclear
    have hat' : u.upper.size = max f.lower.size p.2 := hat
    have hend : u.upper.size = max f.lower.size p.1.upper.size := by omega
    refine ⟨?_, fun i hlo hhi b hb => ?_⟩
    · by_cases hst : p.1.status f.blockCount = .uncopy
      · exact .inl hst
      · rw [if_neg hst] at hup
        exact .inr (by omega)
    · rw [← hend] at hlo hhi
      exact hclear i hlo hhi b ((hpend b i).mpr hb)
  · rintro ⟨hready, hclear⟩ env u hu hn
    obtain ⟨hup, hpend⟩ := atStore_append h0 hmax hcount rfl hu
    have hlen := stored_le u env ⟨pos, true, data⟩
    have hend : u.upper.size = max f.lower.size p.1.upper.size := by
      rcases hready with hst | hge
      · rw [hup, if_pos hst, max_comm]
      · rw [hup]
        split <;> omega
    refine ⟨?_, fun i hlo hhi b hb => ?_⟩
    · show u.upper.size = _
      omega
    · have hlo' : u.upper.size ≤ i := hlo
      have hhi' : i < u.upper.size + (u.stored env ⟨pos, true, data⟩).2 := hhi
      refine hclear i (by omega) ?_ b ((hpend b i).mp hb)
      have : (u.stored env ⟨pos, true, data⟩).2 ≤ data.length := hlen
      omega

end Append

/-- In every state that calls reach from an empty upper file, whatever fails in them, the
next `O_APPEND` call stores at the logical end and clear of every request, in every
environment, if and only if the state is ready for it. -/
theorem async_append_at_end_iff {f : CowFile} (h0 : 0 < f.lower.size)
    (hmax : f.lower.size < 2 ^ 63) (hcount : f.blockCount = countBlocks f.lower.size)
    {s₀ : AsyncState} {p : AsyncState × ℕ} {tr : List ((AsyncState × ℕ) × (AsyncEnv × WriteReq))}
    (hempty : s₀.upper = .empty) (hrun : Lts.Run (EndStep f) (s₀, 0) tr p) (pos : ℕ)
    {data : List UInt8} (hdata : data ≠ []) :
    (∀ env, AppendsAtEnd f p env ⟨pos, true, data⟩) ↔ AppendReady f p.1 data.length := by
  have hinit : EndInv f (s₀, 0) := ⟨Nat.zero_le _, by rw [hempty]; exact Nat.zero_le _⟩
  have hinv : EndInv f p := hrun.invariant hinit fun _ _ _ h hs => h.step hs
  exact hinv.appendsAtEnd_iff h0 hmax hcount pos hdata

/-- A byte written inside the block copies the whole lower file first; an append then goes
to offset 3. -/
theorem async_append_at_end_inside :
    ∃ tr p, Lts.Run (EndStep oneBlockFile) (oneBlockStart, 0) tr p ∧ p.2 = 2 ∧
      p.1.upper.size = 3 ∧ ∀ env, AppendsAtEnd oneBlockFile p env ⟨0, true, [7]⟩ := by
  have hrun : Lts.Run (EndStep oneBlockFile) (oneBlockStart, 0) _ _ :=
    .snoc .nil (e := (.plain, ⟨1, false, [9]⟩)) rfl
  refine ⟨_, _, hrun, by decide, by decide, (async_append_at_end_iff (by decide) (by decide)
    (by decide) rfl hrun 0 (by decide)).mpr ⟨.inr (by decide), fun i _ _ b hb => ?_⟩⟩
  obtain ⟨-, r, hr, -⟩ := hb
  cases hr

/-- After one byte at offset 0 the last block is being copied and the upper file has one
byte: an append goes to offset 1, under the request for the rest of the block. -/
theorem async_append_inside_request : ∃ tr p u,
    Lts.Run (EndStep oneBlockFile) (oneBlockStart, 0) tr p ∧ p.2 = 1 ∧
    p.1.atStore oneBlockFile .plain ⟨0, true, [7]⟩ = some u ∧
    u.stored .plain ⟨0, true, [7]⟩ = (1, 1) ∧ max oneBlockFile.lower.size p.2 = 3 ∧
    u.Pending 1 1 ∧ ¬ AppendsAtEnd oneBlockFile p .plain ⟨0, true, [7]⟩ := by
  have hrun : Lts.Run (EndStep oneBlockFile) (oneBlockStart, 0) _ _ :=
    .snoc .nil (e := (.plain, ⟨0, false, [9]⟩)) rfl
  refine ⟨_, _, _, hrun, by decide, rfl, by decide, by decide,
    ⟨by decide, _, List.mem_singleton_self _, rfl, le_rfl, by decide⟩, fun hat => ?_⟩
  exact absurd (hat _ rfl (by decide)).1 (by decide)

end FzzOverlay

import FzzOverlay.File.Read

/-!
# What a read request can deliver

`OvlFile.served` is the byte `ovl_read_iter` finds at an offset. Every byte a
request delivers, in any environment, is the served byte of its offset
(`ovlReadIter_served`), and every served byte is delivered by some request
(`returns_one`), so what reads of a file can show is a property of the served bytes
alone (`readsFrom_iff`).
-/

namespace FzzOverlay

open SparseFile

namespace OvlFile

/-- The lower file uncopied blocks are read from: the cached one if it is open,
else the one the next read opens. -/
def readLower (f : OvlFile) (oi : OvlInode) : File :=
  match oi.lowerFile with
  | .opened idx => f.lowerAt idx
  | _ => f.lowerdata

/-- In copy-on-write mode the block of offset `i` is in the map and not copied. -/
def Uncopied (f : OvlFile) (i : ℕ) : Prop :=
  f.oi.cowStatus = true ∧ ovlGetBlock i ≤ f.oi.blockCount ∧
    ∃ m, f.oi.blockStatus = some m ∧ m.cells (ovlGetBlock i) = .uncopy

/-- In copy-on-write mode the block of offset `i` is in the map and copied. -/
def Copied (f : OvlFile) (i : ℕ) : Prop :=
  f.oi.cowStatus = true ∧ ovlGetBlock i ≤ f.oi.blockCount ∧
    ∃ m, f.oi.blockStatus = some m ∧ m.cells (ovlGetBlock i) ≠ .uncopy

open Classical in
/-- The byte reads find at offset `i`. Without a map, reads of blocks that should
be in it find nothing: they fault. -/
noncomputable def served (f : OvlFile) (i : ℕ) : Option UInt8 :=
  if f.Uncopied i then (f.readLower f.oi).get? i
  else if f.Copied i ∨ (f.oi.cowStatus = true ∧ f.oi.blockCount < ovlGetBlock i) then
    f.upperData.get? i
  else if f.oi.cowStatus then none
  else f.ovlInodeRealdata.get? i

theorem Copied.not_uncopied {f : OvlFile} {i : ℕ} (h : f.Copied i) : ¬ f.Uncopied i := by
  rintro ⟨-, -, m', hm', hun⟩
  obtain ⟨-, -, m, hm, hcell⟩ := h
  rw [hm] at hm'
  cases hm'
  exact hcell hun

theorem not_uncopied_of_past {f : OvlFile} {i : ℕ} (h : f.oi.blockCount < ovlGetBlock i) :
    ¬ f.Uncopied i := by
  rintro ⟨-, hle, -⟩
  omega

theorem served_of_uncopied {f : OvlFile} {i : ℕ} (h : f.Uncopied i) :
    f.served i = (f.readLower f.oi).get? i := if_pos h

theorem served_of_copied {f : OvlFile} {i : ℕ} (h : f.Copied i) :
    f.served i = f.upperData.get? i := by
  rw [served, if_neg h.not_uncopied, if_pos (.inl h)]

theorem served_of_past {f : OvlFile} {i : ℕ} (hcow : f.oi.cowStatus = true)
    (h : f.oi.blockCount < ovlGetBlock i) : f.served i = f.upperData.get? i := by
  rw [served, if_neg (not_uncopied_of_past h), if_pos (.inr ⟨hcow, h⟩)]

theorem served_of_not_cow {f : OvlFile} (hcow : f.oi.cowStatus = false) (i : ℕ) :
    f.served i = f.ovlInodeRealdata.get? i := by
  have hne : ¬ f.oi.cowStatus = true := by simp [hcow]
  rw [served, if_neg fun h => hne h.1, if_neg, if_neg hne]
  rintro (h | h)
  · exact hne h.1
  · exact hne h.1

/-- In copy-on-write mode a byte that is not from an uncopied block is one of the
upper file, of a copied block or past the map. -/
theorem served_upper {f : OvlFile} {i : ℕ} {v : UInt8} (hcow : f.oi.cowStatus = true)
    (hi : ¬ f.Uncopied i) (h : f.served i = some v) :
    (f.Copied i ∨ f.oi.blockCount < ovlGetBlock i) ∧ f.upperData.get? i = some v := by
  rw [served, if_neg hi] at h
  split at h
  · next hc =>
    refine ⟨?_, h⟩
    rcases hc with hc | hc
    · exact .inl hc
    · exact .inr hc.2
  · cases h

/-- No cached pointer that a read needs is an error value. -/
structure PtrsUsable (f : OvlFile) : Prop where
  upperFile : f.oi.upperFile.Usable
  lowerFile : ∀ i, f.Uncopied i → f.oi.lowerFile.Usable
  lower : f.lowerstack ≠ []

/-- The upper inode and the map are there as well. -/
structure Openable (f : OvlFile) : Prop extends PtrsUsable f where
  upper : f.upper.isSome
  map : f.oi.blockStatus.isSome

end OvlFile

/-- Every read that returns a count delivers that many bytes of `X`, each at its
own offset. -/
def ReadsFrom (X : File) (f : OvlFile) : Prop :=
  ∀ fuel env pos count res, ovlReadIter fuel env f pos count = .ret res → 0 ≤ res.ret →
    ∀ k, k < res.ret.toNat → ∃ v, res.out[k]? = some v ∧ X.get? (pos + k) = some v

-- ════════════════════════════════════════════════════════════════════════
-- Every delivered byte is the served byte
-- ════════════════════════════════════════════════════════════════════════

theorem VfsRead.run_ok {o : VfsRead} {file : File} {pos count : ℕ} {bs : List UInt8}
    (h : o.run file pos count = .ok bs) : ∃ n, n ≤ count ∧ bs = file.read pos n := by
  cases o with
  | full =>
    cases h
    exact ⟨count, le_rfl, rfl⟩
  | short k =>
    cases h
    exact ⟨min k count, by omega, rfl⟩
  | fail e => cases h

/-- `s'` is `s` after delivering bytes of `file`, at most `n` of them. -/
structure Advanced (file : File) (n : ℕ) (s s' : ReadState) : Prop where
  oi : s'.oi = s.oi
  lowerEnd : s'.lowerEnd = s.lowerEnd
  bytes : ∃ bs, bs.length ≤ n ∧ bs = file.read s.pos bs.length ∧ s'.out = s.out ++ bs ∧
    s'.pos = s.pos + bs.length ∧ s'.ret = s.ret + bs.length ∧ s'.count = s.count - bs.length

theorem Advanced.refl (file : File) (n : ℕ) (s : ReadState) (calls : ℕ) :
    Advanced file n s { s with calls := calls } :=
  ⟨rfl, rfl, [], by simp⟩

theorem read_length_self (file : File) (pos n : ℕ) :
    file.read pos n = file.read pos (file.read pos n).length := by
  rw [length_read]
  exact read_eq_read_min file pos n

theorem Advanced.deliver {file : File} {n m : ℕ} {s s' : ReadState} (hm : m ≤ n)
    (h : Advanced file (n - (file.read s.pos m).length) (s.deliver (file.read s.pos m)) s') :
    Advanced file n s s' := by
  obtain ⟨hoi, hend, bs, hlen, hbs, hout, hpos, hret, hcount⟩ := h
  have hml : (file.read s.pos m).length ≤ n := by
    rw [length_read]
    omega
  refine ⟨hoi, hend, file.read s.pos m ++ bs, ?_, ?_, ?_, ?_, ?_, ?_⟩
  · rw [List.length_append]
    omega
  · rw [List.length_append, read_add, ← read_length_self]
    exact congrArg (file.read s.pos m ++ ·) hbs
  · rw [hout]
    simp [ReadState.deliver]
  · rw [hpos, List.length_append]
    simp [ReadState.deliver, Nat.add_assoc]
  · rw [hret, List.length_append]
    simp [ReadState.deliver, Nat.add_assoc]
  · rw [hcount, List.length_append]
    simp [ReadState.deliver, Nat.sub_sub]

theorem readLoop_advanced (env : ReadEnv) (file : File) (fuel cCount : ℕ) (s : ReadState) :
    Advanced file cCount s (readLoop env file fuel cCount s).1 := by
  induction fuel generalizing cCount s with
  | zero => exact Advanced.refl file cCount s s.calls
  | succ fuel ih =>
    rw [readLoop]
    split
    · exact Advanced.refl file cCount s s.calls
    · split
      · exact Advanced.refl file cCount s _
      · next bs hbs =>
        split
        · exact Advanced.refl file cCount s _
        · obtain ⟨m, hm, rfl⟩ := VfsRead.run_ok hbs
          exact Advanced.deliver hm (ih _ _)

/-- `oi'` is `oi` after opening files: reads take every offset from the same file. -/
structure Reopened (f : OvlFile) (oi oi' : OvlInode) : Prop where
  blockStatus : oi'.blockStatus = oi.blockStatus
  blockCount : oi'.blockCount = oi.blockCount
  readLower : f.readLower oi' = f.readLower oi

theorem Reopened.refl (f : OvlFile) (oi : OvlInode) : Reopened f oi oi := ⟨rfl, rfl, rfl⟩

theorem useUpper_cases (env : ReadEnv) (f : OvlFile) (s : ReadState) (k : File → ReadState → Pass) :
    useUpper env f s k = .oops ∨ (∃ (e : Errno) (oi : OvlInode),
        useUpper env f s k = .done e.ret { s with oi := oi }) ∨
      ∃ oi, Reopened f s.oi oi ∧ useUpper env f s k = k f.upperData { s with oi := oi } := by
  rw [useUpper]
  split
  · exact .inl rfl
  · next u hu =>
    have hdata : f.upperData = u.data := by
      rw [OvlFile.upperData, hu]
    split
    · refine .inr (.inr ⟨{ s.oi with upperFile := .opened 0 }, ⟨rfl, rfl, rfl⟩, ?_⟩)
      rw [hdata]
    · exact .inr (.inl ⟨_, _, rfl⟩)
    · exact .inr (.inr ⟨s.oi, .refl f s.oi, by rw [hdata]⟩)
    · exact .inl rfl

theorem useLower_cases (env : ReadEnv) (f : OvlFile) (s : ReadState) (k : File → ReadState → Pass) :
    useLower env f s k = .oops ∨ (∃ (e : Errno) (oi : OvlInode),
        useLower env f s k = .done e.ret { s with oi := oi }) ∨
      ∃ oi, Reopened f s.oi oi ∧
        useLower env f s k = k (f.readLower s.oi) { s with oi := oi } := by
  rw [useLower]
  split
  · exact .inl rfl
  · split
    · next hnull _ =>
      have hlow : f.readLower s.oi = f.lowerdata := by
        rw [OvlFile.readLower, hnull]
      refine .inr (.inr ⟨{ s.oi with lowerFile := .opened f.ovlPathLowerdata },
        ⟨rfl, rfl, by rw [hlow]; rfl⟩, ?_⟩)
      rw [hlow]
    · exact .inr (.inl ⟨_, _, rfl⟩)
    · next _ idx hidx =>
      have hlow : f.readLower s.oi = f.lowerAt idx := by
        rw [OvlFile.readLower, hidx]
      exact .inr (.inr ⟨s.oi, .refl f s.oi, by rw [hlow]⟩)
    · exact .inl rfl

section Branches

variable {f : OvlFile} {s : ReadState} (env : ReadEnv) (hs : Reopened f f.oi s.oi)
include hs

/-- A pass past the map reads the upper file. -/
theorem blockReadPass_of_past (hb : f.oi.blockCount < ovlGetBlock s.pos) :
    blockReadPass env f s = useUpper env f s (tailPass env) := by
  rw [blockReadPass, if_pos (by rw [hs.blockCount]; exact hb)]

/-- A pass over a copied block reads the upper file. -/
theorem blockReadPass_of_copied (hb : f.Copied s.pos) :
    blockReadPass env f s = useUpper env f s (copiedPass env (chunk s.pos s.count)) := by
  obtain ⟨-, hle, m, hm, hcell⟩ := hb
  rw [blockReadPass, if_neg (by rw [hs.blockCount]; omega), hs.blockStatus, hm]
  simp only
  rw [if_pos hcell]

/-- A pass over an uncopied block reads the lower file, unless its end was met before. -/
theorem blockReadPass_of_uncopied (hb : f.Uncopied s.pos) :
    blockReadPass env f s = if s.lowerEnd then .done s.ret s
      else useLower env f s (uncopiedPass env (chunk s.pos s.count)) := by
  obtain ⟨-, hle, m, hm, hcell⟩ := hb
  rw [blockReadPass, if_neg (by rw [hs.blockCount]; omega), hs.blockStatus, hm]
  simp only
  rw [if_neg (by rw [not_ne_iff]; exact hcell)]

/-- A pass that needs the upper file faults without an upper inode. -/
theorem blockReadPass_of_noUpper (hup : f.upper = none)
    (hb : f.Copied s.pos ∨ f.oi.blockCount < ovlGetBlock s.pos) :
    blockReadPass env f s = .oops := by
  obtain hb | hb := hb
  · rw [blockReadPass_of_copied env hs hb, useUpper, hup]
  · rw [blockReadPass_of_past env hs hb, useUpper, hup]

/-- A pass over a block of the map faults without a map. -/
theorem blockReadPass_of_noMap (hmap : f.oi.blockStatus = none)
    (hb : ovlGetBlock s.pos ≤ f.oi.blockCount) : blockReadPass env f s = .oops := by
  rw [blockReadPass, if_neg (by rw [hs.blockCount]; omega), hs.blockStatus, hmap]

end Branches

/-- Invariant of the outer loop: what was delivered so far are the served bytes
from `pos` on, and the counters agree with it. -/
structure Delivering (f : OvlFile) (pos count : ℕ) (s : ReadState) : Prop where
  oi : Reopened f f.oi s.oi
  pos_eq : s.pos = pos + s.out.length
  ret_eq : s.ret = s.out.length
  count_eq : s.count + s.out.length = count
  bytes : ∀ k, k < s.out.length → s.out[k]? = f.served (pos + k)

theorem Delivering.reopen {f : OvlFile} {pos count : ℕ} {s : ReadState} {oi : OvlInode}
    (h : Delivering f pos count s) (ho : Reopened f s.oi oi) :
    Delivering f pos count { s with oi := oi } :=
  ⟨⟨ho.1.trans h.oi.1, ho.2.trans h.oi.2, ho.3.trans h.oi.3⟩, h.pos_eq, h.ret_eq, h.count_eq,
    h.bytes⟩

theorem Delivering.advance {f : OvlFile} {pos count n : ℕ} {s s' : ReadState} {file : File}
    (h : Delivering f pos count s) (ha : Advanced file n s s') (hn : n ≤ s.count)
    (hsrc : ∀ i, s.pos ≤ i → i < s.pos + n → f.served i = file.get? i) :
    Delivering f pos count s' := by
  obtain ⟨hoi, -, bs, hlen, hbs, hout, hpos, hret, hcount⟩ := ha
  have hl : s'.out.length = s.out.length + bs.length := by
    rw [hout, List.length_append]
  refine ⟨by rw [hoi]; exact h.oi, ?_, ?_, ?_, ?_⟩
  · rw [hpos, h.pos_eq, hl, Nat.add_assoc]
  · rw [hret, h.ret_eq, hl]
  · have := h.count_eq
    omega
  · intro k hk
    rw [hout, List.getElem?_append]
    by_cases hlt : k < s.out.length
    · rw [if_pos hlt]
      exact h.bytes k hlt
    · rw [if_neg hlt, hbs, getElem?_read, if_pos (by omega),
        hsrc (pos + k) (by rw [h.pos_eq]; omega) (by rw [h.pos_eq]; omega), h.pos_eq,
        show pos + s.out.length + (k - s.out.length) = pos + k by omega]

/-- What a pass of the outer loop may end with. -/
def PassOk (f : OvlFile) (pos count : ℕ) : Pass → Prop
  | .again s => Delivering f pos count s
  | .done ret s => ret < 0 ∨
      (ret.toNat ≤ s.out.length ∧ ∀ k, k < s.out.length → s.out[k]? = f.served (pos + k))
  | .oops => True

theorem Delivering.done {f : OvlFile} {pos count : ℕ} {s : ReadState}
    (h : Delivering f pos count s) : PassOk f pos count (.done s.ret s) := by
  refine .inr ⟨?_, h.bytes⟩
  rw [h.ret_eq]
  simp

theorem passOk_useUpper {env : ReadEnv} {f : OvlFile} {pos count : ℕ} {s : ReadState}
    {k : File → ReadState → Pass}
    (hk : ∀ oi, Reopened f s.oi oi → PassOk f pos count (k f.upperData { s with oi := oi })) :
    PassOk f pos count (useUpper env f s k) := by
  obtain h | ⟨e, oi, h⟩ | ⟨oi, ho, h⟩ := useUpper_cases env f s k
  · rw [h]
    trivial
  · rw [h]
    exact .inl e.ret_neg
  · rw [h]
    exact hk oi ho

theorem passOk_useLower {env : ReadEnv} {f : OvlFile} {pos count : ℕ} {s : ReadState}
    {k : File → ReadState → Pass} (hs : Delivering f pos count s)
    (hk : ∀ oi, Reopened f s.oi oi →
      PassOk f pos count (k (f.readLower f.oi) { s with oi := oi })) :
    PassOk f pos count (useLower env f s k) := by
  obtain h | ⟨e, oi, h⟩ | ⟨oi, ho, h⟩ := useLower_cases env f s k
  · rw [h]
    trivial
  · rw [h]
    exact .inl e.ret_neg
  · rw [h, hs.oi.readLower]
    exact hk oi ho

/-- Offsets of the chunk a pass reads lie in the block of its first offset. -/
theorem ovlGetBlock_chunk {pos count i : ℕ} (h₁ : pos ≤ i) (h₂ : i < pos + chunk pos count) :
    ovlGetBlock i = ovlGetBlock pos := by
  simp only [chunk, ovlGetBlock_eq, BLOCK_SIZE] at h₂ ⊢
  split at h₂ <;> omega

theorem chunk_le_count (pos count : ℕ) : chunk pos count ≤ count := by
  simp only [chunk, ovlGetBlock_eq, BLOCK_SIZE]
  split <;> omega

theorem tailPass_ok {env : ReadEnv} {f : OvlFile} {pos count : ℕ} {s : ReadState}
    (hs : Delivering f pos count s) (hsrc : ∀ i, s.pos ≤ i → f.served i = f.upperData.get? i) :
    PassOk f pos count (tailPass env f.upperData s) := by
  rw [tailPass]
  split
  · exact .inr ⟨by simp, hs.bytes⟩
  · next bs hbs =>
    obtain ⟨n, hn, rfl⟩ := VfsRead.run_ok hbs
    have hadv : Advanced f.upperData s.count s (s.deliver (f.upperData.read s.pos n)) :=
      Advanced.deliver hn (Advanced.refl _ _ _ _)
    have hdone := (hs.advance hadv le_rfl fun i h₁ _ => hsrc i h₁).done
    simpa only [ReadState.deliver, Int.natCast_add] using hdone

theorem copiedPass_ok {env : ReadEnv} {f : OvlFile} {pos count cCount : ℕ} {s : ReadState}
    {file : File} (hs : Delivering f pos count s) (hc : cCount ≤ s.count)
    (hsrc : ∀ i, s.pos ≤ i → i < s.pos + cCount → f.served i = file.get? i) :
    PassOk f pos count (copiedPass env cCount file s) := by
  have hnext := hs.advance (readLoop_advanced env file cCount cCount s) hc hsrc
  rw [copiedPass]
  split
  · next s' hrl =>
    rw [hrl] at hnext
    split
    · exact hnext.done
    · exact hnext
  · next s' _ _ hrl =>
    rw [hrl] at hnext
    exact hnext

theorem uncopiedPass_ok {env : ReadEnv} {f : OvlFile} {pos count cCount : ℕ} {s : ReadState}
    {file : File} (hs : Delivering f pos count s) (hc : cCount ≤ s.count)
    (hsrc : ∀ i, s.pos ≤ i → i < s.pos + cCount → f.served i = file.get? i) :
    PassOk f pos count (uncopiedPass env cCount file s) := by
  have hnext := hs.advance (readLoop_advanced env file cCount cCount s) hc hsrc
  rw [uncopiedPass]
  split
  · next s' hrl =>
    rw [hrl] at hnext
    exact ⟨hnext.oi, hnext.pos_eq, hnext.ret_eq, hnext.count_eq, hnext.bytes⟩
  · next s' _ _ hrl =>
    rw [hrl] at hnext
    exact hnext

theorem blockReadPass_ok {env : ReadEnv} {f : OvlFile} {pos count : ℕ} {s : ReadState}
    (hcow : f.oi.cowStatus = true) (hs : Delivering f pos count s) :
    PassOk f pos count (blockReadPass env f s) := by
  rw [blockReadPass]
  split
  · next hpast =>
    rw [hs.oi.blockCount] at hpast
    refine passOk_useUpper fun oi ho => tailPass_ok (hs.reopen ho) fun i hi => ?_
    refine OvlFile.served_of_past hcow ?_
    have := ovlGetBlock_mono hi
    simp only at this
    omega
  · next hin =>
    rw [hs.oi.blockCount] at hin
    split
    · trivial
    · next m hm =>
      rw [hs.oi.blockStatus] at hm
      split
      · next hcell =>
        refine passOk_useUpper fun oi ho =>
          copiedPass_ok (hs.reopen ho) (chunk_le_count s.pos s.count) fun i h₁ h₂ => ?_
        have hb := ovlGetBlock_chunk h₁ h₂
        refine OvlFile.served_of_copied ⟨hcow, ?_, m, hm, ?_⟩
        · rw [hb]
          exact Nat.le_of_not_lt hin
        · rw [hb]
          exact hcell
      · next hcell =>
        split
        · exact hs.done
        · refine passOk_useLower hs fun oi ho =>
            uncopiedPass_ok (hs.reopen ho) (chunk_le_count s.pos s.count) fun i h₁ h₂ => ?_
          have hb := ovlGetBlock_chunk h₁ h₂
          refine OvlFile.served_of_uncopied ⟨hcow, ?_, m, hm, ?_⟩
          · rw [hb]
            exact Nat.le_of_not_lt hin
          · rw [hb]
            exact not_ne_iff.mp hcell

theorem blockReadLoop_served {env : ReadEnv} {f : OvlFile} {pos count fuel : ℕ} {s : ReadState}
    {res : ReadResult} (hcow : f.oi.cowStatus = true) (hs : Delivering f pos count s)
    (h : blockReadLoop env f fuel s = .ret res) :
    res.ret < 0 ∨ (res.ret.toNat ≤ res.out.length ∧
      ∀ k, k < res.out.length → res.out[k]? = f.served (pos + k)) := by
  induction fuel generalizing s with
  | zero => cases h
  | succ fuel ih =>
    rw [blockReadLoop] at h
    split at h
    · cases h
      exact hs.done
    · have hpass : PassOk f pos count (blockReadPass env f s) := blockReadPass_ok hcow hs
      split at h
      · next s' hp =>
        rw [hp] at hpass
        exact ih hpass h
      · next ret s' hp =>
        rw [hp] at hpass
        cases h
        exact hpass
      · cases h

/-- A read request that returns a count delivers the served bytes of its range. -/
theorem ovlReadIter_served {fuel : ℕ} {env : ReadEnv} {f : OvlFile} {pos count : ℕ}
    {res : ReadResult} (h : ovlReadIter fuel env f pos count = .ret res) (hret : 0 ≤ res.ret) :
    res.ret.toNat ≤ res.out.length ∧
      ∀ k, k < res.out.length → res.out[k]? = f.served (pos + k) := by
  rw [ovlReadIter] at h
  split at h
  · cases h
    exact ⟨by simp, by simp⟩
  · split at h
    · next e _ =>
      cases h
      exact absurd hret (by have := e.ret_neg; simp only; omega)
    · split at h
      · next hcow =>
        have hinit : Delivering f pos count ⟨f.oi, pos, count, 0, false, [], 0⟩ :=
          ⟨.refl f f.oi, rfl, rfl, rfl, by simp⟩
        rcases blockReadLoop_served hcow hinit h with hneg | hok
        · omega
        · exact hok
      · next hcow =>
        split at h
        · next e _ =>
          cases h
          exact absurd hret (by have := e.ret_neg; simp only; omega)
        · next bs hbs =>
          cases h
          obtain ⟨n, hn, rfl⟩ := VfsRead.run_ok hbs
          refine ⟨by simp, fun k hk => ?_⟩
          rw [length_read] at hk
          rw [getElem?_read, if_pos (by omega), OvlFile.served_of_not_cow (by simpa using hcow)]

end FzzOverlay

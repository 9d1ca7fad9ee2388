import FzzOverlay.File.FullRead

/-!
# Requests over a served range

A request over a range whose bytes are all served returns them all
(`returns_of_served`), and a request has one result only (`Returns.unique`).
-/

namespace FzzOverlay

open SparseFile

section Fuel

variable {env : ReadEnv} {f : OvlFile} {res : ReadResult}

theorem blockReadLoop_succ {fuel : ℕ} {s : ReadState}
    (h : blockReadLoop env f fuel s = .ret res) : blockReadLoop env f (fuel + 1) s = .ret res := by
  induction fuel generalizing s with
  | zero => cases h
  | succ fuel ih =>
    rw [blockReadLoop] at h ⊢
    split
    · next hz =>
      rw [if_pos hz] at h
      exact h
    · next hz =>
      rw [if_neg hz] at h
      cases hp : blockReadPass env f s with
      | again s' =>
        rw [hp] at h
        exact ih h
      | done ret s' =>
        rw [hp] at h
        exact h
      | oops =>
        rw [hp] at h
        cases h

theorem ovlReadIter_succ {fuel pos count : ℕ} (h : ovlReadIter fuel env f pos count = .ret res) :
    ovlReadIter (fuel + 1) env f pos count = .ret res := by
  rw [ovlReadIter] at h ⊢
  split
  · next h0 =>
    rw [if_pos h0] at h
    exact h
  · next h0 =>
    rw [if_neg h0] at h
    cases hfd : env.fdget with
    | some e =>
      rw [hfd] at h
      exact h
    | none =>
      rw [hfd] at h
      simp only at h ⊢
      split
      · next hcow =>
        rw [if_pos hcow] at h
        exact blockReadLoop_succ h
      · next hcow =>
        rw [if_neg hcow] at h
        exact h

theorem ovlReadIter_le {fuel fuel' pos count : ℕ} (hle : fuel ≤ fuel')
    (h : ovlReadIter fuel env f pos count = .ret res) :
    ovlReadIter fuel' env f pos count = .ret res := by
  induction hle with
  | refl => exact h
  | step _ ih => exact ovlReadIter_succ ih

/-- More passes do not change the result of a request that returned. -/
theorem Returns.unique {pos count : ℕ} {ret ret' : ℤ} {out out' : List UInt8}
    (h : Returns f pos count ret out) (h' : Returns f pos count ret' out') :
    ret = ret' ∧ out = out' := by
  obtain ⟨fuel, res, hres, rfl, rfl⟩ := h
  obtain ⟨fuel', res', hres', rfl, rfl⟩ := h'
  have h₁ := ovlReadIter_le (le_max_left fuel fuel') hres
  have h₂ := ovlReadIter_le (le_max_right fuel fuel') hres'
  rw [h₁] at h₂
  cases h₂
  exact ⟨rfl, rfl⟩

end Fuel

/-- Where a served byte comes from. -/
theorem OvlFile.cases_of_served {f : OvlFile} {i : ℕ} {v : UInt8} (hcow : f.oi.cowStatus = true)
    (h : f.served i = some v) :
    f.Uncopied i ∨ (f.upper.isSome ∧ (f.Copied i ∨ f.oi.blockCount < ovlGetBlock i)) := by
  by_cases hu : f.Uncopied i
  · exact .inl hu
  · obtain ⟨hfrom, hdata⟩ := OvlFile.served_upper hcow hu h
    refine .inr ⟨?_, hfrom⟩
    by_contra hno
    rw [OvlFile.upperData, show f.upper = none by simpa using hno] at hdata
    cases hdata

/-- State of a request for the bytes `bs` at `pos` that has delivered some of them. -/
structure Serving (bs : List UInt8) (f : OvlFile) (pos : ℕ) (s : ReadState) : Prop where
  live : Live f s.oi
  lowerEnd : s.lowerEnd = false
  pos_eq : s.pos = pos + s.out.length
  ret_eq : s.ret = s.out.length
  count_eq : s.out.length + s.count = bs.length
  out_eq : s.out = bs.take s.out.length

namespace Serving

variable {bs : List UInt8} {f : OvlFile} {pos n : ℕ} {s : ReadState}

theorem init (bs : List UInt8) (f : OvlFile) (pos : ℕ) :
    Serving bs f pos ⟨f.oi, pos, bs.length, 0, false, [], 0⟩ :=
  ⟨.refl f, rfl, rfl, rfl, by simp, by simp⟩

/-- A real file that has the served bytes of a chunk delivers the next bytes. -/
theorem read_eq (file : File) (hs : Serving bs f pos s)
    (h : ∀ k, k < bs.length → f.served (pos + k) = bs[k]?) (hn : n ≤ s.count)
    (hfile : ∀ i, s.pos ≤ i → i < s.pos + n → f.served i = file.get? i) :
    file.read s.pos n = (bs.drop s.out.length).take n := by
  have hcount := hs.count_eq
  apply List.ext_getElem?
  intro k
  rw [getElem?_read, List.getElem?_take, List.getElem?_drop]
  by_cases hk : k < n
  · rw [if_pos hk, if_pos hk, ← hfile _ (by omega) (by omega), hs.pos_eq, Nat.add_assoc]
    exact h _ (by omega)
  · rw [if_neg hk, if_neg hk]

theorem length_next (hs : Serving bs f pos s) (hn : n ≤ s.count) :
    ((bs.drop s.out.length).take n).length = n := by
  have hcount := hs.count_eq
  rw [List.length_take, List.length_drop]
  omega

theorem after {oi : OvlInode} (calls : ℕ) (hs : Serving bs f pos s) (hoi : Live f oi)
    (hn : n ≤ s.count) :
    Serving bs f pos (s.after ((bs.drop s.out.length).take n) oi calls) := by
  have hlen := hs.length_next hn
  have hcount := hs.count_eq
  have hout : (s.after ((bs.drop s.out.length).take n) oi calls).out.length =
      s.out.length + n := by
    simp only [ReadState.after, List.length_append, hlen]
  refine ⟨hoi, hs.lowerEnd, ?_, ?_, ?_, ?_⟩
  · rw [hout]
    simp only [ReadState.after, hlen, hs.pos_eq, Nat.add_assoc]
  · rw [hout]
    simp only [ReadState.after, hlen, hs.ret_eq]
  · rw [hout]
    simp only [ReadState.after, hlen]
    omega
  · rw [hout, List.take_add, ← hs.out_eq]
    rfl

/-- One pass: it delivers the next bytes, or the last ones. -/
theorem pass (hs : Serving bs f pos s) (hf : f.PtrsUsable) (hcow : f.oi.cowStatus = true)
    (h : ∀ k, k < bs.length → f.served (pos + k) = bs[k]?) (hc : 0 < s.count) :
    (∃ s', blockReadPass .full f s = .again s' ∧ Serving bs f pos s' ∧ s'.count < s.count) ∨
      ∃ s', blockReadPass .full f s = .done bs.length s' ∧ s'.out = bs := by
  have hpos := chunk_pos s.pos hc
  have hle := chunk_le_count s.pos s.count
  have hlen := hs.length_next hle
  have hcount := hs.count_eq
  have hnext : (f.served s.pos).isSome := by
    rw [hs.pos_eq, h _ (by omega), List.getElem?_eq_getElem (by omega)]
    rfl
  obtain ⟨v, hv⟩ := Option.isSome_iff_exists.mp hnext
  rcases OvlFile.cases_of_served hcow hv with hu | ⟨hup, hd | hp⟩
  · have hread := hs.read_eq (f.readLower f.oi) h hle fun i h₁ h₂ =>
      OvlFile.served_of_uncopied (hu.of_block_eq (ovlGetBlock_chunk h₁ h₂))
    obtain ⟨oi, calls, hoi, hpass⟩ := blockReadPass_uncopied hf.lower (hf.lowerFile _ hu)
      hs.live hs.lowerEnd hc hu
    rw [hread] at hpass
    simp only [hlen, ne_eq, not_true_eq_false, decide_false] at hpass
    have hafter := hs.after calls hoi hle
    refine .inl ⟨_, hpass, ⟨hafter.live, rfl, hafter.pos_eq, hafter.ret_eq, hafter.count_eq,
      hafter.out_eq⟩, ?_⟩
    simp only [ReadState.after, hlen]
    omega
  · have hread := hs.read_eq f.upperData h hle fun i h₁ h₂ =>
      OvlFile.served_of_copied (hd.of_block_eq (ovlGetBlock_chunk h₁ h₂))
    obtain ⟨oi, calls, hoi, hpass⟩ :=
      blockReadPass_copied hup hf.upperFile hs.live hs.lowerEnd hc hd
    rw [hread] at hpass
    refine .inl ⟨_, hpass, hs.after calls hoi hle, ?_⟩
    simp only [ReadState.after, hlen]
    omega
  · have hread := hs.read_eq f.upperData h (le_refl s.count) fun i h₁ _ =>
      OvlFile.served_of_past hcow (lt_of_lt_of_le hp (ovlGetBlock_mono h₁))
    obtain ⟨oi, calls, hpass⟩ := blockReadPass_past hup hf.upperFile hs.live hp
    rw [hread, hs.length_next le_rfl, hs.ret_eq, ← Int.natCast_add, hcount] at hpass
    refine .inr ⟨_, hpass, ?_⟩
    simp only [ReadState.after]
    conv_rhs => rw [← List.take_append_drop s.out.length bs]
    rw [← hs.out_eq, List.take_of_length_le (by rw [List.length_drop]; omega)]

theorem drained (hs : Serving bs f pos s) (hz : s.count = 0) :
    ∃ res, blockReadLoop .full f (n + 1) s = .ret res ∧ res.ret = bs.length ∧ res.out = bs := by
  have hcount := hs.count_eq
  have hlen : s.out.length = bs.length := by omega
  refine ⟨_, by rw [blockReadLoop, if_pos hz], ?_, ?_⟩
  · rw [hs.ret_eq, hlen]
  · rw [hs.out_eq, hlen, List.take_length]

theorem loop (hs : Serving bs f pos s) (hf : f.PtrsUsable) (hcow : f.oi.cowStatus = true)
    (h : ∀ k, k < bs.length → f.served (pos + k) = bs[k]?) (hn : s.count ≤ n) :
    ∃ res, blockReadLoop .full f (n + 1) s = .ret res ∧ res.ret = bs.length ∧ res.out = bs := by
  induction n generalizing s with
  | zero => exact hs.drained (by omega)
  | succ n ih =>
    by_cases hz : s.count = 0
    · exact hs.drained hz
    · rw [blockReadLoop, if_neg hz]
      obtain ⟨s', hp, hs', hlt⟩ | ⟨s', hp, hout⟩ := hs.pass hf hcow h (Nat.pos_of_ne_zero hz)
      · rw [hp]
        exact ih hs' (by omega)
      · rw [hp]
        exact ⟨_, rfl, rfl, hout⟩

end Serving

/-- A request over a range whose bytes are all served returns them all. -/
theorem returns_of_served {f : OvlFile} (hf : f.oi.cowStatus = true → f.PtrsUsable) {pos : ℕ}
    {bs : List UInt8} (h : ∀ k, k < bs.length → f.served (pos + k) = bs[k]?) :
    Returns f pos bs.length bs.length bs := by
  cases hcow : f.oi.cowStatus with
  | false =>
    rw [returns_of_not_cow hcow]
    refine ⟨List.ext_getElem? fun k => ?_, rfl⟩
    rw [getElem?_read]
    by_cases hk : k < bs.length
    · rw [if_pos hk, ← h k hk, OvlFile.served_of_not_cow hcow]
    · rw [if_neg hk, List.getElem?_eq_none (by omega)]
  | true =>
    by_cases h0 : bs.length = 0
    · obtain rfl := List.length_eq_zero_iff.mp h0
      exact ⟨0, ⟨0, pos, [], f.oi⟩, rfl, rfl, rfl⟩
    · obtain ⟨res, hres, hret, hout⟩ :=
        (Serving.init bs f pos).loop (n := bs.length) (hf hcow) hcow h le_rfl
      refine ⟨bs.length + 1, res, ?_, hret, hout⟩
      rw [ovlReadIter_cow hcow (Nat.pos_of_ne_zero h0)]
      exact hres

end FzzOverlay

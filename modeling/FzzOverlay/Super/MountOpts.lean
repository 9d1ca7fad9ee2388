import FzzOverlay.Lib.CString

/-!
# The mount string

The three scanners of `super.c` that read the mount options: `ovl_next_opt` cuts the
string at its commas, `ovl_split_lowerdirs` cuts the value of `lowerdir=` at its colons
and drops the escapes, and `ovl_unescape` drops the escapes of `upperdir=` and
`workdir=`. All three work in place. A loop that needs more than `n` rounds gives
`none`.
-/

namespace FzzOverlay

open CString

/-- The character `\`. -/
def backslash : UInt8 := 92

def colon : UInt8 := 58

def comma : UInt8 := 44

/-- The loop of `ovl_next_opt`: the memory and the new `*s`. -/
def nextOptLoop : ℕ → Mem → ℕ → Option (Mem × Option ℕ)
  | 0, _, _ => none
  | n + 1, m, p =>
    if m p = 0 then some (m, none)
    else if m p = backslash then
      if m (p + 1) = 0 then some (m, none) else nextOptLoop n m (p + 2)
    else if m p = comma then some (Function.update m p 0, some (p + 1))
    else nextOptLoop n m (p + 1)

/-- The returned pointer, the memory and the new `*s`. -/
def ovlNextOpt (n : ℕ) (m : Mem) : Option ℕ → Option (Option ℕ × Mem × Option ℕ)
  | none => some (none, m, none)
  | some sbegin => (nextOptLoop n m sbegin).map fun r => (some sbegin, r)

/-- The `while` loop of `ovl_parse_opt`: the options as `match_token` is given them. -/
def parseOptLoop (n : ℕ) : ℕ → Mem → Option ℕ → Option (List (List UInt8))
  | 0, _, _ => none
  | k + 1, m, opt =>
    match ovlNextOpt n m opt with
    | none => none
    | some (none, _, _) => some []
    | some (some p, m', opt') => do
      let o ← cstr m' n p
      let os ← parseOptLoop n k m' opt'
      return o :: os

/-- The loop of `ovl_split_lowerdirs`, with the read cursor `s` and the write cursor
`d`. The counter is an `unsigned int`. -/
def splitLoop : ℕ → Mem → ℕ → ℕ → ℕ → Option (ℕ × Mem)
  | 0, _, _, _, _ => none
  | n + 1, m, s, d, ctr =>
    if m s = backslash then
      let m' := Function.update m d (m (s + 1))
      if m' (s + 1) = 0 then some (ctr, m') else splitLoop n m' (s + 2) (d + 1) ctr
    else if m s = colon then
      splitLoop n (Function.update m d 0) (s + 1) (d + 1) ((ctr + 1) % 2 ^ 32)
    else
      let m' := Function.update m d (m s)
      if m' s = 0 then some (ctr, m') else splitLoop n m' (s + 1) (d + 1) ctr

def ovlSplitLowerdirs (n : ℕ) (m : Mem) (str : ℕ) : Option (ℕ × Mem) :=
  splitLoop n m str str 1

/-- The loop of `ovl_unescape`. -/
def unescapeLoop : ℕ → Mem → ℕ → ℕ → Option Mem
  | 0, _, _, _ => none
  | n + 1, m, s, d =>
    if m s = backslash then
      let m' := Function.update m d (m (s + 1))
      if m' (s + 1) = 0 then some m' else unescapeLoop n m' (s + 2) (d + 1)
    else
      let m' := Function.update m d (m s)
      if m' s = 0 then some m' else unescapeLoop n m' (s + 1) (d + 1)

def ovlUnescape (n : ℕ) (m : Mem) (s : ℕ) : Option Mem :=
  unescapeLoop n m s s

/-- The loop of `ovl_get_lowerstack` over its copy of the value: the names given to
`ovl_lower_dir`, each step going behind the next zero byte. -/
def lowerstackLoop (n : ℕ) (m : Mem) : ℕ → ℕ → Option (List (List UInt8))
  | 0, _ => some []
  | k + 1, lower => do
    let name ← cstr m n lower
    let e ← strend m n lower
    let names ← lowerstackLoop n m k (e + 1)
    return name :: names

/-- Two paths, the second with a colon in it. -/
example :
    let m : Mem := write (fun _ => 0) 0 [47, 97, 58, 47, 98, 92, 58, 99]
    (ovlSplitLowerdirs 9 m 0).map (fun r => (r.1, lowerstackLoop 9 r.2 r.1 0)) =
      some (2, some [[47, 97], [47, 98, 58, 99]]) := by decide

section Escapes

/-- A string whose commas and backslashes are escaped. -/
inductive Escaped : List UInt8 → Prop
  | nil : Escaped []
  | pair {c : UInt8} {cs : List UInt8} : c ≠ 0 → Escaped cs → Escaped (backslash :: c :: cs)
  | plain {c : UInt8} {cs : List UInt8} :
      c ≠ 0 → c ≠ backslash → c ≠ comma → Escaped cs → Escaped (c :: cs)

/-- One character of a path as the mount string has it. -/
def escChar (c : UInt8) : List UInt8 :=
  if c = backslash ∨ c = colon ∨ c = comma then [backslash, c] else [c]

/-- A path as the mount string has it. -/
def esc (path : List UInt8) : List UInt8 := path.flatMap escChar

theorem esc_cons (c : UInt8) (cs : List UInt8) : esc (c :: cs) = escChar c ++ esc cs :=
  List.flatMap_cons

theorem escChar_cases (c : UInt8) :
    escChar c = [backslash, c] ∨
      escChar c = [c] ∧ c ≠ backslash ∧ c ≠ colon ∧ c ≠ comma := by
  unfold escChar
  by_cases h : c = backslash ∨ c = colon ∨ c = comma
  · exact .inl (if_pos h)
  · refine .inr ⟨if_neg h, ?_⟩
    simpa only [not_or] using h

theorem length_le_esc (path : List UInt8) : path.length ≤ (esc path).length := by
  induction path with
  | nil => exact Nat.le_refl 0
  | cons c cs ih =>
    rw [esc_cons, List.length_append, List.length_cons]
    obtain h | ⟨h, -⟩ := escChar_cases c
    · rw [h, List.length_cons, List.length_singleton]
      omega
    · rw [h, List.length_singleton]
      omega

theorem Escaped.nul_notMem {o : List UInt8} (h : Escaped o) : 0 ∉ o := by
  induction h with
  | nil => exact List.not_mem_nil
  | pair hc _ ih =>
    simp only [List.mem_cons, not_or]
    exact ⟨by decide, hc.symm, ih⟩
  | plain hc _ _ _ ih =>
    simp only [List.mem_cons, not_or]
    exact ⟨hc.symm, ih⟩

theorem Escaped.append {o o' : List UInt8} (h : Escaped o) (h' : Escaped o') :
    Escaped (o ++ o') := by
  induction h with
  | nil => exact h'
  | pair hc _ ih => exact .pair hc ih
  | plain hc hb hk _ ih => exact .plain hc hb hk ih

theorem escaped_esc {path : List UInt8} (h : 0 ∉ path) : Escaped (esc path) := by
  induction path with
  | nil => exact .nil
  | cons c cs ih =>
    rw [List.mem_cons, not_or] at h
    rw [esc_cons]
    obtain hc | ⟨hc, hb, -, hk⟩ := escChar_cases c
    · rw [hc]
      exact .pair (Ne.symm h.1) (ih h.2)
    · rw [hc]
      exact .plain (Ne.symm h.1) hb hk (ih h.2)

theorem escaped_intercalate {names : List (List UInt8)} (h : ∀ x ∈ names, 0 ∉ x) :
    Escaped ([colon].intercalate (names.map esc)) := by
  induction names with
  | nil => exact .nil
  | cons x names ih =>
    rw [List.forall_mem_cons] at h
    cases names with
    | nil => simpa using escaped_esc h.1
    | cons y names =>
      rw [List.map_cons, List.map_cons, List.intercalate_cons_cons, ← List.map_cons]
      have hcolon : Escaped [colon] := .plain (by decide) (by decide) (by decide) .nil
      exact ((escaped_esc h.1).append hcolon).append (ih h.2)

end Escapes

section NextOpt

variable {m : Mem} {p n : ℕ} {o : List UInt8}

/-- The scan passes over an escaped string. -/
theorem nextOptLoop_escaped (ho : Escaped o) (h : Holds m p o) :
    ∃ k ≤ o.length, ∀ n, nextOptLoop (n + k) m p = nextOptLoop n m (p + o.length) := by
  induction ho generalizing p with
  | nil => exact ⟨0, Nat.le_refl 0, fun n => rfl⟩
  | @pair c cs hc _ ih =>
    obtain ⟨hp, hp1, h⟩ := h
    obtain ⟨k, hk, hrun⟩ := ih h
    refine ⟨k + 1, ?_, ?_⟩
    · simp only [List.length_cons]
      omega
    · intro n
      have h0 : m p ≠ 0 := by rw [hp]; decide
      have h1 : m (p + 1) ≠ 0 := by rwa [hp1]
      rw [← Nat.add_assoc, nextOptLoop, if_neg h0, if_pos hp, if_neg h1, hrun n]
      congr 1
      simp only [List.length_cons]
      omega
  | @plain c cs hc hb hk' _ ih =>
    obtain ⟨hp, h⟩ := h
    obtain ⟨k, hk, hrun⟩ := ih h
    refine ⟨k + 1, ?_, ?_⟩
    · simp only [List.length_cons]
      omega
    · intro n
      rw [← hp] at hc hb hk'
      rw [← Nat.add_assoc, nextOptLoop, if_neg hc, if_neg hb, if_neg hk', hrun n]
      congr 1
      simp only [List.length_cons]
      omega

/-- The scan of the last option. -/
theorem nextOptLoop_last (ho : Escaped o) (h : Holds m p (o ++ [0])) (hn : o.length < n) :
    nextOptLoop n m p = some (m, none) := by
  obtain ⟨h, hend, -⟩ := holds_append.mp h
  obtain ⟨k, hk, hrun⟩ := nextOptLoop_escaped ho h
  obtain ⟨j, rfl⟩ : ∃ j, n = j + 1 + k := ⟨n - 1 - k, by omega⟩
  rw [hrun, nextOptLoop, if_pos hend]

/-- The scan of an option before a comma. -/
theorem nextOptLoop_comma {rest : List UInt8} (ho : Escaped o)
    (h : Holds m p (o ++ comma :: rest)) (hn : o.length < n) :
    nextOptLoop n m p =
      some (Function.update m (p + o.length) 0, some (p + o.length + 1)) := by
  obtain ⟨h, hend, -⟩ := holds_append.mp h
  obtain ⟨k, hk, hrun⟩ := nextOptLoop_escaped ho h
  obtain ⟨j, rfl⟩ : ∃ j, n = j + 1 + k := ⟨n - 1 - k, by omega⟩
  have h0 : m (p + o.length) ≠ 0 := by rw [hend]; decide
  have hb : m (p + o.length) ≠ backslash := by rw [hend]; decide
  rw [hrun, nextOptLoop, if_neg h0, if_neg hb, if_pos hend]

/-- Iterating `ovl_next_opt` gives the options back. -/
theorem parseOptLoop_join {opts : List (List UInt8)} (hne : opts ≠ [])
    (hopts : ∀ o ∈ opts, Escaped o) {k : ℕ}
    (h : Holds m p ([comma].intercalate opts ++ [0]))
    (hn : ([comma].intercalate opts).length < n)
    (hk : ([comma].intercalate opts).length + 1 < k) :
    parseOptLoop n k m (some p) = some opts := by
  induction opts generalizing m p k with
  | nil => exact absurd rfl hne
  | cons o opts ih =>
    rw [List.forall_mem_cons] at hopts
    obtain ⟨k, rfl⟩ : ∃ j, k = j + 1 := ⟨k - 1, by omega⟩
    cases opts with
    | nil =>
      rw [List.intercalate_singleton] at h hn hk
      obtain ⟨k, rfl⟩ : ∃ j, k = j + 1 := ⟨k - 1, by omega⟩
      have hstr := cstr_of_holds h hopts.1.nul_notMem hn
      simp only [parseOptLoop, ovlNextOpt, nextOptLoop_last hopts.1 h hn, Option.map_some, hstr]
      rfl
    | cons o' opts =>
      rw [List.intercalate_cons_cons] at h hn hk
      simp only [List.length_append, List.length_singleton] at hn hk
      simp only [List.append_assoc, List.singleton_append] at h
      have hcut := h.update_middle 0
      have hstr : cstr (Function.update m (p + o.length) 0) n p = some o := by
        apply cstr_of_holds _ hopts.1.nul_notMem (by omega)
        rw [← List.singleton_append, ← List.append_assoc] at hcut
        exact (holds_append.mp hcut).1
      have hrest := (holds_append.mp hcut).2.2
      have hloop := ih (List.cons_ne_nil _ _) hopts.2 hrest (by omega) (k := k) (by omega)
      have hnext := nextOptLoop_comma hopts.1 h (n := n) (by omega)
      simp only [parseOptLoop, ovlNextOpt, hnext, Option.map_some, hstr, hloop]
      rfl

end NextOpt

section Split

variable {m : Mem} {n s d ctr : ℕ} {c : UInt8} {name rest : List UInt8}

/-- The cursor at `d` never changes the byte that the loop has just read. -/
theorem update_reread (m : Mem) (d s : ℕ) : Function.update m d (m s) s = m s := by
  by_cases h : s = d
  · rw [h, Function.update_self]
  · exact Function.update_of_ne h _ _

theorem splitLoop_pair (hs : m s = backslash) (hc : m (s + 1) = c) (h0 : c ≠ 0) :
    splitLoop (n + 1) m s d ctr =
      splitLoop n (Function.update m d c) (s + 2) (d + 1) ctr := by
  subst hc
  simp only [splitLoop, if_pos hs, update_reread, if_neg h0]

theorem splitLoop_plain (hc : m s = c) (hb : c ≠ backslash) (hk : c ≠ colon) (h0 : c ≠ 0) :
    splitLoop (n + 1) m s d ctr =
      splitLoop n (Function.update m d c) (s + 1) (d + 1) ctr := by
  subst hc
  simp only [splitLoop, update_reread, if_neg hb, if_neg hk, if_neg h0]

theorem splitLoop_colon (hs : m s = colon) :
    splitLoop (n + 1) m s d ctr =
      splitLoop n (Function.update m d 0) (s + 1) (d + 1) ((ctr + 1) % 2 ^ 32) := by
  have hb : m s ≠ backslash := by rw [hs]; decide
  rw [splitLoop, if_neg hb, if_pos hs]

theorem splitLoop_nul (hs : m s = 0) :
    splitLoop (n + 1) m s d ctr = some (ctr, Function.update m d 0) := by
  have hb : m s ≠ backslash := by rw [hs]; decide
  have hk : m s ≠ colon := by rw [hs]; decide
  simp only [splitLoop, if_neg hb, if_neg hk, update_reread, if_pos hs]
  rw [hs]

/-- The loop over one name: the write cursor leaves the name without its escapes. -/
theorem splitLoop_esc (h0 : 0 ∉ name) (h : Holds m s (esc name)) (hd : d ≤ s) :
    splitLoop (n + name.length) m s d ctr =
      splitLoop n (write m d name) (s + (esc name).length) (d + name.length) ctr := by
  induction name generalizing m s d with
  | nil => rfl
  | cons c cs ih =>
    rw [List.mem_cons, not_or] at h0
    have hc0 : c ≠ 0 := Ne.symm h0.1
    rw [esc_cons, holds_append] at h
    rw [esc_cons, List.length_append, List.length_cons, ← Nat.add_assoc n, write]
    obtain hc | ⟨hc, hb, hk, -⟩ := escChar_cases c
    · rw [hc] at h ⊢
      obtain ⟨⟨hs, hs1, -⟩, h⟩ := h
      have h' : Holds (Function.update m d c) (s + 2) (esc cs) :=
        Holds.update (p := s + 2) h (by omega)
      rw [splitLoop_pair hs hs1 hc0, ih h0.2 h' (by omega)]
      congr 1
      · simp only [List.length_cons, List.length_nil]
        omega
      · omega
    · rw [hc] at h ⊢
      obtain ⟨⟨hs, -⟩, h⟩ := h
      have h' : Holds (Function.update m d c) (s + 1) (esc cs) :=
        Holds.update (p := s + 1) h (by omega)
      rw [splitLoop_plain hs hb hk hc0, ih h0.2 h' (by omega)]
      congr 1
      · rw [List.length_singleton]
        omega
      · omega

/-- The names one behind the other, each with its zero byte. -/
def segments (names : List (List UInt8)) : List UInt8 := names.flatMap (· ++ [0])

theorem segments_cons (x : List UInt8) (names : List (List UInt8)) :
    segments (x :: names) = x ++ 0 :: segments names := by
  simp only [segments, List.flatMap_cons, List.append_assoc, List.singleton_append]

/-- The whole loop leaves the names as segments. -/
theorem splitLoop_join {names : List (List UInt8)} (hne : names ≠ [])
    (hnul : ∀ x ∈ names, 0 ∉ x)
    (h : Holds m s ([colon].intercalate (names.map esc) ++ [0])) (hd : d ≤ s)
    (hn : ([colon].intercalate (names.map esc)).length < n) (hctr : ctr < 2 ^ 32) :
    splitLoop n m s d ctr =
      some ((ctr + names.length - 1) % 2 ^ 32, write m d (segments names)) := by
  induction names generalizing n m s d ctr with
  | nil => exact absurd rfl hne
  | cons x names ih =>
    rw [List.forall_mem_cons] at hnul
    have hlen := length_le_esc x
    cases names with
    | nil =>
      simp only [List.map_cons, List.map_nil, List.intercalate_singleton] at h hn
      obtain ⟨hx, hend, -⟩ := holds_append.mp h
      obtain ⟨j, rfl⟩ : ∃ j, n = j + 1 + x.length := ⟨n - 1 - x.length, by omega⟩
      have hend' : write m d x (s + (esc x).length) = 0 :=
        (write_of_ge (by omega)).trans hend
      rw [splitLoop_esc hnul.1 hx hd, splitLoop_nul hend']
      rw [segments_cons, write_append, List.length_singleton, Nat.add_sub_cancel,
        Nat.mod_eq_of_lt hctr]
      rfl
    | cons y names =>
      simp only [List.map_cons, List.intercalate_cons_cons, List.append_assoc,
        List.singleton_append, List.length_append, List.length_cons] at h hn
      rw [← List.map_cons (f := esc)] at h hn
      obtain ⟨hx, hcolon, hrest⟩ := holds_append.mp h
      obtain ⟨j, rfl⟩ : ∃ j, n = j + 1 + x.length := ⟨n - 1 - x.length, by omega⟩
      have hcolon' : write m d x (s + (esc x).length) = colon :=
        (write_of_ge (by omega)).trans hcolon
      have hrest' : Holds (Function.update (write m d x) (d + x.length) 0)
          (s + (esc x).length + 1) ([colon].intercalate ((y :: names).map esc) ++ [0]) :=
        (hrest.write (by omega)).update (by omega)
      rw [splitLoop_esc hnul.1 hx hd, splitLoop_colon hcolon',
        ih (List.cons_ne_nil _ _) hnul.2 hrest' (by omega) (by omega)
          (Nat.mod_lt _ (by decide))]
      rw [segments_cons x, write_append, write]
      congr 2
      simp only [List.length_cons]
      omega

/-- Going from zero byte to zero byte visits the names. -/
theorem lowerstackLoop_segments {names : List (List UInt8)} (hnul : ∀ x ∈ names, 0 ∉ x)
    (h : Holds m s (segments names)) (hn : ∀ x ∈ names, x.length < n) :
    lowerstackLoop n m names.length s = some names := by
  induction names generalizing s with
  | nil => rfl
  | cons x names ih =>
    rw [List.forall_mem_cons] at hnul hn
    rw [segments_cons] at h
    have hx : Holds m s (x ++ [0]) := by
      rw [← List.singleton_append, ← List.append_assoc] at h
      exact (holds_append.mp h).1
    have hrest := (holds_append.mp h).2.2
    simp only [List.length_cons, lowerstackLoop, cstr_of_holds hx hnul.1 hn.1,
      strend_of_holds hx hnul.1 hn.1]
    exact congrArg (fun r => Option.bind r fun names => some (x :: names))
      (ih hnul.2 hrest hn.2)

end Split

section Unescape

variable {m : Mem} {n s d : ℕ} {c : UInt8} {path : List UInt8}

theorem unescapeLoop_pair (hs : m s = backslash) (hc : m (s + 1) = c) (h0 : c ≠ 0) :
    unescapeLoop (n + 1) m s d = unescapeLoop n (Function.update m d c) (s + 2) (d + 1) := by
  subst hc
  simp only [unescapeLoop, if_pos hs, update_reread, if_neg h0]

theorem unescapeLoop_plain (hc : m s = c) (hb : c ≠ backslash) (h0 : c ≠ 0) :
    unescapeLoop (n + 1) m s d = unescapeLoop n (Function.update m d c) (s + 1) (d + 1) := by
  subst hc
  simp only [unescapeLoop, update_reread, if_neg hb, if_neg h0]

theorem unescapeLoop_nul (hs : m s = 0) :
    unescapeLoop (n + 1) m s d = some (Function.update m d 0) := by
  have hb : m s ≠ backslash := by rw [hs]; decide
  simp only [unescapeLoop, if_neg hb, update_reread, if_pos hs]
  rw [hs]

theorem unescapeLoop_esc (h0 : 0 ∉ path) (h : Holds m s (esc path ++ [0])) (hd : d ≤ s)
    (hn : path.length < n) :
    unescapeLoop n m s d = some (write m d (path ++ [0])) := by
  induction path generalizing n m s d with
  | nil =>
    obtain ⟨j, rfl⟩ : ∃ j, n = j + 1 := ⟨n - 1, by rw [List.length_nil] at hn; omega⟩
    exact unescapeLoop_nul h.1
  | cons c cs ih =>
    rw [List.mem_cons, not_or] at h0
    have hc0 : c ≠ 0 := Ne.symm h0.1
    rw [esc_cons, List.append_assoc, holds_append] at h
    rw [List.length_cons] at hn
    obtain ⟨j, rfl⟩ : ∃ j, n = j + 1 := ⟨n - 1, by omega⟩
    obtain hc | ⟨hc, hb, -⟩ := escChar_cases c
    · rw [hc] at h
      obtain ⟨⟨hs, hs1, -⟩, h⟩ := h
      have h' : Holds (Function.update m d c) (s + 2) (esc cs ++ [0]) :=
        Holds.update (p := s + 2) h (by omega)
      rw [unescapeLoop_pair hs hs1 hc0, ih h0.2 h' (by omega) (by omega)]
      rfl
    · rw [hc] at h
      obtain ⟨⟨hs, -⟩, h⟩ := h
      have h' : Holds (Function.update m d c) (s + 1) (esc cs ++ [0]) :=
        Holds.update (p := s + 1) h (by omega)
      rw [unescapeLoop_plain hs hb hc0, ih h0.2 h' (by omega) (by omega)]
      rfl

end Unescape

/-- The keys of `ovl_tokens` before their `%s`. -/
def lowerdirKey : List UInt8 := [108, 111, 119, 101, 114, 100, 105, 114, 61]

def upperdirKey : List UInt8 := [117, 112, 112, 101, 114, 100, 105, 114, 61]

def workdirKey : List UInt8 := [119, 111, 114, 107, 100, 105, 114, 61]

theorem length_le_intercalate {x : List UInt8} {names : List (List UInt8)} (hx : x ∈ names) :
    x.length ≤ ([colon].intercalate (names.map esc)).length := by
  induction names with
  | nil => exact absurd hx List.not_mem_nil
  | cons y names ih =>
    have hy := length_le_esc y
    cases names with
    | nil =>
      rw [List.mem_singleton.mp hx]
      simpa using hy
    | cons z names =>
      rw [List.map_cons, List.map_cons, List.intercalate_cons_cons, ← List.map_cons,
        List.length_append, List.length_append]
      obtain rfl | hx := List.mem_cons.mp hx
      · omega
      · have := ih hx
        omega

theorem escaped_of_key {key : List UInt8}
    (hkey : (key.all fun c => c != 0 && c != backslash && c != comma) = true) : Escaped key := by
  induction key with
  | nil => exact .nil
  | cons c cs ih =>
    simp only [List.all_cons, Bool.and_eq_true, bne_iff_ne] at hkey
    exact .plain hkey.1.1.1 hkey.1.1.2 hkey.1.2 (ih (by simpa only [Bool.and_eq_true] using hkey.2))

/-- A mount string with escapes is read back: as its options, and the values of its
directories as the paths they were made from. The count of the lower directories is an
`unsigned int`. -/
theorem mount_string_reads_back (names : List (List UInt8)) (hne : names ≠ [])
    (hnames : ∀ x ∈ names, 0 ∉ x) (before after : List (List UInt8))
    (hopts : ∀ o ∈ before ++ after, Escaped o) :
    let lowerdir := [colon].intercalate (names.map esc)
    let opts := before ++ (lowerdirKey ++ lowerdir) :: after
    (∀ m p n, Holds m p ([comma].intercalate opts ++ [0]) →
        ([comma].intercalate opts).length + 1 < n →
        parseOptLoop n n m (some p) = some opts) ∧
      (∀ m p n, Holds m p (lowerdir ++ [0]) → lowerdir.length < n →
        ∃ m', ovlSplitLowerdirs n m p = some (names.length % 2 ^ 32, m') ∧
          lowerstackLoop n m' names.length p = some names) ∧
      ∀ path, 0 ∉ path →
        Escaped (upperdirKey ++ esc path) ∧ Escaped (workdirKey ++ esc path) ∧
          ∀ m p n, Holds m p (esc path ++ [0]) → (esc path).length < n →
            ∃ m', ovlUnescape n m p = some m' ∧ cstr m' n p = some path := by
  intro lowerdir opts
  have hall : ∀ o ∈ opts, Escaped o := by
    intro o ho
    have hval : Escaped (lowerdirKey ++ lowerdir) :=
      (escaped_of_key rfl).append (escaped_intercalate hnames)
    obtain ho | ho := List.mem_append.mp ho
    · exact hopts o (List.mem_append_left _ ho)
    · obtain rfl | ho := List.mem_cons.mp ho
      · exact hval
      · exact hopts o (List.mem_append_right _ ho)
  refine ⟨?_, ?_, ?_⟩
  · intro m p n hm hn
    have hne' : opts ≠ [] := List.append_ne_nil_of_right_ne_nil _ (List.cons_ne_nil _ _)
    exact parseOptLoop_join hne' hall hm (by omega) hn
  · intro m p n hm hn
    refine ⟨write m p (segments names), ?_, ?_⟩
    · rw [ovlSplitLowerdirs,
        splitLoop_join hne hnames hm (Nat.le_refl p) hn (by decide), Nat.add_sub_cancel_left]
    · apply lowerstackLoop_segments hnames holds_write
      intro x hx
      exact Nat.lt_of_le_of_lt (length_le_intercalate hx) hn
  · intro path hpath
    refine ⟨(escaped_of_key rfl).append (escaped_esc hpath),
      (escaped_of_key rfl).append (escaped_esc hpath), ?_⟩
    intro m p n hm hn
    have hlen := Nat.lt_of_le_of_lt (length_le_esc path) hn
    exact ⟨write m p (path ++ [0]), unescapeLoop_esc hpath hm (Nat.le_refl p) hlen,
      cstr_of_holds holds_write hpath hlen⟩

/-- Two lower directories, one with a colon and one that ends in a backslash, between
an option with an escaped comma and an empty one. -/
theorem mount_string_reads_back_two :
    let names : List (List UInt8) := [[47, 97, 58], [98, 92]]
    let opts := [[120, 92, 44]] ++ (lowerdirKey ++ [colon].intercalate (names.map esc)) :: [[]]
    parseOptLoop 40 40 (write (fun _ => 0) 0 ([comma].intercalate opts ++ [0])) (some 0) =
      some opts := by
  have hopts : ∀ o ∈ [[120, 92, 44]] ++ [([] : List UInt8)], Escaped o := by
    intro o ho
    simp only [List.singleton_append, List.mem_cons, List.not_mem_nil, or_false] at ho
    obtain rfl | rfl := ho
    · exact .plain (by decide) (by decide) (by decide) (.pair (by decide) .nil)
    · exact .nil
  exact (mount_string_reads_back [[47, 97, 58], [98, 92]] (by decide) (by decide)
    [[120, 92, 44]] [[]] hopts).1 _ 0 40 holds_write (by decide)

end FzzOverlay

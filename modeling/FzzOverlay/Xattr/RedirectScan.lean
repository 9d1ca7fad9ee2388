import FzzOverlay.RedirectXattr
import FzzOverlay.Lib.NameList

/-!
# The scan of a redirect

The loop of `ovl_get_redirect_xattr` on the offsets into the buffer, with the string
functions it calls. Only the first `lim` bytes may be read. Taking a string apart this way
agrees with `redirectOk`, and the strings it passes are those of a grammar.

## Main definitions

- `redirectScan` — the loop over an absolute redirect
- `ovlGetRedirectXattrRun` — `ovl_get_redirect_xattr` with that loop
- `IsRedirect` — the grammar

## Main results

- `validRedirectAt_eq` — the scan returns, reads no byte behind the terminator, and computes
  `redirectOk`
- `redirectXattr_grammar` — which values are returned, and what happens to the others
-/

namespace FzzOverlay

open CString NameList SlashPath

section Scan

variable (lim : ℕ) (buf : List UInt8)

/-- `strchrnul` of the string at `p` and a slash. -/
def strchrnulAt : ℕ → ℕ → Outcome ℕ
  | 0, _ => .running
  | fuel + 1, p =>
    match NameList.byteAt lim buf p with
    | none => .oops
    | some c => if c = 0 ∨ c = slash then .ret p else strchrnulAt fuel (p + 1)

/-- `strchr` of the string at `p` and a slash. -/
def strchrAt : ℕ → ℕ → Outcome (Option ℕ)
  | 0, _ => .running
  | fuel + 1, p =>
    match NameList.byteAt lim buf p with
    | none => .oops
    | some c =>
      if c = slash then .ret (some p)
      else if c = 0 then .ret none
      else strchrAt fuel (p + 1)

/-- The loop over an absolute redirect; `false` is the jump to `invalid`. The byte at `s` is
read once, and the cursor is one further for the body. -/
def redirectScan : ℕ → ℕ → Outcome Bool
  | 0, _ => .running
  | fuel + 1, s =>
    match NameList.byteAt lim buf s with
    | none => .oops
    | some c =>
      if c = slash then
        match strchrnulAt lim buf fuel (s + 1) with
        | .running => .running
        | .oops => .oops
        | .ret next => if s + 1 = next then .ret false else redirectScan fuel next
      else .ret true

/-- What `ovl_get_redirect_xattr` checks of the buffer. -/
def validRedirectAt (fuel : ℕ) : Outcome Bool :=
  match NameList.byteAt lim buf 0 with
  | none => .oops
  | some c =>
    if c = slash then redirectScan lim buf fuel 0
    else
      match strchrAt lim buf fuel 0 with
      | .running => .running
      | .oops => .oops
      | .ret found => .ret found.isNone

/-- `ovl_get_redirect_xattr` where no string function or loop takes more than `fuel` steps and
only the first `lim` bytes of the buffer may be read. -/
def ovlGetRedirectXattrRun (fuel : ℕ) (mem : Kmalloc) (value : Except Errno XattrValue)
    (padding : ℤ) : Outcome (Except Errno (Option (List UInt8))) :=
  match ovlGetxattr mem value ((padding + 1) % 2 ^ 64).toNat with
  | .running => .running
  | .oops => .oops
  | .ret (.error e) => if e.ret = ENODATA.ret then .ret (.ok none) else .ret (.error e)
  | .ret (.ok none) => .ret (.error EINVAL)
  | .ret (.ok (some buf)) =>
    match validRedirectAt lim buf fuel with
    | .running => .running
    | .oops => .oops
    | .ret true => .ret (.ok (some buf))
    | .ret false => .ret (.error EINVAL)

end Scan

section Reads

variable {lim p fuel : ℕ} {buf c s rest : List UInt8}

/-- Behind a component is a slash or the end of the string. -/
theorem strchrnulAt_component (h : buf.drop p = c ++ (s ++ 0 :: rest)) (hzero : 0 ∉ c)
    (hc : slash ∉ c) (hs : AtSlash s) (hlim : p + (c.length + s.length) < lim)
    (hfuel : c.length < fuel) : strchrnulAt lim buf fuel p = .ret (p + c.length) := by
  have hp : p < lim := by omega
  induction c generalizing p fuel with
  | nil =>
    obtain ⟨fuel, rfl⟩ : ∃ m, fuel = m + 1 := ⟨fuel - 1, by omega⟩
    rw [List.nil_append] at h
    rw [strchrnulAt, List.length_nil]
    cases s with
    | nil =>
      rw [List.nil_append] at h
      simp only [NameList.byteAt_of_drop h hp, true_or, if_true, Nat.add_zero]
    | cons b s =>
      obtain hnil | hhead := hs
      · cases hnil
      · rw [List.cons_append] at h
        have hb : b = slash := Option.some.inj hhead
        simp only [NameList.byteAt_of_drop h hp, hb, or_true, if_true, Nat.add_zero]
  | cons b c ih =>
    obtain ⟨fuel, rfl⟩ : ∃ m, fuel = m + 1 := ⟨fuel - 1, by omega⟩
    rw [List.length_cons] at hlim hfuel
    rw [List.mem_cons, not_or] at hzero hc
    rw [List.cons_append] at h
    have hstop : ¬ (b = 0 ∨ b = slash) := by
      rintro (hb | hb)
      · exact hzero.1 hb.symm
      · exact hc.1 hb.symm
    rw [strchrnulAt]
    simp only [NameList.byteAt_of_drop h hp, if_neg hstop]
    rw [ih (drop_succ_of_drop h) hzero.2 hc.2 (by omega) (by omega) (by omega), List.length_cons]
    congr 1
    omega

/-- A string without a slash is searched in vain. -/
theorem strchrAt_isNone (h : buf.drop p = s ++ 0 :: rest) (hzero : 0 ∉ s)
    (hlim : p + s.length < lim) (hfuel : s.length < fuel) :
    ∃ found, strchrAt lim buf fuel p = .ret found ∧ found.isNone = !s.contains slash := by
  have hp : p < lim := by omega
  induction s generalizing p fuel with
  | nil =>
    obtain ⟨fuel, rfl⟩ : ∃ m, fuel = m + 1 := ⟨fuel - 1, by omega⟩
    rw [List.nil_append] at h
    refine ⟨none, ?_, rfl⟩
    rw [strchrAt]
    simp only [NameList.byteAt_of_drop h hp, if_neg (show (0 : UInt8) ≠ slash by decide), if_true]
  | cons b s ih =>
    obtain ⟨fuel, rfl⟩ : ∃ m, fuel = m + 1 := ⟨fuel - 1, by omega⟩
    rw [List.length_cons] at hlim hfuel
    rw [List.mem_cons, not_or] at hzero
    rw [List.cons_append] at h
    rw [strchrAt]
    simp only [NameList.byteAt_of_drop h hp, List.contains_cons]
    by_cases hb : b = slash
    · exact ⟨some p, if_pos hb, by simp [hb]⟩
    · have hbehind : buf.drop (p + 1) = s ++ 0 :: rest := drop_succ_of_drop h
      obtain ⟨found, hfind, hnone⟩ : ∃ found, strchrAt lim buf fuel (p + 1) = .ret found ∧
          found.isNone = !s.contains slash :=
        ih hbehind hzero.2 (by omega) (by omega) (by omega)
      refine ⟨found, ?_, ?_⟩
      · rw [if_neg hb, if_neg (fun h0 => hzero.1 h0.symm), hfind]
      · have hne : (slash == b) = false := beq_false_of_ne (Ne.symm hb)
        rw [hnone, hne, Bool.false_or]

/-- The loop returns what the check of the string says, and reads nothing behind its
terminator. The induction is on the passes: each one takes at least the slash. -/
theorem redirectScan_eq (h : buf.drop p = s ++ 0 :: rest) (hzero : 0 ∉ s)
    (hlim : p + s.length < lim) (hfuel : s.length < fuel) :
    redirectScan lim buf fuel p = .ret (componentsOk s) := by
  induction fuel generalizing p s with
  | zero => omega
  | succ fuel ih =>
    have hp : p < lim := by omega
    rw [redirectScan]
    cases s with
    | nil =>
      have hne : (0 : UInt8) ≠ slash := by decide
      rw [List.nil_append] at h
      simp only [NameList.byteAt_of_drop h hp, if_neg hne]
      rw [componentsOk]
    | cons b s =>
      rw [List.length_cons] at hlim hfuel
      rw [List.mem_cons, not_or] at hzero
      rw [List.cons_append] at h
      simp only [NameList.byteAt_of_drop h hp]
      by_cases hb : b = slash
      · rw [if_pos hb, componentsOk, if_pos hb]
        obtain ⟨c, hc, hsplit⟩ := exists_component s
        have hlen := congrArg List.length hsplit
        rw [List.length_append] at hlen
        have hdrop : buf.drop (p + 1) = c ++ (strchrnul s ++ 0 :: rest) := by
          rw [drop_succ_of_drop h, ← List.append_assoc, ← hsplit]
        have hzc : 0 ∉ c := fun h0 => hzero.2 (by rw [hsplit]; exact List.mem_append_left _ h0)
        have hzs : 0 ∉ strchrnul s :=
          fun h0 => hzero.2 (by rw [hsplit]; exact List.mem_append_right _ h0)
        have hnext : buf.drop (p + 1 + c.length) = strchrnul s ++ 0 :: rest := by
          rw [← List.drop_drop, hdrop, List.drop_left]
        have hfind : strchrnulAt lim buf fuel (p + 1) = .ret (p + 1 + c.length) :=
          strchrnulAt_component hdrop hzc hc (atSlash_strchrnul s) (by omega) (by omega)
        simp only [hfind]
        by_cases hempty : s = strchrnul s
        · -- a slash or the terminator right behind the slash
          have hnil : c.length = 0 := by
            have := congrArg List.length hempty
            omega
          rw [if_pos (by omega), if_pos hempty]
        · have hlong : c.length ≠ 0 := by
            intro hnil
            rw [List.length_eq_zero_iff] at hnil
            rw [hnil, List.nil_append] at hsplit
            exact hempty hsplit
          rw [if_neg (by omega), if_neg hempty]
          exact ih hnext hzs (by omega) (by omega)
      · rw [if_neg hb, componentsOk, if_neg hb]

/-- The check of a buffer is that of its string. -/
theorem validRedirectAt_eq (h : buf = s ++ 0 :: rest) (hzero : 0 ∉ s) (hlim : s.length < lim)
    (hfuel : s.length < fuel) : validRedirectAt lim buf fuel = .ret (redirectOk s) := by
  have hdrop : buf.drop 0 = s ++ 0 :: rest := by rw [List.drop_zero, h]
  have hlim0 : 0 + s.length < lim := by omega
  have hpos : 0 < lim := by omega
  have hscan := redirectScan_eq hdrop hzero hlim0 hfuel
  obtain ⟨found, hfind, hnone⟩ := strchrAt_isNone hdrop hzero hlim0 hfuel
  rw [validRedirectAt, redirectOk, hscan, hfind]
  cases s with
  | nil =>
    have hne : (0 : UInt8) ≠ slash := by decide
    rw [List.nil_append] at hdrop
    simp only [NameList.byteAt_of_drop hdrop hpos, if_neg hne, hnone]
    rfl
  | cons b s =>
    rw [List.cons_append] at hdrop
    simp only [NameList.byteAt_of_drop hdrop hpos, List.head?_cons, Option.some.injEq, hnone]
    split <;> rfl

end Reads

/-- A redirect is a nonempty name, or one or more groups of a slash and a nonempty name. -/
def IsRedirect (s : List UInt8) : Prop :=
  s ≠ [] ∧ slash ∉ s ∨ ∃ cs, cs ≠ [] ∧ (∀ c ∈ cs, IsComponent c) ∧ s = path cs

section Grammar

variable {s : List UInt8}

theorem redirectOk_iff_isRedirect (hne : s ≠ []) : redirectOk s = true ↔ IsRedirect s := by
  rw [redirectOk_iff, IsRedirect, or_comm, and_iff_right hne]

theorem not_isRedirect_nil : ¬ IsRedirect [] := by
  rintro (⟨hne, -⟩ | ⟨cs, hne, -, hpath⟩)
  · exact hne rfl
  · cases cs with
    | nil => exact hne rfl
    | cons c cs => cases hpath

end Grammar

section Exact

variable {v : XattrValue} {padding fuel : ℕ}

/-- The call returns, and returns what the check of the whole string decides. -/
theorem ovlGetRedirectXattrRun_eq (mem : Kmalloc) (hzero : 0 ∉ v.bytes)
    (hp : padding + 1 < 2 ^ 31) (hfuel : v.bytes.length < fuel) :
    ovlGetRedirectXattrRun (v.bytes.length + 1) fuel mem (.ok v) padding =
      ovlGetRedirectXattr mem (.ok v) padding := by
  have hpad : (((padding : ℤ) + 1) % 2 ^ 64).toNat = padding + 1 := by omega
  have hstr : str (v.bytes ++ List.replicate (padding + 1) 0) = v.bytes :=
    (⟨rfl, ⟨List.replicate padding 0, rfl⟩, hzero⟩ :
      Carries (v.bytes ++ List.replicate (padding + 1) 0) _ v.bytes).str_eq
  have hvalid : validRedirectAt (v.bytes.length + 1)
      (v.bytes ++ List.replicate (padding + 1) 0) fuel = .ret (redirectOk v.bytes) :=
    validRedirectAt_eq rfl hzero (Nat.lt_succ_self _) hfuel
  rw [ovlGetRedirectXattrRun, ovlGetRedirectXattr, hpad, ovlGetxattr_ok mem v hp]
  by_cases hlen : v.bytes.length = 0
  · simp only [if_pos hlen]
  · simp only [if_neg hlen]
    cases mem.succeeds (v.bytes.length + (padding + 1)) with
    | false => rfl
    | true =>
      simp only [Bool.not_true, Bool.false_eq_true, if_false, hvalid, hstr]
      cases redirectOk v.bytes with
      | false => rfl
      | true => rfl

/-- The redirect validator accepts exactly its grammar. For a value without zero bytes the call
returns and has read no byte of the string behind the terminator. It returns the value, with
the padding behind it, if and only if that is a redirect, and else `-EINVAL`; only when
there is no memory for the buffer it returns `-ENOMEM`. -/
theorem redirectXattr_grammar (mem : Kmalloc) (hzero : 0 ∉ v.bytes)
    (hp : padding + 1 < 2 ^ 31) :
    ∃ r, (∀ fuel, v.bytes.length < fuel →
        ovlGetRedirectXattrRun (v.bytes.length + 1) fuel mem (.ok v) padding = .ret r) ∧
      (v.bytes = [] ∨ mem.succeeds (v.bytes.length + (padding + 1)) = true →
        (r = .ok (some (v.bytes ++ List.replicate (padding + 1) 0)) ↔ IsRedirect v.bytes) ∧
        (¬ IsRedirect v.bytes → r = .error EINVAL)) ∧
      (v.bytes ≠ [] ∧ mem.succeeds (v.bytes.length + (padding + 1)) = false →
        r = .error ENOMEM) := by
  have hstr : str v.bytes = v.bytes := by
    rw [← str_append_zeros v.bytes 1]
    exact (⟨rfl, ⟨[], rfl⟩, hzero⟩ : Carries (v.bytes ++ [0]) _ v.bytes).str_eq
  have hrun := ovlGetRedirectXattr_ok mem v hp
  rw [hstr] at hrun
  by_cases hnil : v.bytes = []
  · have hlen : v.bytes.length = 0 := by rw [hnil]; rfl
    have hno : ¬ IsRedirect v.bytes := by
      rw [hnil]
      exact not_isRedirect_nil
    refine ⟨.error EINVAL, fun fuel hfuel => ?_, fun _ => ⟨⟨nofun, fun h => absurd h hno⟩,
      fun _ => rfl⟩, fun h => absurd hnil h.1⟩
    rw [ovlGetRedirectXattrRun_eq mem hzero hp hfuel, hrun, if_pos hlen]
  have hlen : v.bytes.length ≠ 0 := fun h => hnil (List.length_eq_zero_iff.mp h)
  rw [if_neg hlen] at hrun
  cases hmem : mem.succeeds (v.bytes.length + (padding + 1)) with
  | false =>
    refine ⟨.error ENOMEM, fun fuel hfuel => ?_, fun h => ?_, fun _ => rfl⟩
    · rw [ovlGetRedirectXattrRun_eq mem hzero hp hfuel, hrun, hmem]
      rfl
    · obtain h | h := h
      · exact absurd h hnil
      · cases h
  | true =>
    rw [hmem] at hrun
    have hgrammar := redirectOk_iff_isRedirect hnil
    cases hok : redirectOk v.bytes with
    | false =>
      rw [hok] at hrun hgrammar
      have hno : ¬ IsRedirect v.bytes := fun h => Bool.false_ne_true (hgrammar.mpr h)
      refine ⟨.error EINVAL, fun fuel hfuel => ?_, fun _ => ⟨⟨nofun, fun h => absurd h hno⟩,
        fun _ => rfl⟩, fun h => by cases h.2⟩
      rw [ovlGetRedirectXattrRun_eq mem hzero hp hfuel, hrun]
      rfl
    | true =>
      rw [hok] at hrun hgrammar
      have hyes : IsRedirect v.bytes := hgrammar.mp rfl
      refine ⟨_, fun fuel hfuel => ?_, fun _ => ⟨⟨fun _ => hyes, fun _ => rfl⟩,
        fun h => absurd hyes h⟩, fun h => by cases h.2⟩
      rw [ovlGetRedirectXattrRun_eq mem hzero hp hfuel, hrun]
      rfl

theorem le_of_ample (n : ℕ) (h : decide (n ≤ KMALLOC_MAX_SIZE) = true) : n ≤ KMALLOC_MAX_SIZE :=
  of_decide_eq_true h

/-- There is memory for everything that may be asked for. -/
def Kmalloc.ample : Kmalloc := ⟨fun n => decide (n ≤ KMALLOC_MAX_SIZE), le_of_ample⟩

/-- The value `/a`. -/
def slashName : XattrValue := ⟨[47, 97], by decide⟩

theorem redirectXattr_grammar_slash :
    ovlGetRedirectXattrRun 3 3 .ample (.ok slashName) (0 : ℕ) =
      .ret (.ok (some [47, 97, 0])) := by
  obtain ⟨r, hrun, hgrammar, -⟩ :=
    @redirectXattr_grammar slashName 0 .ample (by decide) (by decide)
  have hredirect : IsRedirect slashName.bytes := by
    refine .inr ⟨[[97]], List.cons_ne_nil _ _, fun c hc => ?_, rfl⟩
    rw [List.mem_singleton.mp hc]
    exact ⟨List.cons_ne_nil _ _, by decide⟩
  rw [(hgrammar (.inr (by decide))).1.mpr hredirect] at hrun
  exact hrun 3 (by decide)

end Exact

end FzzOverlay

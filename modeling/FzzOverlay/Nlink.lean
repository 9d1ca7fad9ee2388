import Mathlib.Data.Finset.Card
import Mathlib.Data.List.TakeWhile
import FzzOverlay.Entry
import FzzOverlay.Lib.Run

/-!
# The persistent link count

The extended attribute that keeps the link count of an indexed file, as `inode.c` writes
and reads it, and the operations that change the number of its names: copying up one more
lower name, and link, unlink and rename-over between `ovl_nlink_start` and `ovl_nlink_end`.
These hold the lock of the overlay inode, so they do not overlap. An operation is taken
apart into the calls that change something, and each of them can fail.
-/

namespace FzzOverlay

/-- A value converted to `int`. -/
def int32 (x : ℤ) : ℤ := (x + 2147483648) % 4294967296 - 2147483648

/-- `inc_nlink` and `drop_nlink` on an `unsigned int`. -/
def inc32 (n : ℕ) : ℕ := (n + 1) % 4294967296

def dec32 (n : ℕ) : ℕ := (n + 4294967295) % 4294967296

/-- What the stored count is relative to. -/
inductive NlinkBase where
  | upper | lower
  deriving DecidableEq

def NlinkBase.char : NlinkBase → Char
  | .upper => 'U'
  | .lower => 'L'

section Xattr

/-- `%+i`. -/
def formatSigned (x : ℤ) : List Char :=
  (if x < 0 then '-' else '+') :: Nat.toDigits 10 x.natAbs

/-- `ovl_set_nlink_common`: the value of the attribute. -/
def ovlSetNlinkCommon (base : NlinkBase) (nlink realNlink : ℕ) : Except Errno (List Char) :=
  let buf := base.char :: formatSigned (int32 ((nlink : ℤ) - realNlink))
  if 13 ≤ buf.length then .error EIO else .ok buf

/-- `kstrtoint` with base 10. -/
def kstrtoint (s : List Char) : Option ℤ :=
  let neg := decide (s.head? = some '-')
  let s := if s.head? = some '-' ∨ s.head? = some '+' then s.tail else s
  let digits := s.takeWhile Char.isDigit
  let rest := s.dropWhile Char.isDigit
  let v : ℤ := if neg then -Nat.ofDigitChars 10 digits 0 else Nat.ofDigitChars 10 digits 0
  if digits ≠ [] ∧ (rest = [] ∨ rest = ['\n']) ∧ -2147483648 ≤ v ∧ v < 2147483648 then some v
  else none

/-- `ovl_get_nlink`, for a file with an upper and a lower inode. -/
def ovlGetNlink (lowerNlink upperNlink : ℕ) (xattr : List Char) (fallback : ℕ) : ℕ :=
  if lowerNlink = 1 then fallback
  else if 12 < xattr.length then fallback
  else
    let buf := xattr.takeWhile (· ≠ '\x00')
    match buf with
    | base :: sign :: digits =>
      if (base ≠ 'L' ∧ base ≠ 'U') ∨ (sign ≠ '+' ∧ sign ≠ '-') then fallback
      else
        match kstrtoint (sign :: digits) with
        | none => fallback
        | some diff =>
          let nlink := int32 (int32 (if base = 'L' then lowerNlink else upperNlink) + diff)
          if nlink ≤ 0 then fallback else nlink.toNat
    | _ => fallback

theorem int32_ge (x : ℤ) : -2147483648 ≤ int32 x := by
  unfold int32
  omega

theorem int32_lt (x : ℤ) : int32 x < 2147483648 := by
  unfold int32
  omega

variable {x : ℤ}

theorem length_formatSigned (hlo : -2147483648 ≤ x) (hhi : x < 2147483648) :
    (formatSigned x).length ≤ 11 := by
  have hdigits : (Nat.toDigits 10 x.natAbs).length ≤ 10 :=
    (Nat.length_toDigits_le_iff (by decide) (by decide)).mpr (by omega)
  rw [formatSigned, List.length_cons]
  omega

theorem ovlSetNlinkCommon_eq (base : NlinkBase) (nlink realNlink : ℕ) :
    ovlSetNlinkCommon base nlink realNlink =
      .ok (base.char :: formatSigned (int32 ((nlink : ℤ) - realNlink))) := by
  have hlen := length_formatSigned (int32_ge ((nlink : ℤ) - realNlink)) (int32_lt _)
  rw [ovlSetNlinkCommon]
  apply if_neg
  rw [List.length_cons]
  omega

theorem isDigit_toDigits (n : ℕ) : ∀ c ∈ Nat.toDigits 10 n, c.isDigit = true := fun _ hc =>
  Nat.isDigit_of_mem_toDigits (by decide) (by decide) hc

theorem kstrtoint_formatSigned (hlo : -2147483648 ≤ x) (hhi : x < 2147483648) :
    kstrtoint (formatSigned x) = some x := by
  obtain ⟨n, hn⟩ : ∃ n, n = x.natAbs := ⟨_, rfl⟩
  have htake : (Nat.toDigits 10 n).takeWhile Char.isDigit = Nat.toDigits 10 n :=
    List.takeWhile_eq_self_iff.mpr (isDigit_toDigits _)
  have hdrop : (Nat.toDigits 10 n).dropWhile Char.isDigit = [] :=
    List.dropWhile_eq_nil_iff.mpr (isDigit_toDigits _)
  have hval : Nat.ofDigitChars 10 (Nat.toDigits 10 n) 0 = n := Nat.ofDigitChars_ten_toDigits
  rw [formatSigned, ← hn]
  by_cases hneg : x < 0
  · have hx : -(n : ℤ) = x := by omega
    simp [kstrtoint, hneg, htake, hdrop, hval, hx, hlo, hhi, Nat.toDigits_ne_nil]
  · have hx : (n : ℤ) = x := by omega
    simp [kstrtoint, hneg, htake, hdrop, hval, hx, hlo, hhi, Nat.toDigits_ne_nil]

/-- Reading back what was stored: the value is added to the count it is relative to. -/
theorem ovlGetNlink_stored {base : NlinkBase} {lowerNlink upperNlink fallback : ℕ}
    (hlo : -2147483648 ≤ x) (hhi : x < 2147483648) (hlower : lowerNlink ≠ 1) :
    ovlGetNlink lowerNlink upperNlink (base.char :: formatSigned x) fallback =
      let nlink := int32 (int32 (if base = .lower then lowerNlink else upperNlink) + x)
      if nlink ≤ 0 then fallback else nlink.toNat := by
  have hlen := length_formatSigned hlo hhi
  have hbuf : (base.char :: formatSigned x).takeWhile (· ≠ '\x00') =
      base.char :: formatSigned x := by
    apply List.takeWhile_eq_self_iff.mpr
    intro c hc
    obtain rfl | hc := List.mem_cons.mp hc
    · cases base <;> decide
    · obtain rfl | hc := List.mem_cons.mp hc
      · split <;> decide
      · have hdigit := isDigit_toDigits _ c hc
        rw [decide_eq_true_eq]
        rintro rfl
        exact absurd hdigit (by decide)
  have hparse := kstrtoint_formatSigned hlo hhi
  rw [ovlGetNlink, if_neg hlower, if_neg (by rw [List.length_cons]; omega)]
  simp only [hbuf]
  rw [formatSigned] at hparse ⊢
  cases base <;> simp [NlinkBase.char, hparse]

end Xattr

/-- The operations that change the number of names, with the name they change. -/
inductive LinkOp (N : Type) where
  | link (n : N)
  | unlink (n : N)
  | renameOver (n : N)

/-- Where the operation that holds the lock stands. -/
inductive LinkPhase (N : Type) where
  | idle
  /-- `ovl_link_up` stored the count and is about to link the name. -/
  | linkUp (n : N)
  /-- It linked the name and is about to store the count again. -/
  | linkUpDone
  /-- `ovl_nlink_start` is done. -/
  | started (op : LinkOp N)
  /-- A link over a whiteout made a link in the work directory. -/
  | temp (n : N)
  /-- That link could not be renamed. -/
  | tempFailed
  /-- The name is linked, and the count of the overlay inode is not yet. -/
  | linked
  /-- The name is gone, and the count of the overlay inode is not yet. -/
  | removed
  /-- `ovl_nlink_end` is left. -/
  | ending

/-- The calls of an operation; `ok` tells whether the call succeeds. -/
inductive LinkEvent (N : Type) where
  | setNlinkLower (n : N) (ok : Bool)
  | linkUp (ok : Bool)
  | setNlinkUpper (ok : Bool)
  | nlinkStart (op : LinkOp N) (ok : Bool)
  | createUpper (ok : Bool)
  | createTemp (ok : Bool)
  | renameTemp (ok : Bool)
  | cleanupTemp (ok : Bool)
  | incNlink
  | removeUpper (ok : Bool)
  | removeAndWhiteout (ok : Bool)
  | rename (ok : Bool)
  | dropNlink
  | nlinkEnd (ok : Bool)

/-- An indexed file. The places a name can be at are of type `N`. -/
structure LinkState (N : Type) where
  /-- The names of the lower inode. -/
  lowers : Finset N
  /-- The names of the upper inode, without the index entry. -/
  aliases : Finset N
  /-- The upper layer has a whiteout, or another file, at these places. -/
  whiteouts : Finset N
  others : Finset N
  /-- Links in the work directory. -/
  temps : ℕ
  /-- Those of them that were made since the attribute was last stored. -/
  newTemps : ℕ
  xattr : List Char
  /-- `i_nlink` of the overlay inode. -/
  nlink : ℕ
  phase : LinkPhase N

namespace LinkState

variable {N : Type} [DecidableEq N]

/-- The lower names that nothing in the upper layer covers. -/
def uncovered (s : LinkState N) : Finset N := s.lowers \ (s.aliases ∪ s.whiteouts ∪ s.others)

/-- The number of names in the overlay. -/
def union (s : LinkState N) : ℕ := s.aliases.card + s.uncovered.card

def upperNlink (s : LinkState N) : ℕ := 1 + s.aliases.card + s.temps

def lowerNlink (s : LinkState N) : ℕ := s.lowers.card

def realNlink (s : LinkState N) : NlinkBase → ℕ
  | .upper => s.upperNlink
  | .lower => s.lowerNlink

/-- `ovl_set_nlink_upper` or `ovl_set_nlink_lower`. A call that fails changes nothing. -/
def store (s : LinkState N) (base : NlinkBase) (ok : Bool) : Option (LinkState N) :=
  match ok, ovlSetNlinkCommon base s.nlink (s.realNlink base) with
  | true, .ok buf => some { s with xattr := buf, newTemps := 0 }
  | _, _ => none

/-- Whether an operation can be started: link takes a free place, and the others a name of
the upper inode, which `ovl_nlink_start` links up first. -/
def admits (s : LinkState N) : LinkOp N → Bool
  | .link n => decide (1 ≤ s.union ∧ n ∉ s.aliases ∧ n ∉ s.others ∧
      (n ∈ s.lowers → n ∈ s.whiteouts))
  | .unlink n => decide (n ∈ s.aliases)
  | .renameOver n => decide (n ∈ s.aliases)

/-- `ovl_nlink_end`, with `ovl_cleanup_index` when the count is zero: an index inode with
other links gets their number as its count. -/
def nlinkEnd (s : LinkState N) (ok : Bool) : LinkState N :=
  let s := { s with phase := .idle }
  if s.nlink = 0 ∧ s.upperNlink ≠ 1 then
    let s := { s with nlink := s.upperNlink - 1 }
    (s.store .upper ok).getD s
  else s

/-- One call of the operation that holds the lock, or the first call of a new one. -/
def step (s : LinkState N) (e : LinkEvent N) : Option (LinkState N) :=
  match s.phase, e with
  | .idle, .setNlinkLower n ok =>
    if n ∈ s.uncovered then
      some (((s.store .lower ok).map ({ · with phase := .linkUp n })).getD s)
    else none
  | .linkUp n, .linkUp ok =>
    some (if ok then { s with aliases := insert n s.aliases, phase := .linkUpDone }
      else { s with phase := .idle })
  | .linkUpDone, .setNlinkUpper ok => some { (s.store .upper ok).getD s with phase := .idle }
  | .idle, .nlinkStart op ok =>
    if s.admits op then
      some (((s.store .upper ok).map ({ · with phase := .started op })).getD s)
    else none
  | .started (.link n), .createUpper ok =>
    if n ∈ s.whiteouts then none
    else some (if ok then { s with aliases := insert n s.aliases, phase := .linked }
      else { s with phase := .ending })
  | .started (.link n), .createTemp ok =>
    if n ∈ s.whiteouts then
      some (if ok then
        { s with temps := s.temps + 1, newTemps := s.newTemps + 1, phase := .temp n }
      else { s with phase := .ending })
    else none
  | .temp n, .renameTemp ok =>
    some (if ok then
      { s with
        temps := s.temps - 1, newTemps := s.newTemps - 1, aliases := insert n s.aliases
        whiteouts := s.whiteouts.erase n, phase := .linked }
    else { s with phase := .tempFailed })
  | .tempFailed, .cleanupTemp ok =>
    some (if ok then
      { s with temps := s.temps - 1, newTemps := s.newTemps - 1, phase := .ending }
    else { s with phase := .ending })
  | .linked, .incNlink => some { s with nlink := inc32 s.nlink, phase := .ending }
  | .started (.unlink n), .removeUpper ok =>
    if n ∈ s.lowers then none
    else some (if ok then { s with aliases := s.aliases.erase n, phase := .removed }
      else { s with phase := .ending })
  | .started (.unlink n), .removeAndWhiteout ok =>
    some (if ok then
      { s with
        aliases := s.aliases.erase n, whiteouts := insert n s.whiteouts, phase := .removed }
    else { s with phase := .ending })
  | .started (.renameOver n), .rename ok =>
    some (if ok then
      { s with aliases := s.aliases.erase n, others := insert n s.others, phase := .removed }
    else { s with phase := .ending })
  | .removed, .dropNlink => some { s with nlink := dec32 s.nlink, phase := .ending }
  | .ending, .nlinkEnd ok => some (s.nlinkEnd ok)
  | _, _ => none

/-- The file when `ovl_do_copy_up` has stored the attribute: the index entry is the only
name of the upper inode, no lower name is covered, and the overlay inode has the link
count of the lower one. -/
structure CopiedUp (s : LinkState N) : Prop where
  aliases : s.aliases = ∅
  covers : Disjoint s.lowers (s.whiteouts ∪ s.others)
  temps : s.temps = 0
  newTemps : s.newTemps = 0
  nlink : s.nlink = s.lowerNlink
  xattr : ovlSetNlinkCommon .upper s.nlink s.upperNlink = .ok s.xattr
  phase : s.phase = .idle

section Count

variable {s : LinkState N} {n : N}

/-- A lower name that is linked up is no longer uncovered. -/
theorem union_linkUp (ph : LinkPhase N) (h : n ∈ s.uncovered) :
    ({ s with aliases := insert n s.aliases, phase := ph } : LinkState N).union = s.union := by
  have hn : n ∉ s.aliases := by
    intro hn
    simp [uncovered, hn] at h
  have hunc : ({ s with aliases := insert n s.aliases, phase := ph } : LinkState N).uncovered =
      s.uncovered.erase n := by
    ext k
    simp only [uncovered, Finset.mem_sdiff, Finset.mem_union, Finset.mem_insert,
      Finset.mem_erase]
    tauto
  have hpos : 0 < s.uncovered.card := Finset.card_pos.mpr ⟨n, h⟩
  rw [union, hunc, Finset.card_erase_of_mem h, union, Finset.card_insert_of_notMem hn]
  omega

/-- What covers the lower names decides which of them are counted. -/
theorem uncovered_congr {s t : LinkState N} (hl : t.lowers = s.lowers)
    (h : ∀ k ∈ s.lowers, k ∈ t.aliases ∪ t.whiteouts ∪ t.others ↔
      k ∈ s.aliases ∪ s.whiteouts ∪ s.others) : t.uncovered = s.uncovered := by
  ext k
  simp only [uncovered, Finset.mem_sdiff, hl]
  constructor
  · rintro ⟨hk, hc⟩
    exact ⟨hk, fun hc' => hc ((h k hk).mpr hc')⟩
  · rintro ⟨hk, hc⟩
    exact ⟨hk, fun hc' => hc ((h k hk).mp hc')⟩

theorem union_insert {t : LinkState N} (hn : n ∉ s.aliases) (ha : t.aliases = insert n s.aliases)
    (hu : t.uncovered = s.uncovered) : t.union = s.union + 1 := by
  rw [union, union, hu, ha, Finset.card_insert_of_notMem hn]
  omega

theorem union_erase {t : LinkState N} (hn : n ∈ s.aliases) (ha : t.aliases = s.aliases.erase n)
    (hu : t.uncovered = s.uncovered) : t.union + 1 = s.union := by
  have hpos : 0 < s.aliases.card := Finset.card_pos.mpr ⟨n, hn⟩
  rw [union, union, hu, ha, Finset.card_erase_of_mem hn]
  omega

end Count

section Invariant

variable {s : LinkState N} {base : NlinkBase}

/-- The attribute is relative to `base`, and gives the number of names, counting the links
in the work directory that were made since. -/
def StoredAt (s : LinkState N) (base : NlinkBase) : Prop :=
  ∃ x : ℤ, s.xattr = base.char :: formatSigned x ∧ -2147483648 ≤ x ∧ x < 2147483648 ∧
    (x + s.realNlink base - (s.union + s.newTemps)) % 4294967296 = 0

/-- What holds at each point of an operation. -/
def PhaseOk (s : LinkState N) : Prop :=
  match s.phase with
  | .idle => (∃ base, s.StoredAt base) ∧ s.nlink = s.union
  | .linkUp n => s.StoredAt .lower ∧ s.nlink = s.union ∧ n ∈ s.uncovered
  | .linkUpDone => s.StoredAt .lower ∧ s.nlink = s.union
  | .started op => s.StoredAt .upper ∧ s.nlink = s.union ∧ s.newTemps = 0 ∧
      s.admits op = true
  | .temp n => s.StoredAt .upper ∧ s.nlink = s.union ∧ s.newTemps = 1 ∧ 1 ≤ s.temps ∧
      n ∉ s.aliases ∧ n ∈ s.whiteouts
  | .tempFailed => s.StoredAt .upper ∧ s.nlink = s.union ∧ s.newTemps = 1 ∧ 1 ≤ s.temps
  | .linked => s.StoredAt .upper ∧ s.nlink + 1 = s.union
  | .removed => s.StoredAt .upper ∧ s.nlink = s.union + 1
  | .ending => s.StoredAt .upper ∧ s.nlink = s.union

/-- The invariant: a file without names is left alone. -/
def Inv (s : LinkState N) : Prop := (s.phase = .idle ∧ s.union = 0) ∨ s.PhaseOk

/-- The attribute as it is stored now. -/
def stored (s : LinkState N) (base : NlinkBase) : LinkState N :=
  { s with
    xattr := base.char :: formatSigned (int32 ((s.nlink : ℤ) - s.realNlink base))
    newTemps := 0 }

omit [DecidableEq N] in
theorem store_eq (s : LinkState N) (base : NlinkBase) (ok : Bool) :
    s.store base ok = if ok then some (s.stored base) else none := by
  unfold store
  rw [ovlSetNlinkCommon_eq]
  cases ok <;> rfl

theorem storedAt_stored (base : NlinkBase) (h : s.nlink = s.union) :
    (s.stored base).StoredAt base := by
  refine ⟨_, rfl, int32_ge _, int32_lt _, ?_⟩
  change (int32 ((s.nlink : ℤ) - s.realNlink base) + s.realNlink base -
    (s.union + (0 : ℕ))) % 4294967296 = 0
  rw [h, int32]
  omega

/-- The stored value stays right when the count it is relative to and the number it stands
for change together. -/
theorem StoredAt.congr {t : LinkState N} (h : s.StoredAt base) (hx : t.xattr = s.xattr)
    (hcount : (t.realNlink base : ℤ) - (t.union + t.newTemps) =
      s.realNlink base - (s.union + s.newTemps)) : t.StoredAt base := by
  obtain ⟨x, hxattr, hlo, hhi, hmod⟩ := h
  refine ⟨x, hx.trans hxattr, hlo, hhi, ?_⟩
  have heq : x + (t.realNlink base : ℤ) - (t.union + t.newTemps) =
      x + s.realNlink base - (s.union + s.newTemps) := by omega
  rw [heq]
  exact hmod

theorem phaseOk_of_union_pos (h : s.Inv) (hpos : 1 ≤ s.union) : s.PhaseOk := by
  obtain ⟨-, hzero⟩ | h := h
  · omega
  · exact h

theorem phaseOk_of_busy (h : s.Inv) (hbusy : s.phase ≠ .idle) : s.PhaseOk := by
  obtain ⟨hidle, -⟩ | h := h
  · exact absurd hidle hbusy
  · exact h

theorem union_pos_of_uncovered {n : N} (h : n ∈ s.uncovered) : 1 ≤ s.union := by
  have := Finset.card_pos.mpr ⟨n, h⟩
  rw [union]
  omega

theorem union_pos_of_admits {op : LinkOp N} (h : s.admits op = true) : 1 ≤ s.union := by
  have halias : ∀ n ∈ s.aliases, 1 ≤ s.union := by
    intro n hn
    have := Finset.card_pos.mpr ⟨n, hn⟩
    rw [union]
    omega
  cases op with
  | link n => exact (of_decide_eq_true h).1
  | unlink n => exact halias n (of_decide_eq_true h)
  | renameOver n => exact halias n (of_decide_eq_true h)

/-- The count that is stored between operations is right, whatever it is relative to. -/
theorem inv_idle {t : LinkState N} (hphase : t.phase = .idle) (hst : t.StoredAt base)
    (hn : t.nlink = t.union) : t.Inv := by
  refine .inr ?_
  rw [PhaseOk, hphase]
  exact ⟨⟨base, hst⟩, hn⟩

section Steps

variable {t : LinkState N} {n : N} {ok : Bool}

theorem inv_setNlinkLower (h : s.Inv) (hphase : s.phase = .idle) (hn : n ∈ s.uncovered)
    (ht : ((s.store .lower ok).map ({ · with phase := .linkUp n })).getD s = t) : t.Inv := by
  have hok := phaseOk_of_union_pos h (union_pos_of_uncovered hn)
  rw [PhaseOk, hphase] at hok
  rw [store_eq] at ht
  cases ok with
  | false => exact ht ▸ h
  | true =>
    rw [← ht]
    exact .inr ⟨storedAt_stored _ hok.2, hok.2, hn⟩

theorem inv_linkUp (h : s.Inv) (hphase : s.phase = .linkUp n)
    (ht : (if ok then { s with aliases := insert n s.aliases, phase := .linkUpDone }
      else { s with phase := .idle }) = t) : t.Inv := by
  have hok := phaseOk_of_busy h (by rw [hphase]; simp)
  rw [PhaseOk, hphase] at hok
  obtain ⟨hst, hnlink, hn⟩ := hok
  cases ok with
  | false =>
    rw [← ht]
    exact inv_idle rfl hst hnlink
  | true =>
    rw [← ht]
    have hunion := union_linkUp .linkUpDone hn
    refine .inr ⟨hst.congr rfl ?_, hnlink.trans hunion.symm⟩
    change (s.lowerNlink : ℤ) - (_ + s.newTemps) = s.lowerNlink - (s.union + s.newTemps)
    rw [if_pos rfl, hunion]

theorem inv_setNlinkUpper (h : s.Inv) (hphase : s.phase = .linkUpDone)
    (ht : { (s.store .upper ok).getD s with phase := .idle } = t) : t.Inv := by
  have hok := phaseOk_of_busy h (by rw [hphase]; simp)
  rw [PhaseOk, hphase] at hok
  rw [store_eq] at ht
  cases ok with
  | false =>
    rw [← ht]
    exact inv_idle rfl hok.1 hok.2
  | true =>
    rw [← ht]
    exact inv_idle rfl (storedAt_stored .upper hok.2) hok.2

theorem inv_nlinkStart {op : LinkOp N} (h : s.Inv) (hphase : s.phase = .idle)
    (hop : s.admits op = true)
    (ht : ((s.store .upper ok).map ({ · with phase := .started op })).getD s = t) : t.Inv := by
  have hok := phaseOk_of_union_pos h (union_pos_of_admits hop)
  rw [PhaseOk, hphase] at hok
  rw [store_eq] at ht
  cases ok with
  | false => exact ht ▸ h
  | true =>
    rw [← ht]
    exact .inr ⟨storedAt_stored _ hok.2, hok.2, rfl, hop⟩

/-- A call of a started operation that fails leads to its end. -/
theorem inv_failed (hst : s.StoredAt .upper) (hnlink : s.nlink = s.union)
    (ht : { s with phase := .ending } = t) : t.Inv := by
  rw [← ht]
  exact .inr ⟨hst, hnlink⟩

/-- The new name adds one to both counts. -/
theorem inv_linked (hst : s.StoredAt .upper) (hnlink : s.nlink = s.union)
    (hphase : t.phase = .linked) (hx : t.xattr = s.xattr) (hn : t.nlink = s.nlink)
    (hunion : t.union = s.union + 1)
    (hupper : t.upperNlink + s.newTemps = s.upperNlink + t.newTemps + 1) : t.Inv := by
  refine .inr ?_
  rw [PhaseOk, hphase]
  refine ⟨hst.congr hx ?_, by omega⟩
  change (t.upperNlink : ℤ) - (t.union + t.newTemps) = s.upperNlink - (s.union + s.newTemps)
  omega

/-- The lost name takes one from both counts. -/
theorem inv_removed (hst : s.StoredAt .upper) (hnlink : s.nlink = s.union)
    (hphase : t.phase = .removed) (hx : t.xattr = s.xattr) (hn : t.nlink = s.nlink)
    (htemps : t.newTemps = s.newTemps) (hunion : t.union + 1 = s.union)
    (hupper : t.upperNlink + 1 = s.upperNlink) : t.Inv := by
  refine .inr ?_
  rw [PhaseOk, hphase]
  refine ⟨hst.congr hx ?_, by omega⟩
  change (t.upperNlink : ℤ) - (t.union + t.newTemps) = s.upperNlink - (s.union + s.newTemps)
  omega

theorem upperNlink_insert (hn : n ∉ s.aliases) (ha : t.aliases = insert n s.aliases) :
    t.upperNlink + s.temps = s.upperNlink + t.temps + 1 := by
  rw [upperNlink, upperNlink, ha, Finset.card_insert_of_notMem hn]
  omega

theorem upperNlink_erase (hn : n ∈ s.aliases) (ha : t.aliases = s.aliases.erase n)
    (htemps : t.temps = s.temps) : t.upperNlink + 1 = s.upperNlink := by
  have hpos : 0 < s.aliases.card := Finset.card_pos.mpr ⟨n, hn⟩
  rw [upperNlink, upperNlink, ha, Finset.card_erase_of_mem hn]
  omega

theorem inv_createUpper (h : s.Inv) (hphase : s.phase = .started (.link n))
    (hw : n ∉ s.whiteouts)
    (ht : (if ok then { s with aliases := insert n s.aliases, phase := .linked }
      else { s with phase := .ending }) = t) : t.Inv := by
  have hok := phaseOk_of_busy h (by rw [hphase]; simp)
  rw [PhaseOk, hphase] at hok
  obtain ⟨hst, hnlink, htemps, hadmits⟩ := hok
  obtain ⟨-, hn, -, hlower⟩ := of_decide_eq_true hadmits
  cases ok with
  | false => exact inv_failed hst hnlink ht
  | true =>
    rw [if_pos rfl] at ht
    have ha : t.aliases = insert n s.aliases := by rw [← ht]
    have hunc : t.uncovered = s.uncovered := by
      rw [← ht]
      refine uncovered_congr rfl fun k hk => ?_
      have hkn : k ≠ n := by
        rintro rfl
        exact hw (hlower hk)
      simp [hkn]
    have hupper := upperNlink_insert hn ha
    have hunion := union_insert hn ha hunc
    have htemps' : t.temps = s.temps := by rw [← ht]
    have hnew : t.newTemps = s.newTemps := by rw [← ht]
    exact inv_linked hst hnlink (by rw [← ht]) (by rw [← ht]) (by rw [← ht]) hunion (by omega)

theorem inv_createTemp (h : s.Inv) (hphase : s.phase = .started (.link n))
    (hw : n ∈ s.whiteouts)
    (ht : (if ok then
        { s with temps := s.temps + 1, newTemps := s.newTemps + 1, phase := .temp n }
      else { s with phase := .ending }) = t) : t.Inv := by
  have hok := phaseOk_of_busy h (by rw [hphase]; simp)
  rw [PhaseOk, hphase] at hok
  obtain ⟨hst, hnlink, htemps, hadmits⟩ := hok
  obtain ⟨-, hn, -, -⟩ := of_decide_eq_true hadmits
  cases ok with
  | false => exact inv_failed hst hnlink ht
  | true =>
    rw [← ht, if_pos rfl]
    refine .inr ⟨hst.congr rfl ?_, hnlink, by rw [htemps], Nat.le_add_left 1 _, hn, hw⟩
    change ((1 + s.aliases.card + (s.temps + 1) : ℕ) : ℤ) - (s.union + (s.newTemps + 1 : ℕ)) =
      (1 + s.aliases.card + s.temps : ℕ) - (s.union + s.newTemps)
    omega

theorem inv_renameTemp (h : s.Inv) (hphase : s.phase = .temp n)
    (ht : (if ok then
        { s with
          temps := s.temps - 1, newTemps := s.newTemps - 1, aliases := insert n s.aliases
          whiteouts := s.whiteouts.erase n, phase := .linked }
      else { s with phase := .tempFailed }) = t) : t.Inv := by
  have hok := phaseOk_of_busy h (by rw [hphase]; simp)
  rw [PhaseOk, hphase] at hok
  obtain ⟨hst, hnlink, htemps, hpos, hn, hw⟩ := hok
  cases ok with
  | false =>
    rw [← ht]
    exact .inr ⟨hst, hnlink, htemps, hpos⟩
  | true =>
    rw [if_pos rfl] at ht
    have ha : t.aliases = insert n s.aliases := by rw [← ht]
    have hunc : t.uncovered = s.uncovered := by
      rw [← ht]
      refine uncovered_congr rfl fun k hk => ?_
      by_cases hkn : k = n
      · simp [hkn, hw]
      · simp [hkn]
    have hupper := upperNlink_insert hn ha
    have hunion := union_insert hn ha hunc
    have htemps' : t.temps + 1 = s.temps := by
      rw [← ht]
      exact Nat.sub_add_cancel hpos
    have hnew : t.newTemps = 0 := by
      rw [← ht]
      exact Nat.sub_eq_zero_of_le (Nat.le_of_eq htemps)
    exact inv_linked hst hnlink (by rw [← ht]) (by rw [← ht]) (by rw [← ht]) hunion (by omega)

theorem inv_cleanupTemp (h : s.Inv) (hphase : s.phase = .tempFailed)
    (ht : (if ok then
        { s with temps := s.temps - 1, newTemps := s.newTemps - 1, phase := .ending }
      else { s with phase := .ending }) = t) : t.Inv := by
  have hok := phaseOk_of_busy h (by rw [hphase]; simp)
  rw [PhaseOk, hphase] at hok
  obtain ⟨hst, hnlink, htemps, hpos⟩ := hok
  cases ok with
  | false => exact inv_failed hst hnlink ht
  | true =>
    rw [← ht, if_pos rfl]
    refine .inr ⟨hst.congr rfl ?_, hnlink⟩
    change ((1 + s.aliases.card + (s.temps - 1) : ℕ) : ℤ) - (s.union + (s.newTemps - 1 : ℕ)) =
      (1 + s.aliases.card + s.temps : ℕ) - (s.union + s.newTemps)
    omega

/-- The name of a started removal is lost, and what covers it afterwards does not matter
for a place that has no lower name. -/
theorem inv_lost (hst : s.StoredAt .upper) (hnlink : s.nlink = s.union) (hn : n ∈ s.aliases)
    (ht : { s with
      aliases := s.aliases.erase n, whiteouts := t.whiteouts, others := t.others
      phase := .removed } = t)
    (hcover : ∀ k ∈ s.lowers, k ∈ t.whiteouts ∨ k ∈ t.others ↔
      k = n ∨ k ∈ s.whiteouts ∨ k ∈ s.others) : t.Inv := by
  have ha : t.aliases = s.aliases.erase n := by rw [← ht]
  have hunc : t.uncovered = s.uncovered := by
    refine uncovered_congr (by rw [← ht]) fun k hk => ?_
    simp only [Finset.mem_union, or_assoc, hcover k hk, ha, Finset.mem_erase]
    by_cases hkn : k = n
    · simp [hkn, hn]
    · simp [hkn]
  exact inv_removed hst hnlink (by rw [← ht]) (by rw [← ht]) (by rw [← ht]) (by rw [← ht])
    (union_erase hn ha hunc) (upperNlink_erase hn ha (by rw [← ht]))

theorem inv_removeUpper (h : s.Inv) (hphase : s.phase = .started (.unlink n))
    (hn : n ∉ s.lowers)
    (ht : (if ok then { s with aliases := s.aliases.erase n, phase := .removed }
      else { s with phase := .ending }) = t) : t.Inv := by
  have hok := phaseOk_of_busy h (by rw [hphase]; simp)
  rw [PhaseOk, hphase] at hok
  obtain ⟨hst, hnlink, -, hadmits⟩ := hok
  cases ok with
  | false => exact inv_failed hst hnlink ht
  | true =>
    rw [if_pos rfl] at ht
    refine inv_lost hst hnlink (of_decide_eq_true hadmits) (by rw [← ht]) fun k hk => ?_
    have hkn : k ≠ n := by
      rintro rfl
      exact hn hk
    rw [← ht]
    simp [hkn]

theorem inv_removeAndWhiteout (h : s.Inv) (hphase : s.phase = .started (.unlink n))
    (ht : (if ok then
        { s with
          aliases := s.aliases.erase n, whiteouts := insert n s.whiteouts, phase := .removed }
      else { s with phase := .ending }) = t) : t.Inv := by
  have hok := phaseOk_of_busy h (by rw [hphase]; simp)
  rw [PhaseOk, hphase] at hok
  obtain ⟨hst, hnlink, -, hadmits⟩ := hok
  cases ok with
  | false => exact inv_failed hst hnlink ht
  | true =>
    rw [if_pos rfl] at ht
    refine inv_lost hst hnlink (of_decide_eq_true hadmits) (by rw [← ht]) fun k _ => ?_
    rw [← ht]
    simp [or_assoc]

theorem inv_rename (h : s.Inv) (hphase : s.phase = .started (.renameOver n))
    (ht : (if ok then
        { s with aliases := s.aliases.erase n, others := insert n s.others, phase := .removed }
      else { s with phase := .ending }) = t) : t.Inv := by
  have hok := phaseOk_of_busy h (by rw [hphase]; simp)
  rw [PhaseOk, hphase] at hok
  obtain ⟨hst, hnlink, -, hadmits⟩ := hok
  cases ok with
  | false => exact inv_failed hst hnlink ht
  | true =>
    rw [if_pos rfl] at ht
    refine inv_lost hst hnlink (of_decide_eq_true hadmits) (by rw [← ht]) fun k _ => ?_
    rw [← ht]
    simp [or_left_comm]

theorem inv_incNlink (h : s.Inv) (hphase : s.phase = .linked) (hbound : s.union < 4294967296)
    (ht : { s with nlink := inc32 s.nlink, phase := .ending } = t) : t.Inv := by
  have hok := phaseOk_of_busy h (by rw [hphase]; simp)
  rw [PhaseOk, hphase] at hok
  obtain ⟨hst, hnlink⟩ := hok
  have hn : inc32 s.nlink = s.union := by
    unfold inc32
    omega
  rw [hn] at ht
  rw [← ht]
  exact .inr ⟨hst.congr rfl rfl, rfl⟩

theorem inv_dropNlink (h : s.Inv) (hphase : s.phase = .removed) (hbound : s.union < 4294967296)
    (ht : { s with nlink := dec32 s.nlink, phase := .ending } = t) : t.Inv := by
  have hok := phaseOk_of_busy h (by rw [hphase]; simp)
  rw [PhaseOk, hphase] at hok
  obtain ⟨hst, hnlink⟩ := hok
  have hn : dec32 s.nlink = s.union := by
    unfold dec32
    omega
  rw [hn] at ht
  rw [← ht]
  exact .inr ⟨hst.congr rfl rfl, rfl⟩

theorem inv_nlinkEnd (h : s.Inv) (hphase : s.phase = .ending) (ht : s.nlinkEnd ok = t) :
    t.Inv := by
  have hok := phaseOk_of_busy h (by rw [hphase]; simp)
  rw [PhaseOk, hphase] at hok
  rw [← ht, nlinkEnd]
  split
  · next hzero =>
    -- no name is left, whatever becomes of the count
    have hunion : s.union = 0 := by
      rw [← hok.2]
      exact hzero.1
    simp only [store_eq]
    cases ok with
    | false => exact .inl ⟨rfl, hunion⟩
    | true => exact .inl ⟨rfl, hunion⟩
  · exact inv_idle rfl hok.1 hok.2

/-- Every call keeps the invariant, as long as the number of names fits in 32 bits. -/
theorem inv_step {e : LinkEvent N} (h : s.Inv) (hbound : s.union < 4294967296)
    (hs : s.step e = some t) : t.Inv := by
  unfold step at hs
  split at hs
  · next hphase =>
    split at hs
    · next hn => exact inv_setNlinkLower h hphase hn (Option.some.inj hs)
    · cases hs
  · next hphase => exact inv_linkUp h hphase (Option.some.inj hs)
  · next hphase => exact inv_setNlinkUpper h hphase (Option.some.inj hs)
  · next hphase =>
    split at hs
    · next hop => exact inv_nlinkStart h hphase hop (Option.some.inj hs)
    · cases hs
  · next hphase =>
    split at hs
    · cases hs
    · next hw => exact inv_createUpper h hphase hw (Option.some.inj hs)
  · next hphase =>
    split at hs
    · next hw => exact inv_createTemp h hphase hw (Option.some.inj hs)
    · cases hs
  · next hphase => exact inv_renameTemp h hphase (Option.some.inj hs)
  · next hphase => exact inv_cleanupTemp h hphase (Option.some.inj hs)
  · next hphase => exact inv_incNlink h hphase hbound (Option.some.inj hs)
  · next hphase =>
    split at hs
    · cases hs
    · next hn => exact inv_removeUpper h hphase hn (Option.some.inj hs)
  · next hphase => exact inv_removeAndWhiteout h hphase (Option.some.inj hs)
  · next hphase => exact inv_rename h hphase (Option.some.inj hs)
  · next hphase => exact inv_dropNlink h hphase hbound (Option.some.inj hs)
  · next hphase => exact inv_nlinkEnd h hphase (Option.some.inj hs)
  · cases hs

end Steps

/-- No call changes the lower layers. -/
theorem lowers_step {t : LinkState N} {e : LinkEvent N} (hs : s.step e = some t) :
    t.lowers = s.lowers := by
  have hstore : ∀ (base : NlinkBase) (ok : Bool) (u : LinkState N), u.lowers = s.lowers →
      ((u.store base ok).getD u).lowers = s.lowers := by
    intro base ok u hu
    rw [store_eq]
    cases ok <;> exact hu
  have hphase : ∀ (base : NlinkBase) (ok : Bool) (ph : LinkPhase N),
      (((s.store base ok).map ({ · with phase := ph })).getD s).lowers = s.lowers := by
    intro base ok ph
    rw [store_eq]
    cases ok <;> rfl
  have hite : ∀ {b : Bool} {u v : LinkState N}, u.lowers = s.lowers → v.lowers = s.lowers →
      (if b then u else v).lowers = s.lowers := by
    intro b u v hu hv
    cases b
    · exact hv
    · exact hu
  unfold step at hs
  split at hs
  · split at hs
    · exact Option.some.inj hs ▸ hphase _ _ _
    · cases hs
  · exact Option.some.inj hs ▸ hite rfl rfl
  · exact Option.some.inj hs ▸ hstore _ _ _ rfl
  · split at hs
    · exact Option.some.inj hs ▸ hphase _ _ _
    · cases hs
  · split at hs
    · cases hs
    · exact Option.some.inj hs ▸ hite rfl rfl
  · split at hs
    · exact Option.some.inj hs ▸ hite rfl rfl
    · cases hs
  · exact Option.some.inj hs ▸ hite rfl rfl
  · exact Option.some.inj hs ▸ hite rfl rfl
  · exact Option.some.inj hs ▸ rfl
  · split at hs
    · cases hs
    · exact Option.some.inj hs ▸ hite rfl rfl
  · exact Option.some.inj hs ▸ hite rfl rfl
  · exact Option.some.inj hs ▸ hite rfl rfl
  · exact Option.some.inj hs ▸ rfl
  · rw [← Option.some.inj hs, nlinkEnd]
    split
    · exact hstore _ _ _ rfl
    · rfl
  · cases hs

theorem inv_copiedUp (h : s.CopiedUp) : s.Inv := by
  have hunc : s.uncovered = s.lowers := by
    rw [uncovered, h.aliases, Finset.empty_union, Finset.sdiff_eq_self_iff_disjoint]
    exact h.covers
  have hunion : s.union = s.lowerNlink := by
    rw [union, hunc, h.aliases, Finset.card_empty, Nat.zero_add, lowerNlink]
  have hnlink : s.nlink = s.union := h.nlink.trans hunion.symm
  have hxattr := h.xattr
  rw [ovlSetNlinkCommon_eq] at hxattr
  have hst : s.StoredAt .upper := by
    refine (storedAt_stored .upper hnlink).congr (Except.ok.inj hxattr).symm ?_
    change (s.upperNlink : ℤ) - (s.union + s.newTemps) = s.upperNlink - (s.union + (0 : ℕ))
    rw [h.newTemps]
  exact inv_idle h.phase hst hnlink

theorem exists_storedAt (h : s.PhaseOk) : ∃ base, s.StoredAt base := by
  unfold PhaseOk at h
  split at h
  · exact h.1
  all_goals exact ⟨_, h.1⟩

/-- Decoding gives the number that the stored value stands for. -/
theorem ovlGetNlink_of_storedAt (h : s.StoredAt base) (hlower : s.lowerNlink ≠ 1)
    (hpos : 1 ≤ s.union) (hbound : s.union + s.newTemps < 2147483648) (fallback : ℕ) :
    ovlGetNlink s.lowerNlink s.upperNlink s.xattr fallback = s.union + s.newTemps := by
  obtain ⟨x, hx, hlo, hhi, hmod⟩ := h
  have hreal : (if base = .lower then (s.lowerNlink : ℤ) else s.upperNlink) =
      s.realNlink base := by
    cases base <;> rfl
  have hval : int32 (int32 (s.realNlink base) + x) = s.union + s.newTemps := by
    unfold int32
    omega
  rw [hx, ovlGetNlink_stored hlo hhi hlower]
  simp only [hreal, hval]
  rw [if_neg (by omega)]
  omega

end Invariant

/-- After every call of every sequence of operations the stored attribute decodes to the
number of names in the overlay, and one more while a link over a whiteout has its new link
still in the work directory. -/
theorem nlink_xattr_counts_names (s t : LinkState N) (tr : List (LinkState N × LinkEvent N))
    (hs : s.CopiedUp) (hlower : 1 < s.lowerNlink)
    (hrun : Lts.Run (fun s e t => step s e = some t) s tr t)
    (hnames : ∀ p ∈ tr, p.1.union < 4294967296) (hpos : 1 ≤ t.union)
    (hbound : t.union + t.newTemps < 2147483648) (fallback : ℕ) :
    ovlGetNlink t.lowerNlink t.upperNlink t.xattr fallback = t.union + t.newTemps := by
  have hinv : t.Inv ∧ t.lowers = s.lowers := by
    refine hrun.invariant_of_guard (I := fun t => t.Inv ∧ t.lowers = s.lowers)
      (G := fun u _ => u.union < 4294967296) ⟨inv_copiedUp hs, rfl⟩ ?_ hnames
    rintro u e v ⟨hu, hl⟩ hb hstep
    exact ⟨inv_step hu hb hstep, (lowers_step hstep).trans hl⟩
  obtain ⟨base, hstored⟩ := exists_storedAt (phaseOk_of_union_pos hinv.1 hpos)
  refine ovlGetNlink_of_storedAt hstored ?_ hpos hbound fallback
  rw [lowerNlink, hinv.2]
  exact Nat.ne_of_gt hlower

/-- A file with two lower names, and a whiteout over a third place. -/
def twoNames : LinkState ℕ where
  lowers := {0, 1}
  aliases := ∅
  whiteouts := {2}
  others := ∅
  temps := 0
  newTemps := 0
  xattr := ['U', '+', '1']
  nlink := 2
  phase := .idle

/-- The name 0 while `ovl_link_up` makes an alias of it, and after that. -/
def linkingUp : LinkState ℕ :=
  { twoNames with xattr := ['L', '+', '0'], phase := .linkUp 0 }

def linkedUp : LinkState ℕ :=
  { twoNames with aliases := insert 0 ∅, xattr := ['U', '+', '0'] }

/-- A link of it over the whiteout, as far as the link in the work directory. -/
def linkingOver : LinkState ℕ :=
  { linkedUp with temps := 1, newTemps := 1, phase := .temp 2 }

/-- The calls of `ovl_link` up to that. -/
def linkOverRun : List (LinkState ℕ × LinkEvent ℕ) := [
  (twoNames, .setNlinkLower 0 true),
  (linkingUp, .linkUp true),
  ({ linkingUp with aliases := insert 0 ∅, phase := .linkUpDone }, .setNlinkUpper true),
  (linkedUp, .nlinkStart (.link 2) true),
  ({ linkedUp with phase := .started (.link 2) }, .createTemp true)]

theorem run_linkingOver :
    Lts.Run (fun s e t => step s e = some t) twoNames linkOverRun linkingOver :=
  .snoc (.snoc (.snoc (.snoc (.snoc .nil rfl) rfl) rfl) rfl) rfl

theorem copiedUp_twoNames : twoNames.CopiedUp where
  aliases := rfl
  covers := by decide
  temps := rfl
  newTemps := rfl
  nlink := rfl
  xattr := rfl
  phase := rfl

theorem nlink_xattr_counts_names_twoNames :
    linkingOver.union = 2 ∧ linkingOver.newTemps = 1 ∧
      ovlGetNlink linkingOver.lowerNlink linkingOver.upperNlink linkingOver.xattr 0 = 3 :=
  ⟨rfl, rfl, nlink_xattr_counts_names twoNames linkingOver _ copiedUp_twoNames (by decide)
    run_linkingOver (by decide) (by decide) (by decide) 0⟩

/-- While a link over a whiteout is under way, the attribute decodes to one name more than
there are. -/
theorem nlink_xattr_counts_temp :
    twoNames.CopiedUp ∧ 1 < twoNames.lowerNlink ∧
      Lts.Run (fun s e t => step s e = some t) twoNames linkOverRun linkingOver ∧
      linkingOver.union = 2 ∧
      ovlGetNlink linkingOver.lowerNlink linkingOver.upperNlink linkingOver.xattr 0 ≠ 2 :=
  ⟨copiedUp_twoNames, by decide, run_linkingOver, rfl, by decide⟩

end LinkState

end FzzOverlay

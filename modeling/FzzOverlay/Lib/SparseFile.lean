import Mathlib.Algebra.Group.Int.Defs
import Mathlib.Algebra.Group.Nat.Defs
import Mathlib.Data.List.Basic
import Mathlib.Data.List.GetD
import Mathlib.Data.Nat.Basic
import Mathlib.Order.Basic
import Mathlib.Tactic.Common

/-!
# Sparse files

A file is a size and a total map from offsets to cells that is zero from the
size on, so a hole and the region past the end read the same way. The structure
carries that fact, and every operation below keeps it.

## Main definitions

- `SparseFile` — a size, its cells, and the proof that nothing lies past the size
- `SparseFile.get?` — the cell at an offset, `none` from the end on
- `SparseFile.read` — the cells of a range, cut at the end of the file
- `SparseFile.write` — a positioned write, filling any gap with holes
- `SparseFile.truncate` — cut or extend to a given size
- `SparseFile.PatchedFrom` — some cells of a region were overwritten from another file
- `SparseFile.fill` — copy given ranges of another file, in order
-/

/-- A file with holes: `cell` is total and zero from `size` on. -/
structure SparseFile (α : Type*) [Zero α] where
  size : ℕ
  cell : ℕ → α
  cell_eq_zero : ∀ i, size ≤ i → cell i = 0

namespace SparseFile

variable {α : Type*} [Zero α]

/-- The file of size zero. -/
def empty : SparseFile α := ⟨0, fun _ => 0, fun _ _ => rfl⟩

instance : Inhabited (SparseFile α) := ⟨empty⟩

@[simp] theorem empty_size : (empty : SparseFile α).size = 0 := rfl

@[simp] theorem empty_cell (i : ℕ) : (empty : SparseFile α).cell i = 0 := rfl

/-- The file holding exactly the cells of a list. -/
def ofList (xs : List α) : SparseFile α where
  size := xs.length
  cell := fun i => xs.getD i 0
  cell_eq_zero := by
    intro i hi
    simp [List.getD, List.getElem?_eq_none hi]

@[simp] theorem ofList_size (xs : List α) : (ofList xs).size = xs.length := rfl

/-- The cell at offset `i`, or `none` at and past the end of the file. -/
def get? (f : SparseFile α) (i : ℕ) : Option α :=
  if i < f.size then some (f.cell i) else none

/-- Inside the file the cell is delivered as it is. -/
theorem get?_of_lt {f : SparseFile α} {i : ℕ} (h : i < f.size) :
    f.get? i = some (f.cell i) := if_pos h

theorem get?_of_le {f : SparseFile α} {i : ℕ} (h : f.size ≤ i) : f.get? i = none :=
  if_neg (by omega)

theorem get?_eq_some_iff {f : SparseFile α} {i : ℕ} {v : α} :
    f.get? i = some v ↔ i < f.size ∧ f.cell i = v := by
  simp [get?]

theorem get?_eq_none_iff {f : SparseFile α} {i : ℕ} : f.get? i = none ↔ f.size ≤ i := by
  simp [get?]

/-- Files that deliver the same at an offset have the same cell there. -/
theorem cell_eq_of_get?_eq {f g : SparseFile α} {i : ℕ} (h : f.get? i = g.get? i) :
    f.cell i = g.cell i := by
  by_cases hi : i < f.size
  · rw [get?_of_lt hi] at h
    exact (get?_eq_some_iff.mp h.symm).2.symm
  · rw [get?_of_le (Nat.le_of_not_lt hi)] at h
    rw [f.cell_eq_zero i (Nat.le_of_not_lt hi), g.cell_eq_zero i (get?_eq_none_iff.mp h.symm)]

@[simp] theorem empty_get? (i : ℕ) : (empty : SparseFile α).get? i = none := rfl

/-- Two files with the same size and cells are equal. -/
theorem ext {f g : SparseFile α} (hs : f.size = g.size) (hc : ∀ i, f.cell i = g.cell i) :
    f = g := by
  cases f
  cases g
  simp only at hs hc
  subst hs
  congr
  exact funext hc

-- ════════════════════════════════════════════════════════════════════════
-- Reading
-- ════════════════════════════════════════════════════════════════════════

/-- The cells of `[pos, pos + n)`, cut at the end of the file. -/
def read (f : SparseFile α) (pos n : ℕ) : List α :=
  (List.range (min n (f.size - pos))).map fun k => f.cell (pos + k)

@[simp] theorem length_read (f : SparseFile α) (pos n : ℕ) :
    (f.read pos n).length = min n (f.size - pos) := by simp [read]

theorem length_read_of_le {f : SparseFile α} {pos n : ℕ} (h : pos + n ≤ f.size) :
    (f.read pos n).length = n := by
  rw [length_read]
  omega

theorem length_read_le (f : SparseFile α) (pos n : ℕ) : (f.read pos n).length ≤ n := by
  rw [length_read]
  omega

@[simp] theorem read_zero (f : SparseFile α) (pos : ℕ) : f.read pos 0 = [] := by simp [read]

theorem read_eq_nil_iff {f : SparseFile α} {pos n : ℕ} :
    f.read pos n = [] ↔ n = 0 ∨ f.size ≤ pos := by
  rw [← List.length_eq_zero_iff, length_read]
  omega

theorem read_eq_read_min (f : SparseFile α) (pos n : ℕ) :
    f.read pos n = f.read pos (min n (f.size - pos)) := by
  simp [read]

/-- A read delivers the cell of each offset of its range, and nothing past it. -/
theorem getElem?_read (f : SparseFile α) (pos n k : ℕ) :
    (f.read pos n)[k]? = if k < n then f.get? (pos + k) else none := by
  by_cases hk : k < min n (f.size - pos)
  · have hlt : pos + k < f.size := by omega
    rw [if_pos (by omega : k < n), get?_of_lt hlt, read, List.getElem?_map,
      List.getElem?_range hk]
    rfl
  · rw [List.getElem?_eq_none (by rw [length_read]; omega)]
    by_cases hn : k < n
    · rw [if_pos hn, get?_of_le (by omega)]
    · rw [if_neg hn]

/-- Two reads of one range are equal exactly when the files agree on the range. -/
theorem read_eq_read_iff {f g : SparseFile α} {pos n : ℕ} :
    f.read pos n = g.read pos n ↔ ∀ i, pos ≤ i → i < pos + n → f.get? i = g.get? i := by
  constructor
  · intro h i hlo hhi
    have hk := congrArg (fun xs : List α => xs[i - pos]?) h
    simp only [getElem?_read] at hk
    rwa [if_pos (by omega), if_pos (by omega), show pos + (i - pos) = i by omega] at hk
  · intro h
    apply List.ext_getElem?
    intro k
    rw [getElem?_read, getElem?_read]
    split
    · exact h (pos + k) (by omega) (by omega)
    · rfl

/-- A range read in two parts is the range read at once. -/
theorem read_add (f : SparseFile α) (pos a b : ℕ) :
    f.read pos (a + b) = f.read pos a ++ f.read (pos + a) b := by
  apply List.ext_getElem?
  intro k
  rw [List.getElem?_append, length_read, getElem?_read, getElem?_read, getElem?_read]
  by_cases hk : k < min a (f.size - pos)
  · rw [if_pos hk, if_pos (by omega), if_pos (by omega)]
  · rw [if_neg hk]
    by_cases ha : k < a
    · rw [if_pos (by omega : k < a + b), get?_of_le (by omega)]
      split
      · rw [get?_of_le (by omega)]
      · rfl
    · rcases Nat.lt_or_ge (f.size - pos) a with hs | hs
      · rw [show (if k < a + b then f.get? (pos + k) else none) = none by
          split
          · exact get?_of_le (by omega)
          · rfl]
        split
        · rw [get?_of_le (by omega)]
        · rfl
      · rw [Nat.min_eq_left hs]
        have hcond : k < a + b ↔ k - a < b := by omega
        by_cases hb : k - a < b
        · rw [if_pos hb, if_pos (hcond.mpr hb), show pos + a + (k - a) = pos + k by omega]
        · rw [if_neg hb, if_neg (fun h => hb (hcond.mp h))]

theorem read_one (f : SparseFile α) (i : ℕ) : f.read i 1 = (f.get? i).toList := by
  by_cases h : i < f.size
  · have : min 1 (f.size - i) = 1 := by omega
    simp [read, this, get?_of_lt h]
  · have : min 1 (f.size - i) = 0 := by omega
    simp [read, this, get?_of_le (show f.size ≤ i by omega)]

-- ════════════════════════════════════════════════════════════════════════
-- Writing
-- ════════════════════════════════════════════════════════════════════════

/-- Store `xs` at `pos`. A nonempty write past the end leaves a hole before it;
an empty one changes nothing. -/
def write (f : SparseFile α) (pos : ℕ) (xs : List α) : SparseFile α where
  size := if xs = [] then f.size else max f.size (pos + xs.length)
  cell := fun i => if pos ≤ i ∧ i < pos + xs.length then xs.getD (i - pos) 0 else f.cell i
  cell_eq_zero := by
    intro i hi
    by_cases hx : xs = []
    · subst hx
      rw [if_pos rfl] at hi
      rw [if_neg (by simp)]
      exact f.cell_eq_zero i hi
    · rw [if_neg hx] at hi
      rw [if_neg (by omega)]
      exact f.cell_eq_zero i (by omega)

theorem write_size_of_ne_nil (f : SparseFile α) (pos : ℕ) {xs : List α} (h : xs ≠ []) :
    (f.write pos xs).size = max f.size (pos + xs.length) := if_neg h

theorem size_le_write (f : SparseFile α) (pos : ℕ) (xs : List α) :
    f.size ≤ (f.write pos xs).size := by
  show f.size ≤ if xs = [] then f.size else max f.size (pos + xs.length)
  split <;> omega

@[simp] theorem write_nil (f : SparseFile α) (pos : ℕ) : f.write pos [] = f := by
  refine ext rfl fun i => ?_
  exact if_neg (by simp)

theorem write_cell_of_mem (f : SparseFile α) {pos : ℕ} {xs : List α} {i : ℕ}
    (h₁ : pos ≤ i) (h₂ : i < pos + xs.length) :
    (f.write pos xs).cell i = xs.getD (i - pos) 0 := if_pos ⟨h₁, h₂⟩

theorem get?_write_of_mem (f : SparseFile α) {pos : ℕ} {xs : List α} {i : ℕ}
    (h₁ : pos ≤ i) (h₂ : i < pos + xs.length) : (f.write pos xs).get? i = xs[i - pos]? := by
  have hne : xs ≠ [] := by
    rintro rfl
    simp at h₂
    omega
  have hlt : i < (f.write pos xs).size := by
    rw [write_size_of_ne_nil f pos hne]
    omega
  have hk : i - pos < xs.length := by omega
  rw [get?_of_lt hlt, write_cell_of_mem f h₁ h₂, List.getD_eq_getElem?_getD,
    List.getElem?_eq_getElem hk, Option.getD_some]

/-- Cells outside the written range keep their value. -/
theorem write_cell_of_not_mem (f : SparseFile α) {pos : ℕ} {xs : List α} {i : ℕ}
    (h : i < pos ∨ pos + xs.length ≤ i) : (f.write pos xs).cell i = f.cell i :=
  if_neg (by omega)

/-- Two adjacent writes are one write. -/
theorem write_write_append (f : SparseFile α) (pos : ℕ) (xs ys : List α) :
    (f.write pos xs).write (pos + xs.length) ys = f.write pos (xs ++ ys) := by
  by_cases hx : xs = []
  · subst hx
    simp
  by_cases hy : ys = []
  · subst hy
    simp
  have hxy : xs ++ ys ≠ [] := by simp [hx]
  apply ext
  · rw [write_size_of_ne_nil _ _ hy, write_size_of_ne_nil _ _ hx, write_size_of_ne_nil _ _ hxy,
      List.length_append]
    omega
  · intro i
    by_cases hin : pos ≤ i ∧ i < pos + (xs ++ ys).length
    · obtain ⟨h₁, h₂⟩ := hin
      rw [write_cell_of_mem f h₁ h₂]
      rw [List.length_append] at h₂
      by_cases hi : i < pos + xs.length
      · rw [write_cell_of_not_mem _ (.inl hi), write_cell_of_mem f h₁ hi,
          List.getD_append _ _ _ _ (by omega)]
      · rw [write_cell_of_mem _ (by omega) (by omega), List.getD_append_right _ _ _ _ (by omega),
          Nat.sub_sub]
    · rw [List.length_append] at hin
      rw [write_cell_of_not_mem f (by rw [List.length_append]; omega),
        write_cell_of_not_mem _ (by omega), write_cell_of_not_mem f (by omega)]

/-- The cells a read of another file stores are that file's cells. -/
theorem write_read_cell (f src : SparseFile α) {pos n i : ℕ}
    (h₁ : pos ≤ i) (h₂ : i < pos + n) (h₃ : i < src.size) :
    (f.write pos (src.read pos n)).cell i = src.cell i := by
  rw [write_cell_of_mem f h₁ (by rw [length_read]; omega), List.getD_eq_getElem?_getD,
    getElem?_read, if_pos (by omega), show pos + (i - pos) = i by omega, get?_of_lt h₃]
  rfl

-- ════════════════════════════════════════════════════════════════════════
-- Truncation
-- ════════════════════════════════════════════════════════════════════════

/-- Cut to `n` cells, or extend to `n` cells with a hole. -/
def truncate (f : SparseFile α) (n : ℕ) : SparseFile α where
  size := n
  cell := fun i => if i < n then f.cell i else 0
  cell_eq_zero := fun _ hi => if_neg (by omega)

@[simp] theorem truncate_size (f : SparseFile α) (n : ℕ) : (f.truncate n).size = n := rfl

theorem truncate_cell_of_lt (f : SparseFile α) {n i : ℕ} (h : i < n) :
    (f.truncate n).cell i = f.cell i := if_pos h

theorem truncate_cell_of_ge (f : SparseFile α) {n i : ℕ} (h : n ≤ i) :
    (f.truncate n).cell i = 0 := if_neg (by omega)

-- ════════════════════════════════════════════════════════════════════════
-- Patching a region from another file
-- ════════════════════════════════════════════════════════════════════════

/-- `g` is `f` after cells of the region `P` were overwritten with the cells of
`src` at the same offsets. Cells that `src` does not have are never touched, and
the file grows only to hold a cell of the region. -/
structure PatchedFrom (P : ℕ → Prop) (src f g : SparseFile α) : Prop where
  cell : ∀ i, g.cell i = f.cell i ∨ (P i ∧ i < src.size ∧ g.cell i = src.cell i)
  size_le : f.size ≤ g.size
  grown : ∀ i, i < g.size → i < f.size ∨ ∃ j, i ≤ j ∧ P j ∧ j < src.size

theorem PatchedFrom.refl (P : ℕ → Prop) (src f : SparseFile α) : PatchedFrom P src f f :=
  ⟨fun _ => .inl rfl, le_rfl, fun _ h => .inl h⟩

theorem PatchedFrom.trans {P : ℕ → Prop} {src f g h : SparseFile α}
    (h₁ : PatchedFrom P src f g) (h₂ : PatchedFrom P src g h) : PatchedFrom P src f h := by
  refine ⟨fun i => ?_, le_trans h₁.size_le h₂.size_le, fun i hi => ?_⟩
  · rcases h₂.cell i with he | hp
    · rw [he]
      exact h₁.cell i
    · exact .inr hp
  · rcases h₂.grown i hi with hg | hj
    · exact h₁.grown i hg
    · exact .inr hj

/-- Storing a range read from `src` patches every region that holds the range. -/
theorem patchedFrom_write_read {P : ℕ → Prop} (src f : SparseFile α) (pos n : ℕ)
    (hP : ∀ i, pos ≤ i → i < pos + n → i < src.size → P i) :
    PatchedFrom P src f (f.write pos (src.read pos n)) := by
  refine ⟨fun i => ?_, size_le_write f pos _, fun i hi => ?_⟩
  · by_cases hm : pos ≤ i ∧ i < pos + n ∧ i < src.size
    · obtain ⟨h₁, h₂, h₃⟩ := hm
      exact .inr ⟨hP i h₁ h₂ h₃, h₃, write_read_cell f src h₁ h₂ h₃⟩
    · exact .inl (write_cell_of_not_mem f (by rw [length_read]; omega))
  · by_cases hx : src.read pos n = []
    · rw [hx, write_nil] at hi
      exact .inl hi
    · have hne : n ≠ 0 ∧ pos < src.size := by
        rw [read_eq_nil_iff] at hx
        omega
      rw [write_size_of_ne_nil f pos hx, length_read] at hi
      by_cases hf : i < f.size
      · exact .inl hf
      · -- The last cell of the stored range is the one that made the file grow.
        refine .inr ⟨pos + min n (src.size - pos) - 1, by omega, ?_, by omega⟩
        exact hP _ (by omega) (by omega) (by omega)

/-- Outside the region nothing changes. -/
theorem PatchedFrom.cell_eq {P : ℕ → Prop} {src f g : SparseFile α}
    (h : PatchedFrom P src f g) {i : ℕ} (hi : ¬ P i) : g.cell i = f.cell i := by
  rcases h.cell i with he | ⟨hp, -, -⟩
  · exact he
  · exact absurd hp hi

/-- Past the end of the source nothing changes either. -/
theorem PatchedFrom.cell_eq_of_le {P : ℕ → Prop} {src f g : SparseFile α}
    (h : PatchedFrom P src f g) {i : ℕ} (hi : src.size ≤ i) : g.cell i = f.cell i := by
  rcases h.cell i with he | ⟨-, hlt, -⟩
  · exact he
  · omega

/-- A cell that already had the source's value keeps it. -/
theorem PatchedFrom.cell_src {P : ℕ → Prop} {src f g : SparseFile α}
    (h : PatchedFrom P src f g) {i : ℕ} (hi : f.cell i = src.cell i) :
    g.cell i = src.cell i := by
  rcases h.cell i with he | ⟨-, -, hs⟩
  · rw [he, hi]
  · exact hs

-- ════════════════════════════════════════════════════════════════════════
-- Copying ranges of another file
-- ════════════════════════════════════════════════════════════════════════

/-- Offset `i` lies in one of the ranges, each given by its start and length. -/
def InRanges (rs : List (ℕ × ℕ)) (i : ℕ) : Prop := ∃ r ∈ rs, r.1 ≤ i ∧ i < r.1 + r.2

/-- Copy the ranges `rs` of `src` to `f`, in order. -/
def fill (src : SparseFile α) : SparseFile α → List (ℕ × ℕ) → SparseFile α
  | f, [] => f
  | f, r :: rs => fill src (f.write r.1 (src.read r.1 r.2)) rs

@[simp] theorem fill_nil (src f : SparseFile α) : fill src f [] = f := rfl

theorem fill_append (src f : SparseFile α) (rs ts : List (ℕ × ℕ)) :
    fill src f (rs ++ ts) = fill src (fill src f rs) ts := by
  induction rs generalizing f with
  | nil => rfl
  | cons r rs ih => exact ih _

theorem PatchedFrom.mono {P Q : ℕ → Prop} {src f g : SparseFile α} (h : PatchedFrom P src f g)
    (hPQ : ∀ i, P i → i < src.size → Q i) : PatchedFrom Q src f g := by
  refine ⟨fun i => ?_, h.size_le, fun i hi => ?_⟩
  · obtain he | ⟨hp, hlt, hs⟩ := h.cell i
    · exact .inl he
    · exact .inr ⟨hPQ i hp hlt, hlt, hs⟩
  · obtain hlt | ⟨j, hij, hp, hj⟩ := h.grown i hi
    · exact .inl hlt
    · exact .inr ⟨j, hij, hPQ j hp hj, hj⟩

theorem patchedFrom_fill (src f : SparseFile α) (rs : List (ℕ × ℕ)) :
    PatchedFrom (InRanges rs) src f (fill src f rs) := by
  induction rs generalizing f with
  | nil => exact .refl _ _ _
  | cons r rs ih =>
    have hhead := patchedFrom_write_read (P := InRanges (r :: rs)) src f r.1 r.2
      fun i h₁ h₂ _ => ⟨r, List.mem_cons_self, h₁, h₂⟩
    refine hhead.trans ((ih _).mono ?_)
    rintro i ⟨t, ht, hi⟩ -
    exact ⟨t, List.mem_cons_of_mem r ht, hi⟩

/-- A filled cell holds the value of the source. -/
theorem fill_cell {src f : SparseFile α} {rs : List (ℕ × ℕ)} {i : ℕ} (h : InRanges rs i)
    (hi : i < src.size) : (fill src f rs).cell i = src.cell i := by
  induction rs generalizing f with
  | nil =>
    obtain ⟨r, hr, -⟩ := h
    cases hr
  | cons r rs ih =>
    by_cases hrs : InRanges rs i
    · exact ih hrs
    · obtain ⟨t, ht, h₁, h₂⟩ := h
      obtain rfl : t = r := by
        rcases List.mem_cons.mp ht with he | hmem
        · exact he
        · exact absurd ⟨t, hmem, h₁, h₂⟩ hrs
      exact (patchedFrom_fill src _ rs).cell_src (write_read_cell f src h₁ h₂ hi)

/-- A fill reaches every filled cell of the source. -/
theorem lt_fill_size {src f : SparseFile α} {rs : List (ℕ × ℕ)} {i : ℕ} (h : InRanges rs i)
    (hi : i < src.size) : i < (fill src f rs).size := by
  induction rs generalizing f with
  | nil =>
    obtain ⟨r, hr, -⟩ := h
    cases hr
  | cons r rs ih =>
    by_cases hrs : InRanges rs i
    · exact ih hrs
    · obtain ⟨t, ht, h₁, h₂⟩ := h
      obtain rfl : t = r := by
        rcases List.mem_cons.mp ht with he | hmem
        · exact he
        · exact absurd ⟨t, hmem, h₁, h₂⟩ hrs
      refine lt_of_lt_of_le ?_ (patchedFrom_fill src _ rs).size_le
      have hne : src.read t.1 t.2 ≠ [] := by
        rw [Ne, read_eq_nil_iff]
        omega
      rw [write_size_of_ne_nil f t.1 hne, length_read]
      omega

/-- A fill reaches as far as the file did, and as far as a filled cell of the source. -/
theorem lt_fill_size_iff {src f : SparseFile α} {rs : List (ℕ × ℕ)} {i : ℕ} :
    i < (fill src f rs).size ↔ i < f.size ∨ ∃ j, i ≤ j ∧ InRanges rs j ∧ j < src.size := by
  constructor
  · exact (patchedFrom_fill src f rs).grown i
  · rintro (h | ⟨j, hij, hj, hlt⟩)
    · exact lt_of_lt_of_le h (patchedFrom_fill src f rs).size_le
    · exact lt_of_le_of_lt hij (lt_fill_size hj hlt)

/-- How far a fill extends a file depends on its size alone. -/
theorem fill_size_eq_of_eq (src : SparseFile α) (rs : List (ℕ × ℕ)) {f g : SparseFile α}
    (h : f.size = g.size) : (fill src f rs).size = (fill src g rs).size := by
  refine eq_of_forall_lt_iff fun i => ?_
  rw [lt_fill_size_iff, lt_fill_size_iff, h]

theorem fill_size_le (src f : SparseFile α) (rs : List (ℕ × ℕ)) :
    (fill src f rs).size ≤ max f.size src.size := by
  by_contra hlt
  obtain hi | ⟨j, hj, -, hjs⟩ :=
    (patchedFrom_fill src f rs).grown ((fill src f rs).size - 1) (by omega)
  · omega
  · omega

/-- A fill reaches the end of the source exactly when one of its ranges does. -/
theorem size_le_fill_iff {src f : SparseFile α} {rs : List (ℕ × ℕ)} (h0 : 0 < src.size) :
    src.size ≤ (fill src f rs).size ↔
      src.size ≤ f.size ∨ ∃ r ∈ rs, r.1 < src.size ∧ src.size ≤ r.1 + r.2 := by
  constructor
  · intro h
    obtain hi | ⟨j, hj, ⟨r, hr, h₁, h₂⟩, hjs⟩ :=
      (patchedFrom_fill src f rs).grown (src.size - 1) (by omega)
    · exact .inl (by omega)
    · exact .inr ⟨r, hr, by omega, by omega⟩
  · rintro (h | ⟨r, hr, h₁, h₂⟩)
    · exact le_trans h (patchedFrom_fill src f rs).size_le
    · have hin : InRanges rs (src.size - 1) := ⟨r, hr, by omega, by omega⟩
      have := lt_fill_size (f := f) hin (show src.size - 1 < src.size by omega)
      omega

end SparseFile

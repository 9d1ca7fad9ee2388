import Mathlib.Data.List.TakeWhile
import Mathlib.Tactic.Common

/-!
# Paths with slashes

An absolute path is a slash before each of its components. Scanning goes from slash to
slash: `strchrnul` finds the next one, and `skip` is what is left behind a number of
components.
-/

namespace SlashPath

def slash : UInt8 := 47

/-- The absolute path with the components `cs`. -/
def path (cs : List (List UInt8)) : List UInt8 := cs.flatMap (slash :: ·)

/-- What stands between two slashes. -/
structure IsComponent (c : List UInt8) : Prop where
  ne_nil : c ≠ []
  no_slash : slash ∉ c

/-- `strchrnul(s, '/')`, as the text from there on. -/
def strchrnul (s : List UInt8) : List UInt8 := s.dropWhile (· ≠ slash)

/-- The text behind the first `k` components. -/
def skip : ℕ → List UInt8 → List UInt8
  | 0, s => s
  | k + 1, s => skip k (strchrnul s.tail)

/-- The components of an absolute path. -/
def components (s : List UInt8) : List (List UInt8) := s.tail.splitOn slash

/-- The end of a text, or a place where a component begins. -/
def AtSlash (s : List UInt8) : Prop := s = [] ∨ s.head? = some slash

variable {c s : List UInt8} {cs ds : List (List UInt8)}

@[simp] theorem path_nil : path [] = [] := rfl

@[simp] theorem path_cons : path (c :: cs) = slash :: (c ++ path cs) := rfl

theorem path_append : path (cs ++ ds) = path cs ++ path ds := by
  simp [path]

theorem path_eq_intercalate (c : List UInt8) (cs : List (List UInt8)) :
    path (c :: cs) = slash :: [slash].intercalate (c :: cs) := by
  induction cs generalizing c with
  | nil => simp
  | cons d cs ih =>
    rw [path_cons, ih]
    simp [List.intercalate_cons_cons]

/-- The components are those that the path was made of. -/
theorem components_path (hne : cs ≠ []) (h : ∀ c ∈ cs, slash ∉ c) : components (path cs) = cs := by
  obtain ⟨c, cs, rfl⟩ := List.exists_cons_of_ne_nil hne
  rw [components, path_eq_intercalate, List.tail_cons]
  exact List.splitOn_intercalate slash h hne

theorem atSlash_path (cs : List (List UInt8)) : AtSlash (path cs) := by
  cases cs with
  | nil => exact .inl rfl
  | cons c cs => exact .inr rfl

/-- Scanning a component stops behind it. -/
theorem strchrnul_append (hc : slash ∉ c) (hs : AtSlash s) : strchrnul (c ++ s) = s := by
  have hall : ∀ b ∈ c, decide (b ≠ slash) = true := by
    intro b hb
    simpa using fun h : b = slash => hc (h ▸ hb)
  rw [strchrnul, List.dropWhile_append_of_pos hall]
  cases s with
  | nil => rfl
  | cons b s =>
    obtain h | h := hs
    · cases h
    · rw [List.head?_cons, Option.some.injEq] at h
      rw [h, List.dropWhile_cons]
      simp

theorem strchrnul_path (hc : slash ∉ c) : strchrnul (c ++ path cs) = path cs :=
  strchrnul_append hc (atSlash_path cs)

theorem atSlash_strchrnul (s : List UInt8) : AtSlash (strchrnul s) := by
  have h := List.head?_dropWhile_not (fun b => decide (b ≠ slash)) s
  rw [strchrnul]
  cases hs : s.dropWhile (fun b => decide (b ≠ slash)) with
  | nil => exact .inl rfl
  | cons b r =>
    rw [hs] at h
    exact .inr (by simpa using h)

/-- A text up to the next slash, and from there on. -/
theorem exists_component (s : List UInt8) :
    ∃ c, slash ∉ c ∧ s = c ++ strchrnul s := by
  refine ⟨s.takeWhile (· ≠ slash), ?_, (List.takeWhile_append_dropWhile).symm⟩
  intro h
  have := List.mem_takeWhile_imp h
  simp at this

theorem length_strchrnul_le (s : List UInt8) : (strchrnul s).length ≤ s.length := by
  obtain ⟨c, -, hc⟩ := exists_component s
  have := congrArg List.length hc
  rw [List.length_append] at this
  omega

theorem skip_path (h : ∀ c ∈ cs, slash ∉ c) (k : ℕ) : skip k (path cs) = path (cs.drop k) := by
  induction k generalizing cs with
  | zero => rfl
  | succ k ih =>
    cases cs with
    | nil =>
      have hnil := ih h
      rw [List.drop_nil] at hnil ⊢
      exact hnil
    | cons c cs =>
      have hc : slash ∉ c := h c (List.mem_cons_self)
      rw [skip, path_cons, List.tail_cons, strchrnul_path hc, List.drop_succ_cons]
      exact ih fun d hd => h d (List.mem_cons_of_mem _ hd)

end SlashPath

import Mathlib.Data.List.Perm.Basic
import Mathlib.Data.Tree.Basic
import Mathlib.Order.Defs.LinearOrder
import Mathlib.Order.Lattice

/-!
# Search trees

Searching a binary tree with a three-way comparison and linking a new node at the place
where an unsuccessful search ended. The nodes carry keys of a linear order. Rebalancing is
not part of this file: what it needs of a rebalanced tree is that the in-order sequence of
its nodes is as before.
-/

namespace FzzOverlay.SearchTree

variable {α κ : Type} [LinearOrder κ]

/-- The nodes from left to right. -/
def inorder : BinaryTree α → List α
  | .nil => []
  | .node x l r => inorder l ++ x :: inorder r

/-- Go right where `cmp` says that what is searched comes after the node. -/
def find (cmp : α → Ordering) : BinaryTree α → Option α
  | .nil => none
  | .node x l r =>
    match cmp x with
    | .gt => find cmp r
    | .lt => find cmp l
    | .eq => some x

/-- A new node at the empty place that the search for it ends at. -/
def link (cmp : α → Ordering) (y : α) : BinaryTree α → BinaryTree α
  | .nil => .node y .nil .nil
  | .node x l r =>
    match cmp x with
    | .gt => .node x l (link cmp y r)
    | _ => .node x (link cmp y l) r

/-- The keys increase from left to right. -/
def Ordered (key : α → κ) (t : BinaryTree α) : Prop :=
  (inorder t).Pairwise fun x y => key x < key y

/-- On the nodes of the tree, `cmp` compares `a` with their keys. -/
def Compares (key : α → κ) (a : κ) (cmp : α → Ordering) (t : BinaryTree α) : Prop :=
  ∀ x ∈ inorder t, (cmp x = .lt ↔ a < key x) ∧ (cmp x = .gt ↔ key x < a)

section Find

variable {key : α → κ} {a : κ} {cmp : α → Ordering} {t l r : BinaryTree α} {x y : α}

theorem Ordered.node_iff :
    Ordered key (.node x l r) ↔ Ordered key l ∧ Ordered key r ∧
      (∀ y ∈ inorder l, key y < key x) ∧ (∀ y ∈ inorder r, key x < key y) ∧
      ∀ y ∈ inorder l, ∀ z ∈ inorder r, key y < key z := by
  simp only [Ordered, inorder, List.pairwise_append, List.pairwise_cons, List.forall_mem_cons]
  constructor
  · rintro ⟨hl, ⟨hx, hr⟩, h⟩
    exact ⟨hl, hr, fun y hy => (h y hy).1, hx, fun y hy => (h y hy).2⟩
  · rintro ⟨hl, hr, hlx, hx, h⟩
    exact ⟨hl, ⟨hx, hr⟩, fun y hy => ⟨hlx y hy, h y hy⟩⟩

theorem Compares.node_iff :
    Compares key a cmp (.node x l r) ↔ Compares key a cmp l ∧
      ((cmp x = .lt ↔ a < key x) ∧ (cmp x = .gt ↔ key x < a)) ∧ Compares key a cmp r := by
  simp only [Compares, inorder, List.forall_mem_append, List.forall_mem_cons]

theorem find_eq_some (hc : Compares key a cmp t) (h : find cmp t = some x) :
    x ∈ inorder t ∧ key x = a := by
  induction t with
  | nil => cases h
  | node y l r ihl ihr =>
    obtain ⟨hl, ⟨hlt, hgt⟩, hr⟩ := Compares.node_iff.mp hc
    rw [find] at h
    rw [inorder, List.mem_append, List.mem_cons]
    cases hy : cmp y with
    | gt =>
      rw [hy] at h
      exact ⟨.inr (.inr (ihr hr h).1), (ihr hr h).2⟩
    | lt =>
      rw [hy] at h
      exact ⟨.inl (ihl hl h).1, (ihl hl h).2⟩
    | eq =>
      rw [hy] at h
      obtain rfl : y = x := Option.some.inj h
      refine ⟨.inr (.inl rfl), le_antisymm ?_ ?_⟩
      · apply le_of_not_gt
        intro hk
        rw [hlt.mpr hk] at hy
        cases hy
      · apply le_of_not_gt
        intro hk
        rw [hgt.mpr hk] at hy
        cases hy

theorem find_eq_none (ho : Ordered key t) (hc : Compares key a cmp t)
    (h : find cmp t = none) : ∀ x ∈ inorder t, key x ≠ a := by
  induction t with
  | nil => exact fun x hx => absurd hx List.not_mem_nil
  | node y l r ihl ihr =>
    obtain ⟨hl, ⟨hlt, hgt⟩, hr⟩ := Compares.node_iff.mp hc
    obtain ⟨ol, or, hlx, hxr, -⟩ := Ordered.node_iff.mp ho
    intro x hx
    rw [inorder, List.mem_append, List.mem_cons] at hx
    rw [find] at h
    cases hy : cmp y with
    | gt =>
      rw [hy] at h
      have hya := hgt.mp hy
      obtain hx | rfl | hx := hx
      · exact ne_of_lt (lt_trans (hlx x hx) hya)
      · exact ne_of_lt hya
      · exact ihr or hr h x hx
    | lt =>
      rw [hy] at h
      have hya := hlt.mp hy
      obtain hx | rfl | hx := hx
      · exact ihl ol hl h x hx
      · exact ne_of_gt hya
      · exact ne_of_gt (lt_trans hya (hxr x hx))
    | eq =>
      rw [hy] at h
      cases h

theorem perm_link (cmp : α → Ordering) (y : α) (t : BinaryTree α) :
    (inorder (link cmp y t)).Perm (y :: inorder t) := by
  induction t with
  | nil => exact List.Perm.refl _
  | node x l r ihl ihr =>
    rw [link]
    split
    · rw [inorder, inorder]
      exact ((ihr.cons x).append_left _).trans
        (((List.Perm.swap y x _).append_left _).trans List.perm_middle)
    · rw [inorder, inorder]
      exact ihl.append_right _

/-- Linking a node after an unsuccessful search for its key keeps the order. -/
theorem Ordered.link (ho : Ordered key t) (hc : Compares key a cmp t)
    (h : find cmp t = none) (hy : key y = a) : Ordered key (link cmp y t) := by
  induction t with
  | nil => exact List.pairwise_singleton _ _
  | node x l r ihl ihr =>
    obtain ⟨hl, ⟨hlt, hgt⟩, hr⟩ := Compares.node_iff.mp hc
    obtain ⟨ol, or, hlx, hxr, hlr⟩ := Ordered.node_iff.mp ho
    rw [find] at h
    rw [SearchTree.link]
    cases hx : cmp x with
    | gt =>
      rw [hx] at h
      have hxy : key x < key y := hy ▸ hgt.mp hx
      refine Ordered.node_iff.mpr ⟨ol, ihr or hr h, hlx, ?_, ?_⟩
      · intro z hz
        obtain rfl | hz := List.mem_cons.mp ((perm_link cmp y r).mem_iff.mp hz)
        · exact hxy
        · exact hxr z hz
      · intro w hw z hz
        obtain rfl | hz := List.mem_cons.mp ((perm_link cmp y r).mem_iff.mp hz)
        · exact lt_trans (hlx w hw) hxy
        · exact hlr w hw z hz
    | lt =>
      rw [hx] at h
      have hxy : key y < key x := hy ▸ hlt.mp hx
      refine Ordered.node_iff.mpr ⟨ihl ol hl h, or, ?_, hxr, ?_⟩
      · intro z hz
        obtain rfl | hz := List.mem_cons.mp ((perm_link cmp y l).mem_iff.mp hz)
        · exact hxy
        · exact hlx z hz
      · intro z hz w hw
        obtain rfl | hz := List.mem_cons.mp ((perm_link cmp y l).mem_iff.mp hz)
        · exact lt_trans hxy (hxr w hw)
        · exact hlr z hz w hw
    | eq =>
      rw [hx] at h
      cases h

end Find

end FzzOverlay.SearchTree

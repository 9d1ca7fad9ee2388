import Mathlib.Logic.Function.Basic
import Mathlib.Tactic.Common

/-!
# Flags with an owner

A flag on each object is set while someone holds the object. The flags agree with the
holders when they are only set by taking a flag that is clear, and only cleared by the
holder.

## Main definitions

- `Owned` — a flag is set exactly when one holder has the object
- `Owned.take`, `Owned.release` — the two changes that keep it
-/

/-- The flag of an object is set exactly when someone holds it, and nobody else does. -/
structure Owned {δ κ : Type*} (flag : δ → Bool) (held : κ → Option δ) : Prop where
  set : ∀ d, flag d = true ↔ ∃ k, held k = some d
  unique : ∀ d k l, held k = some d → held l = some d → k = l

namespace Owned

variable {δ κ : Type*} [DecidableEq δ] [DecidableEq κ] {flag : δ → Bool} {held : κ → Option δ}
  {k : κ} {d : δ}

omit [DecidableEq δ] [DecidableEq κ] in
theorem existsUnique (h : Owned flag held) : flag d = true ↔ ∃! k, held k = some d := by
  rw [h.set]
  exact ⟨fun ⟨k, hk⟩ => ⟨k, hk, fun l hl => h.unique d l k hl hk⟩, fun hu => hu.exists⟩

/-- A holder without an object takes one whose flag is clear. -/
theorem take (h : Owned flag held) (hk : held k = none) (hd : flag d = false) :
    Owned (Function.update flag d true) (Function.update held k (some d)) := by
  have hfree : ∀ l, held l ≠ some d := fun l hl =>
    Bool.false_ne_true (hd.symm.trans ((h.set d).mpr ⟨l, hl⟩))
  refine ⟨fun e => ?_, fun e l₁ l₂ h₁ h₂ => ?_⟩
  · by_cases he : e = d
    · subst he
      rw [Function.update_self]
      exact iff_of_true rfl ⟨k, Function.update_self ..⟩
    · rw [Function.update_of_ne he, h.set e]
      refine exists_congr fun l => ?_
      by_cases hl : l = k
      · rw [hl, hk, Function.update_self]
        simp [Ne.symm he]
      · rw [Function.update_of_ne hl]
  · by_cases hl₁ : l₁ = k
    · by_cases hl₂ : l₂ = k
      · rw [hl₁, hl₂]
      · rw [hl₁, Function.update_self] at h₁
        rw [Function.update_of_ne hl₂] at h₂
        exact absurd (Option.some.inj h₁ ▸ h₂) (hfree l₂)
    · rw [Function.update_of_ne hl₁] at h₁
      by_cases hl₂ : l₂ = k
      · rw [hl₂, Function.update_self] at h₂
        exact absurd (Option.some.inj h₂ ▸ h₁) (hfree l₁)
      · rw [Function.update_of_ne hl₂] at h₂
        exact h.unique e l₁ l₂ h₁ h₂

/-- A holder gives its object up and clears the flag. -/
theorem release (h : Owned flag held) (hk : held k = some d) :
    Owned (Function.update flag d false) (Function.update held k none) := by
  refine ⟨fun e => ?_, fun e l₁ l₂ h₁ h₂ => ?_⟩
  · by_cases he : e = d
    · subst he
      rw [Function.update_self]
      refine iff_of_false Bool.false_ne_true fun ⟨l, hl⟩ => ?_
      by_cases hlk : l = k
      · rw [hlk, Function.update_self] at hl
        cases hl
      · rw [Function.update_of_ne hlk] at hl
        exact hlk (h.unique e l k hl hk)
    · rw [Function.update_of_ne he, h.set e]
      refine exists_congr fun l => ?_
      by_cases hl : l = k
      · rw [hl, hk, Function.update_self]
        simp [Ne.symm he]
      · rw [Function.update_of_ne hl]
  · have hold : ∀ l, Function.update held k none l = some e → held l = some e := by
      intro l hl
      by_cases hlk : l = k
      · rw [hlk, Function.update_self] at hl
        cases hl
      · rwa [Function.update_of_ne hlk] at hl
    exact h.unique e l₁ l₂ (hold l₁ h₁) (hold l₂ h₂)

end Owned

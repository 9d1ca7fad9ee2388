import Mathlib.Data.List.Basic
import Mathlib.Tactic.Common

/-!
# Runs of a labelled transition system

A run records, for every step it took, the state the step started from and its
label, so a condition on steps is a condition on the members of the trace. The
rules below turn a fact about one step into a fact about every run.

## Main definitions

- `Lts.Run` — finite runs, with the trace of `(state before, label)` pairs
- `Lts.Run.invariant` — a property kept by every step holds at the end of every run
- `Lts.Run.invariant_of_guard` — the same when only the steps meeting a condition keep it
- `Lts.Run.invariant_mem` — such a property holds before every step as well
- `Lts.Run.next_of_mem` — the state after every step is a state of the run
- `Lts.Run.simulate` — a simulation of steps is one of runs
- `Lts.Run.step_of_mem` — every entry of the trace is a step that was taken
-/

namespace Lts

variable {σ ε : Type*}

/-- `Run step s tr t`: from `s` the system reaches `t`, and `tr` lists the steps
in order, each as the state before it and its label. -/
inductive Run (step : σ → ε → σ → Prop) (s : σ) : List (σ × ε) → σ → Prop
  | nil : Run step s [] s
  | snoc {tr : List (σ × ε)} {t u : σ} {e : ε} :
      Run step s tr t → step t e u → Run step s (tr ++ [(t, e)]) u

namespace Run

variable {step : σ → ε → σ → Prop} {s t : σ} {tr : List (σ × ε)}

/-- A property of the first state that every step keeps holds at the end. -/
theorem invariant {I : σ → Prop} (h : Run step s tr t) (h₀ : I s)
    (hstep : ∀ t e u, I t → step t e u → I u) : I t := by
  induction h with
  | nil => exact h₀
  | snoc _ hs ih => exact hstep _ _ _ ih hs

/-- If the steps that meet `G` keep `I`, then `I` holds at the end of every run
all of whose steps meet `G`. -/
theorem invariant_of_guard {I : σ → Prop} {G : σ → ε → Prop} (h : Run step s tr t) (h₀ : I s)
    (hstep : ∀ t e u, I t → G t e → step t e u → I u) (hG : ∀ p ∈ tr, G p.1 p.2) : I t := by
  induction h with
  | nil => exact h₀
  | @snoc tr t u e _ hs ih =>
    have hlast : G t e := hG (t, e) (by simp)
    exact hstep _ _ _ (ih fun p hp => hG p (by simp [hp])) hlast hs

/-- The property also holds of every state a step of the run started from. -/
theorem invariant_mem {I : σ → Prop} {G : σ → ε → Prop} (h : Run step s tr t) (h₀ : I s)
    (hstep : ∀ t e u, I t → G t e → step t e u → I u) (hG : ∀ p ∈ tr, G p.1 p.2) :
    ∀ p ∈ tr, I p.1 := by
  induction h with
  | nil => exact nofun
  | @snoc tr t u e hrun hs ih =>
    have hG' : ∀ p ∈ tr, G p.1 p.2 := fun p hp => hG p (by simp [hp])
    intro p hp
    rcases List.mem_append.mp hp with hp | hp
    · exact ih hG' p hp
    · obtain rfl := List.mem_singleton.mp hp
      exact hrun.invariant_of_guard h₀ hstep hG'

/-- The state after a step of the run is the last one, or a later step started from it. -/
theorem next_of_mem (h : Run step s tr t) :
    ∀ p ∈ tr, ∃ u, step p.1 p.2 u ∧ (u = t ∨ ∃ q ∈ tr, q.1 = u) := by
  induction h with
  | nil => exact nofun
  | @snoc tr t u e hrun hs ih =>
    intro p hp
    rcases List.mem_append.mp hp with hp | hp
    · obtain ⟨v, hv, hreached⟩ := ih p hp
      refine ⟨v, hv, .inr ?_⟩
      rcases hreached with rfl | ⟨q, hq, hqv⟩
      · exact ⟨(v, e), by simp, rfl⟩
      · exact ⟨q, by simp [hq], hqv⟩
    · obtain rfl := List.mem_singleton.mp hp
      exact ⟨u, hs, .inl rfl⟩

/-- When every step is a step of another system under `f`, a run is a run of that system. -/
theorem simulate {τ : Type*} {step' : τ → ε → τ → Prop} {f : σ → τ} (h : Run step s tr t)
    (hstep : ∀ p ∈ tr, ∀ u, step p.1 p.2 u → step' (f p.1) p.2 (f u)) :
    Run step' (f s) (tr.map fun p => (f p.1, p.2)) (f t) := by
  induction h with
  | nil => exact .nil
  | @snoc tr t u e hrun hs ih =>
    rw [List.map_append]
    refine .snoc (ih fun p hp => hstep p (by simp [hp])) ?_
    exact hstep (t, e) (by simp) u hs

theorem step_of_mem (h : Run step s tr t) : ∀ p ∈ tr, ∃ u, step p.1 p.2 u := by
  intro p hp
  obtain ⟨u, hs, -⟩ := h.next_of_mem p hp
  exact ⟨u, hs⟩

end Run

end Lts

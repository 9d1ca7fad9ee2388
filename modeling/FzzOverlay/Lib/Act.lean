import Mathlib.Tactic.Common

/-!
# Computations on a state that can fail

A computation that fails keeps the changes it made before. A triple says what holds after
a success and what holds after a failure, and the rules below follow the way computations
are put together.

## Main definitions

- `Act` — computations on a state, with `Act.check`, `Act.ensure` and `Act.onError`
- `Act.Triple` — precondition, postcondition and what a failure leaves
- `Act.Triple.bind` — the rule for one computation after another
-/

/-- A computation on states `σ` that gives an `α` or fails with an `ε`. -/
def Act (σ ε α : Type) : Type := σ → Except ε α × σ

namespace Act

variable {σ ε α β : Type}

instance : Monad (Act σ ε) where
  pure a := fun s => (.ok a, s)
  bind x f := fun s =>
    match x s with
    | (.ok a, t) => f a t
    | (.error e, t) => (.error e, t)

def fail (e : ε) : Act σ ε α := fun s => (.error e, s)

def get : Act σ ε σ := fun s => (.ok s, s)

def modify (f : σ → σ) : Act σ ε Unit := fun s => (.ok (), f s)

/-- A call that fails when an error is given. -/
def check : Option ε → Act σ ε Unit
  | none => pure ()
  | some e => fail e

/-- Fails with `e` unless `b` holds. -/
def ensure (e : ε) (b : Prop) [Decidable b] : Act σ ε Unit :=
  if b then pure () else fail e

/-- Runs `x` when `b` holds. -/
def doIf (b : Bool) (x : Act σ ε Unit) : Act σ ε Unit := if b then x else pure ()

/-- Runs `k` when `x` fails, and fails as `x` did. -/
def onError (x : Act σ ε α) (k : Act σ ε Unit) : Act σ ε α := fun s =>
  match x s with
  | (.ok a, t) => (.ok a, t)
  | (.error e, t) => (.error e, (k t).2)

/-- Runs `x`, and fails with `f e` when `x` fails with `e`. -/
def mapError {ε' : Type} (f : ε → ε') (x : Act σ ε α) : Act σ ε' α := fun s =>
  match x s with
  | (.ok a, t) => (.ok a, t)
  | (.error e, t) => (.error (f e), t)

/-- Runs `x` and does not tell whether it failed. -/
def ignore (x : Act σ ε α) : Act σ ε Unit := fun s => (.ok (), (x s).2)

theorem bind_of_ok {x : Act σ ε α} {f : α → Act σ ε β} {s t : σ} {a : α}
    (h : x s = (.ok a, t)) : (x >>= f) s = f a t := by
  change (match x s with
    | (.ok a, t) => f a t
    | (.error e, t) => (.error e, t)) = f a t
  rw [h]

theorem eq_of_fst {x : Act σ ε α} {s : σ} {r : Except ε α} (h : (x s).1 = r) :
    x s = (r, (x s).2) :=
  Prod.ext h rfl

/-- From every state with `P`, the computation succeeds with `Q` or fails with `E`. -/
def Triple (P : σ → Prop) (x : Act σ ε α) (Q : α → σ → Prop) (E : σ → Prop) : Prop :=
  ∀ s, P s → match x s with
    | (.ok a, t) => Q a t
    | (.error _, t) => E t

namespace Triple

variable {P P' : σ → Prop} {Q Q' : α → σ → Prop} {R : β → σ → Prop} {E : σ → Prop}
  {x : Act σ ε α}

theorem ok {s t : σ} {a : α} (h : Triple P x Q E) (hs : P s) (hx : x s = (.ok a, t)) :
    Q a t := by
  have := h s hs
  rwa [hx] at this

/-- Whatever the outcome, a property of both outcomes holds at the end. -/
theorem both {s : σ} {I : σ → Prop} (h : Triple P x Q E) (hs : P s) (hQ : ∀ a t, Q a t → I t)
    (hE : ∀ t, E t → I t) : I (x s).2 := by
  have := h s hs
  revert this
  obtain ⟨r, t⟩ := x s
  cases r with
  | error e => exact hE t
  | ok a => exact hQ a t

theorem mono (h : Triple P x Q E) (hP : ∀ s, P' s → P s) (hQ : ∀ a s, Q a s → Q' a s) :
    Triple P' x Q' E := by
  intro s hs
  have := h s (hP s hs)
  revert this
  obtain ⟨r, t⟩ := x s
  cases r with
  | error e => exact id
  | ok a => exact hQ a t

theorem monoE {E' : σ → Prop} (h : Triple P x Q E) (hE : ∀ s, E s → E' s) :
    Triple P x Q E' := by
  intro s hs
  have := h s hs
  revert this
  obtain ⟨r, t⟩ := x s
  cases r with
  | error e => exact hE t
  | ok a => exact id

/-- What the precondition says without the state may be assumed. -/
theorem assuming {φ : Prop} (hP : ∀ s, P s → φ) (h : φ → Triple P x Q E) : Triple P x Q E :=
  fun s hs => h (hP s hs) s hs

theorem pure {a : α} (h : ∀ s, P s → Q a s) : Triple P (Pure.pure a : Act σ ε α) Q E :=
  h

theorem fail {e : ε} (h : ∀ s, P s → E s) : Triple P (Act.fail e : Act σ ε α) Q E :=
  h

theorem bind {f : α → Act σ ε β} (hx : Triple P x Q E) (hf : ∀ a, Triple (Q a) (f a) R E) :
    Triple P (x >>= f) R E := by
  intro s hs
  have := hx s hs
  change match (match x s with
    | (.ok a, t) => f a t
    | (.error e, t) => (.error e, t)) with
    | (.ok a, t) => R a t
    | (.error _, t) => E t
  revert this
  obtain ⟨r, t⟩ := x s
  cases r with
  | error e => exact id
  | ok a => exact hf a t

theorem get : Triple P (Act.get : Act σ ε σ) (fun a s => P s ∧ a = s) E :=
  fun _ hs => ⟨hs, rfl⟩

theorem modify {f : σ → σ} {S : σ → Prop} (h : ∀ s, P s → S (f s)) :
    Triple P (Act.modify f : Act σ ε Unit) (fun _ => S) E :=
  h

theorem check {e : Option ε} (h : ∀ s, P s → E s) :
    Triple P (Act.check e : Act σ ε Unit) (fun _ => P) E := by
  cases e with
  | none => exact fun _ hs => hs
  | some e => exact h

theorem ensure {e : ε} {b : Prop} [Decidable b] (h : ∀ s, P s → E s) :
    Triple P (Act.ensure e b : Act σ ε Unit) (fun _ s => P s ∧ b) E := by
  unfold Act.ensure
  split
  · next hb => exact fun _ hs => ⟨hs, hb⟩
  · exact h

theorem ite {b : Prop} [Decidable b] {y : Act σ ε α} (hx : b → Triple P x Q E)
    (hy : ¬ b → Triple P y Q E) : Triple P (if b then x else y) Q E := by
  split
  · next h => exact hx h
  · next h => exact hy h

theorem doIf {b : Bool} {x : Act σ ε Unit} (hx : b = true → Triple P x (fun _ => P) E) :
    Triple P (Act.doIf b x) (fun _ => P) E :=
  .ite hx fun _ => .pure fun _ h => h

theorem onError {k : Act σ ε Unit} {F : σ → Prop} (hx : Triple P x Q F)
    (hk : Triple F k (fun _ => E) E) : Triple P (x.onError k) Q E := by
  intro s hs
  have := hx s hs
  unfold Act.onError
  revert this
  obtain ⟨r, t⟩ := x s
  cases r with
  | ok a => exact id
  | error e => exact fun ht => hk.both ht (fun _ _ h => h) (fun _ h => h)

theorem mapError {ε' : Type} {f : ε → ε'} (h : Triple P x Q E) :
    Triple P (x.mapError f) Q E := by
  intro s hs
  have := h s hs
  unfold Act.mapError
  revert this
  obtain ⟨r, t⟩ := x s
  cases r with
  | ok a => exact id
  | error e => exact id

theorem ignore {S : σ → Prop} (hx : Triple P x (fun _ => S) S) :
    Triple P x.ignore (fun _ => S) E :=
  fun _ hs => hx.both hs (fun _ _ h => h) (fun _ h => h)

end Triple

end Act

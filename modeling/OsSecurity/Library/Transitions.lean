/-
Runs of a transition system, and what holds in every state they reach.

A step takes a state and an action to the next state, where there is one.  `ok` restricts the
steps of a run: a fact about `Reachable init step ok` is about the runs all of whose steps are
`ok`, and `Anything` restricts nothing.  An invariant is shown once for the first states and
once for a step.
-/
import Mathlib.Logic.Basic

namespace Transitions

variable {σ α : Type*} {init : σ → Prop} {step : σ → α → Option σ} {ok : σ → α → Prop}

/-- The states that a run gets to. -/
inductive Reachable (init : σ → Prop) (step : σ → α → Option σ) (ok : σ → α → Prop) : σ → Prop
  | start {s : σ} (h : init s) : Reachable init step ok s
  | next {s t : σ} {a : α} (hs : Reachable init step ok s) (hok : ok s a)
      (h : step s a = some t) : Reachable init step ok t

/-- No restriction. -/
def Anything : σ → α → Prop := fun _ _ => True

/-- **The rule of invariants.** -/
theorem Reachable.invariant {I : σ → Prop} (hinit : ∀ s, init s → I s)
    (hstep : ∀ s a t, I s → ok s a → step s a = some t → I t) {s : σ}
    (h : Reachable init step ok s) : I s := by
  induction h with
  | start h => exact hinit _ h
  | next _ hok h ih => exact hstep _ _ _ ih hok h

/-- One action after the other. -/
def run (step : σ → α → Option σ) : σ → List α → Option σ
  | s, [] => some s
  | s, a :: actions => (step s a).bind fun t => run step t actions

theorem Reachable.run {s t : σ} {actions : List α} (hs : Reachable init step Anything s)
    (h : run step s actions = some t) : Reachable init step Anything t := by
  induction actions generalizing s with
  | nil =>
      cases h
      exact hs
  | cons a actions ih =>
      obtain ⟨u, hu, hrest⟩ := Option.bind_eq_some_iff.mp h
      exact ih (.next hs trivial hu) hrest

/-- The steps that `ok` allows. -/
def guarded (step : σ → α → Option σ) (ok : σ → α → Prop) [∀ s a, Decidable (ok s a)] (s : σ)
    (a : α) : Option σ :=
  if ok s a then step s a else none

theorem Reachable.run_guarded [∀ s a, Decidable (ok s a)] {s t : σ} {actions : List α}
    (hs : Reachable init step ok s)
    (h : Transitions.run (guarded step ok) s actions = some t) : Reachable init step ok t := by
  induction actions generalizing s with
  | nil =>
      cases h
      exact hs
  | cons a actions ih =>
      obtain ⟨u, hu, hrest⟩ := Option.bind_eq_some_iff.mp h
      obtain ⟨hok, hstep⟩ := Option.ite_none_right_eq_some.mp hu
      exact ih (.next hs hok hstep) hrest

end Transitions

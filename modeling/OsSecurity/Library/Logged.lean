/-
Computations that report as they go and may fail.

A function that reports into an object of its caller and can be left early has two
results, what it had reported by then and how it was left.  `Logged` keeps both, so that
what was reported before a failure is not lost with it.

As long as the reports are only written, they cannot decide anything: `exit_bind` says
that how a sequence is left depends on how its parts are left alone.  `Reports` is the
other half, a property of everything reported, and it goes through a sequence part by
part.
-/
import Mathlib.Data.List.Basic

/-- A computation with its reports, in order, and its result. -/
structure Logged (κ ε α : Type) where
  calls : List κ
  exit : Except ε α

namespace Logged

variable {κ ε α β : Type}

/-- The parts after one that fails do not run. -/
protected def bind (x : Logged κ ε α) (f : α → Logged κ ε β) : Logged κ ε β :=
  match x.exit with
  | .ok a => ⟨x.calls ++ (f a).calls, (f a).exit⟩
  | .error e => ⟨x.calls, .error e⟩

instance : Monad (Logged κ ε) where
  pure a := ⟨[], .ok a⟩
  bind := Logged.bind

/-- A computation that reports nothing. -/
def lift (x : Except ε α) : Logged κ ε α := ⟨[], x⟩

instance : MonadLift (Except ε) (Logged κ ε) := ⟨lift⟩

/-- One report. -/
def call (k : κ) : Logged κ ε Unit := ⟨[k], .ok ()⟩

/-- A last report, and the failure behind it. -/
def failWith (k : κ) (e : ε) : Logged κ ε α := ⟨[k], .error e⟩

@[simp] theorem exit_pure (a : α) : (pure a : Logged κ ε α).exit = .ok a := rfl

@[simp] theorem exit_lift (x : Except ε α) : (liftM x : Logged κ ε α).exit = x := rfl

@[simp] theorem exit_call (k : κ) : (call k : Logged κ ε Unit).exit = .ok () := rfl

@[simp] theorem exit_failWith (k : κ) (e : ε) :
    (failWith k e : Logged κ ε α).exit = .error e := rfl

/-- **How a sequence is left does not depend on what was reported.** -/
@[simp] theorem exit_bind (x : Logged κ ε α) (f : α → Logged κ ε β) :
    (x >>= f).exit = x.exit >>= fun a => (f a).exit := by
  show (Logged.bind x f).exit = _
  unfold Logged.bind
  cases x.exit <;> rfl

/-! ### A property of the reports -/

/-- Every report has the property. -/
def Reports (P : κ → Prop) (x : Logged κ ε α) : Prop := ∀ k ∈ x.calls, P k

variable {P : κ → Prop}

theorem Reports.pure (a : α) : Reports P (pure a : Logged κ ε α) := fun _ hk => by cases hk

theorem Reports.lift (x : Except ε α) : Reports P (liftM x : Logged κ ε α) :=
  fun _ hk => by cases hk

theorem Reports.call {k : κ} (h : P k) : Reports P (call k : Logged κ ε Unit) := by
  intro k' hk
  rw [List.mem_singleton.mp hk]
  exact h

theorem Reports.failWith {k : κ} {e : ε} (h : P k) : Reports P (failWith k e : Logged κ ε α) := by
  intro k' hk
  rw [List.mem_singleton.mp hk]
  exact h

theorem Reports.mono {Q : κ → Prop} {x : Logged κ ε α} (hx : Reports P x)
    (h : ∀ k, P k → Q k) : Reports Q x := fun k hk => h k (hx k hk)

theorem Reports.bind {x : Logged κ ε α} {f : α → Logged κ ε β} (hx : Reports P x)
    (hf : ∀ a, x.exit = .ok a → Reports P (f a)) : Reports P (x >>= f) := by
  show Reports P (Logged.bind x f)
  unfold Logged.bind
  cases hexit : x.exit with
  | error e => exact hx
  | ok a =>
      intro k hk
      rcases List.mem_append.mp hk with h | h
      · exact hx k h
      · exact hf a hexit k h

theorem Reports.ite {c : Prop} [Decidable c] {x y : Logged κ ε α} (hx : Reports P x)
    (hy : Reports P y) : Reports P (if c then x else y) := by
  split
  · exact hx
  · exact hy

/-! ### The last report of a failure -/

/-- The computation fails, and `k` is the last it reports. -/
def FailsWith (k : κ) (x : Logged κ ε α) : Prop :=
  (∃ e, x.exit = .error e) ∧ ∃ before, x.calls = before ++ [k]

variable {k : κ}

theorem FailsWith.failWith (e : ε) : FailsWith k (failWith k e : Logged κ ε α) :=
  ⟨⟨e, rfl⟩, [], rfl⟩

/-- A part that fails is the last one. -/
theorem FailsWith.bind_left {x : Logged κ ε α} (f : α → Logged κ ε β) (h : FailsWith k x) :
    FailsWith k (x >>= f) := by
  obtain ⟨⟨e, he⟩, before, hcalls⟩ := h
  show FailsWith k (Logged.bind x f)
  unfold Logged.bind
  rw [he]
  exact ⟨⟨e, rfl⟩, before, hcalls⟩

theorem FailsWith.bind_right {x : Logged κ ε α} {f : α → Logged κ ε β} {a : α}
    (hx : x.exit = .ok a) (h : FailsWith k (f a)) : FailsWith k (x >>= f) := by
  obtain ⟨⟨e, he⟩, before, hcalls⟩ := h
  show FailsWith k (Logged.bind x f)
  unfold Logged.bind
  rw [hx]
  refine ⟨⟨e, he⟩, x.calls ++ before, ?_⟩
  show x.calls ++ (f a).calls = _
  rw [hcalls, List.append_assoc]

end Logged

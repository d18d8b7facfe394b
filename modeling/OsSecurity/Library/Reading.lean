/-
Reading back what was written.

A reader takes what it needs from the front of a list and leaves the rest for the next one.
It reads `written` back as `a` when it turns `written`, whatever follows it, into `a` and
what follows.  Said for every continuation, the relation composes: one rule for each way
readers are put together.
-/
import Mathlib.Data.List.Basic

/-- A reader of a list of `β` that can fail with an `ε`. -/
abbrev Reader (β ε α : Type) := StateT (List β) (Except ε) α

def ReadsBack {β ε α : Type} (read : Reader β ε α) (written : List β) (a : α) : Prop :=
  ∀ rest, read (written ++ rest) = .ok (a, rest)

namespace ReadsBack

variable {β ε α γ κ : Type} {read : Reader β ε α} {written : List β} {a : α}

theorem pure (a : α) : ReadsBack (pure a : Reader β ε α) [] a := by
  intro rest
  rfl

theorem bind {next : α → Reader β ε γ} {more : List β} {c : γ} (h : ReadsBack read written a)
    (hnext : ReadsBack (next a) more c) : ReadsBack (read >>= next) (written ++ more) c := by
  intro rest
  rw [List.append_assoc]
  show (read (written ++ (more ++ rest)) >>= fun p => next p.1 p.2) = _
  rw [h]
  exact hnext rest

/-- A check that reads nothing. -/
theorem lift {x : Except ε α} (h : x = .ok a) : ReadsBack (liftM x : Reader β ε α) [] a := by
  intro rest
  subst h
  rfl

/-- What a reader makes of the value it read takes nothing more. -/
theorem map {c : γ} {f : α → γ} (h : ReadsBack read written a) (hc : f a = c) :
    ReadsBack (read >>= fun x => Pure.pure (f x)) written c := by
  intro rest
  show (read (written ++ rest) >>= fun p => Except.ok (f p.1, p.2)) = _
  rw [h, ← hc]
  rfl

/-- A loop that reads one value at each turn. -/
theorem foldlM {step : γ → κ → Reader β ε γ} {next : γ → κ → γ} {write : κ → List β}
    (h : ∀ c k, ReadsBack (step c k) (write k) (next c k)) (c : γ) (ks : List κ) :
    ReadsBack (ks.foldlM step c) (ks.flatMap write) (ks.foldl next c) := by
  induction ks generalizing c with
  | nil => exact pure c
  | cons k ks ih =>
      rw [List.foldlM_cons, List.flatMap_cons, List.foldl_cons]
      exact (h c k).bind (ih (next c k))

/-- Read from the start of the stream, with nothing after it. -/
theorem run (h : ReadsBack read written a) : read written = .ok (a, []) := by
  have hrun := h []
  rwa [List.append_nil] at hrun

end ReadsBack

/-- A reader that has read goes on with the rest. -/
theorem Reader.bind_run {β ε α γ : Type} {read : Reader β ε α} {next : α → Reader β ε γ}
    {input rest : List β} {a : α} (h : read input = .ok (a, rest)) :
    (read >>= next) input = next a rest := by
  show (read input >>= fun p => next p.1 p.2) = _
  rw [h]
  rfl

/-- What two readers have read, one after the other. -/
theorem Reader.bind_ok {β ε α γ : Type} {read : Reader β ε α} {next : α → Reader β ε γ}
    {input rest : List β} {c : γ} (h : (read >>= next) input = .ok (c, rest)) :
    ∃ a middle, read input = .ok (a, middle) ∧ next a middle = .ok (c, rest) := by
  change (read input >>= fun p => next p.1 p.2) = _ at h
  cases hread : read input with
  | ok p =>
      rw [hread] at h
      exact ⟨p.1, p.2, rfl, h⟩
  | error e =>
      rw [hread] at h
      exact absurd h nofun

theorem Reader.lift_ok {β ε α : Type} {x : Except ε α} {input rest : List β} {a : α}
    (h : (liftM x : Reader β ε α) input = .ok (a, rest)) : x = .ok a := by
  cases x with
  | ok b => exact congrArg Except.ok (congrArg Prod.fst (Except.ok.inj h))
  | error e => exact absurd h nofun

/-- A reader that leaves no more than it was given, and never fails with `bad`. -/
structure Orderly {β ε α : Type} (bad : ε) (read : Reader β ε α) : Prop where
  length_le : ∀ {input rest : List β} {a : α},
    read input = .ok (a, rest) → rest.length ≤ input.length
  safe : ∀ input, read input ≠ .error bad

namespace Orderly

variable {β ε α γ : Type} {bad : ε} {read : Reader β ε α}

theorem pure (a : α) : Orderly bad (pure a : Reader β ε α) where
  length_le h := by
    have hrest := congrArg Prod.snd (Except.ok.inj h)
    exact Nat.le_of_eq (congrArg List.length hrest.symm)
  safe _ h := absurd h nofun

theorem bind {next : α → Reader β ε γ} (h : Orderly bad read)
    (hnext : ∀ a, Orderly bad (next a)) : Orderly bad (read >>= next) where
  length_le hread := by
    obtain ⟨a, middle, hfirst, hrest⟩ := Reader.bind_ok hread
    exact Nat.le_trans ((hnext a).length_le hrest) (h.length_le hfirst)
  safe input hread := by
    change (read input >>= fun p => next p.1 p.2) = _ at hread
    cases hfirst : read input with
    | ok p =>
      rw [hfirst] at hread
      exact (hnext p.1).safe p.2 hread
    | error e =>
      rw [hfirst] at hread
      have he : e = bad := Except.error.inj hread
      exact h.safe input (by rw [hfirst, he])

theorem lift {x : Except ε α} (h : x ≠ .error bad) : Orderly bad (liftM x : Reader β ε α) := by
  cases x with
  | ok a => exact pure a
  | error e => exact ⟨fun hread => absurd hread nofun, fun _ hread => h (by
      have he : e = bad := Except.error.inj hread
      rw [he])⟩

end Orderly

/-
Functions that change a state and may be left part of the way.

What was changed before a function was left stays changed, so the rules carry two
postconditions: one for the function that returns and one for the function that is left.
-/
import Mathlib.Logic.Basic

namespace Commands

variable {σ ε α β : Type}

/-- A function that changes the state `σ` and may be left with an `ε`. -/
abbrev Command (σ ε α : Type) := ExceptT ε (StateM σ) α

/-! ### What a command does to a state -/

section Apply

variable {f : Command σ ε α} {g : α → Command σ ε β} {k : ε → Command σ ε α} {s t : σ}

@[simp] theorem bind_apply (f : Command σ ε α) (g : α → Command σ ε β) (s : σ) :
    (f >>= g) s = match f s with
      | (.ok a, t) => g a t
      | (.error e, t) => (.error e, t) := by
  change (match f s with | (r, t) => ExceptT.bindCont g r t) = _
  rcases f s with ⟨r, t⟩
  cases r with
  | ok a => rfl
  | error e => rfl

@[simp] theorem pure_apply (a : α) (s : σ) : (pure a : Command σ ε α) s = (.ok a, s) := rfl

@[simp] theorem throw_apply (e : ε) (s : σ) : (throw e : Command σ ε α) s = (.error e, s) := rfl

@[simp] theorem get_apply (s : σ) : (get : Command σ ε σ) s = (.ok s, s) := rfl

@[simp] theorem modify_apply (k : σ → σ) (s : σ) :
    (modify k : Command σ ε PUnit) s = (.ok ⟨⟩, k s) := rfl

theorem bind_ok {a : α} (h : f s = (.ok a, t)) : (f >>= g) s = g a t := by
  rw [bind_apply, h]

theorem tryCatch_ok {a : α} (h : f s = (.ok a, t)) : (tryCatch f k) s = (.ok a, t) := by
  simp only [tryCatch, tryCatchThe, MonadExceptOf.tryCatch, ExceptT.tryCatch, ExceptT.mk, bind,
    StateT.bind, h]
  rfl

theorem tryCatch_error {e : ε} (h : f s = (.error e, t)) : (tryCatch f k) s = k e t := by
  simp only [tryCatch, tryCatchThe, MonadExceptOf.tryCatch, ExceptT.tryCatch, ExceptT.mk, bind,
    StateT.bind, h]

end Apply

/-! ### Postconditions -/

/-- A return satisfies `Q`, a way out satisfies `E`. -/
def Ends (Q : α → σ → Prop) (E : ε → σ → Prop) : Except ε α × σ → Prop
  | (.ok a, t) => Q a t
  | (.error e, t) => E e t

@[simp] theorem ends_error {Q : α → σ → Prop} {E : ε → σ → Prop} {e : ε} {t : σ} :
    Ends Q E (.error e, t) ↔ E e t := Iff.rfl

/-- From `P`, a return satisfies `Q` and a way out satisfies `E`. -/
def Meets (P : σ → Prop) (f : Command σ ε α) (Q : α → σ → Prop) (E : ε → σ → Prop) : Prop :=
  ∀ s, P s → Ends Q E (f s)

namespace Ends

variable {Q Q' : α → σ → Prop} {R : β → σ → Prop} {E E' : ε → σ → Prop} {s : σ}
  {f : Command σ ε α} {g : α → Command σ ε β} {k : ε → Command σ ε α}

theorem mono {r : Except ε α × σ} (h : Ends Q E r) (hQ : ∀ a t, Q a t → Q' a t)
    (hE : ∀ e t, E e t → E' e t) : Ends Q' E' r := by
  rcases r with ⟨r, t⟩
  cases r with
  | ok a => exact hQ a t h
  | error e => exact hE e t h

theorem and {r : Except ε α × σ} (h : Ends Q E r) (h' : Ends Q' E' r) :
    Ends (fun a t => Q a t ∧ Q' a t) (fun e t => E e t ∧ E' e t) r := by
  rcases r with ⟨r, t⟩
  cases r with
  | ok a => exact ⟨h, h'⟩
  | error e => exact ⟨h, h'⟩

theorem bind (hf : Ends Q E (f s)) (hg : ∀ a t, Q a t → Ends R E (g a t)) :
    Ends R E ((f >>= g) s) := by
  rw [bind_apply]
  revert hf
  rcases f s with ⟨r, t⟩
  cases r with
  | ok a => exact hg a t
  | error e => exact fun h => h

theorem tryCatch (hf : Ends Q E' (f s)) (hk : ∀ e t, E' e t → Ends Q E (k e t)) :
    Ends Q E ((MonadExcept.tryCatch f k) s) := by
  rcases hs : f s with ⟨r, t⟩
  rw [hs] at hf
  cases r with
  | ok a =>
      rw [tryCatch_ok hs]
      exact hf
  | error e =>
      rw [tryCatch_error hs]
      exact hk e t hf

theorem then_get {g : σ → Command σ ε β} (hg : Ends R E (g s s)) : Ends R E ((get >>= g) s) := by
  rw [bind_ok (get_apply s)]
  exact hg

theorem then_modify {h : σ → σ} {g : PUnit → Command σ ε β} (hg : Ends R E (g ⟨⟩ (h s))) :
    Ends R E ((modify h >>= g) s) := by
  rw [bind_ok (modify_apply h s)]
  exact hg

end Ends

/-! ### Commands that do not touch the state -/

def Keeps (f : Command σ ε α) : Prop :=
  ∀ s, Ends (fun _ t => t = s) (fun _ t => t = s) (f s)

namespace Keeps

variable {f : Command σ ε α} {g : α → Command σ ε β} {k : ε → Command σ ε α}

theorem returns (a : α) : Keeps (pure a : Command σ ε α) := fun _ => rfl

theorem throws (e : ε) : Keeps (throw e : Command σ ε α) := fun _ => rfl

theorem bind (hf : Keeps f) (hg : ∀ a, Keeps (g a)) : Keeps (f >>= g) := by
  intro s
  refine Ends.bind (hf s) fun a t ht => ?_
  rw [ht]
  exact hg a s

theorem tryCatch (hf : Keeps f) (hk : ∀ e, Keeps (k e)) : Keeps (MonadExcept.tryCatch f k) := by
  intro s
  refine Ends.tryCatch (hf s) fun e t ht => ?_
  rw [ht]
  exact hk e s

theorem ite {c : Prop} [Decidable c] {f g : Command σ ε α} (hf : Keeps f) (hg : Keeps g) :
    Keeps (if c then f else g) := by
  split
  · exact hf
  · exact hg

/-- What follows such a command starts from the same state. -/
theorem then_ends {R : β → σ → Prop} {E : ε → σ → Prop} {s : σ} (hf : Keeps f)
    (hg : ∀ a, Ends R E (g a s)) (hE : ∀ e, E e s) : Ends R E ((f >>= g) s) := by
  refine Ends.bind (Q := fun _ t => t = s) ((hf s).mono (fun _ _ h => h) ?_) ?_
  · intro e t ht
    rw [ht]
    exact hE e
  · intro a t ht
    rw [ht]
    exact hg a

end Keeps

/-! ### Commands that do not touch a part of the state -/

/-- However `f` ends, `v` is what it was. -/
def Frames {γ : Type} (v : σ → γ) (f : Command σ ε α) : Prop :=
  ∀ s, Ends (fun _ t => v t = v s) (fun _ t => v t = v s) (f s)

namespace Frames

variable {γ : Type} {v : σ → γ} {f : Command σ ε α} {g : α → Command σ ε β}
  {k : ε → Command σ ε α}

@[grind ←] theorem returns (a : α) : Frames v (pure a : Command σ ε α) := fun _ => rfl

@[grind ←] theorem throws (e : ε) : Frames v (throw e : Command σ ε α) := fun _ => rfl

@[grind .] theorem gets : Frames v (get : Command σ ε σ) := fun _ => rfl

@[grind ←] theorem modifies {h : σ → σ} (hv : ∀ s, v (h s) = v s) :
    Frames v (modify h : Command σ ε PUnit) := fun s => hv s

@[grind ←] theorem bind (hf : Frames v f) (hg : ∀ a, Frames v (g a)) : Frames v (f >>= g) := by
  intro s
  refine Ends.bind (hf s) fun a t ht => ?_
  rw [← ht]
  exact hg a t

theorem tryCatch (hf : Frames v f) (hk : ∀ e, Frames v (k e)) :
    Frames v (MonadExcept.tryCatch f k) := by
  intro s
  refine Ends.tryCatch (hf s) fun e t ht => ?_
  rw [← ht]
  exact hk e t

/-- What depends on `v` alone stays. -/
theorem ends {P : γ → Prop} {s : σ} (hf : Frames v f) (h : P (v s)) :
    Ends (fun _ t => P (v t)) (fun _ t => P (v t)) (f s) := by
  refine (hf s).mono ?_ ?_
  · intro a t ht
    rw [ht]
    exact h
  · intro e t ht
    rw [ht]
    exact h

/-- What follows starts from a state with the same `v`. -/
theorem then_ends {P : γ → Prop} {R : β → σ → Prop} {E : ε → σ → Prop} {s : σ}
    (hf : Frames v f) (h : P (v s)) (hg : ∀ a t, P (v t) → Ends R E (g a t))
    (hE : ∀ e t, P (v t) → E e t) : Ends R E ((f >>= g) s) :=
  Ends.bind ((hf.ends h).mono (fun _ _ ht => ht) hE) hg

end Frames

/-! ### Commands that keep an invariant -/

/-- However `f` ends, `I` still holds. -/
def Maintains (I : σ → Prop) (f : Command σ ε α) : Prop :=
  ∀ s, I s → Ends (fun _ t => I t) (fun _ t => I t) (f s)

namespace Maintains

variable {I : σ → Prop} {f : Command σ ε α} {g : α → Command σ ε β} {k : ε → Command σ ε α}

@[grind ←] theorem returns (a : α) : Maintains I (pure a : Command σ ε α) := fun _ h => h

@[grind ←] theorem throws (e : ε) : Maintains I (throw e : Command σ ε α) := fun _ h => h

@[grind .] theorem gets : Maintains I (get : Command σ ε σ) := fun _ h => h

@[grind ←] theorem modifies {h : σ → σ} (hI : ∀ s, I s → I (h s)) :
    Maintains I (modify h : Command σ ε PUnit) := fun s hs => hI s hs

@[grind ←] theorem bind (hf : Maintains I f) (hg : ∀ a, Maintains I (g a)) :
    Maintains I (f >>= g) := fun s hs => Ends.bind (hf s hs) fun a t ht => hg a t ht

end Maintains

end Commands

/-
Loops that may fail, and may not end.

A loop is run with some fuel, which bounds its turns: `none` says that it has not come to its end
with it.  Fuel is nothing but that bound.  A loop ends if some quantity gets less at every turn,
and never ends if every turn leads to another.
-/
import Mathlib.Data.Nat.Basic
import Mathlib.Control.Lawful

namespace WhileLoop

variable {ε σ α β : Type}

/-- What a loop comes to with some fuel. -/
abbrev Looping (ε α : Type) := ExceptT ε Option α

/-- Steps that have an end of their own. -/
def ended (result : Except ε α) : Looping ε α := ExceptT.mk (some result)

/-- The fuel has run out. -/
def unfinished : Looping ε α := ExceptT.mk none

def whileDo (goesOn : σ → Bool) (body : σ → Looping ε σ) : Nat → σ → Looping ε σ
  | 0, _ => unfinished
  | fuel + 1, s =>
    if goesOn s then do
      let s ← body s
      whileDo goesOn body fuel s
    else pure s

/-- With enough fuel it comes to something that has the property. -/
def Ends (run : Nat → Looping ε α) (P : α → Prop) : Prop :=
  ∃ n, ∀ fuel, n ≤ fuel → ∃ a, run fuel = pure a ∧ P a

@[simp] theorem ended_ok (a : α) : ended (.ok a : Except ε α) = pure a := rfl

@[simp] theorem unfinished_bind (f : α → Looping ε β) :
    (unfinished : Looping ε α) >>= f = unfinished := rfl

theorem unfinished_ne_pure (a : α) : (unfinished : Looping ε α) ≠ pure a :=
  fun h => Option.some_ne_none _ h.symm

variable {goesOn : σ → Bool} {body : σ → Looping ε σ} (Inv : σ → Prop)

/-- **A loop ends where a turn keeps the invariant and lowers the measure.** -/
theorem whileDo_ends (measure : σ → Nat)
    (hbody : ∀ s, Inv s → goesOn s = true →
      ∃ s', body s = pure s' ∧ Inv s' ∧ measure s' < measure s)
    (fuel : Nat) {s : σ} (hs : Inv s) (hfuel : measure s < fuel) :
    ∃ s', whileDo goesOn body fuel s = pure s' ∧ Inv s' ∧ goesOn s' = false := by
  induction fuel generalizing s with
  | zero => exact absurd hfuel (Nat.not_lt_zero _)
  | succ fuel ih =>
      rw [whileDo]
      by_cases hgoes : goesOn s = true
      · obtain ⟨t, ht, hinv, hless⟩ := hbody s hs hgoes
        obtain ⟨u, hu, hspec⟩ := ih hinv (by omega)
        refine ⟨u, ?_, hspec⟩
        rw [if_pos hgoes, ht, pure_bind, hu]
      · rw [if_neg hgoes]
        exact ⟨s, rfl, hs, Bool.eq_false_iff.mpr hgoes⟩

/-- What a loop comes to, if it ends. -/
theorem whileDo_holds (hbody : ∀ s, Inv s → goesOn s = true → ∃ s', body s = pure s' ∧ Inv s')
    (fuel : Nat) {s : σ} (hs : Inv s) :
    whileDo goesOn body fuel s = unfinished ∨
      ∃ s', whileDo goesOn body fuel s = pure s' ∧ Inv s' ∧ goesOn s' = false := by
  induction fuel generalizing s with
  | zero => exact .inl rfl
  | succ fuel ih =>
      rw [whileDo]
      by_cases hgoes : goesOn s = true
      · obtain ⟨t, ht, hinv⟩ := hbody s hs hgoes
        rw [if_pos hgoes, ht, pure_bind]
        exact ih hinv
      · rw [if_neg hgoes]
        exact .inr ⟨s, rfl, hs, Bool.eq_false_iff.mpr hgoes⟩

/-- **A loop never ends where every turn leads to another.** -/
theorem whileDo_never
    (hbody : ∀ s, Inv s → goesOn s = true ∧
      (body s = unfinished ∨ ∃ s', body s = pure s' ∧ Inv s'))
    (fuel : Nat) {s : σ} (hs : Inv s) : whileDo goesOn body fuel s = unfinished := by
  induction fuel generalizing s with
  | zero => rfl
  | succ fuel ih =>
      obtain ⟨hgoes, hturn⟩ := hbody s hs
      rw [whileDo, if_pos hgoes]
      rcases hturn with hstuck | ⟨t, ht, hinv⟩
      · rw [hstuck, unfinished_bind]
      · rw [ht, pure_bind, ih hinv]

/-- It comes to something that has the property, or the fuel has run out, which it does not if
`Fuel` holds. -/
def Settles (Fuel : Prop) (result : Looping ε α) (P : α → Prop) : Prop :=
  (∃ a, result = pure a ∧ P a) ∨ (result = unfinished ∧ ¬Fuel)

section

variable {Fuel : Prop} {result : Looping ε α} {P : α → Prop} {Q : β → Prop}

theorem Settles.bind {f : α → Looping ε β} (h : Settles Fuel result P)
    (hf : ∀ a, P a → Settles Fuel (f a) Q) : Settles Fuel (result >>= f) Q := by
  rcases h with ⟨a, hresult, ha⟩ | ⟨hresult, hfuel⟩
  · rw [hresult, pure_bind]
    exact hf a ha
  · rw [hresult, unfinished_bind]
    exact .inr ⟨rfl, hfuel⟩

theorem Settles.mono {Less : Prop} (h : Settles Less result P) (hless : Fuel → Less) :
    Settles Fuel result P :=
  h.imp id fun hstuck => ⟨hstuck.1, mt hless hstuck.2⟩

end

end WhileLoop

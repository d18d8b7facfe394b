/-
Conditions on independent coordinates.

A family of conditions, one for each coordinate, describes a box.  Two boxes, one of which has
a point, are the same only if they are the same in each coordinate: a point of one can be moved
along one coordinate while the others stay.
-/
import Mathlib.Logic.Function.Basic

namespace Boxes

variable {ι : Type} [DecidableEq ι] {α : ι → Type} {P Q : (i : ι) → α i → Prop}

/-- Of a point inside, only the moved coordinate is left to check. -/
theorem forall_update {x : (i : ι) → α i} (hx : ∀ i, P i (x i)) (i : ι) (a : α i) :
    (∀ j, P j (Function.update x i a j)) ↔ P i a := by
  rw [Function.forall_update_iff x fun j b => P j b]
  exact ⟨fun h => h.1, fun h => ⟨h, fun j _ => hx j⟩⟩

theorem forall_iff (hpoint : ∃ x : (i : ι) → α i, ∀ i, Q i (x i)) :
    (∀ x : (i : ι) → α i, (∀ i, P i (x i)) ↔ ∀ i, Q i (x i)) ↔ ∀ i a, P i a ↔ Q i a := by
  constructor
  · intro h i a
    obtain ⟨x, hx⟩ := hpoint
    rw [← forall_update ((h x).mpr hx) i a, ← forall_update hx i a]
    exact h _
  · intro h x
    exact forall_congr' fun i => h i (x i)

end Boxes

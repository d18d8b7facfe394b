/-
Search for a key in a part of an ascending sequence, by halving the part.
-/
import Mathlib.Order.Lattice
import Mathlib.Order.Monotone.Basic

namespace Bisection

variable {α : Type*} [LinearOrder α]

/-- Is `key` among the values of `f` from `l` on, and below `u`? -/
def search (f : Nat → α) (key : α) (l u : Nat) : Bool :=
  if u > l then
    let m := (l + u) / 2
    if key < f m then search f key l m
    else if f m < key then search f key (m + 1) u
    else true
  else false
  termination_by u - l

/-- **The search finds what there is.**  A value that is less than the key is so with all before
it, and one that is greater with all after it. -/
theorem search_iff {f : Nat → α} {key : α} {l u : Nat} (hmono : ∀ i j, i ≤ j → j < u → f i ≤ f j) :
    search f key l u = true ↔ ∃ i, l ≤ i ∧ i < u ∧ f i = key := by
  fun_induction search f key l u with
  | case1 l u hlt m hless ih =>
      rw [ih fun i j hij hj => hmono i j hij (by omega)]
      constructor
      · rintro ⟨i, hl, hi, heq⟩
        exact ⟨i, hl, by omega, heq⟩
      · rintro ⟨i, hl, hi, rfl⟩
        refine ⟨i, hl, ?_, rfl⟩
        by_contra hge
        exact absurd (hmono m i (by omega) hi) (not_le_of_gt hless)
  | case2 l u hlt m hnot hless ih =>
      rw [ih hmono]
      constructor
      · rintro ⟨i, hl, hi, heq⟩
        exact ⟨i, by omega, hi, heq⟩
      · rintro ⟨i, hl, hi, rfl⟩
        refine ⟨i, ?_, hi, rfl⟩
        by_contra hge
        exact absurd (hmono i m (by omega) (by omega)) (not_le_of_gt hless)
  | case3 l u hlt m hnot hnot' =>
      refine ⟨fun _ => ⟨m, by omega, by omega, ?_⟩, fun _ => rfl⟩
      exact le_antisymm (not_lt.mp hnot) (not_lt.mp hnot')
  | case4 l u hnone =>
      refine ⟨fun h => absurd h (by decide), ?_⟩
      rintro ⟨i, hl, hi, -⟩
      omega

end Bisection

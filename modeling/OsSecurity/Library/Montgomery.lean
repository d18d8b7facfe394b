/-
Montgomery's reduction: how a multiple of `M` makes the lower digits of a number zero, and where the
factor for it comes from.

With `U` the inverse of `M` modulo `b`, `X` and `(X * U % b) * M` agree modulo `b`, so that
their upper halves differ by `X / b` modulo `M`.  The inverse is found by doubling the number of
digits in which it is one: either all at once (`newton`) or by adding the upper half (`lift`).
-/
import Mathlib.Data.Nat.ModEq
import Mathlib.Data.Int.ModEq
import Mathlib.Tactic.Ring
import Mathlib.Tactic.LinearCombination
import Mathlib.Tactic.Zify

namespace OsSecurity

namespace Montgomery

/-! ### The inverse -/

/-- A step of Newton's iteration. -/
theorem newton {b R A : Int} (h : b ∣ R * A - 1) : b ^ 2 ∣ R * (2 - R * A) * A - 1 := by
  obtain ⟨k, hk⟩ := h
  refine ⟨-k ^ 2, ?_⟩
  linear_combination -(R * A - 1 + b * k) * hk

/-- The upper half of the inverse, from the lower and from what that has above the one. -/
theorem lift {b R0 R1 A0 A1 h : Int} (hlow : R0 * A0 = 1 + b * h)
    (hhigh : b ∣ R1 + R0 * (h + R0 * A1)) : b ^ 2 ∣ (R0 + b * R1) * (A0 + b * A1) - 1 := by
  obtain ⟨k, hk⟩ := hhigh
  refine ⟨R1 * A1 + k * A0 - h * (h + R0 * A1), ?_⟩
  linear_combination (1 - b * (h + R0 * A1)) * hlow + b * A0 * hk

/-! ### The reduction -/

variable {X M U b q : Nat}

/-- The multiple of `M` that has the lower digits of `X`. -/
theorem same_lower (hU : U * M % b = 1 % b) (hq : q = X % b * U % b) : X % b = q * M % b := by
  have hone : X * (U * M) ≡ X * 1 [MOD b] := Nat.ModEq.mul_left X hU
  have hqX : q ≡ X * U [MOD b] := by
    rw [hq]
    exact (Nat.mod_modEq _ _).trans ((Nat.mod_modEq X b).mul_right U)
  have hqM := hqX.mul_right M
  rw [Nat.mul_one] at hone
  rw [Nat.mul_assoc] at hqM
  exact (hqM.trans hone).symm

/-- The difference of the upper halves, times `b`. -/
theorem upper_sub (h : X % b = q * M % b) :
    (b : Int) * (((X / b : Nat) : Int) - (q * M / b : Nat)) = X - q * M := by
  have hX := Nat.div_add_mod X b
  have hqM := Nat.div_add_mod (q * M) b
  rw [h] at hX
  zify at hX hqM
  push_cast
  linear_combination hX - hqM

/-- Neither upper half reaches `M`. -/
theorem upper_lt (hX : X < M * b) (hq : q < b) : X / b < M ∧ q * M / b < M := by
  have hM : 0 < M := by
    apply Nat.pos_of_ne_zero
    intro hzero
    rw [hzero, Nat.zero_mul] at hX
    exact absurd hX (Nat.not_lt_zero _)
  refine ⟨Nat.div_lt_of_lt_mul (by rw [Nat.mul_comm]; exact hX), Nat.div_lt_of_lt_mul ?_⟩
  exact Nat.mul_lt_mul_of_pos_right hq hM

/-- **The reduction**: the difference of the upper halves, or `M` more where it is below zero. -/
theorem reduced {r : Nat} (hU : U * M % b = 1 % b) (hq : q = X % b * U % b) (hX : X < M * b)
    (hb : 0 < b)
    (hr : (r : Int) = ((X / b : Nat) : Int) - (q * M / b : Nat) +
      if X / b < q * M / b then M else 0) :
    r < M ∧ r * b ≡ X [MOD M] := by
  obtain ⟨hhigh, hmul⟩ := upper_lt hX (by rw [hq]; exact Nat.mod_lt _ hb : q < b)
  have hsub := upper_sub (same_lower hU hq)
  have hmod : ((r * b : Nat) : Int) ≡ (X : Nat) [ZMOD (M : Nat)] := by
    apply Int.modEq_iff_dvd.mpr
    by_cases hless : X / b < q * M / b
    · rw [if_pos hless] at hr
      refine ⟨q - b, ?_⟩
      push_cast
      linear_combination -(b : Int) * hr - hsub
    · rw [if_neg hless] at hr
      refine ⟨q, ?_⟩
      push_cast
      linear_combination -(b : Int) * hr - hsub
  refine ⟨?_, Int.natCast_modEq_iff.mp hmod⟩
  generalize X / b = x at *
  generalize q * M / b = y at *
  by_cases hless : x < y
  · rw [if_pos hless] at hr
    omega
  · rw [if_neg hless] at hr
    omega

end Montgomery

end OsSecurity

/-
Products from three products of halves, with the carries of their sums.

In base `b` the halves of the factors are digits, `P` and `Q` are the lower and the upper of the
three products and `D` is the cross product `(a1 - a0) * (b0 - b1)`, which is kept as `T + b^2 * k`
with `T` two digits.
-/
import Mathlib.Tactic.LinearCombination
import Mathlib.Tactic.Linarith
import Mathlib.Tactic.Positivity
import Mathlib.Tactic.Ring

namespace OsSecurity.Karatsuba

variable {b : Int}

theorem product (a0 a1 b0 b1 : Int) :
    (a0 + b * a1) * (b0 + b * b1) =
      a0 * b0 + b * ((a1 - a0) * (b0 - b1) + a0 * b0 + a1 * b1) + b ^ 2 * (a1 * b1) := by
  ring

section

variable {P0 P1 Q0 Q1 T k c1 c2 c3 S1 S2 M : Int}

/-- What the three sums carry is not below zero. -/
theorem carry_nonneg (hb : 0 < b) (h1 : S1 + b ^ 2 * c1 = T + (P0 + b * P1))
    (h2 : S2 + b ^ 2 * c2 = S1 + (Q0 + b * Q1)) (h3 : M + b ^ 2 * c3 = P1 + b * Q0 + S2)
    (hsum : 0 ≤ T + b ^ 2 * k + (P0 + b * P1) + (Q0 + b * Q1)) (hmiddle : 0 ≤ P1 + b * Q0)
    (hM : M < b ^ 2) : 0 ≤ k + c1 + c2 + c3 := by
  by_contra hneg
  have htop : (k + c1 + c2 + c3) * b ^ 2 =
      P1 + b * Q0 + (T + b ^ 2 * k + (P0 + b * P1) + (Q0 + b * Q1)) - M := by
    linear_combination h1 + h2 + h3
  have hless : (k + c1 + c2 + c3) * b ^ 2 ≤ -1 * b ^ 2 :=
    mul_le_mul_of_nonneg_right (by omega) (by positivity)
  linarith

/-- The sums, and their carries above them, are the product. -/
theorem join {top co : Int} (h1 : S1 + b ^ 2 * c1 = T + (P0 + b * P1))
    (h2 : S2 + b ^ 2 * c2 = S1 + (Q0 + b * Q1)) (h3 : M + b ^ 2 * c3 = P1 + b * Q0 + S2)
    (htop : top + b * co = Q1 + (k + c1 + c2 + c3)) :
    P0 + b * M + b ^ 3 * top + b ^ 4 * co = P0 + b * P1 +
      b * (T + b ^ 2 * k + (P0 + b * P1) + (Q0 + b * Q1)) + b ^ 2 * (Q0 + b * Q1) := by
  linear_combination b * h1 + b * h2 + b * h3 + b ^ 3 * htop

end

/-- With twice the mixed product of a square. -/
theorem join_square {P0 P1 Q0 Q1 T c1 c2 M1 M2 top co : Int}
    (h1 : M1 + b ^ 2 * c1 = P1 + b * Q0 + T) (h2 : M2 + b ^ 2 * c2 = M1 + T)
    (htop : top + b * co = Q1 + (c1 + c2)) :
    P0 + b * M2 + b ^ 3 * top + b ^ 4 * co =
      P0 + b * P1 + b * (2 * T) + b ^ 2 * (Q0 + b * Q1) := by
  linear_combination b * h1 + b * h2 + b ^ 3 * htop

/-! ### The upper half -/

section

variable {P0 P1 Q0 Q1 T0 T1 L1 R t k k1 c : Int}

/-- The digit that the lower half has of the sum of the products shows its carry: `c` was
borrowed, and once more if the rest is less than `Q0`. -/
theorem carry_of_lower (hL : P1 + P0 + Q0 + T0 = L1 + b * k1)
    (hR : R = L1 - P0 - T0 + b * c) (hR0 : 0 ≤ R) (hRb : R < b) (hQ0 : 0 ≤ Q0) (hQb : Q0 < b)
    (hP0 : 0 ≤ P1) (hPb : P1 < b) (ht : t = if R < Q0 then 1 else 0) :
    k1 = c + t ∧ P1 = R - Q0 + b * t := by
  have hb : 0 < b := by omega
  have hP1 : P1 = R - Q0 + b * (k1 - c) := by linear_combination hL - hR
  by_cases hless : R < Q0
  · rw [if_pos hless] at ht
    have hone : k1 - c = 1 := by
      apply le_antisymm
      · by_contra hmore
        have hmul : b * 2 ≤ b * (k1 - c) := mul_le_mul_of_nonneg_left (by omega) hb.le
        linarith
      · by_contra hnone
        have hmul : b * (k1 - c) ≤ b * 0 := mul_le_mul_of_nonneg_left (by omega) hb.le
        linarith
    rw [hone] at hP1
    rw [ht]
    exact ⟨by omega, hP1⟩
  · rw [if_neg hless] at ht
    have hzero : k1 - c = 0 := by
      apply le_antisymm
      · by_contra hmore
        have hmul : b * 1 ≤ b * (k1 - c) := mul_le_mul_of_nonneg_left (by omega) hb.le
        linarith
      · by_contra hless'
        have hmul : b * (k1 - c) ≤ b * (-1) := mul_le_mul_of_nonneg_left (by omega) hb.le
        linarith
    rw [hzero] at hP1
    rw [ht]
    exact ⟨by omega, hP1⟩

variable {R' R'' U k1' k2 k3 : Int}

/-- What the sums of the upper half carry is not below zero. -/
theorem upper_carry_nonneg (hb : 0 < b) (hk1 : k1 = c + t) (hP1 : P1 = R - Q0 + b * t)
    (hL : P1 + P0 + Q0 + T0 = L1 + b * k1) (h1 : R' + b * k1' = R + (c + t))
    (h2 : R'' + b * k2 = R' + T1) (h3 : U + b * k3 = R'' + Q1)
    (hsum : 0 ≤ T0 + b * T1 + b ^ 2 * k + (P0 + b * P1) + (Q0 + b * Q1)) (hP0 : 0 ≤ P1)
    (hQ0 : 0 ≤ Q0) (hL1 : L1 < b) (hU : U < b) : 0 ≤ k + t + k1' + k2 + k3 := by
  have hmiddle : b * (P1 + Q1 + T1 + b * k + k1) =
      P1 + (T0 + b * T1 + b ^ 2 * k + (P0 + b * P1) + (Q0 + b * Q1)) - L1 := by
    linear_combination -hL
  have hM : 0 ≤ P1 + Q1 + T1 + b * k + k1 := by
    by_contra hneg
    have hmul : b * (P1 + Q1 + T1 + b * k + k1) ≤ b * (-1) :=
      mul_le_mul_of_nonneg_left (by omega) hb.le
    linarith
  have htop : b * (k + t + k1' + k2 + k3) = Q0 + (P1 + Q1 + T1 + b * k + k1) - U := by
    rw [hk1]
    linear_combination h1 + h2 + h3 - hP1
  by_contra hneg
  have hmul : b * (k + t + k1' + k2 + k3) ≤ b * (-1) :=
    mul_le_mul_of_nonneg_left (by omega) hb.le
  linarith

/-- The upper half from the lower. -/
theorem join_upper {top co : Int} (hk1 : k1 = c + t) (hP1 : P1 = R - Q0 + b * t)
    (hL : P1 + P0 + Q0 + T0 = L1 + b * k1) (h1 : R' + b * k1' = R + (c + t))
    (h2 : R'' + b * k2 = R' + T1) (h3 : U + b * k3 = R'' + Q1)
    (htop : top + b * co = Q1 + (k + t + k1' + k2 + k3)) :
    P0 + b * L1 + b ^ 2 * (U + b * top) + b ^ 4 * co = P0 + b * P1 +
      b * (T0 + b * T1 + b ^ 2 * k + (P0 + b * P1) + (Q0 + b * Q1)) + b ^ 2 * (Q0 + b * Q1) := by
  rw [hk1] at hL
  linear_combination -b * hL + b ^ 2 * h1 + b ^ 2 * h2 + b ^ 2 * h3 + b ^ 3 * htop - b ^ 2 * hP1

end

end OsSecurity.Karatsuba

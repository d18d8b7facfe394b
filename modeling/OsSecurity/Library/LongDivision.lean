/-
Long division, with quotients that are estimated.

A digit of a quotient is estimated from the leading digits of the remainder and of the divisor,
the divisor's taken one too large so that the estimate is never too large (`estimate_le`).  How
far it can be off is seen in what is left (`rest_of_estimate_lt`); taking the divisor off while
it goes puts that right.
-/
import Mathlib.Algebra.Order.Ring.Nat
import Mathlib.Data.Nat.ModEq
import Mathlib.Tactic.Ring

namespace LongDivision

variable {R D K d q : Nat}

theorem estimate_le (hD : 0 < D) (hd : D ≤ d * K) : R / K / d ≤ R / D := by
  rw [Nat.div_div_eq_div_mul, Nat.mul_comm K d]
  exact Nat.div_le_div_left hd hD

/-- What an estimate leaves is less than the divisor and what the estimate has been cut by. -/
theorem rest_of_estimate_lt (hK : 0 < K) (hd0 : 0 < d) (hd : d * K ≤ D + K) (hq : q = R / K / d) :
    R < q * D + (D + K + q * K) := by
  have hlt : R < (q + 1) * (K * d) := by
    rw [hq, Nat.div_div_eq_div_mul, Nat.mul_comm]
    exact Nat.lt_mul_div_succ R (Nat.mul_pos hK hd0)
  calc R < (q + 1) * (d * K) := by rw [Nat.mul_comm d K]; exact hlt
    _ ≤ (q + 1) * (D + K) := Nat.mul_le_mul_left _ hd
    _ = q * D + (D + K + q * K) := by ring

/-- One digit: what is above it has been divided, and `w` is the part of the remainder that the
digit is taken from. -/
theorem step {N high t low w w' g p : Nat} (hsum : N = high * (D * (g * p)) + t)
    (ht : t = low + p * w) (hw : w = q * D + w') :
    N = (q + g * high) * (D * p) + (low + p * w') := by
  rw [hsum, ht, hw]
  ring

theorem step_lt {low w' p : Nat} (hlow : low < p) (hw' : w' < D) : low + p * w' < D * p := by
  have hle : p * (w' + 1) ≤ p * D := Nat.mul_le_mul_left p hw'
  rw [Nat.mul_add, Nat.mul_one] at hle
  rw [Nat.mul_comm D p]
  omega

end LongDivision

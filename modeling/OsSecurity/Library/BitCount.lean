/-
The bits of a number that are set.

Taking the lowest of them away takes one from their number, and two numbers with none in common
have theirs together.  Both go by the binary digits.
-/
import Mathlib.Data.Nat.Digits.Defs
import Mathlib.Data.Nat.Bitwise

/-- The number of bits of `n` that are set. -/
def bitCount (n : Nat) : Nat := (Nat.digits 2 n).sum

namespace BitCount

theorem bitCount_bit (b : Bool) (n : Nat) : bitCount (Nat.bit b n) = b.toNat + bitCount n := by
  unfold bitCount
  rw [Nat.bit_val, Nat.add_comm]
  by_cases h : b.toNat ≠ 0 ∨ n ≠ 0
  · have hb : b.toNat < 2 := by
      cases b <;> decide
    rw [Nat.digits_add 2 (by decide) b.toNat n hb h, List.sum_cons]
  · push Not at h
    rw [h.1, h.2]
    rfl

theorem bit_ne_zero {b : Bool} {n : Nat} (h : Nat.bit b n ≠ 0) : b = true ∨ n ≠ 0 := by
  by_contra hzero
  push Not at hzero
  have hb : b = false := Bool.eq_false_iff.mpr hzero.1
  exact h (by rw [hb, hzero.2]; rfl)

/-- `n &&& (n - 1)` is `n` without its lowest bit. -/
theorem bitCount_and_pred {n : Nat} (h : n ≠ 0) : bitCount (n &&& (n - 1)) + 1 = bitCount n := by
  induction n using Nat.binaryRec with
  | zero => exact absurd rfl h
  | bit b n ih =>
      cases b with
      | true =>
        have hpred : Nat.bit true n - 1 = Nat.bit false n := by
          rw [Nat.bit_val, Nat.bit_val]
          rfl
        rw [hpred, Nat.land_bit, bitCount_bit, bitCount_bit, Nat.and_self]
        simp
        omega
      | false =>
        have hn : n ≠ 0 := (bit_ne_zero h).resolve_left Bool.false_ne_true
        have hpred : Nat.bit false n - 1 = Nat.bit true (n - 1) := by
          rw [Nat.bit_val, Nat.bit_val]
          simp
          omega
        rw [hpred, Nat.land_bit, bitCount_bit, bitCount_bit, ← ih hn]
        simp

theorem bitCount_or {m n : Nat} (h : m &&& n = 0) :
    bitCount (m ||| n) = bitCount m + bitCount n := by
  induction m using Nat.binaryRec generalizing n with
  | zero => simp [bitCount]
  | bit b m ih =>
      cases n using Nat.bitCasesOn with
      | bit c n =>
        rw [Nat.land_bit] at h
        have hbits : (b && c) = false := by
          by_contra hb
          rw [Bool.not_eq_false] at hb
          rw [hb, Nat.bit_val] at h
          simp at h
        have hrest : m &&& n = 0 := by
          by_contra hrest
          rw [Nat.bit_val] at h
          omega
        rw [Nat.lor_bit, bitCount_bit, bitCount_bit, bitCount_bit, ih hrest]
        have hor : (b || c).toNat = b.toNat + c.toNat := by
          cases b <;> cases c <;> simp_all
        omega

end BitCount

/-
The windows of an exponent's bits, from the left.

The bits of the exponent are taken from the top, either one zero at a time or a window of them
at once.  The steps that take all of them make the exponent.
-/
import Mathlib.Algebra.Group.Basic
import Mathlib.Data.Nat.Bits
import Mathlib.Tactic.Ring

namespace OsSecurity

open Nat

namespace SlidingWindow

/-- What is taken of an exponent at a time. -/
inductive Step where
  | zero
  | window (length value : Nat)

namespace Step

/-- The number that the bits taken so far make, with this step. -/
def append (n : Nat) : Step → Nat
  | zero => n * 2
  | window length value => n * 2 ^ length + value

end Step

/-- The exponent whose bits the steps take. -/
def number (steps : List Step) : Nat := steps.foldl Step.append 0

/-! ### The bits of a number -/

/-- The next bits after those from `n` on. -/
theorem div_two_pow {e n length : Nat} (h : length ≤ n) :
    e / 2 ^ (n - length) = e / 2 ^ n * 2 ^ length + e / 2 ^ (n - length) % 2 ^ length := by
  have hpow : 2 ^ n = 2 ^ (n - length) * 2 ^ length := by
    rw [← pow_add, Nat.sub_add_cancel h]
  rw [hpow, ← Nat.div_div_eq_div_mul, div_add_mod']

/-- The steps take the bits below `n`, from the top. -/
inductive Scans (bit : Nat → Bool) : Nat → List Step → Prop where
  | nil : Scans bit 0 []
  | zero {n : Nat} {steps : List Step} :
      bit n = false → Scans bit n steps → Scans bit (n + 1) (.zero :: steps)
  | window {n length value : Nat} {steps : List Step} :
      (∀ q, value.testBit q = (decide (q < length) && bit (q + n))) → Scans bit n steps →
        Scans bit (n + length) (.window length value :: steps)

namespace Scans

variable {bit : Nat → Bool} {n : Nat} {steps : List Step}

/-- Only the bits that are taken matter. -/
theorem of_below {bit' : Nat → Bool} (h : Scans bit n steps)
    (hsame : ∀ p < n, bit' p = bit p) : Scans bit' n steps := by
  induction h with
  | nil => exact .nil
  | @zero n steps hbit _ ih =>
      refine .zero ?_ (ih fun p hp => hsame p (hp.trans (lt_succ_self n)))
      rw [hsame n (lt_succ_self n), hbit]
  | @window n length value steps hvalue _ ih =>
      refine .window (fun q => ?_) (ih fun p hp => hsame p (Nat.lt_add_right length hp))
      rw [hvalue q]
      by_cases hq : q < length
      · rw [hsame (q + n) (by omega)]
      · simp [hq]

/-- The bits that have been taken, and those of the steps, are the whole number. -/
theorem append_rest {e : Nat} (h : Scans e.testBit n steps) :
    steps.foldl Step.append (e / 2 ^ n) = e := by
  induction h with
  | nil => simp
  | @zero n steps hbit _ ih =>
      have hdiv : e / 2 ^ (n + 1 - 1) =
          e / 2 ^ (n + 1) * 2 ^ 1 + e / 2 ^ (n + 1 - 1) % 2 ^ 1 := div_two_pow (Nat.le_add_left 1 n)
      rw [testBit_eq_decide_div_mod_eq, decide_eq_false_iff_not] at hbit
      have hstep : Step.zero.append (e / 2 ^ (n + 1)) = e / 2 ^ n := by
        rw [Nat.add_sub_cancel] at hdiv
        show e / 2 ^ (n + 1) * 2 = e / 2 ^ n
        omega
      rw [List.foldl_cons, hstep, ih]
  | @window n length value steps hvalue _ ih =>
      have hdiv := div_two_pow (e := e) (Nat.le_add_left length n)
      have hbits : value = e / 2 ^ n % 2 ^ length := by
        apply eq_of_testBit_eq
        intro q
        rw [hvalue q, testBit_mod_two_pow, testBit_div_two_pow]
      have hstep : (Step.window length value).append (e / 2 ^ (n + length)) = e / 2 ^ n := by
        rw [Nat.add_sub_cancel] at hdiv
        rw [Step.append, hbits]
        exact hdiv.symm
      rw [List.foldl_cons, hstep, ih]

/-- **The steps make the number whose bits they take.** -/
theorem number_eq {e : Nat} (h : Scans e.testBit n steps) : number steps = e % 2 ^ n := by
  have hlow : Scans (e % 2 ^ n).testBit n steps := by
    apply h.of_below
    intro p hp
    rw [testBit_mod_two_pow, decide_eq_true hp, Bool.true_and]
  have hall := hlow.append_rest
  rwa [div_eq_of_lt (mod_lt e (Nat.two_pow_pos n))] at hall

end Scans

end SlidingWindow

end OsSecurity

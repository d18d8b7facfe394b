/-
Modular inverses by halving and subtracting.

`f` and `g` start as the number and the odd modulus.  `f` is halved while it is even, the smaller
of the two is taken off the larger, and two more numbers keep track: `b` times the number is `f`,
and `c` times the number is `-g`, up to the power of two that has been divided out and to a sign
that changes with every exchange.  When `f` is one, `b` is the inverse but for that power, and
halving it modulo the modulus as often makes up for it.

That `b * g + c * f` stays what it was keeps `b` and `c` below the modulus, and that
`f * g * 2 ^ k` does not grow bounds the number of halvings.

For an even modulus the inverse comes from that of the modulus modulo the number
(`IsInverse.exchange`).
-/
import Mathlib.Data.Int.ModEq
import Mathlib.Data.Nat.ModEq
import Mathlib.Data.Nat.Prime.Basic
import Mathlib.Algebra.Order.Ring.Nat
import Mathlib.Tactic.LinearCombination
import Mathlib.Tactic.Ring

namespace ModularInverse

open Nat

/-- The inverse of `a` modulo `m`, or zero if there is none. -/
structure IsInverse (a m x : Nat) : Prop where
  lt : x < m
  mul : Coprime a m → a * x ≡ 1 [MOD m]
  zero : ¬Coprime a m → x = 0

structure Registers where
  b : Nat
  c : Nat
  f : Nat
  g : Nat
  k : Nat
  exchanged : Bool

namespace Registers

def start (a m : Nat) : Registers := ⟨1, 0, a, m, 0, false⟩

/-- `f`, which is `2 ^ i` times `f'`, is halved `i` times. -/
def halve (r : Registers) (i f' : Nat) : Registers :=
  { r with c := r.c * 2 ^ i, f := f', k := r.k + i }

def exchange (r : Registers) : Registers :=
  { r with b := r.c, c := r.b, f := r.g, g := r.f, exchanged := !r.exchanged }

def subtract (r : Registers) : Registers :=
  { r with b := r.b + r.c, f := r.f - r.g }

/-- The smaller is taken off the larger. -/
def reduce (r : Registers) : Registers :=
  if r.f < r.g then r.exchange.subtract else r.subtract

def sign (r : Registers) : Int := if r.exchanged then -1 else 1

end Registers

/-- What holds of the registers at any time. -/
structure Invariant (a m : Nat) (r : Registers) : Prop where
  odd : r.g % 2 = 1
  more : 1 < r.g
  gcd : Nat.gcd r.f r.g = Nat.gcd a m
  sum : r.b * r.g + r.c * r.f = m
  product : r.f * r.g * 2 ^ r.k ≤ a * m
  inverse : (m : Int) ∣ r.sign * a * r.b - r.f * 2 ^ r.k
  inverse' : (m : Int) ∣ r.sign * a * r.c + r.g * 2 ^ r.k

section

variable {a m : Nat} {r : Registers}

theorem Invariant.start (hodd : m % 2 = 1) (hm : 1 < m) : Invariant a m (.start a m) where
  odd := hodd
  more := hm
  gcd := rfl
  sum := by simp [Registers.start]
  product := by simp [Registers.start]
  inverse := by simp [Registers.start, Registers.sign]
  inverse' := by simp [Registers.start, Registers.sign]

/-- Halving is no division of the greatest common divisor, `g` being odd. -/
theorem Invariant.halve (h : Invariant a m r) {i f' : Nat} (hf : r.f = 2 ^ i * f') :
    Invariant a m (r.halve i f') where
  odd := h.odd
  more := h.more
  gcd := by
    have hgcd := h.gcd
    have htwo : Coprime (2 ^ i) r.g :=
      Coprime.pow_left i (coprime_two_left.mpr (odd_iff.mpr h.odd))
    rw [hf, htwo.gcd_mul_left_cancel] at hgcd
    exact hgcd
  sum := by
    have hsum := h.sum
    rw [hf] at hsum
    show r.b * r.g + r.c * 2 ^ i * f' = m
    rw [← hsum]
    ring
  product := by
    have hproduct := h.product
    rw [hf] at hproduct
    show f' * r.g * 2 ^ (r.k + i) ≤ a * m
    refine le_of_eq_of_le ?_ hproduct
    rw [pow_add]
    ring
  inverse := by
    have hinverse := h.inverse
    rw [hf] at hinverse
    show (m : Int) ∣ r.sign * a * r.b - f' * 2 ^ (r.k + i)
    refine hinverse.trans (dvd_of_eq ?_)
    push_cast
    ring
  inverse' := by
    show (m : Int) ∣ r.sign * a * (r.c * 2 ^ i : Nat) + r.g * 2 ^ (r.k + i)
    refine (h.inverse'.mul_right (2 ^ i)).trans (dvd_of_eq ?_)
    push_cast
    ring

theorem Registers.sign_exchange (r : Registers) : r.exchange.sign = -r.sign := by
  unfold Registers.sign Registers.exchange
  cases r.exchanged <;> rfl

theorem Invariant.exchange (h : Invariant a m r) (hodd : r.f % 2 = 1) (hf : r.f ≠ 1) :
    Invariant a m r.exchange where
  odd := hodd
  more := by
    show 1 < r.f
    omega
  gcd := (Nat.gcd_comm r.g r.f).trans h.gcd
  sum := (Nat.add_comm _ _).trans h.sum
  product := by
    show r.g * r.f * 2 ^ r.k ≤ a * m
    rw [Nat.mul_comm r.g]
    exact h.product
  inverse := by
    rw [r.sign_exchange]
    show (m : Int) ∣ -r.sign * a * r.c - r.g * 2 ^ r.k
    refine (Int.dvd_neg.mpr h.inverse').trans (dvd_of_eq ?_)
    ring
  inverse' := by
    rw [r.sign_exchange]
    show (m : Int) ∣ -r.sign * a * r.b + r.f * 2 ^ r.k
    refine (Int.dvd_neg.mpr h.inverse).trans (dvd_of_eq ?_)
    ring

theorem Invariant.subtract (h : Invariant a m r) (hle : r.g ≤ r.f) :
    Invariant a m r.subtract where
  odd := h.odd
  more := h.more
  gcd := (gcd_sub_self_left hle).trans h.gcd
  sum := by
    have hsum := h.sum
    show (r.b + r.c) * r.g + r.c * (r.f - r.g) = m
    rw [← hsum, Nat.mul_sub, Nat.add_mul, Nat.add_assoc,
      Nat.add_sub_cancel' (Nat.mul_le_mul_left _ hle)]
  product := le_trans
    (Nat.mul_le_mul_right _ (Nat.mul_le_mul_right _ (sub_le r.f r.g))) h.product
  inverse := by
    show (m : Int) ∣ r.sign * a * (r.b + r.c : Nat) - (r.f - r.g : Nat) * 2 ^ r.k
    rw [Int.natCast_sub hle]
    refine (Int.dvd_add h.inverse h.inverse').trans (dvd_of_eq ?_)
    push_cast
    ring
  inverse' := h.inverse'

/-- **One round keeps the invariant**, unless `f` is one. -/
theorem Invariant.reduce (h : Invariant a m r) (hodd : r.f % 2 = 1) (hf : r.f ≠ 1) :
    Invariant a m r.reduce := by
  unfold Registers.reduce
  by_cases hlt : r.f < r.g
  · rw [if_pos hlt]
    exact (h.exchange hodd hf).subtract hlt.le
  · rw [if_neg hlt]
    exact h.subtract (Nat.not_lt.mp hlt)

/-- After a round `f` is even. -/
theorem Registers.reduce_even (hf : r.f % 2 = 1) (hg : r.g % 2 = 1) : r.reduce.f % 2 = 0 := by
  unfold Registers.reduce
  by_cases hlt : r.f < r.g
  · rw [if_pos hlt]
    show (r.g - r.f) % 2 = 0
    omega
  · rw [if_neg hlt]
    show (r.f - r.g) % 2 = 0
    omega

/-- A round makes the product of `f` and `g` less. -/
theorem Registers.reduce_product (hf : 0 < r.f) (hg : 0 < r.g) :
    r.reduce.f * r.reduce.g < r.f * r.g := by
  unfold Registers.reduce
  by_cases hlt : r.f < r.g
  · rw [if_pos hlt, Nat.mul_comm r.f]
    exact Nat.mul_lt_mul_of_pos_right (sub_lt hg hf) hf
  · rw [if_neg hlt]
    exact Nat.mul_lt_mul_of_pos_right (sub_lt hf hg) hg

theorem Invariant.b_le (h : Invariant a m r) : r.b ≤ m := by
  have hle : r.b ≤ r.b * r.g := Nat.le_mul_of_pos_right _ (Nat.lt_trans Nat.zero_lt_one h.more)
  have hsum := h.sum
  omega

theorem Invariant.c_le (h : Invariant a m r) (hf : 0 < r.f) : r.c ≤ m := by
  have hle : r.c ≤ r.c * r.f := Nat.le_mul_of_pos_right _ hf
  have hsum := h.sum
  omega

/-- When nothing is left of `f`, the number and the modulus have a common divisor. -/
theorem Invariant.not_coprime (h : Invariant a m r) (hf : r.f = 0) : ¬Coprime a m := by
  have hgcd := h.gcd
  rw [hf, Nat.gcd_zero_left] at hgcd
  have hmore := h.more
  unfold Coprime
  omega

theorem Invariant.coprime (h : Invariant a m r) (hf : r.f = 1) : Coprime a m := by
  have hgcd := h.gcd
  rw [hf, Nat.gcd_one_left] at hgcd
  exact hgcd.symm

/-- What the registers hold when `f` is one: an inverse up to a power of two. -/
def Registers.result (m : Nat) (r : Registers) : Nat := if r.exchanged then m - r.b else r.b

theorem coprime_two_pow {k : Nat} (hodd : m % 2 = 1) : Coprime m (2 ^ k) :=
  (coprime_two_right.mpr (odd_iff.mpr hodd)).pow_right k

/-- `b` is neither zero nor the modulus when `f` is one. -/
theorem Invariant.b_bounds (h : Invariant a m r) (hodd : m % 2 = 1) (hm : 1 < m) (hf : r.f = 1) :
    0 < r.b ∧ r.b < m := by
  have hpos : 0 < r.b := by
    by_contra hzero
    have hinverse := h.inverse
    rw [hf, Nat.eq_zero_of_not_pos hzero, cast_zero, mul_zero, cast_one, one_mul, zero_sub,
      Int.dvd_neg] at hinverse
    have hdvd : m ∣ 2 ^ r.k := by exact_mod_cast hinverse
    have hone := Coprime.eq_one_of_dvd (coprime_two_pow hodd) hdvd
    omega
  have hsum := h.sum
  have hmore : r.b * 2 ≤ r.b * r.g := Nat.mul_le_mul_left _ h.more
  omega

/-- **`f` has come down to one.** -/
theorem Invariant.result (h : Invariant a m r) (hodd : m % 2 = 1) (hm : 1 < m) (hf : r.f = 1) :
    r.result m < m ∧ a * r.result m ≡ 2 ^ r.k [MOD m] := by
  obtain ⟨hpos, hlt⟩ := h.b_bounds hodd hm hf
  have hinverse := h.inverse
  rw [hf, cast_one, one_mul] at hinverse
  unfold Registers.result
  unfold Registers.sign at hinverse
  cases hexchanged : r.exchanged with
  | false =>
      rw [hexchanged] at hinverse
      refine ⟨hlt, Int.natCast_modEq_iff.mp (Int.modEq_iff_dvd.mpr ?_).symm⟩
      refine hinverse.trans (dvd_of_eq ?_)
      push_cast
      simp
  | true =>
      rw [hexchanged] at hinverse
      refine ⟨Nat.sub_lt_self hpos hlt.le, Int.natCast_modEq_iff.mp (Int.modEq_iff_dvd.mpr ?_).symm⟩
      refine (Int.dvd_add hinverse (Dvd.intro (a : Int) rfl)).trans (dvd_of_eq ?_)
      simp only [if_true]
      rw [cast_mul, Int.natCast_sub hlt.le]
      push_cast
      ring

end

/-! ### Halving modulo an odd number -/

section

variable {m x : Nat}

def half (m x : Nat) : Nat := if x % 2 = 0 then x / 2 else (x + m) / 2

theorem half_spec (hodd : m % 2 = 1) (hx : x < m) : half m x < m ∧ 2 * half m x ≡ x [MOD m] := by
  unfold half
  by_cases heven : x % 2 = 0
  · rw [if_pos heven]
    refine ⟨by omega, ?_⟩
    have hx2 : 2 * (x / 2) = x := by omega
    rw [hx2]
  · rw [if_neg heven]
    refine ⟨by omega, ?_⟩
    have hx2 : 2 * ((x + m) / 2) = x + m := by omega
    rw [hx2]
    exact add_modEq_right

theorem half_iterate (hodd : m % 2 = 1) (hx : x < m) (k : Nat) :
    (half m)^[k] x < m ∧ 2 ^ k * (half m)^[k] x ≡ x [MOD m] := by
  induction k with
  | zero => exact ⟨hx, by rw [pow_zero, Nat.one_mul]; rfl⟩
  | succ k ih =>
      obtain ⟨hlt, hmul⟩ := ih
      obtain ⟨hlt', hhalf⟩ := half_spec hodd hlt
      rw [Function.iterate_succ_apply']
      refine ⟨hlt', ?_⟩
      calc 2 ^ (k + 1) * half m ((half m)^[k] x)
          = 2 ^ k * (2 * half m ((half m)^[k] x)) := by ring
        _ ≡ 2 ^ k * (half m)^[k] x [MOD m] := hhalf.mul_left _
        _ ≡ x [MOD m] := hmul

/-- **The power of two is divided out.** -/
theorem isInverse_half {a y k : Nat} (hodd : m % 2 = 1) (hcoprime : Coprime a m) (hy : y < m)
    (hmul : a * y ≡ 2 ^ k [MOD m]) : IsInverse a m ((half m)^[k] y) := by
  obtain ⟨hlt, hhalf⟩ := half_iterate hodd hy k
  refine ⟨hlt, fun _ => ?_, fun hnot => absurd hcoprime hnot⟩
  have hboth : 2 ^ k * (a * (half m)^[k] y) ≡ 2 ^ k * 1 [MOD m] :=
    calc 2 ^ k * (a * (half m)^[k] y)
        = a * (2 ^ k * (half m)^[k] y) := by ring
      _ ≡ a * y [MOD m] := hhalf.mul_left a
      _ ≡ 2 ^ k * 1 [MOD m] := by rwa [Nat.mul_one]
  exact hboth.cancel_left_of_coprime (coprime_two_pow hodd)

end

/-! ### Other numbers and other moduli -/

section

variable {a m x u : Nat}

theorem isInverse_zero (hm : 0 < m) (h : ¬Coprime a m) : IsInverse a m 0 :=
  ⟨hm, fun hcoprime => absurd hcoprime h, fun _ => rfl⟩

/-- Only the residue of the number counts. -/
theorem IsInverse.of_mod (h : IsInverse (a % m) m x) : IsInverse a m x := by
  have hgcd : Coprime (a % m) m ↔ Coprime a m := by
    unfold Coprime
    rw [← gcd_rec, Nat.gcd_comm]
  refine ⟨h.lt, fun hcoprime => ?_, fun hnot => h.zero (mt hgcd.mp hnot)⟩
  exact ((mod_modEq a m).mul_right x).symm.trans (h.mul (hgcd.mpr hcoprime))

/-- An inverse is zero only if there is none. -/
theorem IsInverse.eq_zero_iff (h : IsInverse a m x) (hm : 1 < m) : x = 0 ↔ ¬Coprime a m := by
  refine ⟨fun hzero hcoprime => ?_, h.zero⟩
  have hmul := h.mul hcoprime
  rw [hzero, Nat.mul_zero, ModEq, zero_mod, mod_eq_of_lt hm] at hmul
  exact absurd hmul (by decide)

/-- **The number and the modulus change places.** -/
theorem IsInverse.exchange (h : IsInverse m a u) (ha : 1 < a) (hm : 1 < m)
    (hcoprime : Coprime a m) : IsInverse a m (((a - u) * m + 1) / a) := by
  have hlt := h.lt
  have hsum : (a - u) * m + u * m = a * m := by
    rw [← Nat.add_mul, Nat.sub_add_cancel hlt.le]
  have hdvd : a ∣ (a - u) * m + 1 := by
    have hmul : u * m ≡ 1 [MOD a] := by
      rw [Nat.mul_comm]
      exact h.mul hcoprime.symm
    have hzero : (a - u) * m + 1 ≡ 0 [MOD a] :=
      calc (a - u) * m + 1
          ≡ (a - u) * m + u * m [MOD a] := hmul.symm.add_left _
        _ = a * m := hsum
        _ ≡ 0 [MOD a] := modEq_zero_iff_dvd.mpr (Dvd.intro m rfl)
    exact modEq_zero_iff_dvd.mp hzero
  have hexact : a * (((a - u) * m + 1) / a) = (a - u) * m + 1 := Nat.mul_div_cancel' hdvd
  refine ⟨?_, fun _ => ?_, fun hnot => absurd hcoprime hnot⟩
  · have hu : u ≠ 0 := fun hzero => (h.eq_zero_iff ha).mp hzero hcoprime.symm
    have hum : m ≤ u * m := Nat.le_mul_of_pos_left _ (Nat.pos_of_ne_zero hu)
    exact Nat.div_lt_of_lt_mul (by omega)
  · rw [hexact]
    exact (mul_add_mod' (a - u) m 1 : _)

end

end ModularInverse

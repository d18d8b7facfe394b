/-
`MontgomeryReduce`, and the inverse modulo a power of two that it needs.

The inverse of two words is found by Newton's iteration.  That of more words is found half by
half: the product of the lower halves is one in its own lower half, which is what
`RecursiveMultiplyTop` has to know to find the upper one.
-/
import OsSecurity.Bigint.RecursiveMultiply
import OsSecurity.Library.Montgomery
import Mathlib.Tactic.IntervalCases

namespace OsSecurity

open List Nat

variable {A : Words} {k n : Nat}

def TwosComplement (A : Words) : Words := (Decrement A 1).1.map (~~~ ·)

/-- One round of `R = R*(2-R*A)`, in 64 bits. -/
def inverseStep (A R : Nat) : Nat := dword (R * (2 - R * A))

/-- The rounds are those for `i` of 3, 6, 12, 24 and 48. -/
def AtomicInverseModPower2 (A0 A1 : UInt32) : Words :=
  let R := (inverseStep (value2 A0 A1))^[5] (A0.toNat % 8)
  [LOW_WORD R, HIGH_WORD R]

def RecursiveInverseModPower2 (A : Words) (N : Nat) : Words :=
  if N = 2 then AtomicInverseModPower2 (A.getD 0 0) (A.getD 1 0)
  else if 2 ≤ N then
    let N2 := N / 2
    let A0 := A.take N2
    let A1 := A.drop N2
    let R0 := RecursiveInverseModPower2 A0 N2
    let R1 := RecursiveMultiplyTop (1 :: replicate (N2 - 1) 0) R0 A0 N2
    let T0 := RecursiveMultiplyBottom R0 A1 N2
    let T0 := TwosComplement (Add R1 T0).1
    R0 ++ RecursiveMultiplyBottom R0 T0 N2
  else []
termination_by N
decreasing_by omega

/-- `X` has `2*N` words. -/
def MontgomeryReduce (X M U : Words) (N : Nat) : Words :=
  let R := RecursiveMultiplyBottom (X.take N) U N
  let T := RecursiveMultiplyTop (X.take N) R M N
  let (R, borrow) := Subtract (X.drop N) T
  if borrow ≠ 0 then (Add R M).1 else R

section

/-! ### Two words -/

theorem inverseStep_spec {A R m : Nat} (hk : m ≤ 2 * k) (hm : m ≤ 64)
    (h : (2 : Int) ^ k ∣ R * A - 1) : (2 : Int) ^ m ∣ inverseStep A R * A - 1 := by
  have hnewton := Montgomery.newton h
  rw [← pow_mul, Nat.mul_comm] at hnewton
  have hstep : (inverseStep A R : Int) = R * (2 - R * A) % 2 ^ 64 := dword_cast _
  have hwrap : (2 : Int) ^ 64 ∣ (inverseStep A R : Int) - R * (2 - R * A) := by
    rw [hstep]
    exact (Int.mod_modEq _ _).symm.dvd
  have hexact : (2 : Int) ^ m ∣ R * (2 - R * A) * A - 1 := (pow_dvd_pow 2 hk).trans hnewton
  have hrest : (2 : Int) ^ m ∣ (inverseStep A R - R * (2 - R * A)) * A :=
    ((pow_dvd_pow 2 hm).trans hwrap).mul_right A
  have heq : (R : Int) * (2 - R * A) * A - 1 + (inverseStep A R - R * (2 - R * A)) * A =
      inverseStep A R * A - 1 := by ring
  rw [← heq]
  exact dvd_add hexact hrest

/-- An odd number is its own inverse modulo 8. -/
theorem inverse_eight {A : Nat} (hodd : A % 2 = 1) : (2 : Int) ^ 3 ∣ (A % 8 : Nat) * A - 1 := by
  have hsquare : (A % 8) * A % 8 = 1 := by
    rw [mul_mod, mod_mod]
    have hlt := mod_lt A (show 0 < 8 by decide)
    have hodd8 : A % 8 % 2 = 1 := by omega
    interval_cases A % 8 <;> first | rfl | exact absurd hodd8 (by decide)
  have hcast : (((A % 8) * A : Nat) : Int) % 8 = 1 := by
    rw [← cast_ofNat (R := Int), ← Int.natCast_mod, hsquare]
    rfl
  rw [← cast_mul]
  generalize A % 8 * A = p at hcast
  omega

theorem inverseStep_iterate {A R m : Nat} (n : Nat) (hk : m ≤ k * 2 ^ n) (hm : m ≤ 64)
    (h : (2 : Int) ^ k ∣ R * A - 1) : (2 : Int) ^ m ∣ ((inverseStep A)^[n] R : Nat) * A - 1 := by
  induction n generalizing m with
  | zero =>
      rw [pow_zero, Nat.mul_one] at hk
      exact (pow_dvd_pow 2 hk).trans h
  | succ n ih =>
      rw [Function.iterate_succ_apply']
      rw [pow_succ, ← Nat.mul_assoc] at hk
      exact inverseStep_spec (k := (m + 1) / 2) (by omega) hm (ih (by omega) (by omega))

/-- What `R` has to be for `A`, in `n` words. -/
structure IsInverse (n : Nat) (R A : Words) : Prop where
  length : R.length = n
  product : value R * value A % (2 ^ 32) ^ n = 1

theorem isInverse_of_dvd (hn : 0 < n) {R : Words} (hlen : R.length = n)
    (h : (2 ^ 32 : Int) ^ n ∣ value R * value A - 1) : IsInverse n R A := by
  refine ⟨hlen, ?_⟩
  have hmod : (1 : Nat) ≡ value R * value A [MOD (2 ^ 32) ^ n] := by
    apply Int.natCast_modEq_iff.mp
    apply Int.modEq_iff_dvd.mpr
    push_cast
    exact h
  rw [← hmod]
  exact mod_eq_of_lt (one_lt_pow (by omega) (by decide))

theorem AtomicInverseModPower2_spec {A0 A1 : UInt32} (hodd : A0.toNat % 2 = 1) :
    IsInverse 2 (AtomicInverseModPower2 A0 A1) [A0, A1] := by
  have hstart := inverse_eight (A := value2 A0 A1) (by unfold value2; omega)
  have hlow : value2 A0 A1 % 8 = A0.toNat % 8 := by
    unfold value2
    omega
  rw [hlow] at hstart
  have hiterate := inverseStep_iterate (m := 64) 5 (by decide) (Nat.le_refl _) hstart
  have hvalue : value [A0, A1] = value2 A0 A1 := by simp [value_cons, value2]
  refine isInverse_of_dvd (by decide) rfl ?_
  rw [hvalue]
  have hlt : (inverseStep (value2 A0 A1))^[5] (A0.toNat % 8) < 2 ^ 64 := by
    rw [Function.iterate_succ_apply']
    unfold inverseStep dword
    omega
  have hR : value (AtomicInverseModPower2 A0 A1) =
      (inverseStep (value2 A0 A1))^[5] (A0.toNat % 8) := by
    unfold AtomicInverseModPower2
    simp only [value_cons, value_nil, LOW_WORD_toNat, HIGH_WORD_toNat]
    omega
  rw [hR]
  exact hiterate

/-! ### More words -/

theorem value_complement (A : Words) :
    value (A.map (~~~ ·)) + value A + 1 = (2 ^ 32) ^ A.length := by
  induction A with
  | nil => rfl
  | cons a A ih =>
      have ha := a.toNat_lt
      have hnot : (~~~a).toNat + a.toNat + 1 = 2 ^ 32 := by
        rw [UInt32.toNat_not]
        show 2 ^ 32 - 1 - a.toNat + a.toNat + 1 = _
        omega
      have hpow : (2 ^ 32) ^ (A.length + 1) = 2 ^ 32 * (2 ^ 32) ^ A.length := pow_succ' _ _
      rw [map_cons, value_cons, value_cons, length_cons, hpow, ← ih]
      linear_combination hnot

theorem TwosComplement_spec (A : Words) :
    (TwosComplement A).length = A.length ∧
      (2 ^ 32 : Int) ^ A.length ∣ value (TwosComplement A) + value A := by
  obtain ⟨-, hdecrement⟩ := Decrement_value (A := A) (B := 1) (Or.inr rfl)
  have hcomplement := value_complement (Decrement A 1).1
  rw [Decrement_length] at hcomplement
  unfold TwosComplement
  refine ⟨by rw [length_map, Decrement_length], ?_⟩
  refine ⟨1 - (Decrement A 1).2.toNat, ?_⟩
  rw [UInt32.toNat_one] at hdecrement
  zify at hcomplement hdecrement
  linear_combination hcomplement - hdecrement

theorem RecursiveInverseModPower2_halves (h2 : n ≠ 1) (hn : 0 < n) :
    RecursiveInverseModPower2 A (2 * n) =
      (let R0 := RecursiveInverseModPower2 (A.take n) n
      let R1 := RecursiveMultiplyTop (1 :: replicate (n - 1) 0) R0 (A.take n) n
      let T0 := TwosComplement (Add R1 (RecursiveMultiplyBottom R0 (A.drop n) n)).1
      R0 ++ RecursiveMultiplyBottom R0 T0 n) := by
  have hhalf : 2 * n / 2 = n := by omega
  rw [RecursiveInverseModPower2.eq_def, if_neg (by omega), if_pos (by omega)]
  simp only [hhalf]

/-- The upper half of the inverse. -/
theorem upperInverse (hn : 0 < n) {R0 R1 A0 A1 : Words} {h : Nat} (hR0 : IsInverse n R0 A0)
    (hh : h = value R0 * value A0 / (2 ^ 32) ^ n) (hR1 : R1.length = n)
    (hupper : (2 ^ 32 : Int) ^ n ∣ value R1 + value R0 * (h + value R0 * value A1))
    (hA0 : A0.length = n) : IsInverse (2 * n) (R0 ++ R1) (A0 ++ A1) := by
  have hlow := div_add_mod (value R0 * value A0) ((2 ^ 32) ^ n)
  rw [hR0.product, ← hh] at hlow
  apply isInverse_of_dvd (by omega)
  · rw [length_append, hR0.length, hR1]
    omega
  · rw [value_append, value_append, hR0.length, hA0, Nat.mul_comm 2 n, pow_mul]
    push_cast
    refine Montgomery.lift (h := h) ?_ hupper
    zify at hlow
    rw [← hlow]
    ring

/-- The lower half of an odd number is odd. -/
theorem odd_take (hn : 0 < n) (hA : A.length = 2 * n) (hodd : value A % 2 = 1) :
    value (A.take n) % 2 = 1 := by
  obtain ⟨-, -, hsplit⟩ := value_halves hA
  have hpow : (2 ^ 32) ^ (n - 1 + 1) = 2 ^ 32 * (2 ^ 32) ^ (n - 1) := pow_succ' _ _
  have heven : (2 ^ 32) ^ n = 2 * (2 ^ 31 * (2 ^ 32) ^ (n - 1)) := by
    rw [Nat.sub_add_cancel hn] at hpow
    rw [hpow, ← Nat.mul_assoc]
    exact congrArg (· * (2 ^ 32) ^ (n - 1)) (show 2 ^ 32 = 2 * 2 ^ 31 from rfl)
  rw [hsplit, heven, Nat.mul_assoc, add_mul_mod_self_left] at hodd
  exact hodd

theorem RecursiveInverseModPower2_spec {N : Nat} (hN : N = 2 ^ (k + 1)) (hA : A.length = N)
    (hodd : value A % 2 = 1) : IsInverse N (RecursiveInverseModPower2 A N) A := by
  induction k generalizing N A with
  | zero =>
      rw [hN] at hA ⊢
      obtain ⟨A0, A1, rfl⟩ := length_eq_two.mp hA
      have hodd0 : A0.toNat % 2 = 1 := by
        rw [value_cons] at hodd
        omega
      rw [RecursiveInverseModPower2.eq_def, if_pos (by decide)]
      exact AtomicInverseModPower2_spec hodd0
  | succ k ih =>
      obtain ⟨n, hn, hdouble, hpos, heven⟩ := half_pow hN
      rw [hdouble] at hA ⊢
      obtain ⟨hA0, hA1, -⟩ := value_halves hA
      have hodd0 := odd_take (by omega) hA hodd
      have hR0 := ih hn hA0 hodd0
      rw [RecursiveInverseModPower2_halves (by omega) (by omega)]
      simp only
      generalize RecursiveInverseModPower2 (A.take n) n = R0 at *
      have hone : value (1 :: replicate (n - 1) 0) = 1 := by
        rw [value_cons, value_zeros]
        rfl
      have honelen : (1 :: replicate (n - 1) (0 : UInt32)).length = n := by
        rw [length_cons, length_replicate]
        omega
      obtain ⟨hR1, hhigh⟩ := RecursiveMultiplyTop_spec hn honelen hR0.length hA0
        (hone.trans hR0.product.symm)
      obtain ⟨hT0, hlow⟩ := RecursiveMultiplyBottom_spec hn hR0.length hA1
      generalize RecursiveMultiplyTop _ R0 (A.take n) n = R1 at *
      generalize RecursiveMultiplyBottom R0 (A.drop n) n = T0 at *
      have hadd := Add_mod (hR1.trans hT0.symm)
      have haddlen := Add_length (hR1.trans hT0.symm)
      rw [hR1] at hadd haddlen
      obtain ⟨hneglen, hneg⟩ := TwosComplement_spec (Add R1 T0).1
      rw [haddlen] at hneglen hneg
      obtain ⟨hupperlen, hupper⟩ := RecursiveMultiplyBottom_spec hn hR0.length hneglen
      have hwhole : A = A.take n ++ A.drop n := (take_append_drop n A).symm
      rw [hwhole]
      refine upperInverse (by omega) hR0 hhigh hupperlen ?_ hA0
      -- modulo the size of a half, it is the lower half times what is taken below zero
      have hmod : (value (RecursiveMultiplyBottom R0 (TwosComplement (Add R1 T0).1) n) : Int) ≡
          value R0 * value (TwosComplement (Add R1 T0).1) [ZMOD (2 ^ 32) ^ n] := by
        rw [hupper]
        push_cast
        exact Int.mod_modEq _ _
      have hsum : (value (Add R1 T0).1 : Int) ≡
          value R1 + value R0 * value (A.drop n) [ZMOD (2 ^ 32) ^ n] := by
        rw [hadd, hlow]
        push_cast
        exact (Int.mod_modEq _ _).trans ((Int.mod_modEq _ _).add_left _)
      have hzero := (hmod.add (hsum.symm.mul_left (value R0 : Int)))
      rw [← mul_add] at hzero
      exact (Int.modEq_zero_iff_dvd.mp (hzero.trans
        (Int.modEq_zero_iff_dvd.mpr (hneg.mul_left _))))
/-! ### The reduction -/

theorem MontgomeryReduce_spec {N : Nat} (hN : N = 2 ^ (k + 1)) {X M U : Words}
    (hXlen : X.length = 2 * N) (hM : M.length = N) (hU : IsInverse N U M)
    (hX : value X < value M * (2 ^ 32) ^ N) :
    (MontgomeryReduce X M U N).length = N ∧ value (MontgomeryReduce X M U N) < value M ∧
      value (MontgomeryReduce X M U N) * (2 ^ 32) ^ N ≡ value X [MOD value M] := by
  have hpos : 0 < (2 ^ 32) ^ N := Nat.pow_pos (by decide)
  have hNpos : 0 < N := by
    rw [hN]
    exact Nat.two_pow_pos _
  have hone : 1 % (2 ^ 32) ^ N = 1 := mod_eq_of_lt (one_lt_pow (by omega) (by decide))
  have hUM : value U * value M % (2 ^ 32) ^ N = 1 % (2 ^ 32) ^ N := hU.product.trans hone.symm
  obtain ⟨hX0, hX1, -⟩ := value_halves hXlen
  have hlow := value_take N (A := X) (by omega)
  have hhigh := value_drop N (A := X) (by omega)
  obtain ⟨hRlen, hR⟩ := RecursiveMultiplyBottom_spec hN hX0 hU.length
  rw [hlow] at hR
  have hsame := Montgomery.same_lower hUM hR
  obtain ⟨hTlen, hT⟩ := RecursiveMultiplyTop_spec hN hX0 hRlen hM (hlow.trans hsame)
  unfold MontgomeryReduce
  simp only
  generalize RecursiveMultiplyBottom (X.take N) U N = R at *
  generalize RecursiveMultiplyTop (X.take N) R M N = T at *
  have hRless : value R < (2 ^ 32) ^ N := by
    rw [hR]
    exact mod_lt _ hpos
  obtain ⟨hupper, hTless⟩ := Montgomery.upper_lt hX hRless
  have hreduced : ∀ r : Nat, (r : Int) = (value (X.drop N) : Int) - value T +
      (if value (X.drop N) < value T then value M else 0 : Nat) →
      r < value M ∧ r * (2 ^ 32) ^ N ≡ value X [MOD value M] := by
    intro r hr
    rw [hhigh, hT] at hr
    exact Montgomery.reduced hUM hR hX hpos hr
  rw [← hT] at hTless
  have hlen := hX1.trans hTlen.symm
  obtain ⟨hborrow, hsub⟩ := Subtract_value hlen
  have hsublen := Subtract_length hlen
  have hless := value_lt (Subtract (X.drop N) T).1
  rw [hX1] at hsub hsublen
  rw [hsublen] at hless
  by_cases hzero : (Subtract (X.drop N) T).2 = 0
  · rw [if_neg (not_not.mpr hzero)]
    rw [hzero, UInt32.toNat_zero, Nat.mul_zero, Nat.add_zero] at hsub
    refine ⟨hsublen, hreduced _ ?_⟩
    rw [if_neg (by omega)]
    omega
  · have hone : (Subtract (X.drop N) T).2.toNat = 1 := by
      have hne : (Subtract (X.drop N) T).2.toNat ≠ 0 := fun h => hzero (UInt32.toNat_inj.mp h)
      omega
    rw [hone, Nat.mul_one] at hsub
    -- the difference is below zero, and `M` brings it back
    have hneg : value (X.drop N) < value T := by omega
    obtain ⟨hcarry, hadd⟩ := Add_value (hsublen.trans hM.symm)
    have haddless := value_lt (Add (Subtract (X.drop N) T).1 M).1
    rw [Add_length (hsublen.trans hM.symm), hsublen] at haddless
    rw [hsublen] at hadd
    have hcarried : (Add (Subtract (X.drop N) T).1 M).2.toNat = 1 := by
      by_contra hnot
      have hnone : (Add (Subtract (X.drop N) T).1 M).2.toNat = 0 := by omega
      rw [hnone, Nat.mul_zero, Nat.add_zero] at hadd
      omega
    rw [hcarried, Nat.mul_one] at hadd
    rw [if_pos hzero]
    refine ⟨(Add_length (hsublen.trans hM.symm)).trans hsublen, hreduced _ ?_⟩
    rw [if_pos hneg]
    omega

end

end OsSecurity

/-
Products of arrays: `RecursiveMultiply`, `RecursiveSquare`, `RecursiveMultiplyBottom` and
`RecursiveMultiplyTop`.

An array is cut in halves, and the product is put together from the products of the halves:
`A0*B0`, `A1*B1`, and `(A1-A0)*(B0-B1)` instead of the two mixed ones.  `T` is room for what is
found on the way, which has names of its own here.  The sizes are powers of two.
-/
import OsSecurity.Bigint.Comba
import OsSecurity.Library.Karatsuba

namespace OsSecurity

open List Nat UInt32

/-- `(A1-A0)*(B0-B1)`, in twice the words of a half, and what is carried: it may be below zero.
A factor that has wrapped is too large by what is subtracted above the middle of the product. -/
def crossWords (multiply : Words → Words → Words) (A0 A1 B0 B1 : Words) : Words × Int :=
  let N2 := A0.length
  let aComp := Compare A0 A1
  let bComp := Compare B0 B1
  let comp := 2 * aComp + aComp + bComp
  if comp = -4 then
    let R0 := (Subtract A1 A0).1
    let R1 := (Subtract B0 B1).1
    let T := multiply R0 R1
    (T.take N2 ++ (Subtract (T.drop N2) R0).1, -1)
  else if comp = -2 then
    let R0 := (Subtract A1 A0).1
    let R1 := (Subtract B0 B1).1
    (multiply R0 R1, 0)
  else if comp = 2 then
    let R0 := (Subtract A0 A1).1
    let R1 := (Subtract B1 B0).1
    (multiply R0 R1, 0)
  else if comp = 4 then
    let R0 := (Subtract A1 A0).1
    let R1 := (Subtract B0 B1).1
    let T := multiply R0 R1
    (T.take N2 ++ (Subtract (T.drop N2) R1).1, -1)
  else (replicate (2 * N2) 0, 0)

/-- The product from the three products of halves. -/
def joinProducts (N2 : Nat) (cross : Words × Int) (R01 R23 : Words) : Words :=
  let (T, carry1) := Add cross.1 R01
  let (T, carry2) := Add T R23
  let (R12, carry3) := Add (R01.drop N2 ++ R23.take N2) T
  let carry := cross.2 + carry1.toNat + carry2.toNat + carry3.toNat
  R01.take N2 ++ R12 ++ (Increment (R23.drop N2) (ofInt carry)).1

def RecursiveMultiply (A B : Words) (N : Nat) : Words :=
  if N = 2 then AtomicMultiply (A.getD 0 0) (A.getD 1 0) (B.getD 0 0) (B.getD 1 0)
  else if N = 4 then CombaMultiply4 A B
  else if N = 8 then CombaMultiply8 A B
  else if 2 ≤ N then
    let N2 := N / 2
    let A0 := A.take N2
    let A1 := A.drop N2
    let B0 := B.take N2
    let B1 := B.drop N2
    joinProducts N2 (crossWords (fun X Y => RecursiveMultiply X Y N2) A0 A1 B0 B1)
      (RecursiveMultiply A0 B0 N2) (RecursiveMultiply A1 B1 N2)
  else []
termination_by N
decreasing_by all_goals omega

def RecursiveSquare (A : Words) (N : Nat) : Words :=
  if N = 2 then AtomicMultiply (A.getD 0 0) (A.getD 1 0) (A.getD 0 0) (A.getD 1 0)
  else if N = 4 then CombaMultiply4 A A
  else if 2 ≤ N then
    let N2 := N / 2
    let A0 := A.take N2
    let A1 := A.drop N2
    let R01 := RecursiveSquare A0 N2
    let R23 := RecursiveSquare A1 N2
    let T := RecursiveMultiply A0 A1 N2
    let (R12, carry1) := Add (R01.drop N2 ++ R23.take N2) T
    let (R12, carry2) := Add R12 T
    R01.take N2 ++ R12 ++ (Increment (R23.drop N2) (carry1 + carry2)).1
  else []
termination_by N
decreasing_by all_goals omega

/-- The lower half of the product. -/
def RecursiveMultiplyBottom (A B : Words) (N : Nat) : Words :=
  if N = 2 then AtomicMultiplyBottom A B
  else if N = 4 then CombaMultiplyBottom4 A B
  else if N = 8 then CombaMultiplyBottom8 A B
  else if 2 ≤ N then
    let N2 := N / 2
    let A0 := A.take N2
    let A1 := A.drop N2
    let B0 := B.take N2
    let B1 := B.drop N2
    let R := RecursiveMultiply A0 B0 N2
    let R1 := (Add (R.drop N2) (RecursiveMultiplyBottom A1 B0 N2)).1
    let R1 := (Add R1 (RecursiveMultiplyBottom A0 B1 N2)).1
    R.take N2 ++ R1
  else []
termination_by N
decreasing_by all_goals omega

/-- The upper half of the product, from the lower half `L` and the products of halves. -/
def joinTop (N2 : Nat) (cross : Words × Int) (L T23 : Words) : Words :=
  let (R0, c2) := Subtract (L.drop N2) (L.take N2)
  let (R0, c2') := Subtract R0 (cross.1.take N2)
  let t : UInt32 := if Compare R0 (T23.take N2) = -1 then 1 else 0
  let (R0, carry1) := Increment R0 (c2 + c2' + t)
  let (R0, carry2) := Add R0 (cross.1.drop N2)
  let (R0, carry3) := Add R0 (T23.drop N2)
  let carry := cross.2 + t.toNat + carry1.toNat + carry2.toNat + carry3.toNat
  R0 ++ (Increment (T23.drop N2) (ofInt carry)).1

/-- The upper half of the product, of which the lower half `L` is known. -/
def RecursiveMultiplyTop (L A B : Words) (N : Nat) : Words :=
  if N = 2 then (AtomicMultiply (A.getD 0 0) (A.getD 1 0) (B.getD 0 0) (B.getD 1 0)).drop 2
  else if N = 4 then (CombaMultiply4 A B).drop 4
  else
    let N2 := N / 2
    let A0 := A.take N2
    let A1 := A.drop N2
    let B0 := B.take N2
    let B1 := B.drop N2
    joinTop N2 (crossWords (fun X Y => RecursiveMultiply X Y N2) A0 A1 B0 B1) L
      (RecursiveMultiply A1 B1 N2)

/-! ### The cross product -/

section

variable {A B : Words} {n : Nat}

theorem Subtract_of_le (h : A.length = B.length) (hle : value B ≤ value A) :
    value (Subtract A B).1 + value B = value A := by
  obtain ⟨hborrow, hvalue⟩ := Subtract_value h
  have hlt := value_lt (Subtract A B).1
  rw [Subtract_length h] at hlt
  rcases Nat.eq_zero_or_pos (Subtract A B).2.toNat with hzero | hpos
  · rw [hzero, Nat.mul_zero, Nat.add_zero] at hvalue
    exact hvalue
  · have hone : (Subtract A B).2.toNat = 1 := by omega
    rw [hone, Nat.mul_one] at hvalue
    omega

theorem Subtract_of_lt (h : A.length = B.length) (hlt : value A < value B) :
    value (Subtract A B).1 + value B = value A + (2 ^ 32) ^ A.length := by
  obtain ⟨hborrow, hvalue⟩ := Subtract_value h
  rcases Nat.eq_zero_or_pos (Subtract A B).2.toNat with hzero | hpos
  · rw [hzero, Nat.mul_zero] at hvalue
    omega
  · have hone : (Subtract A B).2.toNat = 1 := by omega
    rw [hone, Nat.mul_one] at hvalue
    exact hvalue

/-- What a function has to do with `n` words by `n` words. -/
def Multiplies (multiply : Words → Words → Words) (n : Nat) : Prop :=
  ∀ X Y, X.length = n → Y.length = n →
    (multiply X Y).length = 2 * n ∧ value (multiply X Y) = value X * value Y

/-- What is subtracted above the middle of a product that is too large. -/
theorem subtract_above {T R : Words} (hT : T.length = 2 * n) (hR : R.length = n)
    (hless : value T < (2 ^ 32) ^ n * value R) :
    (T.take n ++ (Subtract (T.drop n) R).1).length = 2 * n ∧
      (value (T.take n ++ (Subtract (T.drop n) R).1) : Int) - (2 ^ 32) ^ (2 * n) =
        value T - (2 ^ 32) ^ n * value R := by
  have hdrop : (T.drop n).length = R.length := by
    rw [length_drop]
    omega
  have htake : (T.take n).length = n := length_take_of_le (by omega)
  have hsplit := value_append (T.take n) (T.drop n)
  rw [take_append_drop, htake] at hsplit
  have hlt : value (T.drop n) < value R := by
    apply Nat.lt_of_mul_lt_mul_left (a := (2 ^ 32) ^ n)
    omega
  have hsub := Subtract_of_lt hdrop hlt
  constructor
  · rw [length_append, Subtract_length hdrop, htake, hdrop, hR]
    omega
  · rw [value_append, htake, hsplit]
    rw [hdrop, hR] at hsub
    zify at hsub
    push_cast
    rw [Nat.two_mul, pow_add]
    linear_combination (2 ^ 32) ^ n * hsub

/-- Twice `n` words, with what is carried, for a number that may be below zero. -/
structure IsCross (n : Nat) (cross : Words × Int) (x : Int) : Prop where
  length : cross.1.length = 2 * n
  value : (value cross.1 : Int) + ((2 ^ 32) ^ n) ^ 2 * cross.2 = x
  carry : -1 ≤ cross.2
  carry_le : cross.2 ≤ 0

variable {A0 A1 B0 B1 : Words} {multiply : Words → Words → Words}

/-- Both factors are differences that do not wrap. -/
theorem crossWords_product {X Y X' Y' : Words} (hm : Multiplies multiply n) (hX : X.length = n)
    (hX' : X'.length = n) (hY : Y.length = n) (hY' : Y'.length = n) (hXle : value X' ≤ value X)
    (hYle : value Y' ≤ value Y) :
    IsCross n (multiply (Subtract X X').1 (Subtract Y Y').1, 0)
      (((value X : Int) - value X') * (value Y - value Y')) := by
  have hXsub := Subtract_of_le (hX.trans hX'.symm) hXle
  have hYsub := Subtract_of_le (hY.trans hY'.symm) hYle
  obtain ⟨hlen, hvalue⟩ := hm (Subtract X X').1 (Subtract Y Y').1
    ((Subtract_length (hX.trans hX'.symm)).trans hX)
    ((Subtract_length (hY.trans hY'.symm)).trans hY)
  refine ⟨hlen, ?_, (show (-1 : Int) ≤ 0 by decide), Int.le_refl 0⟩
  show (value (multiply (Subtract X X').1 (Subtract Y Y').1) : Int) + _ * 0 = _
  rw [hvalue]
  zify at hXsub hYsub
  push_cast
  rw [← hXsub, ← hYsub]
  ring

/-- One of the factors wraps, and is too large by the size of a half. -/
theorem crossWords_wrapped {X Y : Words} {x : Int} (hm : Multiplies multiply n)
    (hX : X.length = n) (hY : Y.length = n) {R : Words} (hR : R.length = n)
    (hx : (value X : Int) * value Y = x + (2 ^ 32) ^ n * value R) (hneg : x < 0) :
    IsCross n (((multiply X Y).take n ++ (Subtract ((multiply X Y).drop n) R).1), -1) x := by
  obtain ⟨hlen, hvalue⟩ := hm X Y hX hY
  have hless : value (multiply X Y) < (2 ^ 32) ^ n * value R := by
    rw [hvalue]
    zify
    omega
  obtain ⟨hlength, habove⟩ := subtract_above hlen hR hless
  refine ⟨hlength, ?_, Int.le_refl _, (show (-1 : Int) ≤ 0 by decide)⟩
  rw [hvalue, cast_mul] at habove
  show (_ : Int) + _ * -1 = _
  rw [← pow_mul']
  linear_combination habove + hx

/-- **The cross product.** -/
theorem crossWords_spec (hm : Multiplies multiply n) (hA0 : A0.length = n) (hA1 : A1.length = n)
    (hB0 : B0.length = n) (hB1 : B1.length = n) :
    IsCross n (crossWords multiply A0 A1 B0 B1)
      (((value A1 : Int) - value A0) * (value B0 - value B1)) := by
  have hAcompare := Compare_value (hA0.trans hA1.symm)
  have hBcompare := Compare_value (hB0.trans hB1.symm)
  have hzero : ∀ x : Int, x = 0 → IsCross n (replicate (2 * n) 0, 0) x := by
    intro x hx
    refine ⟨length_replicate, ?_, (show (-1 : Int) ≤ 0 by decide), Int.le_refl 0⟩
    rw [value_zeros, hx]
    show (0 : Int) + _ * 0 = 0
    rw [Int.mul_zero, Int.add_zero]
  unfold crossWords
  simp only
  rw [hAcompare, hBcompare, hA0]
  rcases lt_trichotomy (value A0) (value A1) with hA | hA | hA
  · have hAsign : Int.sign ((value A0 : Int) - value A1) = -1 :=
      Int.sign_eq_neg_one_of_neg (by omega)
    rw [hAsign]
    rcases lt_trichotomy (value B0) (value B1) with hB | hB | hB
    · have hBsign : Int.sign ((value B0 : Int) - value B1) = -1 :=
        Int.sign_eq_neg_one_of_neg (by omega)
      rw [hBsign, if_pos (by decide)]
      have hAsub := Subtract_of_le (hA1.trans hA0.symm) hA.le
      have hBsub := Subtract_of_lt (hB0.trans hB1.symm) hB
      rw [hB0] at hBsub
      zify at hAsub hBsub
      have hAlen := (Subtract_length (hA1.trans hA0.symm)).trans hA1
      refine crossWords_wrapped hm hAlen
        ((Subtract_length (hB0.trans hB1.symm)).trans hB0) hAlen ?_ ?_
      · linear_combination (value B0 - value B1 : Int) * hAsub +
          (value (Subtract A1 A0).1 : Int) * hBsub
      · exact Int.mul_neg_of_pos_of_neg (by omega) (by omega)
    · rw [hB, Int.sub_self, Int.sign_zero, if_neg (by decide), if_neg (by decide),
        if_neg (by decide), if_neg (by decide)]
      exact hzero _ (Int.mul_zero _)
    · have hBsign : Int.sign ((value B0 : Int) - value B1) = 1 :=
        Int.sign_eq_one_of_pos (by omega)
      rw [hBsign, if_neg (by decide), if_pos (by decide)]
      exact crossWords_product hm hA1 hA0 hB0 hB1 hA.le hB.le
  · rw [hA, Int.sub_self, Int.sign_zero]
    rcases Int.sign_trichotomy ((value B0 : Int) - value B1) with hB | hB | hB <;>
    · rw [hB, if_neg (by decide), if_neg (by decide), if_neg (by decide), if_neg (by decide)]
      exact hzero _ (by ring)
  · have hAsign : Int.sign ((value A0 : Int) - value A1) = 1 :=
      Int.sign_eq_one_of_pos (by omega)
    rw [hAsign]
    rcases lt_trichotomy (value B0) (value B1) with hB | hB | hB
    · rw [Int.sign_eq_neg_one_of_neg (by omega), if_neg (by decide), if_neg (by decide),
        if_pos (by decide)]
      have hswap : ((value A1 : Int) - value A0) * (value B0 - value B1) =
          ((value A0 : Int) - value A1) * (value B1 - value B0) := by ring
      rw [hswap]
      exact crossWords_product hm hA0 hA1 hB1 hB0 hA.le hB.le
    · rw [hB, Int.sub_self, Int.sign_zero, if_neg (by decide), if_neg (by decide),
        if_neg (by decide), if_neg (by decide)]
      exact hzero _ (Int.mul_zero _)
    · have hBsign : Int.sign ((value B0 : Int) - value B1) = 1 :=
        Int.sign_eq_one_of_pos (by omega)
      rw [hBsign, if_neg (by decide), if_neg (by decide), if_neg (by decide), if_pos (by decide)]
      have hAsub := Subtract_of_lt (hA1.trans hA0.symm) hA
      have hBsub := Subtract_of_le (hB0.trans hB1.symm) hB.le
      rw [hA1] at hAsub
      zify at hAsub hBsub
      have hBlen := (Subtract_length (hB0.trans hB1.symm)).trans hB0
      refine crossWords_wrapped hm ((Subtract_length (hA1.trans hA0.symm)).trans hA1)
        hBlen hBlen ?_ ?_
      · linear_combination (value (Subtract B0 B1).1 : Int) * hAsub +
          (value A1 - value A0 : Int) * hBsub
      · exact Int.mul_neg_of_neg_of_pos (by omega) (by omega)

/-! ### Whole products -/

theorem ofInt_toNat {c : Int} (h0 : 0 ≤ c) (h : c < 2 ^ 32) : ((ofInt c).toNat : Int) = c := by
  have hmod : c % 2 ^ 32 = c := Int.emod_eq_of_lt h0 h
  unfold ofInt
  rw [hmod, toNat_ofNat']
  omega

/-- The words from the top of one array and from the bottom of the next. -/
theorem value_middle {R01 R23 : Words} (h01 : R01.length = 2 * n) (h23 : R23.length = 2 * n) :
    (R01.drop n ++ R23.take n).length = 2 * n ∧
      value R01 = value (R01.take n) + (2 ^ 32) ^ n * value (R01.drop n) ∧
      value R23 = value (R23.take n) + (2 ^ 32) ^ n * value (R23.drop n) ∧
      value (R01.drop n ++ R23.take n) =
        value (R01.drop n) + (2 ^ 32) ^ n * value (R23.take n) := by
  have hdrop : (R01.drop n).length = n := by
    rw [length_drop]
    omega
  have htake01 : (R01.take n).length = n := length_take_of_le (by omega)
  have htake23 : (R23.take n).length = n := length_take_of_le (by omega)
  have h01split := value_append (R01.take n) (R01.drop n)
  have h23split := value_append (R23.take n) (R23.drop n)
  rw [take_append_drop, htake01] at h01split
  rw [take_append_drop, htake23] at h23split
  refine ⟨?_, h01split, h23split, ?_⟩
  · rw [length_append, hdrop, htake23]
    omega
  · rw [value_append, hdrop]

/-- The lower quarter of a product, the middle, and the upper quarter with what is carried to
it. -/
theorem joined_value (hn : 0 < n) {low middle top : Words} {carry : UInt32}
    (hlow : low.length = n) (hmiddle : middle.length = 2 * n) (htop : top.length = n)
    {product : Nat} (hproduct : ∀ t co, t + (2 ^ 32) ^ n * co = value top + carry.toNat →
      value low + (2 ^ 32) ^ n * value middle + ((2 ^ 32) ^ n) ^ 3 * t + ((2 ^ 32) ^ n) ^ 4 * co =
        product) (hfits : product < (2 ^ 32) ^ (4 * n)) :
    (low ++ middle ++ (Increment top carry).1).length = 4 * n ∧
      value (low ++ middle ++ (Increment top carry).1) = product := by
  have hne : top ≠ [] := by
    intro hnil
    rw [hnil] at htop
    exact absurd htop (Nat.ne_of_lt hn)
  obtain ⟨-, hinc⟩ := Increment_value (B := carry) (Or.inl hne)
  have hlen : (low ++ middle ++ (Increment top carry).1).length = 4 * n := by
    rw [length_append, length_append, Increment_length, hlow, hmiddle, htop]
    omega
  have hvalue : value (low ++ middle ++ (Increment top carry).1) = value low +
      (2 ^ 32) ^ n * value middle + ((2 ^ 32) ^ n) ^ 3 * value (Increment top carry).1 := by
    have hcube : (2 ^ 32) ^ (n + 2 * n) = ((2 ^ 32) ^ n) ^ 3 := by
      rw [← pow_mul (2 ^ 32) n 3]
      congr 1
      omega
    rw [value_append, value_append, length_append, hlow, hmiddle, hcube]
  have hfourth : (2 ^ 32) ^ (4 * n) = ((2 ^ 32) ^ n) ^ 4 := pow_mul' _ _ _
  rw [htop] at hinc
  have hsum := hproduct _ _ hinc
  rw [← hvalue] at hsum
  refine ⟨hlen, ?_⟩
  -- nothing is carried out at the top
  rcases Nat.eq_zero_or_pos (Increment top carry).2.toNat with hzero | hpos
  · rw [hzero, Nat.mul_zero, Nat.add_zero] at hsum
    exact hsum
  · have hmore := Nat.le_mul_of_pos_right (((2 ^ 32) ^ n) ^ 4) hpos
    omega

/-- **The product is put together.** -/
theorem joinProducts_spec (hn : 0 < n) {cross : Words × Int} {x : Int} (hcross : IsCross n cross x)
    {R01 R23 : Words} (h01 : R01.length = 2 * n) (h23 : R23.length = 2 * n)
    (hnonneg : 0 ≤ x + value R01 + value R23) {product : Nat}
    (hproduct : (product : Int) = value R01 + (2 ^ 32) ^ n * (x + value R01 + value R23) +
      ((2 ^ 32) ^ n) ^ 2 * value R23) (hfits : product < (2 ^ 32) ^ (4 * n)) :
    (joinProducts n cross R01 R23).length = 4 * n ∧
      value (joinProducts n cross R01 R23) = product := by
  obtain ⟨hmiddle, hP, hQ, hmid⟩ := value_middle h01 h23
  have hlen1 := hcross.length.trans h01.symm
  obtain ⟨hc1, hadd1⟩ := Add_value hlen1
  have hT1 := (Add_length hlen1).trans hcross.length
  have hlen2 := hT1.trans h23.symm
  obtain ⟨hc2, hadd2⟩ := Add_value hlen2
  have hT2 := (Add_length hlen2).trans hT1
  have hlen3 := hmiddle.trans hT2.symm
  obtain ⟨hc3, hadd3⟩ := Add_value hlen3
  have hR12 := (Add_length hlen3).trans hmiddle
  have hR12lt := value_lt (Add (R01.drop n ++ R23.take n) (Add (Add cross.1 R01).1 R23).1).1
  have hcarry := hcross.carry
  have hcarry_le := hcross.carry_le
  rw [hcross.length, pow_mul'] at hadd1
  rw [hT1, pow_mul'] at hadd2
  rw [hmiddle, pow_mul'] at hadd3
  rw [hR12, pow_mul'] at hR12lt
  unfold joinProducts
  simp only
  generalize Add (R01.drop n ++ R23.take n) (Add (Add cross.1 R01).1 R23).1 = sum3 at *
  generalize Add (Add cross.1 R01).1 R23 = sum2 at *
  generalize Add cross.1 R01 = sum1 at *
  have hdrop : (R23.drop n).length = n := by
    rw [length_drop]
    omega
  rw [hmid] at hadd3
  rw [hP, hQ, ← hcross.value] at hnonneg hproduct
  rw [hP] at hadd1
  rw [hQ] at hadd2
  zify at hadd1 hadd2 hadd3 hR12lt
  -- what is carried is not below zero
  have hcnonneg : 0 ≤ cross.2 + sum1.2.toNat + sum2.2.toNat + sum3.2.toNat :=
    Karatsuba.carry_nonneg (by positivity) hadd1 hadd2 hadd3 (by exact_mod_cast hnonneg)
      (by positivity) hR12lt
  have hword := ofInt_toNat hcnonneg (by omega)
  refine joined_value hn (length_take_of_le (by omega)) hR12 hdrop ?_ hfits
  intro top co htop
  zify at htop ⊢
  rw [hword] at htop
  rw [hproduct, Karatsuba.join hadd1 hadd2 hadd3 htop]
  push_cast
  ring

theorem AtomicMultiply_spec {A B : Words} (hA : A.length = 2) (hB : B.length = 2) :
    (AtomicMultiply (A.getD 0 0) (A.getD 1 0) (B.getD 0 0) (B.getD 1 0)).length = 4 ∧
      value (AtomicMultiply (A.getD 0 0) (A.getD 1 0) (B.getD 0 0) (B.getD 1 0)) =
        value A * value B := by
  obtain ⟨a0, a1, rfl⟩ := length_eq_two.mp hA
  obtain ⟨b0, b1, rfl⟩ := length_eq_two.mp hB
  refine ⟨rfl, (AtomicMultiply_value a0 a1 b0 b1).trans ?_⟩
  unfold value2
  simp only [value_cons, value_nil, Nat.mul_zero, Nat.add_zero]

/-- The two halves of an array. -/
theorem value_halves {A : Words} (hA : A.length = 2 * n) :
    (A.take n).length = n ∧ (A.drop n).length = n ∧
      value A = value (A.take n) + (2 ^ 32) ^ n * value (A.drop n) := by
  have htake : (A.take n).length = n := length_take_of_le (by omega)
  have hsplit := value_append (A.take n) (A.drop n)
  rw [take_append_drop, htake] at hsplit
  refine ⟨htake, ?_, hsplit⟩
  rw [length_drop]
  omega

theorem RecursiveMultiply_halves {A B : Words} (h2 : n ≠ 2) (h4 : n ≠ 4) (hn : 1 < n) :
    RecursiveMultiply A B (2 * n) =
      joinProducts n (crossWords (fun X Y => RecursiveMultiply X Y n) (A.take n) (A.drop n)
        (B.take n) (B.drop n)) (RecursiveMultiply (A.take n) (B.take n) n)
        (RecursiveMultiply (A.drop n) (B.drop n) n) := by
  have hhalf : 2 * n / 2 = n := by omega
  rw [RecursiveMultiply.eq_def, if_neg (by omega), if_neg (by omega), if_neg (by omega),
    if_pos (by omega)]
  simp only [hhalf]

/-- The products of the halves, and what they make. -/
theorem halves_product {A B : Words} {R01 R23 : Words} (hA : A.length = 2 * n)
    (hB : B.length = 2 * n) (hR01 : value R01 = value (A.take n) * value (B.take n))
    (hR23 : value R23 = value (A.drop n) * value (B.drop n)) :
    (0 ≤ ((value (A.drop n) : Int) - value (A.take n)) * (value (B.take n) - value (B.drop n)) +
        value R01 + value R23) ∧
      ((value A * value B : Nat) : Int) = value R01 + (2 ^ 32) ^ n *
        (((value (A.drop n) : Int) - value (A.take n)) * (value (B.take n) - value (B.drop n)) +
          value R01 + value R23) + ((2 ^ 32) ^ n) ^ 2 * value R23 ∧
      value A * value B < (2 ^ 32) ^ (4 * n) := by
  obtain ⟨-, -, hAsplit⟩ := value_halves hA
  obtain ⟨-, -, hBsplit⟩ := value_halves hB
  refine ⟨?_, ?_, ?_⟩
  · have hmixed : ((value (A.drop n) : Int) - value (A.take n)) *
        (value (B.take n) - value (B.drop n)) + value R01 + value R23 =
          (value (A.drop n) * value (B.take n) + value (A.take n) * value (B.drop n) : Nat) := by
      rw [hR01, hR23]
      push_cast
      ring
    rw [hmixed]
    exact Int.natCast_nonneg _
  · rw [hAsplit, hBsplit, hR01, hR23]
    push_cast
    exact Karatsuba.product _ _ _ _
  · have hlt := product_fits hA hB
    have hexp : 2 * (2 * n) = 4 * n := by omega
    rw [hexp] at hlt
    exact hlt

/-- Half of a power of two. -/
theorem half_pow {k N : Nat} (hN : N = 2 ^ (k + 1 + 1)) :
    ∃ n, n = 2 ^ (k + 1) ∧ N = 2 * n ∧ 0 < n ∧ 2 ∣ n :=
  ⟨_, rfl, by rw [hN, pow_succ'], Nat.two_pow_pos _, ⟨2 ^ k, Nat.pow_succ'⟩⟩

theorem RecursiveMultiply_spec {k N : Nat} (hN : N = 2 ^ (k + 1)) :
    Multiplies (fun X Y => RecursiveMultiply X Y N) N := by
  induction k generalizing N with
  | zero =>
      intro A B hA hB
      rw [hN] at hA hB ⊢
      simp only
      rw [RecursiveMultiply.eq_def, if_pos (by decide)]
      exact AtomicMultiply_spec hA hB
  | succ k ih =>
      intro A B hA hB
      obtain ⟨n, hn, hdouble, hpos, heven⟩ := half_pow hN
      have hm := ih hn
      rw [hdouble] at hA hB ⊢
      simp only
      by_cases h2 : n = 2
      · rw [h2] at hA hB ⊢
        rw [RecursiveMultiply.eq_def, if_neg (by decide), if_pos (by decide)]
        exact CombaMultiply4_spec hA hB
      by_cases h4 : n = 4
      · rw [h4] at hA hB ⊢
        rw [RecursiveMultiply.eq_def, if_neg (by decide), if_neg (by decide), if_pos (by decide)]
        exact CombaMultiply8_spec hA hB
      obtain ⟨hA0, hA1, -⟩ := value_halves hA
      obtain ⟨hB0, hB1, -⟩ := value_halves hB
      have hcross := crossWords_spec hm hA0 hA1 hB0 hB1
      obtain ⟨h01, hR01⟩ := hm _ _ hA0 hB0
      obtain ⟨h23, hR23⟩ := hm _ _ hA1 hB1
      obtain ⟨hnonneg, hproduct, hfits⟩ := halves_product hA hB hR01 hR23
      rw [RecursiveMultiply_halves h2 h4 (by omega)]
      obtain ⟨hlen, hvalue⟩ := joinProducts_spec hpos hcross h01 h23 hnonneg hproduct hfits
      exact ⟨by rw [hlen]; omega, hvalue⟩

/-! ### Squares -/

theorem RecursiveSquare_halves {A : Words} (h2 : n ≠ 2) (hn : 1 < n) :
    RecursiveSquare A (2 * n) =
      (let R01 := RecursiveSquare (A.take n) n
      let R23 := RecursiveSquare (A.drop n) n
      let T := RecursiveMultiply (A.take n) (A.drop n) n
      let sum1 := Add (R01.drop n ++ R23.take n) T
      let sum2 := Add sum1.1 T
      R01.take n ++ sum2.1 ++ (Increment (R23.drop n) (sum1.2 + sum2.2)).1) := by
  have hhalf : 2 * n / 2 = n := by omega
  rw [RecursiveSquare.eq_def, if_neg (by omega), if_neg (by omega), if_pos (by omega)]
  simp only [hhalf]

theorem RecursiveSquare_spec {k N : Nat} (hN : N = 2 ^ (k + 1)) {A : Words} (hA : A.length = N) :
    (RecursiveSquare A N).length = 2 * N ∧ value (RecursiveSquare A N) = value A * value A := by
  induction k generalizing N A with
  | zero =>
      rw [hN] at hA ⊢
      rw [RecursiveSquare.eq_def, if_pos (by decide)]
      exact AtomicMultiply_spec hA hA
  | succ k ih =>
      obtain ⟨n, hn, hdouble, hpos, heven⟩ := half_pow hN
      rw [hdouble] at hA ⊢
      by_cases h2 : n = 2
      · rw [h2] at hA ⊢
        rw [RecursiveSquare.eq_def, if_neg (by decide), if_pos (by decide)]
        exact CombaMultiply4_spec hA hA
      obtain ⟨hA0, hA1, hsplit⟩ := value_halves hA
      obtain ⟨h01, hR01⟩ := ih hn hA0
      obtain ⟨h23, hR23⟩ := ih hn hA1
      obtain ⟨hT, hTvalue⟩ := RecursiveMultiply_spec hn (A.take n) (A.drop n) hA0 hA1
      simp only at hT hTvalue
      rw [RecursiveSquare_halves h2 (by omega)]
      simp only
      generalize RecursiveSquare (A.take n) n = R01 at *
      generalize RecursiveSquare (A.drop n) n = R23 at *
      generalize RecursiveMultiply (A.take n) (A.drop n) n = T at *
      obtain ⟨hmiddle, hP, hQ, hmid⟩ := value_middle h01 h23
      have hlen1 := hmiddle.trans hT.symm
      obtain ⟨hc1, hadd1⟩ := Add_value hlen1
      have hsum1 := (Add_length hlen1).trans hmiddle
      have hlen2 := hsum1.trans hT.symm
      obtain ⟨hc2, hadd2⟩ := Add_value hlen2
      have hsum2 := (Add_length hlen2).trans hsum1
      have hfits : value A * value A < (2 ^ 32) ^ (4 * n) := by
        have hlt := product_fits hA hA
        have hexp : 2 * (2 * n) = 4 * n := by omega
        rw [hexp] at hlt
        exact hlt
      rw [hmiddle, hmid, pow_mul'] at hadd1
      rw [hsum1, pow_mul'] at hadd2
      generalize Add (Add (R01.drop n ++ R23.take n) T).1 T = sum2 at *
      generalize Add (R01.drop n ++ R23.take n) T = sum1 at *
      have hdrop : (R23.drop n).length = n := by
        rw [length_drop]
        omega
      have hcarry : (sum1.2 + sum2.2).toNat = sum1.2.toNat + sum2.2.toNat := by
        rw [UInt32.toNat_add]
        exact mod_eq_of_lt (by omega)
      have hexp : 2 * (2 * n) = 4 * n := by omega
      rw [hexp]
      refine joined_value hpos (length_take_of_le (by omega)) hsum2 hdrop ?_ hfits
      intro top co htop
      rw [hcarry] at htop
      zify at hadd1 hadd2 htop hP hQ hR01 hR23 hTvalue hsplit ⊢
      rw [Karatsuba.join_square hadd1 hadd2 htop, ← hP, ← hQ, hR01, hR23, hTvalue, hsplit]
      ring

/-! ### Lower halves -/

theorem Add_mod {A B : Words} (h : A.length = B.length) :
    value (Add A B).1 = (value A + value B) % (2 ^ 32) ^ A.length := by
  obtain ⟨-, hvalue⟩ := Add_value h
  have hlt := value_lt (Add A B).1
  rw [Add_length h] at hlt
  rw [← hvalue, add_mul_mod_self_left, mod_eq_of_lt hlt]

theorem RecursiveMultiplyBottom_halves {A B : Words} (h2 : n ≠ 2) (h4 : n ≠ 4) (hn : 1 < n) :
    RecursiveMultiplyBottom A B (2 * n) =
      (let R := RecursiveMultiply (A.take n) (B.take n) n
      let R1 := (Add (R.drop n) (RecursiveMultiplyBottom (A.drop n) (B.take n) n)).1
      let R1 := (Add R1 (RecursiveMultiplyBottom (A.take n) (B.drop n) n)).1
      R.take n ++ R1) := by
  have hhalf : 2 * n / 2 = n := by omega
  rw [RecursiveMultiplyBottom.eq_def, if_neg (by omega), if_neg (by omega), if_neg (by omega),
    if_pos (by omega)]
  simp only [hhalf]

theorem RecursiveMultiplyBottom_spec {k N : Nat} (hN : N = 2 ^ (k + 1)) {A B : Words}
    (hA : A.length = N) (hB : B.length = N) :
    (RecursiveMultiplyBottom A B N).length = N ∧
      value (RecursiveMultiplyBottom A B N) = value A * value B % (2 ^ 32) ^ N := by
  induction k generalizing N A B with
  | zero =>
      rw [hN] at hA hB ⊢
      rw [RecursiveMultiplyBottom.eq_def, if_pos (by decide)]
      exact AtomicMultiplyBottom_spec hA hB
  | succ k ih =>
      obtain ⟨n, hn, hdouble, hpos, heven⟩ := half_pow hN
      rw [hdouble] at hA hB ⊢
      by_cases h2 : n = 2
      · rw [h2] at hA hB ⊢
        rw [RecursiveMultiplyBottom.eq_def, if_neg (by decide), if_pos (by decide)]
        exact CombaMultiplyBottom4_spec hA hB
      by_cases h4 : n = 4
      · rw [h4] at hA hB ⊢
        rw [RecursiveMultiplyBottom.eq_def, if_neg (by decide), if_neg (by decide),
          if_pos (by decide)]
        exact CombaMultiplyBottom8_spec hA hB
      obtain ⟨hA0, hA1, hAsplit⟩ := value_halves hA
      obtain ⟨hB0, hB1, hBsplit⟩ := value_halves hB
      obtain ⟨hR, hRvalue⟩ := RecursiveMultiply_spec hn _ _ hA0 hB0
      obtain ⟨h10, h10value⟩ := ih hn hA1 hB0
      obtain ⟨h01, h01value⟩ := ih hn hA0 hB1
      simp only at hR hRvalue
      rw [RecursiveMultiplyBottom_halves h2 h4 (by omega)]
      simp only
      generalize RecursiveMultiply (A.take n) (B.take n) n = R at *
      generalize RecursiveMultiplyBottom (A.drop n) (B.take n) n = S at *
      generalize RecursiveMultiplyBottom (A.take n) (B.drop n) n = T at *
      obtain ⟨hRtake, hRdrop, hRsplit⟩ := value_halves hR
      have hlen1 := hRdrop.trans h10.symm
      have hsum1 := (Add_length hlen1).trans hRdrop
      have hlen2 := hsum1.trans h01.symm
      have hsum2 := (Add_length hlen2).trans hsum1
      have hadd1 := Add_mod hlen1
      have hadd2 := Add_mod hlen2
      rw [hRdrop] at hadd1
      rw [hsum1] at hadd2
      have hlen : (R.take n ++ (Add (Add (R.drop n) S).1 T).1).length = 2 * n := by
        rw [length_append, hRtake, hsum2]
        omega
      have hlt := value_lt (R.take n ++ (Add (Add (R.drop n) S).1 T).1)
      refine ⟨hlen, ?_⟩
      rw [hlen] at hlt
      rw [← mod_eq_of_lt hlt, value_append, hRtake]
      -- the upper half counts modulo the size of a half
      have hupper : value (Add (Add (R.drop n) S).1 T).1 ≡ value (R.drop n) +
          value (A.drop n) * value (B.take n) + value (A.take n) * value (B.drop n)
            [MOD (2 ^ 32) ^ n] := by
        rw [hadd2, hadd1, h10value, h01value]
        refine (mod_modEq _ _).trans (ModEq.add ?_ (mod_modEq _ _))
        exact (mod_modEq _ _).trans (ModEq.add_left _ (mod_modEq _ _))
      have hproduct : value A * value B = value (R.take n) + (2 ^ 32) ^ n * (value (R.drop n) +
          value (A.drop n) * value (B.take n) + value (A.take n) * value (B.drop n)) +
            (2 ^ 32) ^ (2 * n) * (value (A.drop n) * value (B.drop n)) := by
        rw [hAsplit, hBsplit, Nat.two_mul, pow_add]
        rw [hRvalue] at hRsplit
        linear_combination hRsplit
      rw [hproduct]
      refine ModEq.trans ?_ (add_mul_mod_self_left _ _ _).symm
      rw [Nat.two_mul, pow_add]
      exact ModEq.add_left _ (ModEq.mul_left' _ hupper)

/-! ### Upper halves -/

/-- The carry of a difference, as a number that may be below zero. -/
theorem Subtract_carry {A B : Words} (hA : A.length = n) (hB : B.length = n) :
    (Subtract A B).1.length = n ∧ (Subtract A B).2.toNat ≤ 1 ∧ (value (Subtract A B).1 : Int) =
      value A - value B + (2 ^ 32) ^ n * (Subtract A B).2.toNat := by
  have hlen := hA.trans hB.symm
  obtain ⟨hborrow, hvalue⟩ := Subtract_value hlen
  rw [hA] at hvalue
  refine ⟨(Subtract_length hlen).trans hA, hborrow, ?_⟩
  zify at hvalue
  linear_combination hvalue

theorem Add_carry {A B : Words} (hA : A.length = n) (hB : B.length = n) :
    (Add A B).1.length = n ∧ (Add A B).2.toNat ≤ 1 ∧
      (value (Add A B).1 : Int) + (2 ^ 32) ^ n * (Add A B).2.toNat = value A + value B := by
  have hlen := hA.trans hB.symm
  obtain ⟨hcarry, hvalue⟩ := Add_value hlen
  rw [hA] at hvalue
  exact ⟨(Add_length hlen).trans hA, hcarry, by exact_mod_cast hvalue⟩

theorem Increment_carry (hn : 0 < n) {A : Words} (hA : A.length = n) (w : UInt32) :
    (Increment A w).1.length = n ∧ (Increment A w).2.toNat ≤ 1 ∧
      (value (Increment A w).1 : Int) + (2 ^ 32) ^ n * (Increment A w).2.toNat =
        value A + w.toNat := by
  have hne : A ≠ [] := by
    intro hnil
    rw [hnil] at hA
    exact absurd hA (Nat.ne_of_lt hn)
  obtain ⟨hcarry, hvalue⟩ := Increment_value (B := w) (Or.inl hne)
  rw [hA] at hvalue
  exact ⟨(Increment_length A w).trans hA, hcarry, by exact_mod_cast hvalue⟩

/-- **The upper half is put together.** -/
theorem joinTop_spec (hn : 0 < n) {cross : Words × Int} {x : Int} (hcross : IsCross n cross x)
    {L T23 : Words} (hL : L.length = 2 * n) (h23 : T23.length = 2 * n) {P product : Nat}
    (hnonneg : 0 ≤ x + P + value T23)
    (hproduct : (product : Int) = P + (2 ^ 32) ^ n * (x + P + value T23) +
      ((2 ^ 32) ^ n) ^ 2 * value T23) (hfits : product < (2 ^ 32) ^ (4 * n))
    (hPfits : P < ((2 ^ 32) ^ n) ^ 2) (hlower : value L = product % ((2 ^ 32) ^ n) ^ 2) :
    (joinTop n cross L T23).length = 2 * n ∧
      value (joinTop n cross L T23) = product / ((2 ^ 32) ^ n) ^ 2 := by
  obtain ⟨hL0, hL1, hLsplit⟩ := value_halves hL
  obtain ⟨hT0, hT1, hTsplit⟩ := value_halves hcross.length
  obtain ⟨hQ0, hQ1, hQsplit⟩ := value_halves h23
  have hk := hcross.carry
  have hk' := hcross.carry_le
  have hx := hcross.value
  have hfourth : (2 ^ 32) ^ (4 * n) = ((2 ^ 32) ^ n) ^ 4 := pow_mul' _ _ _
  obtain ⟨hd1, hb1, hdiff1⟩ := Subtract_carry hL1 hL0
  obtain ⟨hd2, hb2, hdiff2⟩ := Subtract_carry hd1 hT0
  have hcompare := Compare_value (hd2.trans hQ0.symm)
  have hL1lt := value_lt (L.drop n)
  have hL0lt := value_lt (L.take n)
  have hQ0lt := value_lt (T23.take n)
  have hRlt := value_lt (Subtract (Subtract (L.drop n) (L.take n)).1 (cross.1.take n)).1
  rw [hL1] at hL1lt
  rw [hL0] at hL0lt
  rw [hQ0] at hQ0lt
  rw [hd2] at hRlt
  unfold joinTop
  simp only
  generalize Subtract (Subtract (L.drop n) (L.take n)).1 (cross.1.take n) = diff2 at *
  generalize Subtract (L.drop n) (L.take n) = diff1 at *
  generalize ht : (if Compare diff2.1 (T23.take n) = -1 then (1 : UInt32) else 0) = t
  have htless : (t.toNat : Int) = if (value diff2.1 : Int) < value (T23.take n) then 1 else 0 := by
    rw [← ht, hcompare]
    by_cases hless : (value diff2.1 : Int) < value (T23.take n)
    · rw [Int.sign_eq_neg_one_of_neg (by omega), if_pos rfl, if_pos hless]
      rfl
    · have hsign : ¬ Int.sign ((value diff2.1 : Int) - value (T23.take n)) = -1 := by
        intro hsign
        have hneg := Int.sign_eq_neg_one_iff_neg.mp hsign
        omega
      rw [if_neg hsign, if_neg hless]
      rfl
  have htone : t.toNat ≤ 1 := by
    by_cases hless : (value diff2.1 : Int) < value (T23.take n)
    · rw [if_pos hless] at htless
      omega
    · rw [if_neg hless] at htless
      omega
  obtain ⟨hs1, hc1, hsum1⟩ := Increment_carry hn hd2 (diff1.2 + diff2.2 + t)
  obtain ⟨hs2, hc2, hsum2⟩ := Add_carry hs1 hT1
  obtain ⟨hs3, hc3, hsum3⟩ := Add_carry hs2 hQ1
  have hUlt := value_lt (Add (Add (Increment diff2.1 (diff1.2 + diff2.2 + t)).1
    (cross.1.drop n)).1 (T23.drop n)).1
  rw [hs3] at hUlt
  generalize Add (Add (Increment diff2.1 (diff1.2 + diff2.2 + t)).1 (cross.1.drop n)).1
    (T23.drop n) = sum3 at *
  generalize Add (Increment diff2.1 (diff1.2 + diff2.2 + t)).1 (cross.1.drop n) = sum2 at *
  generalize Increment diff2.1 (diff1.2 + diff2.2 + t) = sum1 at *
  have hword : (diff1.2 + diff2.2 + t).toNat = diff1.2.toNat + diff2.2.toNat + t.toNat := by
    have hinner : (diff1.2 + diff2.2).toNat = diff1.2.toNat + diff2.2.toNat := by
      rw [UInt32.toNat_add]
      exact mod_eq_of_lt (by omega)
    rw [UInt32.toNat_add, hinner]
    exact mod_eq_of_lt (by omega)
  rw [hword, cast_add, cast_add] at hsum1
  -- the number is cut into four digits
  have hbpos : 0 < (2 ^ 32) ^ n := Nat.pow_pos (by decide)
  obtain ⟨S, hS⟩ := Int.eq_ofNat_of_zero_le hnonneg
  have hnat : product = P + (2 ^ 32) ^ n * S + ((2 ^ 32) ^ n) ^ 2 * value T23 := by
    zify
    rw [hproduct, hS]
  rw [hfourth] at hfits
  generalize hb : (2 ^ 32) ^ n = b at *
  have hP0 : value (L.take n) = P % b := by
    have hmod : value L % b = P % b := by
      rw [hlower, mod_mod_of_dvd _ (Dvd.intro_left (b ^ 1) (by ring)), hnat]
      rw [pow_two, Nat.mul_assoc, add_mul_mod_self_left, add_mul_mod_self_left]
    rw [← hmod, hLsplit, add_mul_mod_self_left, mod_eq_of_lt hL0lt]
  have hPsplit := mod_add_div P b
  have hP1lt : P / b < b := by
    apply Nat.div_lt_of_lt_mul
    rw [← pow_two]
    exact hPfits
  have hU := div_add_mod product (b ^ 2)
  rw [← hlower, hLsplit, hP0] at hU
  rw [hP0] at hdiff1
  have hbase : ((2 : Int) ^ 32) ^ n = b := by
    rw [← hb]
    push_cast
    rfl
  rw [hbase] at hdiff1 hdiff2 hsum1 hsum2 hsum3 hx hproduct
  generalize P % b = P0 at *
  generalize P / b = P1 at *
  generalize product / b ^ 2 = U at *
  -- the carry of the second digit
  have hlowerDigit : (P1 : Int) + P0 + value (T23.take n) + value (cross.1.take n) =
      value (L.drop n) + b * (U - value (cross.1.drop n) - b * cross.2 - P1 -
        value (T23.drop n) - value T23) := by
    have hcancel : (b : Int) ≠ 0 := by omega
    apply mul_left_cancel₀ hcancel
    zify at hU hPsplit hTsplit hQsplit
    rw [← hx, hTsplit] at hproduct
    linear_combination -hU - hproduct + (1 + (b : Int)) * hPsplit - b * hQsplit
  have hdifference : (value diff2.1 : Int) = value (L.drop n) - P0 - value (cross.1.take n) +
      b * (diff1.2.toNat + diff2.2.toNat) := by
    rw [hdiff2, hdiff1]
    ring
  obtain ⟨hk1, hP1⟩ := Karatsuba.carry_of_lower hlowerDigit hdifference (Int.natCast_nonneg _)
    (by exact_mod_cast hRlt) (Int.natCast_nonneg _) (by exact_mod_cast hQ0lt)
    (Int.natCast_nonneg _) (by exact_mod_cast hP1lt) htless
  have htotal : 0 ≤ (value (cross.1.take n) : Int) + b * value (cross.1.drop n) + b ^ 2 * cross.2 +
      (P0 + b * P1) + (value (T23.take n) + b * value (T23.drop n)) := by
    zify at hTsplit hPsplit hQsplit
    rw [← hTsplit, hPsplit, ← hQsplit, hx]
    exact hnonneg
  have hcnonneg := Karatsuba.upper_carry_nonneg (by exact_mod_cast hbpos) hk1 hP1 hlowerDigit hsum1
    hsum2 hsum3 htotal (Int.natCast_nonneg _) (Int.natCast_nonneg _) (by exact_mod_cast hL1lt)
    (by exact_mod_cast hUlt)
  have hcarry := ofInt_toNat hcnonneg (by omega)
  obtain ⟨htop, -, htopvalue⟩ := Increment_carry hn hQ1 (ofInt
    (cross.2 + t.toNat + sum1.2.toNat + sum2.2.toNat + sum3.2.toNat))
  rw [hcarry, hbase] at htopvalue
  have hjoin := Karatsuba.join_upper hk1 hP1 hlowerDigit hsum1 hsum2 hsum3 htopvalue
  generalize Increment (T23.drop n) _ = top at *
  constructor
  · rw [length_append, hs3, htop]
    omega
  · have hUfits : U < b ^ 2 := by
      apply Nat.lt_of_mul_lt_mul_left (a := b ^ 2)
      have hpow : b ^ 4 = b ^ 2 * b ^ 2 := by ring
      omega
    have hsum : value sum3.1 + b * value top.1 + b ^ 2 * top.2.toNat = U := by
      have hcancel : (b : Int) ^ 2 ≠ 0 := by positivity
      zify at hU hPsplit hTsplit hQsplit ⊢
      apply mul_left_cancel₀ hcancel
      rw [← hx, hTsplit, hQsplit] at hproduct
      linear_combination hjoin - hU - hproduct + (1 + (b : Int)) * hPsplit
    -- nothing is carried out at the top
    rw [value_append, hs3, hb]
    rcases Nat.eq_zero_or_pos top.2.toNat with hzero | hpos
    · rw [hzero, Nat.mul_zero, Nat.add_zero] at hsum
      exact hsum
    · have hmore := Nat.le_mul_of_pos_right (b ^ 2) hpos
      omega

theorem RecursiveMultiplyTop_spec {k N : Nat} (hN : N = 2 ^ (k + 1)) {L A B : Words}
    (hL : L.length = N) (hA : A.length = N) (hB : B.length = N)
    (hlower : value L = value A * value B % (2 ^ 32) ^ N) :
    (RecursiveMultiplyTop L A B N).length = N ∧
      value (RecursiveMultiplyTop L A B N) = value A * value B / (2 ^ 32) ^ N := by
  have hwhole : ∀ R : Words, R.length = 2 * N ∧ value R = value A * value B →
      (R.drop N).length = N ∧ value (R.drop N) = value A * value B / (2 ^ 32) ^ N := by
    intro R hR
    refine ⟨by rw [length_drop, hR.1]; omega, ?_⟩
    rw [value_drop N (by rw [hR.1]; omega), hR.2]
  by_cases h2 : N = 2
  · rw [h2] at hA hB hwhole ⊢
    unfold RecursiveMultiplyTop
    rw [if_pos rfl]
    exact hwhole _ (AtomicMultiply_spec hA hB)
  by_cases h4 : N = 4
  · rw [h4] at hA hB hwhole ⊢
    unfold RecursiveMultiplyTop
    rw [if_neg (by decide), if_pos rfl]
    exact hwhole _ (CombaMultiply4_spec hA hB)
  obtain ⟨j, rfl⟩ : ∃ j, k = j + 1 := by
    refine ⟨k - 1, ?_⟩
    have hpos : k ≠ 0 := by
      intro hzero
      rw [hzero] at hN
      exact h2 hN
    omega
  have hdouble : N = 2 * 2 ^ (j + 1) := by rw [hN, pow_succ']
  generalize hn : 2 ^ (j + 1) = n at *
  have hpos : 0 < n := by
    rw [← hn]
    exact Nat.two_pow_pos _
  have hhalf : N / 2 = n := by omega
  unfold RecursiveMultiplyTop
  rw [if_neg h2, if_neg h4]
  simp only [hhalf]
  rw [hdouble] at hL hA hB hlower ⊢
  have hm := RecursiveMultiply_spec hn.symm
  obtain ⟨hA0, hA1, -⟩ := value_halves hA
  obtain ⟨hB0, hB1, -⟩ := value_halves hB
  have hcross := crossWords_spec hm hA0 hA1 hB0 hB1
  obtain ⟨h01, hR01⟩ := hm _ _ hA0 hB0
  obtain ⟨h23, hR23⟩ := hm _ _ hA1 hB1
  obtain ⟨hnonneg, hproduct, hfits⟩ := halves_product hA hB hR01 hR23
  have hPfits := value_lt (RecursiveMultiply (A.take n) (B.take n) n)
  simp only at h01
  rw [h01, pow_mul'] at hPfits
  have hsquare : (2 ^ 32) ^ (2 * n) = ((2 ^ 32) ^ n) ^ 2 := pow_mul' _ _ _
  rw [hsquare] at hlower ⊢
  exact joinTop_spec hpos hcross hL h23 hnonneg hproduct hfits hPfits hlower

end

end OsSecurity

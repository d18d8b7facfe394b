/-
The lower and upper halves, the inverse and `MontgomeryReduce`, where they are stored.

Here a result has as many words as an operand, and the room to work in is not the same for all: `N`
words, twice `N`, half as many again as `N`, or three times `N`.  `RecursiveMultiplyTop` multiplies
the upper halves with `R` as room to work in, where the factors of the cross product are no longer
needed.
-/
import OsSecurity.Bigint.InPlace

namespace OsSecurity

open List

namespace InPlace

/-- The lower half of the product. -/
def RecursiveMultiplyBottom (R T A B : Words) (N : Nat) : Stored :=
  if N = 2 then ⟨AtomicMultiplyBottom A B, T⟩
  else if N = 4 then ⟨CombaMultiplyBottom4 A B, T⟩
  else if N = 8 then ⟨CombaMultiplyBottom8 A B, T⟩
  else if 2 ≤ N then
    let N2 := N / 2
    let A0 := A.take N2
    let A1 := A.drop N2
    let B0 := B.take N2
    let B1 := B.drop N2
    let s := RecursiveMultiply R T A0 B0 N2
    let t := RecursiveMultiplyBottom (s.T.take N2) (s.T.drop N2) A1 B0 N2
    let R1 := (Add (s.R.drop N2) t.R).1
    let t := RecursiveMultiplyBottom t.R t.T A0 B1 N2
    let R1 := (Add R1 t.R).1
    ⟨s.R.take N2 ++ R1, t.R ++ t.T⟩
  else ⟨R, T⟩
termination_by N
decreasing_by all_goals omega

/-- The upper half of the product, of which the lower half `L` is known. -/
def RecursiveMultiplyTop (R T L A B : Words) (N : Nat) : Stored :=
  if N = 2 then
    let T := AtomicMultiply (A.getD 0 0) (A.getD 1 0) (B.getD 0 0) (B.getD 1 0)
    ⟨T.drop 2, T⟩
  else if N = 4 then
    let T := CombaMultiply4 A B
    ⟨T.drop 4, T⟩
  else
    let N2 := N / 2
    let A0 := A.take N2
    let A1 := A.drop N2
    let B0 := B.take N2
    let B1 := B.drop N2
    let c := crossWords (fun R T X Y => RecursiveMultiply R T X Y N2) R (T.take N) (T.drop N)
      A0 A1 B0 B1
    let s := RecursiveMultiply c.T23 c.R01 A1 B1 N2
    ⟨joinTop N2 (c.T01, c.carry) L s.R, c.T01 ++ s.R⟩

/-- The recursive call has `3*N2/2` words to work in, the first of them. -/
def RecursiveInverseModPower2 (R T A : Words) (N : Nat) : Stored :=
  if N = 2 then ⟨AtomicInverseModPower2 (A.getD 0 0) (A.getD 1 0), T⟩
  else if 2 ≤ N then
    let N2 := N / 2
    let A0 := A.take N2
    let A1 := A.drop N2
    let s := RecursiveInverseModPower2 (R.take N2) (T.take (3 * N2 / 2)) A0 N2
    let T := s.T ++ T.drop (3 * N2 / 2)
    let T0 := 1 :: replicate (N2 - 1) 0
    let t := RecursiveMultiplyTop (R.drop N2) (T.drop N2) T0 s.R A0 N2
    let u := RecursiveMultiplyBottom T0 (t.T.take N2) s.R A1 N2
    let T0 := TwosComplement (Add t.R u.R).1
    let v := RecursiveMultiplyBottom t.R u.T s.R T0 N2
    ⟨s.R ++ v.R, T0 ++ v.T ++ t.T.drop N2⟩
  else ⟨R, T⟩
termination_by N
decreasing_by omega

/-- `X` has `2*N` words, and `T` three times `N`. -/
def MontgomeryReduce (R T X M U : Words) (N : Nat) : Stored :=
  let s := RecursiveMultiplyBottom R (T.take N) (X.take N) U N
  let t := RecursiveMultiplyTop s.T (T.drop N) (X.take N) s.R M N
  let (R, borrow) := Subtract (X.drop N) t.R
  ⟨if borrow ≠ 0 then (Add R M).1 else R, t.R ++ t.T⟩

section

variable {k N n : Nat} {R T L A B X M U : Words}

/-! ### Lower halves -/

theorem RecursiveMultiplyBottom_halves (h2 : n ≠ 2) (h4 : n ≠ 4) (hn : 1 < n) :
    RecursiveMultiplyBottom R T A B (2 * n) =
      (let s := RecursiveMultiply R T (A.take n) (B.take n) n
      let t := RecursiveMultiplyBottom (s.T.take n) (s.T.drop n) (A.drop n) (B.take n) n
      let u := RecursiveMultiplyBottom t.R t.T (A.take n) (B.drop n) n
      ⟨s.R.take n ++ (Add (Add (s.R.drop n) t.R).1 u.R).1, u.R ++ u.T⟩) := by
  have hhalf : 2 * n / 2 = n := by omega
  rw [RecursiveMultiplyBottom.eq_def, if_neg (by omega), if_neg (by omega), if_neg (by omega),
    if_pos (by omega)]
  simp only [hhalf]

/-- **`RecursiveMultiplyBottom`, stored** -/
theorem RecursiveMultiplyBottom_stored (hN : N = 2 ^ (k + 1)) (hR : R.length = N)
    (hT : T.length = N) (hA : A.length = N) (hB : B.length = N) :
    (RecursiveMultiplyBottom R T A B N).R = OsSecurity.RecursiveMultiplyBottom A B N ∧
      (RecursiveMultiplyBottom R T A B N).T.length = N := by
  induction k generalizing N R T A B with
  | zero =>
      rw [hN] at hT ⊢
      rw [RecursiveMultiplyBottom.eq_def, OsSecurity.RecursiveMultiplyBottom.eq_def,
        if_pos (by decide), if_pos (by decide)]
      exact ⟨rfl, hT⟩
  | succ k ih =>
      obtain ⟨n, hn, hdouble, hpos, heven⟩ := half_pow hN
      rw [hdouble] at hR hT hA hB ⊢
      by_cases h2 : n = 2
      · rw [h2] at hT ⊢
        rw [RecursiveMultiplyBottom.eq_def, OsSecurity.RecursiveMultiplyBottom.eq_def,
          if_neg (by decide), if_pos (by decide), if_neg (by decide), if_pos (by decide)]
        exact ⟨rfl, hT⟩
      by_cases h4 : n = 4
      · rw [h4] at hT ⊢
        rw [RecursiveMultiplyBottom.eq_def, OsSecurity.RecursiveMultiplyBottom.eq_def,
          if_neg (by decide), if_neg (by decide), if_pos (by decide), if_neg (by decide),
          if_neg (by decide), if_pos (by decide)]
        exact ⟨rfl, hT⟩
      obtain ⟨hA0, hA1⟩ := take_drop_length hA
      obtain ⟨hB0, hB1⟩ := take_drop_length hB
      rw [RecursiveMultiplyBottom_halves h2 h4 (by omega),
        OsSecurity.RecursiveMultiplyBottom_halves h2 h4 (by omega)]
      simp only
      obtain ⟨hs, hroom⟩ := RecursiveMultiply_stored hn R T _ _ hR hT hA0 hB0
      simp only at hs hroom
      obtain ⟨hT0, hT1⟩ := take_drop_length hroom
      obtain ⟨ht, hroom'⟩ := ih hn hT0 hT1 hA1 hB0
      have htlen := (RecursiveMultiplyBottom_spec hn hA1 hB0).1
      rw [← ht] at htlen
      obtain ⟨hu, hroom''⟩ := ih hn htlen hroom' hA0 hB1
      have hulen := (RecursiveMultiplyBottom_spec hn hA0 hB1).1
      rw [hs, hu, ht]
      refine ⟨rfl, ?_⟩
      rw [← ht, length_append, hulen, hroom'', Nat.two_mul]

/-! ### Upper halves -/

/-- **`RecursiveMultiplyTop`, stored** -/
theorem RecursiveMultiplyTop_stored (hN : N = 2 ^ (k + 1)) (hR : R.length = N)
    (hT : T.length = 2 * N) (hA : A.length = N) (hB : B.length = N) :
    (RecursiveMultiplyTop R T L A B N).R = OsSecurity.RecursiveMultiplyTop L A B N ∧
      (RecursiveMultiplyTop R T L A B N).T.length = 2 * N := by
  by_cases h2 : N = 2
  · rw [h2] at hA hB ⊢
    unfold RecursiveMultiplyTop OsSecurity.RecursiveMultiplyTop
    rw [if_pos rfl, if_pos rfl]
    exact ⟨rfl, (AtomicMultiply_spec hA hB).1⟩
  by_cases h4 : N = 4
  · rw [h4] at hA hB ⊢
    unfold RecursiveMultiplyTop OsSecurity.RecursiveMultiplyTop
    rw [if_neg (by decide), if_pos rfl, if_neg (by decide), if_pos rfl]
    exact ⟨rfl, (CombaMultiply4_spec hA hB).1⟩
  obtain ⟨j, rfl⟩ : ∃ j, k = j + 1 := by
    refine ⟨k - 1, ?_⟩
    have hpos : k ≠ 0 := by
      intro hzero
      rw [hzero] at hN
      exact h2 hN
    omega
  have hdouble : N = 2 * 2 ^ (j + 1) := by rw [hN, pow_succ']
  generalize hn : 2 ^ (j + 1) = n at *
  have hhalf : N / 2 = n := by omega
  unfold RecursiveMultiplyTop OsSecurity.RecursiveMultiplyTop
  rw [if_neg h2, if_neg h4, if_neg h2, if_neg h4]
  simp only [hhalf]
  rw [hdouble] at hR hT hA hB ⊢
  obtain ⟨hT01, hT23⟩ := take_drop_length hT
  obtain ⟨hA0, hA1⟩ := take_drop_length hA
  obtain ⟨hB0, hB1⟩ := take_drop_length hB
  have hm := RecursiveMultiply_stored hn.symm
  have hcrossed := crossWords_stored hm hR hT01 hT23 hA0 hA1 hB0 hB1
  have hcross := crossWords_spec (RecursiveMultiply_spec hn.symm) hA0 hA1 hB0 hB1
  generalize crossWords _ _ _ _ _ _ _ _ = c at *
  rw [← hcrossed.value] at hcross ⊢
  obtain ⟨hs, -⟩ := hm c.T23 c.R01 _ _ hcrossed.lengthT hcrossed.lengthR hA1 hB1
  simp only at hs
  rw [hs]
  refine ⟨rfl, ?_⟩
  have hlen := (RecursiveMultiply_spec hn.symm _ _ hA1 hB1).1
  rw [length_append, hcross.length, hlen, Nat.two_mul (2 * n)]

/-! ### The inverse -/

theorem RecursiveInverseModPower2_halves (h2 : n ≠ 1) (hn : 0 < n) :
    RecursiveInverseModPower2 R T A (2 * n) =
      (let s := RecursiveInverseModPower2 (R.take n) (T.take (3 * n / 2)) (A.take n) n
      let T := s.T ++ T.drop (3 * n / 2)
      let t := RecursiveMultiplyTop (R.drop n) (T.drop n) (1 :: replicate (n - 1) 0) s.R
        (A.take n) n
      let u := RecursiveMultiplyBottom (1 :: replicate (n - 1) 0) (t.T.take n) s.R
        (A.drop n) n
      let T0 := TwosComplement (Add t.R u.R).1
      let v := RecursiveMultiplyBottom t.R u.T s.R T0 n
      ⟨s.R ++ v.R, T0 ++ v.T ++ t.T.drop n⟩) := by
  have hhalf : 2 * n / 2 = n := by omega
  rw [RecursiveInverseModPower2.eq_def, if_neg (by omega), if_pos (by omega)]
  simp only [hhalf]

/-- **`RecursiveInverseModPower2`, stored** -/
theorem RecursiveInverseModPower2_stored (hN : N = 2 ^ (k + 1)) (hR : R.length = N)
    (hT : T.length = 3 * N / 2) (hA : A.length = N) (hodd : value A % 2 = 1) :
    (RecursiveInverseModPower2 R T A N).R = OsSecurity.RecursiveInverseModPower2 A N ∧
      (RecursiveInverseModPower2 R T A N).T.length = 3 * N / 2 := by
  induction k generalizing N R T A with
  | zero =>
      rw [hN] at hT ⊢
      rw [RecursiveInverseModPower2.eq_def, OsSecurity.RecursiveInverseModPower2.eq_def,
        if_pos (by decide), if_pos (by decide)]
      exact ⟨rfl, hT⟩
  | succ k ih =>
      obtain ⟨n, hn, hdouble, hpos, heven⟩ := half_pow hN
      rw [hdouble] at hR hT hA ⊢
      have hroomT : T.length = 3 * n := by omega
      obtain ⟨hR0, hR1⟩ := take_drop_length hR
      obtain ⟨hA0, hA1⟩ := take_drop_length hA
      have hodd0 := odd_take (by omega) hA hodd
      rw [RecursiveInverseModPower2_halves (by omega) (by omega),
        OsSecurity.RecursiveInverseModPower2_halves (by omega) (by omega)]
      simp only
      obtain ⟨hs, hroom⟩ := ih hn hR0 (T := T.take (3 * n / 2)) (length_take_of_le (by omega))
        hA0 hodd0
      have hinverse := RecursiveInverseModPower2_spec hn hA0 hodd0
      rw [hs]
      generalize (RecursiveInverseModPower2 (R.take n) (T.take (3 * n / 2)) (A.take n) n).T = T'
        at *
      generalize OsSecurity.RecursiveInverseModPower2 (A.take n) n = s at *
      have honelen : (1 :: replicate (n - 1) (0 : UInt32)).length = n := by
        rw [length_cons, length_replicate]
        omega
      have hfree : ((T' ++ T.drop (3 * n / 2)).drop n).length = 2 * n := by
        rw [length_drop, length_append, length_drop, hroom]
        omega
      have hone : value (1 :: replicate (n - 1) 0) = value s * value (A.take n) %
          (2 ^ 32) ^ n := by
        rw [hinverse.product, value_cons, value_zeros]
        rfl
      obtain ⟨ht, hroomT⟩ := RecursiveMultiplyTop_stored (L := 1 :: replicate (n - 1) 0)
        hn hR1 hfree hinverse.length hA0
      have htlen := (RecursiveMultiplyTop_spec hn honelen hinverse.length hA0 hone).1
      obtain ⟨hT0, hT1⟩ := take_drop_length hroomT
      obtain ⟨hu, hroomU⟩ := RecursiveMultiplyBottom_stored hn honelen hT0 hinverse.length hA1
      have hulen := (RecursiveMultiplyBottom_spec hn hinverse.length hA1).1
      rw [ht, hu]
      have hneglen := (TwosComplement_spec (Add (OsSecurity.RecursiveMultiplyTop
        (1 :: replicate (n - 1) 0) s (A.take n) n)
        (OsSecurity.RecursiveMultiplyBottom s (A.drop n) n)).1).1
      rw [Add_length (htlen.trans hulen.symm), htlen] at hneglen
      obtain ⟨hv, hroomV⟩ := RecursiveMultiplyBottom_stored hn htlen hroomU hinverse.length
        hneglen
      rw [hv]
      refine ⟨rfl, ?_⟩
      rw [length_append, length_append, hneglen, hroomV, hT1]
      omega

/-! ### The reduction -/

/-- **`MontgomeryReduce`, stored** -/
theorem MontgomeryReduce_stored (hN : N = 2 ^ (k + 1)) (hR : R.length = N) (hT : T.length = 3 * N)
    (hX : X.length = 2 * N) (hM : M.length = N) (hU : U.length = N) :
    (MontgomeryReduce R T X M U N).R = OsSecurity.MontgomeryReduce X M U N := by
  obtain ⟨hX0, -⟩ := take_drop_length hX
  have hT0 : (T.take N).length = N := length_take_of_le (by omega)
  have hT1 : (T.drop N).length = 2 * N := by
    rw [length_drop]
    omega
  obtain ⟨hs, hroom⟩ := RecursiveMultiplyBottom_stored hN hR hT0 hX0 hU
  have hslen := (RecursiveMultiplyBottom_spec hN hX0 hU).1
  obtain ⟨ht, -⟩ := RecursiveMultiplyTop_stored (L := X.take N) hN hroom hT1 hslen hM
  unfold MontgomeryReduce OsSecurity.MontgomeryReduce
  simp only
  rw [hs, ht]

end

end InPlace

/-- **Montgomery's reduction is right**, whatever was stored before: the inverse of the modulus is
one, the halves of products are what they are to be, and what comes out is `X/(2**(32*N))` modulo
`M`. -/
theorem MontgomeryReduce_right {k N : Nat} (hN : N = 2 ^ (k + 1)) :
    (∀ R T A B : Words, R.length = N → T.length = N → A.length = N → B.length = N →
        value (InPlace.RecursiveMultiplyBottom R T A B N).R =
          value A * value B % (2 ^ 32) ^ N) ∧
      (∀ R T L A B : Words, R.length = N → T.length = 2 * N → L.length = N → A.length = N →
        B.length = N → value L = value A * value B % (2 ^ 32) ^ N →
          value (InPlace.RecursiveMultiplyTop R T L A B N).R =
            value A * value B / (2 ^ 32) ^ N) ∧
      ∀ R T R' T' X M : Words, R.length = N → T.length = 3 * N / 2 → R'.length = N →
        T'.length = 3 * N → M.length = N → value M % 2 = 1 →
          let U := (InPlace.RecursiveInverseModPower2 R T M N).R
          value U * value M % (2 ^ 32) ^ N = 1 ∧
            (X.length = 2 * N → value X < value M * (2 ^ 32) ^ N →
              value (InPlace.MontgomeryReduce R' T' X M U N).R < value M ∧
                value (InPlace.MontgomeryReduce R' T' X M U N).R * (2 ^ 32) ^ N ≡
                  value X [MOD value M]) := by
  refine ⟨?_, ?_, ?_⟩
  · intro R T A B hR hT hA hB
    rw [(InPlace.RecursiveMultiplyBottom_stored hN hR hT hA hB).1]
    exact (RecursiveMultiplyBottom_spec hN hA hB).2
  · intro R T L A B hR hT hL hA hB hlower
    rw [(InPlace.RecursiveMultiplyTop_stored hN hR hT hA hB).1]
    exact (RecursiveMultiplyTop_spec hN hL hA hB hlower).2
  · intro R T R' T' X M hR hT hR' hT' hM hodd U
    have hinverse := RecursiveInverseModPower2_spec hN hM hodd
    have hU : U = RecursiveInverseModPower2 M N :=
      (InPlace.RecursiveInverseModPower2_stored hN hR hT hM hodd).1
    rw [← hU] at hinverse
    refine ⟨hinverse.product, ?_⟩
    intro hX hless
    rw [InPlace.MontgomeryReduce_stored hN hR' hT' hX hM hinverse.length]
    exact (MontgomeryReduce_spec hN hX hM hinverse hless).2

/-- Two words modulo 7. -/
theorem MontgomeryReduce_right_seven :
    let U := (InPlace.RecursiveInverseModPower2 [9, 9] [9, 9, 9] [7, 0] 2).R
    value U * value [7, 0] % (2 ^ 32) ^ 2 = 1 ∧
      value (InPlace.MontgomeryReduce [9, 9] [9, 9, 9, 9, 9, 9] [1, 2, 3, 0] [7, 0] U 2).R <
          value [7, 0] ∧
        value (InPlace.MontgomeryReduce [9, 9] [9, 9, 9, 9, 9, 9] [1, 2, 3, 0] [7, 0] U 2).R *
          (2 ^ 32) ^ 2 ≡ value [1, 2, 3, 0] [MOD value [7, 0]] := by
  obtain ⟨-, -, hreduce⟩ := MontgomeryReduce_right (k := 0) (N := 2) rfl
  obtain ⟨hinverse, hright⟩ := hreduce [9, 9] [9, 9, 9] [9, 9] [9, 9, 9, 9, 9, 9] [1, 2, 3, 0]
    [7, 0] rfl rfl rfl rfl rfl (by decide)
  exact ⟨hinverse, hright rfl (by decide)⟩

end OsSecurity

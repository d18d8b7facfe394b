/-
Division of arrays: `Divide` of `algorithms.cpp`.

The divisor is shifted until its top bit is set, and the dividend with it.  Then two words of the
quotient are found at a time, and the remainder is shifted back.
-/
import OsSecurity.Bigint.QuotientDigit

namespace OsSecurity

open List Nat

variable {A B : Words} {shiftWords : Nat}

/-! ### All digits -/

/-- The loop that reduces `TA`, with the number of rounds that are left. -/
def reduce (TB : Words) (BT0 BT1 : UInt32) : Nat → Words → Words → Words × Words
  | 0, TA, Q => (TA, Q)
  | rounds + 1, TA, Q =>
    let i := TB.length + 2 * rounds
    let Qi := AtomicDivide (TA.getD (i - 2) 0) (TA.getD (i - 1) 0) (TA.getD i 0)
      (TA.getD (i + 1) 0) BT0 BT1
    let (R, Qi) := CorrectQuotientEstimate (part TA (i - TB.length) (TB.length + 2)) Qi TB
    reduce TB BT0 BT1 rounds (writeAt TA (i - TB.length) R)
      (writeAt Q (i - TB.length) [Qi.1, Qi.2])

/-- The quotient has `NA-NB+2` words and the remainder `NB`. -/
structure QuotientAndRemainder where
  R : Words
  Q : Words

def Divide (A B : Words) : QuotientAndRemainder :=
  let NA := A.length
  let NB := B.length
  -- `B` is copied into `TB` and normalized so that its highest bit is 1
  let shiftWords := if B.getD (NB - 1) 0 = 0 then 1 else 0
  let TB := replicate shiftWords 0 ++ B.take (NB - shiftWords)
  let shiftBits := WORD_BITS - BitPrecision (TB.getD (NB - 1) 0)
  let TB := (ShiftWordsLeftByBits TB shiftBits).1
  -- `A` is copied into `TA` and normalized
  let TA := replicate shiftWords 0 ++ A ++ replicate (2 - shiftWords) 0
  let TA := (ShiftWordsLeftByBits TA shiftBits).1
  let Q := replicate (NA - NB + 2) 0
  let BT0 := TB.getD (NB - 2) 0 + 1
  let BT1 := TB.getD (NB - 1) 0 + if BT0 = 0 then 1 else 0
  let (TA, Q) :=
    if TA.getD (NA + 1) 0 = 0 ∧ (TA.getD NA 0).toNat ≤ 1 then
      let (R, top, q) := subtractWhile TB (· + 1) (value TA) (part TA (NA - NB) NB) (TA.getD NA 0)
        (0 : UInt32)
      reduce TB BT0 BT1 ((NA - NB) / 2) (writeAt TA (NA - NB) (R ++ [top]))
        (writeAt Q (NA - NB) [q, 0])
    else reduce TB BT0 BT1 ((NA + 2 - NB) / 2) TA Q
  -- `TA` is copied into `R`, and denormalized
  { R := (ShiftWordsRightByBits (part TA shiftWords NB) shiftBits).1, Q := Q }

section

theorem part_succ {j : Nat} (h : j < A.length) (n : Nat) :
    part A j (n + 1) = A.getD j 0 :: part A (j + 1) n := by
  unfold part
  rw [drop_eq_getElem_cons h, take_succ_cons, getD_eq_getElem?_getD, getElem?_eq_getElem h]
  rfl

theorem value_part_four {j : Nat} (h : j + 4 ≤ A.length) :
    value (part A j 4) = value2 (A.getD j 0) (A.getD (j + 1) 0) +
      2 ^ 64 * value2 (A.getD (j + 2) 0) (A.getD (j + 3) 0) := by
  rw [part_succ (by omega), part_succ (by omega), part_succ (by omega), part_succ (by omega)]
  simp only [part, take_zero, value_cons, value_nil, value2]
  ring

/-- The divisor is counted one up in its leading words. -/
structure LeadingWords (TB : Words) (BT0 BT1 : UInt32) : Prop where
  pos : 0 < value TB
  even : TB.length % 2 = 0
  two : 2 ≤ TB.length
  leading : value2 BT0 BT1 = value TB / (2 ^ 32) ^ (TB.length - 2) + 1 ∨
    value2 BT0 BT1 = 0 ∧ value TB / (2 ^ 32) ^ (TB.length - 2) + 1 = 2 ^ 64

variable {TB : Words} {BT0 BT1 : UInt32}

/-- What the estimate of a digit is to be for the correction: not too large, and near enough. -/
structure Estimated (TB W : Words) (BT0 BT1 A0 A1 A2 A3 : UInt32) : Prop where
  high : value2 A2 A3 < value TB / (2 ^ 32) ^ (TB.length - 2) + 1
  le : value2 (AtomicDivide A0 A1 A2 A3 BT0 BT1).1 (AtomicDivide A0 A1 A2 A3 BT0 BT1).2 ≤
    value W / value TB
  quotient : value W / value TB < 2 ^ 64
  rest : value W < value2 (AtomicDivide A0 A1 A2 A3 BT0 BT1).1
    (AtomicDivide A0 A1 A2 A3 BT0 BT1).2 * value TB + (2 ^ 32) ^ (TB.length + 1)

theorem estimated (hTB : LeadingWords TB BT0 BT1) {W : Words} {A0 A1 A2 A3 : UInt32}
    (hW : value W < value TB * 2 ^ 64)
    (hA : value2 A0 A1 + 2 ^ 64 * value2 A2 A3 = value W / (2 ^ 32) ^ (TB.length - 2)) :
    Estimated TB W BT0 BT1 A0 A1 A2 A3 := by
  have htwo := hTB.two
  have hTBlt := value_lt TB
  have hKpos : 0 < (2 ^ 32) ^ (TB.length - 2) := Nat.pow_pos (by decide)
  have hNB : (2 ^ 32) ^ TB.length = (2 ^ 32) ^ (TB.length - 2) * 2 ^ 64 := by
    have hexp : TB.length = TB.length - 2 + 2 := by omega
    rw [hexp, pow_add, Nat.add_sub_cancel]
    rfl
  have hNB1 : (2 ^ 32) ^ (TB.length + 1) = (2 ^ 32) ^ TB.length * 2 ^ 32 := pow_succ _ _
  have hleading := hTB.leading
  -- the leading words of the remainder are less than those of the divisor
  have hhigh : value2 A2 A3 < value TB / (2 ^ 32) ^ (TB.length - 2) + 1 := by
    have hdiv : value W / (2 ^ 32) ^ (TB.length - 2) / 2 ^ 64 ≤
        value TB / (2 ^ 32) ^ (TB.length - 2) := by
      rw [Nat.div_div_eq_div_mul, Nat.mul_comm, ← Nat.div_div_eq_div_mul]
      exact Nat.div_le_div_right (Nat.div_le_of_le_mul (by rw [Nat.mul_comm]; exact hW.le))
    rw [← hA] at hdiv
    have hlow := value2_lt A0 A1
    omega
  have hQ := @AtomicDivide_spec A0 A1 A2 A3 BT0 BT1 _ (succ_pos _) hleading hhigh
  rw [hA] at hQ
  generalize hK : (2 ^ 32) ^ (TB.length - 2) = K at *
  have hdK : (value TB / K + 1) * K ≤ value TB + K := by
    rw [Nat.add_mul, Nat.one_mul]
    exact Nat.add_le_add_right (div_mul_le_self _ _) K
  have hDd : value TB ≤ (value TB / K + 1) * K := by
    rw [Nat.mul_comm]
    exact (lt_mul_div_succ (value TB) hKpos).le
  have hle := LongDivision.estimate_le (R := value W) hTB.pos hDd
  have hroom := LongDivision.rest_of_estimate_lt (R := value W) hKpos (succ_pos _) hdK hQ
  rw [← hQ] at hle
  have hQK : value2 (AtomicDivide A0 A1 A2 A3 BT0 BT1).1 (AtomicDivide A0 A1 A2 A3 BT0 BT1).2 * K +
      K ≤ K * 2 ^ 64 := by
    have hlt2 := value2_lt (AtomicDivide A0 A1 A2 A3 BT0 BT1).1
      (AtomicDivide A0 A1 A2 A3 BT0 BT1).2
    have hmul := Nat.mul_le_mul_left K hlt2
    rw [mul_succ, Nat.mul_comm K] at hmul
    exact hmul
  rw [← hK] at hhigh
  exact ⟨hhigh, hle, Nat.div_lt_of_lt_mul hW, by rw [hNB1]; omega⟩

/-- **One digit.** -/
theorem digit_spec (hTB : LeadingWords TB BT0 BT1) {W : Words} {A0 A1 A2 A3 : UInt32}
    (hlen : W.length = TB.length + 2) (hW : value W < value TB * 2 ^ 64)
    (hA : value2 A0 A1 + 2 ^ 64 * value2 A2 A3 = value W / (2 ^ 32) ^ (TB.length - 2)) :
    (CorrectQuotientEstimate W (AtomicDivide A0 A1 A2 A3 BT0 BT1) TB).1.length = W.length ∧
      value (CorrectQuotientEstimate W (AtomicDivide A0 A1 A2 A3 BT0 BT1) TB).1 =
        value W % value TB ∧
      value2 (CorrectQuotientEstimate W (AtomicDivide A0 A1 A2 A3 BT0 BT1) TB).2.1
          (CorrectQuotientEstimate W (AtomicDivide A0 A1 A2 A3 BT0 BT1) TB).2.2 =
        value W / value TB := by
  have hestimated := estimated hTB hW hA
  obtain ⟨hRlen, hR, hQvalue⟩ := CorrectQuotientEstimate_spec hTB.pos hTB.even hlen
    hestimated.le hestimated.quotient hestimated.rest
  exact ⟨by rw [hRlen, hlen], hR, hQvalue⟩

/-- The four leading words of the part that a digit is taken from. -/
theorem leadingFour (TA : Words) (r : Nat) (htwo : 2 ≤ TB.length)
    (h : TB.length + 2 * r + 2 ≤ TA.length) :
    value2 (TA.getD (TB.length + 2 * r - 2) 0) (TA.getD (TB.length + 2 * r - 1) 0) +
        2 ^ 64 * value2 (TA.getD (TB.length + 2 * r) 0) (TA.getD (TB.length + 2 * r + 1) 0) =
      value (part TA (2 * r) (TB.length + 2)) / (2 ^ 32) ^ (TB.length - 2) := by
  have hfour := value_part_four (A := TA) (j := TB.length + 2 * r - 2) (by omega)
  have h1 : TB.length + 2 * r - 2 + 1 = TB.length + 2 * r - 1 := by omega
  have h2 : TB.length + 2 * r - 2 + 2 = TB.length + 2 * r := by omega
  have h3 : TB.length + 2 * r - 2 + 3 = TB.length + 2 * r + 1 := by omega
  have hexp : TB.length + 2 = TB.length - 2 + 4 := by omega
  have hplace : 2 * r + (TB.length - 2) = TB.length + 2 * r - 2 := by omega
  rw [h1, h2, h3, value_part (by omega)] at hfour
  rw [← hfour, value_part (by omega), hexp, pow_add, mod_mul_right_div_self,
    Nat.div_div_eq_div_mul, ← pow_add, hplace]

/-- The part of the dividend that the next digit is taken from. -/
structure Window (TB TA : Words) (rounds : Nat) : Prop where
  length : (part TA (2 * rounds) (TB.length + 2)).length = TB.length + 2
  less : value (part TA (2 * rounds) (TB.length + 2)) < value TB * 2 ^ 64
  above : value (TA.drop (2 * rounds + (TB.length + 2))) = 0
  whole : value TA = value (TA.take (2 * rounds)) +
    (2 ^ 64) ^ rounds * value (part TA (2 * rounds) (TB.length + 2))
  low : value (TA.take (2 * rounds)) < (2 ^ 64) ^ rounds

theorem window {rounds : Nat} {TA : Words} (hTA : TB.length + 2 * (rounds + 1) ≤ TA.length)
    (hlt : value TA < value TB * (2 ^ 64) ^ (rounds + 1)) : Window TB TA rounds := by
  have hsplit := value_split (A := TA) (j := 2 * rounds) (n := TB.length + 2) (by omega)
  have hlowlt := value_lt (TA.take (2 * rounds))
  rw [length_take_of_le (by omega)] at hlowlt
  have hpair : (2 ^ 32) ^ (2 * rounds) = (2 ^ 64) ^ rounds := by
    rw [pow_mul]
    rfl
  have hTBlt := value_lt TB
  rw [pow_succ] at hlt
  rw [hpair] at hlowlt hsplit
  have hp : 0 < (2 ^ 64) ^ rounds := Nat.pow_pos (by decide)
  have hless : value (part TA (2 * rounds) (TB.length + 2)) < value TB * 2 ^ 64 := by
    apply Nat.lt_of_mul_lt_mul_left (a := (2 ^ 64) ^ rounds)
    calc (2 ^ 64) ^ rounds * value (part TA (2 * rounds) (TB.length + 2)) ≤ value TA := by
          rw [hsplit, Nat.mul_add]
          omega
      _ < (2 ^ 64) ^ rounds * (value TB * 2 ^ 64) := by
          rw [← Nat.mul_assoc, Nat.mul_comm ((2 ^ 64) ^ rounds), Nat.mul_assoc]
          exact hlt
  have habove : value (TA.drop (2 * rounds + (TB.length + 2))) = 0 := by
    by_contra hne
    have hone := Nat.le_mul_of_pos_right ((2 ^ 32) ^ (TB.length + 2)) (Nat.pos_of_ne_zero hne)
    have hle : (2 ^ 64) ^ rounds * (2 ^ 32) ^ (TB.length + 2) ≤ value TA := by
      rw [hsplit, Nat.mul_add]
      exact (Nat.mul_le_mul_left _ hone).trans
        ((Nat.le_add_left _ _).trans (Nat.le_add_left _ _))
    have hgt : value TB * ((2 ^ 64) ^ rounds * 2 ^ 64) <
        (2 ^ 64) ^ rounds * (2 ^ 32) ^ (TB.length + 2) := by
      rw [pow_add, Nat.mul_left_comm]
      exact Nat.mul_lt_mul_of_pos_left (Nat.mul_lt_mul_of_pos_right hTBlt (by decide)) hp
    omega
  rw [habove, Nat.mul_zero, Nat.add_zero] at hsplit
  exact ⟨part_length (by omega), hless, habove, hsplit, hlowlt⟩

/-- **A round of the loop**: what is left in the part takes its place. -/
theorem Window.next {rounds : Nat} {TA R : Words} (h : Window TB TA rounds)
    (hTA : TB.length + 2 * (rounds + 1) ≤ TA.length) (hB : 0 < value TB)
    (hRlen : R.length = TB.length + 2)
    (hR : value R = value (part TA (2 * rounds) (TB.length + 2)) % value TB) :
    (writeAt TA (2 * rounds) R).length = TA.length ∧
      value (writeAt TA (2 * rounds) R) = value (TA.take (2 * rounds)) +
        (2 ^ 64) ^ rounds * (value (part TA (2 * rounds) (TB.length + 2)) % value TB) ∧
      value (writeAt TA (2 * rounds) R) < value TB * (2 ^ 64) ^ rounds := by
  have hpair : (2 ^ 32) ^ (2 * rounds) = (2 ^ 64) ^ rounds := by
    rw [pow_mul]
    rfl
  have hTA1 := value_writeAt (A := TA) (w := R) (j := 2 * rounds) (by omega)
  rw [hRlen, h.above, Nat.mul_zero, Nat.add_zero, hpair, hR] at hTA1
  refine ⟨writeAt_length (by omega), hTA1, ?_⟩
  rw [hTA1]
  exact LongDivision.step_lt h.low (mod_lt _ hB)

/-- **The loop.**  What has been divided, and what is left, are the dividend. -/
theorem reduce_spec (hTB : LeadingWords TB BT0 BT1) (rounds : Nat) {TA Q : Words}
    (hTA : TB.length + 2 * rounds ≤ TA.length) (hQ : 2 * rounds ≤ Q.length)
    (hlt : value TA < value TB * (2 ^ 64) ^ rounds) :
    (reduce TB BT0 BT1 rounds TA Q).1.length = TA.length ∧
      (reduce TB BT0 BT1 rounds TA Q).2.length = Q.length ∧
      value (reduce TB BT0 BT1 rounds TA Q).1 < value TB ∧
      value (reduce TB BT0 BT1 rounds TA Q).2 * value TB +
          value (reduce TB BT0 BT1 rounds TA Q).1 =
        value (Q.drop (2 * rounds)) * (value TB * (2 ^ 64) ^ rounds) + value TA := by
  induction rounds generalizing TA Q with
  | zero =>
      rw [pow_zero, Nat.mul_one] at hlt ⊢
      exact ⟨rfl, rfl, hlt, rfl⟩
  | succ rounds ih =>
      have hi : TB.length + 2 * rounds - TB.length = 2 * rounds := Nat.add_sub_cancel_left _ _
      have hwindow := window hTA hlt
      have hA := leadingFour TA rounds hTB.two (by omega)
      have hpow : (2 ^ 64) ^ (rounds + 1) = 2 ^ 64 * (2 ^ 64) ^ rounds := pow_succ' _ _
      unfold reduce
      simp only [hi]
      obtain ⟨hRlen, hR, hQvalue⟩ := digit_spec hTB hwindow.length hwindow.less hA
      generalize CorrectQuotientEstimate (part TA (2 * rounds) (TB.length + 2)) _ TB = RQ at *
      rw [hwindow.length] at hRlen
      obtain ⟨hTA1len, hTA1, hlt1⟩ := hwindow.next hTA hTB.pos hRlen hR
      have hQ1len := writeAt_length (A := Q) (w := [RQ.2.1, RQ.2.2]) (j := 2 * rounds)
        (by rw [length_cons, length_singleton]; omega)
      have hQ1 : value ((writeAt Q (2 * rounds) [RQ.2.1, RQ.2.2]).drop (2 * rounds)) =
          value (part TA (2 * rounds) (TB.length + 2)) / value TB +
            2 ^ 64 * value (Q.drop (2 * (rounds + 1))) := by
        rw [writeAt_drop (by omega), value_append, ← hQvalue]
        simp only [value_cons, value_nil, value2, length_cons, length_nil]
        rfl
      have hWdiv := (div_add_mod' (value (part TA (2 * rounds) (TB.length + 2)))
        (value TB)).symm
      obtain ⟨hlen1, hlen2, hless, hsum⟩ := @ih (writeAt TA (2 * rounds) RQ.1)
        (writeAt Q (2 * rounds) [RQ.2.1, RQ.2.2]) (by omega) (by omega) hlt1
      refine ⟨by rw [hlen1, hTA1len], by rw [hlen2, hQ1len], hless, ?_⟩
      rw [hsum, hQ1, hTA1, hpow]
      exact (LongDivision.step rfl hwindow.whole hWdiv).symm

end

/-! ### Normalization -/

/-- `TB` before it is shifted by bits. -/
theorem value_shiftWords (hlen : 2 ≤ B.length)
    (hsw : shiftWords = if B.getD (B.length - 1) 0 = 0 then 1 else 0) :
    (replicate shiftWords 0 ++ B.take (B.length - shiftWords)).length = B.length ∧
      value (replicate shiftWords 0 ++ B.take (B.length - shiftWords)) =
        value B * (2 ^ 32) ^ shiftWords := by
  have hsw1 : shiftWords ≤ 1 := by
    rw [hsw]
    by_cases hzero : B.getD (B.length - 1) 0 = 0
    · rw [if_pos hzero]
    · rw [if_neg hzero]
      exact Nat.zero_le 1
  refine ⟨?_, ?_⟩
  · rw [length_append, length_replicate, length_take]
    omega
  · rw [value_append, value_zeros, length_replicate, Nat.zero_add, Nat.mul_comm]
    congr 1
    by_cases hzero : B.getD (B.length - 1) 0 = 0
    · -- the word that is dropped is zero
      have hB : B.take (B.length - 1) ++ [0] = B := by
        have htake := take_succ_getD (D := B) (n := B.length - 1) (by omega)
        rw [hzero, Nat.sub_add_cancel (by omega), take_length] at htake
        exact htake.symm
      have hvalue := value_append (B.take (B.length - 1)) [0]
      rw [hB] at hvalue
      rw [hsw, if_pos hzero, hvalue]
      rfl
    · rw [hsw, if_neg hzero, Nat.sub_zero, take_length]

/-- What `Divide` has made of its arguments when the loop starts. -/
structure Normalized (A B TA TB : Words) (shiftWords shiftBits : Nat) : Prop where
  words : shiftWords ≤ 1
  bits : shiftBits < 32
  lengthB : TB.length = B.length
  valueB : value TB = value B * ((2 ^ 32) ^ shiftWords * 2 ^ shiftBits)
  topBit : (2 ^ 32) ^ B.length ≤ 2 * value TB
  lengthA : TA.length = A.length + 2
  valueA : value TA = value A * ((2 ^ 32) ^ shiftWords * 2 ^ shiftBits)

theorem shift_le {shiftBits : Nat} (hw : shiftWords ≤ 1) (hb : shiftBits < 32) :
    (2 ^ 32) ^ shiftWords * 2 ^ shiftBits ≤ 2 ^ 63 := by
  have hwords : (2 ^ 32) ^ shiftWords ≤ 2 ^ 32 :=
    (Nat.pow_le_pow_right (by decide) hw).trans (le_of_eq (pow_one _))
  have hbits : 2 ^ shiftBits ≤ 2 ^ 31 := Nat.pow_le_pow_right (by decide) (by omega)
  calc (2 ^ 32) ^ shiftWords * 2 ^ shiftBits ≤ 2 ^ 32 * 2 ^ 31 := Nat.mul_le_mul hwords hbits
    _ = 2 ^ 63 := by norm_num

/-- A shift by bits that keeps all of a number. -/
theorem shiftBits_value {r : Words} {s : Nat} (hs : s < 32)
    (h : value r * 2 ^ s < (2 ^ 32) ^ r.length) :
    value (ShiftWordsLeftByBits r s).1 = value r * 2 ^ s := by
  have hshift := ShiftWordsLeftByBits_value hs r
  rcases Nat.eq_zero_or_pos (ShiftWordsLeftByBits r s).2.toNat with hzero | hpos
  · rw [hzero, Nat.mul_zero, Nat.add_zero] at hshift
    exact hshift
  · have hle := Nat.le_mul_of_pos_right ((2 ^ 32) ^ r.length) hpos
    omega

theorem value_top {r : Words} (h : 0 < r.length) :
    value r = value (r.take (r.length - 1)) +
      (2 ^ 32) ^ (r.length - 1) * (r.getD (r.length - 1) 0).toNat := by
  have htake := take_succ_getD (D := r) (n := r.length - 1) (by omega)
  have hconcat := value_concat (r.take (r.length - 1)) (r.getD (r.length - 1) 0)
  rw [Nat.sub_add_cancel h, take_length] at htake
  rw [← htake, length_take_of_le (by omega)] at hconcat
  exact hconcat

theorem normalized (hlen : 2 ≤ B.length) (htop : (2 ^ 32) ^ (B.length - 2) ≤ value B)
    {shiftBits : Nat} {TB0 : Words}
    (hsw : shiftWords = if B.getD (B.length - 1) 0 = 0 then 1 else 0)
    (hTB0 : TB0 = replicate shiftWords 0 ++ B.take (B.length - shiftWords))
    (hsb : shiftBits = WORD_BITS - BitPrecision (TB0.getD (B.length - 1) 0)) :
    Normalized A B (ShiftWordsLeftByBits
        (replicate shiftWords 0 ++ A ++ replicate (2 - shiftWords) 0) shiftBits).1
      (ShiftWordsLeftByBits TB0 shiftBits).1 shiftWords shiftBits := by
  have hsw1 : shiftWords ≤ 1 := by
    rw [hsw]
    by_cases hzero : B.getD (B.length - 1) 0 = 0
    · rw [if_pos hzero]
    · rw [if_neg hzero]
      exact Nat.zero_le 1
  obtain ⟨hTB0len, hTB0value⟩ := value_shiftWords hlen hsw
  rw [← hTB0] at hTB0len hTB0value
  have hstep : (2 ^ 32) ^ (B.length - 1) = (2 ^ 32) ^ (B.length - 2) * 2 ^ 32 := by
    rw [← pow_succ]
    congr 1
    omega
  have hwhole : (2 ^ 32) ^ B.length = (2 ^ 32) ^ (B.length - 1) * 2 ^ 32 := by
    rw [← pow_succ]
    congr 1
    omega
  -- the top word is not zero
  have hge : (2 ^ 32) ^ (B.length - 1) ≤ value TB0 := by
    rw [hTB0value, hsw]
    by_cases hzero : B.getD (B.length - 1) 0 = 0
    · rw [if_pos hzero, pow_one, hstep]
      exact Nat.mul_le_mul_right _ htop
    · have hpos : 0 < (B.getD (B.length - 1) 0).toNat :=
        Nat.pos_of_ne_zero fun hz => hzero (UInt32.toNat_inj.mp hz)
      rw [if_neg hzero, pow_zero, Nat.mul_one, value_top (r := B) (by omega)]
      exact (Nat.le_mul_of_pos_right _ hpos).trans (Nat.le_add_left _ _)
  have hTB0top := value_top (r := TB0) (by omega)
  have hlow := value_lt (TB0.take (TB0.length - 1))
  rw [length_take_of_le (by omega)] at hlow
  rw [hTB0len] at hTB0top hlow
  have hne : TB0.getD (B.length - 1) 0 ≠ 0 := by
    intro hzero
    rw [hzero, UInt32.toNat_zero] at hTB0top
    omega
  obtain ⟨hp1, hp32, hple, hplt⟩ := BitPrecision_spec hne
  generalize TB0.getD (B.length - 1) 0 = w at *
  have hsb32 : shiftBits < 32 := by
    unfold WORD_BITS at hsb
    omega
  have hbits : 2 ^ BitPrecision w * 2 ^ shiftBits = 2 ^ 32 := by
    rw [← pow_add]
    congr 1
    unfold WORD_BITS at hsb
    omega
  have hhalf : 2 * 2 ^ (BitPrecision w - 1) = 2 ^ BitPrecision w := by
    rw [← pow_succ']
    congr 1
    omega
  generalize (2 ^ 32) ^ (B.length - 1) = p at *
  have hfits : value TB0 * 2 ^ shiftBits < (2 ^ 32) ^ TB0.length := by
    rw [hTB0len, hwhole, ← hbits, ← Nat.mul_assoc]
    apply Nat.mul_lt_mul_of_pos_right _ (Nat.two_pow_pos _)
    calc value TB0 < p * (w.toNat + 1) := by
          rw [hTB0top, Nat.mul_add, Nat.mul_one]
          omega
      _ ≤ p * 2 ^ BitPrecision w := Nat.mul_le_mul_left p hplt
  have hTB := shiftBits_value hsb32 hfits
  have hA0len : (replicate shiftWords 0 ++ A ++ replicate (2 - shiftWords) 0).length =
      A.length + 2 := by
    simp only [length_append, length_replicate]
    omega
  have hA0 : value (replicate shiftWords 0 ++ A ++ replicate (2 - shiftWords) 0) =
      value A * (2 ^ 32) ^ shiftWords := by
    rw [value_append, value_append, value_zeros, value_zeros, length_replicate,
      Nat.zero_add, Nat.mul_zero, Nat.add_zero, Nat.mul_comm]
  have hAfits : value (replicate shiftWords 0 ++ A ++ replicate (2 - shiftWords) 0) *
      2 ^ shiftBits <
        (2 ^ 32) ^ (replicate shiftWords 0 ++ A ++
          replicate (2 - shiftWords) 0).length := by
    rw [hA0len, hA0, Nat.mul_assoc, pow_add]
    have hAlt := value_lt A
    calc value A * ((2 ^ 32) ^ shiftWords * 2 ^ shiftBits) ≤ value A * 2 ^ 63 :=
          Nat.mul_le_mul_left _ (shift_le hsw1 hsb32)
      _ < (2 ^ 32) ^ A.length * (2 ^ 32) ^ 2 := by
          have hmul := Nat.mul_lt_mul_of_pos_right hAlt (Nat.two_pow_pos 63)
          have hmono : (2 ^ 32) ^ A.length * 2 ^ 63 ≤ (2 ^ 32) ^ A.length * (2 ^ 32) ^ 2 :=
            Nat.mul_le_mul_left _ (by norm_num)
          exact hmul.trans_le hmono
  have hTA := shiftBits_value hsb32 hAfits
  refine ⟨hsw1, hsb32, ?_, ?_, ?_, ?_, ?_⟩
  · rw [ShiftWordsLeftByBits_length, hTB0len]
  · rw [hTB, hTB0value, Nat.mul_assoc]
  · rw [hTB, hwhole, ← hbits, ← hhalf, hTB0top]
    have hmul := Nat.mul_le_mul_right (2 ^ shiftBits) (Nat.mul_le_mul_left p hple)
    calc p * (2 * 2 ^ (BitPrecision w - 1) * 2 ^ shiftBits) =
          2 * (p * 2 ^ (BitPrecision w - 1) * 2 ^ shiftBits) := by ring
      _ ≤ 2 * (p * w.toNat * 2 ^ shiftBits) := Nat.mul_le_mul_left 2 hmul
      _ ≤ _ := Nat.mul_le_mul_left 2 (Nat.mul_le_mul_right _ (Nat.le_add_left _ _))
  · rw [ShiftWordsLeftByBits_length, hA0len]
  · rw [hTA, hA0, Nat.mul_assoc]

/-- The two leading words. -/
theorem value2_leading {TB : Words} (htwo : 2 ≤ TB.length) :
    value2 (TB.getD (TB.length - 2) 0) (TB.getD (TB.length - 1) 0) =
      value TB / (2 ^ 32) ^ (TB.length - 2) := by
  have hnext : TB.length - 2 + 1 = TB.length - 1 := by omega
  have hpart : TB.drop (TB.length - 2) =
      [TB.getD (TB.length - 2) 0, TB.getD (TB.length - 1) 0] := by
    have hall : part TB (TB.length - 2) 2 = TB.drop (TB.length - 2) := by
      unfold part
      rw [take_of_length_le]
      rw [length_drop]
      omega
    rw [← hall, part_succ (by omega), part_succ (by omega), hnext]
    rfl
  rw [← value_drop _ (by omega), hpart]
  simp [value_cons, value2]

/-- The leading words of the divisor, counted one up. -/
theorem leadingWords {TB : Words} (hpos : 0 < value TB) (heven : TB.length % 2 = 0)
    (htwo : 2 ≤ TB.length) :
    LeadingWords TB (TB.getD (TB.length - 2) 0 + 1) (TB.getD (TB.length - 1) 0 +
      if TB.getD (TB.length - 2) 0 + 1 = 0 then 1 else 0) := by
  refine ⟨hpos, heven, htwo, ?_⟩
  rw [← value2_leading htwo]
  exact incrementPair_cases (TB.getD (TB.length - 2) 0, TB.getD (TB.length - 1) 0)

/-- The leading pair is not zero. -/
theorem leading_pos_iff (htwo : 2 ≤ B.length) :
    (B.getD (B.length - 1) 0 ≠ 0 ∨ B.getD (B.length - 2) 0 ≠ 0) ↔
      (2 ^ 32) ^ (B.length - 2) ≤ value B := by
  have hpos : 0 < (2 ^ 32) ^ (B.length - 2) := Nat.pow_pos (by decide)
  rw [← not_lt, ← div_eq_zero_iff_lt hpos, ← value2_leading htwo, value2_eq_zero]
  tauto

theorem part_concat {j n : Nat} (h : j + n < A.length) :
    part A j (n + 1) = part A j n ++ [A.getD (j + n) 0] := by
  unfold part
  rw [getD_eq_getElem?_getD, ← getElem?_drop]
  have htake := take_succ_getD (D := A.drop j) (n := n) (by rw [length_drop]; omega)
  rw [htake, getD_eq_getElem?_getD]

theorem toNat_iterate_add_one (n : Nat) : ((· + 1)^[n] (0 : UInt32)).toNat = n % 2 ^ 32 := by
  induction n with
  | zero => rfl
  | succ n ih =>
      rw [Function.iterate_succ_apply', UInt32.toNat_add, ih, UInt32.toNat_one]
      exact mod_add_mod _ _ _

/-- Both ways into the loop end in the quotient and the remainder of what has been normalized. -/
structure Reduced (TB TA : Words) (n : Nat) (s : Words × Words) : Prop where
  lengthTA : s.1.length = TA.length
  lengthQ : s.2.length = n
  less : value s.1 < value TB
  sum : value s.2 * value TB + value s.1 = value TA

section

variable {TA TB : Words} {BT0 BT1 : UInt32} {NA NB : Nat}

/-- The divisor has been taken off the leading words of `TA`, which are `v`, and has gone `q`
times. -/
structure FirstTaken (TA TB : Words) (NA NB v : Nat) (R : Words) (q : UInt32) : Prop where
  enough : v / value TB ≤ value TA
  length : (writeAt TA (NA - NB) (R ++ [0])).length = TA.length
  count : q.toNat = v / value TB
  whole : value TA = value (TA.take (NA - NB)) + (2 ^ 32) ^ (NA - NB) * v
  left : value (writeAt TA (NA - NB) (R ++ [0])) =
    value (TA.take (NA - NB)) + (2 ^ 32) ^ (NA - NB) * (v % value TB)
  less : value (writeAt TA (NA - NB) (R ++ [0])) < value TB * (2 ^ 64) ^ ((NA - NB) / 2)

theorem first_spec (hTB : LeadingWords TB BT0 BT1) (hNB : TB.length = NB) (hle : NB ≤ NA)
    (hevenA : NA % 2 = 0) (htop : (2 ^ 32) ^ NB ≤ 2 * value TB) (hTA : TA.length = NA + 2)
    (hzero : TA.getD (NA + 1) 0 = 0) (hone : (TA.getD NA 0).toNat ≤ 1) :
    ∃ R q, subtractWhile TB (· + 1) (value TA) (part TA (NA - NB) NB) (TA.getD NA 0)
        (0 : UInt32) = (R, 0, q) ∧
      FirstTaken TA TB NA NB (value (part TA (NA - NB) NB ++ [TA.getD NA 0])) R q := by
  have hevenB := hTB.even
  have hrounds : 2 * ((NA - NB) / 2) = NA - NB := by omega
  have hp : (2 ^ 64) ^ ((NA - NB) / 2) = (2 ^ 32) ^ (NA - NB) := by
    rw [← hrounds, pow_mul]
    congr 1
    omega
  have hat : NA - NB + NB = NA := by omega
  have hWlen := part_length (A := TA) (j := NA - NB) (n := NB) (by omega)
  have hWtop := part_concat (A := TA) (j := NA - NB) (n := NB) (by omega)
  rw [hat] at hWtop
  have hsplit := value_split (A := TA) (j := NA - NB) (n := NB + 1) (by omega)
  have habove : value (TA.drop (NA - NB + (NB + 1))) = 0 := by
    have hplace : NA - NB + (NB + 1) = NA + 1 := by omega
    rw [hplace, drop_eq_getElem_cons (by omega), drop_eq_nil_of_le (by omega),
      value_cons, value_nil, Nat.mul_zero, Nat.add_zero]
    rw [getD_eq_getElem?_getD, getElem?_eq_getElem (by omega)] at hzero
    exact congrArg UInt32.toNat hzero
  rw [hWtop, habove, Nat.mul_zero, Nat.add_zero] at hsplit
  have hlow := value_lt (TA.take (NA - NB))
  rw [length_take_of_le (by omega)] at hlow
  have hpos : 0 < (2 ^ 32) ^ (NA - NB) := Nat.pow_pos (by decide)
  have hv := value_concat (part TA (NA - NB) NB) (TA.getD NA 0)
  have hWlt := value_lt (part TA (NA - NB) NB)
  rw [hWlen] at hv hWlt
  have hvlt : value (part TA (NA - NB) NB ++ [TA.getD NA 0]) < value TB * 4 := by
    have hmul := Nat.mul_le_mul_left ((2 ^ 32) ^ NB) hone
    omega
  have hfew : value (part TA (NA - NB) NB ++ [TA.getD NA 0]) / value TB < 4 :=
    Nat.div_lt_of_lt_mul hvlt
  have henough : value (part TA (NA - NB) NB ++ [TA.getD NA 0]) / value TB ≤ value TA := by
    have hmul := Nat.le_mul_of_pos_left (value (part TA (NA - NB) NB ++ [TA.getD NA 0])) hpos
    exact (Nat.div_le_self _ _).trans (by omega)
  obtain ⟨R, hloop, hRlen, hR⟩ := subtractWhile_spec (· + 1) (q := (0 : UInt32)) hTB.pos
    (by rw [hWlen, hNB]) henough
  have hcount := toNat_iterate_add_one
    (value (part TA (NA - NB) NB ++ [TA.getD NA 0]) / value TB)
  rw [mod_eq_of_lt (by omega)] at hcount
  generalize value (part TA (NA - NB) NB ++ [TA.getD NA 0]) = v at *
  have hR0 : value (R ++ [0]) = v % value TB := by
    rw [value_concat, hR, UInt32.toNat_zero, Nat.mul_zero, Nat.add_zero]
  have hR0len : (R ++ [(0 : UInt32)]).length = NB + 1 := by
    rw [length_append, hRlen, hNB]
    rfl
  have hTA1 := value_writeAt (A := TA) (w := R ++ [0]) (j := NA - NB) (by omega)
  have hTA1len := writeAt_length (A := TA) (w := R ++ [0]) (j := NA - NB) (by omega)
  rw [hR0len, habove, Nat.mul_zero, Nat.add_zero, hR0] at hTA1
  refine ⟨R, _, hloop, henough, hTA1len, hcount, hsplit, hTA1, ?_⟩
  rw [hTA1, hp]
  exact LongDivision.step_lt hlow (mod_lt _ hTB.pos)

/-- The leading words go first. -/
theorem reduced_first (hTB : LeadingWords TB BT0 BT1) (hNB : TB.length = NB) (hle : NB ≤ NA)
    (hevenA : NA % 2 = 0) (htop : (2 ^ 32) ^ NB ≤ 2 * value TB) (hTA : TA.length = NA + 2)
    (hzero : TA.getD (NA + 1) 0 = 0) (hone : (TA.getD NA 0).toNat ≤ 1) :
    let s := subtractWhile TB (· + 1) (value TA) (part TA (NA - NB) NB) (TA.getD NA 0) (0 : UInt32)
    Reduced TB TA (NA - NB + 2) (reduce TB BT0 BT1 ((NA - NB) / 2)
      (writeAt TA (NA - NB) (s.1 ++ [s.2.1]))
      (writeAt (replicate (NA - NB + 2) 0) (NA - NB) [s.2.2, 0])) := by
  intro s
  have hevenB := hTB.even
  have hrounds : 2 * ((NA - NB) / 2) = NA - NB := by omega
  have hp : (2 ^ 64) ^ ((NA - NB) / 2) = (2 ^ 32) ^ (NA - NB) := by
    rw [← hrounds, pow_mul]
    congr 1
    omega
  obtain ⟨R, q, hs, hfirst⟩ := first_spec hTB hNB hle hevenA htop hTA hzero hone
  have hs' : s = (R, 0, q) := hs
  rw [hs']
  simp only
  generalize value (part TA (NA - NB) NB ++ [TA.getD NA 0]) = v at *
  have hTA1len := hfirst.length
  have hQlen : (replicate (NA - NB + 2) (0 : UInt32)).length = NA - NB + 2 :=
    length_replicate
  have hQ1len := writeAt_length (A := replicate (NA - NB + 2) 0) (w := [q, 0]) (j := NA - NB)
    (by rw [hQlen]; rfl)
  have hQ1 : value ((writeAt (replicate (NA - NB + 2) 0) (NA - NB) [q, 0]).drop (NA - NB)) =
      v / value TB := by
    rw [writeAt_drop (by omega), drop_eq_nil_of_le (by rw [hQlen]; rfl), append_nil,
      value_cons, value_cons, value_nil, hfirst.count, UInt32.toNat_zero]
    omega
  obtain ⟨hlen1, hlen2, hless, hall⟩ := @reduce_spec _ _ _ hTB ((NA - NB) / 2)
    (writeAt TA (NA - NB) (R ++ [0]))
    (writeAt (replicate (NA - NB + 2) 0) (NA - NB) [q, 0]) (by omega) (by omega) hfirst.less
  refine ⟨by rw [hlen1, hTA1len], by rw [hlen2, hQ1len, hQlen], hless, ?_⟩
  have hdiv := div_add_mod' v (value TB)
  rw [hall, hrounds, hQ1, hp, hfirst.left, hfirst.whole]
  calc v / value TB * (value TB * (2 ^ 32) ^ (NA - NB)) +
        (value (TA.take (NA - NB)) + (2 ^ 32) ^ (NA - NB) * (v % value TB)) =
      value (TA.take (NA - NB)) +
        (2 ^ 32) ^ (NA - NB) * (v / value TB * value TB + v % value TB) := by ring
    _ = value (TA.take (NA - NB)) + (2 ^ 32) ^ (NA - NB) * v := by rw [hdiv]

/-- The loop can do all of it. -/
theorem loop_room (hevenB : TB.length % 2 = 0) (hNB : TB.length = NB) (hle : NB ≤ NA)
    (hevenA : NA % 2 = 0) (htop : (2 ^ 32) ^ NB ≤ 2 * value TB)
    (hlt : value TA < (2 ^ 32) ^ NA * 2 ^ 63) :
    value TA < value TB * (2 ^ 64) ^ ((NA + 2 - NB) / 2) := by
  have hrounds : 2 * ((NA + 2 - NB) / 2) = NA - NB + 2 := by omega
  have hp : (2 ^ 64) ^ ((NA + 2 - NB) / 2) = (2 ^ 32) ^ (NA - NB + 2) := by
    rw [← hrounds, pow_mul]
    rfl
  have hsum : NB + (NA - NB + 2) = NA + 2 := by omega
  have hmul := Nat.mul_le_mul_right ((2 ^ 32) ^ (NA - NB + 2)) htop
  rw [← pow_add, hsum, pow_add, Nat.mul_assoc] at hmul
  rw [hp]
  have hpow : (2 ^ 32) ^ 2 = 2 * 2 ^ 63 := by norm_num
  rw [hpow, Nat.mul_left_comm] at hmul
  omega

/-- They go in the loop. -/
theorem reduced_loop (hTB : LeadingWords TB BT0 BT1) (hNB : TB.length = NB) (hle : NB ≤ NA)
    (hevenA : NA % 2 = 0) (htop : (2 ^ 32) ^ NB ≤ 2 * value TB) (hTA : TA.length = NA + 2)
    (hlt : value TA < (2 ^ 32) ^ NA * 2 ^ 63) :
    Reduced TB TA (NA - NB + 2) (reduce TB BT0 BT1 ((NA + 2 - NB) / 2) TA
      (replicate (NA - NB + 2) 0)) := by
  have hevenB := hTB.even
  have hrounds : 2 * ((NA + 2 - NB) / 2) = NA - NB + 2 := by omega
  have hroom := loop_room hevenB hNB hle hevenA htop hlt
  obtain ⟨hlen1, hlen2, hless, hall⟩ := @reduce_spec _ _ _ hTB ((NA + 2 - NB) / 2) TA
    (replicate (NA - NB + 2) 0) (by omega) (by rw [length_replicate]; omega) hroom
  refine ⟨hlen1, by rw [hlen2, length_replicate], hless, ?_⟩
  rw [hall, drop_eq_nil_of_le (by rw [length_replicate]; omega), value_nil,
    Nat.zero_mul, Nat.zero_add]

end

theorem Normalized.leading {TA TB : Words} {shiftBits : Nat}
    (h : Normalized A B TA TB shiftWords shiftBits) (hBeven : B.length % 2 = 0)
    (hB : 2 ≤ B.length) :
    LeadingWords TB (TB.getD (B.length - 2) 0 + 1)
      (TB.getD (B.length - 1) 0 + if TB.getD (B.length - 2) 0 + 1 = 0 then 1 else 0) := by
  have htopBit := h.topBit
  have hpos : 0 < (2 ^ 32) ^ B.length := Nat.pow_pos (by decide)
  rw [← h.lengthB] at hBeven hB ⊢
  exact leadingWords (by omega) hBeven hB

theorem Normalized.less {TA TB : Words} {shiftBits : Nat}
    (h : Normalized A B TA TB shiftWords shiftBits) : value TA < (2 ^ 32) ^ A.length * 2 ^ 63 := by
  rw [h.valueA]
  exact (Nat.mul_le_mul_left _ (shift_le h.words h.bits)).trans_lt
    (Nat.mul_lt_mul_of_pos_right (value_lt A) (Nat.two_pow_pos 63))

/-- What is left of the dividend, and its quotient, are those before the normalization. -/
theorem Reduced.denormalized {TA TB : Words} {shiftBits n : Nat}
    (h : Normalized A B TA TB shiftWords shiftBits) (hle : B.length ≤ A.length)
    {s : Words × Words} (hs : Reduced TB TA n s) :
    value s.2 = value A / value B ∧
      value (ShiftWordsRightByBits (part s.1 shiftWords B.length) shiftBits).1 =
        value A % value B := by
  have hSpos : 0 < (2 ^ 32) ^ shiftWords * 2 ^ shiftBits :=
    Nat.mul_pos (Nat.pow_pos (by decide)) (Nat.two_pow_pos _)
  have hsum := hs.sum
  have hless := hs.less
  have hlen := hs.lengthTA
  have hwords := h.words
  rw [h.lengthA] at hlen
  have hTBlt := value_lt TB
  rw [h.lengthB] at hTBlt
  have hquotient : value A / value B = value s.2 := by
    rw [← Nat.mul_div_mul_right _ _ hSpos, ← h.valueA, ← h.valueB, ← hsum, Nat.mul_comm,
      mul_add_div (by omega), div_eq_of_lt hless, Nat.add_zero]
  have hrest : value s.1 = value A % value B * ((2 ^ 32) ^ shiftWords * 2 ^ shiftBits) := by
    rw [← mul_mod_mul_right, ← h.valueA, ← h.valueB, ← hsum, Nat.add_comm,
      add_mul_mod_self_right, mod_eq_of_lt hless]
  refine ⟨hquotient.symm, ?_⟩
  have hfits : value s.1 / (2 ^ 32) ^ shiftWords < (2 ^ 32) ^ B.length :=
    (Nat.div_le_self _ _).trans_lt (hless.trans hTBlt)
  rw [ShiftWordsRightByBits_value h.bits, value_part (by omega), mod_eq_of_lt hfits,
    Nat.div_div_eq_div_mul, hrest, Nat.mul_div_cancel _ hSpos]

theorem Divide_spec (hA : A.length % 2 = 0) (hBeven : B.length % 2 = 0) (hB : 2 ≤ B.length)
    (hle : B.length ≤ A.length) (htop : (2 ^ 32) ^ (B.length - 2) ≤ value B) :
    (Divide A B).Q.length = A.length - B.length + 2 ∧ (Divide A B).R.length = B.length ∧
      value (Divide A B).Q = value A / value B ∧ value (Divide A B).R = value A % value B := by
  have hnorm := normalized (A := A) hB htop rfl rfl rfl
  unfold Divide
  simp only
  generalize hsw : (if B.getD (B.length - 1) 0 = 0 then 1 else 0) = shiftWords at *
  generalize hTB0 : replicate shiftWords 0 ++ B.take (B.length - shiftWords) = TB0 at *
  generalize hsb : WORD_BITS - BitPrecision (TB0.getD (B.length - 1) 0) = shiftBits at *
  generalize (ShiftWordsLeftByBits TB0 shiftBits).1 = TB at *
  generalize (ShiftWordsLeftByBits
    (replicate shiftWords 0 ++ A ++ replicate (2 - shiftWords) 0) shiftBits).1 = TA at *
  have hlead := hnorm.leading hBeven hB
  have hreduced : Reduced TB TA (A.length - B.length + 2)
      (if TA.getD (A.length + 1) 0 = 0 ∧ (TA.getD A.length 0).toNat ≤ 1 then
        let s := subtractWhile TB (· + 1) (value TA) (part TA (A.length - B.length) B.length)
          (TA.getD A.length 0) (0 : UInt32)
        reduce TB (TB.getD (B.length - 2) 0 + 1)
          (TB.getD (B.length - 1) 0 + if TB.getD (B.length - 2) 0 + 1 = 0 then 1 else 0)
          ((A.length - B.length) / 2) (writeAt TA (A.length - B.length) (s.1 ++ [s.2.1]))
          (writeAt (replicate (A.length - B.length + 2) 0) (A.length - B.length) [s.2.2, 0])
      else reduce TB (TB.getD (B.length - 2) 0 + 1)
        (TB.getD (B.length - 1) 0 + if TB.getD (B.length - 2) 0 + 1 = 0 then 1 else 0)
        ((A.length + 2 - B.length) / 2) TA (replicate (A.length - B.length + 2) 0)) := by
    by_cases hfirst : TA.getD (A.length + 1) 0 = 0 ∧ (TA.getD A.length 0).toNat ≤ 1
    · rw [if_pos hfirst]
      exact reduced_first hlead hnorm.lengthB hle hA hnorm.topBit hnorm.lengthA hfirst.1 hfirst.2
    · rw [if_neg hfirst]
      exact reduced_loop hlead hnorm.lengthB hle hA hnorm.topBit hnorm.lengthA hnorm.less
  obtain ⟨hQ, hR⟩ := hreduced.denormalized hnorm hle
  refine ⟨hreduced.lengthQ, ?_, hQ, hR⟩
  have hwords := hnorm.words
  rw [ShiftWordsRightByBits_length, part_length]
  rw [hreduced.lengthTA, hnorm.lengthA]
  omega

end OsSecurity

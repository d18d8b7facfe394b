/-
The assertions of `Divide`: what the debug build checks while it divides.

`Divide` and the functions that it calls are given once more, under their names, with what they
assert and what they only compute in the debug build.  A loop here also says whether it has ended
within the rounds that it is given.  That nothing stops the debug build means that both builds
do the same, and that the assertions hold.

(`Subtract` asserts that its size is even; the sizes here are `N` and `N+2`, and that `N` is even
is asserted by its callers.)
-/
import OsSecurity.Bigint.Divide
import OsSecurity.E32

namespace OsSecurity

open List Nat

namespace Debug

def assert (c : Prop) [Decidable c] : Leaving Unit := if c then .ok () else panic

theorem assert_bind {α : Type} {c : Prop} [Decidable c] (h : c) (f : Unit → Leaving α) :
    (assert c >>= f) = f () := by
  unfold assert
  rw [if_pos h]
  rfl

/-! ### Three words by two -/

def fixWhile (B0 B1 : UInt32) : Nat → Subatomic → Leaving Subatomic
  | 0, s =>
    if s.A2 ≠ 0 ∨ s.A1 > B1 ∨ (s.A1 = B1 ∧ s.A0 ≥ B0) then .error .undefined else .ok s
  | rounds + 1, s =>
    if s.A2 ≠ 0 ∨ s.A1 > B1 ∨ (s.A1 = B1 ∧ s.A0 ≥ B0) then
      assert ((s.fix B0 B1).Q ≠ 0) >>= fun _ => fixWhile B0 B1 rounds (s.fix B0 B1)
    else .ok s

def SubatomicDivide (A0 A1 A2 B0 B1 : UInt32) : Leaving Subatomic := do
  assert (A2 < B1 ∨ (A2 = B1 ∧ A1 < B0))
  let Q := subatomicEstimate A1 A2 B1
  let s := Subatomic.subtract ⟨A0, A1, A2, Q⟩ B0 B1 Q
  fixWhile B0 B1 s.rest s

section

variable {B0 B1 : UInt32}

theorem fixWhile_ok {s : Subatomic} (hB : 0 < value2 B0 B1) {rounds : Nat}
    (hrounds : s.rest / value2 B0 B1 ≤ rounds) (hQ : s.Q.toNat + s.rest / value2 B0 B1 < 2 ^ 32) :
    fixWhile B0 B1 rounds s = .ok (s.fixWhile B0 B1 rounds) := by
  induction rounds generalizing s with
  | zero =>
      have hlt := (div_eq_zero_iff_lt hB).mp (le_zero.mp hrounds)
      unfold fixWhile
      rw [if_neg (mt (Subatomic.goes_iff s B0 B1).mp (Nat.not_le.mpr hlt))]
      rfl
  | succ rounds ih =>
      unfold fixWhile Subatomic.fixWhile
      by_cases hgoes : value2 B0 B1 ≤ s.rest
      · rw [if_pos ((Subatomic.goes_iff s B0 B1).mpr hgoes),
          if_pos ((Subatomic.goes_iff s B0 B1).mpr hgoes)]
        obtain ⟨hdiv, hnext⟩ := Subatomic.fix_counts hB hgoes hQ
        have hne : (s.fix B0 B1).Q ≠ 0 := by
          intro hzero
          rw [hzero] at hnext
          exact absurd hnext (by simp)
        rw [assert_bind hne]
        exact ih (by omega) (by omega)
      · rw [if_neg (mt (Subatomic.goes_iff s B0 B1).mp hgoes),
          if_neg (mt (Subatomic.goes_iff s B0 B1).mp hgoes)]

theorem less_iff {A1 A2 : UInt32} :
    (A2 < B1 ∨ (A2 = B1 ∧ A1 < B0)) ↔ value2 A1 A2 < value2 B0 B1 := by
  have hA1 := A1.toNat_lt
  have hB0 := B0.toNat_lt
  rw [UInt32.lt_iff_toNat_lt, UInt32.lt_iff_toNat_lt, ← UInt32.toNat_inj]
  unfold value2
  omega

theorem SubatomicDivide_ok (A0 : UInt32) {A1 A2 : UInt32} (hB : 0 < value2 B0 B1)
    (h : value2 A1 A2 < value2 B0 B1) :
    SubatomicDivide A0 A1 A2 B0 B1 = .ok (OsSecurity.SubatomicDivide A0 A1 A2 B0 B1) := by
  obtain ⟨-, -, hroom⟩ := subatomicEstimate_taken A0 hB h rfl
  unfold SubatomicDivide OsSecurity.SubatomicDivide
  rw [assert_bind (less_iff.mpr h)]
  exact fixWhile_ok hB (Nat.div_le_self _ _) hroom

/-! ### Four words by two -/

def AtomicDivide (A0 A1 A2 A3 B0 B1 : UInt32) : Leaving (UInt32 × UInt32) :=
  if B0 = 0 ∧ B1 = 0 then .ok (A2, A3)
  else do
    let high ← SubatomicDivide A1 A2 A3 B0 B1
    let low ← SubatomicDivide A0 high.A0 high.A1 B0 B1
    -- what is left is in `T`
    assert (low.A2 = 0 ∧ high.A2 = 0 ∧ (low.A1 < B1 ∨ (low.A1 = B1 ∧ low.A0 < B0)))
    assert ((Add (AtomicMultiply low.Q high.Q B0 B1) [low.A0, low.A1, low.A2, high.A2]).1 =
      [A0, A1, A2, A3])
    return (low.Q, high.Q)

/-- What is left of three words has two. -/
theorem rest_two {s : Subatomic} (h : s.rest < value2 B0 B1) :
    s.A2 = 0 ∧ s.rest = value2 s.A0 s.A1 := by
  have hBlt := value2_lt B0 B1
  have hrest := Subatomic.rest_eq s
  have hA2 : s.A2.toNat = 0 := by omega
  refine ⟨UInt32.toNat_inj.mp hA2, ?_⟩
  rw [hrest, hA2]
  rfl

theorem value_four (W0 W1 W2 W3 : UInt32) :
    value [W0, W1, W2, W3] = value2 W0 W1 + 2 ^ 64 * value2 W2 W3 := by
  simp only [value_cons, value_nil, value2]
  ring

theorem AtomicDivide_ok {A0 A1 A2 A3 : UInt32} {d : Nat}
    (hB : value2 B0 B1 = d ∨ value2 B0 B1 = 0 ∧ d = 2 ^ 64) (h : value2 A2 A3 < d) :
    AtomicDivide A0 A1 A2 A3 B0 B1 = .ok (OsSecurity.AtomicDivide A0 A1 A2 A3 B0 B1) := by
  unfold AtomicDivide OsSecurity.AtomicDivide
  by_cases hzero : B0 = 0 ∧ B1 = 0
  · rw [if_pos hzero, if_pos hzero]
  · rw [if_neg hzero, if_neg hzero]
    have hne : value2 B0 B1 ≠ 0 := mt value2_eq_zero.mp hzero
    have hpos : 0 < value2 B0 B1 := Nat.pos_of_ne_zero hne
    have hd : value2 B0 B1 = d := hB.resolve_right fun hfull => hne hfull.1
    rw [← hd] at h
    rw [SubatomicDivide_ok A1 hpos h, ok_bind]
    obtain ⟨hQ1, hrest1⟩ := SubatomicDivide_spec A1 hpos h
    have hlt1 := mod_lt (A1.toNat + 2 ^ 32 * value2 A2 A3) hpos
    simp only
    generalize OsSecurity.SubatomicDivide A1 A2 A3 B0 B1 = high at *
    rw [← hrest1] at hlt1
    obtain ⟨hhigh2, hhigh⟩ := rest_two hlt1
    rw [hhigh] at hlt1 hrest1
    rw [SubatomicDivide_ok A0 hpos hlt1, ok_bind]
    obtain ⟨hQ0, hrest0⟩ := SubatomicDivide_spec A0 hpos hlt1
    have hlt0 := mod_lt (A0.toNat + 2 ^ 32 * value2 high.A0 high.A1) hpos
    generalize OsSecurity.SubatomicDivide A0 high.A0 high.A1 B0 B1 = low at *
    rw [← hrest0] at hlt0
    obtain ⟨hlow2, hlow⟩ := rest_two hlt0
    rw [hlow] at hlt0 hrest0
    rw [assert_bind ⟨hlow2, hhigh2, less_iff.mpr hlt0⟩]
    -- the quotient times the divisor, and what is left, are the dividend
    have hsum : value2 low.Q high.Q * value2 B0 B1 + value2 low.A0 low.A1 =
        value2 A0 A1 + 2 ^ 64 * value2 A2 A3 := by
      have hdiv1 := mod_add_div (A1.toNat + 2 ^ 32 * value2 A2 A3) (value2 B0 B1)
      have hdiv0 := mod_add_div (A0.toNat + 2 ^ 32 * value2 high.A0 high.A1) (value2 B0 B1)
      rw [← hrest1, ← hQ1] at hdiv1
      rw [← hrest0, ← hQ0] at hdiv0
      unfold value2 at hdiv0 hdiv1 ⊢
      linear_combination hdiv0 + 2 ^ 32 * hdiv1
    have hlen : (AtomicMultiply low.Q high.Q B0 B1).length =
        [low.A0, low.A1, low.A2, high.A2].length := rfl
    have hfour : (AtomicMultiply low.Q high.Q B0 B1).length = 4 := rfl
    obtain ⟨-, hadd⟩ := Add_value hlen
    have hlt := value_lt (Add (AtomicMultiply low.Q high.Q B0 B1)
      [low.A0, low.A1, low.A2, high.A2]).1
    rw [Add_length hlen, hfour] at hlt
    have hrest : value [low.A0, low.A1, low.A2, high.A2] = value2 low.A0 low.A1 := by
      rw [value_four, hlow2, hhigh2]
      rfl
    rw [AtomicMultiply_value, hrest, hsum, hfour] at hadd
    have hwords : (Add (AtomicMultiply low.Q high.Q B0 B1)
        [low.A0, low.A1, low.A2, high.A2]).1 = [A0, A1, A2, A3] := by
      refine value_inj ((Add_length hlen).trans rfl) ?_
      have h01 := value2_lt A0 A1
      have h23 := value2_lt A2 A3
      rw [value_four]
      omega
    rw [assert_bind hwords]
    rfl

/-! ### A digit of the quotient -/

/-- The loops of `CorrectQuotientEstimate` and `Divide`, where `holds` is asserted of what is
counted. -/
def subtractWhile {Q : Type} (B : Words) (next : Q → Q) (holds : Q → Prop) [DecidablePred holds] :
    Nat → Words → UInt32 → Q → Leaving (Words × UInt32 × Q)
  | 0, R, top, q => if top ≠ 0 ∨ Compare R B ≥ 0 then .error .undefined else .ok (R, top, q)
  | rounds + 1, R, top, q =>
    if top ≠ 0 ∨ Compare R B ≥ 0 then
      assert (holds (next q)) >>= fun _ =>
        subtractWhile B next holds rounds (Subtract R B).1 (top - (Subtract R B).2) (next q)
    else .ok (R, top, q)

def CorrectQuotientEstimate (R : Words) (Q : UInt32 × UInt32) (B : Words) :
    Leaving (Words × (UInt32 × UInt32)) := do
  let N := B.length
  assert (N ≠ 0 ∧ N % 2 = 0)
  let (D, borrow) := Subtract R (multiplyByQuotient Q.1 Q.2 B)
  assert (borrow = 0 ∧ D.getD (N + 1) 0 = 0)
  let (low, top, Q) ← subtractWhile B incrementPair (fun Q => Q.1 ≠ 0 ∨ Q.2 ≠ 0) (value D)
    (D.take N) (D.getD N 0) Q
  return (low ++ top :: D.drop (N + 1), Q)

theorem subtractWhile_ok {Q : Type} {B R : Words} {top : UInt32} {next : Q → Q} {holds : Q → Prop}
    [DecidablePred holds] (hB : 0 < value B) {rounds : Nat} {q : Q} (hlen : R.length = B.length)
    (hrounds : value (R ++ [top]) / value B ≤ rounds)
    (hholds : ∀ n < value (R ++ [top]) / value B, holds (next^[n + 1] q)) :
    subtractWhile B next holds rounds R top q =
      .ok (OsSecurity.subtractWhile B next rounds R top q) := by
  induction rounds generalizing R top q with
  | zero =>
      have hlt := (div_eq_zero_iff_lt hB).mp (le_zero.mp hrounds)
      unfold subtractWhile
      rw [if_neg (mt (goes_iff hlen).mp (Nat.not_le.mpr hlt))]
      rfl
  | succ rounds ih =>
      unfold subtractWhile OsSecurity.subtractWhile
      by_cases hgoes : value B ≤ value (R ++ [top])
      · have hsub := value_subtract hlen hgoes
        rw [if_pos ((goes_iff hlen).mpr hgoes), if_pos ((goes_iff hlen).mpr hgoes)]
        rw [← hsub, add_div_right _ hB] at hrounds hholds
        have hfirst : holds (next q) := hholds 0 (succ_pos _)
        rw [assert_bind hfirst]
        apply ih ((Subtract_length hlen).trans hlen) (le_of_succ_le_succ hrounds)
        intro n hn
        exact hholds (n + 1) (succ_lt_succ hn)
      · rw [if_neg (mt (goes_iff hlen).mp hgoes), if_neg (mt (goes_iff hlen).mp hgoes)]

theorem CorrectQuotientEstimate_ok {R B : Words} {Q : UInt32 × UInt32} (hB : 0 < value B)
    (heven : B.length % 2 = 0) (hlen : R.length = B.length + 2)
    (hle : value2 Q.1 Q.2 ≤ value R / value B) (hlt : value R / value B < 2 ^ 64)
    (hrest : value R < value2 Q.1 Q.2 * value B + (2 ^ 32) ^ (B.length + 1)) :
    CorrectQuotientEstimate R Q B = .ok (OsSecurity.CorrectQuotientEstimate R Q B) := by
  have h := subtractEstimate hB heven hlen hle hrest
  have hDlen := h.length
  have hdiv := h.quotient
  unfold CorrectQuotientEstimate OsSecurity.CorrectQuotientEstimate
  simp only
  generalize Subtract R (multiplyByQuotient Q.1 Q.2 B) = D at *
  have htop : D.1.getD (B.length + 1) 0 = 0 := by
    have hhigh := h.high
    rw [drop_eq_getElem_cons (by omega), value_cons] at hhigh
    rw [getD_eq_getElem?_getD, getElem?_eq_getElem (by omega), Option.getD_some]
    exact UInt32.toNat_inj.mp (by rw [UInt32.toNat_zero]; omega)
  rw [assert_bind ⟨fun hzero => h.nonempty (eq_nil_of_length_eq_zero hzero), heven⟩,
    assert_bind ⟨h.borrow, htop⟩]
  rw [subtractWhile_ok hB (length_take_of_le (by omega)) h.rounds]
  · rfl
  · -- what is counted stays below 2^64, and is not zero
    intro n hn
    have hcount := @value2_iterate (n + 1) Q (by omega)
    by_contra hzero
    rw [not_or, not_not, not_not] at hzero
    rw [value2_eq_zero.mpr hzero] at hcount
    omega

/-! ### All digits -/

def reduce (TB : Words) (BT0 BT1 : UInt32) : Nat → Words → Words → Leaving (Words × Words)
  | 0, TA, Q => .ok (TA, Q)
  | rounds + 1, TA, Q => do
    let i := TB.length + 2 * rounds
    let Qi ← AtomicDivide (TA.getD (i - 2) 0) (TA.getD (i - 1) 0) (TA.getD i 0)
      (TA.getD (i + 1) 0) BT0 BT1
    let (R, Qi) ← CorrectQuotientEstimate (part TA (i - TB.length) (TB.length + 2)) Qi TB
    reduce TB BT0 BT1 rounds (writeAt TA (i - TB.length) R)
      (writeAt Q (i - TB.length) [Qi.1, Qi.2])

def Divide (A B : Words) : Leaving QuotientAndRemainder := do
  let NA := A.length
  let NB := B.length
  assert (NA ≠ 0 ∧ NB ≠ 0 ∧ NA % 2 = 0 ∧ NB % 2 = 0)
  assert (B.getD (NB - 1) 0 ≠ 0 ∨ B.getD (NB - 2) 0 ≠ 0)
  assert (NB ≤ NA)
  -- `B` is copied into `TB` and normalized so that its highest bit is 1
  let shiftWords := if B.getD (NB - 1) 0 = 0 then 1 else 0
  let TB := replicate shiftWords 0 ++ B.take (NB - shiftWords)
  let shiftBits := WORD_BITS - BitPrecision (TB.getD (NB - 1) 0)
  assert (shiftBits < WORD_BITS)
  let TB := (ShiftWordsLeftByBits TB shiftBits).1
  -- `A` is copied into `TA` and normalized
  let TA := replicate shiftWords 0 ++ A ++ replicate (2 - shiftWords) 0
  let TA := (ShiftWordsLeftByBits TA shiftBits).1
  let Q := replicate (NA - NB + 2) 0
  let BT0 := TB.getD (NB - 2) 0 + 1
  let BT1 := TB.getD (NB - 1) 0 + if BT0 = 0 then 1 else 0
  let (TA, Q) ← (
    if TA.getD (NA + 1) 0 = 0 ∧ (TA.getD NA 0).toNat ≤ 1 then do
      let (R, top, q) ← subtractWhile TB (· + 1) (fun _ => True) (value TA) (part TA (NA - NB) NB)
        (TA.getD NA 0) (0 : UInt32)
      reduce TB BT0 BT1 ((NA - NB) / 2) (writeAt TA (NA - NB) (R ++ [top]))
        (writeAt Q (NA - NB) [q, 0])
    else do
      assert (Compare (part TA (NA + 2 - NB) NB) TB < 0)
      reduce TB BT0 BT1 ((NA + 2 - NB) / 2) TA Q)
  -- `TA` is copied into `R`, and denormalized
  return { R := (ShiftWordsRightByBits (part TA shiftWords NB) shiftBits).1, Q := Q }

variable {TB TA : Words} {BT0 BT1 : UInt32} {NA NB : Nat}

theorem reduce_ok (hTB : LeadingWords TB BT0 BT1) (rounds : Nat) {TA Q : Words}
    (hTA : TB.length + 2 * rounds ≤ TA.length) (hlt : value TA < value TB * (2 ^ 64) ^ rounds) :
    reduce TB BT0 BT1 rounds TA Q = .ok (OsSecurity.reduce TB BT0 BT1 rounds TA Q) := by
  induction rounds generalizing TA Q with
  | zero => rfl
  | succ rounds ih =>
      have hi : TB.length + 2 * rounds - TB.length = 2 * rounds := Nat.add_sub_cancel_left _ _
      have hwindow := window hTA hlt
      have hA := leadingFour TA rounds hTB.two (by omega)
      have hestimated := estimated hTB hwindow.less hA
      have hdigit := CorrectQuotientEstimate_ok hTB.pos hTB.even hwindow.length hestimated.le
        hestimated.quotient hestimated.rest
      obtain ⟨hRlen, hR, -⟩ := digit_spec hTB hwindow.length hwindow.less hA
      rw [hwindow.length] at hRlen
      obtain ⟨hTA1len, -, hlt1⟩ := hwindow.next hTA hTB.pos hRlen hR
      unfold reduce OsSecurity.reduce
      simp only [hi]
      rw [AtomicDivide_ok hTB.leading hestimated.high, ok_bind, hdigit, ok_bind]
      exact ih (by omega) hlt1

/-- The leading words of `TA` are less than `TB`. -/
theorem leading_less (htop : (2 ^ 32) ^ NB ≤ 2 * value TB) (hNB : TB.length = NB) (htwo : 2 ≤ NB)
    (hle : NB ≤ NA) (hTA : TA.length = NA + 2) (hlt : value TA < (2 ^ 32) ^ NA * 2 ^ 63) :
    Compare (part TA (NA + 2 - NB) NB) TB < 0 := by
  have hlen := part_length (A := TA) (j := NA + 2 - NB) (n := NB) (by omega)
  rw [← not_le, ← ge_iff_le, Compare_nonneg (hlen.trans hNB.symm), not_le]
  have hsplit := value_split (A := TA) (j := NA + 2 - NB) (n := NB) (by omega)
  have hexp : (2 ^ 32) ^ NA = (2 ^ 32) ^ (NA + 2 - NB) * (2 ^ 32) ^ (NB - 2) := by
    rw [← pow_add]
    congr 1
    omega
  have htopExp : (2 ^ 32) ^ NB = (2 ^ 32) ^ (NB - 2) * 2 ^ 64 := by
    have hsum : NB = NB - 2 + 2 := by omega
    rw [hsum, pow_add, Nat.add_sub_cancel]
    rfl
  have hpart : value (part TA (NA + 2 - NB) NB) < (2 ^ 32) ^ (NB - 2) * 2 ^ 63 := by
    apply Nat.lt_of_mul_lt_mul_left (a := (2 ^ 32) ^ (NA + 2 - NB))
    rw [← Nat.mul_assoc, ← hexp]
    have hmul := Nat.mul_add ((2 ^ 32) ^ (NA + 2 - NB)) (value (part TA (NA + 2 - NB) NB))
      ((2 ^ 32) ^ NB * value (TA.drop (NA + 2 - NB + NB)))
    omega
  omega

theorem Divide_ok {A B : Words} (hA : A.length % 2 = 0) (hBeven : B.length % 2 = 0)
    (hB : 2 ≤ B.length) (hle : B.length ≤ A.length) (htop : (2 ^ 32) ^ (B.length - 2) ≤ value B) :
    Divide A B = .ok (OsSecurity.Divide A B) := by
  have hnorm := normalized (A := A) hB htop rfl rfl rfl
  unfold Divide OsSecurity.Divide
  simp only
  rw [assert_bind ⟨by omega, by omega, hA, hBeven⟩, assert_bind ((leading_pos_iff hB).mpr htop),
    assert_bind hle, assert_bind (show _ < WORD_BITS from hnorm.bits)]
  generalize hsw : (if B.getD (B.length - 1) 0 = 0 then 1 else 0) = shiftWords at *
  generalize hTB0 : replicate shiftWords 0 ++ B.take (B.length - shiftWords) = TB0 at *
  generalize hsb : WORD_BITS - BitPrecision (TB0.getD (B.length - 1) 0) = shiftBits at *
  generalize (ShiftWordsLeftByBits TB0 shiftBits).1 = TB at *
  generalize (ShiftWordsLeftByBits
    (replicate shiftWords 0 ++ A ++ replicate (2 - shiftWords) 0) shiftBits).1 = TA at *
  have hlead := hnorm.leading hBeven hB
  have hTAlen := hnorm.lengthA
  have hTBlen := hnorm.lengthB
  by_cases hfirst : TA.getD (A.length + 1) 0 = 0 ∧ (TA.getD A.length 0).toNat ≤ 1
  · rw [if_pos hfirst, if_pos hfirst]
    obtain ⟨R, q, hloop, htaken⟩ := first_spec hlead hTBlen hle hA hnorm.topBit hTAlen hfirst.1
      hfirst.2
    rw [subtractWhile_ok hlead.pos
      ((part_length (A := TA) (j := A.length - B.length) (by omega)).trans hTBlen.symm)
      htaken.enough (fun _ _ => trivial), ok_bind, hloop]
    have hlen := htaken.length
    simp only
    rw [reduce_ok hlead _ (by omega) htaken.less]
    rfl
  · have hless := leading_less hnorm.topBit hTBlen hB hle hTAlen hnorm.less
    rw [if_neg hfirst, if_neg hfirst, assert_bind hless,
      reduce_ok hlead _ (by omega) (loop_room hlead.even hTBlen hle hA hnorm.topBit hnorm.less)]
    rfl

end

end Debug

/-- **`Divide` is exact, in both builds**: no assertion fails and every loop ends, and the results
are the quotient and the remainder. -/
theorem Divide_exact {A B : Words} (hA : A.length % 2 = 0) (hB : B.length % 2 = 0)
    (hle : B.length ≤ A.length)
    (htop : B.getD (B.length - 1) 0 ≠ 0 ∨ B.getD (B.length - 2) 0 ≠ 0) :
    ∃ R Q, Debug.Divide A B = .ok ⟨R, Q⟩ ∧ Divide A B = ⟨R, Q⟩ ∧ R.length = B.length ∧
      Q.length = A.length - B.length + 2 ∧ value A = value Q * value B + value R ∧
      value R < value B := by
  have htwo : 2 ≤ B.length := by
    by_contra hnot
    have hnil : B = [] := eq_nil_of_length_eq_zero (by omega)
    rw [hnil] at htop
    simp at htop
  have hlead := (leading_pos_iff htwo).mp htop
  have hpos : 0 < value B := Nat.lt_of_lt_of_le (Nat.pow_pos (by decide)) hlead
  obtain ⟨hQlen, hRlen, hQ, hR⟩ := Divide_spec hA hB htwo hle hlead
  have hok := Debug.Divide_ok hA hB htwo hle hlead
  generalize Divide A B = divided at *
  obtain ⟨R, Q⟩ := divided
  refine ⟨R, Q, hok, rfl, hRlen, hQlen, ?_, ?_⟩
  · rw [hQ, hR]
    exact (div_add_mod' _ _).symm
  · rw [hR]
    exact mod_lt _ hpos

/-- Four words by two, of which the quotient has a word that is full. -/
theorem Divide_exact_full :
    ∃ R Q, Debug.Divide [0, 0, 0, 1] [1, 1] = .ok ⟨R, Q⟩ ∧ Divide [0, 0, 0, 1] [1, 1] = ⟨R, Q⟩ ∧
      R.length = 2 ∧ Q.length = 4 ∧ value [0, 0, 0, 1] = value Q * value [1, 1] + value R ∧
      value R < value [1, 1] :=
  Divide_exact rfl rfl (by decide) (by decide)

end OsSecurity

/-
Two words of a quotient: `SubatomicDivide` to `CorrectQuotientEstimate` of `algorithms.cpp`.

They are found from four words of the dividend and the two leading words of the divisor, counted
one up.  `CorrectQuotientEstimate` takes off the estimate and then the divisor until it no
longer goes.

The loops that take a divisor off come with a number of rounds that is enough: the number that
gets smaller.
-/
import OsSecurity.Bigint.Atomic
import OsSecurity.Library.LongDivision

namespace OsSecurity

open List Nat UInt32

/-! ### Three words by two -/

/-- `A`, and the quotient so far. -/
structure Subatomic where
  A0 : UInt32
  A1 : UInt32
  A2 : UInt32
  Q : UInt32

namespace Subatomic

/-- The number in `A`. -/
def rest (s : Subatomic) : Nat := value [s.A0, s.A1, s.A2]

/-- `Q * B` is subtracted from `A`. -/
def subtract (s : Subatomic) (B0 B1 Q : UInt32) : Subatomic :=
  let p := B0.toNat * Q.toNat
  let u := dword (s.A0.toNat - (LOW_WORD p).toNat)
  let v := dword (s.A1.toNat - (HIGH_WORD p).toNat - (0 - HIGH_WORD u).toNat -
    B1.toNat * Q.toNat)
  { s with A0 := LOW_WORD u, A1 := LOW_WORD v, A2 := s.A2 + HIGH_WORD v }

/-- One round of the loop that fixes the quotient. -/
def fix (s : Subatomic) (B0 B1 : UInt32) : Subatomic :=
  let u := dword (s.A0.toNat - B0.toNat)
  let v := dword (s.A1.toNat - B1.toNat - (0 - HIGH_WORD u).toNat)
  { A0 := LOW_WORD u, A1 := LOW_WORD v, A2 := s.A2 + HIGH_WORD v, Q := s.Q + 1 }

def fixWhile (B0 B1 : UInt32) : Nat → Subatomic → Subatomic
  | 0, s => s
  | rounds + 1, s =>
    if s.A2 ≠ 0 ∨ s.A1 > B1 ∨ (s.A1 = B1 ∧ s.A0 ≥ B0) then fixWhile B0 B1 rounds (s.fix B0 B1)
    else s

end Subatomic

/-- The quotient is estimated with the upper word of the divisor. -/
def subatomicEstimate (A1 A2 B1 : UInt32) : UInt32 :=
  if B1 + 1 = 0 then A2
  else ofNat ((A1.toNat + A2.toNat * 2 ^ 32) / (B1 + 1).toNat)

def SubatomicDivide (A0 A1 A2 B0 B1 : UInt32) : Subatomic :=
  let Q := subatomicEstimate A1 A2 B1
  let s := Subatomic.subtract ⟨A0, A1, A2, Q⟩ B0 B1 Q
  s.fixWhile B0 B1 s.rest

namespace Subatomic

variable {s : Subatomic} {B0 B1 Q : UInt32}

theorem rest_eq (s : Subatomic) :
    s.rest = s.A0.toNat + 2 ^ 32 * (s.A1.toNat + 2 ^ 32 * s.A2.toNat) := by
  simp [rest, value_cons]

theorem rest_subtract (h : value2 B0 B1 * Q.toNat ≤ s.rest) :
    (s.subtract B0 B1 Q).rest + value2 B0 B1 * Q.toNat = s.rest := by
  have hA0 := s.A0.toNat_lt
  have hA1 := s.A1.toNat_lt
  have hA2 := s.A2.toNat_lt
  have hp := word_mul_lt B0 Q
  have hm := word_mul_lt B1 Q
  have hpw := low_high (hp.trans_lt (by decide))
  have hmul : value2 B0 B1 * Q.toNat = B0.toNat * Q.toNat + 2 ^ 32 * (B1.toNat * Q.toNat) := by
    unfold value2
    ring
  rw [hmul] at h ⊢
  rw [rest_eq, rest_eq] at *
  unfold subtract
  simp only
  have hcast : (B1.toNat : Int) * Q.toNat = (B1.toNat * Q.toNat : Nat) := by push_cast; rfl
  rw [hcast]
  generalize B0.toNat * Q.toNat = p at *
  generalize B1.toNat * Q.toNat = m at *
  have hpl := (LOW_WORD p).toNat_lt
  have hph := (HIGH_WORD p).toNat_lt
  generalize (LOW_WORD p).toNat = pl at *
  generalize (HIGH_WORD p).toNat = ph at *
  have hu := dword_cast ((s.A0.toNat : Int) - pl)
  generalize dword ((s.A0.toNat : Int) - pl) = u at *
  have hborrow := zero_sub_toNat (HIGH_WORD u)
  rw [HIGH_WORD_toNat] at hborrow
  generalize (0 - HIGH_WORD u).toNat = borrow at *
  have hv := dword_cast ((s.A1.toNat : Int) - ph - borrow - m)
  generalize dword ((s.A1.toNat : Int) - ph - borrow - m) = v at *
  rw [LOW_WORD_toNat, LOW_WORD_toNat, UInt32.toNat_add, HIGH_WORD_toNat]
  generalize s.A0.toNat = A0 at *
  generalize s.A1.toNat = A1 at *
  generalize s.A2.toNat = A2 at *
  have hul : (u % 2 ^ 32 : Nat) - (2 ^ 32 : Int) * borrow = A0 - pl := by omega
  generalize u % 2 ^ 32 = ul at *
  omega

theorem rest_fix (h : value2 B0 B1 ≤ s.rest) : (s.fix B0 B1).rest + value2 B0 B1 = s.rest := by
  have hA0 := s.A0.toNat_lt
  have hA1 := s.A1.toNat_lt
  have hA2 := s.A2.toNat_lt
  have hB0 := B0.toNat_lt
  have hB1 := B1.toNat_lt
  have hu := dword_cast ((s.A0.toNat : Int) - B0.toNat)
  rw [rest_eq, rest_eq] at *
  unfold value2 at *
  unfold fix
  simp only
  generalize dword ((s.A0.toNat : Int) - B0.toNat) = u at *
  have hborrow := zero_sub_toNat (HIGH_WORD u)
  rw [HIGH_WORD_toNat] at hborrow
  generalize (0 - HIGH_WORD u).toNat = borrow at *
  have hv := dword_cast ((s.A1.toNat : Int) - B1.toNat - borrow)
  generalize dword ((s.A1.toNat : Int) - B1.toNat - borrow) = v at *
  rw [LOW_WORD_toNat, LOW_WORD_toNat, UInt32.toNat_add, HIGH_WORD_toNat]
  omega

theorem goes_iff (s : Subatomic) (B0 B1 : UInt32) :
    (s.A2 ≠ 0 ∨ s.A1 > B1 ∨ (s.A1 = B1 ∧ s.A0 ≥ B0)) ↔ value2 B0 B1 ≤ s.rest := by
  have hA0 := s.A0.toNat_lt
  have hB0 := B0.toNat_lt
  have hB1 := B1.toNat_lt
  have hzero : s.A2 = 0 ↔ s.A2.toNat = 0 := UInt32.toNat_inj.symm
  have hmore : s.A1 > B1 ↔ B1.toNat < s.A1.toNat := lt_iff_toNat_lt
  have hsame : s.A1 = B1 ↔ s.A1.toNat = B1.toNat := UInt32.toNat_inj.symm
  have hge : s.A0 ≥ B0 ↔ B0.toNat ≤ s.A0.toNat := le_iff_toNat_le
  rw [rest_eq, ne_eq, hzero, hmore, hsame, hge]
  unfold value2
  omega

/-- The divisor goes once less, and is counted. -/
theorem fix_counts (hB : 0 < value2 B0 B1) (hgoes : value2 B0 B1 ≤ s.rest)
    (hQ : s.Q.toNat + s.rest / value2 B0 B1 < 2 ^ 32) :
    s.rest / value2 B0 B1 = (s.fix B0 B1).rest / value2 B0 B1 + 1 ∧
      (s.fix B0 B1).Q.toNat = s.Q.toNat + 1 := by
  have hdiv : s.rest / value2 B0 B1 = (s.fix B0 B1).rest / value2 B0 B1 + 1 := by
    rw [← rest_fix hgoes, add_div_right _ hB]
  rw [hdiv, ← Nat.add_assoc, Nat.add_right_comm] at hQ
  refine ⟨hdiv, ?_⟩
  show (s.Q + 1).toNat = _
  rw [UInt32.toNat_add, toNat_one, mod_eq_of_lt ((Nat.le_add_right _ _).trans_lt hQ)]

/-- The rounds are as many as the divisor goes. -/
theorem fixWhile_spec (hB : 0 < value2 B0 B1) {rounds : Nat}
    (hrounds : s.rest / value2 B0 B1 ≤ rounds) (hQ : s.Q.toNat + s.rest / value2 B0 B1 < 2 ^ 32) :
    (s.fixWhile B0 B1 rounds).rest = s.rest % value2 B0 B1 ∧
      (s.fixWhile B0 B1 rounds).Q.toNat = s.Q.toNat + s.rest / value2 B0 B1 := by
  induction rounds generalizing s with
  | zero =>
      have hzero : s.rest / value2 B0 B1 = 0 := le_zero.mp hrounds
      have hlt := (div_eq_zero_iff_lt hB).mp hzero
      rw [hzero, mod_eq_of_lt hlt]
      exact ⟨rfl, rfl⟩
  | succ rounds ih =>
      unfold fixWhile
      by_cases hgoes : value2 B0 B1 ≤ s.rest
      · rw [if_pos ((goes_iff s B0 B1).mpr hgoes)]
        obtain ⟨hdiv, hnext⟩ := fix_counts hB hgoes hQ
        have hmod : s.rest % value2 B0 B1 = (s.fix B0 B1).rest % value2 B0 B1 := by
          rw [← rest_fix hgoes, add_mod_right]
        obtain ⟨hrest, hquotient⟩ := ih (s := s.fix B0 B1) (by omega) (by omega)
        refine ⟨by rw [hrest, hmod], ?_⟩
        rw [hquotient, hnext, hdiv]
        omega
      · have hlt := Nat.not_le.mp hgoes
        rw [if_neg (mt (goes_iff s B0 B1).mp hgoes), mod_eq_of_lt hlt, div_eq_of_lt hlt]
        exact ⟨rfl, rfl⟩

end Subatomic

/-- The estimate is not too large. -/
theorem subatomicEstimate_le {A0 A1 A2 B0 B1 : UInt32} (hB : 0 < value2 B0 B1) :
    (subatomicEstimate A1 A2 B1).toNat ≤
      (A0.toNat + 2 ^ 32 * value2 A1 A2) / value2 B0 B1 := by
  have hA0 := A0.toNat_lt
  have hA1 := A1.toNat_lt
  have hB0 := B0.toNat_lt
  have hB1 := B1.toNat_lt
  have hA : value2 A1 A2 = A1.toNat + 2 ^ 32 * A2.toNat := rfl
  have hlow : (A0.toNat + 2 ^ 32 * value2 A1 A2) / 2 ^ 32 = value2 A1 A2 := by omega
  have hup : value2 B0 B1 ≤ (B1.toNat + 1) * 2 ^ 32 := by
    unfold value2
    omega
  have hestimate := LongDivision.estimate_le (R := A0.toNat + 2 ^ 32 * value2 A1 A2) hB hup
  rw [hlow] at hestimate
  have hone : (B1 + 1).toNat = (B1.toNat + 1) % 2 ^ 32 := UInt32.toNat_add B1 1
  apply Nat.le_trans _ hestimate
  unfold subatomicEstimate
  by_cases hfull : B1 + 1 = 0
  · have hzero : (B1 + 1).toNat = 0 := by rw [hfull]; rfl
    have hB1full : B1.toNat + 1 = 2 ^ 32 := by omega
    rw [if_pos hfull, hB1full]
    omega
  · have hne : (B1 + 1).toNat ≠ 0 := fun hzero => hfull (UInt32.toNat_inj.mp hzero)
    have hnowrap : (B1 + 1).toNat = B1.toNat + 1 := by omega
    rw [if_neg hfull, hnowrap, toNat_ofNat', Nat.mul_comm A2.toNat]
    exact mod_le _ _

/-- The estimate has been taken off: what is still to be counted fits in the quotient. -/
theorem subatomicEstimate_taken (A0 : UInt32) {A1 A2 B0 B1 : UInt32} (hB : 0 < value2 B0 B1)
    (h : value2 A1 A2 < value2 B0 B1) {s : Subatomic}
    (hs : Subatomic.subtract ⟨A0, A1, A2, subatomicEstimate A1 A2 B1⟩ B0 B1
      (subatomicEstimate A1 A2 B1) = s) :
    s.Q.toNat + s.rest / value2 B0 B1 = (A0.toNat + 2 ^ 32 * value2 A1 A2) / value2 B0 B1 ∧
      s.rest % value2 B0 B1 = (A0.toNat + 2 ^ 32 * value2 A1 A2) % value2 B0 B1 ∧
      s.Q.toNat + s.rest / value2 B0 B1 < 2 ^ 32 := by
  have hestimate := @subatomicEstimate_le A0 A1 A2 B0 B1 hB
  have hA0 := A0.toNat_lt
  have hstart : (⟨A0, A1, A2, subatomicEstimate A1 A2 B1⟩ : Subatomic).rest =
      A0.toNat + 2 ^ 32 * value2 A1 A2 := Subatomic.rest_eq _
  have hquotient : (A0.toNat + 2 ^ 32 * value2 A1 A2) / value2 B0 B1 < 2 ^ 32 := by
    apply Nat.div_lt_of_lt_mul
    calc A0.toNat + 2 ^ 32 * value2 A1 A2 < 2 ^ 32 * (value2 A1 A2 + 1) := by omega
      _ ≤ value2 B0 B1 * 2 ^ 32 := by
          rw [Nat.mul_comm (value2 B0 B1)]
          exact Nat.mul_le_mul_left _ h
  have hgoes : value2 B0 B1 * (subatomicEstimate A1 A2 B1).toNat ≤
      A0.toNat + 2 ^ 32 * value2 A1 A2 := by
    rw [Nat.mul_comm]
    exact (Nat.le_div_iff_mul_le hB).mp hestimate
  have hsub := Subatomic.rest_subtract (s := ⟨A0, A1, A2, subatomicEstimate A1 A2 B1⟩)
    (hstart ▸ hgoes)
  have hsame : s.Q = subatomicEstimate A1 A2 B1 := by
    rw [← hs]
    rfl
  rw [hs, hstart] at hsub
  rw [hsame]
  generalize subatomicEstimate A1 A2 B1 = Q at *
  generalize A0.toNat + 2 ^ 32 * value2 A1 A2 = A at *
  have hdiv : A / value2 B0 B1 = s.rest / value2 B0 B1 + Q.toNat := by
    rw [← hsub, add_mul_div_left _ _ hB]
  have hmod : A % value2 B0 B1 = s.rest % value2 B0 B1 := by
    rw [← hsub, add_mul_mod_self_left]
  exact ⟨by rw [hdiv, Nat.add_comm], hmod.symm, by omega⟩

theorem SubatomicDivide_spec (A0 : UInt32) {A1 A2 B0 B1 : UInt32} (hB : 0 < value2 B0 B1)
    (h : value2 A1 A2 < value2 B0 B1) :
    (SubatomicDivide A0 A1 A2 B0 B1).Q.toNat =
        (A0.toNat + 2 ^ 32 * value2 A1 A2) / value2 B0 B1 ∧
      (SubatomicDivide A0 A1 A2 B0 B1).rest =
        (A0.toNat + 2 ^ 32 * value2 A1 A2) % value2 B0 B1 := by
  obtain ⟨hsum, hmod, hroom⟩ := subatomicEstimate_taken A0 hB h rfl
  obtain ⟨hrest, hQ⟩ := Subatomic.fixWhile_spec hB (Nat.div_le_self _ _) hroom
  exact ⟨hQ.trans hsum, hrest.trans hmod⟩

/-! ### Four words by two -/

/-- The quotient.  A divisor of zero stands for 2^64. -/
def AtomicDivide (A0 A1 A2 A3 B0 B1 : UInt32) : UInt32 × UInt32 :=
  if B0 = 0 ∧ B1 = 0 then (A2, A3)
  else
    let high := SubatomicDivide A1 A2 A3 B0 B1
    let low := SubatomicDivide A0 high.A0 high.A1 B0 B1
    (low.Q, high.Q)

theorem value2_eq_zero {B0 B1 : UInt32} : value2 B0 B1 = 0 ↔ B0 = 0 ∧ B1 = 0 := by
  rw [← UInt32.toNat_inj, ← UInt32.toNat_inj]
  simp [value2]

theorem AtomicDivide_spec {A0 A1 A2 A3 B0 B1 : UInt32} {d : Nat} (hd : 0 < d)
    (hB : value2 B0 B1 = d ∨ value2 B0 B1 = 0 ∧ d = 2 ^ 64) (h : value2 A2 A3 < d) :
    value2 (AtomicDivide A0 A1 A2 A3 B0 B1).1 (AtomicDivide A0 A1 A2 A3 B0 B1).2 =
      (value2 A0 A1 + 2 ^ 64 * value2 A2 A3) / d := by
  have hlow := value2_lt A0 A1
  unfold AtomicDivide
  rcases hB with hB | ⟨hzero, hfull⟩
  · have hpos : 0 < value2 B0 B1 := by omega
    have hne : ¬(B0 = 0 ∧ B1 = 0) := fun hz => by
      have := value2_eq_zero.mpr hz
      omega
    rw [if_neg hne]
    simp only
    rw [← hB] at h ⊢
    obtain ⟨hQ1, hrest1⟩ := SubatomicDivide_spec A1 hpos h
    have hlt1 := mod_lt (A1.toNat + 2 ^ 32 * value2 A2 A3) hpos
    generalize SubatomicDivide A1 A2 A3 B0 B1 = high at *
    -- the remainder is in two words
    have hrest := Subatomic.rest_eq high
    have hBlt := value2_lt B0 B1
    have hhigh : value2 high.A0 high.A1 = (A1.toNat + 2 ^ 32 * value2 A2 A3) % value2 B0 B1 := by
      rw [← hrest1] at hlt1 ⊢
      have hA2 : high.A2.toNat = 0 := by omega
      rw [hrest, hA2]
      rfl
    obtain ⟨hQ0, -⟩ := @SubatomicDivide_spec A0 high.A0 high.A1 _ _ hpos
      (by rw [hhigh]; exact hlt1)
    show (SubatomicDivide A0 high.A0 high.A1 B0 B1).Q.toNat + 2 ^ 32 * high.Q.toNat = _
    have hsplit := mod_add_div (A1.toNat + 2 ^ 32 * value2 A2 A3) (value2 B0 B1)
    have hwhole : value2 A0 A1 + 2 ^ 64 * value2 A2 A3 =
        A0.toNat + 2 ^ 32 * value2 high.A0 high.A1 +
          value2 B0 B1 * (2 ^ 32 * high.Q.toNat) := by
      rw [hhigh, hQ1]
      unfold value2 at hsplit ⊢
      linear_combination 2 ^ 32 * hsplit.symm
    rw [hQ0, hwhole, add_mul_div_left _ _ hpos]
  · rw [if_pos (value2_eq_zero.mp hzero), hfull]
    show value2 A2 A3 = _
    omega

/-! ### The quotient times the divisor -/

/-- The products of `Q` with every other pair of words, with zeros behind them. -/
def evenProducts (Q0 Q1 : UInt32) : Words → Words
  | B0 :: B1 :: _ :: _ :: B => AtomicMultiply Q0 Q1 B0 B1 ++ evenProducts Q0 Q1 B
  | [B0, B1] => AtomicMultiply Q0 Q1 B0 B1
  | _ => [0, 0]

/-- The carry, into the two words that follow. -/
def carryPair (carry : UInt32) : Words → Words
  | T0 :: T1 :: T =>
    if carry ≠ 0 then (T0 + 1) :: (T1 + if T0 + 1 = 0 then 1 else 0) :: T else T0 :: T1 :: T
  | T => T

/-- The products with the pairs in between are added. -/
def oddProducts (Q0 Q1 : UInt32) : Words → Words → Words
  | T0 :: T1 :: T2 :: T3 :: T, B0 :: B1 :: B =>
    (AtomicMultiplyAdd T0 T1 T2 T3 Q0 Q1 B0 B1).1 ++
      oddProducts Q0 Q1 (carryPair (AtomicMultiplyAdd T0 T1 T2 T3 Q0 Q1 B0 B1).2 T) (B.drop 2)
  | T, _ => T
termination_by _ B => B.length
decreasing_by
  rw [length_drop, length_cons, length_cons]
  omega

/-- `T` in `CorrectQuotientEstimate`. -/
def multiplyByQuotient (Q0 Q1 : UInt32) (B : Words) : Words :=
  if Q1 ≠ 0 then
    (evenProducts Q0 Q1 B).take 2 ++
      oddProducts Q0 Q1 ((evenProducts Q0 Q1 B).drop 2) (B.drop 2)
  else (LinearMultiply B Q0).1 ++ [(LinearMultiply B Q0).2, 0]

section

variable {Q0 Q1 : UInt32}

theorem AtomicMultiply_words (A0 A1 B0 B1 : UInt32) :
    ∃ P0 P1 P2 P3, AtomicMultiply A0 A1 B0 B1 = [P0, P1, P2, P3] ∧
      value2 P0 P1 + 2 ^ 64 * value2 P2 P3 = value2 A0 A1 * value2 B0 B1 ∧
      value2 P2 P3 ≤ 2 ^ 64 - 2 := by
  have hvalue := AtomicMultiply_value A0 A1 B0 B1
  have hlt := product_lt A0 A1 B0 B1
  refine ⟨_, _, _, _, rfl, ?_⟩
  rw [← hvalue] at hlt ⊢
  simp only [AtomicMultiply, value_cons, value_nil] at hlt ⊢
  unfold value2
  omega

/-- There is room for the carry in the upper half of a product. -/
theorem carryPair_spec {carry P2 P3 : UInt32} (T : Words) (hcarry : carry.toNat ≤ 1)
    (hP : value2 P2 P3 ≤ 2 ^ 64 - 2) :
    ∃ h0 h1, carryPair carry (P2 :: P3 :: T) = h0 :: h1 :: T ∧
      value2 h0 h1 = value2 P2 P3 + carry.toNat := by
  have h2 := P2.toNat_lt
  have h3 := P3.toNat_lt
  simp only [carryPair]
  by_cases hzero : carry = 0
  · rw [if_neg (fun hne => hne hzero), hzero]
    exact ⟨P2, P3, rfl, rfl⟩
  · have hne : carry.toNat ≠ 0 := fun h => hzero (UInt32.toNat_inj.mp h)
    have hone : (P2 + 1).toNat = (P2.toNat + 1) % 2 ^ 32 := UInt32.toNat_add P2 1
    have hone' : (P3 + 1).toNat = (P3.toNat + 1) % 2 ^ 32 := UInt32.toNat_add P3 1
    rw [if_pos hzero]
    refine ⟨_, _, rfl, ?_⟩
    unfold value2 at hP ⊢
    by_cases hwrap : P2 + 1 = 0
    · have hwrap' : (P2 + 1).toNat = 0 := by rw [hwrap]; rfl
      rw [if_pos hwrap]
      omega
    · have hwrap' : (P2 + 1).toNat ≠ 0 := fun h => hwrap (UInt32.toNat_inj.mp h)
      rw [if_neg hwrap, UInt32.add_zero]
      omega

theorem AtomicMultiplyAdd_words (h0 h1 P0 P1 B0 B1 : UInt32) :
    (AtomicMultiplyAdd h0 h1 P0 P1 Q0 Q1 B0 B1).1.length = 4 ∧
      (AtomicMultiplyAdd h0 h1 P0 P1 Q0 Q1 B0 B1).2.toNat ≤ 1 ∧
      value (AtomicMultiplyAdd h0 h1 P0 P1 Q0 Q1 B0 B1).1 +
          2 ^ 128 * (AtomicMultiplyAdd h0 h1 P0 P1 Q0 Q1 B0 B1).2.toNat =
        value2 h0 h1 + 2 ^ 64 * value2 P0 P1 + value2 Q0 Q1 * value2 B0 B1 := by
  have hvalue := AtomicMultiplyAdd_value h0 h1 P0 P1 Q0 Q1 B0 B1
  have hlt := product_lt Q0 Q1 B0 B1
  have hh := value2_lt h0 h1
  have hP := value2_lt P0 P1
  have hwords : value [h0, h1, P0, P1] = value2 h0 h1 + 2 ^ 64 * value2 P0 P1 := by
    simp only [value_cons, value_nil, value2]
    ring
  rw [hwords] at hvalue
  exact ⟨rfl, by omega, hvalue⟩

/-- Both kinds of products together, from a pair in between on. -/
theorem oddProducts_value (rest : Words) (heven : rest.length % 2 = 0) (h0 h1 o0 o1 : UInt32) :
    (oddProducts Q0 Q1 (h0 :: h1 :: evenProducts Q0 Q1 rest) (o0 :: o1 :: rest)).length =
        rest.length + 4 ∧
      value (oddProducts Q0 Q1 (h0 :: h1 :: evenProducts Q0 Q1 rest) (o0 :: o1 :: rest)) =
        value2 h0 h1 + value2 Q0 Q1 * (value2 o0 o1 + 2 ^ 64 * value rest) := by
  induction rest using evenProducts.induct generalizing h0 h1 o0 o1 with
  | case1 e0 e1 n0 n1 rest ih =>
      obtain ⟨P0, P1, P2, P3, hP, hPvalue, hPlt⟩ := AtomicMultiply_words Q0 Q1 e0 e1
      obtain ⟨hlen, hcarry, hsum⟩ := @AtomicMultiplyAdd_words Q0 Q1 h0 h1 P0 P1 o0 o1
      obtain ⟨k0, k1, hk, hkvalue⟩ :=
        carryPair_spec (evenProducts Q0 Q1 rest) hcarry hPlt
      obtain ⟨hrestlen, hrest⟩ := ih (by simp only [length_cons] at heven; omega) k0 k1 n0 n1
      have hstep : oddProducts Q0 Q1 (h0 :: h1 :: evenProducts Q0 Q1 (e0 :: e1 :: n0 :: n1 :: rest))
            (o0 :: o1 :: e0 :: e1 :: n0 :: n1 :: rest) =
          (AtomicMultiplyAdd h0 h1 P0 P1 Q0 Q1 o0 o1).1 ++
            oddProducts Q0 Q1 (k0 :: k1 :: evenProducts Q0 Q1 rest) (n0 :: n1 :: rest) := by
        rw [evenProducts, hP, ← hk]
        simp only [cons_append, nil_append]
        rw [oddProducts]
        rfl
      rw [hstep, length_append, value_append, hlen, hrestlen, hrest, hkvalue]
      refine ⟨by simp only [length_cons]; omega, ?_⟩
      simp only [value_cons]
      have he : value2 e0 e1 = e0.toNat + 2 ^ 32 * e1.toNat := rfl
      have hn : value2 n0 n1 = n0.toNat + 2 ^ 32 * n1.toNat := rfl
      rw [he] at hPvalue
      rw [hn]
      zify at hsum hPvalue ⊢
      linear_combination hsum + 2 ^ 64 * hPvalue
  | case2 e0 e1 =>
      obtain ⟨P0, P1, P2, P3, hP, hPvalue, hPlt⟩ := AtomicMultiply_words Q0 Q1 e0 e1
      obtain ⟨hlen, hcarry, hsum⟩ := @AtomicMultiplyAdd_words Q0 Q1 h0 h1 P0 P1 o0 o1
      obtain ⟨k0, k1, hk, hkvalue⟩ := carryPair_spec [] hcarry hPlt
      have hstep : oddProducts Q0 Q1 (h0 :: h1 :: evenProducts Q0 Q1 [e0, e1]) [o0, o1, e0, e1] =
          (AtomicMultiplyAdd h0 h1 P0 P1 Q0 Q1 o0 o1).1 ++ [k0, k1] := by
        have hdrop : List.drop 2 [e0, e1] = [] := rfl
        rw [evenProducts, hP, oddProducts, hk, hdrop, oddProducts]
        intro _ _ _ _ _ _ _ _ hcons
        cases hcons
      rw [hstep, length_append, value_append, hlen]
      refine ⟨rfl, ?_⟩
      have hpair : value [k0, k1] = value2 k0 k1 := by simp [value_cons, value2]
      have he : value [e0, e1] = value2 e0 e1 := by simp [value_cons, value2]
      rw [hpair, he, hkvalue]
      zify at hsum hPvalue ⊢
      linear_combination hsum + 2 ^ 64 * hPvalue
  | case3 rest hrest4 hrest2 =>
      have hnil : rest = [] := by
        match rest, hrest4, hrest2, heven with
        | [], _, _, _ => rfl
        | [_], _, _, h => exact absurd h (by simp)
        | [_, _, _], _, _, h => exact absurd h (by simp)
        | [e0, e1], _, h2, _ => exact absurd rfl (h2 e0 e1)
        | e0 :: e1 :: n0 :: n1 :: rest, h4, _, _ => exact absurd rfl (h4 e0 e1 n0 n1 rest)
      subst hnil
      obtain ⟨hlen, -, hsum⟩ := @AtomicMultiplyAdd_words Q0 Q1 h0 h1 0 0 o0 o1
      have hh := value2_lt h0 h1
      have hlt := product_lt Q0 Q1 o0 o1
      have hstep : oddProducts Q0 Q1 (h0 :: h1 :: evenProducts Q0 Q1 []) [o0, o1] =
          (AtomicMultiplyAdd h0 h1 0 0 Q0 Q1 o0 o1).1 := by
        rw [evenProducts, oddProducts, carryPair, drop_nil, oddProducts, append_nil]
        · intro _ _ _ _ _ _ _ _ hcons
          cases hcons
        · intro _ _ _ hcons
          cases hcons
        · intro _ _ _ _ _ hcons
          cases hcons
        · intro _ _ hcons
          cases hcons
      rw [hstep]
      refine ⟨hlen, ?_⟩
      have hzero : value2 0 0 = 0 := rfl
      rw [hzero] at hsum
      rw [value_nil, Nat.mul_zero, Nat.add_zero]
      omega

/-- **The product.** -/
theorem multiplyByQuotient_value {B : Words} (hne : B ≠ []) (heven : B.length % 2 = 0) :
    (multiplyByQuotient Q0 Q1 B).length = B.length + 2 ∧
      value (multiplyByQuotient Q0 Q1 B) = value2 Q0 Q1 * value B := by
  unfold multiplyByQuotient
  by_cases hQ1 : Q1 = 0
  · rw [if_neg (fun h => h hQ1), length_append, LinearMultiply_length, value_append,
      LinearMultiply_length]
    refine ⟨rfl, ?_⟩
    have hlinear := LinearMultiply_value B Q0
    have htop : value [(LinearMultiply B Q0).2, 0] = (LinearMultiply B Q0).2.toNat := by
      simp [value_cons]
    have hQ : value2 Q0 Q1 = Q0.toNat := by
      rw [hQ1]
      rfl
    rw [htop, hlinear, hQ, Nat.mul_comm]
  · rw [if_pos hQ1]
    match B, hne, heven with
    | [_], _, h => exact absurd h (by simp)
    | [_, _, _], _, h => exact absurd h (by simp)
    | e0 :: e1 :: [], _, _ =>
      obtain ⟨P0, P1, P2, P3, hP, hPvalue, -⟩ := AtomicMultiply_words Q0 Q1 e0 e1
      have hodd : oddProducts Q0 Q1 [P2, P3] [] = [P2, P3] := by
        rw [oddProducts]
        intro _ _ _ _ _ _ _ _ hcons
        cases hcons
      rw [evenProducts, hP]
      simp only [take_succ_cons, take_zero, drop_succ_cons, drop_zero, cons_append, nil_append]
      rw [hodd]
      refine ⟨rfl, ?_⟩
      simp only [value_cons, value_nil, value2] at hPvalue ⊢
      rw [Nat.mul_zero, Nat.add_zero, Nat.add_zero, ← hPvalue]
      ring
    | e0 :: e1 :: o0 :: o1 :: rest, _, heven =>
      obtain ⟨P0, P1, P2, P3, hP, hPvalue, -⟩ := AtomicMultiply_words Q0 Q1 e0 e1
      obtain ⟨hlen, hsum⟩ := @oddProducts_value Q0 Q1 rest
        (by simp only [length_cons] at heven; omega) P2 P3 o0 o1
      rw [evenProducts, hP]
      simp only [cons_append, nil_append, take_succ_cons, take_zero, drop_succ_cons, drop_zero]
      refine ⟨by simp only [length_cons, hlen], ?_⟩
      simp only [value_cons]
      rw [hsum]
      simp only [value2] at hPvalue ⊢
      zify at hPvalue ⊢
      linear_combination hPvalue

end

/-! ### The divisor is taken off while it goes -/

/-- The loops of `CorrectQuotientEstimate` and `Divide`: `R` has a word more than `B`, and `Q` is
counted up. -/
def subtractWhile {Q : Type} (B : Words) (next : Q → Q) :
    Nat → Words → UInt32 → Q → Words × UInt32 × Q
  | 0, R, top, q => (R, top, q)
  | rounds + 1, R, top, q =>
    if top ≠ 0 ∨ Compare R B ≥ 0 then
      subtractWhile B next rounds (Subtract R B).1 (top - (Subtract R B).2) (next q)
    else (R, top, q)

theorem value_concat (R : Words) (top : UInt32) :
    value (R ++ [top]) = value R + (2 ^ 32) ^ R.length * top.toNat := by
  rw [value_append]
  simp [value_cons]

section

variable {Q : Type} {B R : Words} {top : UInt32}

/-- What is less than `B` has nothing in the word more. -/
theorem top_eq_zero (hlen : R.length = B.length) (h : value (R ++ [top]) < value B) : top = 0 := by
  have hBlt := value_lt B
  rw [value_concat, hlen] at h
  by_contra hne
  have hpos : 0 < top.toNat := Nat.pos_of_ne_zero fun hz => hne (UInt32.toNat_inj.mp hz)
  have hle := Nat.le_mul_of_pos_right ((2 ^ 32) ^ B.length) hpos
  omega

theorem goes_iff (hlen : R.length = B.length) :
    (top ≠ 0 ∨ Compare R B ≥ 0) ↔ value B ≤ value (R ++ [top]) := by
  constructor
  · intro h
    by_contra hnot
    have hzero := top_eq_zero hlen (Nat.not_le.mp hnot)
    have hle := (Compare_nonneg hlen).mp (h.resolve_left fun hne => hne hzero)
    rw [value_concat] at hnot
    omega
  · intro h
    by_cases hzero : top = 0
    · rw [value_concat, hzero, UInt32.toNat_zero, Nat.mul_zero, Nat.add_zero] at h
      exact Or.inr ((Compare_nonneg hlen).mpr h)
    · exact Or.inl hzero

theorem value_subtract (hlen : R.length = B.length) (h : value B ≤ value (R ++ [top])) :
    value ((Subtract R B).1 ++ [top - (Subtract R B).2]) + value B = value (R ++ [top]) := by
  obtain ⟨hborrow, hsub⟩ := Subtract_value hlen
  have hRlt := value_lt (Subtract R B).1
  have htop : (top - (Subtract R B).2).toNat =
      (2 ^ 32 - (Subtract R B).2.toNat + top.toNat) % 2 ^ 32 := UInt32.toNat_sub _ _
  have htoplt := top.toNat_lt
  rw [Subtract_length hlen] at hRlt
  rw [value_concat] at h
  rw [value_concat, value_concat, Subtract_length hlen, htop]
  rcases le_one_iff_eq_zero_or_eq_one.mp hborrow with hzero | hone
  · have hsame : (2 ^ 32 - 0 + top.toNat) % 2 ^ 32 = top.toNat := by omega
    rw [hzero, Nat.mul_zero, Nat.add_zero] at hsub
    rw [hzero, hsame, ← hsub]
    ring
  · -- something is in the word more
    have hpos : 1 ≤ top.toNat := by
      by_contra hnot
      have hzero : top.toNat = 0 := by omega
      rw [hzero, Nat.mul_zero, Nat.add_zero] at h
      rw [hone, Nat.mul_one] at hsub
      omega
    have hless : (2 ^ 32 - 1 + top.toNat) % 2 ^ 32 = top.toNat - 1 := by omega
    obtain ⟨t, ht⟩ := Nat.exists_eq_add_of_le' hpos
    rw [hone] at hsub
    rw [hone, hless, ht, Nat.add_sub_cancel]
    linear_combination hsub

/-- **The loop divides.** -/
theorem subtractWhile_spec (next : Q → Q) (hB : 0 < value B) {rounds : Nat} {q : Q}
    (hlen : R.length = B.length) (hrounds : value (R ++ [top]) / value B ≤ rounds) :
    ∃ R', subtractWhile B next rounds R top q =
        (R', 0, next^[value (R ++ [top]) / value B] q) ∧
      R'.length = B.length ∧ value R' = value (R ++ [top]) % value B := by
  -- nothing to take off
  have hstop : ∀ {R : Words} {top : UInt32} {q : Q}, R.length = B.length →
      value (R ++ [top]) < value B →
      ∃ R', (R, top, q) = (R', 0, next^[value (R ++ [top]) / value B] q) ∧
        R'.length = B.length ∧ value R' = value (R ++ [top]) % value B := by
    intro R top q hlen hlt
    have hzero := top_eq_zero hlen hlt
    subst hzero
    rw [div_eq_of_lt hlt, mod_eq_of_lt hlt]
    refine ⟨R, rfl, hlen, ?_⟩
    rw [value_concat, UInt32.toNat_zero, Nat.mul_zero, Nat.add_zero]
  induction rounds generalizing R top q with
  | zero => exact hstop hlen ((div_eq_zero_iff_lt hB).mp (le_zero.mp hrounds))
  | succ rounds ih =>
      unfold subtractWhile
      by_cases hgoes : value B ≤ value (R ++ [top])
      · have hsub := value_subtract hlen hgoes
        rw [if_pos ((goes_iff hlen).mpr hgoes)]
        rw [← hsub, add_div_right _ hB] at hrounds ⊢
        rw [add_mod_right, Function.iterate_add_apply, Function.iterate_one]
        exact ih (by rw [Subtract_length hlen, hlen]) (le_of_succ_le_succ hrounds)
      · rw [if_neg (mt (goes_iff hlen).mp hgoes)]
        exact hstop hlen (Nat.not_le.mp hgoes)

end

/-! ### A digit of the quotient -/

/-- `Q[1] += (++Q[0]==0)` -/
def incrementPair (Q : UInt32 × UInt32) : UInt32 × UInt32 :=
  (Q.1 + 1, Q.2 + if Q.1 + 1 = 0 then 1 else 0)

/-- It wraps where it cannot count further. -/
theorem incrementPair_cases (Q : UInt32 × UInt32) :
    value2 (incrementPair Q).1 (incrementPair Q).2 = value2 Q.1 Q.2 + 1 ∨
      value2 (incrementPair Q).1 (incrementPair Q).2 = 0 ∧ value2 Q.1 Q.2 + 1 = 2 ^ 64 := by
  have h1 := Q.1.toNat_lt
  have h2 := Q.2.toNat_lt
  have hone : (Q.1 + 1).toNat = (Q.1.toNat + 1) % 2 ^ 32 := UInt32.toNat_add Q.1 1
  have hone' : (Q.2 + 1).toNat = (Q.2.toNat + 1) % 2 ^ 32 := UInt32.toNat_add Q.2 1
  unfold incrementPair value2
  simp only
  by_cases hwrap : Q.1 + 1 = 0
  · have hwrap' : (Q.1 + 1).toNat = 0 := by rw [hwrap]; rfl
    rw [if_pos hwrap]
    omega
  · have hwrap' : (Q.1 + 1).toNat ≠ 0 := fun hz => hwrap (UInt32.toNat_inj.mp hz)
    rw [if_neg hwrap, UInt32.add_zero]
    omega

theorem value2_incrementPair {Q : UInt32 × UInt32} (h : value2 Q.1 Q.2 + 1 < 2 ^ 64) :
    value2 (incrementPair Q).1 (incrementPair Q).2 = value2 Q.1 Q.2 + 1 := by
  rcases incrementPair_cases Q with hnext | ⟨-, hfull⟩
  · exact hnext
  · exact absurd hfull (Nat.ne_of_lt h)

theorem value2_iterate {n : Nat} {Q : UInt32 × UInt32} (h : value2 Q.1 Q.2 + n < 2 ^ 64) :
    value2 (incrementPair^[n] Q).1 (incrementPair^[n] Q).2 = value2 Q.1 Q.2 + n := by
  induction n with
  | zero => rfl
  | succ n ih =>
      have hn := ih (by omega)
      rw [Function.iterate_succ_apply', value2_incrementPair (by rw [hn]; omega), hn]
      rfl

/-- The estimate `Q` is put right, and `R`, which has two words more than `B`, is reduced. -/
def CorrectQuotientEstimate (R : Words) (Q : UInt32 × UInt32) (B : Words) :
    Words × (UInt32 × UInt32) :=
  let D := (Subtract R (multiplyByQuotient Q.1 Q.2 B)).1
  let (low, top, Q) :=
    subtractWhile B incrementPair (value D) (D.take B.length) (D.getD B.length 0) Q
  (low ++ top :: D.drop (B.length + 1), Q)

theorem take_succ_getD {D : Words} {n : Nat} (h : n < D.length) :
    D.take (n + 1) = D.take n ++ [D.getD n 0] := by
  rw [take_succ_eq_append_getElem h, getD_eq_getElem?_getD, getElem?_eq_getElem h]
  rfl

/-- The estimate times the divisor is subtracted. -/
structure Taken (R B : Words) (Q : UInt32 × UInt32) (D : Words × UInt32) : Prop where
  nonempty : B ≠ []
  borrow : D.2 = 0
  length : D.1.length = B.length + 2
  /-- the upper of the two words is free -/
  high : value (D.1.drop (B.length + 1)) = 0
  sum : value (D.1.take B.length ++ [D.1.getD B.length 0]) + value2 Q.1 Q.2 * value B = value R
  rounds : value (D.1.take B.length ++ [D.1.getD B.length 0]) / value B ≤ value D.1
  quotient : value R / value B =
    value (D.1.take B.length ++ [D.1.getD B.length 0]) / value B + value2 Q.1 Q.2

theorem subtractEstimate {R B : Words} {Q : UInt32 × UInt32} (hB : 0 < value B)
    (heven : B.length % 2 = 0) (hlen : R.length = B.length + 2)
    (hle : value2 Q.1 Q.2 ≤ value R / value B)
    (hrest : value R < value2 Q.1 Q.2 * value B + (2 ^ 32) ^ (B.length + 1)) :
    Taken R B Q (Subtract R (multiplyByQuotient Q.1 Q.2 B)) := by
  have hne : B ≠ [] := by
    intro hnil
    rw [hnil] at hB
    exact absurd hB (Nat.lt_irrefl 0)
  have hmul := (Nat.le_div_iff_mul_le hB).mp hle
  obtain ⟨hTlen, hT⟩ := @multiplyByQuotient_value Q.1 Q.2 B hne heven
  have hlen' : R.length = (multiplyByQuotient Q.1 Q.2 B).length := by rw [hlen, hTlen]
  have hDlen := Subtract_length hlen'
  obtain ⟨hborrow, hsub⟩ := Subtract_value hlen'
  have hDlt := value_lt (Subtract R (multiplyByQuotient Q.1 Q.2 B)).1
  rw [hDlen] at hDlt
  generalize Subtract R (multiplyByQuotient Q.1 Q.2 B) = D at *
  rw [hT] at hsub
  have hzero : D.2.toNat = 0 := by
    by_contra hnot
    have hone : D.2.toNat = 1 := by omega
    rw [hone, Nat.mul_one] at hsub
    omega
  rw [hzero, Nat.mul_zero, Nat.add_zero] at hsub
  have hroom : B.length + 1 ≤ D.1.length := by omega
  have hhigh : value (D.1.drop (B.length + 1)) = 0 := by
    rw [value_drop _ hroom]
    exact div_eq_of_lt (by omega)
  have hleft : value (D.1.take B.length ++ [D.1.getD B.length 0]) = value D.1 := by
    rw [← take_succ_getD (by omega), value_take _ hroom, mod_eq_of_lt (by omega)]
  refine ⟨hne, UInt32.toNat_inj.mp hzero, by omega, hhigh, by rw [hleft, hsub], ?_, ?_⟩
  · rw [hleft]
    exact Nat.div_le_self _ _
  · rw [hleft, ← hsub, add_mul_div_right _ _ hB]

theorem CorrectQuotientEstimate_spec {R B : Words} {Q : UInt32 × UInt32} (hB : 0 < value B)
    (heven : B.length % 2 = 0) (hlen : R.length = B.length + 2)
    (hle : value2 Q.1 Q.2 ≤ value R / value B) (hlt : value R / value B < 2 ^ 64)
    (hrest : value R < value2 Q.1 Q.2 * value B + (2 ^ 32) ^ (B.length + 1)) :
    (CorrectQuotientEstimate R Q B).1.length = B.length + 2 ∧
      value (CorrectQuotientEstimate R Q B).1 = value R % value B ∧
      value2 (CorrectQuotientEstimate R Q B).2.1 (CorrectQuotientEstimate R Q B).2.2 =
        value R / value B := by
  have h := subtractEstimate hB heven hlen hle hrest
  have hDlen := h.length
  have hdiv := h.quotient
  unfold CorrectQuotientEstimate
  simp only
  generalize Subtract R (multiplyByQuotient Q.1 Q.2 B) = D at *
  have hmod : value R % value B =
      value (D.1.take B.length ++ [D.1.getD B.length 0]) % value B := by
    rw [← h.sum, add_mul_mod_self_right]
  obtain ⟨R', hloop, hRlen, hRvalue⟩ := subtractWhile_spec incrementPair (q := Q) hB
    (length_take_of_le (by omega)) h.rounds
  rw [hloop]
  simp only
  have hiterate := @value2_iterate
    (value (D.1.take B.length ++ [D.1.getD B.length 0]) / value B) Q (by omega)
  refine ⟨?_, ?_, ?_⟩
  · simp only [length_append, length_cons, length_drop]
    omega
  · rw [value_append, value_cons, h.high, UInt32.toNat_zero, hRvalue, hmod, Nat.mul_zero,
      Nat.add_zero, Nat.mul_zero, Nat.add_zero]
  · rw [hiterate, hdiv, Nat.add_comm]

end OsSecurity

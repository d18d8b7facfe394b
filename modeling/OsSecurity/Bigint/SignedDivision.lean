/-
`TInteger::DivideL`: the division of signed integers.

The magnitudes are divided.  For a dividend below zero the quotient is then counted one further
down, and what is left is taken from the divisor instead: but only over as many words as the
remainder has, and where the magnitude of the dividend is less than the divisor's these are the
words of the dividend, of which there may be too few or more than the divisor has.
-/
import OsSecurity.Bigint.Integer

namespace OsSecurity

open Int Nat

variable {r q : TInteger}

namespace TInteger

/-- `w` is written to the start of the cell. -/
def store (self : TInteger) (w : Words) : Leaving TInteger :=
  if h : w.length ≤ self.size then
    .ok (self.withWords (writeAt self.words 0 w) (writeAt_length (by rw [Nat.zero_add]; exact h)))
  else .error .undefined

/-- `WordCount`, rounded up to the next even number. -/
def evenWordCount (self : TInteger) : Nat := self.wordCount + self.wordCount % 2

/-- The remainder and the quotient.  (`CreateNewL` does not clear the cell of the remainder, but
all of it is written.) -/
def positiveDivideL (aDividend aDivisor : TInteger) : Leaving (TInteger × TInteger) :=
  if aDivisor.wordCount = 0 then leave KErrDivideByZero
  else if aDividend.unsignedCompare aDivisor = -1 then do
    let aRemainder ← (cleanNewL aDividend.size).copyL aDividend true
    return (aRemainder.setSign .EPositive, cleanNewL 2)
  else do
    let dividendSize := aDividend.evenWordCount
    let divisorSize := aDivisor.evenWordCount
    let divided := Divide (aDividend.words.take dividendSize) (aDivisor.words.take divisorSize)
    let aRemainder ← (cleanNewL divisorSize).store divided.R
    let aQuotient ← (cleanNewL (dividendSize - divisorSize + 2)).store divided.Q
    return (aRemainder, aQuotient)

/-- What is left of a dividend below zero, and its quotient. -/
def divideNegativeL (aDivisor aRemainder aQuotient : TInteger) : Leaving (TInteger × TInteger) :=
  if aRemainder.isZero then .ok (aRemainder, aQuotient.negate)
  else do
    let aQuotient ← aQuotient.negate.decrement
    let aRemainder ← (
      if aRemainder.size ≤ aDivisor.size then
        aRemainder.store (Subtract (aDivisor.words.take aRemainder.size) aRemainder.words).1
      else .error .undefined)
    return (aRemainder, aQuotient)

def divideL (aDividend aDivisor : TInteger) : Leaving (TInteger × TInteger) := do
  let (aRemainder, aQuotient) ← positiveDivideL aDividend aDivisor
  let (aRemainder, aQuotient) ← (
    if aDividend.isNegative then divideNegativeL aDivisor aRemainder aQuotient
    else .ok (aRemainder, aQuotient))
  return (aRemainder, if aDivisor.isNegative then aQuotient.negate else aQuotient)

def dividedByL (self aOperand : TInteger) : Leaving TInteger := do
  let (_, quotient) ← divideL self aOperand
  return quotient

def moduloL (self aOperand : TInteger) : Leaving TInteger := do
  let (remainder, _) ← divideL self aOperand
  return remainder

/-! ### Magnitudes -/

section

variable {a b : TInteger}

theorem store_ok (self : TInteger) {w : Words} (h : w.length ≤ self.size)
    (hzero : self.magnitude = 0 ∨ w.length = self.size) :
    ∃ c, self.store w = .ok c ∧ c.size = self.size ∧ c.magnitude = value w ∧
      c.isNegative = self.isNegative := by
  have hroom : 0 + w.length ≤ self.words.length := by
    rw [Nat.zero_add]
    exact h
  unfold store
  rw [dif_pos h]
  refine ⟨_, rfl, size_withWords _ _, ?_, rfl⟩
  rw [magnitude_withWords, value_writeAt hroom, List.take_zero, value_nil, pow_zero, Nat.one_mul,
    Nat.zero_add, Nat.zero_add]
  have hrest : value (self.words.drop w.length) = 0 := by
    rcases hzero with hzero | hlen
    · rw [value_drop _ h]
      show self.magnitude / _ = 0
      rw [hzero, Nat.zero_div]
    · rw [hlen, List.drop_of_length_le (Nat.le_refl self.size), value_nil]
  rw [hrest, Nat.mul_zero, Nat.add_zero]

theorem evenWordCount_le (self : TInteger) : self.evenWordCount ≤ self.size := by
  have hle := self.wordCount_le
  have heven := self.size_even
  unfold evenWordCount
  omega

theorem wordCount_mono (h : a.magnitude ≤ b.magnitude) : a.wordCount ≤ b.wordCount := by
  by_cases hzero : a.magnitude = 0
  · rw [wordCount_eq_zero.mpr hzero]
    exact Nat.zero_le _
  · have hlt := ((le_magnitude_wordCount hzero).trans h).trans_lt b.magnitude_lt_wordCount
    have hpow := (Nat.pow_lt_pow_iff_right (by decide)).mp hlt
    omega

/-- The two integers that `PositiveDivideL` returns. -/
structure DividedMagnitudes (a b r q : TInteger) : Prop where
  remainderPositive : r.isNegative = false
  quotientPositive : q.isNegative = false
  remainder : r.magnitude = a.magnitude % b.magnitude
  quotient : q.magnitude = a.magnitude / b.magnitude
  sizes : a.magnitude < b.magnitude ∧ r.size = a.size ∧ q.size = 2 ∨
    b.magnitude ≤ a.magnitude ∧ r.size ≤ b.size ∧ b.magnitude < (2 ^ 32) ^ r.size

theorem positiveDivideL_small (h : a.magnitude < b.magnitude) :
    ∃ r q, positiveDivideL a b = .ok (r, q) ∧ DividedMagnitudes a b r q := by
  have hne : b.wordCount ≠ 0 := by
    intro hzero
    rw [wordCount_eq_zero.mp hzero] at h
    exact Nat.not_lt_zero _ h
  have hcompare : a.unsignedCompare b = -1 := by
    rw [unsignedCompare_eq]
    exact sign_eq_neg_one_of_neg (by omega)
  have hcell : (cleanNewL a.size).size = a.size := by rw [size_cleanNewL, RoundupSize_size]
  obtain ⟨r, hr, hsize, hmagnitude, -⟩ := copyL_same_size hcell
  unfold positiveDivideL
  rw [if_neg hne, if_pos hcompare, hr]
  refine ⟨r.setSign .EPositive, cleanNewL 2, rfl, rfl, rfl, ?_, ?_, Or.inl ⟨h, ?_, rfl⟩⟩
  · rw [magnitude_setSign, hmagnitude, mod_eq_of_lt h]
  · rw [magnitude_cleanNewL, div_eq_of_lt h]
  · rw [size_setSign, hsize, hcell]

theorem positiveDivideL_large (hne : b.magnitude ≠ 0) (h : b.magnitude ≤ a.magnitude) :
    ∃ r q, positiveDivideL a b = .ok (r, q) ∧ DividedMagnitudes a b r q := by
  have hcount : b.wordCount ≠ 0 := mt wordCount_eq_zero.mp hne
  have hcompare : a.unsignedCompare b ≠ -1 := by
    rw [unsignedCompare_eq]
    intro hsign
    have hneg := sign_eq_neg_one_iff_neg.mp hsign
    omega
  have hmono := wordCount_mono h
  have hA : (a.words.take a.evenWordCount).length = a.evenWordCount :=
    List.length_take_of_le a.evenWordCount_le
  have hB : (b.words.take b.evenWordCount).length = b.evenWordCount :=
    List.length_take_of_le b.evenWordCount_le
  have hAvalue : value (a.words.take a.evenWordCount) = a.magnitude :=
    value_take_words (Nat.le_add_right _ _)
  have hBvalue : value (b.words.take b.evenWordCount) = b.magnitude :=
    value_take_words (Nat.le_add_right _ _)
  have heven : ∀ n : TInteger, n.evenWordCount % 2 = 0 := by
    intro n
    unfold evenWordCount
    omega
  have hmonoEven : b.evenWordCount ≤ a.evenWordCount := by
    unfold evenWordCount
    omega
  have htwo : 2 ≤ b.evenWordCount := by
    unfold evenWordCount
    omega
  have htop : (2 ^ 32) ^ (b.evenWordCount - 2) ≤ b.magnitude := by
    refine le_trans (Nat.pow_le_pow_right (by decide) ?_) (le_magnitude_wordCount hne)
    unfold evenWordCount
    omega
  obtain ⟨hQlen, hRlen, hQ, hR⟩ := Divide_spec (A := a.words.take a.evenWordCount)
    (B := b.words.take b.evenWordCount) (by rw [hA]; exact heven a) (by rw [hB]; exact heven b)
    (by rw [hB]; exact htwo) (by rw [hA, hB]; exact hmonoEven) (by rw [hB, hBvalue]; exact htop)
  rw [hA, hB] at hQlen
  rw [hB] at hRlen
  rw [hAvalue, hBvalue] at hQ hR
  obtain ⟨r, hr, hrsize, hrvalue, hrsign⟩ := store_ok (cleanNewL b.evenWordCount)
    (w := (Divide (a.words.take a.evenWordCount) (b.words.take b.evenWordCount)).R)
    (by rw [hRlen, size_cleanNewL]; exact (RoundupSize_least _).le)
    (Or.inl (magnitude_cleanNewL _))
  obtain ⟨q, hq, -, hqvalue, hqsign⟩ := store_ok
    (cleanNewL (a.evenWordCount - b.evenWordCount + 2))
    (w := (Divide (a.words.take a.evenWordCount) (b.words.take b.evenWordCount)).Q)
    (by rw [hQlen, size_cleanNewL]; exact (RoundupSize_least _).le)
    (Or.inl (magnitude_cleanNewL _))
  rw [size_cleanNewL] at hrsize
  unfold positiveDivideL
  rw [if_neg hcount, if_neg hcompare]
  simp only
  rw [hr, ok_bind, hq, ok_bind]
  refine ⟨r, q, rfl, hrsign, hqsign, hrvalue.trans hR, hqvalue.trans hQ, Or.inr ⟨h, ?_, ?_⟩⟩
  · rw [hrsize]
    exact RoundupSize_le b.evenWordCount_le
  · have hle : b.wordCount ≤ r.size := by
      rw [hrsize]
      exact (Nat.le_add_right _ _).trans (RoundupSize_least b.evenWordCount).le
    exact b.magnitude_lt_wordCount.trans_le (Nat.pow_le_pow_right (by decide) hle)

theorem positiveDivideL_spec (hne : b.magnitude ≠ 0) :
    ∃ r q, positiveDivideL a b = .ok (r, q) ∧ DividedMagnitudes a b r q := by
  by_cases h : a.magnitude < b.magnitude
  · exact positiveDivideL_small h
  · exact positiveDivideL_large hne (Nat.not_lt.mp h)

/-! ### Signs -/

/-- The low words of a difference are all of it if it has no more. -/
theorem subtract_low_iff (hsize : r.size ≤ b.size) (hle : r.magnitude ≤ b.magnitude) :
    value (Subtract (b.words.take r.size) r.words).1 = b.magnitude - r.magnitude ↔
      b.magnitude - r.magnitude < (2 ^ 32) ^ r.size := by
  have hlen : (b.words.take r.size).length = r.words.length := List.length_take_of_le hsize
  have hlt := value_lt (Subtract (b.words.take r.size) r.words).1
  rw [Subtract_length hlen, hlen] at hlt
  obtain ⟨-, hvalue⟩ := Subtract_value hlen
  rw [value_take _ hsize, hlen] at hvalue
  constructor
  · intro heq
    rw [← heq]
    exact hlt
  · intro hfits
    -- both are the difference up to a multiple of the size of the cell
    have hmod : value (Subtract (b.words.take r.size) r.words).1 + r.magnitude ≡
        b.magnitude - r.magnitude + r.magnitude [MOD (2 ^ 32) ^ r.size] := by
      rw [Nat.sub_add_cancel hle]
      show (value _ + value r.words) % _ = b.magnitude % _
      rw [hvalue]
      show (b.magnitude % (2 ^ 32) ^ r.size + (2 ^ 32) ^ r.size * _) % _ = _
      rw [add_mul_mod_self_left, mod_mod]
    exact ModEq.eq_of_lt_of_lt (ModEq.add_right_cancel' _ hmod) hlt hfits

/-- The quotient is counted down. -/
theorem DividedMagnitudes.decrement (h : DividedMagnitudes a b r q) (hne : b.magnitude ≠ 0) :
    ∃ next, q.negate.decrement = .ok next ∧
      next.toInt = -((a.magnitude / b.magnitude : Nat) : Int) - 1 := by
  by_cases hzero : q.magnitude = 0
  · have hless : a.magnitude < b.magnitude := by
      rw [h.quotient] at hzero
      exact (Nat.div_eq_zero_iff.mp hzero).resolve_left hne
    have hsize : q.size = 2 := by
      rcases h.sizes with ⟨-, -, hsize⟩ | ⟨hle, -, -⟩
      · exact hsize
      · exact absurd hless (Nat.not_lt.mpr hle)
    obtain ⟨next, hnext, hvalue⟩ := decrement_zero h.quotientPositive hzero hsize
    rw [negate_of_zero h.quotientPositive hzero, ← h.quotient, hzero]
    exact ⟨next, hnext, hvalue⟩
  · obtain ⟨next, hnext, hsign, hmagnitude⟩ :=
      decrement_negative (isNegative_negate h.quotientPositive hzero)
    refine ⟨next, hnext, ?_⟩
    rw [toInt_of_negative hsign, hmagnitude, magnitude_negate, h.quotient]
    omega

/-- **Below zero, with a remainder.**  If the divisor has the words of the remainder, then the
quotient is right, and the new remainder is if it has room. -/
theorem divideNegativeL_remainder (h : DividedMagnitudes a b r q) (hne : b.magnitude ≠ 0)
    (hrest : r.magnitude ≠ 0) :
    (r.size ≤ b.size → ∃ r' q', divideNegativeL b r q = .ok (r', q') ∧
      q'.toInt = -((a.magnitude / b.magnitude : Nat) : Int) - 1 ∧ r'.isNegative = false ∧
      (r'.magnitude = b.magnitude - r.magnitude ↔
        b.magnitude - r.magnitude < (2 ^ 32) ^ r.size)) ∧
    (b.size < r.size → divideNegativeL b r q = .error .undefined) := by
  obtain ⟨next, hnext, hquotient⟩ := h.decrement hne
  have hless : r.magnitude < b.magnitude := by
    rw [h.remainder]
    exact mod_lt _ (Nat.pos_of_ne_zero hne)
  unfold divideNegativeL
  rw [if_neg (fun hzero => hrest (isZero_iff.mp hzero).2), hnext, ok_bind]
  constructor
  · intro hsize
    have htake : (b.words.take r.size).length = r.words.length := List.length_take_of_le hsize
    have hlen : (Subtract (b.words.take r.size) r.words).1.length = r.size :=
      (Subtract_length htake).trans htake
    obtain ⟨r', hr', -, hmagnitude, hsign⟩ := store_ok r hlen.le (Or.inr hlen)
    rw [if_pos hsize, hr', ok_bind]
    refine ⟨r', next, rfl, hquotient, hsign.trans h.remainderPositive, ?_⟩
    rw [hmagnitude]
    exact subtract_low_iff hsize hless.le
  · intro hsize
    rw [if_neg (Nat.not_le.mpr hsize)]
    rfl

theorem divideNegativeL_exact (h : DividedMagnitudes a b r q) (hrest : r.magnitude = 0) :
    divideNegativeL b r q = .ok (r, q.negate) := by
  unfold divideNegativeL
  rw [if_pos (isZero_iff.mpr ⟨h.remainderPositive, hrest⟩)]

/-- `a = q*b + r` and `0 <= r < |b|` for the remainder and the quotient that the functions
return. -/
def DividesEuclidean (a b : TInteger) : Prop :=
  ∃ r q, divideL a b = .ok (r, q) ∧ dividedByL a b = .ok q ∧ moduloL a b = .ok r ∧
    a.toInt = q.toInt * b.toInt + r.toInt ∧ 0 ≤ r.toInt ∧ r.toInt < |b.toInt|

/-- The words of the remainder of a small dividend below zero are words of the divisor, and
hold what is left of it. -/
def RemainderFits (a b : TInteger) : Prop :=
  a.toInt < 0 → |a.toInt| < |b.toInt| →
    a.size ≤ b.size ∧ |b.toInt| - |a.toInt| < (2 ^ 32) ^ a.size

/-- The quotient gets the sign of the divisor. -/
theorem divideL_eq {r' q' : TInteger} (hpositive : positiveDivideL a b = .ok (r, q))
    (hnegative : (if a.isNegative then divideNegativeL b r q else .ok (r, q)) = .ok (r', q')) :
    divideL a b = .ok (r', if b.isNegative then q'.negate else q') := by
  unfold divideL
  rw [hpositive, ok_bind]
  simp only
  rw [hnegative]
  rfl

theorem toInt_signed (b q : TInteger) :
    (if b.isNegative then q.negate else q).toInt * b.toInt = q.toInt * b.magnitude := by
  by_cases hneg : b.isNegative = true
  · rw [if_pos hneg, toInt_negate, toInt_of_negative hneg, Int.neg_mul_neg]
  · rw [if_neg hneg, toInt_of_positive (Bool.eq_false_iff.mpr hneg)]

theorem dividesEuclidean_of {r' q' : TInteger} (hpositive : positiveDivideL a b = .ok (r, q))
    (hnegative : (if a.isNegative then divideNegativeL b r q else .ok (r, q)) = .ok (r', q')) :
    DividesEuclidean a b ↔ a.toInt = q'.toInt * b.magnitude + r'.toInt ∧ 0 ≤ r'.toInt ∧
      r'.toInt < b.magnitude := by
  have hdivide := divideL_eq hpositive hnegative
  have habs : |b.toInt| = b.magnitude := by rw [abs_eq_natAbs, toInt_natAbs]
  have hsigned := toInt_signed b q'
  unfold DividesEuclidean dividedByL moduloL
  rw [habs, hdivide]
  constructor
  · intro h
    obtain ⟨r₁, q₁, hok, -, -, hsum, hrange⟩ := h
    cases hok
    rw [hsigned] at hsum
    exact ⟨hsum, hrange⟩
  · intro h
    refine ⟨_, _, rfl, rfl, rfl, ?_⟩
    rw [hsigned]
    exact h

theorem not_dividesEuclidean {e : Exit} (hpositive : positiveDivideL a b = .ok (r, q))
    (hneg : a.isNegative = true) (hnegative : divideNegativeL b r q = .error e) :
    ¬ DividesEuclidean a b := by
  have hdivide : divideL a b = .error e := by
    unfold divideL
    rw [hpositive, ok_bind]
    simp only
    rw [if_pos hneg, hnegative]
    rfl
  intro h
  obtain ⟨_, _, hok, -⟩ := h
  rw [hdivide] at hok
  cases hok

theorem remainderFits_iff (h : a.isNegative = true) (hpos : 0 < a.magnitude) :
    RemainderFits a b ↔ (a.magnitude < b.magnitude →
      a.size ≤ b.size ∧ b.magnitude - a.magnitude < (2 ^ 32) ^ a.size) := by
  have habs : |a.toInt| = a.magnitude := by rw [abs_eq_natAbs, toInt_natAbs]
  have habs' : |b.toInt| = b.magnitude := by rw [abs_eq_natAbs, toInt_natAbs]
  have hneg : a.toInt < 0 := by
    rw [toInt_of_negative h]
    omega
  unfold RemainderFits
  rw [habs, habs']
  constructor
  · intro hfits hless
    obtain ⟨hsize, hlt⟩ := hfits hneg (by exact_mod_cast hless)
    refine ⟨hsize, ?_⟩
    zify [hless.le]
    exact hlt
  · intro hfits _ hless
    have hless' : a.magnitude < b.magnitude := by exact_mod_cast hless
    obtain ⟨hsize, hlt⟩ := hfits hless'
    zify [hless'.le] at hlt
    exact ⟨hsize, hlt⟩

theorem dividesEuclidean_positive (h : a.isNegative = false) (hne : b.magnitude ≠ 0) :
    DividesEuclidean a b := by
  obtain ⟨r, q, hpositive, hspec⟩ := positiveDivideL_spec (a := a) hne
  have hlt := mod_lt a.magnitude (Nat.pos_of_ne_zero hne)
  have hsum := div_add_mod' a.magnitude b.magnitude
  rw [dividesEuclidean_of hpositive (if_neg (by rw [h]; decide)), toInt_of_positive h,
    toInt_of_positive hspec.remainderPositive, toInt_of_positive hspec.quotientPositive,
    hspec.remainder, hspec.quotient]
  exact ⟨by exact_mod_cast hsum.symm, natCast_nonneg _, by exact_mod_cast hlt⟩

/-- Below zero, an exact multiple. -/
theorem dividesEuclidean_exact (h : a.isNegative = true) (hne : b.magnitude ≠ 0)
    (hrest : a.magnitude % b.magnitude = 0) : DividesEuclidean a b := by
  obtain ⟨r, q, hpositive, hspec⟩ := positiveDivideL_spec (a := a) hne
  have hsum := div_add_mod' a.magnitude b.magnitude
  have hexact := divideNegativeL_exact hspec (hspec.remainder.trans hrest)
  rw [dividesEuclidean_of hpositive ((if_pos h).trans hexact), toInt_negate,
    toInt_of_positive hspec.remainderPositive, toInt_of_positive hspec.quotientPositive,
    toInt_of_negative h, hspec.remainder, hspec.quotient, hrest]
  rw [hrest] at hsum
  generalize a.magnitude / b.magnitude = d at *
  refine ⟨?_, Int.le_refl 0, by omega⟩
  rw [← hsum]
  push_cast
  ring

/-- Below zero, with a remainder. -/
theorem dividesEuclidean_remainder (h : a.isNegative = true) (hne : b.magnitude ≠ 0)
    (hrest : a.magnitude % b.magnitude ≠ 0) :
    DividesEuclidean a b ↔ (a.magnitude < b.magnitude →
      a.size ≤ b.size ∧ b.magnitude - a.magnitude < (2 ^ 32) ^ a.size) := by
  obtain ⟨r, q, hpositive, hspec⟩ := positiveDivideL_spec (a := a) hne
  have hsum := div_add_mod' a.magnitude b.magnitude
  have hless := mod_lt a.magnitude (Nat.pos_of_ne_zero hne)
  rw [← hspec.remainder] at hsum hless hrest
  obtain ⟨hdefined, hundefined⟩ := divideNegativeL_remainder hspec hne hrest
  by_cases hsize : r.size ≤ b.size
  · obtain ⟨r', q', hnegative, hquotient, hsign, hremainder⟩ := hdefined hsize
    rw [dividesEuclidean_of hpositive ((if_pos h).trans hnegative), toInt_of_positive hsign,
      hquotient, toInt_of_negative h]
    have hright : (-(a.magnitude : Int) =
        (-((a.magnitude / b.magnitude : Nat) : Int) - 1) * b.magnitude + r'.magnitude ∧
          0 ≤ (r'.magnitude : Int) ∧ (r'.magnitude : Int) < b.magnitude) ↔
        r'.magnitude = b.magnitude - r.magnitude := by
      generalize a.magnitude / b.magnitude = d at hsum ⊢
      zify [hless.le] at hsum ⊢
      constructor
      · intro hall
        linear_combination -hall.1 + hsum
      · intro heq
        refine ⟨by rw [heq]; linear_combination hsum, natCast_nonneg _, ?_⟩
        rw [heq]
        exact Int.sub_lt_self _ (by exact_mod_cast Nat.pos_of_ne_zero hrest)
    rw [hright, hremainder]
    rcases hspec.sizes with ⟨hsmall, hrsize, -⟩ | ⟨hlarge, -, hroom⟩
    · have hr : r.magnitude = a.magnitude := by rw [hspec.remainder, mod_eq_of_lt hsmall]
      rw [hr, hrsize]
      rw [hrsize] at hsize
      exact ⟨fun hlt _ => ⟨hsize, hlt⟩, fun hfits => (hfits hsmall).2⟩
    · exact ⟨fun _ hsmall => absurd hsmall (Nat.not_lt.mpr hlarge),
        fun _ => (sub_le _ _).trans_lt hroom⟩
  · -- the divisor is too short
    have hnot := not_dividesEuclidean hpositive h (hundefined (Nat.not_le.mp hsize))
    rcases hspec.sizes with ⟨hsmall, hrsize, -⟩ | ⟨-, hle, -⟩
    · rw [hrsize] at hsize
      exact ⟨fun hdivides => absurd hdivides hnot, fun hfits => absurd (hfits hsmall).1 hsize⟩
    · exact absurd hle hsize

theorem magnitude_ne_zero (h : b.toInt ≠ 0) : b.magnitude ≠ 0 := by
  rw [← toInt_natAbs, natAbs_ne_zero]
  exact h

/-- **Signed division is Euclidean division exactly when the remainder fits.** -/
theorem dividesEuclidean_iff (hne : b.toInt ≠ 0) : DividesEuclidean a b ↔ RemainderFits a b := by
  have hb := magnitude_ne_zero hne
  by_cases hneg : a.isNegative = true
  · by_cases hrest : a.magnitude % b.magnitude = 0
    · refine ⟨fun _ hless habs => ?_, fun _ => dividesEuclidean_exact hneg hb hrest⟩
      rw [abs_eq_natAbs, abs_eq_natAbs, toInt_natAbs, toInt_natAbs] at habs
      rw [mod_eq_of_lt (by exact_mod_cast habs)] at hrest
      rw [toInt_of_negative hneg, hrest] at hless
      exact absurd hless (Int.lt_irrefl 0)
    · have hpos : 0 < a.magnitude := by
        apply Nat.pos_of_ne_zero
        intro hzero
        rw [hzero, zero_mod] at hrest
        exact hrest rfl
      rw [remainderFits_iff hneg hpos]
      exact dividesEuclidean_remainder hneg hb hrest
  · have hpositive := Bool.eq_false_iff.mpr hneg
    refine ⟨fun _ hless => ?_, fun _ => dividesEuclidean_positive hpositive hb⟩
    rw [toInt_of_positive hpositive] at hless
    omega

theorem dividesEuclidean_iff_minus_seven :
    DividesEuclidean ⟨[7, 0], .ENegative, ⟨0, rfl⟩⟩ ⟨[2, 0], .ENegative, ⟨0, rfl⟩⟩ ↔
      RemainderFits ⟨[7, 0], .ENegative, ⟨0, rfl⟩⟩ ⟨[2, 0], .ENegative, ⟨0, rfl⟩⟩ :=
  dividesEuclidean_iff (by decide)

/-- -1 in two words by 2^64 + 1 in four: the remainder is zero and not 2^64. -/
theorem not_dividesEuclidean_minus_one :
    ¬ ∀ a b : TInteger, b.toInt ≠ 0 → DividesEuclidean a b := by
  intro h
  have hdivides := h ⟨[1, 0], .ENegative, ⟨0, rfl⟩⟩ ⟨[1, 0, 1, 0], .EPositive, ⟨1, rfl⟩⟩ (by decide)
  have hneg : isNegative ⟨[1, 0], .ENegative, ⟨0, rfl⟩⟩ = true := by decide
  rw [dividesEuclidean_remainder hneg (by decide) (by decide)] at hdivides
  obtain ⟨-, hlt⟩ := hdivides (by decide)
  exact absurd hlt (by decide)

end

end TInteger

end OsSecurity

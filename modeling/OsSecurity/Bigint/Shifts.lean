/-
Shifts of signed integers.

The words are moved first, and then the bits of those words.  Shifting left makes room before:
for as many words as the bits need, a number that is rounded up in 32 bits and wraps for the
largest shifts.  Shifting right drops bits of the magnitude, and with the last of them the sign.
-/
import OsSecurity.Bigint.Arithmetic

namespace OsSecurity

open List Nat UInt32

variable {n m j : Nat} {aBits : UInt32}

def BitsToWords (bitCount : UInt32) : Nat := ((bitCount + 32 - 1) / 32).toNat

/-! ### Moving words -/

def ShiftWordsLeftByWords (r : Words) (shiftWords : Nat) : Words :=
  let shiftWords := min shiftWords r.length
  replicate shiftWords 0 ++ r.take (r.length - shiftWords)

def ShiftWordsRightByWords (r : Words) (shiftWords : Nat) : Words :=
  let shiftWords := min shiftWords r.length
  r.drop shiftWords ++ replicate shiftWords 0

theorem ShiftWordsLeftByWords_length (r : Words) (s : Nat) :
    (ShiftWordsLeftByWords r s).length = r.length := by
  unfold ShiftWordsLeftByWords
  simp only [length_append, length_replicate, length_take]
  omega

theorem ShiftWordsRightByWords_length (r : Words) (s : Nat) :
    (ShiftWordsRightByWords r s).length = r.length := by
  unfold ShiftWordsRightByWords
  simp only [length_append, length_replicate, length_drop]
  omega

namespace TInteger

/-- `n` words from `j` on are changed in their place. -/
def onWords (self : TInteger) (j n : Nat) (f : Words → Words)
    (hf : ∀ w, (f w).length = w.length) : Leaving TInteger :=
  if h : j + n ≤ self.size then
    .ok (self.withWords (writeAt self.words j (f (part self.words j n)))
      (writeAt_length (by rw [hf, part_length h]; exact h)))
  else .error .undefined

/-- `operator<<=` -/
def shiftLeft (self : TInteger) (aBits : UInt32) : Leaving TInteger := do
  let wordCount := self.wordCount
  let shiftWords := aBits.toNat / WORD_BITS
  let shiftBits := aBits.toNat % WORD_BITS
  let grown := self.cleanGrowL (wordCount + BitsToWords aBits)
  let moved ← grown.onWords 0 (wordCount + shiftWords) (ShiftWordsLeftByWords · shiftWords)
    (ShiftWordsLeftByWords_length · shiftWords)
  moved.onWords shiftWords (wordCount + BitsToWords (ofNat shiftBits))
    (fun w => (ShiftWordsLeftByBits w shiftBits).1) (ShiftWordsLeftByBits_length · shiftBits)

/-- `operator>>=` -/
def shiftRight (self : TInteger) (aBits : UInt32) : Leaving TInteger := do
  let wordCount := self.wordCount
  let shiftWords := aBits.toNat / WORD_BITS
  let shiftBits := aBits.toNat % WORD_BITS
  let moved ← self.onWords 0 wordCount (ShiftWordsRightByWords · shiftWords)
    (ShiftWordsRightByWords_length · shiftWords)
  let shifted ← (
    if wordCount > shiftWords then
      moved.onWords 0 (wordCount - shiftWords) (fun w => (ShiftWordsRightByBits w shiftBits).1)
        (ShiftWordsRightByBits_length · shiftBits)
    else .ok moved)
  return if shifted.isNegative && shifted.wordCount = 0 then shifted.setSign .EPositive else shifted

/-- `Bit`: a bit behind the cell is zero. -/
def bit (self : TInteger) (aBitPos : Nat) : Bool :=
  if aBitPos / WORD_BITS ≥ self.size then false
  else (self.words.getD (aBitPos / WORD_BITS) 0).toNat.testBit (aBitPos % WORD_BITS)

section

variable {x : TInteger}

/-! ### What the shifts make -/

theorem onWords_ok {f : Words → Words} (hf : ∀ w, (f w).length = w.length) (h : j + n ≤ x.size) :
    ∃ z, x.onWords j n f hf = .ok z ∧ z.isNegative = x.isNegative ∧ z.size = x.size ∧
      z.words = writeAt x.words j (f (part x.words j n)) := by
  unfold onWords
  rw [dif_pos h]
  exact ⟨_, rfl, rfl, size_withWords _ _, rfl⟩

/-- Words of a number that has `n` words and none below `j`. -/
theorem value_shifted {words : Words} (hj : j + n ≤ words.length)
    (hvalue : value words = (2 ^ 32) ^ j * m) (hm : m < (2 ^ 32) ^ n) :
    value (words.take j) = 0 ∧ value (part words j n) = m ∧
      value (words.drop (j + n)) = 0 := by
  have hpos : 0 < (2 ^ 32) ^ j := Nat.pow_pos (by decide)
  refine ⟨?_, ?_, ?_⟩
  · rw [value_take j (by omega), hvalue, mul_mod_right]
  · rw [value_part hj, hvalue, Nat.mul_div_cancel_left _ hpos, mod_eq_of_lt hm]
  · rw [value_drop _ hj, hvalue, pow_add, Nat.mul_div_mul_left _ _ hpos, div_eq_of_lt hm]

/-- The number in `n` words is replaced by another. -/
theorem value_replaced {words w : Words} (hj : j + n ≤ words.length)
    (hvalue : value words = (2 ^ 32) ^ j * m) (hm : m < (2 ^ 32) ^ n) (hw : w.length = n) :
    value (writeAt words j w) = (2 ^ 32) ^ j * value w := by
  obtain ⟨hlow, -, hhigh⟩ := value_shifted hj hvalue hm
  rw [value_writeAt (by rw [hw]; exact hj), hw, hlow, hhigh]
  ring

theorem BitsToWords_eq (h : aBits.toNat + 31 < 2 ^ 32) :
    BitsToWords aBits = (aBits.toNat + 31) / 32 := by
  have hsum : (aBits + 32 - 1).toNat = aBits.toNat + 31 := by
    rw [UInt32.toNat_sub, UInt32.toNat_add]
    show (2 ^ 32 - 1 + (aBits.toNat + 32) % 2 ^ 32) % 2 ^ 32 = _
    omega
  unfold BitsToWords
  rw [UInt32.toNat_div, hsum]
  rfl

/-- The number of bits is so large that rounding it up to words wraps. -/
theorem BitsToWords_wrapped (h : 2 ^ 32 ≤ aBits.toNat + 31) : BitsToWords aBits = 0 := by
  have hlt := aBits.toNat_lt
  have hsum : (aBits + 32 - 1).toNat = aBits.toNat + 31 - 2 ^ 32 := by
    rw [UInt32.toNat_sub, UInt32.toNat_add]
    show (2 ^ 32 - 1 + (aBits.toNat + 32) % 2 ^ 32) % 2 ^ 32 = _
    omega
  unfold BitsToWords
  rw [UInt32.toNat_div, hsum]
  show (aBits.toNat + 31 - 2 ^ 32) / 32 = 0
  omega

/-- The words that are written fit in the cell. -/
def RoomToShift (x : TInteger) (aBits : UInt32) : Prop :=
  aBits.toNat + 31 < 2 ^ 32 ∨ x.wordCount + 2 ^ 27 ≤ x.size

theorem roomToShift_iff (x : TInteger) (aBits : UInt32) :
    RoomToShift x aBits ↔ aBits.toNat / WORD_BITS +
        (x.wordCount + BitsToWords (ofNat (aBits.toNat % WORD_BITS))) ≤
      (x.cleanGrowL (x.wordCount + BitsToWords aBits)).size := by
  have hlt := aBits.toNat_lt
  have hrest : (ofNat (aBits.toNat % 32)).toNat = aBits.toNat % 32 := by
    rw [toNat_ofNat']
    omega
  have hbits : BitsToWords (ofNat (aBits.toNat % 32)) = (aBits.toNat % 32 + 31) / 32 := by
    rw [BitsToWords_eq (by rw [hrest]; omega), hrest]
  have hle := (RoundupSize_least (x.wordCount + BitsToWords aBits)).le
  unfold RoomToShift WORD_BITS
  rw [hbits, size_cleanGrowL]
  by_cases hsmall : aBits.toNat + 31 < 2 ^ 32
  · rw [BitsToWords_eq hsmall] at hle ⊢
    refine ⟨fun _ => ?_, fun _ => .inl hsmall⟩
    omega
  · rw [BitsToWords_wrapped (by omega),
      Nat.max_eq_left (show RoundupSize (x.wordCount + 0) ≤ x.size from
        RoundupSize_le x.wordCount_le)]
    omega

/-- The words move up, and zeros take their place. -/
theorem ShiftWordsLeftByWords_value {r : Words} {s : Nat} (hr : r.length = n + s)
    (hvalue : value r = m) (hm : m < (2 ^ 32) ^ n) :
    value (ShiftWordsLeftByWords r s) = (2 ^ 32) ^ s * m := by
  unfold ShiftWordsLeftByWords
  have hmin : min s r.length = s := by omega
  have hrest : r.length - s = n := by omega
  simp only
  rw [hmin, hrest, value_append, length_replicate, value_zeros, Nat.zero_add,
    value_take n (by omega), hvalue, mod_eq_of_lt hm]

/-- The shift by bits leaves nothing to carry when there is a word for them. -/
theorem ShiftWordsLeftByBits_fits {r : Words} {s : Nat} (hs : s < 32)
    (hr : r.length = n + (s + 31) / 32) (hvalue : value r = m) (hm : m < (2 ^ 32) ^ n) :
    value (ShiftWordsLeftByBits r s).1 = m * 2 ^ s ∧ m * 2 ^ s < (2 ^ 32) ^ r.length := by
  have hfits : m * 2 ^ s < (2 ^ 32) ^ r.length := by
    rcases Nat.eq_zero_or_pos s with rfl | hpos
    · rw [hr, pow_zero, Nat.mul_one]
      exact hm
    · have hone : (s + 31) / 32 = 1 := by omega
      rw [hr, hone, pow_succ]
      exact Nat.mul_lt_mul'' hm (Nat.pow_lt_pow_right (by decide) hs)
  have hshift := ShiftWordsLeftByBits_value hs r
  rw [hvalue] at hshift
  have hnone : (ShiftWordsLeftByBits r s).2.toNat = 0 := by
    by_contra hne
    have hle : (2 ^ 32) ^ r.length ≤ (2 ^ 32) ^ r.length * (ShiftWordsLeftByBits r s).2.toNat :=
      Nat.le_mul_of_pos_right _ (Nat.pos_of_ne_zero hne)
    omega
  rw [hnone, Nat.mul_zero, Nat.add_zero] at hshift
  exact ⟨hshift, hfits⟩

theorem shiftLeft_undefined (h : ¬RoomToShift x aBits) : x.shiftLeft aBits = .error .undefined := by
  have hroom := mt (roomToShift_iff x aBits).mpr h
  unfold shiftLeft
  simp only
  generalize x.cleanGrowL (x.wordCount + BitsToWords aBits) = grown at *
  by_cases hfirst : 0 + (x.wordCount + aBits.toNat / WORD_BITS) ≤ grown.size
  · obtain ⟨moved, hmoved, -, hsize, -⟩ := onWords_ok
      (ShiftWordsLeftByWords_length · (aBits.toNat / WORD_BITS)) hfirst
    rw [hmoved]
    simp only [ok_bind]
    unfold onWords
    rw [dif_neg (by rw [hsize]; exact hroom)]
  · have hundefined : grown.onWords 0 (x.wordCount + aBits.toNat / WORD_BITS)
        (ShiftWordsLeftByWords · (aBits.toNat / WORD_BITS))
        (ShiftWordsLeftByWords_length · (aBits.toNat / WORD_BITS)) = .error .undefined := by
      unfold onWords
      rw [dif_neg hfirst]
    rw [hundefined]
    rfl

theorem shiftLeft_spec (h : RoomToShift x aBits) :
    ∃ z, x.shiftLeft aBits = .ok z ∧ z.isNegative = x.isNegative ∧
      z.magnitude = x.magnitude * 2 ^ aBits.toNat := by
  have hroom := (roomToShift_iff x aBits).mp h
  have hbits : aBits.toNat % WORD_BITS < 32 := mod_lt _ (by decide)
  have hrest : BitsToWords (ofNat (aBits.toNat % WORD_BITS)) =
      (aBits.toNat % WORD_BITS + 31) / 32 := by
    have hnat : (ofNat (aBits.toNat % WORD_BITS)).toNat = aBits.toNat % WORD_BITS := by
      rw [toNat_ofNat']
      omega
    rw [BitsToWords_eq (by rw [hnat]; omega), hnat]
  have hall : WORD_BITS * (aBits.toNat / WORD_BITS) + aBits.toNat % WORD_BITS = aBits.toNat :=
    div_add_mod _ _
  have hm := x.magnitude_lt_wordCount
  have hgrown := magnitude_cleanGrowL x (x.wordCount + BitsToWords aBits)
  have hsign : (x.cleanGrowL (x.wordCount + BitsToWords aBits)).isNegative = x.isNegative := by
    rw [isNegative, sign_cleanGrowL]
    rfl
  unfold shiftLeft
  simp only
  rw [hrest] at hroom ⊢
  generalize x.cleanGrowL (x.wordCount + BitsToWords aBits) = grown at *
  generalize aBits.toNat / WORD_BITS = shiftWords at *
  generalize aBits.toNat % WORD_BITS = shiftBits at *
  generalize x.wordCount = n at *
  generalize x.magnitude = m at *
  -- the words move up
  obtain ⟨moved, hmoved, hmovedSign, hmovedSize, hwords⟩ := onWords_ok (x := grown) (j := 0)
    (n := n + shiftWords) (ShiftWordsLeftByWords_length · shiftWords) (by omega)
  have hfit : m < (2 ^ 32) ^ (n + shiftWords) :=
    hm.trans_le (Nat.pow_le_pow_right (by decide) (Nat.le_add_right _ _))
  have hvalue : value grown.words = (2 ^ 32) ^ 0 * m := by
    rw [pow_zero, Nat.one_mul]
    exact hgrown
  have hlen : 0 + (n + shiftWords) ≤ grown.words.length := by
    show _ ≤ grown.size
    omega
  obtain ⟨-, hpart, -⟩ := value_shifted hlen hvalue hfit
  have hup := ShiftWordsLeftByWords_value (part_length hlen) hpart hm
  have hmovedValue : value moved.words = (2 ^ 32) ^ shiftWords * m := by
    rw [hwords, value_replaced hlen hvalue hfit
      ((ShiftWordsLeftByWords_length _ _).trans (part_length hlen)), hup, pow_zero, Nat.one_mul]
  -- the bits are shifted among those words and one more
  obtain ⟨z, hz, hzSign, -, hzWords⟩ := onWords_ok (x := moved) (j := shiftWords)
    (n := n + (shiftBits + 31) / 32) (f := fun w => (ShiftWordsLeftByBits w shiftBits).1)
    (ShiftWordsLeftByBits_length · shiftBits) (by omega)
  have hlen' : shiftWords + (n + (shiftBits + 31) / 32) ≤ moved.words.length := by
    show _ ≤ moved.size
    omega
  have hfit' : m < (2 ^ 32) ^ (n + (shiftBits + 31) / 32) :=
    hm.trans_le (Nat.pow_le_pow_right (by decide) (Nat.le_add_right _ _))
  obtain ⟨-, hpart', -⟩ := value_shifted hlen' hmovedValue hfit'
  obtain ⟨hshift, -⟩ := ShiftWordsLeftByBits_fits hbits (part_length hlen') hpart' hm
  rw [hmoved]
  refine ⟨z, hz, hzSign.trans (hmovedSign.trans hsign), ?_⟩
  show value z.words = _
  rw [hzWords, value_replaced hlen' hmovedValue hfit'
    ((ShiftWordsLeftByBits_length _ _).trans (part_length hlen')), hshift, ← hall, pow_add, pow_mul]
  show (2 ^ 32) ^ shiftWords * (m * 2 ^ shiftBits) = m * ((2 ^ 32) ^ shiftWords * 2 ^ shiftBits)
  ring

/-- **`operator<<=`** is right exactly where the words fit in the cell. -/
theorem shiftLeft_makes_iff (hx : x.WellSigned) (aBits : UInt32) :
    Makes (x.shiftLeft aBits) (x.toInt * 2 ^ aBits.toNat) ↔ RoomToShift x aBits := by
  constructor
  · intro h
    by_contra hroom
    rw [shiftLeft_undefined hroom] at h
    exact not_makes_undefined _ h
  · intro hroom
    obtain ⟨z, hz, hsign, hmagnitude⟩ := shiftLeft_spec hroom
    rcases toInt_cases x with ⟨hxs, hxv⟩ | ⟨hxs, hxv⟩
    · refine ⟨z, hz, .of_positive (hsign.trans hxs) ?_⟩
      rw [hmagnitude, hxv, cast_mul, cast_pow]
      rfl
    · refine ⟨z, hz, .of_negative (hsign.trans hxs) ?_ ?_⟩
      · rw [hmagnitude]
        exact Nat.mul_ne_zero (hx hxs) (Nat.two_pow_pos _).ne'
      · rw [hmagnitude, hxv, neg_mul, cast_mul, cast_pow]
        rfl

/-- The words move down, and zeros take their place. -/
theorem ShiftWordsRightByWords_value {r : Words} (s : Nat) :
    value (ShiftWordsRightByWords r s) = value r / (2 ^ 32) ^ s := by
  unfold ShiftWordsRightByWords
  simp only
  rw [value_append, value_zeros, Nat.mul_zero, Nat.add_zero, value_drop _ (Nat.min_le_right _ _)]
  rcases Nat.le_total s r.length with hle | hle
  · rw [Nat.min_eq_left hle]
  · have hlt := value_lt r
    have hpow : (2 ^ 32) ^ r.length ≤ (2 ^ 32) ^ s := Nat.pow_le_pow_right (by decide) hle
    rw [Nat.min_eq_right hle, div_eq_of_lt hlt, div_eq_of_lt (by omega)]

/-- The low words of a number that has no others are changed. -/
theorem onWords_low {f : Words → Words} (hf : ∀ w, (f w).length = w.length) (hn : n ≤ x.size)
    (hvalue : x.magnitude = m) (hm : m < (2 ^ 32) ^ n) {m' : Nat}
    (hchange : ∀ w, value w = m → value (f w) = m') :
    ∃ z, x.onWords 0 n f hf = .ok z ∧ z.isNegative = x.isNegative ∧ z.size = x.size ∧
      z.magnitude = m' := by
  have hlen : 0 + n ≤ x.words.length := by
    rw [Nat.zero_add]
    exact hn
  have hall : value x.words = (2 ^ 32) ^ 0 * m := by
    rw [pow_zero, Nat.one_mul]
    exact hvalue
  obtain ⟨z, hz, hsign, hsize, hwords⟩ := onWords_ok (x := x) (j := 0) (n := n) hf hlen
  obtain ⟨-, hpart, -⟩ := value_shifted hlen hall hm
  refine ⟨z, hz, hsign, hsize, ?_⟩
  show value z.words = _
  rw [hwords, value_replaced hlen hall hm ((hf _).trans (part_length hlen)), hchange _ hpart,
    pow_zero, Nat.one_mul]

/-- The shift before the sign is looked at. -/
theorem shiftRight_eq (x : TInteger) (aBits : UInt32) :
    ∃ z, z.isNegative = x.isNegative ∧ z.magnitude = x.magnitude / 2 ^ aBits.toNat ∧
      x.shiftRight aBits =
        .ok (if z.isNegative && z.wordCount = 0 then z.setSign .EPositive else z) := by
  have hbits : aBits.toNat % WORD_BITS < 32 := mod_lt _ (by decide)
  have hall : WORD_BITS * (aBits.toNat / WORD_BITS) + aBits.toNat % WORD_BITS = aBits.toNat :=
    div_add_mod _ _
  have hm := x.magnitude_lt_wordCount
  have hn := x.wordCount_le
  obtain ⟨moved, hmoved, hmovedSign, hmovedSize, hmovedValue⟩ := onWords_low
    (ShiftWordsRightByWords_length · (aBits.toNat / WORD_BITS)) hn rfl hm
    (fun w hw => (ShiftWordsRightByWords_value _).trans (congrArg (· / _) hw))
  unfold shiftRight
  simp only
  rw [hmoved]
  simp only [ok_bind]
  have hpow : (2 : Nat) ^ aBits.toNat =
      (2 ^ 32) ^ (aBits.toNat / WORD_BITS) * 2 ^ (aBits.toNat % WORD_BITS) := by
    conv_lhs => rw [← hall, pow_add, pow_mul]
    rfl
  rw [hpow, ← Nat.div_div_eq_div_mul]
  generalize aBits.toNat / WORD_BITS = shiftWords at *
  generalize aBits.toNat % WORD_BITS = shiftBits at *
  by_cases hmore : x.wordCount > shiftWords
  · have hless : x.magnitude / (2 ^ 32) ^ shiftWords < (2 ^ 32) ^ (x.wordCount - shiftWords) := by
      apply Nat.div_lt_of_lt_mul
      rw [← pow_add, add_sub_of_le hmore.le]
      exact hm
    obtain ⟨z, hz, hsign, -, hvalue⟩ := onWords_low (ShiftWordsRightByBits_length · shiftBits)
      (by omega : x.wordCount - shiftWords ≤ moved.size) hmovedValue hless
      (fun w hw => (ShiftWordsRightByBits_value hbits w).trans (congrArg (· / _) hw))
    rw [if_pos hmore, hz]
    exact ⟨z, hsign.trans hmovedSign, hvalue, rfl⟩
  · have hzero : x.magnitude / (2 ^ 32) ^ shiftWords = 0 := by
      apply div_eq_of_lt
      exact hm.trans_le (Nat.pow_le_pow_right (by decide) (by omega))
    rw [if_neg hmore]
    refine ⟨moved, hmovedSign, ?_, rfl⟩
    rw [hmovedValue, hzero, Nat.zero_div]

/-- **`operator>>=`** -/
theorem shiftRight_makes (x : TInteger) (aBits : UInt32) :
    Makes (x.shiftRight aBits) (x.toInt.tdiv (2 ^ aBits.toNat)) := by
  obtain ⟨z, hsign, hmagnitude, heq⟩ := shiftRight_eq x aBits
  rw [heq]
  have hdiv : ((x.magnitude : Int)).tdiv (2 ^ aBits.toNat) = (z.magnitude : Int) := by
    rw [hmagnitude, Int.natCast_ediv, Int.tdiv_eq_ediv_of_nonneg (Int.natCast_nonneg _), cast_pow]
    rfl
  rcases toInt_cases x with ⟨hxs, hxv⟩ | ⟨hxs, hxv⟩
  · rw [hxv, hdiv, hsign, hxs]
    exact ⟨z, rfl, .of_positive (hsign.trans hxs) rfl⟩
  · rw [hxv, Int.neg_tdiv, hdiv]
    have hnegative := hsign.trans hxs
    by_cases hzero : z.magnitude = 0
    · rw [hnegative, decide_eq_true (wordCount_eq_zero.mpr hzero)]
      refine ⟨z.setSign .EPositive, rfl, .of_positive rfl ?_⟩
      rw [magnitude_setSign, hzero]
      rfl
    · rw [hnegative, decide_eq_false (mt wordCount_eq_zero.mp hzero)]
      exact ⟨_, rfl, .of_negative hnegative hzero rfl⟩

/-! ### Bits -/

/-- A word of a number, in its place, is not more than the number. -/
theorem word_le_value {A : Words} (h : j < A.length) :
    (2 ^ 32) ^ j * (A.getD j 0).toNat ≤ value A := by
  have hdrop := value_drop j h.le
  rw [drop_eq_getElem_cons h, value_cons] at hdrop
  have hword : A.getD j 0 = A[j] := by
    rw [getD_eq_getElem?_getD, getElem?_eq_getElem h, Option.getD_some]
  calc (2 ^ 32) ^ j * (A.getD j 0).toNat
      ≤ (2 ^ 32) ^ j * (value A / (2 ^ 32) ^ j) := Nat.mul_le_mul_left _ (by rw [hword]; omega)
    _ ≤ value A := mul_div_le _ _

/-- A number is not less than a bit of it. -/
theorem le_magnitude_of_bit {aBitPos : Nat} (h : x.bit aBitPos = true) :
    2 ^ aBitPos ≤ x.magnitude := by
  unfold bit at h
  by_cases hpast : aBitPos / WORD_BITS ≥ x.size
  · rw [if_pos hpast] at h
    cases h
  · rw [if_neg hpast] at h
    have hword := word_le_value (A := x.words) (j := aBitPos / WORD_BITS) (Nat.not_le.mp hpast)
    have hbit : 2 ^ (aBitPos % WORD_BITS) ≤ (x.words.getD (aBitPos / WORD_BITS) 0).toNat :=
      ge_two_pow_of_testBit h
    have hall : WORD_BITS * (aBitPos / WORD_BITS) + aBitPos % WORD_BITS = aBitPos :=
      div_add_mod _ _
    calc 2 ^ aBitPos
        = (2 ^ 32) ^ (aBitPos / WORD_BITS) * 2 ^ (aBitPos % WORD_BITS) := by
          conv_lhs => rw [← hall, pow_add, pow_mul]
          rfl
      _ ≤ (2 ^ 32) ^ (aBitPos / WORD_BITS) *
            (x.words.getD (aBitPos / WORD_BITS) 0).toNat := Nat.mul_le_mul_left _ hbit
      _ ≤ x.magnitude := hword

end

end TInteger

end OsSecurity

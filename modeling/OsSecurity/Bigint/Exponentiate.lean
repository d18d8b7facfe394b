/-
`ExponentiateL`: `bigint.cpp`.

The position of the exponent's last bit is its `BitCount`, a word, less one, as a `TInt`.  An
exponent of more than 2^31 bits is not taken from its last bit: only the bits are that the number
of bits counts as a word, and none if that is more than 2^31.
-/
import OsSecurity.Bigint.InverseModulo
import OsSecurity.Bigint.WindowSlider

namespace OsSecurity

open List Nat SlidingWindow TWindowSlider UInt32

namespace TInteger

def squaredL (self : TInteger) : Leaving TInteger := positiveMultiplyL true self self

/-- An element of an `RRArray`. -/
def elementOf (powerArray : List TInteger) (n : Nat) : Leaving TInteger :=
  match powerArray[n]? with
  | some power => .ok power
  | none => panic

/-- The powers that are appended to `powerArray`, from its `k`th element on: each is made from the
one before it. -/
def appendPowersL (next : TInteger → Leaving TInteger) :
    (turns k : Nat) → List TInteger → Leaving (List TInteger)
  | 0, _, powerArray => .ok powerArray
  | turns + 1, k, powerArray => do
    let last ← elementOf powerArray (k - 1)
    let power ← next last
    appendPowersL next turns (k + 1) (powerArray ++ [power])

/-- `operator*=`, by an element of the array. -/
def timesElementL (powerArray : List TInteger) (A : TInteger) (n : Nat) : Leaving TInteger := do
  let power ← elementOf powerArray n
  A.timesL (.other power)

def exponentiateL (self aExponent : TInteger) : Leaving TInteger := do
  let g2 ← self.squaredL
  let g1 ← newL self
  let slider := TWindowSlider.ofExponent aExponent
  let count := 1 <<< (slider.iSize - 1) - 1
  let powerArray ← appendPowersL (fun last => g2.timesL (.other last)) count 1 [g1]
  let A ← newL one
  TWindowSlider.slide (·.timesL .itself) (timesElementL powerArray) slider
    (TInt.wrap (aExponent.bitCount - 1).toNat) A

section

variable {x : TInteger}

/-! ### The table of odd powers -/

theorem squaredL_makes (x : TInteger) : Makes x.squaredL (x.toInt ^ 2) := by
  obtain ⟨z, hz, hsign, hmagnitude⟩ : ∃ z, positiveMultiplyL true x x = .ok z ∧
      z.isNegative = false ∧ z.magnitude = x.magnitude * x.magnitude :=
    positiveMultiplyL_spec fun _ => rfl
  refine ⟨z, hz, .of_positive hsign ?_⟩
  rw [hmagnitude, ← toInt_natAbs x, ← Int.natAbs_mul, pow_two,
    Int.natAbs_of_nonneg (mul_self_nonneg x.toInt)]

/-- The array has the odd powers, up to the one with the exponent `2 * count - 1`. -/
structure OddPowers (IsPower : TInteger → Nat → Prop) (count : Nat)
    (powerArray : List TInteger) : Prop where
  length : powerArray.length = count
  power : ∀ k power, powerArray[k]? = some power → IsPower power (2 * k + 1)

section

variable {IsPower : TInteger → Nat → Prop} {count : Nat} {powerArray : List TInteger}

theorem oddPowers_first {g1 : TInteger} (h : IsPower g1 1) : OddPowers IsPower 1 [g1] := by
  refine ⟨rfl, fun k power hk => ?_⟩
  cases k with
  | zero =>
      obtain rfl := Option.some.inj hk
      exact h
  | succ k => cases hk

theorem OddPowers.element {k : Nat} (h : OddPowers IsPower count powerArray) (hk : k < count) :
    ∃ power, elementOf powerArray k = .ok power ∧ IsPower power (2 * k + 1) := by
  have hlt : k < powerArray.length := by rwa [h.length]
  refine ⟨powerArray[k], ?_, h.power k _ (getElem?_eq_getElem hlt)⟩
  unfold elementOf
  rw [getElem?_eq_getElem hlt]

theorem OddPowers.append {power : TInteger} (h : OddPowers IsPower count powerArray)
    (hpower : IsPower power (2 * count + 1)) :
    OddPowers IsPower (count + 1) (powerArray ++ [power]) := by
  refine ⟨?_, fun k next hk => ?_⟩
  · rw [length_append, h.length, length_singleton]
  · by_cases hlast : k = count
    · rw [hlast, ← h.length, getElem?_concat_length] at hk
      obtain rfl := Option.some.inj hk
      rw [hlast]
      exact hpower
    · have hlt : k < powerArray.length := by
        have hall := (List.getElem?_eq_some_iff.mp hk).1
        rw [length_append, length_singleton, h.length] at hall
        rw [h.length]
        omega
      rw [getElem?_append_left hlt] at hk
      exact h.power k next hk

/-- **The table.** -/
theorem appendPowersL_spec {next : TInteger → Leaving TInteger}
    (hnext : ∀ last n, IsPower last n → ∃ power, next last = .ok power ∧ IsPower power (n + 2))
    (turns : Nat) {k : Nat} (hk : 0 < k) (h : OddPowers IsPower k powerArray) :
    ∃ powers, appendPowersL next turns k powerArray = .ok powers ∧
      OddPowers IsPower (k + turns) powers := by
  induction turns generalizing k powerArray with
  | zero => exact ⟨powerArray, rfl, h⟩
  | succ turns ih =>
      obtain ⟨last, hlast, hvalue⟩ := h.element (k := k - 1) (by omega)
      obtain ⟨power, hpower, hodd⟩ := hnext last _ hvalue
      have hexponent : 2 * (k - 1) + 1 + 2 = 2 * k + 1 := by omega
      rw [hexponent] at hodd
      obtain ⟨powers, hpowers, hall⟩ := ih (succ_pos k) (h.append hodd)
      refine ⟨powers, ?_, ?_⟩
      · rw [appendPowersL, hlast, ok_bind, hpower, ok_bind]
        exact hpowers
      · have hcount : k.succ + turns = k + (turns + 1) := by omega
        rwa [hcount] at hall

/-- The table that a slider's windows index. -/
theorem powerTable_spec (IsPower : TInteger → Nat → Prop) {next : TInteger → Leaving TInteger} {g1 : TInteger}
    (hnext : ∀ last n, IsPower last n → ∃ power, next last = .ok power ∧ IsPower power (n + 2))
    (iSize : Nat) (h : IsPower g1 1) :
    ∃ powers, appendPowersL next (1 <<< (iSize - 1) - 1) 1 [g1] = .ok powers ∧
      OddPowers IsPower (2 ^ (iSize - 1)) powers := by
  have hcount : 1 + (1 <<< (iSize - 1) - 1) = 2 ^ (iSize - 1) := by
    rw [one_shiftLeft]
    have hpos := Nat.two_pow_pos (iSize - 1)
    omega
  obtain ⟨powers, hpowers, hodd⟩ := appendPowersL_spec hnext (1 <<< (iSize - 1) - 1) Nat.one_pos
    (oddPowers_first h)
  rw [hcount] at hodd
  exact ⟨powers, hpowers, hodd⟩

end

/-! ### The power -/

/-- The bits of an exponent that the loop takes, for what its `BitCount` is. -/
def scannedBits (bitCount : UInt32) : Nat :=
  if bitCount.toNat ≤ 2 ^ 31 then bitCount.toNat else 0

/-- The position that the loop starts from. -/
theorem start_position (bitCount : UInt32) :
    TInt.wrap (bitCount - 1).toNat = (scannedBits bitCount : Int) - 1 ∨
      TInt.wrap (bitCount - 1).toNat < 0 ∧ scannedBits bitCount = 0 := by
  have hlt := bitCount.toNat_lt
  unfold scannedBits TInt.wrap
  by_cases hzero : bitCount = 0
  · left
    rw [hzero]
    decide
  have hpos : bitCount.toNat ≠ 0 := fun hc => hzero (UInt32.toNat_inj.mp hc)
  have hless : (bitCount - 1).toNat = bitCount.toNat - 1 := by
    rw [UInt32.toNat_sub_of_le _ _ (le_iff_toNat_le.mpr (by
      rw [toNat_one]
      omega)), toNat_one]
  rw [hless, Int.bmod_def]
  by_cases hle : bitCount.toNat ≤ 2 ^ 31
  · rw [if_pos hle]
    left
    omega
  · rw [if_neg hle]
    right
    omega

theorem slide_start {square : TInteger → Leaving TInteger}
    {multiply : TInteger → Nat → Leaving TInteger} (slider : TWindowSlider) (A : TInteger)
    (bitCount : UInt32) :
    slide square multiply slider (TInt.wrap (bitCount - 1).toNat) A =
      slide square multiply slider ((scannedBits bitCount : Int) - 1) A := by
  rcases start_position bitCount with hstart | ⟨hneg, hnone⟩
  · rw [hstart]
  · rw [slide, if_neg (by omega), hnone, slide, if_neg (by decide)]

theorem steps_start (slider : TWindowSlider) (bitCount : UInt32) :
    slider.steps (TInt.wrap (bitCount - 1).toNat) =
      slider.steps ((scannedBits bitCount : Int) - 1) := by
  rcases start_position bitCount with hstart | ⟨hneg, hnone⟩
  · rw [hstart]
  · rw [steps, if_neg (by omega), hnone, steps, if_neg (by decide)]

theorem scannedBits_le (bitCount : UInt32) : scannedBits bitCount ≤ 2 ^ 31 := by
  unfold scannedBits
  split_ifs with hle
  · exact hle
  · exact Nat.zero_le _

theorem timesL_powersTo {powerArray : List TInteger} {count : Nat} {n : Int}
    (h : OddPowers (fun power m => power.toInt = n ^ m) count powerArray) :
    PowersTo (·.timesL .itself) (timesElementL powerArray) count
      fun A m => A.IsInt (n ^ m) := by
  constructor
  · intro A m hA
    obtain ⟨z, hz, hint⟩ := timesL_makes A .itself
    refine ⟨z, hz, ?_⟩
    have hvalue : (Operand.itself.integer A).toInt = n ^ m := hA.toInt
    rwa [hvalue, hA.toInt, ← pow_add] at hint
  · intro A m k hk hA
    obtain ⟨power, hpower, hvalue⟩ := h.element hk
    obtain ⟨z, hz, hint⟩ := timesL_makes A (.other power)
    refine ⟨z, ?_, ?_⟩
    · unfold timesElementL
      rw [hpower, ok_bind]
      exact hz
    · have hother : ((Operand.other power).integer A).toInt = n ^ (2 * k + 1) := hvalue
      rwa [hother, hA.toInt, ← pow_add] at hint

/-- **`ExponentiateL`** makes the power with the bits that are taken. -/
theorem exponentiateL_makes (x e : TInteger) :
    Makes (x.exponentiateL e) (x.toInt ^ (e.magnitude % 2 ^ scannedBits e.bitCount)) := by
  obtain ⟨g2, hg2, hsquare⟩ := squaredL_makes x
  have hnext : ∀ last n, last.toInt = x.toInt ^ n →
      ∃ power, g2.timesL (.other last) = .ok power ∧ power.toInt = x.toInt ^ (n + 2) := by
    intro last n hlast
    obtain ⟨power, hpower, hint⟩ := timesL_makes g2 (.other last)
    refine ⟨power, hpower, ?_⟩
    rw [hint.toInt]
    show g2.toInt * last.toInt = _
    rw [hsquare.toInt, hlast, ← pow_add, Nat.add_comm]
  obtain ⟨powers, hpowers, hodd⟩ := powerTable_spec
    (fun power m => power.toInt = x.toInt ^ m) hnext
    (ofExponent e).iSize (pow_one x.toInt).symm
  have hone : one.IsInt (x.toInt ^ 0) := by
    refine .of_positive rfl ?_
    rw [magnitude_one, pow_zero]
    rfl
  obtain ⟨z, hz, hint⟩ := slide_spec (ofExponent e)
    (timesL_powersTo hodd) (scannedBits_le e.bitCount) hone
  refine ⟨z, ?_, hint⟩
  unfold exponentiateL
  rw [hg2, ok_bind, newL_eq, ok_bind]
  simp only
  rw [hpowers, ok_bind, newL_eq, ok_bind, slide_start]
  exact hz

theorem Makes.unique {result : Leaving TInteger} {m n : Int} (hm : Makes result m)
    (hn : Makes result n) : m = n := by
  obtain ⟨y, hy, hym⟩ := hm
  obtain ⟨z, hz, hzn⟩ := hn
  obtain rfl := Except.ok.inj (hy.symm.trans hz)
  rw [← hym.toInt, hzn.toInt]

/-- The exponent with the bits that are taken, of an exponent of any length. -/
def taken (e : Nat) : Nat := e % 2 ^ scannedBits (ofNat (Nat.size e))

/-- All the bits are taken of an exponent of at most 2^31 bits. -/
theorem taken_eq_iff (e : Nat) : taken e = e ↔ e < 2 ^ (2 ^ 31) := by
  have hle := scannedBits_le (ofNat (Nat.size e))
  have hself := lt_size_self e
  unfold taken
  constructor
  · intro heq
    rw [← heq]
    exact (mod_lt e (Nat.two_pow_pos _)).trans_le (Nat.pow_le_pow_right (by decide) hle)
  · intro hlt
    have hsize := size_le.mpr hlt
    have hword : (ofNat (Nat.size e)).toNat = Nat.size e := by
      rw [toNat_ofNat']
      exact mod_eq_of_lt (Nat.lt_of_le_of_lt hsize (by decide))
    have hall : scannedBits (ofNat (Nat.size e)) = Nat.size e := by
      unfold scannedBits
      rw [hword, if_pos hsize]
    rw [hall]
    exact mod_eq_of_lt hself

theorem pow_eq_pow_iff_of_lt {x : Int} {m n : Nat} (h : m < n) :
    x ^ m = x ^ n ↔ x = 1 ∨ x = -1 ∧ m % 2 = n % 2 ∨ x = 0 ∧ m ≠ 0 := by
  constructor
  · intro heq
    have habs : x.natAbs ^ m = x.natAbs ^ n := by
      rw [← Int.natAbs_pow, ← Int.natAbs_pow, heq]
    rcases Nat.lt_or_ge 1 x.natAbs with hlarge | hsmall
    · exact absurd habs (Nat.pow_lt_pow_right hlarge h).ne
    obtain rfl | rfl | rfl : x = 0 ∨ x = 1 ∨ x = -1 := by omega
    · right
      right
      refine ⟨rfl, ?_⟩
      rintro rfl
      rw [pow_zero, zero_pow (by omega)] at heq
      exact absurd heq (by decide)
    · exact .inl rfl
    · right
      left
      refine ⟨rfl, ?_⟩
      rw [neg_one_pow_eq_pow_mod_two, neg_one_pow_eq_pow_mod_two (n := n)] at heq
      rcases mod_two_eq_zero_or_one m with hm | hm <;>
        rcases mod_two_eq_zero_or_one n with hn | hn <;>
        rw [hm, hn] at heq ⊢ <;>
        exact absurd heq (by decide)
  · rintro (rfl | ⟨rfl, hparity⟩ | ⟨rfl, hne⟩)
    · rw [one_pow, one_pow]
    · rw [neg_one_pow_eq_pow_mod_two, hparity, ← neg_one_pow_eq_pow_mod_two]
    · rw [zero_pow hne, zero_pow (by omega)]

/-- The exponent has at most 2^31 bits, or the base is one of those whose powers are the same
with the bits that are taken. -/
def ExponentFits (x : Int) (e : Nat) : Prop :=
  e < 2 ^ (2 ^ 31) ∨ x = 1 ∨ x = -1 ∧ taken e % 2 = e % 2 ∨ x = 0 ∧ taken e ≠ 0

theorem pow_taken_iff (x : Int) (e : Nat) : x ^ taken e = x ^ e ↔ ExponentFits x e := by
  unfold ExponentFits
  by_cases hlt : e < 2 ^ (2 ^ 31)
  · rw [(taken_eq_iff e).mpr hlt]
    exact ⟨fun _ => .inl hlt, fun _ => rfl⟩
  · have hless : taken e < e :=
      Nat.lt_of_le_of_ne (mod_le _ _) (mt (taken_eq_iff e).mp hlt)
    rw [pow_eq_pow_iff_of_lt hless]
    exact ⟨fun h => .inr h, fun h => h.resolve_left hlt⟩

theorem exponent_magnitude {e : TInteger} (he : 0 ≤ e.toInt) : e.toInt.toNat = e.magnitude := by
  have habs := toInt_natAbs e
  omega

/-- **`ExponentiateL` is right exactly where the exponent fits.**  The windows that are taken are
odd, not longer than the window size and in the table, from every bit below the 2^31st; with the
zeros between them they make the exponent where it has at most 2^31 bits. -/
theorem exponentiateL_iff (x : TInteger) {e : TInteger} (he : 0 ≤ e.toInt) :
    (Makes (x.exponentiateL e) (x.toInt ^ e.toInt.toNat) ↔
        ExponentFits x.toInt e.toInt.toNat) ∧
      (∀ slider : TWindowSlider, slider.iExp = e →
        (∀ aBegin, e.bit aBegin.toNat = true →
          (TWindowSlider.IsWindow e slider.iSize aBegin.toNat (slider.findNextWindow aBegin) ∧
              (slider.findNextWindow aBegin).iValue.toNat / 2 < 2 ^ (slider.iSize - 1) ↔
            aBegin.toNat < 2 ^ 31)) ∧
        (∀ step ∈ slider.steps (TInt.wrap (e.bitCount - 1).toNat),
          TWindowSlider.WindowFits slider.iSize step) ∧
        (SlidingWindow.number (slider.steps (TInt.wrap (e.bitCount - 1).toNat)) = e.toInt.toNat ↔
          e.toInt.toNat < 2 ^ (2 ^ 31))) := by
  rw [exponent_magnitude he]
  have htaken : e.magnitude % 2 ^ scannedBits e.bitCount = taken e.magnitude := by
    rw [bitCount_eq]
    rfl
  have hmakes := exponentiateL_makes x e
  rw [htaken] at hmakes
  refine ⟨⟨fun h => ?_, fun h => ?_⟩, fun slider hexp => ⟨fun aBegin hset => ?_, ?_, ?_⟩⟩
  · exact (pow_taken_iff _ _).mp (hmakes.unique h)
  · rw [← (pow_taken_iff _ _).mpr h]
    exact hmakes
  · subst hexp
    constructor
    · rintro ⟨hwindow, -⟩
      by_contra hpast
      have hodd := hwindow.odd
      rw [slider.findNextWindow_past (Nat.not_lt.mp hpast)] at hodd
      exact absurd hodd (by decide)
    · intro hlt
      have hwindow := slider.findNextWindow_spec hlt hset
      exact ⟨hwindow, hwindow.index_lt⟩
  · rw [steps_start]
    exact (slider.steps_spec (scannedBits_le _)).2
  · have hbits : Scans slider.iExp.magnitude.testBit (scannedBits e.bitCount)
        (slider.steps ((scannedBits e.bitCount : Int) - 1)) :=
      (slider.steps_spec (scannedBits_le _)).1.of_below fun p _ => (slider.iExp.bit_eq p).symm
    rw [steps_start, hbits.number_eq, hexp, htaken]
    exact taken_eq_iff e.magnitude

end

/-- 2 to the 5th. -/
theorem exponentiateL_iff_five :
    (Makes (two.exponentiateL (ofWord 5)) (two.toInt ^ (ofWord 5).toInt.toNat) ↔
        ExponentFits two.toInt (ofWord 5).toInt.toNat) ∧
      (∀ slider : TWindowSlider, slider.iExp = ofWord 5 →
        (∀ aBegin, (ofWord 5).bit aBegin.toNat = true →
          (TWindowSlider.IsWindow (ofWord 5) slider.iSize aBegin.toNat
                (slider.findNextWindow aBegin) ∧
              (slider.findNextWindow aBegin).iValue.toNat / 2 < 2 ^ (slider.iSize - 1) ↔
            aBegin.toNat < 2 ^ 31)) ∧
        (∀ step ∈ slider.steps (TInt.wrap ((ofWord 5).bitCount - 1).toNat),
          TWindowSlider.WindowFits slider.iSize step) ∧
        (SlidingWindow.number (slider.steps (TInt.wrap ((ofWord 5).bitCount - 1).toNat)) =
            (ofWord 5).toInt.toNat ↔ (ofWord 5).toInt.toNat < 2 ^ (2 ^ 31))) :=
  exponentiateL_iff two (by rw [toInt_ofWord]; exact Int.natCast_nonneg _)

/-- The number 2 ^ 2 ^ 31, of one bit more than can be counted. -/
def tooLong : TInteger where
  words := replicate (2 ^ 26) 0 ++ 1 :: replicate (2 ^ 26 - 1) 0
  sign := .EPositive
  powerOfTwo := by
    refine ⟨26, ?_⟩
    rw [length_append, length_cons, length_replicate, length_replicate,
      Nat.sub_add_cancel Nat.one_le_two_pow, ← Nat.mul_two, ← pow_succ]

theorem magnitude_tooLong : tooLong.magnitude = 2 ^ (2 ^ 31) := by
  show value (replicate (2 ^ 26) 0 ++ 1 :: replicate (2 ^ 26 - 1) 0) = _
  rw [value_append, value_cons, value_zeros, value_zeros, length_replicate, ← pow_mul]
  have hbits : 32 * 2 ^ 26 = 2 ^ 31 := by norm_num
  rw [hbits, Nat.mul_zero, Nat.zero_add, Nat.add_zero, toNat_one, Nat.mul_one]

theorem scannedBits_tooLong : scannedBits tooLong.bitCount = 0 := by
  rw [bitCount_eq, magnitude_tooLong, size_pow]
  decide

theorem taken_none {e : Nat} (h : scannedBits (ofNat (Nat.size e)) = 0) : taken e = 0 := by
  unfold taken
  rw [h, pow_zero, mod_one]

/-- None of its bits is taken. -/
theorem taken_tooLong : taken tooLong.magnitude = 0 := by
  have hnone := scannedBits_tooLong
  rw [bitCount_eq] at hnone
  exact taken_none hnone

/-- Zero to that power is one. -/
theorem not_exponentiateL_tooLong :
    ¬Makes (zero.exponentiateL tooLong) (zero.toInt ^ tooLong.toInt.toNat) := by
  intro h
  have hzero : zero.toInt = 0 := rfl
  have hnat : tooLong.toInt.toNat = 2 ^ (2 ^ 31) := by
    rw [toInt_of_positive (show tooLong.isNegative = false from rfl), Int.toNat_natCast,
      magnitude_tooLong]
  have hempty : ∀ e, e % 2 ^ 0 = 0 := mod_one
  have hone := exponentiateL_makes zero tooLong
  rw [scannedBits_tooLong, hempty, pow_zero] at hone
  have heq := hone.unique h
  have hpos : 2 ^ (2 ^ 31) ≠ 0 := (Nat.two_pow_pos _).ne'
  rw [hnat, hzero, zero_pow hpos] at heq
  exact absurd heq (by decide)

end TInteger

end OsSecurity

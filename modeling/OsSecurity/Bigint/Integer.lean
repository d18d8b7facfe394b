/-
`TInteger`, and the `RInteger` that has its words on the heap: `bigint.cpp`.

An integer is a sign, some words, and the number of words that are allocated, which may be more
than the number needs.  That number is a power of two, as the header says the algorithms assume.
It is not bounded here: an allocation that fails is not modelled.

What a function writes behind the end of a cell, or reads there, has no defined result.
-/
import OsSecurity.Bigint.Divide
import OsSecurity.E32
import Mathlib.Data.Nat.Size

namespace OsSecurity

open List Nat

def KErrDivideByZero : Int := -41

/-! ### Sizes -/

theorem BitPrecision_eq_size (w : UInt32) : BitPrecision w = Nat.size w.toNat := by
  by_cases hzero : w = 0
  · rw [hzero]
    rfl
  · obtain ⟨hone, -, hle, hlt⟩ := BitPrecision_spec hzero
    have hsize := size_le.mpr hlt
    have hmore := lt_size.mpr hle
    omega

def RoundupSizeTable : List Nat := [2, 2, 2, 4, 4, 8, 8, 8, 8]

/-- `Nat.size` is `BitPrecision`, for sizes that are not bounded (`BitPrecision_eq_size`). -/
def RoundupSize (n : Nat) : Nat :=
  if n ≤ 8 then RoundupSizeTable.getD n 0
  else if n ≤ 16 then 16
  else if n ≤ 32 then 32
  else if n ≤ 64 then 64
  else 1 <<< Nat.size (n - 1)

/-- `m` is the least of the sizes that an integer can have, from `n` words on. -/
structure LeastSize (n m : Nat) : Prop where
  powerOfTwo : ∃ k, m = 2 ^ (k + 1)
  le : n ≤ m
  least : ∀ k, n ≤ 2 ^ (k + 1) → m ≤ 2 ^ (k + 1)

theorem LeastSize.of_pow {n k : Nat} (hle : n ≤ 2 ^ (k + 1)) (hlt : k = 0 ∨ 2 ^ k < n) :
    LeastSize n (2 ^ (k + 1)) := by
  refine ⟨⟨k, rfl⟩, hle, ?_⟩
  intro j hj
  apply Nat.pow_le_pow_right (by decide)
  by_contra hless
  have hmono : 2 ^ (j + 1) ≤ 2 ^ k := Nat.pow_le_pow_right (by decide) (by omega)
  omega

theorem RoundupSize_least (n : Nat) : LeastSize n (RoundupSize n) := by
  unfold RoundupSize
  by_cases h8 : n ≤ 8
  · rw [if_pos h8]
    have htable : ∀ n ≤ 8, ∃ k < 3, RoundupSizeTable.getD n 0 = 2 ^ (k + 1) ∧
        n ≤ 2 ^ (k + 1) ∧ (k = 0 ∨ 2 ^ k < n) := by decide
    obtain ⟨k, -, heq, hle, hlt⟩ := htable n h8
    rw [heq]
    exact LeastSize.of_pow hle hlt
  rw [if_neg h8]
  by_cases h16 : n ≤ 16
  · rw [if_pos h16]
    exact LeastSize.of_pow (k := 3) h16 (Or.inr (by omega))
  rw [if_neg h16]
  by_cases h32 : n ≤ 32
  · rw [if_pos h32]
    exact LeastSize.of_pow (k := 4) h32 (Or.inr (by omega))
  rw [if_neg h32]
  by_cases h64 : n ≤ 64
  · rw [if_pos h64]
    exact LeastSize.of_pow (k := 5) h64 (Or.inr (by omega))
  rw [if_neg h64]
  have hlt := lt_size_self (n - 1)
  have hpos : 6 < Nat.size (n - 1) := lt_size.mpr (by omega)
  obtain ⟨k, hk⟩ : ∃ k, Nat.size (n - 1) = k + 1 := ⟨Nat.size (n - 1) - 1, by omega⟩
  have hle : 2 ^ k ≤ n - 1 := lt_size.mp (by omega)
  rw [hk] at hlt ⊢
  rw [one_shiftLeft]
  exact LeastSize.of_pow (by omega) (Or.inr (by omega))

theorem RoundupSize_pow (k : Nat) : RoundupSize (2 ^ (k + 1)) = 2 ^ (k + 1) :=
  Nat.le_antisymm ((RoundupSize_least _).least k (Nat.le_refl _)) (RoundupSize_least _).le

/-! ### Integers -/

inductive TSign where
  | EPositive
  | ENegative
  deriving DecidableEq

structure TInteger where
  words : Words
  sign : TSign
  powerOfTwo : ∃ k, words.length = 2 ^ (k + 1)

namespace TInteger

def size (self : TInteger) : Nat := self.words.length

def isNegative (self : TInteger) : Bool := self.sign = .ENegative

def wordCount (self : TInteger) : Nat := CountWords self.words

/-- `operator!`: a negative integer is never zero. -/
def isZero (self : TInteger) : Bool := !self.isNegative && self.wordCount = 0

/-- The magnitude. -/
def magnitude (self : TInteger) : Nat := value self.words

/-- The number. -/
def toInt (self : TInteger) : Int :=
  if self.isNegative then -(self.magnitude : Int) else self.magnitude

/-- Other words in the same cell. -/
def withWords (self : TInteger) (words : Words) (h : words.length = self.words.length) :
    TInteger where
  words := words
  sign := self.sign
  powerOfTwo := by
    rw [h]
    exact self.powerOfTwo

def setSign (self : TInteger) (aSign : TSign) : TInteger := { self with sign := aSign }

def negate (self : TInteger) : TInteger :=
  if self.isZero then self
  else self.setSign (if self.sign = .EPositive then .ENegative else .EPositive)

/-- `CleanNewL`: the words are zero. -/
def cleanNewL (aNewSize : Nat) : TInteger where
  words := replicate (RoundupSize aNewSize) 0
  sign := .EPositive
  powerOfTwo := by
    rw [length_replicate]
    exact (RoundupSize_least aNewSize).powerOfTwo

def cleanGrowL (self : TInteger) (aNewSize : Nat) : TInteger :=
  if h : RoundupSize aNewSize > self.size then
    { self with
      words := self.words ++ replicate (RoundupSize aNewSize - self.size) 0
      powerOfTwo := by
        have hsum : self.words.length + (RoundupSize aNewSize - self.size) =
            RoundupSize aNewSize := add_sub_of_le h.le
        rw [length_append, length_replicate, hsum]
        exact (RoundupSize_least aNewSize).powerOfTwo }
  else self

/-- The words above the new size are to be cleared, but a number of bytes is added to the pointer
to words, so that words further up are. -/
def cleanResizeL (self : TInteger) (aNewSize : Nat) : Leaving TInteger :=
  if RoundupSize aNewSize > self.size then .ok (self.cleanGrowL aNewSize)
  else if hless : RoundupSize aNewSize < self.size then
    let cleared := replicate (self.size - RoundupSize aNewSize) 0
    if hfits : 4 * aNewSize + cleared.length ≤ self.size then
      .ok { self with
        words := (writeAt self.words (4 * aNewSize) cleared).take (RoundupSize aNewSize)
        powerOfTwo := by
          have hlen := writeAt_length hfits
          rw [length_take_of_le (by rw [hlen]; exact hless.le)]
          exact (RoundupSize_least aNewSize).powerOfTwo }
    else .error .undefined
  else .ok self

/-- `Construct(const TInteger&)`, for `Construct` writes all the words of its argument. -/
def construct (self aInteger : TInteger) : Leaving TInteger :=
  if h : aInteger.size ≤ self.size then
    .ok {
      words := aInteger.words ++ replicate (self.size - aInteger.size) 0
      sign := aInteger.sign
      powerOfTwo := by
        have hsum : aInteger.words.length + (self.size - aInteger.size) = self.size :=
          add_sub_of_le h
        rw [length_append, length_replicate, hsum]
        exact self.powerOfTwo }
  else .error .undefined

theorem two_le_size (self : TInteger) : 2 ≤ self.size := by
  obtain ⟨k, hk⟩ := self.powerOfTwo
  have hpow := Nat.two_pow_pos k
  rw [size, hk, pow_succ]
  omega

/-- `Construct(TInt)` -/
def constructInt (self : TInteger) (aInteger : Int) : TInteger where
  words := UInt32.ofNat aInteger.natAbs :: replicate (self.size - 1) 0
  sign := if aInteger < 0 then .ENegative else .EPositive
  powerOfTwo := by
    have htwo := two_le_size self
    have hsum : self.size - 1 + 1 = self.words.length := Nat.sub_add_cancel (by omega)
    rw [length_cons, length_replicate, hsum]
    exact self.powerOfTwo

/-- `RInteger::NewL`, of another integer. -/
def newL (aInteger : TInteger) : Leaving TInteger := (cleanNewL aInteger.size).construct aInteger

/-- What `CopyL` does with the cell before it constructs the copy there. -/
def resizeL (self : TInteger) (aNewSize : Nat) (aAllowShrink : Bool) : Leaving TInteger :=
  if aAllowShrink then self.cleanResizeL aNewSize else .ok (self.cleanGrowL aNewSize)

def copyL (self aInteger : TInteger) (aAllowShrink : Bool) : Leaving TInteger := do
  let resized ← self.resizeL aInteger.size aAllowShrink
  resized.construct aInteger

/-- `CopyL(TInt)` -/
def copyIntL (self : TInteger) (aInteger : Int) (aAllowShrink : Bool) : Leaving TInteger := do
  let resized ← self.resizeL 2 aAllowShrink
  return resized.constructInt aInteger

/-- The words after a sum that has left a carry: twice as many, and the carry above the old
ones. -/
def carryOver (self : TInteger) : TInteger :=
  let grown := self.cleanGrowL (2 * self.size)
  grown.withWords (writeAt grown.words (grown.size / 2) [1])
    (writeAt_length (by
      have htwo := two_le_size grown
      rw [length_singleton]
      show grown.size / 2 + 1 ≤ grown.size
      omega))

/-- `operator--` -/
def decrement (self : TInteger) : Leaving TInteger :=
  if self.isNegative then
    let next := self.withWords (Increment self.words 1).1 (Increment_length self.words 1)
    .ok (if (Increment self.words 1).2 ≠ 0 then next.carryOver else next)
  else
    let next := self.withWords (Decrement self.words 1).1 (Decrement_length self.words 1)
    if (Decrement self.words 1).2 ≠ 0 then next.copyIntL (-1) true else .ok next

def unsignedCompare (self aThat : TInteger) : Int :=
  if self.wordCount = aThat.wordCount then
    Compare (self.words.take self.wordCount) (aThat.words.take aThat.wordCount)
  else if self.wordCount > aThat.wordCount then 1 else -1

def signedCompare (self aThat : TInteger) : Int :=
  if !self.isNegative then
    if !aThat.isNegative then self.unsignedCompare aThat else 1
  else if !aThat.isNegative then -1 else -(self.unsignedCompare aThat)

/-! ### What the number is -/

section

variable {self a b : TInteger}

theorem size_even (self : TInteger) : self.size % 2 = 0 := by
  obtain ⟨k, hk⟩ := self.powerOfTwo
  rw [size, hk, pow_succ]
  omega

theorem RoundupSize_size (self : TInteger) : RoundupSize self.size = self.size := by
  obtain ⟨k, hk⟩ := self.powerOfTwo
  rw [size, hk]
  exact RoundupSize_pow k

theorem magnitude_lt (self : TInteger) : self.magnitude < (2 ^ 32) ^ self.size :=
  value_lt self.words

theorem wordCount_le (self : TInteger) : self.wordCount ≤ self.size := CountWords_le self.words

theorem magnitude_lt_wordCount (self : TInteger) :
    self.magnitude < (2 ^ 32) ^ self.wordCount := value_lt_CountWords self.words

theorem wordCount_eq_zero : self.wordCount = 0 ↔ self.magnitude = 0 := CountWords_eq_zero

theorem le_magnitude_wordCount (h : self.magnitude ≠ 0) :
    (2 ^ 32) ^ (self.wordCount - 1) ≤ self.magnitude :=
  le_value_CountWords (mt wordCount_eq_zero.mp h)

/-- The size that a number needs is not more than the one it has. -/
theorem RoundupSize_le {n : Nat} (h : n ≤ self.size) : RoundupSize n ≤ self.size := by
  obtain ⟨k, hk⟩ := self.powerOfTwo
  unfold size at h ⊢
  rw [hk] at h ⊢
  exact (RoundupSize_least n).least k h

/-- No word of a number is above its `WordCount`. -/
theorem value_take_words {n : Nat} (h : self.wordCount ≤ n) :
    value (self.words.take n) = self.magnitude := by
  rcases Nat.le_total n self.words.length with hle | hge
  · rw [value_take n hle]
    exact mod_eq_of_lt (self.magnitude_lt_wordCount.trans_le
      (Nat.pow_le_pow_right (by decide) h))
  · rw [take_of_length_le hge]
    rfl

theorem isNegative_iff : self.isNegative = true ↔ self.sign = .ENegative := by
  simp [isNegative]

theorem toInt_natAbs (self : TInteger) : self.toInt.natAbs = self.magnitude := by
  unfold toInt
  by_cases hneg : self.isNegative = true
  · rw [if_pos hneg, Int.natAbs_neg, Int.natAbs_natCast]
  · rw [if_neg hneg, Int.natAbs_natCast]

theorem toInt_of_positive (h : self.isNegative = false) : self.toInt = self.magnitude := by
  unfold toInt
  rw [h]
  rfl

theorem toInt_of_negative (h : self.isNegative = true) : self.toInt = -(self.magnitude : Int) := by
  unfold toInt
  rw [h]
  rfl

theorem isZero_iff : self.isZero = true ↔ self.isNegative = false ∧ self.magnitude = 0 := by
  unfold isZero
  rw [Bool.and_eq_true, Bool.not_eq_true', decide_eq_true_eq, wordCount_eq_zero]

@[simp] theorem magnitude_withWords (words : Words) (h : words.length = self.words.length) :
    (self.withWords words h).magnitude = value words := rfl

@[simp] theorem size_withWords (words : Words) (h : words.length = self.words.length) :
    (self.withWords words h).size = self.size := h

@[simp] theorem magnitude_setSign (aSign : TSign) :
    (self.setSign aSign).magnitude = self.magnitude := rfl

@[simp] theorem size_setSign (aSign : TSign) : (self.setSign aSign).size = self.size := rfl

theorem toInt_setSign_positive : (self.setSign .EPositive).toInt = self.magnitude := rfl

theorem toInt_setSign_negative : (self.setSign .ENegative).toInt = -(self.magnitude : Int) := rfl

@[simp] theorem magnitude_negate : self.negate.magnitude = self.magnitude := by
  unfold negate
  by_cases hzero : self.isZero = true
  · rw [if_pos hzero]
  · rw [if_neg hzero]
    rfl

theorem toInt_negate : self.negate.toInt = -self.toInt := by
  unfold negate
  by_cases hzero : self.isZero = true
  · obtain ⟨hsign, hmagnitude⟩ := isZero_iff.mp hzero
    rw [if_pos hzero, toInt_of_positive hsign, hmagnitude]
    rfl
  · rw [if_neg hzero]
    cases hsign : self.sign with
    | EPositive =>
      have hpos : self.toInt = self.magnitude :=
        toInt_of_positive (by rw [isNegative, hsign]; rfl)
      rw [if_pos rfl, toInt_setSign_negative, hpos]
    | ENegative =>
      have hneg : self.toInt = -(self.magnitude : Int) :=
        toInt_of_negative (by rw [isNegative, hsign]; rfl)
      rw [if_neg (by decide), toInt_setSign_positive, hneg, Int.neg_neg]

theorem negate_of_zero (h : self.isNegative = false) (hzero : self.magnitude = 0) :
    self.negate = self := by
  unfold negate
  rw [if_pos (isZero_iff.mpr ⟨h, hzero⟩)]

theorem isNegative_negate (h : self.isNegative = false) (hne : self.magnitude ≠ 0) :
    self.negate.isNegative = true := by
  unfold negate
  rw [if_neg (fun hzero => hne (isZero_iff.mp hzero).2)]
  cases hsign : self.sign with
  | EPositive => rfl
  | ENegative => rw [isNegative_iff.mpr hsign] at h; exact absurd h (by decide)

@[simp] theorem size_cleanNewL (n : Nat) : (cleanNewL n).size = RoundupSize n :=
  length_replicate

@[simp] theorem magnitude_cleanNewL (n : Nat) : (cleanNewL n).magnitude = 0 :=
  value_zeros _

/-- A new integer is an exact copy. -/
theorem newL_eq (a : TInteger) : newL a = .ok a := by
  have hsize : (cleanNewL a.size).size = a.size := by rw [size_cleanNewL, RoundupSize_size]
  unfold newL construct
  rw [dif_pos hsize.ge]
  congr 1
  cases a with
  | mk words sign powerOfTwo =>
      rw [mk.injEq]
      refine ⟨?_, rfl⟩
      rw [hsize]
      show words ++ replicate (words.length - words.length) 0 = words
      rw [Nat.sub_self, replicate_zero, append_nil]

theorem size_cleanGrowL (self : TInteger) (n : Nat) :
    (self.cleanGrowL n).size = max self.size (RoundupSize n) := by
  unfold cleanGrowL
  by_cases hmore : RoundupSize n > self.size
  · rw [dif_pos hmore]
    show (self.words ++ _).length = _
    rw [length_append, length_replicate]
    show self.size + (RoundupSize n - self.size) = _
    omega
  · rw [dif_neg hmore]
    omega

theorem words_cleanGrowL (self : TInteger) (n : Nat) :
    (self.cleanGrowL n).words = self.words ++ replicate (RoundupSize n - self.size) 0 := by
  unfold cleanGrowL
  by_cases hmore : RoundupSize n > self.size
  · rw [dif_pos hmore]
  · rw [dif_neg hmore, Nat.sub_eq_zero_of_le (Nat.not_lt.mp hmore), replicate_zero, append_nil]

theorem sign_cleanGrowL (self : TInteger) (n : Nat) : (self.cleanGrowL n).sign = self.sign := by
  unfold cleanGrowL
  by_cases hmore : RoundupSize n > self.size
  · rw [dif_pos hmore]
  · rw [dif_neg hmore]

theorem magnitude_cleanGrowL (self : TInteger) (n : Nat) :
    (self.cleanGrowL n).magnitude = self.magnitude := by
  unfold magnitude
  rw [words_cleanGrowL, value_append, value_zeros, Nat.mul_zero, Nat.add_zero]

theorem construct_ok (h : b.size ≤ a.size) :
    ∃ c, a.construct b = .ok c ∧ c.size = a.size ∧ c.magnitude = b.magnitude ∧ c.sign = b.sign := by
  unfold construct
  rw [dif_pos h]
  refine ⟨_, rfl, ?_, ?_, rfl⟩
  · show (b.words ++ _).length = _
    rw [length_append, length_replicate]
    exact add_sub_of_le h
  · show value (b.words ++ _) = _
    rw [value_append, value_zeros, Nat.mul_zero, Nat.add_zero]
    rfl

theorem resizeL_same {n : Nat} (h : RoundupSize n = self.size) :
    self.resizeL n true = .ok self := by
  unfold resizeL cleanResizeL
  rw [if_pos rfl, if_neg (Nat.not_lt.mpr h.le), dif_neg (Nat.not_lt.mpr h.ge)]

/-- **`CopyL`** into an integer of the same size. -/
theorem copyL_same_size (h : a.size = b.size) :
    ∃ c, a.copyL b true = .ok c ∧ c.size = a.size ∧ c.magnitude = b.magnitude ∧
      c.sign = b.sign := by
  have hresize := resizeL_same ((RoundupSize_size b).trans h.symm)
  obtain ⟨c, hc, hspec⟩ := construct_ok h.ge
  refine ⟨c, ?_, hspec⟩
  unfold copyL
  rw [hresize]
  exact hc

/-- **`CopyL`** that does not shrink. -/
theorem copyL_grow (a b : TInteger) :
    ∃ c, a.copyL b false = .ok c ∧ c.size = max a.size b.size ∧ c.magnitude = b.magnitude ∧
      c.sign = b.sign := by
  have hsize := size_cleanGrowL a b.size
  rw [RoundupSize_size] at hsize
  obtain ⟨c, hc, hlen, hspec⟩ := construct_ok (a := a.cleanGrowL b.size) (b := b)
    (by rw [hsize]; exact Nat.le_max_right _ _)
  rw [hsize] at hlen
  exact ⟨c, hc, hlen, hspec⟩

/-! ### What a shrinking reallocation clears

Words are counted from the start of the old cell.  The pointer to fill from is four times as
far up as it should be, and a number of words is only ever rounded up to less than that.
-/

/-- The words that `CleanResizeL` fills with zeros before it gives the end of the cell back. -/
def Cleared (self : TInteger) (aNewSize i : Nat) : Prop :=
  RoundupSize aNewSize < self.size ∧ 4 * aNewSize ≤ i ∧
    i < 4 * aNewSize + (self.size - RoundupSize aNewSize)

/-- The words from the new size to the old one are cleared, and no others: none of those that
are kept, and nothing behind the old cell. -/
structure ClearsOwn (a : TInteger) (aNewSize : Nat) : Prop where
  cleared : ∀ i, RoundupSize aNewSize ≤ i → i < a.size → a.Cleared aNewSize i
  kept : ∀ i, i < RoundupSize aNewSize → ¬a.Cleared aNewSize i
  inside : ∀ i, a.size ≤ i → ¬a.Cleared aNewSize i

theorem RoundupSize_lt {n : Nat} (h : n ≠ 0) : RoundupSize n < 4 * n := by
  obtain ⟨⟨k, hk⟩, -, hleast⟩ := RoundupSize_least n
  cases k with
  | zero => omega
  | succ k =>
      by_contra hmore
      have hfits : n ≤ 2 ^ (k + 1) := by
        rw [hk, pow_succ] at hmore
        omega
      have hless := hleast k hfits
      rw [hk] at hless
      exact absurd hless (Nat.not_le.mpr (Nat.pow_lt_pow_right (by decide) (by omega)))

/-- **`CleanResizeL`** clears what it gives back exactly when it gives nothing back. -/
theorem clearsOwn_iff (self : TInteger) (aNewSize : Nat) :
    self.ClearsOwn aNewSize ↔ self.size ≤ RoundupSize aNewSize := by
  constructor
  · intro h
    by_contra hless
    have hfirst := (h.cleared _ (Nat.le_refl _) (by omega)).2.1
    by_cases hzero : aNewSize = 0
    · have hleast : RoundupSize 0 = 2 := rfl
      subst hzero
      exact h.kept 0 (by omega) ⟨by omega, by omega, by omega⟩
    · have hbelow := RoundupSize_lt hzero
      omega
  · intro hall
    have hnone : ∀ i, ¬self.Cleared aNewSize i := fun i hi => absurd hi.1 (by omega)
    exact ⟨fun i hlow hhigh => absurd hhigh (by omega), fun i _ => hnone i, fun i _ => hnone i⟩

/-- A copy of two words into a cell of four clears the two words four words behind the cell. -/
theorem not_clearsOwn : ¬(cleanNewL 4).ClearsOwn 2 ∧ (cleanNewL 4).Cleared 2 8 ∧
    (cleanNewL 4).copyL (cleanNewL 2) true = .error .undefined := by
  have hbehind : (cleanNewL 4).Cleared 2 8 := by
    unfold Cleared
    decide
  exact ⟨fun h => h.inside 8 (by decide) hbehind, hbehind, rfl⟩

theorem unsignedCompare_eq :
    a.unsignedCompare b = Int.sign ((a.magnitude : Int) - b.magnitude) := by
  have hless : ∀ {x y : TInteger}, x.wordCount < y.wordCount → x.magnitude < y.magnitude := by
    intro x y h
    have hne : y.magnitude ≠ 0 := by
      intro hzero
      rw [wordCount_eq_zero.mpr hzero] at h
      exact Nat.not_lt_zero _ h
    calc x.magnitude < (2 ^ 32) ^ x.wordCount := x.magnitude_lt_wordCount
      _ ≤ (2 ^ 32) ^ (y.wordCount - 1) := Nat.pow_le_pow_right (by decide) (by omega)
      _ ≤ y.magnitude := le_magnitude_wordCount hne
  unfold unsignedCompare
  by_cases heq : a.wordCount = b.wordCount
  · have hlen : (a.words.take a.wordCount).length = (b.words.take b.wordCount).length := by
      rw [length_take_of_le a.wordCount_le, length_take_of_le b.wordCount_le, heq]
    rw [if_pos heq, Compare_value hlen, value_take_words (Nat.le_refl _),
      value_take_words (Nat.le_refl _)]
  rw [if_neg heq]
  by_cases hmore : a.wordCount > b.wordCount
  · have hlt := hless hmore
    rw [if_pos hmore, Int.sign_eq_one_of_pos (by omega)]
  · have hlt := hless (x := a) (y := b) (by omega)
    rw [if_neg hmore, Int.sign_eq_neg_one_of_neg (by omega)]

/-- The words after a sum with a carry are all zero but for the carry. -/
theorem carryOver_spec (self : TInteger) :
    self.carryOver.isNegative = self.isNegative ∧
      self.carryOver.magnitude = self.magnitude + (2 ^ 32) ^ self.size := by
  obtain ⟨k, hk⟩ := self.powerOfTwo
  have hdouble : RoundupSize (2 * self.size) = 2 * self.size := by
    rw [size, hk, ← pow_succ']
    exact RoundupSize_pow (k + 1)
  have hsize := size_cleanGrowL self (2 * self.size)
  rw [hdouble, Nat.max_eq_right (by omega)] at hsize
  have hhalf : (self.cleanGrowL (2 * self.size)).size / 2 = self.size := by omega
  have hwords := words_cleanGrowL self (2 * self.size)
  have hroom : self.size + [(1 : UInt32)].length ≤
      (self.cleanGrowL (2 * self.size)).words.length := by
    have htwo := two_le_size self
    show self.size + 1 ≤ (self.cleanGrowL (2 * self.size)).size
    omega
  constructor
  · show decide ((self.cleanGrowL (2 * self.size)).sign = _) = _
    rw [sign_cleanGrowL]
    rfl
  · show value (writeAt (self.cleanGrowL (2 * self.size)).words
      ((self.cleanGrowL (2 * self.size)).size / 2) [1]) = _
    have hpast : self.words.drop (self.size + [(1 : UInt32)].length) = [] :=
      drop_of_length_le (le_succ self.size)
    rw [hhalf, value_writeAt hroom, hwords,
      take_left' (show self.words.length = self.size from rfl), drop_append, hpast,
      nil_append, drop_replicate, value_zeros]
    show self.magnitude + (2 ^ 32) ^ self.size * _ = _
    rw [Nat.mul_zero, Nat.add_zero, value_cons, value_nil, UInt32.toNat_one, Nat.mul_zero,
      Nat.add_zero, Nat.mul_one]

theorem words_ne_nil (self : TInteger) : self.words ≠ [] := by
  intro hnil
  have htwo := two_le_size self
  rw [size, hnil] at htwo
  exact absurd htwo (by decide)

/-- The magnitude is counted up, and the sign stays. -/
theorem carryOver_increment (self : TInteger) :
    (if (Increment self.words 1).2 ≠ 0 then
        (self.withWords (Increment self.words 1).1 (Increment_length self.words 1)).carryOver
      else self.withWords (Increment self.words 1).1
        (Increment_length self.words 1)).isNegative = self.isNegative ∧
    (if (Increment self.words 1).2 ≠ 0 then
        (self.withWords (Increment self.words 1).1 (Increment_length self.words 1)).carryOver
      else self.withWords (Increment self.words 1).1
        (Increment_length self.words 1)).magnitude = self.magnitude + 1 := by
  obtain ⟨hcarry, hvalue⟩ := Increment_value (B := 1) (Or.inl self.words_ne_nil)
  by_cases hzero : (Increment self.words 1).2 = 0
  · rw [if_neg (fun hc => hc hzero)]
    rw [hzero] at hvalue
    exact ⟨rfl, hvalue⟩
  · have hone : (Increment self.words 1).2.toNat = 1 := by
      have hpos : (Increment self.words 1).2.toNat ≠ 0 := fun hc =>
        hzero (UInt32.toNat_inj.mp hc)
      omega
    rw [hone, Nat.mul_one] at hvalue
    rw [if_pos hzero]
    obtain ⟨hsign, hmagnitude⟩ := carryOver_spec
      (self.withWords (Increment self.words 1).1 (Increment_length self.words 1))
    refine ⟨hsign, ?_⟩
    rw [hmagnitude, size_withWords]
    show value (Increment self.words 1).1 + (2 ^ 32) ^ self.words.length = _
    rw [hvalue]
    rfl

/-- **`operator--`** of a negative integer. -/
theorem decrement_negative (h : self.isNegative = true) :
    ∃ c, self.decrement = .ok c ∧ c.isNegative = true ∧ c.magnitude = self.magnitude + 1 := by
  obtain ⟨hsign, hmagnitude⟩ := self.carryOver_increment
  unfold decrement
  rw [if_pos h]
  exact ⟨_, rfl, hsign.trans h, hmagnitude⟩

/-- **`operator--`** of zero in the least cell. -/
theorem decrement_zero (h : self.isNegative = false) (hzero : self.magnitude = 0)
    (hsize : self.size = 2) : ∃ c, self.decrement = .ok c ∧ c.toInt = -1 := by
  obtain ⟨hborrow, hvalue⟩ := Decrement_value (B := 1) (Or.inl self.words_ne_nil)
  have hone : (Decrement self.words 1).2 ≠ 0 := by
    intro hc
    rw [hc] at hvalue
    have hmagnitude : value self.words = 0 := hzero
    rw [hmagnitude] at hvalue
    exact succ_ne_zero _ hvalue
  unfold decrement
  rw [if_neg (by rw [h]; decide), if_pos hone]
  have hresize : (self.withWords _ (Decrement_length self.words 1)).resizeL 2 true = .ok _ :=
    resizeL_same (by rw [size_withWords, hsize]; rfl)
  unfold copyIntL
  rw [hresize]
  refine ⟨_, rfl, ?_⟩
  show -((value (1 :: replicate _ 0) : Nat) : Int) = -1
  rw [value_cons, value_zeros]
  rfl

end

end TInteger

end OsSecurity

/-
Addition, subtraction, multiplication and counting of signed integers.

The signs decide which operation on the magnitudes is made.  A result is written to a cell of
its own, so that an operand may be the integer itself: it makes a difference only to
`AsymmetricMultiply`, which compares the pointers.

The operators that count change the integer they are called on.  Where the result needs another
sign, `CopyL` makes it, into the least cell: the cell shrinks if it is larger, and that does not
work (`cleanResizeL`).
-/
import OsSecurity.Bigint.AsymmetricMultiply
import OsSecurity.Bigint.SignedDivision

namespace OsSecurity

open List

variable {z : TInteger} {n : Nat}

namespace TInteger

/-- `TInteger::Zero`, `TInteger::One` and `TInteger::Two`, for the words 0, 1 and 2. -/
def ofWord (w : UInt32) : TInteger where
  words := [w, 0]
  sign := .EPositive
  powerOfTwo := ⟨0, rfl⟩

def zero : TInteger := ofWord 0

def one : TInteger := ofWord 1

def two : TInteger := ofWord 2

@[simp] theorem isNegative_ofWord (w : UInt32) : (ofWord w).isNegative = false := rfl

@[simp] theorem magnitude_ofWord (w : UInt32) : (ofWord w).magnitude = w.toNat := by
  show w.toNat + 2 ^ 32 * 0 = _
  omega

theorem toInt_ofWord (w : UInt32) : (ofWord w).toInt = w.toNat :=
  congrArg Nat.cast (magnitude_ofWord w)

/-! ### Magnitudes -/

/-- The sum of the words of two magnitudes, and the carry. -/
def addWords (aReg bReg : Words) : Words × UInt32 :=
  if aReg.length = bReg.length then Add aReg bReg
  else if aReg.length > bReg.length then
    let low := Add (aReg.take bReg.length) bReg
    let high := Increment (aReg.drop bReg.length) low.2
    (low.1 ++ high.1, high.2)
  else
    let low := Add aReg (bReg.take aReg.length)
    let high := Increment (bReg.drop aReg.length) low.2
    (low.1 ++ high.1, high.2)

def positiveAddL (aA aB : TInteger) : Leaving TInteger := do
  let sum ← (cleanNewL (max aA.size aB.size)).store (addWords aA.words aB.words).1
  return (if (addWords aA.words aB.words).2 ≠ 0 then sum.carryOver else sum).setSign .EPositive

/-- The larger magnitude less the smaller, `aSize` words less `bSize`. -/
def subtractUneven (aReg bReg : Words) (aSize bSize : Nat) : Words :=
  let low := Subtract (aReg.take bSize) (bReg.take bSize)
  low.1 ++ (Decrement (part aReg bSize (aSize - bSize)) low.2).1

def positiveSubtractL (aA aB : TInteger) : Leaving TInteger :=
  let diff := cleanNewL (max aA.size aB.size)
  let aSize := aA.evenWordCount
  let bSize := aB.evenWordCount
  let aReg := aA.words
  let bReg := aB.words
  if aSize = bSize then
    if Compare (aReg.take aSize) (bReg.take aSize) ≥ 0 then do
      let diff ← diff.store (Subtract (aReg.take aSize) (bReg.take aSize)).1
      return diff.setSign .EPositive
    else do
      let diff ← diff.store (Subtract (bReg.take aSize) (aReg.take aSize)).1
      return diff.setSign .ENegative
  else if aSize > bSize then do
    let diff ← diff.store (subtractUneven aReg bReg aSize bSize)
    return diff.setSign .EPositive
  else do
    let diff ← diff.store (subtractUneven bReg aReg bSize aSize)
    return diff.setSign .ENegative

def positiveMultiplyL (same : Bool) (aA aB : TInteger) : Leaving TInteger :=
  let aSize := RoundupSize aA.wordCount
  let bSize := RoundupSize aB.wordCount
  (cleanNewL (aSize + bSize)).store
    (AsymmetricMultiply same (aA.words.take aSize) (aB.words.take bSize))

/-! ### Signed integers -/

/-- An operand is another integer, or the one that the operation is called on. -/
inductive Operand where
  | itself
  | other (aOperand : TInteger)

namespace Operand

def integer (self : TInteger) : Operand → TInteger
  | itself => self
  | other aOperand => aOperand

def isItself : Operand → Bool
  | itself => true
  | other _ => false

end Operand

def plusL (self aOperand : TInteger) : Leaving TInteger :=
  if !self.isNegative then
    if !aOperand.isNegative then positiveAddL self aOperand else positiveSubtractL self aOperand
  else if !aOperand.isNegative then positiveSubtractL aOperand self
  else do return (← positiveAddL self aOperand).setSign .ENegative

def minusL (self aOperand : TInteger) : Leaving TInteger :=
  if !self.isNegative then
    if !aOperand.isNegative then positiveSubtractL self aOperand else positiveAddL self aOperand
  else if !aOperand.isNegative then do return (← positiveAddL self aOperand).setSign .ENegative
  else positiveSubtractL aOperand self

def timesL (self : TInteger) (operand : Operand) : Leaving TInteger := do
  let aOperand := operand.integer self
  let product ← positiveMultiplyL operand.isItself self aOperand
  return if self.isNegative ≠ aOperand.isNegative then product.negate else product

theorem length_increment (self : TInteger) :
    (Increment self.words 1).1.length = self.words.length := Increment_length _ _

theorem length_decrement (self : TInteger) :
    (Decrement self.words 1).1.length = self.words.length := Decrement_length _ _

/-- `operator++` -/
def increment (self : TInteger) : Leaving TInteger :=
  if !self.isNegative then
    let next := self.withWords (Increment self.words 1).1 self.length_increment
    .ok (if (Increment self.words 1).2 ≠ 0 then next.carryOver else next)
  else
    let next := self.withWords (Decrement self.words 1).1 self.length_decrement
    if next.wordCount = 0 then next.copyL zero true else .ok next

/-! ### What the operations on magnitudes make -/

section

variable {A B : Words}

/-- The words of a number from `n` on. -/
theorem value_above (h : n ≤ A.length) :
    value A = value (A.take n) + (2 ^ 32) ^ n * value (A.drop n) := by
  conv_lhs => rw [← take_append_drop n A]
  rw [value_append, length_take_of_le h]

theorem drop_ne_nil (h : n < A.length) : A.drop n ≠ [] := by
  intro hnil
  have hdrop : (A.drop n).length = A.length - n := length_drop
  rw [hnil, length_nil] at hdrop
  omega

theorem pow_above (h : n ≤ A.length) :
    (2 ^ 32 : Nat) ^ A.length = (2 ^ 32) ^ n * (2 ^ 32) ^ (A.length - n) := by
  rw [← pow_add]
  congr 1
  omega

/-- A sum goes on above the words of the shorter operand. -/
theorem increment_above {v : Nat} {low : Words × UInt32} (hn : n < A.length)
    (hlow : low.1.length = n)
    (hsum : value low.1 + (2 ^ 32) ^ n * low.2.toNat = value (A.take n) + v) :
    (low.1 ++ (Increment (A.drop n) low.2).1).length = A.length ∧
      (Increment (A.drop n) low.2).2.toNat ≤ 1 ∧
      value (low.1 ++ (Increment (A.drop n) low.2).1) +
        (2 ^ 32) ^ A.length * (Increment (A.drop n) low.2).2.toNat = value A + v := by
  obtain ⟨hcarry, hinc⟩ := Increment_value (B := low.2) (Or.inl (drop_ne_nil hn))
  rw [length_drop] at hinc
  refine ⟨?_, hcarry, ?_⟩
  · rw [length_append, hlow, Increment_length, length_drop]
    omega
  · rw [value_append, hlow, value_above hn.le, pow_above hn.le]
    linear_combination hsum + (2 ^ 32) ^ n * hinc

theorem addWords_spec (A B : Words) :
    (addWords A B).1.length = max A.length B.length ∧ (addWords A B).2.toNat ≤ 1 ∧
      value (addWords A B).1 + (2 ^ 32) ^ max A.length B.length * (addWords A B).2.toNat =
        value A + value B := by
  unfold addWords
  by_cases heq : A.length = B.length
  · obtain ⟨hcarry, hsum⟩ := Add_value heq
    rw [if_pos heq, ← heq, Nat.max_self]
    exact ⟨Add_length heq, hcarry, hsum⟩
  rw [if_neg heq]
  by_cases hmore : A.length > B.length
  · have htake : (A.take B.length).length = B.length := length_take_of_le (by omega)
    have hlow := Add_length htake
    obtain ⟨-, hsum⟩ := Add_value htake
    rw [htake] at hlow hsum
    rw [if_pos hmore, Nat.max_eq_left (by omega)]
    exact increment_above hmore hlow hsum
  · have htake : A.length = (B.take A.length).length :=
      (length_take_of_le (by omega)).symm
    obtain ⟨-, hsum⟩ := Add_value htake
    rw [if_neg hmore, Nat.max_eq_right (by omega), Nat.add_comm (value A)]
    exact increment_above (by omega) (Add_length htake) (hsum.trans (Nat.add_comm _ _))

theorem positiveAddL_spec (aA aB : TInteger) :
    ∃ z, positiveAddL aA aB = .ok z ∧ z.isNegative = false ∧
      z.magnitude = aA.magnitude + aB.magnitude := by
  have hmax : RoundupSize (max aA.size aB.size) = max aA.size aB.size := by
    rcases Nat.le_total aA.size aB.size with hle | hle
    · rw [Nat.max_eq_right hle, RoundupSize_size]
    · rw [Nat.max_eq_left hle, RoundupSize_size]
  obtain ⟨hlen, hcarry, hvalue⟩ := addWords_spec aA.words aB.words
  obtain ⟨sum, hsum, hsize, hmagnitude, -⟩ := store_ok (cleanNewL (max aA.size aB.size))
    (w := (addWords aA.words aB.words).1) (by rw [size_cleanNewL, hmax, hlen]; exact Nat.le_refl _)
    (Or.inl (magnitude_cleanNewL _))
  rw [size_cleanNewL, hmax] at hsize
  unfold positiveAddL
  rw [hsum]
  refine ⟨_, rfl, rfl, ?_⟩
  rw [magnitude_setSign]
  change _ = value aA.words + value aB.words
  by_cases hzero : (addWords aA.words aB.words).2 = 0
  · rw [hzero, UInt32.toNat_zero, Nat.mul_zero, Nat.add_zero] at hvalue
    rw [if_neg (fun hne => hne hzero), hmagnitude, hvalue]
  · have hone : (addWords aA.words aB.words).2.toNat = 1 := by
      have hpos : (addWords aA.words aB.words).2.toNat ≠ 0 := fun hc =>
        hzero (UInt32.toNat_inj.mp hc)
      omega
    rw [hone, Nat.mul_one] at hvalue
    rw [if_pos hzero, (carryOver_spec sum).2, hmagnitude, hsize, ← hvalue]
    rfl

/-- The larger magnitude less the smaller. -/
theorem subtractUneven_spec {a b : Nat} (hA : a ≤ A.length) (hB : b ≤ B.length) (h : b < a)
    (hle : value (B.take b) ≤ value (A.take a)) :
    (subtractUneven A B a b).length = a ∧
      value (subtractUneven A B a b) + value (B.take b) = value (A.take a) := by
  have hpart : part A b (a - b) = (A.take a).drop b := by
    unfold part
    rw [drop_take]
  have htake : (A.take b).length = (B.take b).length := by
    rw [length_take_of_le (by omega), length_take_of_le hB]
  have hlength : (A.take b).length = b := length_take_of_le (by omega)
  have hall : (A.take a).length = a := length_take_of_le hA
  have hlow := Subtract_length htake
  obtain ⟨-, hdiff⟩ := Subtract_value htake
  rw [hlength] at hlow hdiff
  have hbottom : (A.take a).take b = A.take b := by
    rw [take_take, Nat.min_eq_left h.le]
  have habove := value_above (A := A.take a) (n := b) (by omega)
  have hpow := pow_above (A := A.take a) (n := b) (by omega)
  obtain ⟨hborrow, hdec⟩ := Decrement_value (A := (A.take a).drop b)
    (B := (Subtract (A.take b) (B.take b)).2) (Or.inl (drop_ne_nil (by omega)))
  rw [hbottom] at habove
  rw [hall] at hpow
  rw [length_drop, hall] at hdec
  unfold subtractUneven
  simp only
  rw [hpart]
  have hlen : ((Subtract (A.take b) (B.take b)).1 ++
      (Decrement ((A.take a).drop b) (Subtract (A.take b) (B.take b)).2).1).length = a := by
    rw [length_append, Decrement_length, length_drop, hlow, hall]
    omega
  have hvalue : value ((Subtract (A.take b) (B.take b)).1 ++
      (Decrement ((A.take a).drop b) (Subtract (A.take b) (B.take b)).2).1) + value (B.take b) =
        value (A.take a) + (2 ^ 32) ^ a *
          (Decrement ((A.take a).drop b) (Subtract (A.take b) (B.take b)).2).2.toNat := by
    rw [value_append, hlow, habove, hpow]
    linear_combination hdiff + (2 ^ 32) ^ b * hdec
  have hfits := value_lt ((Subtract (A.take b) (B.take b)).1 ++
    (Decrement ((A.take a).drop b) (Subtract (A.take b) (B.take b)).2).1)
  rw [hlen] at hfits
  refine ⟨hlen, ?_⟩
  -- there is nothing left to borrow from
  have hnone : (Decrement ((A.take a).drop b) (Subtract (A.take b) (B.take b)).2).2.toNat = 0 := by
    by_contra hne
    have hone : (Decrement ((A.take a).drop b) (Subtract (A.take b) (B.take b)).2).2.toNat = 1 := by
      omega
    rw [hone, Nat.mul_one] at hvalue
    omega
  rw [hvalue, hnone, Nat.mul_zero, Nat.add_zero]

end

/-! ### The representation -/

/-- Zero has no sign.  That the size is a power of two is part of a `TInteger`, and the words
above the magnitude are zero because the magnitude is the number in all of them. -/
def WellSigned (self : TInteger) : Prop := self.isNegative = true → self.magnitude ≠ 0

/-- The integer is `n`, and well formed. -/
structure IsInt (z : TInteger) (n : Int) : Prop where
  toInt : z.toInt = n
  wellSigned : z.WellSigned

/-- The operation succeeds, and what it makes is `n`. -/
def Makes (result : Leaving TInteger) (n : Int) : Prop := ∃ z, result = .ok z ∧ z.IsInt n

theorem IsInt.of_positive {n : Int} (h : z.isNegative = false) (hvalue : (z.magnitude : Int) = n) :
    z.IsInt n :=
  ⟨(toInt_of_positive h).trans hvalue, fun hneg => absurd (h.symm.trans hneg) (by decide)⟩

theorem IsInt.of_negative {n : Int} (h : z.isNegative = true) (hne : z.magnitude ≠ 0)
    (hvalue : -(z.magnitude : Int) = n) : z.IsInt n :=
  ⟨(toInt_of_negative h).trans hvalue, fun _ => hne⟩

section

variable {x y aA aB : TInteger}

theorem size_max (aA aB : TInteger) : RoundupSize (max aA.size aB.size) = max aA.size aB.size := by
  rcases Nat.le_total aA.size aB.size with hle | hle
  · rw [Nat.max_eq_right hle, RoundupSize_size]
  · rw [Nat.max_eq_left hle, RoundupSize_size]

theorem value_even (self : TInteger) :
    value (self.words.take self.evenWordCount) = self.magnitude :=
  value_take_words (Nat.le_add_right _ _)

theorem length_even (self : TInteger) :
    (self.words.take self.evenWordCount).length = self.evenWordCount :=
  length_take_of_le self.evenWordCount_le

theorem magnitude_le_of_even (h : aB.evenWordCount < aA.evenWordCount) :
    aB.magnitude < aA.magnitude := by
  by_contra hge
  have hmono := wordCount_mono (Nat.not_lt.mp hge)
  unfold evenWordCount at h
  omega

/-- The difference is written to a cell that has the room. -/
theorem diff_store (aA aB : TInteger) {w : Words} (hlen : w.length ≤ max aA.size aB.size)
    (hvalue : value w = n) :
    ∃ diff, (cleanNewL (max aA.size aB.size)).store w = .ok diff ∧ diff.magnitude = n ∧
      diff.isNegative = false := by
  obtain ⟨diff, hdiff, -, hmagnitude, hsign⟩ := store_ok (cleanNewL (max aA.size aB.size))
    (w := w) (by rw [size_cleanNewL, size_max]; exact hlen) (Or.inl (magnitude_cleanNewL _))
  exact ⟨diff, hdiff, hmagnitude.trans hvalue, hsign⟩

theorem positiveSubtractL_spec (aA aB : TInteger) :
    Makes (positiveSubtractL aA aB) ((aA.magnitude : Int) - aB.magnitude) := by
  have hA := aA.evenWordCount_le
  have hB := aB.evenWordCount_le
  have hvalueA := value_even aA
  have hvalueB := value_even aB
  unfold positiveSubtractL
  simp only
  by_cases heq : aA.evenWordCount = aB.evenWordCount
  · have hlength : (aA.words.take aA.evenWordCount).length =
        (aB.words.take aA.evenWordCount).length := by
      rw [length_even, heq, length_even]
    rw [if_pos heq]
    rw [← heq] at hvalueB
    by_cases hge : Compare (aA.words.take aA.evenWordCount) (aB.words.take aA.evenWordCount) ≥ 0
    · have hle := (Compare_nonneg hlength).mp hge
      have hdiff := Subtract_of_le hlength hle
      have hsub := Subtract_length hlength
      rw [hvalueA, hvalueB] at hle hdiff
      rw [length_even] at hsub
      obtain ⟨diff, hstore, hmagnitude, -⟩ := diff_store aA aB (n := aA.magnitude - aB.magnitude)
        (w := (Subtract (aA.words.take aA.evenWordCount) (aB.words.take aA.evenWordCount)).1)
        (by rw [hsub]; omega) (by omega)
      rw [if_pos hge, hstore]
      exact ⟨_, rfl, .of_positive rfl (by rw [magnitude_setSign, hmagnitude]; omega)⟩
    · have hlt : aA.magnitude < aB.magnitude := by
        rw [← hvalueA, ← hvalueB]
        exact Nat.not_le.mp (mt (Compare_nonneg hlength).mpr hge)
      have hdiff := Subtract_of_le hlength.symm (by rw [hvalueA, hvalueB]; exact hlt.le)
      have hsub := Subtract_length hlength.symm
      rw [hvalueA, hvalueB] at hdiff
      rw [← hlength, length_even] at hsub
      obtain ⟨diff, hstore, hmagnitude, -⟩ := diff_store aA aB (n := aB.magnitude - aA.magnitude)
        (w := (Subtract (aB.words.take aA.evenWordCount) (aA.words.take aA.evenWordCount)).1)
        (by rw [hsub]; omega) (by omega)
      rw [if_neg hge, hstore]
      refine ⟨_, rfl, .of_negative rfl ?_ ?_⟩
      · rw [magnitude_setSign, hmagnitude]
        omega
      · rw [magnitude_setSign, hmagnitude]
        omega
  rw [if_neg heq]
  by_cases hmore : aA.evenWordCount > aB.evenWordCount
  · have hlt := magnitude_le_of_even hmore
    obtain ⟨hlen, hdiff⟩ := subtractUneven_spec hA hB hmore (by rw [hvalueA, hvalueB]; exact hlt.le)
    rw [hvalueA, hvalueB] at hdiff
    obtain ⟨diff, hstore, hmagnitude, -⟩ := diff_store aA aB (n := aA.magnitude - aB.magnitude)
      (w := subtractUneven aA.words aB.words aA.evenWordCount aB.evenWordCount)
      (by rw [hlen]; omega) (by omega)
    rw [if_pos hmore, hstore]
    exact ⟨_, rfl, .of_positive rfl (by rw [magnitude_setSign, hmagnitude]; omega)⟩
  · have hless : aA.evenWordCount < aB.evenWordCount := by omega
    have hlt := magnitude_le_of_even hless
    obtain ⟨hlen, hdiff⟩ := subtractUneven_spec hB hA hless (by rw [hvalueA, hvalueB]; exact hlt.le)
    rw [hvalueA, hvalueB] at hdiff
    obtain ⟨diff, hstore, hmagnitude, -⟩ := diff_store aA aB (n := aB.magnitude - aA.magnitude)
      (w := subtractUneven aB.words aA.words aB.evenWordCount aA.evenWordCount)
      (by rw [hlen]; omega) (by omega)
    rw [if_neg hmore, hstore]
    refine ⟨_, rfl, .of_negative rfl ?_ ?_⟩
    · rw [magnitude_setSign, hmagnitude]
      omega
    · rw [magnitude_setSign, hmagnitude]
      omega

theorem positiveMultiplyL_spec {same : Bool} (hsame : same = true → aA = aB) :
    ∃ z, positiveMultiplyL same aA aB = .ok z ∧ z.isNegative = false ∧
      z.magnitude = aA.magnitude * aB.magnitude := by
  obtain ⟨i, hi⟩ := (RoundupSize_least aA.wordCount).powerOfTwo
  obtain ⟨j, hj⟩ := (RoundupSize_least aB.wordCount).powerOfTwo
  have hA : (aA.words.take (RoundupSize aA.wordCount)).length = RoundupSize aA.wordCount :=
    length_take_of_le (RoundupSize_le aA.wordCount_le)
  have hB : (aB.words.take (RoundupSize aB.wordCount)).length = RoundupSize aB.wordCount :=
    length_take_of_le (RoundupSize_le aB.wordCount_le)
  obtain ⟨hlen, hvalue⟩ := AsymmetricMultiply_spec
    (A := aA.words.take (RoundupSize aA.wordCount)) (B := aB.words.take (RoundupSize aB.wordCount))
    (fun h => by rw [hsame h]) (hA.trans hi) (hB.trans hj)
  rw [value_take_words (RoundupSize_least _).le, value_take_words (RoundupSize_least _).le]
    at hvalue
  rw [hA, hB] at hlen
  obtain ⟨z, hz, -, hmagnitude, hsign⟩ := store_ok
    (cleanNewL (RoundupSize aA.wordCount + RoundupSize aB.wordCount))
    (w := AsymmetricMultiply same (aA.words.take (RoundupSize aA.wordCount))
      (aB.words.take (RoundupSize aB.wordCount)))
    (by rw [size_cleanNewL, hlen]; exact (RoundupSize_least _).le)
    (Or.inl (magnitude_cleanNewL _))
  exact ⟨z, hz, hsign, hmagnitude.trans hvalue⟩

/-! ### Signed operations -/

theorem toInt_cases (x : TInteger) :
    x.isNegative = false ∧ x.toInt = x.magnitude ∨
      x.isNegative = true ∧ x.toInt = -(x.magnitude : Int) := by
  cases hsign : x.isNegative with
  | false => exact .inl ⟨rfl, toInt_of_positive hsign⟩
  | true => exact .inr ⟨rfl, toInt_of_negative hsign⟩

theorem positiveAddL_makes (aA aB : TInteger) :
    Makes (positiveAddL aA aB) (aA.magnitude + aB.magnitude : Nat) := by
  obtain ⟨z, hz, hsign, hmagnitude⟩ := positiveAddL_spec aA aB
  exact ⟨z, hz, .of_positive hsign (by rw [hmagnitude])⟩

/-- A sum of magnitudes that is given the sign of its operands. -/
theorem positiveAddL_negative (hne : aA.magnitude ≠ 0) :
    Makes (do return (← positiveAddL aA aB).setSign .ENegative)
      (-((aA.magnitude + aB.magnitude : Nat) : Int)) := by
  obtain ⟨z, hz, hsign, hmagnitude⟩ := positiveAddL_spec aA aB
  rw [hz]
  refine ⟨_, rfl, .of_negative rfl ?_ ?_⟩
  · rw [magnitude_setSign, hmagnitude]
    omega
  · rw [magnitude_setSign, hmagnitude]

theorem plusL_makes (hx : x.WellSigned) (y : TInteger) : Makes (x.plusL y) (x.toInt + y.toInt) := by
  unfold plusL
  rcases toInt_cases x with ⟨hxs, hxv⟩ | ⟨hxs, hxv⟩ <;>
    rcases toInt_cases y with ⟨hys, hyv⟩ | ⟨hys, hyv⟩ <;>
    simp only [hxs, hys, hxv, hyv, Bool.not_false, Bool.not_true, if_true, Bool.false_eq_true,
      if_false]
  · have hsum := positiveAddL_makes x y
    rwa [Nat.cast_add] at hsum
  · exact positiveSubtractL_spec x y
  · have hdiff := positiveSubtractL_spec y x
    rwa [sub_eq_neg_add] at hdiff
  · have hsum := @positiveAddL_negative x y (hx hxs)
    rwa [Nat.cast_add, neg_add] at hsum

theorem minusL_makes (hx : x.WellSigned) (y : TInteger) :
    Makes (x.minusL y) (x.toInt - y.toInt) := by
  unfold minusL
  rcases toInt_cases x with ⟨hxs, hxv⟩ | ⟨hxs, hxv⟩ <;>
    rcases toInt_cases y with ⟨hys, hyv⟩ | ⟨hys, hyv⟩ <;>
    simp only [hxs, hys, hxv, hyv, Bool.not_false, Bool.not_true, if_true, Bool.false_eq_true,
      if_false]
  · exact positiveSubtractL_spec x y
  · have hsum := positiveAddL_makes x y
    rwa [Nat.cast_add, ← sub_neg_eq_add] at hsum
  · have hsum := @positiveAddL_negative x y (hx hxs)
    rwa [Nat.cast_add, neg_add, ← sub_eq_add_neg] at hsum
  · have hdiff := positiveSubtractL_spec y x
    rwa [sub_eq_neg_add, ← sub_neg_eq_add] at hdiff

theorem timesL_makes (x : TInteger) (operand : Operand) :
    Makes (x.timesL operand) (x.toInt * (operand.integer x).toInt) := by
  have hsame : operand.isItself = true → x = operand.integer x := by
    intro h
    cases operand with
    | itself => rfl
    | other y => cases h
  obtain ⟨z, hz, hsign, hmagnitude⟩ := positiveMultiplyL_spec hsame
  unfold timesL
  simp only
  rw [hz]
  generalize operand.integer x = y at *
  have hpositive : z.toInt = x.magnitude * y.magnitude := by
    rw [toInt_of_positive hsign, hmagnitude, Nat.cast_mul]
  have hsigned : ∀ {n : Int}, z.toInt = n → z.IsInt n := fun h => ⟨h, fun hneg =>
    absurd (hsign.symm.trans hneg) (by decide)⟩
  have hnegated : ∀ {n : Int}, -z.toInt = n → z.negate.IsInt n := by
    intro n hn
    refine ⟨toInt_negate.trans hn, fun hneg => ?_⟩
    rw [magnitude_negate]
    intro hzero
    rw [negate_of_zero hsign hzero, hsign] at hneg
    exact absurd hneg (by decide)
  refine ⟨_, rfl, ?_⟩
  rcases toInt_cases x with ⟨hxs, hxv⟩ | ⟨hxs, hxv⟩ <;>
    rcases toInt_cases y with ⟨hys, hyv⟩ | ⟨hys, hyv⟩
  · rw [hxs, hys, hxv, hyv, if_neg (by decide)]
    exact hsigned hpositive
  · rw [hxs, hys, hxv, hyv, if_pos (by decide), mul_neg]
    exact hnegated (by rw [hpositive])
  · rw [hxs, hys, hxv, hyv, if_pos (by decide), neg_mul]
    exact hnegated (by rw [hpositive])
  · rw [hxs, hys, hxv, hyv, if_neg (by decide), neg_mul_neg]
    exact hsigned hpositive

/-- What is not below zero has no sign. -/
theorem IsInt.notNegative {n : Int} (h : z.IsInt n) (hn : 0 ≤ n) : z.isNegative = false := by
  rcases toInt_cases z with ⟨hsign, -⟩ | ⟨hsign, hvalue⟩
  · exact hsign
  · have hne := h.wellSigned hsign
    have hz := h.toInt
    omega

theorem IsInt.magnitude (h : z.IsInt n) : z.magnitude = n := by
  have hz := h.toInt
  rw [toInt_of_positive (h.notNegative (Int.natCast_nonneg n))] at hz
  exact_mod_cast hz

/-- **`ModuloL`** and **`DividedByL`**, of integers that are not negative. -/
theorem divideL_makes (hx : x.isNegative = false) (hy : y.isNegative = false)
    (hne : y.magnitude ≠ 0) :
    Makes (x.moduloL y) (x.magnitude % y.magnitude : Nat) ∧
      Makes (x.dividedByL y) (x.magnitude / y.magnitude : Nat) := by
  obtain ⟨r, q, hdivide, hspec⟩ := positiveDivideL_spec (a := x) hne
  have heq : divideL x y = .ok (r, q) := by
    have hboth := divideL_eq hdivide (if_neg (by rw [hx]; decide))
    rwa [hy, if_neg (by decide)] at hboth
  constructor
  · refine ⟨r, ?_, .of_positive hspec.remainderPositive (congrArg Nat.cast hspec.remainder)⟩
    unfold moduloL
    rw [heq]
    rfl
  · refine ⟨q, ?_, .of_positive hspec.quotientPositive (congrArg Nat.cast hspec.quotient)⟩
    unfold dividedByL
    rw [heq]
    rfl

/-! ### Counting -/

/-- A cell that is larger than the least does not shrink to it. -/
theorem resizeL_undefined (h : 2 < x.size) : x.resizeL 2 true = .error .undefined := by
  have hleast : RoundupSize 2 = 2 := rfl
  unfold resizeL cleanResizeL
  rw [if_pos rfl, if_neg (by omega), dif_pos (by omega)]
  simp only
  rw [dif_neg (by rw [length_replicate]; omega)]

theorem not_makes_undefined (n : Int) : ¬Makes (.error .undefined) n := by
  rintro ⟨z, hz, -⟩
  cases hz

theorem magnitude_decremented (hne : x.magnitude ≠ 0) :
    (Decrement x.words 1).2 = 0 ∧ value (Decrement x.words 1).1 = x.magnitude - 1 := by
  obtain ⟨hborrow, hvalue⟩ := Decrement_value (B := 1) (Or.inl x.words_ne_nil)
  have hfits := value_lt (Decrement x.words 1).1
  rw [Decrement_length] at hfits
  have hmagnitude : value x.words = x.magnitude := rfl
  rw [hmagnitude, UInt32.toNat_one] at hvalue
  have hnone : (Decrement x.words 1).2.toNat = 0 := by
    by_contra hsome
    have hone : (Decrement x.words 1).2.toNat = 1 := by omega
    rw [hone, Nat.mul_one] at hvalue
    omega
  rw [hnone, Nat.mul_zero, Nat.add_zero] at hvalue
  exact ⟨UInt32.toNat_inj.mp hnone, by omega⟩

theorem decrement_undefined (hsign : x.isNegative = false) (hzero : x.magnitude = 0)
    (hsize : 2 < x.size) : x.decrement = .error .undefined := by
  have hborrow : (Decrement x.words 1).2 ≠ 0 := by
    intro hnone
    obtain ⟨-, hdec⟩ := Decrement_value (B := 1) (Or.inl x.words_ne_nil)
    have hmagnitude : value x.words = 0 := hzero
    rw [hnone, hmagnitude] at hdec
    exact Nat.succ_ne_zero _ hdec
  unfold decrement copyIntL
  rw [hsign, if_neg (by decide), if_pos hborrow, resizeL_undefined (by rw [size_withWords]; omega)]
  rfl

theorem decrement_positive (hsign : x.isNegative = false) (hne : x.magnitude ≠ 0) :
    Makes x.decrement (x.toInt - 1) := by
  obtain ⟨hborrow, hdec⟩ := magnitude_decremented hne
  unfold decrement
  rw [hsign, if_neg (by decide), if_neg (fun hc => hc hborrow)]
  refine ⟨_, rfl, .of_positive hsign ?_⟩
  rw [magnitude_withWords, hdec, toInt_of_positive hsign]
  omega

/-- **`operator--`** goes below zero only from the least cell. -/
theorem decrement_makes_iff (hx : x.WellSigned) :
    Makes x.decrement (x.toInt - 1) ↔ ¬(x.toInt = 0 ∧ 2 < x.size) := by
  rcases toInt_cases x with ⟨hsign, hvalue⟩ | ⟨hsign, hvalue⟩
  · by_cases hzero : x.magnitude = 0
    · rw [hvalue, hzero]
      by_cases hsize : x.size = 2
      · refine ⟨fun _ h => by omega, fun _ => ?_⟩
        obtain ⟨c, hc, hminus⟩ := decrement_zero hsign hzero hsize
        refine ⟨c, hc, hminus, fun _ hnone => ?_⟩
        have habs := toInt_natAbs c
        rw [hminus, hnone] at habs
        exact absurd habs (by decide)
      · have htwo := two_le_size x
        refine ⟨fun h => ?_, fun h => absurd ⟨rfl, by omega⟩ h⟩
        rw [decrement_undefined hsign hzero (by omega)] at h
        exact absurd h (not_makes_undefined _)
    · exact ⟨fun _ h => hzero (by omega), fun _ => decrement_positive hsign hzero⟩
  · have hne := hx hsign
    obtain ⟨c, hc, hneg, hmagnitude⟩ := decrement_negative hsign
    refine ⟨fun _ h => hne (by omega), fun _ => ⟨c, hc, .of_negative hneg ?_ ?_⟩⟩
    · omega
    · rw [hmagnitude, hvalue]
      push_cast
      omega

/-- Where it returns, it has counted down. -/
theorem decrement_ok (hx : x.WellSigned) (h : x.decrement = .ok z) : z.IsInt (x.toInt - 1) := by
  by_cases hfits : x.toInt = 0 ∧ 2 < x.size
  · have hsign : x.isNegative = false := IsInt.notNegative ⟨rfl, hx⟩ hfits.1.ge
    have hzero : x.magnitude = 0 := IsInt.magnitude ⟨hfits.1, hx⟩
    rw [decrement_undefined hsign hzero hfits.2] at h
    cases h
  · obtain ⟨z', hz', hint⟩ := (decrement_makes_iff hx).mpr hfits
    obtain rfl := Except.ok.inj (h.symm.trans hz')
    exact hint

/-- **`operator++`** comes up to zero only in the least cell. -/
theorem increment_makes_iff (hx : x.WellSigned) :
    Makes x.increment (x.toInt + 1) ↔ ¬(x.toInt = -1 ∧ 2 < x.size) := by
  rcases toInt_cases x with ⟨hsign, hvalue⟩ | ⟨hsign, hvalue⟩
  · obtain ⟨hsame, hmagnitude⟩ := x.carryOver_increment
    refine ⟨fun _ h => by omega, fun _ => ?_⟩
    unfold increment
    rw [hsign]
    exact ⟨_, rfl, .of_positive (hsame.trans hsign) (by rw [hmagnitude, hvalue]; push_cast; rfl)⟩
  · have hne := hx hsign
    obtain ⟨-, hdec⟩ := magnitude_decremented hne
    have hnext : (x.withWords (Decrement x.words 1).1 (Decrement_length x.words 1)).wordCount = 0 ↔
        x.magnitude = 1 := by
      rw [wordCount_eq_zero, magnitude_withWords, hdec]
      omega
    unfold increment
    rw [hsign, if_neg (by decide)]
    simp only
    by_cases hone : x.magnitude = 1
    · rw [if_pos (hnext.mpr hone)]
      by_cases hsize : x.size = 2
      · refine ⟨fun _ h => by omega, fun _ => ?_⟩
        obtain ⟨c, hc, -, hmagnitude, hpositive⟩ := copyL_same_size
          (a := x.withWords (Decrement x.words 1).1 (Decrement_length x.words 1))
          (b := zero) (by rw [size_withWords, hsize]; rfl)
        have hcsign : c.isNegative = false := by
          rw [isNegative, hpositive]
          rfl
        refine ⟨c, hc, .of_positive hcsign ?_⟩
        rw [hmagnitude, zero, magnitude_ofWord, hvalue, hone]
        rfl
      · have htwo := two_le_size x
        refine ⟨fun h => ?_, fun h => absurd ⟨by omega, by omega⟩ h⟩
        have hundefined : (x.withWords (Decrement x.words 1).1
            (Decrement_length x.words 1)).copyL zero true = .error .undefined := by
          unfold copyL
          rw [show zero.size = 2 from rfl, resizeL_undefined (by rw [size_withWords]; omega)]
          rfl
        rw [hundefined] at h
        exact absurd h (not_makes_undefined _)
    · rw [if_neg (mt hnext.mp hone)]
      refine ⟨fun _ h => hone (by omega), fun _ => ⟨_, rfl, .of_negative hsign ?_ ?_⟩⟩
      · rw [magnitude_withWords, hdec]
        omega
      · rw [magnitude_withWords, hdec, hvalue]
        omega

end

end TInteger

end OsSecurity

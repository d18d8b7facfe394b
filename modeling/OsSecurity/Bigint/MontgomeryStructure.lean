/-
`CMontgomeryStructure`, and the modular exponentiation that it is for: `mont.cpp`, `bigint.cpp`.

A number is converted in by a factor of `R`, the power of two next above the words of the modulus,
and out by dividing by it again.  Products are reduced to the size of the modulus in between.

The work space is five times as large as the modulus.  A cell of `KMaxTInt/2` bytes or more is
not allocated: `User::AllocL` panics.  Here that matters, for it bounds the size of a modulus.
-/
import OsSecurity.Bigint.Exponentiate
import OsSecurity.Bigint.MontgomeryReduce

namespace OsSecurity

open Nat TWindowSlider

namespace TInteger

/-- `RInteger::NewEmptyL`.  The number of bytes is a word: a cell that is asked for may be smaller
than the integer takes it to be. -/
def newEmptyL (aNumWords : Nat) : Leaving TInteger :=
  let bytes : Nat := WORD_SIZE * RoundupSize aNumWords % 2 ^ 32
  if (bytes : Int) ≥ KMaxTInt / 2 then panic
  else if bytes < WORD_SIZE * RoundupSize aNumWords then .error .undefined
  else .ok (cleanNewL aNumWords)

def isPositive (self : TInteger) : Bool := !self.isNegative && !self.isZero

end TInteger

open TInteger

def WordsToBits (wordCount : Nat) : UInt32 := UInt32.ofNat (wordCount * WORD_BITS)

/-- What is in `iWorkspace` is always written before it is read. -/
structure CMontgomeryStructure where
  iModulus : TInteger
  iModulusInv : TInteger
  iResult : TInteger

namespace CMontgomeryStructure

/-- `NewLC` and `ConstructL` -/
def newL (aModulus : TInteger) : Leaving CMontgomeryStructure :=
  if aModulus.isEven then leave KErrArgument
  else do
    let iModulusInv ← newEmptyL aModulus.size
    let _ ← newEmptyL (5 * aModulus.size)
    let iModulus ← TInteger.newL aModulus
    let iResult ← newEmptyL aModulus.size
    let iModulusInv ← iModulusInv.store (RecursiveInverseModPower2 iModulus.words iModulus.size)
    return ⟨iModulus, iModulusInv, iResult⟩

/-- The number of words of the modulus. -/
def size (self : CMontgomeryStructure) : Nat := self.iModulus.size

def convertInL (self : CMontgomeryStructure) (aInteger : TInteger) : Leaving TInteger := do
  let aInteger ← aInteger.shiftLeft (WordsToBits self.size)
  aInteger.moduloL self.iModulus

/-- The words `T`, with zeros behind them, are reduced to `aResult`. -/
def reduceWords (self : CMontgomeryStructure) (aResult : TInteger) (T : Words) :
    Leaving TInteger :=
  aResult.store (MontgomeryReduce (T ++ List.replicate (2 * self.size - T.length) 0)
    self.iModulus.words self.iModulusInv.words self.size)

def convertOutL (self : CMontgomeryStructure) (aInteger : TInteger) : Leaving TInteger :=
  if aInteger.size ≤ self.size then self.reduceWords aInteger aInteger.words
  else leave KErrArgument

def doMultiplyL (self : CMontgomeryStructure) (aResult aA aB : TInteger) : Leaving TInteger :=
  if aResult.size ≠ self.size then leave KErrArgument
  else if aA.size ≤ self.size ∧ aB.size ≤ self.size then
    self.reduceWords aResult (AsymmetricMultiply false aA.words aB.words)
  else leave KErrArgument

def doSquareL (self : CMontgomeryStructure) (aResult aA : TInteger) : Leaving TInteger :=
  if aResult.size ≠ self.size then leave KErrArgument
  else if aA.size ≤ self.size then
    self.reduceWords aResult (RecursiveSquare aA.words aA.size)
  else leave KErrArgument

/-- `SquareL`: what it returns is `iResult`. -/
def squareL (self : CMontgomeryStructure) (aA : TInteger) : Leaving CMontgomeryStructure := do
  let a ← TInteger.newL aA
  let a ← self.convertInL a
  let iResult ← self.doSquareL self.iResult a
  let iResult ← self.convertOutL iResult
  return { self with iResult := iResult }

/-- The next of the odd powers. -/
def nextPowerL (self : CMontgomeryStructure) (g2 last : TInteger) : Leaving TInteger := do
  let gi ← newEmptyL self.size
  self.doMultiplyL gi g2 last

/-- `DoMultiplyL(A, A, powerArray[n])` -/
def multiplyElementL (self : CMontgomeryStructure) (powerArray : List TInteger) (A : TInteger)
    (n : Nat) : Leaving TInteger := do
  let power ← elementOf powerArray n
  self.doMultiplyL A A power

/-- `ExponentiateL`: what it returns is `iResult`. -/
def exponentiateL (self : CMontgomeryStructure) (aBase aExponent : TInteger) :
    Leaving CMontgomeryStructure :=
  if self.iResult.size ≠ self.size ∨ aBase.signedCompare self.iModulus ≥ 0 ∨
      !aBase.isPositive ∨ !aExponent.isPositive then leave KErrArgument
  else do
    let g2 ← TInteger.newL aBase
    let g2 ← self.convertInL g2
    let g2 := g2.cleanGrowL self.size
    let g1 ← TInteger.newL g2
    let g2 ← self.doSquareL g2 g2
    let slider := TWindowSlider.ofExponent aExponent
    let powerArray ← appendPowersL (self.nextPowerL g2) (1 <<< (slider.iSize - 1) - 1) 1 [g1]
    let temp ← TInteger.newL one
    let temp ← self.convertInL temp
    let A ← self.iResult.copyL temp false
    let A ← TWindowSlider.slide (fun A => self.doSquareL A A) (self.multiplyElementL powerArray)
      slider (TInt.wrap (aExponent.bitCount - 1).toNat) A
    let A ← self.convertOutL A
    return { self with iResult := A }

/-! ### The structure of a modulus -/

/-- What `ConstructL` has set up, and what no function changes. -/
structure Valid (mont : CMontgomeryStructure) : Prop where
  odd : mont.iModulus.magnitude % 2 = 1
  inverse : IsInverse mont.size mont.iModulusInv.words mont.iModulus.words
  resultSize : mont.iResult.size = mont.size
  resultPositive : mont.iResult.isNegative = false
  fits : mont.size ≤ 2 ^ 24

theorem newEmptyL_eq_ok {n : Nat} {z : TInteger} (h : newEmptyL n = .ok z) :
    z = cleanNewL n ∧ RoundupSize n < 2 ^ 28 := by
  unfold newEmptyL at h
  simp only at h
  by_cases hlarge : ((WORD_SIZE * RoundupSize n % 2 ^ 32 : Nat) : Int) ≥ KMaxTInt / 2
  · rw [if_pos hlarge] at h
    exact absurd h (panic_ne_ok z)
  rw [if_neg hlarge] at h
  by_cases hwrapped : WORD_SIZE * RoundupSize n % 2 ^ 32 < WORD_SIZE * RoundupSize n
  · rw [if_pos hwrapped] at h
    cases h
  · rw [if_neg hwrapped] at h
    obtain rfl := Except.ok.inj h
    refine ⟨rfl, ?_⟩
    unfold KMaxTInt WORD_SIZE at *
    omega

theorem newEmptyL_ok {n : Nat} (h : RoundupSize n < 2 ^ 28 - 1) :
    newEmptyL n = .ok (cleanNewL n) := by
  have hbytes : WORD_SIZE * RoundupSize n % 2 ^ 32 = WORD_SIZE * RoundupSize n := by
    unfold WORD_SIZE
    omega
  have hsmall : ¬((WORD_SIZE * RoundupSize n : Nat) : Int) ≥ KMaxTInt / 2 := by
    unfold KMaxTInt WORD_SIZE
    omega
  unfold newEmptyL
  simp only
  rw [hbytes, if_neg hsmall, if_neg (Nat.lt_irrefl _)]

theorem inverse_store {M : TInteger} (hodd : M.magnitude % 2 = 1) :
    ∃ inv, (cleanNewL M.size).store (RecursiveInverseModPower2 M.words M.size) = .ok inv ∧
      IsInverse M.size inv.words M.words := by
  obtain ⟨k, hk⟩ := M.powerOfTwo
  have hinverse := RecursiveInverseModPower2_spec (N := M.size) hk rfl hodd
  have hcell : (cleanNewL M.size).size = M.size := by rw [size_cleanNewL, RoundupSize_size]
  obtain ⟨inv, hinv, hsize, hvalue, -⟩ := store_ok (cleanNewL M.size)
    (w := RecursiveInverseModPower2 M.words M.size) (by rw [hinverse.length, hcell])
    (Or.inl (magnitude_cleanNewL _))
  refine ⟨inv, hinv, hsize.trans hcell, ?_⟩
  have hsame : value inv.words = value (RecursiveInverseModPower2 M.words M.size) := hvalue
  rw [hsame]
  exact hinverse.product

/-- The work space is larger than four times the modulus, and so eight times as large. -/
theorem size_le_of_work {M : TInteger} (h : RoundupSize (5 * M.size) < 2 ^ 28) :
    M.size ≤ 2 ^ 24 := by
  obtain ⟨k, hk⟩ := M.powerOfTwo
  obtain ⟨j, hj⟩ := (RoundupSize_least (5 * M.size)).powerOfTwo
  have hle := (RoundupSize_least (5 * M.size)).le
  have hsize : M.size = 2 ^ (k + 1) := hk
  have hpos := Nat.two_pow_pos (k + 1)
  have hfour : 2 ^ (k + 3) = 4 * 2 ^ (k + 1) := by rw [pow_add]; ring
  rw [hj, hsize] at hle
  rw [hj] at h
  have hmore : k + 3 < j + 1 := (Nat.pow_lt_pow_iff_right (by decide : 1 < 2)).mp (by omega)
  have hless : j + 1 < 28 := (Nat.pow_lt_pow_iff_right (by decide : 1 < 2)).mp h
  rw [hsize]
  exact Nat.pow_le_pow_right (by decide) (by omega)

/-- **A structure that has been constructed is one of its modulus.** -/
theorem newL_valid {M : TInteger} {mont : CMontgomeryStructure} (h : newL M = .ok mont) :
    mont.Valid ∧ mont.iModulus = M := by
  unfold newL at h
  by_cases heven : M.isEven = true
  · rw [if_pos heven] at h
    exact absurd h (leave_ne_ok _ _)
  have hodd : M.magnitude % 2 = 1 := by
    have hnot := mt (isEven_iff M).mpr heven
    omega
  rw [if_neg heven] at h
  obtain ⟨inv, hinv, h⟩ := bind_eq_ok.mp h
  obtain ⟨work, hwork, h⟩ := bind_eq_ok.mp h
  obtain ⟨modulus, hmodulus, h⟩ := bind_eq_ok.mp h
  obtain ⟨result, hresult, h⟩ := bind_eq_ok.mp h
  obtain ⟨stored, hstored, h⟩ := bind_eq_ok.mp h
  obtain ⟨rfl, hsmall⟩ := newEmptyL_eq_ok hinv
  obtain ⟨rfl, hroom⟩ := newEmptyL_eq_ok hwork
  obtain ⟨rfl, -⟩ := newEmptyL_eq_ok hresult
  obtain rfl := Except.ok.inj ((newL_eq M).symm.trans hmodulus)
  obtain ⟨inverse, hinverse, hspec⟩ := inverse_store hodd
  obtain rfl := Except.ok.inj (hinverse.symm.trans hstored)
  obtain rfl := Except.ok.inj h
  refine ⟨⟨hodd, hspec, ?_, rfl, size_le_of_work hroom⟩, rfl⟩
  show (cleanNewL M.size).size = M.size
  rw [size_cleanNewL, RoundupSize_size]

/-- The moduli that a structure can be constructed of have at most 2^24 words. -/
theorem newL_ok {M : TInteger} (hodd : M.magnitude % 2 = 1) (hsize : M.size ≤ 2 ^ 24) :
    ∃ mont, newL M = .ok mont := by
  have heven : ¬M.isEven = true := by
    intro heven
    have hzero := (isEven_iff M).mp heven
    omega
  have hwork : RoundupSize (5 * M.size) ≤ 2 ^ 27 :=
    (RoundupSize_least _).least 26 (by omega)
  obtain ⟨inv, hinv, -⟩ := inverse_store hodd
  refine ⟨⟨M, inv, cleanNewL M.size⟩, ?_⟩
  unfold newL
  rw [if_neg heven, newEmptyL_ok (by rw [RoundupSize_size]; omega), newEmptyL_ok (by omega),
    newL_eq]
  simp only [ok_bind]
  rw [hinv]
  rfl

/-! ### Numbers that are converted in -/

section

variable {self : CMontgomeryStructure} {A B : TInteger} {m n : Nat}

/-- The factor by which a number is converted in. -/
def radix (self : CMontgomeryStructure) : Nat := (2 ^ 32) ^ self.size

/-- `n`, converted in, in a cell of the size of the modulus. -/
structure InForm (mont : CMontgomeryStructure) (A : TInteger) (n : Nat) : Prop where
  size : A.size = mont.size
  positive : A.isNegative = false
  lt : A.magnitude < mont.iModulus.magnitude
  form : A.magnitude ≡ n * mont.radix [MOD mont.iModulus.magnitude]

theorem Valid.modulus_pos (h : self.Valid) : 0 < self.iModulus.magnitude := by
  have hodd := h.odd
  omega

theorem Valid.coprime (h : self.Valid) : Coprime self.iModulus.magnitude self.radix := by
  have hodd : Coprime self.iModulus.magnitude 2 :=
    coprime_two_right.mpr (odd_iff.mpr h.odd)
  exact (hodd.pow_right 32).pow_right self.size

/-- **A product is divided by the radix.** -/
theorem reduceWords_spec (h : self.Valid) (hA : A.size = self.size)
    (hpositive : A.isNegative = false) {T : Words} (hlen : T.length ≤ 2 * self.size)
    (hlt : value T < self.iModulus.magnitude * self.radix) :
    ∃ z, self.reduceWords A T = .ok z ∧ z.size = self.size ∧ z.isNegative = false ∧
      z.magnitude < self.iModulus.magnitude ∧
      z.magnitude * self.radix ≡ value T [MOD self.iModulus.magnitude] := by
  obtain ⟨k, hk⟩ := self.iModulus.powerOfTwo
  have hpadded : value (T ++ List.replicate (2 * self.size - T.length) 0) = value T := by
    rw [value_append, value_zeros, Nat.mul_zero, Nat.add_zero]
  have hlength : (T ++ List.replicate (2 * self.size - T.length) 0).length = 2 * self.size := by
    rw [List.length_append, List.length_replicate]
    omega
  obtain ⟨hRlen, hRlt, hR⟩ := MontgomeryReduce_spec (N := self.size) hk hlength rfl h.inverse
    (by rw [hpadded]; exact hlt)
  obtain ⟨z, hz, hsize, hvalue, hsign⟩ := store_ok A
    (w := MontgomeryReduce (T ++ List.replicate (2 * self.size - T.length) 0)
      self.iModulus.words self.iModulusInv.words self.size) (by rw [hRlen, hA])
    (Or.inr (by rw [hRlen, hA]))
  rw [hpadded] at hR
  refine ⟨z, hz, hsize.trans hA, hsign.trans hpositive, ?_, ?_⟩
  · rw [hvalue]
    exact hRlt
  · rw [hvalue]
    exact hR

/-- A product of two numbers in the form is in the form when the radix is divided out once. -/
theorem InForm.of_product (h : self.Valid) {z : TInteger} (hsize : z.size = self.size)
    (hpositive : z.isNegative = false) (hlt : z.magnitude < self.iModulus.magnitude)
    (hA : self.InForm A m) (hB : self.InForm B n)
    (hz : z.magnitude * self.radix ≡ A.magnitude * B.magnitude [MOD self.iModulus.magnitude]) :
    self.InForm z (m * n) := by
  refine ⟨hsize, hpositive, hlt, ?_⟩
  apply ModEq.cancel_right_of_coprime h.coprime
  have hproduct := hz.trans (hA.form.mul hB.form)
  have hassoc : m * self.radix * (n * self.radix) = m * n * self.radix * self.radix := by ring
  rwa [hassoc] at hproduct

theorem product_lt (hA : A.magnitude < self.iModulus.magnitude)
    (hB : B.magnitude < self.iModulus.magnitude) :
    A.magnitude * B.magnitude < self.iModulus.magnitude * self.radix := by
  have hradix : B.magnitude < self.radix := hB.trans self.iModulus.magnitude_lt
  exact Nat.mul_lt_mul'' hA hradix

section

variable (h : self.Valid)
include h

theorem doMultiplyL_spec {R : TInteger} (hR : R.size = self.size)
    (hpositive : R.isNegative = false) (hA : self.InForm A m) (hB : self.InForm B n) :
    ∃ z, self.doMultiplyL R A B = .ok z ∧ self.InForm z (m * n) := by
  obtain ⟨i, hi⟩ := A.powerOfTwo
  obtain ⟨j, hj⟩ := B.powerOfTwo
  obtain ⟨hlength, hproduct⟩ :
      (AsymmetricMultiply false A.words B.words).length = A.size + B.size ∧
      value (AsymmetricMultiply false A.words B.words) = A.magnitude * B.magnitude :=
    AsymmetricMultiply_spec (fun h => absurd h (by decide)) hi hj
  obtain ⟨z, hz, hsize, hsign, hlt, hform⟩ := reduceWords_spec h hR hpositive
    (T := AsymmetricMultiply false A.words B.words)
    (by rw [hlength, hA.size, hB.size]; omega)
    (by rw [hproduct]; exact product_lt hA.lt hB.lt)
  rw [hproduct] at hform
  refine ⟨z, ?_, .of_product h hsize hsign hlt hA hB hform⟩
  unfold doMultiplyL
  rw [if_neg (not_not.mpr hR), if_pos ⟨hA.size.le, hB.size.le⟩]
  exact hz

theorem doSquareL_spec {R : TInteger} (hR : R.size = self.size) (hpositive : R.isNegative = false)
    (hsizeA : A.size ≤ self.size) (hA : A.magnitude < self.iModulus.magnitude) :
    ∃ z, self.doSquareL R A = .ok z ∧ z.size = self.size ∧ z.isNegative = false ∧
      z.magnitude < self.iModulus.magnitude ∧
      z.magnitude * self.radix ≡ A.magnitude * A.magnitude [MOD self.iModulus.magnitude] := by
  obtain ⟨i, hi⟩ := A.powerOfTwo
  obtain ⟨hlen, hvalue⟩ := RecursiveSquare_spec (N := A.size) hi rfl
  have hproduct : value (RecursiveSquare A.words A.size) = A.magnitude * A.magnitude := hvalue
  obtain ⟨z, hz, hspec⟩ := reduceWords_spec h hR hpositive
    (T := RecursiveSquare A.words A.size) (by rw [hlen]; omega)
    (by rw [hproduct]; exact product_lt hA hA)
  rw [hproduct] at hspec
  refine ⟨z, ?_, hspec⟩
  unfold doSquareL
  rw [if_neg (not_not.mpr hR), if_pos hsizeA]
  exact hz

theorem wordsToBits_toNat : (WordsToBits self.size).toNat = 32 * self.size := by
  have hfits := h.fits
  unfold WordsToBits WORD_BITS
  rw [UInt32.toNat_ofNat']
  omega

/-- **`ConvertInL`**, of a number that is not zero: the remainder is no larger than the modulus. -/
theorem convertInL_spec (hpositive : A.isNegative = false) (hne : A.magnitude ≠ 0) :
    ∃ z, self.convertInL A = .ok z ∧ z.size ≤ self.size ∧ z.isNegative = false ∧
      z.magnitude = A.magnitude * self.radix % self.iModulus.magnitude := by
  have hfits := h.fits
  have hbits := wordsToBits_toNat h
  obtain ⟨shifted, hshifted, hsign, hvalue⟩ :
      ∃ z, A.shiftLeft (WordsToBits self.size) = .ok z ∧ z.isNegative = A.isNegative ∧
        z.magnitude = A.magnitude * 2 ^ (WordsToBits self.size).toNat :=
    shiftLeft_spec (.inl (by rw [hbits]; omega))
  have hradix : 2 ^ (32 * self.size) = self.radix := pow_mul 2 32 self.size
  rw [hbits, hradix] at hvalue
  obtain ⟨r, q, hdivide, hspec⟩ := positiveDivideL_spec (a := shifted) (b := self.iModulus)
    h.modulus_pos.ne'
  have hboth := divideL_eq hdivide (if_neg (by rw [hsign, hpositive]; decide))
  refine ⟨r, ?_, ?_, hspec.remainderPositive, ?_⟩
  · unfold convertInL moduloL
    rw [hshifted, ok_bind, hboth]
    rfl
  · have hlarge : self.iModulus.magnitude ≤ shifted.magnitude := by
      rw [hvalue]
      exact self.iModulus.magnitude_lt.le.trans
        (Nat.le_mul_of_pos_left self.radix (Nat.pos_of_ne_zero hne))
    rcases hspec.sizes with ⟨hsmall, -⟩ | ⟨-, hsize, -⟩
    · omega
    · exact hsize
  · rw [hspec.remainder, hvalue]

theorem convertOutL_spec (hA : self.InForm A n) :
    ∃ z, self.convertOutL A = .ok z ∧ z.size = self.size ∧ z.isNegative = false ∧
      z.magnitude = n % self.iModulus.magnitude := by
  have hlen : A.words.length = self.size := hA.size
  have hradix : 1 ≤ self.radix := one_le_pow _ _ (by decide)
  have hless : value A.words < self.iModulus.magnitude * self.radix :=
    (show A.magnitude < _ from hA.lt).trans_le (Nat.le_mul_of_pos_right _ hradix)
  obtain ⟨z, hz, hsize, hsign, hlt, hform⟩ := reduceWords_spec h hA.size hA.positive
    (T := A.words) (by rw [hlen]; omega) hless
  refine ⟨z, ?_, hsize, hsign, ?_⟩
  · unfold convertOutL
    rw [if_pos hA.size.le]
    exact hz
  · have hsame : z.magnitude ≡ n [MOD self.iModulus.magnitude] :=
      ModEq.cancel_right_of_coprime h.coprime (hform.trans hA.form)
    rw [← hsame, mod_eq_of_lt hlt]

/-- A number that has been converted in, in a cell that is as large as the modulus. -/
theorem inForm_of_converted {z : TInteger} (hsize : z.size = self.size)
    (hpositive : z.isNegative = false)
    (hz : z.magnitude = n * self.radix % self.iModulus.magnitude) : self.InForm z n := by
  refine ⟨hsize, hpositive, ?_, ?_⟩
  · rw [hz]
    exact mod_lt _ h.modulus_pos
  · rw [hz]
    exact mod_modEq _ _

end

/-! ### Exponentiation -/

theorem nextPowerL_spec (h : self.Valid) {g2 last : TInteger} {b : Nat}
    (hg2 : self.InForm g2 (b ^ 2)) (hlast : self.InForm last (b ^ n)) :
    ∃ power, self.nextPowerL g2 last = .ok power ∧ self.InForm power (b ^ (n + 2)) := by
  have hfits := h.fits
  have hcell : (cleanNewL self.size).size = self.size := by
    rw [size_cleanNewL]
    exact RoundupSize_size self.iModulus
  have hsmall : RoundupSize self.size = self.size := RoundupSize_size self.iModulus
  obtain ⟨power, hpower, hform⟩ := doMultiplyL_spec h hcell rfl hg2 hlast
  refine ⟨power, ?_, ?_⟩
  · unfold nextPowerL
    rw [newEmptyL_ok (by rw [hsmall]; omega), ok_bind]
    exact hpower
  · rwa [← pow_add, Nat.add_comm] at hform

/-- What is done to the powers in the loop. -/
theorem multiplyElementL_powersTo (h : self.Valid) {powerArray : List TInteger} {count b : Nat}
    (hodd : OddPowers (fun power n => self.InForm power (b ^ n)) count powerArray) :
    PowersTo (fun A => self.doSquareL A A) (self.multiplyElementL powerArray) count
      fun A n => self.InForm A (b ^ n) := by
  constructor
  · intro A n hA
    obtain ⟨z, hz, hsize, hsign, hlt, hform⟩ :=
      doSquareL_spec h hA.size hA.positive hA.size.le hA.lt
    refine ⟨z, hz, ?_⟩
    rw [pow_add]
    exact .of_product h hsize hsign hlt hA hA hform
  · intro A n k hk hA
    obtain ⟨power, hpower, hvalue⟩ := hodd.element hk
    obtain ⟨z, hz, hform⟩ := doMultiplyL_spec h hA.size hA.positive hA hvalue
    refine ⟨z, ?_, ?_⟩
    · unfold multiplyElementL
      rw [hpower, ok_bind]
      exact hz
    · rwa [← pow_add] at hform

theorem isPositive_iff (x : TInteger) :
    x.isPositive = true ↔ x.isNegative = false ∧ x.magnitude ≠ 0 := by
  unfold isPositive
  rw [Bool.and_eq_true, Bool.not_eq_true', Bool.not_eq_true', Bool.eq_false_iff (b := x.isZero),
    ne_eq, isZero_iff]
  constructor
  · rintro ⟨hsign, hzero⟩
    exact ⟨hsign, fun hc => hzero ⟨hsign, hc⟩⟩
  · rintro ⟨hsign, hne⟩
    exact ⟨hsign, fun hc => hne hc.2⟩

/-- **`ExponentiateL`** returns the power with the bits that are taken of the exponent, reduced. -/
theorem exponentiateL_spec (h : self.Valid) (hmodulus : self.iModulus.isNegative = false)
    {b e : TInteger} (hb : b.isNegative = false) (hbpos : b.magnitude ≠ 0)
    (hblt : b.magnitude < self.iModulus.magnitude) (he : e.isNegative = false)
    (hepos : e.magnitude ≠ 0) :
    ∃ next, self.exponentiateL b e = .ok next ∧ next.Valid ∧ next.iModulus = self.iModulus ∧
      next.iResult.IsInt ((b.magnitude ^ taken e.magnitude % self.iModulus.magnitude : Nat)) := by
  have hcompare : ¬b.signedCompare self.iModulus ≥ 0 := by
    rw [signedCompare_ge hb hmodulus]
    omega
  have hbpositive := (isPositive_iff b).mpr ⟨hb, hbpos⟩
  have hepositive := (isPositive_iff e).mpr ⟨he, hepos⟩
  have hchecked : ¬(self.iResult.size ≠ self.size ∨ b.signedCompare self.iModulus ≥ 0 ∨
      !b.isPositive ∨ !e.isPositive) := by
    rw [hbpositive, hepositive]
    simp only [Bool.not_true, Bool.false_eq_true, or_false]
    rintro (hsize | hge)
    · exact hsize h.resultSize
    · exact hcompare hge
  have hround : RoundupSize self.size = self.size := RoundupSize_size self.iModulus
  -- the base, and its square
  obtain ⟨g, hg, hgsize, hgsign, hgvalue⟩ := convertInL_spec h hb hbpos
  have hgrown : self.InForm (g.cleanGrowL self.size) (b.magnitude ^ 1) := by
    refine inForm_of_converted h ?_ ?_ ?_
    · rw [size_cleanGrowL, hround]
      omega
    · unfold isNegative
      rw [sign_cleanGrowL]
      exact hgsign
    · rw [magnitude_cleanGrowL, pow_one, hgvalue]
  obtain ⟨g2, hg2, hg2size, hg2sign, hg2lt, hg2form⟩ :=
    doSquareL_spec h hgrown.size hgrown.positive hgrown.size.le hgrown.lt
  have hsquare : self.InForm g2 (b.magnitude ^ 2) := by
    have hproduct := InForm.of_product h hg2size hg2sign hg2lt hgrown hgrown hg2form
    rwa [← pow_add] at hproduct
  obtain ⟨powers, hpowers, hodd⟩ := powerTable_spec
    (fun power n => self.InForm power (b.magnitude ^ n))
    (fun last n hlast => nextPowerL_spec h hsquare hlast) (ofExponent e).iSize hgrown
  -- one
  obtain ⟨temp, htemp, htsize, htsign, htvalue⟩ := convertInL_spec h (A := one) rfl
    (by rw [magnitude_one]; decide)
  obtain ⟨A, hA, hAsize, hAvalue, hAsign⟩ := copyL_grow self.iResult temp
  have hone : self.InForm A (b.magnitude ^ 0) := by
    refine inForm_of_converted h ?_ ?_ ?_
    · rw [hAsize, h.resultSize]
      omega
    · unfold isNegative
      rw [hAsign]
      exact htsign
    · rw [hAvalue, htvalue, magnitude_one, pow_zero]
  obtain ⟨z, hz, hform⟩ := slide_spec (ofExponent e)
    (multiplyElementL_powersTo h hodd) (scannedBits_le e.bitCount) hone
  obtain ⟨result, hresult, hsize, hsign, hvalue⟩ := convertOutL_spec h hform
  have htaken : (ofExponent e).iExp.magnitude % 2 ^ scannedBits e.bitCount =
      taken e.magnitude := by
    rw [bitCount_eq]
    rfl
  rw [htaken] at hvalue
  refine ⟨{ self with iResult := result }, ?_,
    ⟨h.odd, h.inverse, hsize, hsign, h.fits⟩, rfl, .of_positive hsign (congrArg Nat.cast hvalue)⟩
  unfold exponentiateL
  rw [if_neg hchecked, newL_eq, ok_bind, hg, ok_bind]
  simp only
  rw [newL_eq, ok_bind, hg2, ok_bind, hpowers, ok_bind, newL_eq,
    ok_bind, htemp, ok_bind, hA, ok_bind, slide_start, hz, ok_bind, hresult]
  rfl

end

end CMontgomeryStructure

/-- `TInteger::ModularExponentiateL` -/
def TInteger.modularExponentiateL (aBase aExp aMod : TInteger) : Leaving TInteger := do
  let mont ← CMontgomeryStructure.newL aMod
  let mont ← mont.exponentiateL aBase aExp
  newL mont.iResult

/-! ### The power that is returned -/

section

variable {b e M : TInteger}

/-- All the bits of the exponent are taken, or those that are give the same residue. -/
def ResidueFits (b e M : Nat) : Prop := e < 2 ^ (2 ^ 31) ∨ b ^ taken e ≡ b ^ e [MOD M]

theorem residue_iff (b e M : Nat) : b ^ taken e % M = b ^ e % M ↔ ResidueFits b e M := by
  unfold ResidueFits
  constructor
  · intro h
    exact .inr h
  · rintro (hlt | h)
    · rw [(taken_eq_iff e).mpr hlt]
    · exact h

theorem positive_magnitude {x : TInteger} (h : 0 < x.toInt) :
    x.isNegative = false ∧ x.magnitude ≠ 0 ∧ x.toInt = x.magnitude := by
  rcases toInt_cases x with ⟨hsign, hvalue⟩ | ⟨hsign, hvalue⟩
  · exact ⟨hsign, by omega, hvalue⟩
  · omega

theorem residue_cast (b e M : Nat) :
    (b : Int) ^ ((e : Int).toNat) % (M : Int) = ((b ^ e % M : Nat) : Int) := by
  rw [Int.toNat_natCast]
  push_cast
  rfl

theorem CMontgomeryStructure.exponentiateL_isInt_iff {mont : CMontgomeryStructure}
    (hmont : mont.Valid) (hb : 0 < b.toInt) (hlt : b.toInt < mont.iModulus.toInt)
    (he : 0 < e.toInt) :
    (∃ next, mont.exponentiateL b e = .ok next ∧
        next.iResult.IsInt (b.toInt ^ e.toInt.toNat % mont.iModulus.toInt)) ↔
      ResidueFits b.magnitude e.magnitude mont.iModulus.magnitude := by
  obtain ⟨hbsign, hbne, hbvalue⟩ := positive_magnitude hb
  obtain ⟨hesign, hene, hevalue⟩ := positive_magnitude he
  obtain ⟨hMsign, -, hMvalue⟩ := positive_magnitude (hb.trans hlt)
  obtain ⟨next, hnext, -, -, hint⟩ := mont.exponentiateL_spec hmont hMsign hbsign hbne
    (by omega) hesign hene
  rw [hbvalue, hevalue, hMvalue, residue_cast, ← residue_iff]
  constructor
  · rintro ⟨other, hother, hvalue⟩
    obtain rfl := Except.ok.inj (hnext.symm.trans hother)
    have hsame := hint.toInt.symm.trans hvalue.toInt
    exact_mod_cast hsame
  · intro hsame
    rw [hsame] at hint
    exact ⟨next, hnext, hint⟩

/-- **`CMontgomeryStructure::ExponentiateL` and `TInteger::ModularExponentiateL` are right exactly
where the bits that are taken of the exponent give the residue**, and a structure can be
constructed of the modulus. -/
theorem modularExponentiateL_iff (hodd : M.toInt % 2 = 1) (hb : 0 < b.toInt)
    (hlt : b.toInt < M.toInt) (he : 0 < e.toInt) :
    (∀ mont : CMontgomeryStructure, mont.Valid → mont.iModulus = M →
      ((∃ next, mont.exponentiateL b e = .ok next ∧
          next.iResult.IsInt (b.toInt ^ e.toInt.toNat % M.toInt)) ↔
        ResidueFits b.magnitude e.magnitude M.magnitude)) ∧
      (Makes (modularExponentiateL b e M) (b.toInt ^ e.toInt.toNat % M.toInt) ↔
        M.size ≤ 2 ^ 24 ∧ ResidueFits b.magnitude e.magnitude M.magnitude) := by
  obtain ⟨-, -, hMvalue⟩ := positive_magnitude (hb.trans hlt)
  have hmagnitude : M.magnitude % 2 = 1 := by omega
  have hall : ∀ mont : CMontgomeryStructure, mont.Valid → mont.iModulus = M →
      ((∃ next, mont.exponentiateL b e = .ok next ∧
          next.iResult.IsInt (b.toInt ^ e.toInt.toNat % M.toInt)) ↔
        ResidueFits b.magnitude e.magnitude M.magnitude) := by
    intro mont hmont hM
    subst hM
    exact mont.exponentiateL_isInt_iff hmont hb hlt he
  refine ⟨hall, ?_⟩
  constructor
  · rintro ⟨z, hz, hint⟩
    unfold modularExponentiateL at hz
    obtain ⟨mont, hmont, hz⟩ := bind_eq_ok.mp hz
    obtain ⟨next, hnext, hz⟩ := bind_eq_ok.mp hz
    obtain rfl := Except.ok.inj ((newL_eq next.iResult).symm.trans hz)
    obtain ⟨hvalid, hM⟩ := CMontgomeryStructure.newL_valid hmont
    refine ⟨?_, (hall mont hvalid hM).mp ⟨next, hnext, hint⟩⟩
    rw [← hM]
    exact hvalid.fits
  · rintro ⟨hsize, hfits⟩
    obtain ⟨mont, hmont⟩ := CMontgomeryStructure.newL_ok hmagnitude hsize
    obtain ⟨hvalid, hM⟩ := CMontgomeryStructure.newL_valid hmont
    obtain ⟨next, hnext, hint⟩ := (hall mont hvalid hM).mpr hfits
    refine ⟨next.iResult, ?_, hint⟩
    unfold modularExponentiateL
    rw [hmont, ok_bind, hnext, ok_bind, newL_eq]

end

/-- 3 to the 5th modulo 7. -/
theorem modularExponentiateL_iff_seven :
    (∀ mont : CMontgomeryStructure, mont.Valid → mont.iModulus = ofWord 7 →
      ((∃ next, mont.exponentiateL (ofWord 3) (ofWord 5) = .ok next ∧
          next.iResult.IsInt
            ((ofWord 3).toInt ^ (ofWord 5).toInt.toNat % (ofWord 7).toInt)) ↔
        ResidueFits (ofWord 3).magnitude (ofWord 5).magnitude (ofWord 7).magnitude)) ∧
      (Makes (modularExponentiateL (ofWord 3) (ofWord 5) (ofWord 7))
          ((ofWord 3).toInt ^ (ofWord 5).toInt.toNat % (ofWord 7).toInt) ↔
        (ofWord 7).size ≤ 2 ^ 24 ∧
          ResidueFits (ofWord 3).magnitude (ofWord 5).magnitude (ofWord 7).magnitude) :=
  modularExponentiateL_iff (b := ofWord 3) (e := ofWord 5) (M := ofWord 7) (by decide) (by decide)
    (by decide) (by decide)

theorem not_residueFits_tooLong : ¬ResidueFits 3 tooLong.magnitude 9 := by
  rintro (hlt | hsame)
  · rw [magnitude_tooLong] at hlt
    exact absurd hlt (Nat.lt_irrefl _)
  · have hnine : 3 ^ 2 ∣ 3 ^ tooLong.magnitude := by
      apply pow_dvd_pow
      rw [magnitude_tooLong]
      exact (Nat.lt_two_pow_self (n := 2 ^ 31)).le.trans' (by norm_num)
    rw [taken_tooLong, pow_zero] at hsame
    have hzero : 3 ^ tooLong.magnitude ≡ 0 [MOD 9] := (modEq_zero_iff_dvd).mpr hnine
    exact absurd (hsame.trans hzero) (by decide)

/-- 3 to the power 2 ^ 2 ^ 31 is not 1 modulo 9. -/
theorem not_modularExponentiateL_tooLong :
    ¬Makes (modularExponentiateL (ofWord 3) tooLong (ofWord 9))
      ((ofWord 3).toInt ^ tooLong.toInt.toNat % (ofWord 9).toInt) := by
  rintro ⟨z, hz, hint⟩
  unfold modularExponentiateL at hz
  obtain ⟨mont, hmont, hz⟩ := bind_eq_ok.mp hz
  obtain ⟨next, hnext, hz⟩ := bind_eq_ok.mp hz
  obtain rfl := Except.ok.inj ((newL_eq next.iResult).symm.trans hz)
  obtain ⟨hvalid, hM⟩ := CMontgomeryStructure.newL_valid hmont
  have hpos : 0 < tooLong.toInt := by
    rw [toInt_of_positive (show tooLong.isNegative = false from rfl), magnitude_tooLong]
    exact_mod_cast Nat.two_pow_pos _
  have hfits := (CMontgomeryStructure.exponentiateL_isInt_iff (b := ofWord 3) (e := tooLong) hvalid
    (by decide) (by rw [hM]; decide) hpos).mp ⟨next, hnext, by rw [hM]; exact hint⟩
  rw [hM, magnitude_ofWord, magnitude_ofWord] at hfits
  exact not_residueFits_tooLong hfits

end OsSecurity

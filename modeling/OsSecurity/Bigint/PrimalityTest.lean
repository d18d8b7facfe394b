/-
`TInteger::IsPrimeL`: the second part of `primes.cpp`.

Small numbers are looked up, or divided by all of the table.  Of the others those that the table
leaves are tested to the base two, and then to bases that are drawn at random.

The generator is not modelled: what it writes in each of its calls is any sequence of octets.  The
fuel bounds two loops, that for the twos in `n - 1` and that which draws until a base is in range.
-/
import OsSecurity.Bigint.MontgomeryStructure
import OsSecurity.Library.StrongProbablePrime
import OsSecurity.Library.WhileLoop

namespace OsSecurity

open Nat TInteger WhileLoop

variable {mont : CMontgomeryStructure}

def RabinMillerRounds (aBits : UInt32) : Nat :=
  if aBits > 1300 then 2
  else if aBits > 850 then 3
  else if aBits > 650 then 4
  else if aBits > 550 then 5
  else if aBits > 450 then 6
  else if aBits > 400 then 7
  else if aBits > 350 then 8
  else if aBits > 300 then 9
  else if aBits > 250 then 12
  else if aBits > 200 then 15
  else if aBits > 150 then 18
  else if aBits > 100 then 27
  else 40

/-- The position of the first bit that is set. -/
def firstBit (fuel : Nat) (nminus1 : TInteger) : Looping Exit UInt32 :=
  whileDo (fun s => !nminus1.bit s.toNat) (fun s => pure (s + 1)) fuel 0

/-- The loop over `j`, which squares `y` so many times at most. -/
def squaresTo (nminus1 : TInteger) : Nat → CMontgomeryStructure →
    Leaving (CMontgomeryStructure × Bool)
  | 0, aMont => .ok (aMont, false)
  | turns + 1, aMont => do
    let aMont ← aMont.squareL aMont.iResult
    if aMont.iResult.signedCompare nminus1 = 0 then return (aMont, true)
    else squaresTo nminus1 turns aMont

/-- `RabinMillerIterationL`.  What `y` points to is the result of the structure. -/
def rabinMillerIterationL (fuel : Nat) (aMont : CMontgomeryStructure)
    (aProbablePrime aBase : TInteger) : Looping Exit (CMontgomeryStructure × Bool) := do
  let nminus1 ← ended (aProbablePrime.minusL one)
  let s ← firstBit fuel nminus1
  let r ← ended (TInteger.newL nminus1)
  let r ← ended (r.shiftRight s)
  let aMont ← ended (aMont.exponentiateL aBase r)
  if aMont.iResult.signedCompare one = 0 ∨ aMont.iResult.signedCompare nminus1 = 0 then
    return (aMont, true)
  else ended (squaresTo nminus1 (s.toNat - 1) aMont)

/-- An integer is drawn, by the next call of the generator. -/
def drawL (random : Nat → Nat → UInt8) (bits : UInt32) (p : TInteger × Nat) :
    Looping Exit (TInteger × Nat) := do
  let self ← ended (p.1.randomizeL bits .EAllBitsRandom (random p.2))
  return (self, p.2 + 1)

/-- `RandomizeL(const TInteger&, const TInteger&)`, of a cell and the number of calls so far. -/
def randomizeBetweenL (fuel : Nat) (random : Nat → Nat → UInt8) (p : TInteger × Nat)
    (aMin aMax : TInteger) : Looping Exit (TInteger × Nat) := do
  let range ← ended (aMax.minusL aMin)
  let first ← drawL random range.bitCount p
  let last ← whileDo (fun p => p.1.signedCompare range > 0) (drawL random range.bitCount) fuel
    first
  let self ← ended (last.1.plusL aMin)
  return (self, last.2)

/-- `RInteger::NewRandomL(const TInteger&, const TInteger&)` -/
def newRandomL (fuel : Nat) (random : Nat → Nat → UInt8) (calls : Nat) (aMin aMax : TInteger) :
    Looping Exit (TInteger × Nat) :=
  randomizeBetweenL fuel random (cleanNewL aMax.size, calls) aMin aMax

/-- The rounds of `RabinMillerTestL`. -/
def rabinMillerRoundsL (fuel : Nat) (random : Nat → Nat → UInt8)
    (aProbablePrime nminus2 : TInteger) : Nat → CMontgomeryStructure → Nat → Looping Exit Bool
  | 0, _, _ => pure true
  | rounds + 1, aMont, calls => do
    let (base, calls) ← newRandomL fuel random calls two nminus2
    let (aMont, probablePrime) ← rabinMillerIterationL fuel aMont aProbablePrime base
    if probablePrime then rabinMillerRoundsL fuel random aProbablePrime nminus2 rounds aMont calls
    else return false

def rabinMillerTestL (fuel : Nat) (random : Nat → Nat → UInt8) (aMont : CMontgomeryStructure)
    (aProbablePrime : TInteger) (aRounds : Nat) : Looping Exit Bool := do
  let nminus2 ← ended (aProbablePrime.minusL two)
  rabinMillerRoundsL fuel random aProbablePrime nminus2 aRounds aMont 0

def isStrongProbablePrimeL (fuel : Nat) (random : Nat → Nat → UInt8) (aPrime : TInteger) :
    Looping Exit Bool := do
  let mont ← ended (CMontgomeryStructure.newL aPrime)
  let (mont, probablePrime) ← rabinMillerIterationL fuel mont aPrime two
  if probablePrime then
    rabinMillerTestL fuel random mont aPrime (RabinMillerRounds aPrime.bitCount)
  else return false

def TInteger.isPrimeL (fuel : Nat) (random : Nat → Nat → UInt8) (self : TInteger) :
    Looping Exit Bool :=
  if !self.isPositive then return false
  else if self.isEven then return decide (self.signedCompare two = 0)
  else if self.signedCompareInt KLastSmallPrime ≤ 0 then
    return IsSmallPrime self.convertToUnsignedLong
  else if self.signedCompareInt KLastSmallPrimeSquared ≤ 0 then return !self.hasSmallDivisorL
  else if self.hasSmallDivisorL then return false
  else isStrongProbablePrimeL fuel random self

section

variable {n : TInteger} {fuel : Nat} {random : Nat → Nat → UInt8}

/-! ### The loop for the twos -/

/-- A prime that the structure can be constructed of, and that is not small. -/
structure LargePrime (n : TInteger) : Prop where
  positive : n.isNegative = false
  prime : n.magnitude.Prime
  large : KLastSmallPrimeSquared < n.magnitude
  fits : n.size ≤ 2 ^ 24

theorem magnitude_lt_bits (n : TInteger) : n.magnitude < 2 ^ (32 * n.size) := by
  rw [pow_mul]
  exact n.magnitude_lt

/-- Every bit of the exponents is taken. -/
theorem LargePrime.taken (h : LargePrime n) {e : Nat} (he : e ≤ n.magnitude) : taken e = e := by
  rw [taken_eq_iff]
  have hfits := h.fits
  exact (he.trans_lt (magnitude_lt_bits n)).trans_le (Nat.pow_le_pow_right (by decide) (by omega))

end

end OsSecurity

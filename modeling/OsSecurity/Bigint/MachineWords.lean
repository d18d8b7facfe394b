/-
The overloads of `TInteger` that take a machine word.

Those of a `TInt` make a `TStackInteger64` of it, the constructor of which takes a `TUint`, so
that a number below zero turns into 2^32 more.  `ModuloL` of a `TUint` takes the remainder of the
magnitude.  `DividedByL` of a `TUint` is a loop of its own over the words, and it is right.
-/
import OsSecurity.Bigint.SmallPrimes

namespace OsSecurity

open Nat UInt32

namespace TInteger

/-- `TStackInteger64(TUint)` of a `TInt` -/
def stackInteger (aInteger : Int) : TInteger := ofWord (ofInt aInteger)

/-- `RInteger::NewL(TInt)` -/
def newIntL (aInteger : Int) : TInteger := (cleanNewL 2).constructInt aInteger

/-- The words of the quotient and the remainder, from the most significant word on. -/
def divideWords (aDivisor : UInt32) : Words → Words × UInt32
  | [] => ([], 0)
  | w :: rest =>
    let (quotient, remainder) := divideWords aDivisor rest
    let dividend := w.toNat + 2 ^ 32 * remainder.toNat
    (ofNat (dividend / aDivisor.toNat) :: quotient,
      ofNat (dividend % aDivisor.toNat))

/-- `PositiveDivide(TUint&, TInteger&, const TInteger&, TUint)` -/
def positiveDivideWord (aQuotient aDividend : TInteger) (aDivisor : UInt32) :
    Leaving (UInt32 × TInteger) := do
  let divided := divideWords aDivisor (aDividend.words.take aDividend.wordCount)
  let aQuotient ← aQuotient.store divided.1
  return (divided.2, aQuotient)

/-- `DivideL(TUint&, RInteger&, const TInteger&, TUint)`.  The remainder of a dividend below zero
is not made positive: it is assigned to the divisor and back. -/
def divideWordL (aDividend : TInteger) (aDivisor : UInt32) : Leaving (UInt32 × TInteger) :=
  if aDivisor = 0 then leave KErrDivideByZero
  else do
    let (aRemainder, aQuotient) ← positiveDivideWord
      (cleanNewL (RoundupSize aDividend.wordCount)) aDividend aDivisor
    if !aDividend.isNegative then return (aRemainder, aQuotient.setSign .EPositive)
    else if aRemainder ≠ 0 then do
      let aQuotient ← (aQuotient.setSign .ENegative).decrement
      return (aRemainder, aQuotient)
    else return (aRemainder, aQuotient.setSign .ENegative)

/-- `DividedByL(TUint)` -/
def dividedByWordL (self : TInteger) (aOperand : UInt32) : Leaving TInteger := do
  let (_, quotient) ← divideWordL self aOperand
  return quotient

/-- `ModuloL(TUint)` -/
def moduloWordL (self : TInteger) (aOperand : UInt32) : Leaving Nat :=
  if aOperand = 0 then leave KErrDivideByZero else .ok (self.modulo aOperand.toNat)

inductive Overload where
  | addAssign (aOperand : Int32)
  | subtractAssign (aOperand : Int32)
  | multiplyAssign (aOperand : Int32)
  | divideAssign (aOperand : Int32)
  | moduloAssign (aOperand : Int32)
  | signedCompare (aInteger : Int32)
  | dividedByL (aOperand : UInt32)
  | moduloL (aOperand : UInt32)

/-- The number that an operation makes. -/
def number (result : Leaving TInteger) : Leaving Int := do return (← result).toInt

namespace Overload

/-- What the overload makes of the word. -/
def onWord (x : TInteger) : Overload → Leaving Int
  | .addAssign n => number (x.plusL (stackInteger n.toInt))
  | .subtractAssign n => number (x.minusL (stackInteger n.toInt))
  | .multiplyAssign n => number (x.timesL (.other (stackInteger n.toInt)))
  | .divideAssign n => number (x.dividedByL (stackInteger n.toInt))
  | .moduloAssign n => number (x.moduloL (stackInteger n.toInt))
  | .signedCompare n => .ok (x.signedCompareInt n.toInt)
  | .dividedByL d => number (x.dividedByWordL d)
  | .moduloL d => do return (← x.moduloWordL d : Nat)

/-- What the same function makes of the integer that has the value of the word. -/
def onInteger (x : TInteger) : Overload → Leaving Int
  | .addAssign n => number (x.plusL (newIntL n.toInt))
  | .subtractAssign n => number (x.minusL (newIntL n.toInt))
  | .multiplyAssign n => number (x.timesL (.other (newIntL n.toInt)))
  | .divideAssign n => number (x.dividedByL (newIntL n.toInt))
  | .moduloAssign n => number (x.moduloL (newIntL n.toInt))
  | .signedCompare n => .ok (x.signedCompare (newIntL n.toInt))
  | .dividedByL d => number (x.dividedByL (ofWord d))
  | .moduloL d => number (x.moduloL (ofWord d))

end Overload

/-- The two give the same number, or leave with the same code, where the second gives any. -/
def Agrees (r s : Leaving Int) : Prop := s ≠ .error .undefined → r = s

/-- The division of `x` by a number in two words reads past them. -/
def ReadsPast (x : TInteger) (divisor : Int) : Prop :=
  x.toInt < 0 ∧ |x.toInt| < |divisor| ∧ 2 < x.size

instance (x : TInteger) (divisor : Int) : Decidable (ReadsPast x divisor) :=
  inferInstanceAs (Decidable (_ ∧ _))

/-- The condition for it. -/
def Overload.AgreesWhen (x : TInteger) : Overload → Prop
  | .addAssign n | .subtractAssign n => 0 ≤ n.toInt
  | .multiplyAssign n => 0 ≤ n.toInt ∨ x.toInt = 0
  | .divideAssign n =>
    0 ≤ n.toInt ∨ ReadsPast x n.toInt ∨ 0 ≤ x.toInt ∧ x.toInt < -n.toInt
  | .moduloAssign n =>
    0 ≤ n.toInt ∨ ReadsPast x n.toInt ∨ ¬ReadsPast x (n.toInt + 2 ^ 32) ∧
      x.toInt % Int.lcm n.toInt (n.toInt + 2 ^ 32) < -n.toInt
  | .signedCompare n => 0 ≤ n.toInt ∨ x.toInt < n.toInt ∨ n.toInt + 2 ^ 32 < x.toInt
  | .dividedByL _ => True
  | .moduloL d =>
    d = 0 ∨ 0 ≤ x.toInt ∨ ReadsPast x d.toNat ∨ (d.toNat : Int) ∣ x.toInt ∨
      2 * (x.toInt % d.toNat) = d.toNat

section

variable {x : TInteger} {n : Int} {d : UInt32}

/-! ### The operands -/

theorem toInt_stackInteger (hlo : -2 ^ 31 ≤ n) (hhi : n < 2 ^ 31) :
    (stackInteger n).toInt = if 0 ≤ n then n else n + 2 ^ 32 := by
  have hword : (ofInt n).toNat = (n % 2 ^ 32).toNat := by
    show (ofNat (n % 2 ^ 32).toNat).toNat = _
    rw [toNat_ofNat']
    omega
  unfold stackInteger
  rw [toInt_ofWord, hword]
  by_cases hpos : 0 ≤ n
  · rw [if_pos hpos]
    omega
  · rw [if_neg hpos]
    omega

theorem toInt_newIntL (hlo : -2 ^ 31 ≤ n) (hhi : n < 2 ^ 31) :
    (newIntL n).toInt = n ∧ (newIntL n).WellSigned := by
  have hmagnitude : (newIntL n).magnitude = n.natAbs := by
    show value (ofNat n.natAbs :: List.replicate _ 0) = _
    rw [value_cons, value_zeros, toNat_ofNat']
    omega
  have hsign : (newIntL n).isNegative = decide (n < 0) := by
    show decide ((if n < 0 then TSign.ENegative else TSign.EPositive) = .ENegative) = _
    by_cases hneg : n < 0
    · simp [hneg]
    · simp [hneg]
  constructor
  · unfold toInt
    rw [hmagnitude, hsign]
    by_cases hneg : n < 0
    · rw [if_pos (decide_eq_true hneg)]
      omega
    · rw [if_neg (by simpa using hneg)]
      omega
  · intro hneg
    rw [hsign, decide_eq_true_eq] at hneg
    rw [hmagnitude]
    omega

/-- A number that is not below zero has the same words either way. -/
theorem newIntL_eq (hpos : 0 ≤ n) (hhi : n < 2 ^ 31) : newIntL n = stackInteger n := by
  have hword : ofNat n.natAbs = ofInt n := by
    show _ = ofNat (n % 2 ^ 32).toNat
    congr 1
    omega
  have hsign : (if n < 0 then TSign.ENegative else .EPositive) = .EPositive :=
    if_neg (Int.not_lt.mpr hpos)
  unfold newIntL stackInteger constructInt
  simp only [hword, hsign]
  rfl

/-! ### Division by two words -/

variable {b : TInteger}

theorem number_ok {result : Leaving TInteger} {z : TInteger} (h : result = .ok z) :
    number result = .ok z.toInt := by
  rw [h]
  rfl

theorem Makes.number {result : Leaving TInteger} (h : Makes result n) : number result = .ok n := by
  obtain ⟨z, hz, hint⟩ := h
  rw [number_ok hz, hint.toInt]

/-- The quotient and the remainder are those of Euclid, unless the words of the divisor are read
past their end. -/
theorem divideL_cases (hsize : b.size = 2) (hne : b.toInt ≠ 0) :
    (ReadsPast x b.toInt ∧ divideL x b = .error .undefined) ∨
      ¬ReadsPast x b.toInt ∧ ∃ r q, divideL x b = .ok (r, q) ∧ q.toInt = x.toInt / b.toInt ∧
        r.toInt = x.toInt % b.toInt := by
  have hbm := magnitude_ne_zero hne
  have habs : ∀ z : TInteger, |z.toInt| = z.magnitude := fun z => by
    rw [Int.abs_eq_natAbs, toInt_natAbs]
  by_cases hpast : ReadsPast x b.toInt
  · left
    obtain ⟨hneg, hless, hlong⟩ := hpast
    refine ⟨⟨hneg, hless, hlong⟩, ?_⟩
    rw [habs, habs] at hless
    have hsmall : x.magnitude < b.magnitude := by exact_mod_cast hless
    have hsign : x.isNegative = true := by
      rcases toInt_cases x with ⟨-, hvalue⟩ | ⟨hsign, -⟩
      · omega
      · exact hsign
    obtain ⟨r, q, hpositive, hspec⟩ := positiveDivideL_small hsmall
    have hrsize : r.size = x.size := by
      rcases hspec.sizes with ⟨-, hrsize, -⟩ | ⟨hle, -, -⟩
      · exact hrsize
      · exact absurd hsmall (Nat.not_lt.mpr hle)
    have hrest : r.magnitude ≠ 0 := by
      have hxm := toInt_natAbs x
      rw [hspec.remainder, mod_eq_of_lt hsmall]
      omega
    have hundefined := (divideNegativeL_remainder hspec hbm hrest).2 (by
      rw [hsize, hrsize]
      exact hlong)
    unfold divideL
    rw [hpositive, ok_bind]
    simp only
    rw [if_pos hsign, hundefined]
    rfl
  · right
    have hfits : RemainderFits x b := by
      intro hneg hless
      have hshort : x.size ≤ 2 := by
        by_contra hlong
        exact hpast ⟨hneg, hless, Nat.not_le.mp hlong⟩
      have htwo := two_le_size x
      have hsame : x.size = 2 := by omega
      refine ⟨by omega, ?_⟩
      have hlt := b.magnitude_lt
      rw [hsize] at hlt
      rw [habs, habs, hsame]
      have hcast : (b.magnitude : Int) < (2 ^ 32) ^ 2 := by exact_mod_cast hlt
      omega
    obtain ⟨r, q, hok, -, -, hsum, hnonneg, hlt⟩ := (dividesEuclidean_iff hne).mpr hfits
    refine ⟨hpast, r, q, hok, ?_⟩
    have hunique : x.toInt / b.toInt = q.toInt ∧ x.toInt % b.toInt = r.toInt := by
      rcases Int.lt_or_gt_of_ne hne with hb | hb
      · rw [Int.ediv_emod_unique' hb]
        rw [abs_of_neg hb] at hlt
        refine ⟨?_, hnonneg, hlt⟩
        rw [hsum, Int.mul_comm, Int.add_comm]
      · rw [Int.ediv_emod_unique hb]
        rw [abs_of_pos hb] at hlt
        refine ⟨?_, hnonneg, hlt⟩
        rw [hsum, Int.mul_comm, Int.add_comm]
    exact ⟨hunique.1.symm, hunique.2.symm⟩

/-- What an operand of two words makes of a division. -/
def quotientOf (x : TInteger) (divisor : Int) : Leaving Int :=
  if ReadsPast x divisor then .error .undefined else .ok (x.toInt / divisor)

def remainderOf (x : TInteger) (divisor : Int) : Leaving Int :=
  if ReadsPast x divisor then .error .undefined else .ok (x.toInt % divisor)

theorem number_divided (hsize : b.size = 2) (hne : b.toInt ≠ 0) :
    number (x.dividedByL b) = quotientOf x b.toInt ∧
      number (x.moduloL b) = remainderOf x b.toInt := by
  unfold dividedByL moduloL quotientOf remainderOf
  rcases divideL_cases (x := x) hsize hne with ⟨hpast, hundefined⟩ | ⟨hdefined, r, q, hok, hq, hr⟩
  · rw [hundefined, if_pos hpast, if_pos hpast]
    exact ⟨rfl, rfl⟩
  · rw [hok, if_neg hdefined, if_neg hdefined, ← hq, ← hr]
    exact ⟨rfl, rfl⟩

/-! ### Division by a word -/

theorem divideWords_spec (hd : d ≠ 0) (A : Words) :
    (divideWords d A).1.length = A.length ∧
      value (divideWords d A).1 * d.toNat + (divideWords d A).2.toNat = value A ∧
      (divideWords d A).2.toNat < d.toNat := by
  have hpos : 0 < d.toNat := Nat.pos_of_ne_zero (fun h => hd (UInt32.toNat_inj.mp h))
  induction A with
  | nil =>
      refine ⟨rfl, ?_, hpos⟩
      show 0 * d.toNat + 0 = 0
      rw [Nat.zero_mul]
  | cons w A ih =>
      obtain ⟨hlen, hsum, hless⟩ := ih
      rw [divideWords]
      generalize divideWords d A = divided at *
      simp only
      have hw := w.toNat_lt
      have hdlt := d.toNat_lt
      -- the remainder is less than the divisor, so that the quotient is a word
      have hquotient : (w.toNat + 2 ^ 32 * divided.2.toNat) / d.toNat < 2 ^ 32 := by
        rw [Nat.div_lt_iff_lt_mul hpos]
        omega
      have hremainder := mod_lt (w.toNat + 2 ^ 32 * divided.2.toNat) hpos
      have hsplit := div_add_mod' (w.toNat + 2 ^ 32 * divided.2.toNat) d.toNat
      generalize (w.toNat + 2 ^ 32 * divided.2.toNat) / d.toNat = q at *
      generalize (w.toNat + 2 ^ 32 * divided.2.toNat) % d.toNat = r at *
      have hq : (ofNat q).toNat = q := by
        rw [toNat_ofNat']
        omega
      have hr : (ofNat r).toNat = r := by
        rw [toNat_ofNat']
        omega
      refine ⟨congrArg succ hlen, ?_, ?_⟩
      · rw [value_cons, value_cons, hq, hr, ← hsum, Nat.add_mul, Nat.mul_add, ← Nat.mul_assoc]
        omega
      · rw [hr]
        exact hremainder

theorem positiveDivideWord_spec (hd : d ≠ 0) :
    ∃ r q, positiveDivideWord (cleanNewL (RoundupSize x.wordCount)) x d = .ok (r, q) ∧
      q.isNegative = false ∧ q.magnitude = x.magnitude / d.toNat ∧
      r.toNat = x.magnitude % d.toNat := by
  obtain ⟨hlen, hsum, hless⟩ := divideWords_spec hd (x.words.take x.wordCount)
  rw [value_take_words (Nat.le_refl _)] at hsum
  rw [List.length_take_of_le x.wordCount_le] at hlen
  have hunique : x.magnitude / d.toNat = value (divideWords d (x.words.take x.wordCount)).1 ∧
      x.magnitude % d.toNat = (divideWords d (x.words.take x.wordCount)).2.toNat := by
    rw [Nat.div_mod_unique (zero_lt_of_lt hless)]
    refine ⟨?_, hless⟩
    rw [Nat.mul_comm, Nat.add_comm]
    exact hsum
  obtain ⟨q, hq, -, hvalue, hsign⟩ := store_ok (cleanNewL (RoundupSize x.wordCount))
    (w := (divideWords d (x.words.take x.wordCount)).1) (by
      rw [hlen, size_cleanNewL]
      exact (RoundupSize_least _).le.trans (RoundupSize_least _).le)
    (Or.inl (magnitude_cleanNewL _))
  unfold positiveDivideWord
  simp only
  rw [hq, ok_bind]
  exact ⟨_, q, rfl, hsign, hvalue.trans hunique.1.symm, hunique.2.symm⟩

/-- A dividend below zero: the quotient is one further down, if there is a remainder. -/
theorem ediv_neg_natCast {m k : Nat} (hk : 0 < k) :
    (-(m : Int)) / k = -((m / k : Nat) : Int) - (if m % k = 0 then 0 else 1) := by
  have hsplit := div_add_mod' m k
  have hless := mod_lt m hk
  have hcast : ((m / k : Nat) : Int) * k + (m % k : Nat) = m := by exact_mod_cast hsplit
  generalize m / k = q at *
  generalize m % k = r at *
  have hunique : (-(m : Int)) / k = -(q : Int) - (if r = 0 then 0 else 1) ∧
      (-(m : Int)) % k = if r = 0 then 0 else (k : Int) - r := by
    rw [Int.ediv_emod_unique (by omega)]
    by_cases hr : r = 0
    · rw [if_pos hr, if_pos hr]
      subst hr
      refine ⟨?_, Int.le_refl 0, by omega⟩
      rw [← hcast]
      push_cast
      ring
    · rw [if_neg hr, if_neg hr]
      refine ⟨?_, by omega, by omega⟩
      rw [← hcast]
      ring
  exact hunique.1

/-- **`DividedByL(TUint)`** -/
theorem dividedByWordL_spec (hd : d ≠ 0) :
    number (x.dividedByWordL d) = .ok (x.toInt / d.toNat) := by
  have hpos : 0 < d.toNat := Nat.pos_of_ne_zero (fun h => hd (UInt32.toNat_inj.mp h))
  obtain ⟨r, q, hpositive, hsign, hquotient, hremainder⟩ := positiveDivideWord_spec (x := x) hd
  have hr : r = 0 ↔ x.magnitude % d.toNat = 0 := by
    rw [← hremainder]
    exact UInt32.toNat_inj.symm
  unfold dividedByWordL divideWordL
  rw [if_neg hd, hpositive, ok_bind]
  simp only
  rcases toInt_cases x with ⟨hxs, hxv⟩ | ⟨hxs, hxv⟩
  · rw [hxs, hxv, if_pos (by decide)]
    show Except.ok (q.setSign .EPositive).toInt = _
    rw [toInt_setSign_positive, hquotient, Int.natCast_ediv]
  · rw [hxs, hxv, if_neg (by decide), ediv_neg_natCast hpos]
    by_cases hzero : x.magnitude % d.toNat = 0
    · rw [if_neg (not_not_intro (hr.mpr hzero)), if_pos hzero, Int.sub_zero]
      show Except.ok (q.setSign .ENegative).toInt = _
      rw [toInt_setSign_negative, hquotient]
    · obtain ⟨next, hnext, hnsign, hnvalue⟩ :=
        decrement_negative (show (q.setSign .ENegative).isNegative = true from rfl)
      rw [if_pos (mt hr.mp hzero), if_neg hzero, hnext, ok_bind]
      show Except.ok next.toInt = _
      rw [toInt_of_negative hnsign, hnvalue, magnitude_setSign, hquotient]
      congr 1
      omega

/-! ### When the two agree -/

theorem agrees_ok (r : Leaving Int) (m : Int) : Agrees r (.ok m) ↔ r = .ok m :=
  ⟨fun h => h (fun hc => by cases hc), fun h _ => h⟩

theorem ok_agrees (m k : Int) : Agrees (.ok m) (.ok k) ↔ m = k := by
  rw [agrees_ok]
  exact ⟨fun h => by injection h, fun h => by rw [h]⟩

theorem agrees_undefined (r : Leaving Int) : Agrees r (.error .undefined) :=
  fun h => absurd rfl h

theorem error_agrees (e : Exit) (m : Int) : ¬Agrees (.error e) (.ok m) := by
  rw [agrees_ok]
  intro h
  cases h

theorem signedCompare_number {y : TInteger} (hx : x.WellSigned) (hy : y.WellSigned) :
    x.signedCompare y = Int.sign (x.toInt - y.toInt) := by
  unfold signedCompare
  rcases toInt_cases x with ⟨hxs, hxv⟩ | ⟨hxs, hxv⟩ <;>
    rcases toInt_cases y with ⟨hys, hyv⟩ | ⟨hys, hyv⟩
  · rw [hxs, hys, hxv, hyv]
    exact unsignedCompare_eq
  · have hne := hy hys
    rw [hxs, hys, hxv, hyv]
    exact (Int.sign_eq_one_of_pos (by omega)).symm
  · have hne := hx hxs
    rw [hxs, hys, hxv, hyv]
    exact (Int.sign_eq_neg_one_of_neg (by omega)).symm
  · rw [hxs, hys, hxv, hyv, neg_sub_neg, ← neg_sub, Int.sign_neg]
    exact congrArg Neg.neg unsignedCompare_eq

/-- The quotients by `n` and by `n + u` are the same only where both are zero. -/
theorem ediv_agree {u m : Int} (hn : n < 0) (hle : -n ≤ u) : m / u = m / n ↔ 0 ≤ m ∧ m < -n := by
  obtain ⟨k, rfl⟩ : ∃ k, n = -k := ⟨-n, (neg_neg n).symm⟩
  rw [Int.neg_neg] at hle ⊢
  have hk : 0 < k := by omega
  have hu : 0 < u := by omega
  rw [Int.ediv_neg]
  constructor
  · intro heq
    have hpos : 0 ≤ m := by
      by_contra hneg
      have h1 := Int.ediv_neg_of_neg_of_pos (Int.not_le.mp hneg) hu
      have h2 := Int.ediv_neg_of_neg_of_pos (Int.not_le.mp hneg) hk
      omega
    have h1 := Int.ediv_nonneg hpos hu.le
    have h2 := Int.ediv_nonneg hpos hk.le
    refine ⟨hpos, ?_⟩
    have hzero : m / k = 0 := by omega
    have hsplit := Int.emod_add_mul_ediv m k
    have hless := Int.emod_lt_of_pos m hk
    rw [hzero, Int.mul_zero, Int.add_zero] at hsplit
    omega
  · rintro ⟨hpos, hless⟩
    rw [Int.ediv_eq_zero_of_lt hpos hless, Int.ediv_eq_zero_of_lt hpos (by omega), Int.neg_zero]

/-- The remainders are the same where the remainder by the least common multiple is less than
both. -/
theorem emod_agree {u m : Int} (hn : n < 0) (hle : -n ≤ u) :
    m % u = m % n ↔ m % Int.lcm n u < -n := by
  have hu : 0 < u := by omega
  have hdn : n ∣ Int.lcm n u := Int.dvd_lcm_left n u
  have hdu : u ∣ Int.lcm n u := Int.dvd_lcm_right n u
  have hlcm : 0 < (Int.lcm n u : Int) := by
    have hne := Int.lcm_ne_zero hn.ne hu.ne'
    omega
  have hlarge : -n ≤ Int.lcm n u := Int.le_of_dvd hlcm (Int.neg_dvd.mpr hdn)
  have hnonneg := Int.emod_nonneg m hlcm.ne'
  have hless := Int.emod_lt_of_pos m hlcm
  rw [← Int.emod_emod_of_dvd m hdn, ← Int.emod_emod_of_dvd m hdu]
  generalize m % (Int.lcm n u : Int) = y at *
  constructor
  · intro heq
    have hr0 := Int.emod_nonneg y hn.ne
    have hr1 : y % n < -n := by
      rw [← Int.emod_neg]
      exact Int.emod_lt_of_pos y (by omega)
    -- what is over is a multiple of both
    have hboth : (Int.lcm n u : Int) ∣ y - y % n := by
      apply Int.coe_lcm_dvd
      · exact Int.dvd_self_sub_emod
      · rw [← heq]
        exact Int.dvd_self_sub_emod
    have hzero : y - y % n = 0 := by
      apply Int.eq_zero_of_abs_lt_dvd hboth
      rw [abs_lt]
      omega
    omega
  · intro hsmall
    rw [Int.emod_eq_of_lt hnonneg (by omega), ← Int.emod_neg, Int.emod_eq_of_lt hnonneg hsmall]

/-- The remainder of the magnitude is that of the number where it is zero, or the half. -/
theorem natAbs_emod_agree {m : Int} {k : Nat} :
    ((m.natAbs % k : Nat) : Int) = m % k ↔ 0 ≤ m ∨ (k : Int) ∣ m ∨ 2 * (m % k) = k := by
  by_cases hpos : 0 ≤ m
  · refine ⟨fun _ => .inl hpos, fun _ => ?_⟩
    rw [Int.natCast_emod, Int.natAbs_of_nonneg hpos]
  · have habs : ((m.natAbs % k : Nat) : Int) = (-m) % k := by
      rw [Int.natCast_emod, Int.ofNat_natAbs_of_nonpos (by omega)]
    rw [habs]
    by_cases hdvd : (k : Int) ∣ m
    · rw [Int.emod_eq_zero_of_dvd hdvd, Int.emod_eq_zero_of_dvd (Int.dvd_neg.mpr hdvd)]
      exact ⟨fun _ => .inr (.inl hdvd), fun _ => rfl⟩
    · have hne : m % k ≠ 0 := mt Int.dvd_of_emod_eq_zero hdvd
      have hneg : (-m) % k = k - m % k := by
        rw [Int.neg_emod, if_neg hdvd, Int.natAbs_natCast]
      rw [hneg]
      constructor
      · intro heq
        exact .inr (.inr (by omega))
      · rintro (hc | hc | hhalf)
        · exact absurd hc hpos
        · exact absurd hc hdvd
        · omega

/-- What is known of the two operands for a `TInt` below zero. -/
structure Negative (n : Int) : Prop where
  neg : n < 0
  bound : -n ≤ n + 2 ^ 32
  stack : (stackInteger n).toInt = n + 2 ^ 32
  integer : (newIntL n).toInt = n
  wellSigned : (newIntL n).WellSigned

theorem negative_of {n : Int32} (hneg : ¬0 ≤ n.toInt) : Negative n.toInt := by
  have hlo := n.le_toInt
  have hhi := n.toInt_lt
  obtain ⟨hint, hsigned⟩ := toInt_newIntL hlo hhi
  refine ⟨by omega, by omega, ?_, hint, hsigned⟩
  rw [toInt_stackInteger hlo hhi, if_neg hneg]

section

variable (h : Negative n)
include h

theorem Negative.add_disagree (hx : x.WellSigned) :
    ¬Agrees (number (x.plusL (stackInteger n))) (number (x.plusL (newIntL n))) := by
  rw [(plusL_makes hx _).number, (plusL_makes hx _).number, ok_agrees, h.stack, h.integer]
  omega

theorem Negative.subtract_disagree (hx : x.WellSigned) :
    ¬Agrees (number (x.minusL (stackInteger n))) (number (x.minusL (newIntL n))) := by
  rw [(minusL_makes hx _).number, (minusL_makes hx _).number, ok_agrees, h.stack, h.integer]
  omega

theorem Negative.multiply_iff :
    Agrees (number (x.timesL (.other (stackInteger n)))) (number (x.timesL (.other (newIntL n)))) ↔
      x.toInt = 0 := by
  rw [(timesL_makes x _).number, (timesL_makes x _).number, ok_agrees]
  show x.toInt * (stackInteger n).toInt = x.toInt * (newIntL n).toInt ↔ _
  rw [h.stack, h.integer, mul_eq_mul_left_iff, or_iff_right (by omega)]

theorem Negative.divided :
    number (x.dividedByL (stackInteger n)) = quotientOf x (n + 2 ^ 32) ∧
      number (x.moduloL (stackInteger n)) = remainderOf x (n + 2 ^ 32) ∧
      number (x.dividedByL (newIntL n)) = quotientOf x n ∧
      number (x.moduloL (newIntL n)) = remainderOf x n := by
  have hneg := h.neg
  have hbound := h.bound
  have hword := @number_divided x (stackInteger n) rfl (by rw [h.stack]; omega)
  have hinteger := @number_divided x (newIntL n) rfl (by rw [h.integer]; exact hneg.ne)
  rw [h.stack] at hword
  rw [h.integer] at hinteger
  exact ⟨hword.1, hword.2, hinteger.1, hinteger.2⟩

theorem Negative.divide_iff :
    Agrees (number (x.dividedByL (stackInteger n))) (number (x.dividedByL (newIntL n))) ↔
      ReadsPast x n ∨ 0 ≤ x.toInt ∧ x.toInt < -n := by
  obtain ⟨hword, -, hinteger, -⟩ := h.divided (x := x)
  rw [hword, hinteger]
  unfold quotientOf
  by_cases hpast : ReadsPast x n
  · rw [if_pos hpast]
    exact ⟨fun _ => .inl hpast, fun _ => agrees_undefined _⟩
  · rw [if_neg hpast, or_iff_right hpast]
    by_cases hwide : ReadsPast x (n + 2 ^ 32)
    · rw [if_pos hwide]
      have hneg := hwide.1
      exact ⟨fun hc => absurd hc (error_agrees _ _), fun hc => absurd hc.1 (by omega)⟩
    · rw [if_neg hwide, ok_agrees]
      exact ediv_agree h.neg h.bound

theorem Negative.modulo_iff :
    Agrees (number (x.moduloL (stackInteger n))) (number (x.moduloL (newIntL n))) ↔
      ReadsPast x n ∨ ¬ReadsPast x (n + 2 ^ 32) ∧
        x.toInt % Int.lcm n (n + 2 ^ 32) < -n := by
  obtain ⟨-, hword, -, hinteger⟩ := h.divided (x := x)
  rw [hword, hinteger]
  unfold remainderOf
  by_cases hpast : ReadsPast x n
  · rw [if_pos hpast]
    exact ⟨fun _ => .inl hpast, fun _ => agrees_undefined _⟩
  · rw [if_neg hpast, or_iff_right hpast]
    by_cases hwide : ReadsPast x (n + 2 ^ 32)
    · rw [if_pos hwide]
      exact ⟨fun hc => absurd hc (error_agrees _ _), fun hc => absurd hwide hc.1⟩
    · rw [if_neg hwide, ok_agrees, emod_agree h.neg h.bound, and_iff_right hwide]

theorem Negative.compare_iff (hx : x.WellSigned) :
    x.signedCompareInt n = x.signedCompare (newIntL n) ↔ x.toInt < n ∨ n + 2 ^ 32 < x.toInt := by
  have hpositive : (stackInteger n).WellSigned := fun hneg => absurd hneg Bool.false_ne_true
  have hneg := h.neg
  have hbound := h.bound
  show x.signedCompare (stackInteger n) = _ ↔ _
  rw [signedCompare_number hx hpositive, signedCompare_number hx h.wellSigned, h.stack, h.integer]
  generalize x.toInt = m
  rcases Int.lt_trichotomy m n with hlt | heq | hgt
  · rw [Int.sign_eq_neg_one_of_neg (by omega), Int.sign_eq_neg_one_of_neg (by omega)]
    exact ⟨fun _ => .inl hlt, fun _ => rfl⟩
  · rw [Int.sign_eq_neg_one_of_neg (by omega), heq, Int.sub_self, Int.sign_zero]
    omega
  · rw [Int.sign_eq_one_of_pos (show 0 < m - n by omega), Int.sign_eq_one_iff_pos]
    omega

end

/-- The overloads of a `TUint` are about a divisor that is not zero. -/
theorem divided_by_word_agrees (d : UInt32) :
    Agrees (number (x.dividedByWordL d)) (number (x.dividedByL (ofWord d))) := by
  by_cases hd : d = 0
  · subst hd
    have hzero : number (x.dividedByWordL 0) = number (x.dividedByL (ofWord 0)) := rfl
    exact fun _ => hzero
  · have hne : (ofWord d).toInt ≠ 0 := by
      rw [toInt_ofWord]
      exact_mod_cast fun h => hd (UInt32.toNat_inj.mp h)
    rw [dividedByWordL_spec hd, (number_divided rfl hne).1, toInt_ofWord]
    unfold quotientOf
    by_cases hpast : ReadsPast x d.toNat
    · rw [if_pos hpast]
      exact agrees_undefined _
    · rw [if_neg hpast]
      exact fun _ => rfl

theorem modulo_word_iff (d : UInt32) :
    Agrees (do return (← x.moduloWordL d : Nat)) (number (x.moduloL (ofWord d))) ↔
      d = 0 ∨ 0 ≤ x.toInt ∨ ReadsPast x d.toNat ∨ (d.toNat : Int) ∣ x.toInt ∨
        2 * (x.toInt % d.toNat) = d.toNat := by
  by_cases hd : d = 0
  · subst hd
    have hzero : (do return (← x.moduloWordL 0 : Nat) : Leaving Int) =
        number (x.moduloL (ofWord 0)) := rfl
    exact ⟨fun _ => .inl rfl, fun _ _ => hzero⟩
  · have hne : (ofWord d).toInt ≠ 0 := by
      rw [toInt_ofWord]
      exact_mod_cast fun h => hd (UInt32.toNat_inj.mp h)
    have hword : (do return (← x.moduloWordL d : Nat) : Leaving Int) =
        .ok ((x.toInt.natAbs % d.toNat : Nat) : Int) := by
      unfold moduloWordL
      rw [if_neg hd, modulo_eq, toInt_natAbs]
      rfl
    rw [hword, (number_divided rfl hne).2, toInt_ofWord, or_iff_right hd]
    unfold remainderOf
    by_cases hpast : ReadsPast x d.toNat
    · rw [if_pos hpast]
      exact ⟨fun _ => .inr (.inl hpast), fun _ => agrees_undefined _⟩
    · rw [if_neg hpast, ok_agrees, natAbs_emod_agree, or_iff_right hpast]

end

/-- **An overload agrees with the operation on the integer of the same value exactly where the
condition holds**: for a number below zero almost nowhere. -/
theorem overload_agrees_iff {x : TInteger} (hx : x.WellSigned) (overload : Overload) :
    Agrees (overload.onWord x) (overload.onInteger x) ↔ overload.AgreesWhen x := by
  have hsame : ∀ (f : TInteger → Leaving Int) {n : Int32}, 0 ≤ n.toInt →
      Agrees (f (stackInteger n.toInt)) (f (newIntL n.toInt)) := by
    intro f n hpos _
    rw [newIntL_eq hpos n.toInt_lt]
  cases overload with
  | addAssign n =>
      by_cases hpos : 0 ≤ n.toInt
      · exact ⟨fun _ => hpos, fun _ => hsame (fun b => number (x.plusL b)) hpos⟩
      · exact ⟨fun h => absurd h ((negative_of hpos).add_disagree hx), fun h => absurd h hpos⟩
  | subtractAssign n =>
      by_cases hpos : 0 ≤ n.toInt
      · exact ⟨fun _ => hpos, fun _ => hsame (fun b => number (x.minusL b)) hpos⟩
      · exact ⟨fun h => absurd h ((negative_of hpos).subtract_disagree hx), fun h => absurd h hpos⟩
  | multiplyAssign n =>
      by_cases hpos : 0 ≤ n.toInt
      · exact ⟨fun _ => .inl hpos, fun _ => hsame (fun b => number (x.timesL (.other b))) hpos⟩
      · exact (negative_of hpos).multiply_iff.trans (or_iff_right hpos).symm
  | divideAssign n =>
      by_cases hpos : 0 ≤ n.toInt
      · exact ⟨fun _ => .inl hpos, fun _ => hsame (fun b => number (x.dividedByL b)) hpos⟩
      · exact (negative_of hpos).divide_iff.trans (or_iff_right hpos).symm
  | moduloAssign n =>
      by_cases hpos : 0 ≤ n.toInt
      · exact ⟨fun _ => .inl hpos, fun _ => hsame (fun b => number (x.moduloL b)) hpos⟩
      · exact (negative_of hpos).modulo_iff.trans (or_iff_right hpos).symm
  | signedCompare n =>
      by_cases hpos : 0 ≤ n.toInt
      · exact ⟨fun _ => .inl hpos, fun _ => hsame (fun b => .ok (x.signedCompare b)) hpos⟩
      · exact (ok_agrees _ _).trans
          (((negative_of hpos).compare_iff hx).trans (or_iff_right hpos).symm)
  | dividedByL d => exact ⟨fun _ => trivial, fun _ => divided_by_word_agrees d⟩
  | moduloL d => exact modulo_word_iff d

/-- Minus seven less minus one. -/
theorem overload_agrees_iff_minus_seven :
    Agrees (Overload.onWord (newIntL (-7)) (.subtractAssign (-1)))
        (Overload.onInteger (newIntL (-7)) (.subtractAssign (-1))) ↔
      Overload.AgreesWhen (newIntL (-7)) (.subtractAssign (-1)) :=
  overload_agrees_iff (fun _ => by decide) (.subtractAssign (-1))

/-- Zero and minus one: the sum is 2^32 - 1, and zero compares as less.  Minus seven has the
remainder one by three, and not two. -/
theorem not_overload_agrees :
    ¬Agrees (Overload.onWord zero (.addAssign (-1))) (Overload.onInteger zero (.addAssign (-1))) ∧
      Overload.onWord zero (.addAssign (-1)) = .ok (2 ^ 32 - 1) ∧
      ¬Agrees (Overload.onWord zero (.signedCompare (-1)))
        (Overload.onInteger zero (.signedCompare (-1))) ∧
      ¬Agrees (Overload.onWord (newIntL (-7)) (.moduloL 3))
        (Overload.onInteger (newIntL (-7)) (.moduloL 3)) := by
  have hminus : Negative (-1 : Int32).toInt := negative_of (by decide)
  have hzero : zero.WellSigned := fun h => absurd h (by decide)
  refine ⟨hminus.add_disagree hzero, by rfl, ?_, ?_⟩
  · intro h
    have hfar := (hminus.compare_iff hzero).mp ((ok_agrees _ _).mp h)
    exact absurd hfar (by decide)
  · intro h
    exact absurd ((modulo_word_iff 3).mp h) (by decide)

end TInteger

end OsSecurity

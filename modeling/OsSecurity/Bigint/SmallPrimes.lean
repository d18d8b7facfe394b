/-
Small primes: the first part of `primes.cpp`, and its table.

The table has the primes below `KLastSmallPrime` and that one, so that whatever has no divisor in
it, and is less than the square of the last, is a prime.  A small number is moved on to the next
odd one until it is a prime.  Nothing compares it with the bound of the numbers that are wanted.
-/
import OsSecurity.Bigint.Arithmetic
import OsSecurity.Library.Bisection
import Mathlib.Data.Nat.Prime.Basic
import Mathlib.Data.List.GetD
import Mathlib.Data.List.Sort
import Mathlib.Tactic.NormNum.Prime

namespace OsSecurity

open List Nat UInt32

variable {n : Nat}

def KLastSmallPrime : Nat := 17863

def KLastSmallPrimeSquared : Nat := KLastSmallPrime * KLastSmallPrime

/-- The source lists them. -/
def KPrimeTable : List Nat := (range (KLastSmallPrime + 1)).filter Nat.Prime

def KPrimeTableSize : Nat := KPrimeTable.length

/-- A binary search of the table. -/
def IsSmallPrime (aK : Nat) : Bool :=
  Bisection.search (KPrimeTable.getD · 0) aK 0 KPrimeTableSize

theorem mem_KPrimeTable {p : Nat} : p ∈ KPrimeTable ↔ p ≤ KLastSmallPrime ∧ p.Prime := by
  unfold KPrimeTable
  rw [mem_filter, mem_range, Nat.lt_succ_iff, decide_eq_true_eq]

theorem KPrimeTable_sorted : KPrimeTable.Pairwise (· < ·) :=
  List.Pairwise.filter _ pairwise_lt_range

theorem IsSmallPrime_iff (aK : Nat) : IsSmallPrime aK = true ↔ aK ≤ KLastSmallPrime ∧ aK.Prime := by
  have hmono : ∀ i j, i ≤ j → j < KPrimeTableSize →
      KPrimeTable.getD i 0 ≤ KPrimeTable.getD j 0 := by
    intro i j hij hj
    rcases Nat.eq_or_lt_of_le hij with rfl | hlt
    · exact Nat.le_refl _
    · rw [getD_eq_getElem _ _ (hij.trans_lt hj), getD_eq_getElem _ _ hj]
      exact (pairwise_iff_getElem.mp KPrimeTable_sorted i j _ _ hlt).le
  unfold IsSmallPrime
  rw [Bisection.search_iff hmono, ← mem_KPrimeTable, mem_iff_getElem]
  constructor
  · rintro ⟨i, -, hi, heq⟩
    exact ⟨i, hi, (getD_eq_getElem _ 0 hi).symm.trans heq⟩
  · rintro ⟨i, hi, heq⟩
    exact ⟨i, Nat.zero_le i, hi, (getD_eq_getElem _ 0 hi).trans heq⟩

namespace TInteger

def convertToUnsignedLong (self : TInteger) : Nat := (self.words.getD 0 0).toNat

/-- `SignedCompare(TInt)`: a `TStackInteger64` is constructed of a `TUint`. -/
def signedCompareInt (self : TInteger) (aInteger : Int) : Int :=
  self.signedCompare (ofWord (ofInt aInteger))

/-- `SetBit`: a bit behind the cell is not set. -/
def setBit (self : TInteger) (aBitPos : Nat) : TInteger :=
  if aBitPos / WORD_BITS < self.size then
    self.withWords (self.words.set (aBitPos / WORD_BITS)
      (self.words.getD (aBitPos / WORD_BITS) 0 ||| (1 <<< ofNat (aBitPos % WORD_BITS))))
      (length_set ..)
  else self

/-- `Modulo(const TInteger&, TUint)`, from the most significant word on. -/
def modulo (aDividend : TInteger) (aDivisor : Nat) : Nat :=
  (aDividend.words.take aDividend.wordCount).foldr
    (fun w remainder => (w.toNat + 2 ^ 32 * remainder) % aDivisor) 0

/-- The first prime is not among the divisors. -/
def hasSmallDivisorL (aPossiblePrime : TInteger) : Bool :=
  (KPrimeTable.drop 1).any fun p => aPossiblePrime.modulo p = 0

def incrementNoCarry (self : TInteger) (n : UInt32) : TInteger :=
  self.withWords (Increment self.words n).1 (Increment_length self.words n)

/-- The loops that try the next odd number, with a bound on how many. -/
def incrementWhile (goesOn : TInteger → Bool) : Nat → TInteger → Leaving TInteger
  | 0, _ => .error .undefined
  | rounds + 1, self =>
    if goesOn self then incrementWhile goesOn rounds (self.incrementNoCarry 2) else .ok self

/-- The prime, if one is found. -/
def smallPrimeRandomizeL (self : TInteger) : Leaving (TInteger × Bool) :=
  if self.signedCompareInt KLastSmallPrime ≤ 0 then
    if self.isZero || self.signedCompare one = 0 || self.signedCompare two = 0 then do
      let self ← self.copyL two true
      return (self, true)
    else do
      let self ← incrementWhile (fun self => !IsSmallPrime self.convertToUnsignedLong)
        KLastSmallPrime (self.setBit 0)
      return (self, true)
  else if self.signedCompareInt KLastSmallPrimeSquared ≤ 0 then do
    let self ← incrementWhile
      (fun self => self.hasSmallDivisorL && self.signedCompareInt KLastSmallPrimeSquared ≤ 0)
      KLastSmallPrimeSquared (self.setBit 0)
    return (self, self.signedCompareInt KLastSmallPrimeSquared < 0)
  else .ok (self, false)

section

variable {x : TInteger}

/-! ### Bits -/

/-- A bit of a number is a bit of one of its words. -/
theorem value_testBit (A : Words) (n : Nat) :
    (value A).testBit n = (A.getD (n / 32) 0).toNat.testBit (n % 32) := by
  induction A generalizing n with
  | nil => simp
  | cons a A ih =>
      have hsum : value (a :: A) = 2 ^ 32 * value A + a.toNat := by
        rw [value_cons, Nat.add_comm]
      rw [hsum, testBit_two_pow_mul_add _ a.toNat_lt]
      by_cases hlow : n < 32
      · rw [if_pos hlow, div_eq_of_lt hlow, mod_eq_of_lt hlow]
        rfl
      · obtain ⟨k, rfl⟩ : ∃ k, n = k + 32 := ⟨n - 32, by omega⟩
        rw [if_neg hlow, Nat.add_sub_cancel, ih, add_mod_right,
          add_div_right k (by decide), getD_cons_succ]

theorem one_shiftLeft_testBit {j : Nat} (hj : j < 32) (i : Nat) :
    ((1 : UInt32) <<< ofNat j).toNat.testBit i = decide (i = j) := by
  have hpow : ((1 : UInt32) <<< ofNat j).toNat = 2 ^ j := by
    rw [shiftLeft_toNat hj, toNat_one, one_mod_two_pow, Nat.one_mul]
    omega
  rw [hpow, testBit_two_pow]
  exact decide_eq_decide.mpr eq_comm

theorem magnitude_setBit (h : n < 32 * x.size) :
    (x.setBit n).magnitude = x.magnitude ||| 2 ^ n := by
  have hword : n / WORD_BITS < x.words.length := by
    show n / 32 < x.size
    omega
  unfold setBit
  rw [if_pos (show n / WORD_BITS < x.size from hword), magnitude_withWords]
  apply eq_of_testBit_eq
  intro i
  show _ = (value x.words ||| 2 ^ n).testBit i
  rw [testBit_or, value_testBit, value_testBit, testBit_two_pow]
  by_cases hsame : i / 32 = n / WORD_BITS
  · rw [hsame, getD_eq_getElem _ _ (by rw [length_set]; exact hword), getElem_set_self,
      UInt32.toNat_or, testBit_or, one_shiftLeft_testBit (j := n % WORD_BITS)
        (mod_lt n (by decide))]
    congr 1
    apply decide_eq_decide.mpr
    change i / 32 = n / 32 at hsame
    show i % 32 = n % 32 ↔ _
    omega
  · have hne : n ≠ i := by
      rintro rfl
      exact hsame rfl
    rw [decide_eq_false hne, Bool.or_false, getD_eq_getElem?_getD,
      getElem?_set_ne (Ne.symm hsame), getD_eq_getElem?_getD]

theorem isNegative_setBit (n : Nat) : (x.setBit n).isNegative = x.isNegative := by
  unfold setBit
  by_cases hsize : n / WORD_BITS < x.size
  · rw [if_pos hsize]
    rfl
  · rw [if_neg hsize]

theorem size_setBit (n : Nat) : (x.setBit n).size = x.size := by
  unfold setBit
  by_cases hsize : n / WORD_BITS < x.size
  · rw [if_pos hsize, size_withWords]
  · rw [if_neg hsize]

/-- The next number that is odd, unless the number is. -/
theorem magnitude_setBit_zero (x : TInteger) : (x.setBit 0).magnitude = x.magnitude / 2 * 2 + 1 := by
  have htwo := two_le_size x
  rw [magnitude_setBit (by omega)]
  apply eq_of_testBit_eq
  intro i
  rw [testBit_or, testBit_two_pow]
  cases i with
  | zero => simp [testBit_zero]
  | succ i =>
      have hhalf : (x.magnitude / 2 * 2 + 1) / 2 = x.magnitude / 2 := by omega
      rw [decide_eq_false (by omega), Bool.or_false, testBit_succ, testBit_succ, hhalf]

/-! ### Comparison and remainders -/

theorem signedCompareInt_eq (h : x.isNegative = false) (hn : n < 2 ^ 32) :
    x.signedCompareInt n = Int.sign ((x.magnitude : Int) - n) := by
  have hword : (ofInt n).toNat = n := by
    show (ofNat ((n : Int) % 2 ^ 32).toNat).toNat = n
    rw [toNat_ofNat']
    omega
  unfold signedCompareInt signedCompare
  rw [h, isNegative_ofWord]
  exact unsignedCompare_eq.trans (by rw [magnitude_ofWord, hword])

theorem signedCompareInt_le (h : x.isNegative = false) (hn : n < 2 ^ 32) :
    x.signedCompareInt n ≤ 0 ↔ x.magnitude ≤ n := by
  rw [signedCompareInt_eq h hn, Int.sign_nonpos_iff]
  omega

theorem signedCompareInt_lt (h : x.isNegative = false) (hn : n < 2 ^ 32) :
    x.signedCompareInt n < 0 ↔ x.magnitude < n := by
  rw [signedCompareInt_eq h hn, Int.sign_neg_iff]
  omega

theorem modulo_eq (x : TInteger) (p : Nat) : x.modulo p = x.magnitude % p := by
  have hfold : ∀ A : Words, A.foldr (fun w remainder => (w.toNat + 2 ^ 32 * remainder) % p) 0 % p =
      value A % p := by
    intro A
    induction A with
    | nil => rfl
    | cons w A ih =>
      rw [foldr_cons, value_cons, mod_mod, add_mod, mul_mod, ih, ← mul_mod, ← add_mod]
  have hall := hfold (x.words.take x.wordCount)
  rw [value_take_words (Nat.le_refl _)] at hall
  unfold modulo
  rw [← hall]
  cases x.words.take x.wordCount with
  | nil => exact (zero_mod p).symm
  | cons w A => rw [foldr_cons, mod_mod]

/-- A number that is odd and has no divisor in the table. -/
def NoSmallDivisor (n : Nat) : Prop := ∀ p ∈ KPrimeTable.drop 1, ¬p ∣ n

instance (n : Nat) : Decidable (NoSmallDivisor n) :=
  inferInstanceAs (Decidable (∀ p ∈ KPrimeTable.drop 1, ¬p ∣ n))

theorem hasSmallDivisorL_eq_false : x.hasSmallDivisorL = false ↔ NoSmallDivisor x.magnitude := by
  unfold hasSmallDivisorL NoSmallDivisor
  rw [any_eq_false]
  simp only [modulo_eq, decide_eq_true_eq, dvd_iff_mod_eq_zero]

theorem noSmallDivisor_of_prime {p : Nat} (hp : p.Prime) (hlarge : KLastSmallPrime < p) :
    NoSmallDivisor p := by
  intro q hq hdvd
  obtain ⟨hle, hprime⟩ := mem_KPrimeTable.mp (mem_of_mem_drop hq)
  rcases hp.eq_one_or_self_of_dvd q hdvd with hone | hself
  · exact hprime.one_lt.ne' hone
  · omega

/-- Two is the first of the table. -/
theorem KPrimeTable_eq : KPrimeTable = 2 :: (range' 3 (KLastSmallPrime - 2)).filter Nat.Prime := by
  have hrange : range (KLastSmallPrime + 1) =
      0 :: 1 :: 2 :: range' 3 (KLastSmallPrime - 2) := by
    rw [range_eq_range']
    rfl
  unfold KPrimeTable
  rw [hrange]
  simp [prime_two, Nat.not_prime_zero, Nat.not_prime_one]

/-- Below the square of the last prime of the table, a number that it has no divisor of is one. -/
theorem prime_of_noSmallDivisor (hn : 1 < n) (hodd : n % 2 = 1) (hlt : n < KLastSmallPrimeSquared)
    (h : NoSmallDivisor n) : n.Prime := by
  by_contra hnot
  have hprime := minFac_prime (n := n) (by omega)
  have hsquare := minFac_sq_le_self (by omega) hnot
  have hless : n.minFac < KLastSmallPrime := by
    apply lt_of_pow_lt_pow_left₀ 2 (Nat.zero_le _)
    rw [pow_two KLastSmallPrime]
    exact hsquare.trans_lt hlt
  have hthree : 3 ≤ n.minFac := by
    have htwo := hprime.two_le
    have hne : n.minFac ≠ 2 := by
      intro heq
      have hdvd := minFac_dvd n
      rw [heq] at hdvd
      omega
    omega
  refine h n.minFac ?_ (minFac_dvd n)
  rw [KPrimeTable_eq, drop_one, tail_cons, mem_filter, mem_range']
  refine ⟨⟨n.minFac - 3, by omega, by omega⟩, decide_eq_true hprime⟩

/-! ### The search -/

theorem magnitude_incrementNoCarry {n : UInt32} (h : x.magnitude + n.toNat < (2 ^ 32) ^ x.size) :
    (x.incrementNoCarry n).magnitude = x.magnitude + n.toNat := by
  obtain ⟨-, hvalue⟩ := Increment_value (B := n) (Or.inl x.words_ne_nil)
  have hmagnitude : value x.words = x.magnitude := rfl
  have hlen : x.words.length = x.size := rfl
  rw [hmagnitude, hlen] at hvalue
  unfold incrementNoCarry
  rw [magnitude_withWords]
  have hnone : (Increment x.words n).2.toNat = 0 := by
    by_contra hsome
    have hle := Nat.le_mul_of_pos_right ((2 ^ 32) ^ x.size) (Nat.pos_of_ne_zero hsome)
    omega
  rw [hnone] at hvalue
  omega

/-- Numbers of 32 bits fit in any cell. -/
theorem lt_of_lt_word (h : n < 2 ^ 32) (x : TInteger) : n < (2 ^ 32) ^ x.size := by
  have htwo := two_le_size x
  have hpow : (2 ^ 32) ^ 2 ≤ (2 ^ 32) ^ x.size := Nat.pow_le_pow_right (by decide) htwo
  omega

/-- **Every other number is tried until one will do**, and there is one. -/
theorem incrementWhile_spec {g : TInteger → Bool} {P : Nat → Bool}
    (hP : ∀ z : TInteger, z.isNegative = false → z.magnitude < 2 ^ 32 → g z = P z.magnitude)
    {r k : Nat} (hx : x.isNegative = false) (hk : k < r)
    (hfits : x.magnitude + 2 * k < 2 ^ 32) (hstop : P (x.magnitude + 2 * k) = false) :
    ∃ z j, incrementWhile g r x = .ok z ∧ z.isNegative = false ∧ z.size = x.size ∧
      z.magnitude = x.magnitude + 2 * j ∧ P z.magnitude = false ∧
        ∀ i < j, P (x.magnitude + 2 * i) = true := by
  induction r generalizing x k with
  | zero => omega
  | succ r ih =>
      rw [incrementWhile, hP x hx (by omega)]
      by_cases hgo : P x.magnitude = true
      · rw [if_pos hgo]
        cases k with
        | zero =>
          rw [Nat.mul_zero, Nat.add_zero, hgo] at hstop
          cases hstop
        | succ k =>
          have hnext := magnitude_incrementNoCarry (x := x) (n := 2)
            (lt_of_lt_word (by rw [show (2 : UInt32).toNat = 2 from rfl]; omega) x)
          rw [show (2 : UInt32).toNat = 2 from rfl] at hnext
          have hsum : x.magnitude + 2 + 2 * k = x.magnitude + 2 * (k + 1) := by ring
          obtain ⟨z, j, hz, hsign, hsize, hmagnitude, hnot, hall⟩ := ih (x := x.incrementNoCarry 2)
            hx (lt_of_succ_lt_succ hk) (by rw [hnext]; omega) (by rw [hnext, hsum]; exact hstop)
          rw [hnext] at hmagnitude hall
          refine ⟨z, j + 1, hz, hsign, hsize.trans (size_withWords _ _), ?_, hnot, ?_⟩
          · rw [hmagnitude]
            ring
          · intro i hi
            cases i with
            | zero => exact hgo
            | succ i =>
              have hearlier := hall i (lt_of_succ_lt_succ hi)
              rwa [show x.magnitude + 2 + 2 * i = x.magnitude + 2 * (i + 1) by ring] at hearlier
      · rw [if_neg hgo]
        exact ⟨x, 0, rfl, hx, rfl, rfl, Bool.not_eq_true _ ▸ hgo, fun i hi => by omega⟩

theorem convertToUnsignedLong_eq {z : TInteger} (h : z.magnitude < 2 ^ 32) :
    z.convertToUnsignedLong = z.magnitude := by
  unfold convertToUnsignedLong
  cases hwords : z.words with
  | nil => exact absurd hwords z.words_ne_nil
  | cons w A =>
      have hmagnitude : z.magnitude = w.toNat + 2 ^ 32 * value A := by
        show value z.words = _
        rw [hwords, value_cons]
      rw [getD_cons_zero]
      omega

theorem KLastSmallPrime_prime : KLastSmallPrime.Prime := by
  unfold KLastSmallPrime
  norm_num

theorem KLastSmallPrimeSquared_lt : KLastSmallPrimeSquared < 2 ^ 32 := by decide

/-- An odd prime that is not less than a number is one of those that are tried. -/
theorem exists_step {q : Nat} (hq : q.Prime) (hle : n ≤ q) (h : 2 < n) :
    ∃ k, n / 2 * 2 + 1 + 2 * k = q := by
  have hodd : q % 2 = 1 := (Nat.Prime.eq_two_or_odd hq).resolve_left (by omega)
  exact ⟨(q - (n / 2 * 2 + 1)) / 2, by omega⟩

/-- A number up to the last prime of the table: the next prime. -/
theorem smallPrimeRandomizeL_table (hx : x.isNegative = false) (hmore : 2 < x.magnitude)
    (hle : x.magnitude ≤ KLastSmallPrime) :
    ∃ z, x.smallPrimeRandomizeL = .ok (z, true) ∧ z.isNegative = false ∧ z.size = x.size ∧
      z.magnitude.Prime ∧ x.magnitude ≤ z.magnitude ∧
        ∀ q : Nat, q.Prime → x.magnitude ≤ q → z.magnitude ≤ q := by
  have hlast : KLastSmallPrime = 17863 := rfl
  have hzero : x.isZero = false := by
    rw [Bool.eq_false_iff]
    intro hnone
    have hmagnitude := (isZero_iff.mp hnone).2
    omega
  have hcompare : ∀ w : UInt32, w.toNat < 3 → x.signedCompare (ofWord w) ≠ 0 := by
    intro w hw
    unfold signedCompare
    rw [hx, isNegative_ofWord]
    show x.unsignedCompare (ofWord w) ≠ 0
    rw [unsignedCompare_eq, magnitude_ofWord, Ne, Int.sign_eq_zero_iff_zero]
    omega
  have hone : x.signedCompare one ≠ 0 := hcompare 1 (by decide)
  have htwo : x.signedCompare two ≠ 0 := hcompare 2 (by decide)
  have hstart := magnitude_setBit_zero x
  obtain ⟨k, hk⟩ := exists_step KLastSmallPrime_prime hle hmore
  obtain ⟨z, j, hz, hsign, hsize, hmagnitude, hstop, hall⟩ := incrementWhile_spec
    (g := fun self => !IsSmallPrime self.convertToUnsignedLong)
    (P := fun n => !IsSmallPrime n) (x := x.setBit 0) (k := k) (r := KLastSmallPrime)
    (fun z _ hlt => by rw [convertToUnsignedLong_eq hlt]) ((isNegative_setBit 0).trans hx)
    (by omega) (by rw [hstart]; omega) (by
      rw [hstart, hk, (IsSmallPrime_iff _).mpr ⟨Nat.le_refl _, KLastSmallPrime_prime⟩]
      rfl)
  rw [hstart] at hmagnitude hall
  have hprime : IsSmallPrime z.magnitude = true := by
    rwa [Bool.not_eq_false'] at hstop
  -- no prime has been passed over
  have hleast : ∀ q : Nat, q ≤ KLastSmallPrime → q.Prime → x.magnitude ≤ q → z.magnitude ≤ q := by
    intro q hqle hq hxq
    obtain ⟨i, hi⟩ := exists_step hq hxq hmore
    by_contra hpassed
    have hnot := hall i (by omega)
    rw [hi, (IsSmallPrime_iff q).mpr ⟨hqle, hq⟩] at hnot
    cases hnot
  refine ⟨z, ?_, hsign, hsize.trans (size_setBit 0), ((IsSmallPrime_iff _).mp hprime).2, by omega, ?_⟩
  · unfold smallPrimeRandomizeL
    rw [if_pos ((signedCompareInt_le hx (by decide)).mpr hle), hzero, decide_eq_false hone,
      decide_eq_false htwo, Bool.or_false, Bool.or_false, if_neg (by decide), hz]
    rfl
  · intro q hq hxq
    rcases Nat.le_total q KLastSmallPrime with hqle | hqge
    · exact hleast q hqle hq hxq
    · exact (hleast _ (Nat.le_refl _) KLastSmallPrime_prime hle).trans hqge

/-- A number up to the square: the next prime below the square, or the number behind it. -/
theorem smallPrimeRandomizeL_square (hx : x.isNegative = false)
    (hmore : KLastSmallPrime < x.magnitude) (hle : x.magnitude ≤ KLastSmallPrimeSquared) :
    ∃ z, x.smallPrimeRandomizeL = .ok (z, z.magnitude < KLastSmallPrimeSquared) ∧
      z.isNegative = false ∧ z.size = x.size ∧ x.magnitude ≤ z.magnitude ∧
      (z.magnitude < KLastSmallPrimeSquared → z.magnitude.Prime) ∧
      z.magnitude ≤ KLastSmallPrimeSquared + 2 ∧ z.magnitude ≠ KLastSmallPrimeSquared ∧
      z.magnitude % 2 = 1 ∧ ∀ q : Nat, q.Prime → x.magnitude ≤ q → z.magnitude ≤ q := by
  have hlast : KLastSmallPrime = 17863 := rfl
  have hsquare : KLastSmallPrimeSquared = 319086769 := rfl
  have hstart := magnitude_setBit_zero x
  obtain ⟨k, hk⟩ : ∃ k, x.magnitude / 2 * 2 + 1 + 2 * k = KLastSmallPrimeSquared + 2 :=
    ⟨(KLastSmallPrimeSquared + 2 - (x.magnitude / 2 * 2 + 1)) / 2, by omega⟩
  have hgoesOn : ∀ z : TInteger, z.isNegative = false → z.magnitude < 2 ^ 32 →
      (z.hasSmallDivisorL && decide (z.signedCompareInt KLastSmallPrimeSquared ≤ 0)) =
        decide (¬NoSmallDivisor z.magnitude ∧ z.magnitude ≤ KLastSmallPrimeSquared) := by
    intro z hz _
    have hdivisor := @hasSmallDivisorL_eq_false z
    have hcompare := signedCompareInt_le hz KLastSmallPrimeSquared_lt
    rw [Bool.eq_iff_iff, Bool.and_eq_true, decide_eq_true_eq, decide_eq_true_eq, hcompare,
      ← hdivisor, Bool.not_eq_false]
  obtain ⟨z, j, hz, hsign, hsize, hmagnitude, hstop, hall⟩ := incrementWhile_spec
    (P := fun n => decide (¬NoSmallDivisor n ∧ n ≤ KLastSmallPrimeSquared)) hgoesOn
    (x := x.setBit 0) (k := k) (r := KLastSmallPrimeSquared) ((isNegative_setBit 0).trans hx)
    (by omega) (by rw [hstart]; omega) (by
      rw [hstart, hk]
      exact decide_eq_false fun h => by omega)
  rw [hstart] at hmagnitude hall
  have hends := of_decide_eq_false hstop
  have hnotSquare : z.magnitude ≠ KLastSmallPrimeSquared := by
    intro heq
    refine hends ⟨fun hno => ?_, heq.le⟩
    refine hno KLastSmallPrime ?_ (heq ▸ Dvd.intro _ rfl)
    rw [KPrimeTable_eq, drop_one, tail_cons, mem_filter, mem_range']
    exact ⟨⟨KLastSmallPrime - 3, by omega, by omega⟩, decide_eq_true KLastSmallPrime_prime⟩
  have hpassed : ∀ i < j, x.magnitude / 2 * 2 + 1 + 2 * i ≤ KLastSmallPrimeSquared :=
    fun i hi => (of_decide_eq_true (hall i hi)).2
  refine ⟨z, ?_, hsign, hsize.trans (size_setBit 0), by omega, fun hlt => ?_, ?_, hnotSquare,
    by omega, ?_⟩
  · have hcompare := signedCompareInt_lt hsign KLastSmallPrimeSquared_lt
    have hnotTable := mt (signedCompareInt_le hx (n := KLastSmallPrime) (by decide)).mp
    unfold smallPrimeRandomizeL
    rw [if_neg (hnotTable (by omega)), if_pos ((signedCompareInt_le hx
      KLastSmallPrimeSquared_lt).mpr hle), hz]
    show (Except.ok (z, decide _) : Leaving _) = _
    rw [decide_eq_decide.mpr hcompare]
  · have hno : NoSmallDivisor z.magnitude := by
      by_contra hdivisor
      exact hends ⟨hdivisor, hlt.le⟩
    exact prime_of_noSmallDivisor (by omega) (by omega) hlt hno
  · rcases Nat.eq_zero_or_pos j with rfl | hpos
    · omega
    · have hlastPassed := hpassed (j - 1) (by omega)
      omega
  · intro q hq hxq
    obtain ⟨i, hi⟩ := exists_step hq hxq (by omega)
    by_contra hless
    obtain ⟨hdivisor, -⟩ := of_decide_eq_true (hall i (by omega))
    rw [hi] at hdivisor
    exact hdivisor (noSmallDivisor_of_prime hq (by omega))

/-- A larger number is left to the other search. -/
theorem smallPrimeRandomizeL_large (hx : x.isNegative = false)
    (hmore : KLastSmallPrimeSquared < x.magnitude) : x.smallPrimeRandomizeL = .ok (x, false) := by
  have hle : KLastSmallPrime ≤ KLastSmallPrimeSquared := by decide
  have htable := mt (signedCompareInt_le hx (n := KLastSmallPrime) (by decide)).mp
  have hsquare := mt (signedCompareInt_le hx KLastSmallPrimeSquared_lt).mp
  unfold smallPrimeRandomizeL
  rw [if_neg (htable (by omega)), if_neg (hsquare (by omega))]

/-- Zero, one and two become two, in the least cell. -/
theorem smallPrimeRandomizeL_two (hx : x.isNegative = false) (hle : x.magnitude ≤ 2)
    (hsize : x.size = 2) :
    ∃ z, x.smallPrimeRandomizeL = .ok (z, true) ∧ z.isNegative = false ∧ z.size = 2 ∧
      z.magnitude = 2 := by
  have hany : (x.isZero || decide (x.signedCompare one = 0) ||
      decide (x.signedCompare two = 0)) = true := by
    have hcompare : ∀ w : UInt32, x.magnitude = w.toNat → x.signedCompare (ofWord w) = 0 := by
      intro w hw
      unfold signedCompare
      rw [hx, isNegative_ofWord]
      show x.unsignedCompare (ofWord w) = 0
      rw [unsignedCompare_eq, magnitude_ofWord, hw, Int.sub_self, Int.sign_zero]
    rw [Bool.or_eq_true, Bool.or_eq_true, decide_eq_true_eq, decide_eq_true_eq]
    rcases Nat.lt_or_ge x.magnitude 1 with hzero | hpos
    · exact Or.inl (Or.inl (isZero_iff.mpr ⟨hx, by omega⟩))
    · rcases Nat.lt_or_ge x.magnitude 2 with hone | htwo
      · exact Or.inl (Or.inr (hcompare 1 (by show x.magnitude = 1; omega)))
      · exact Or.inr (hcompare 2 (by show x.magnitude = 2; omega))
  obtain ⟨z, hz, hzsize, hmagnitude, hpositive⟩ := copyL_same_size (a := x) (b := two) hsize
  have htable := (signedCompareInt_le hx (n := KLastSmallPrime) (by decide)).mpr
    (hle.trans (by decide))
  unfold smallPrimeRandomizeL
  rw [if_pos htable, if_pos hany, hz]
  refine ⟨z, rfl, ?_, hzsize.trans hsize, hmagnitude.trans (magnitude_ofWord 2)⟩
  rw [isNegative, hpositive]
  rfl

end

end TInteger

end OsSecurity

/-
`RInteger::NewPrimeL`: the search for a prime of a number of bits, in `primes.cpp`.

A random odd number is drawn, and the odd numbers from there on are sieved with the small primes.
What is left is tried in turn, until a number passes the test of Rabin and Miller.  The sieve is
made shorter where the numbers come to the bound, but it is searched a word at a time: behind its
end there are bits that nothing has sieved, and they may be those of numbers beyond the bound.
The length it has been cut to is kept for the next draw.

A bit array is given as the list of its bits, which is as many words as it takes.  Searching it
word by word reads the word behind the array when all words are full; what is there makes no
difference.  What the test says of a number is any answer, and may be another one at the next
draw.
-/
import OsSecurity.Bigint.Random

namespace OsSecurity

open List Nat TInteger UInt32

def ArraySetBit (S : List Bool) (j : Nat) : Leaving (List Bool) :=
  if j < S.length then .ok (S.set j true) else .error .undefined

/-- The bound on the rounds is the number of indices. -/
def EliminateComposites (aPrime aMaxIndex : Nat) : Nat → List Bool → Nat → Leaving (List Bool)
  | 0, _, _ => .error .undefined
  | rounds + 1, S, aJ =>
    if aJ < aMaxIndex then do
      let S ← ArraySetBit S aJ
      EliminateComposites aPrime aMaxIndex rounds S (aJ + aPrime)
    else .ok S

/-- The least index of an odd number that the prime divides. -/
def FindSmallestIndex (aPrime aRemainder : Nat) : Nat :=
  if aRemainder ≠ 0 then
    let j := aPrime - aRemainder
    let j := if j % 2 = 1 then j + aPrime else j
    j / 2
  else 0

/-- The bits of all words that `aBitLength` bits reach into. -/
def searched (aBitLength : Nat) : Nat := WORD_BITS * BitsToWords (ofNat aBitLength)

def FindFirstPrimeCandidate (S : List Bool) (aBitLength : Nat) : Option Nat :=
  (S.take (searched aBitLength)).findIdx? (· = false)

def sieve (self : TInteger) (sLength : Nat) : List Nat → List Bool → Leaving (List Bool)
  | [], S => .ok S
  | p :: ps, S => do
    let remainder := self.modulo p
    let index := FindSmallestIndex p remainder
    let S ← EliminateComposites p sLength (sLength + 1) S index
    sieve self sLength ps S

/-- The candidates in turn, and whether one of them has passed the test. -/
def tryCandidates (test : Nat → Bool) (sLength : Nat) :
    Nat → List Bool → TInteger → Nat → Leaving (TInteger × Bool)
  | 0, _, _, _ => .error .undefined
  | rounds + 1, S, self, prev =>
    match FindFirstPrimeCandidate S sLength with
    | none => .ok (self, false)
    | some j => do
      let S ← ArraySetBit S j
      let self := self.incrementNoCarry (ofNat (2 * (j - prev)))
      if test self.magnitude then return (self, true)
      else tryCandidates test sLength rounds S self j

/-- Where the search is after a number of draws. -/
inductive Progress where
  | searching (self : TInteger) (sLength : Nat)
  | found (self : TInteger)

/-- `sLength`, before anything is drawn. -/
def initialLength (aBits : UInt32) : Nat := if aBits > 1024 then 1024 else 512

namespace TInteger

/-- `max`: any prime that is found must be less than this. -/
def bound (aBits : UInt32) : TInteger :=
  (cleanNewL (BitsToWords aBits + 1)).setBit aBits.toNat

/-- The numbers from an odd one on. -/
def searchL (self : TInteger) (aBits : UInt32) (sLength : Nat) (test : Nat → Bool) :
    Leaving Progress := do
  let temp ← (bound aBits).minusL self
  let temp ← temp.increment
  let temp ← temp.shiftRight 1
  let sLength := if temp.signedCompareInt sLength < 0 then temp.convertToUnsignedLong else sLength
  let bits := WORD_BITS * RoundupSize (BitsToWords (ofNat (initialLength aBits)))
  let S ← sieve self sLength (KPrimeTable.drop 1) (replicate bits false)
  let (self, foundProbablePrime) ← tryCandidates test sLength (bits + 1) S self 0
  return if foundProbablePrime then .found self else .searching self sLength

/-- One draw. -/
def drawPrimeL (self : TInteger) (aBits : UInt32) (aAttr : TRandomAttribute) (sLength : Nat)
    (random : Nat → UInt8) (test : Nat → Bool) : Leaving Progress := do
  let self ← self.randomizeL aBits aAttr random
  let (self, foundProbablePrime) ← self.smallPrimeRandomizeL
  if foundProbablePrime then return .found self
  else (self.setBit 0).searchL aBits sLength test

/-- `RInteger::NewPrimeL` and `TInteger::PrimeRandomizeL`, as far as they have come after a number
of draws. -/
def newPrimeL (aBits : UInt32) (aAttr : TRandomAttribute) (random : Nat → Nat → UInt8)
    (test : Nat → Nat → Bool) : Nat → Leaving Progress
  | 0 => .ok (.searching (cleanNewL (BitsToWords aBits)) (initialLength aBits))
  | draws + 1 => do
    match ← newPrimeL aBits aAttr random test draws with
    | .found self => return .found self
    | .searching self sLength =>
      self.drawPrimeL aBits aAttr sLength (random draws) (test draws)

end TInteger

/-! ### The sieve -/

section

variable {S : List Bool} {x p sLength : Nat}

/-- The first number of the sieve that the prime divides. -/
theorem FindSmallestIndex_dvd (hp : p % 2 = 1) : p ∣ x + 2 * FindSmallestIndex p (x % p) := by
  have hlt := mod_lt x (show 0 < p by omega)
  have hdiv := div_add_mod x p
  unfold FindSmallestIndex
  by_cases hzero : x % p = 0
  · rw [if_neg (fun hne => hne hzero)]
    exact dvd_of_mod_eq_zero hzero
  · rw [if_pos hzero]
    simp only
    by_cases hodd : (p - x % p) % 2 = 1
    · rw [if_pos hodd]
      refine ⟨x / p + 2, ?_⟩
      rw [Nat.mul_add]
      omega
    · rw [if_neg hodd]
      refine ⟨x / p + 1, ?_⟩
      rw [Nat.mul_add, Nat.mul_one]
      omega

/-- What is set in the sieve is below its end, and not the bit of a candidate. -/
def Sieved (x sLength : Nat) (S : List Bool) : Prop :=
  ∀ j, S[j]? = some true → j < sLength ∧ ¬TInteger.NoSmallDivisor (x + 2 * j)

theorem EliminateComposites_spec (hp : p ∈ KPrimeTable.drop 1) (hlen : sLength ≤ S.length)
    {r j : Nat} (hrounds : sLength ≤ j + r) (hdvd : p ∣ x + 2 * j) (hS : Sieved x sLength S) :
    ∃ S', EliminateComposites p sLength (r + 1) S j = .ok S' ∧ S'.length = S.length ∧
      Sieved x sLength S' := by
  have hpos : 0 < p := (mem_KPrimeTable.mp (mem_of_mem_drop hp)).2.pos
  induction r generalizing S j with
  | zero =>
      rw [EliminateComposites, if_neg (by omega)]
      exact ⟨S, rfl, rfl, hS⟩
  | succ r ih =>
      rw [EliminateComposites]
      by_cases hj : j < sLength
      · have hset : Sieved x sLength (S.set j true) := by
          intro i hi
          by_cases hsame : j = i
          · subst hsame
            exact ⟨hj, fun hno => hno p hp hdvd⟩
          · rw [getElem?_set_ne hsame] at hi
            exact hS i hi
        rw [if_pos hj, ArraySetBit, if_pos (by omega), ok_bind]
        obtain ⟨S', hS', hlen', hsieved⟩ := ih (S := S.set j true) (j := j + p)
          (by rw [length_set]; exact hlen) (by omega)
          (by rw [Nat.mul_add, ← Nat.add_assoc]; exact hdvd.add (Dvd.intro_left 2 rfl)) hset
        exact ⟨S', hS', hlen'.trans (length_set ..), hsieved⟩
      · rw [if_neg hj]
        exact ⟨S, rfl, rfl, hS⟩

/-- **The sieve** takes no candidate out. -/
theorem sieve_spec {self : TInteger} {primes : List Nat}
    (hprimes : ∀ p ∈ primes, p ∈ KPrimeTable.drop 1 ∧ p % 2 = 1) (hlen : sLength ≤ S.length)
    (hS : Sieved self.magnitude sLength S) :
    ∃ S', sieve self sLength primes S = .ok S' ∧ S'.length = S.length ∧
      Sieved self.magnitude sLength S' := by
  induction primes generalizing S with
  | nil => exact ⟨S, rfl, rfl, hS⟩
  | cons p primes ih =>
      obtain ⟨hp, hodd⟩ := hprimes p mem_cons_self
      have hdvd := @FindSmallestIndex_dvd self.magnitude p hodd
      rw [← modulo_eq] at hdvd
      obtain ⟨S1, hS1, hlen1, hsieved1⟩ := EliminateComposites_spec (r := sLength) hp hlen
        (Nat.le_add_left _ _) hdvd hS
      obtain ⟨S2, hS2, hlen2, hsieved2⟩ := ih (fun q hq => hprimes q (mem_cons_of_mem p hq))
        (by omega) hsieved1
      rw [sieve, hS1, ok_bind]
      exact ⟨S2, hS2, hlen2.trans hlen1, hsieved2⟩

theorem KPrimeTable_odd : ∀ p ∈ KPrimeTable.drop 1, p ∈ KPrimeTable.drop 1 ∧ p % 2 = 1 := by
  intro p hp
  refine ⟨hp, ?_⟩
  have hprime := (mem_KPrimeTable.mp (mem_of_mem_drop hp)).2
  rw [KPrimeTable_eq, drop_one, tail_cons, mem_filter, mem_range'] at hp
  obtain ⟨⟨i, -, rfl⟩, -⟩ := hp
  exact hprime.eq_two_or_odd.resolve_left (by omega)

/-! ### The candidates -/

/-- The first bit that is not set, if there is one among those that are searched. -/
theorem FindFirstPrimeCandidate_cases (S : List Bool) (sLength : Nat)
    (hlen : searched sLength ≤ S.length) :
    (FindFirstPrimeCandidate S sLength = none ∧
        ∀ i < searched sLength, S[i]? = some true) ∨
      ∃ j, FindFirstPrimeCandidate S sLength = some j ∧ j < searched sLength ∧
        S[j]? = some false ∧ ∀ i < j, S[i]? = some true := by
  unfold FindFirstPrimeCandidate
  generalize searched sLength = W at *
  have htake : ∀ i < W, (S.take W)[i]? = S[i]? := fun i hi => getElem?_take_of_lt hi
  have hsome : ∀ i < W, S[i]? ≠ some false → S[i]? = some true := by
    intro i hi hne
    rw [getElem?_eq_getElem (by omega)] at hne ⊢
    cases hbit : S[i] with
    | true => rfl
    | false => exact absurd (congrArg some hbit) hne
  cases hfind : (S.take W).findIdx? (· = false) with
  | none =>
      left
      refine ⟨rfl, fun i hi => hsome i hi fun hfalse => ?_⟩
      have hall := findIdx?_eq_none_iff.mp hfind false
        (mem_of_getElem? ((htake i hi).trans hfalse))
      exact absurd hall (by decide)
  | some j =>
      right
      obtain ⟨hj, hbit, hbefore⟩ := findIdx?_eq_some_iff_getElem.mp hfind
      have hjW : j < W := by
        rw [length_take] at hj
        omega
      refine ⟨j, rfl, hjW, ?_, fun i hi => hsome i (by omega) fun hfalse => ?_⟩
      · rw [← htake j hjW, getElem?_eq_getElem hj]
        exact congrArg some (of_decide_eq_true hbit)
      · have hnot := hbefore i hi
        have hi' := (htake i (by omega)).trans hfalse
        rw [getElem?_eq_getElem (by rw [length_take]; omega)] at hi'
        exact hnot (decide_eq_true (Option.some.inj hi'))

/-- The search stays below `room`: either there are no bits beyond, or a candidate that passes the
test comes before them. -/
def StaysBelow (S : List Bool) (test : Nat → Bool) (x W room : Nat) : Prop :=
  W ≤ room ∨ ∃ j, j < room ∧ j < W ∧ S[j]? = some false ∧ test (x + 2 * j) = true

/-- **The candidates that are tried** are below the bound.  `n` is how many of the bits have been
gone through, all of which are set. -/
theorem tryCandidates_spec {test : Nat → Bool} {room bits : Nat} {y : TInteger}
    (hself : y.isNegative = false) (hfits : 2 ^ bits ≤ (2 ^ 32) ^ y.size)
    (hroom : ∀ j < room, x + 2 * j < 2 ^ bits) (hW : searched sLength < 2 ^ 31)
    (hlen : searched sLength ≤ S.length) {r k n : Nat}
    (hpos : 0 < r) (hrounds : searched sLength < n + r) (hprev : k ≤ n)
    (hset : ∀ i < n, i < searched sLength → S[i]? = some true)
    (hmagnitude : y.magnitude = x + 2 * k) (hlt : y.magnitude < 2 ^ bits)
    (hbelow : StaysBelow S test x (searched sLength) room) :
    ∃ z found, tryCandidates test sLength r S y k = .ok (z, found) ∧
      z.isNegative = false ∧ z.size = y.size ∧ x ≤ z.magnitude ∧ z.magnitude < 2 ^ bits := by
  induction r generalizing S y k n with
  | zero => omega
  | succ r ih =>
      rw [tryCandidates]
      rcases FindFirstPrimeCandidate_cases S sLength hlen with
        ⟨hnone, -⟩ | ⟨j, hsome, hjW, hbit, hbefore⟩
      · rw [hnone]
        exact ⟨y, false, rfl, hself, rfl, by omega, hlt⟩
      · have hn : n ≤ j := by
          by_contra hless
          have htrue := hset j (by omega) hjW
          rw [hbit] at htrue
          cases htrue
        -- the first candidate is not behind the one that passes the test
        have hjroom : j < room := by
          rcases hbelow with hle | ⟨i, hi, hiW, hifalse, -⟩
          · omega
          · by_contra hge
            have htrue := hbefore i (by omega)
            rw [hifalse] at htrue
            cases htrue
        have hjlt := hroom j hjroom
        have hstep : (ofNat (2 * (j - k))).toNat = 2 * (j - k) := by
          rw [toNat_ofNat', mod_eq_of_lt (by omega)]
        have hnext := magnitude_incrementNoCarry (x := y)
          (n := ofNat (2 * (j - k))) (by rw [hstep, hmagnitude]; omega)
        rw [hstep, hmagnitude, Nat.add_assoc, ← Nat.mul_add, Nat.add_sub_cancel' (by omega)] at hnext
        rw [hsome]
        simp only
        rw [ArraySetBit, if_pos (by omega), ok_bind, hnext]
        by_cases htest : test (x + 2 * j) = true
        · rw [if_pos htest]
          exact ⟨_, true, rfl, hself, size_withWords _ _, by omega, by omega⟩
        · rw [if_neg htest]
          obtain ⟨z, found, hz, hsign, hsize, hle, hless⟩ := ih (S := S.set j true)
            (y := y.incrementNoCarry (ofNat (2 * (j - k)))) (k := j)
            (n := j + 1) hself (by rw [incrementNoCarry, size_withWords]; exact hfits)
            (by rw [length_set]; exact hlen) (by omega) (by omega) (le_succ j)
            (by
              intro i hi hiW
              by_cases hsame : j = i
              · rw [hsame, getElem?_set_self (by omega)]
              · rw [getElem?_set_ne hsame]
                exact hbefore i (by omega))
            hnext (by omega) (by
              rcases hbelow with hle | ⟨i, hi, hiW, hifalse, hitest⟩
              · exact Or.inl hle
              · refine Or.inr ⟨i, hi, hiW, ?_, hitest⟩
                have hne : j ≠ i := by
                  rintro rfl
                  exact htest hitest
                rw [getElem?_set_ne hne]
                exact hifalse)
          exact ⟨z, found, hz, hsign, hsize.trans (size_withWords _ _), hle, hless⟩

end

/-! ### One draw -/

/-- From the odd number `x` on, the search ends below the bound: the words that are searched end
there, or a candidate below the bound passes the test. -/
def SieveFits (bits sLength : Nat) (test : Nat → Bool) (x : Nat) : Prop :=
  let room := (2 ^ bits - x + 1) / 2
  let length := min sLength room
  let window := 32 * ((length + 31) / 32)
  window ≤ room ∨ ∃ j < room, j < window ∧
    (j < length → TInteger.NoSmallDivisor (x + 2 * j)) ∧ test (x + 2 * j) = true

/-- The draw of `x` does not lead beyond the bound, nor behind the cell. -/
def DrawFits (bits sLength : Nat) (test : Nat → Bool) (x : Nat) : Prop :=
  if x ≤ 2 then bits ≤ 64
  else if x ≤ KLastSmallPrimeSquared then
    (∃ q : Nat, q.Prime ∧ x ≤ q ∧ q < KLastSmallPrimeSquared ∧ q < 2 ^ bits) ∨
      (∀ q : Nat, q.Prime → x ≤ q → KLastSmallPrimeSquared < q) ∧
        KLastSmallPrimeSquared + 2 < 2 ^ bits ∧
          SieveFits bits sLength test (KLastSmallPrimeSquared + 2)
  else SieveFits bits sLength test (x / 2 * 2 + 1)

namespace TInteger

/-- What holds before a draw. -/
structure Searching (aBits : UInt32) (x : TInteger) (sLength : Nat) : Prop where
  positive : x.isNegative = false
  size : x.size = RoundupSize (BitsToWords aBits)
  lt : x.magnitude < 2 ^ aBits.toNat
  length : sLength ≤ initialLength aBits

/-- What the search has come to from `least` on. -/
def Advances (aBits : UInt32) (least : Nat) : Progress → Prop
  | .searching self sLength => Searching aBits self sLength
  | .found self => self.isNegative = false ∧ self.size = RoundupSize (BitsToWords aBits) ∧
      least ≤ self.magnitude ∧ self.magnitude < 2 ^ aBits.toNat

section

variable {aBits : UInt32} {self : TInteger} {sLength : Nat} {test : Nat → Bool}

theorem initialLength_cases (aBits : UInt32) :
    initialLength aBits = 512 ∨ initialLength aBits = 1024 := by
  unfold initialLength
  by_cases hmore : aBits > 1024
  · rw [if_pos hmore]
    exact Or.inr rfl
  · rw [if_neg hmore]
    exact Or.inl rfl

/-- The sieve has as many bits as it is long at first. -/
theorem sieveBits_eq (aBits : UInt32) :
    WORD_BITS * RoundupSize (BitsToWords (ofNat (initialLength aBits))) =
      initialLength aBits := by
  rcases initialLength_cases aBits with h512 | h1024
  · rw [h512]
    decide
  · rw [h1024]
    decide

theorem searched_eq (h : sLength ≤ initialLength aBits) :
    searched sLength = 32 * ((sLength + 31) / 32) ∧ searched sLength ≤ initialLength aBits := by
  have hcases := initialLength_cases aBits
  have hword : (ofNat sLength).toNat = sLength := by
    rw [toNat_ofNat', mod_eq_of_lt (by omega)]
  have hsearched : searched sLength = 32 * ((sLength + 31) / 32) := by
    unfold searched
    rw [BitsToWords_eq (by rw [hword]; omega), hword]
    rfl
  exact ⟨hsearched, by omega⟩

section

variable (hbits : aBits.toNat + 31 < 2 ^ 32)
include hbits

/-- `max` -/
theorem bound_spec :
    (bound aBits).isNegative = false ∧ (bound aBits).magnitude = 2 ^ aBits.toNat := by
  have hwords := BitsToWords_eq hbits
  have hround := (RoundupSize_least (BitsToWords aBits + 1)).le
  refine ⟨isNegative_setBit _, ?_⟩
  unfold bound
  rw [magnitude_setBit (by rw [size_cleanNewL]; omega), magnitude_cleanNewL, zero_or]

/-- The bits of the numbers below the bound. -/
theorem pow_le_cell (hsize : self.size = RoundupSize (BitsToWords aBits)) :
    2 ^ aBits.toNat ≤ (2 ^ 32) ^ self.size := by
  have hwords := BitsToWords_eq hbits
  have hround := (RoundupSize_least (BitsToWords aBits)).le
  rw [← pow_mul]
  exact Nat.pow_le_pow_right (by decide) (by omega)

/-- How many odd numbers there are below the bound. -/
theorem room_spec (h : Searching aBits self sLength) :
    ∃ temp : TInteger, (do
        let temp ← (bound aBits).minusL self
        let temp ← temp.increment
        temp.shiftRight 1) = .ok temp ∧ temp.isNegative = false ∧
      temp.magnitude = (2 ^ aBits.toNat - self.magnitude + 1) / 2 := by
  obtain ⟨hpositive, hbound⟩ := bound_spec hbits
  have hlt := h.lt
  have hvalue : ((bound aBits).toInt - self.toInt) = (2 ^ aBits.toNat - self.magnitude : Nat) := by
    rw [toInt_of_positive hpositive, toInt_of_positive h.positive, hbound, Int.natCast_sub hlt.le]
  obtain ⟨diff, hdiff, hd⟩ := minusL_makes (x := bound aBits)
    (fun hneg => absurd (hpositive.symm.trans hneg) (by decide)) self
  rw [hvalue] at hd
  obtain ⟨next, hnext, hn⟩ := (increment_makes_iff hd.wellSigned).mpr fun hminus => by
    have hz := hd.toInt
    omega
  have hnInt : next.IsInt (2 ^ aBits.toNat - self.magnitude + 1 : Nat) :=
    ⟨hn.toInt.trans (by rw [hd.toInt]; push_cast; rfl), hn.wellSigned⟩
  obtain ⟨temp, htemp, ht⟩ := shiftRight_makes next 1
  have htInt : temp.IsInt ((2 ^ aBits.toNat - self.magnitude + 1) / 2 : Nat) := by
    refine ⟨ht.toInt.trans ?_, ht.wellSigned⟩
    rw [hnInt.toInt, Int.tdiv_eq_ediv_of_nonneg (Int.natCast_nonneg _)]
    rfl
  refine ⟨temp, ?_, htInt.notNegative (Int.natCast_nonneg _), htInt.magnitude⟩
  rw [hdiff, ok_bind, hnext, ok_bind]
  exact htemp

/-- **The search from an odd number on.** -/
theorem searchL_spec (htwo : 2 ≤ aBits.toNat) (h : Searching aBits self sLength)
    (hodd : self.magnitude % 2 = 1) (hfits : SieveFits aBits.toNat sLength test self.magnitude) :
    ∃ progress, self.searchL aBits sLength test = .ok progress ∧
      Advances aBits self.magnitude progress := by
  obtain ⟨temp, htemp, htempSign, htempValue⟩ := room_spec hbits h
  have hcases := initialLength_cases aBits
  have hlength := h.length
  have hlt := h.lt
  generalize hroom : (2 ^ aBits.toNat - self.magnitude + 1) / 2 = room at htempValue
  -- the length is cut to what there is room for
  have hcut : (if temp.signedCompareInt sLength < 0 then temp.convertToUnsignedLong else sLength) =
      min sLength room := by
    have hcompare := signedCompareInt_lt htempSign (n := sLength) (by omega)
    rw [htempValue] at hcompare
    by_cases hless : room < sLength
    · rw [if_pos (hcompare.mpr hless), convertToUnsignedLong_eq (by omega), htempValue,
        Nat.min_eq_right hless.le]
    · rw [if_neg (mt hcompare.mp hless), Nat.min_eq_left (Nat.not_lt.mp hless)]
  have hmin : min sLength room ≤ initialLength aBits := (Nat.min_le_left _ _).trans hlength
  obtain ⟨hwindow, hwindowLe⟩ := searched_eq hmin
  have heven : 2 ^ aBits.toNat % 2 = 0 := by
    have hsucc : aBits.toNat = aBits.toNat - 1 + 1 := by omega
    rw [hsucc, pow_succ, mul_mod_left]
  have hbelow : ∀ j < room, self.magnitude + 2 * j < 2 ^ aBits.toNat := by
    intro j hj
    omega
  have hempty : Sieved self.magnitude (min sLength room)
      (replicate (initialLength aBits) false) := by
    intro j hj
    have hmem := mem_of_getElem? hj
    rw [mem_replicate] at hmem
    exact absurd hmem.2 (by decide)
  obtain ⟨S, hS, hSlen, hsieved⟩ := sieve_spec KPrimeTable_odd
    (by rw [length_replicate]; exact hmin) hempty
  rw [length_replicate] at hSlen
  have hstays : StaysBelow S test self.magnitude (searched (min sLength room)) room := by
    unfold SieveFits at hfits
    simp only at hfits
    rw [hroom, ← hwindow] at hfits
    rcases hfits with hle | ⟨j, hj, hjW, hno, htest⟩
    · exact Or.inl hle
    · refine Or.inr ⟨j, hj, hjW, ?_, htest⟩
      cases hbit : S[j]? with
      | none =>
        have hout := List.getElem?_eq_none_iff.mp hbit
        omega
      | some b =>
        cases b with
        | false => rfl
        | true =>
          obtain ⟨hless, hdivisor⟩ := hsieved j hbit
          exact absurd (hno hless) hdivisor
  obtain ⟨z, found, hz, hsign, hsize, hle, hless⟩ := tryCandidates_spec
    (x := self.magnitude) (S := S) (r := initialLength aBits + 1) (k := 0) (n := 0) h.positive (pow_le_cell hbits h.size) hbelow (by omega) (by omega)
    (succ_pos _) (by omega) (Nat.le_refl 0) (fun i hi => absurd hi (Nat.not_lt_zero i))
    (Nat.add_zero _).symm hlt hstays
  have hresult : self.searchL aBits sLength test =
      .ok (if found then .found z else .searching z (min sLength room)) := by
    have hsearch : self.searchL aBits sLength test = (do
        let temp ← (do
          let temp ← (bound aBits).minusL self
          let temp ← temp.increment
          temp.shiftRight 1)
        let S ← OsSecurity.sieve self
          (if temp.signedCompareInt sLength < 0 then temp.convertToUnsignedLong else sLength)
          (KPrimeTable.drop 1) (replicate (initialLength aBits) false)
        let (self, found) ← tryCandidates test
          (if temp.signedCompareInt sLength < 0 then temp.convertToUnsignedLong else sLength)
          (initialLength aBits + 1) S self 0
        return if found then .found self else .searching self
          (if temp.signedCompareInt sLength < 0 then temp.convertToUnsignedLong else sLength)) := by
      unfold searchL
      rw [sieveBits_eq]
      simp only [bind_assoc]
    rw [hsearch, htemp, ok_bind, hcut, hS, ok_bind, hz, ok_bind]
    rfl
  rw [hresult]
  refine ⟨_, rfl, ?_⟩
  cases found with
  | true => exact ⟨hsign, hsize.trans h.size, hle, hless⟩
  | false => exact ⟨hsign, hsize.trans h.size, hless, hmin⟩

end

variable {aAttr : TRandomAttribute}

theorem size_least {n : Nat} (h : n ≤ 2) : RoundupSize n = 2 := by
  have hall : ∀ n ≤ 2, RoundupSize n = 2 := by decide
  exact hall n h

/-- What the search for small primes has left to the other one. -/
theorem searchL_odd (hbits : aBits.toNat + 31 < 2 ^ 32) (htwo : 2 ≤ aBits.toNat)
    (h : Searching aBits self sLength) {n : Nat} (hn : n = self.magnitude / 2 * 2 + 1)
    (hfits : SieveFits aBits.toNat sLength test n) :
    ∃ progress, (self.setBit 0).searchL aBits sLength test = .ok progress ∧
      Advances aBits self.magnitude progress := by
  have hlt := h.lt
  have heven : 2 ^ aBits.toNat % 2 = 0 := by
    have hsucc : aBits.toNat = aBits.toNat - 1 + 1 := by omega
    rw [hsucc, pow_succ, mul_mod_left]
  have hodd := magnitude_setBit_zero self
  have hnext : Searching aBits (self.setBit 0) sLength :=
    ⟨(isNegative_setBit 0).trans h.positive, (size_setBit 0).trans h.size, by omega, h.length⟩
  rw [hn, ← hodd] at hfits
  obtain ⟨progress, heq, hadvances⟩ := searchL_spec hbits htwo hnext (by omega) hfits
  refine ⟨progress, heq, ?_⟩
  cases progress with
  | searching z s => exact hadvances
  | found z =>
      obtain ⟨hsign, hsize, hle, hless⟩ := hadvances
      exact ⟨hsign, hsize, by omega, hless⟩

/-- **One draw that fits.** -/
theorem drawPrimeL_spec (hbits : aBits.toNat + 31 < 2 ^ 32) (htwo : 2 ≤ aBits.toNat)
    (h : Searching aBits self sLength) {random : Nat → UInt8}
    (hfits : DrawFits aBits.toNat sLength test (drawn aBits.toNat aAttr random)) :
    ∃ progress, self.drawPrimeL aBits aAttr sLength random test = .ok progress ∧
      Advances aBits (drawn aBits.toNat aAttr random) progress := by
  have hrandom : ∃ z, self.randomizeL aBits aAttr random = .ok z ∧ z.isNegative = false ∧
      z.size = self.size ∧ z.magnitude = drawn aBits.toNat aAttr random :=
    randomizeL_spec htwo hbits h.positive h.size.ge h.lt
  obtain ⟨x, hx, hsign, hsize, hmagnitude⟩ := hrandom
  have hlt : drawn aBits.toNat aAttr random < 2 ^ aBits.toNat := drawn_lt htwo
  have hpow : 2 ^ 2 ≤ 2 ^ aBits.toNat := Nat.pow_le_pow_right (by decide) htwo
  rw [← hmagnitude] at hfits hlt ⊢
  have hsearching : Searching aBits x sLength := ⟨hsign, hsize.trans h.size, hlt, h.length⟩
  unfold DrawFits at hfits
  unfold drawPrimeL
  rw [hx, ok_bind]
  by_cases hleast : x.magnitude ≤ 2
  · rw [if_pos hleast] at hfits
    have hcell : x.size = 2 := by
      rw [hsearching.size]
      exact size_least (by rw [BitsToWords_eq hbits]; omega)
    obtain ⟨z, hz, hzsign, hzsize, hzvalue⟩ := smallPrimeRandomizeL_two hsign hleast hcell
    rw [hz]
    refine ⟨_, rfl, hzsign, ?_, by omega, by omega⟩
    rw [hzsize, ← hcell, hsearching.size]
  rw [if_neg hleast] at hfits
  by_cases hsquare : x.magnitude ≤ KLastSmallPrimeSquared
  · rw [if_pos hsquare] at hfits
    by_cases htable : x.magnitude ≤ KLastSmallPrime
    · obtain ⟨z, hz, hzsign, hzsize, hprime, hle, hall⟩ :=
        smallPrimeRandomizeL_table hsign (Nat.not_le.mp hleast) htable
      have hbelow : z.magnitude < 2 ^ aBits.toNat := by
        rcases hfits with ⟨q, hq, hxq, -, hqlt⟩ | ⟨hnone, -⟩
        · exact (hall q hq hxq).trans_lt hqlt
        · have hlast := hnone _ KLastSmallPrime_prime htable
          exact absurd hlast (by decide)
      rw [hz]
      exact ⟨_, rfl, hzsign, hzsize.trans hsearching.size, hle, hbelow⟩
    · obtain ⟨z, hz, hzsign, hzsize, hle, hprime, hmost, hne, hodd, hall⟩ :=
        smallPrimeRandomizeL_square hsign (Nat.not_le.mp htable) hsquare
      rw [hz, ok_bind]
      simp only
      by_cases hfound : z.magnitude < KLastSmallPrimeSquared
      · rw [decide_eq_true hfound, if_pos rfl]
        refine ⟨_, rfl, hzsign, hzsize.trans hsearching.size, hle, ?_⟩
        rcases hfits with ⟨q, hq, hxq, -, hqlt⟩ | ⟨hnone, -⟩
        · exact (hall q hq hxq).trans_lt hqlt
        · have hbeyond := hnone _ (hprime hfound) hle
          omega
      · rw [decide_eq_false hfound, if_neg (by decide)]
        have hvalue : z.magnitude = KLastSmallPrimeSquared + 2 := by
          have hsquareOdd : KLastSmallPrimeSquared % 2 = 1 := by decide
          omega
        rcases hfits with ⟨q, hq, hxq, hqlt, -⟩ | ⟨-, hroom, hsieve⟩
        · have hzq := hall q hq hxq
          omega
        · have hbehind : Searching aBits z sLength :=
            ⟨hzsign, hzsize.trans hsearching.size, by omega, h.length⟩
          obtain ⟨progress, heq, hadvances⟩ := searchL_odd hbits htwo hbehind (by omega) hsieve
          refine ⟨progress, heq, ?_⟩
          cases progress with
          | searching y s => exact hadvances
          | found y =>
            obtain ⟨hysign, hysize, hyle, hylt⟩ := hadvances
            exact ⟨hysign, hysize, hle.trans hyle, hylt⟩
  · rw [if_neg hsquare] at hfits
    rw [smallPrimeRandomizeL_large hsign (Nat.not_le.mp hsquare), ok_bind]
    exact searchL_odd hbits htwo hsearching rfl hfits

/-- So many bits that rounding them up to words wraps: the first draw panics. -/
theorem randomizeL_wrapped (hbits : 2 ^ 32 ≤ aBits.toNat + 31) {random : Nat → UInt8}
    {x : TInteger} (hsize : x.size = 2) : x.randomizeL aBits aAttr random = panic := by
  have hlt := aBits.toNat_lt
  have hne : aBits ≠ 0 := by
    rintro rfl
    exact absurd hbits (by decide)
  have hgrown : x.cleanGrowL (BitsToWords aBits) = x := by
    unfold cleanGrowL
    rw [BitsToWords_wrapped hbits, dif_neg (by rw [size_least (by decide)]; omega)]
  have hsum : (aBits + 7).toNat = (aBits.toNat + 7) % 2 ^ 32 := UInt32.toNat_add aBits 7
  have hbytes : BitsToBytes aBits = (aBits.toNat + 7) % 2 ^ 32 / 8 := by
    unfold BitsToBytes
    rw [UInt32.toNat_div, hsum]
    rfl
  unfold randomizeL
  rw [if_neg hne]
  simp only [hgrown]
  by_cases hmany : BitsToBytes aBits > WORD_SIZE * x.size
  · rw [if_pos hmany]
  · have hnone : aBits.toNat % BYTE_BITS ≠ 0 ∧ BitsToBytes aBits = 0 := by
      change ¬4 * x.size < BitsToBytes aBits at hmany
      show aBits.toNat % 8 ≠ 0 ∧ _
      omega
    rw [if_neg hmany, if_pos hnone]

end

/-- The prime is below the bound, and has the top bits that were asked for. -/
def HasBits (p : TInteger) (bits : Nat) (aAttr : TRandomAttribute) : Prop :=
  p.toInt < 2 ^ bits ∧ (aAttr ≠ .EAllBitsRandom → p.bit (bits - 1) = true) ∧
    (aAttr = .ETop2BitsSet → p.bit (bits - 2) = true)

theorem bit_eq (x : TInteger) (n : Nat) : x.bit n = x.magnitude.testBit n := by
  show _ = (value x.words).testBit n
  rw [value_testBit]
  unfold bit
  by_cases hpast : n / WORD_BITS ≥ x.size
  · have hout : x.words.length ≤ n / 32 := hpast
    rw [if_pos hpast, getD_eq_default _ _ hout]
    simp
  · rw [if_neg hpast]
    rfl

/-- A number below a power of two, and not below the half of it. -/
theorem testBit_top {n bits : Nat} (hpos : 0 < bits) (hle : 2 ^ (bits - 1) ≤ n)
    (hlt : n < 2 ^ bits) : n.testBit (bits - 1) = true := by
  have hsucc : 2 ^ bits = 2 ^ (bits - 1) * 2 := by
    rw [← pow_succ]
    congr 1
    omega
  have hone : n / 2 ^ (bits - 1) = 1 :=
    Nat.div_eq_of_lt_le (by rwa [Nat.one_mul]) (by rw [hsucc] at hlt; omega)
  rw [testBit_eq_decide_div_mod_eq, hone]
  rfl

theorem hasBits_of_le {p : TInteger} {bits : Nat} {aAttr : TRandomAttribute} (htwo : 2 ≤ bits)
    (hp : p.isNegative = false) (hle : leastDrawn bits aAttr ≤ p.magnitude)
    (hlt : p.magnitude < 2 ^ bits) : HasBits p bits aAttr := by
  have hsucc : 2 ^ bits = 2 ^ (bits - 1) * 2 := by
    rw [← pow_succ]
    congr 1
    omega
  refine ⟨?_, fun hset => ?_, fun hset => ?_⟩
  · rw [toInt_of_positive hp]
    exact_mod_cast hlt
  · rw [bit_eq]
    refine testBit_top (by omega) ?_ hlt
    cases aAttr with
    | EAllBitsRandom => exact absurd rfl hset
    | ETopBitSet => exact hle
    | ETop2BitsSet => exact (Nat.le_add_right _ _).trans hle
  · subst hset
    change 2 ^ (bits - 1) + 2 ^ (bits - 2) ≤ p.magnitude at hle
    have htop : 2 ^ (bits - 1) = 2 ^ (bits - 2) * 2 := by
      rw [← pow_succ]
      congr 1
      omega
    have hthree : p.magnitude / 2 ^ (bits - 2) = 3 :=
      Nat.div_eq_of_lt_le (by omega) (by omega)
    rw [bit_eq, testBit_eq_decide_div_mod_eq, hthree]
    rfl

section

variable {aBits : UInt32} {aAttr : TRandomAttribute} {random : Nat → Nat → UInt8}
  {test : Nat → Nat → Bool}

/-- What holds after a number of draws that all fit. -/
theorem newPrimeL_advances (htwo : 2 ≤ aBits.toNat) (hbits : aBits.toNat + 31 < 2 ^ 32) (draws : Nat)
    (hfits : ∀ i < draws, ∀ self sLength,
      newPrimeL aBits aAttr random test i = .ok (.searching self sLength) →
        DrawFits aBits.toNat sLength (test i) (drawn aBits.toNat aAttr (random i))) :
    ∃ progress, newPrimeL aBits aAttr random test draws = .ok progress ∧
      Advances aBits (leastDrawn aBits.toNat aAttr) progress := by
  induction draws with
  | zero =>
      refine ⟨_, rfl, rfl, size_cleanNewL _, ?_, Nat.le_refl _⟩
      rw [magnitude_cleanNewL]
      exact Nat.two_pow_pos _
  | succ draws ih =>
      obtain ⟨progress, heq, hadvances⟩ := ih fun i hi => hfits i (lt_succ_of_lt hi)
      rw [newPrimeL, heq, ok_bind]
      cases progress with
      | found p => exact ⟨_, rfl, hadvances⟩
      | searching self sLength =>
        obtain ⟨next, hnext, hdraw⟩ := drawPrimeL_spec hbits htwo hadvances
          (hfits draws (lt_succ_self draws) self sLength heq)
        refine ⟨next, hnext, ?_⟩
        cases next with
        | searching z s => exact hdraw
        | found z =>
          obtain ⟨hsign, hsize, hle, hlt⟩ := hdraw
          exact ⟨hsign, hsize, (leastDrawn_le htwo).trans hle, hlt⟩

theorem newPrimeL_wrapped (hbits : 2 ^ 32 ≤ aBits.toNat + 31) (draws : Nat) :
    newPrimeL aBits aAttr random test (draws + 1) = panic := by
  induction draws with
  | zero =>
      have hcell : (cleanNewL (BitsToWords aBits)).size = 2 := by
        rw [BitsToWords_wrapped hbits, size_cleanNewL]
        rfl
      rw [newPrimeL, newPrimeL, ok_bind]
      show drawPrimeL _ _ _ _ _ _ = _
      unfold drawPrimeL
      rw [randomizeL_wrapped hbits hcell]
      rfl
  | succ draws ih =>
      rw [newPrimeL, ih]
      rfl

/-- **Where every draw fits, a prime that is found has the bits that were asked for**, and nothing
is written behind a cell. -/
theorem newPrimeL_hasBits (htwo : 2 ≤ aBits.toNat) (draws : Nat)
    (hfits : ∀ i < draws, ∀ self sLength,
      newPrimeL aBits aAttr random test i = .ok (.searching self sLength) →
        DrawFits aBits.toNat sLength (test i) (drawn aBits.toNat aAttr (random i))) :
    newPrimeL aBits aAttr random test draws ≠ .error .undefined ∧
      ∀ p, newPrimeL aBits aAttr random test draws = .ok (.found p) →
        HasBits p aBits.toNat aAttr := by
  rcases Nat.lt_or_ge (aBits.toNat + 31) (2 ^ 32) with hbits | hwrapped
  · obtain ⟨progress, heq, hadvances⟩ := newPrimeL_advances htwo hbits draws hfits
    rw [heq]
    refine ⟨fun h => (by cases h), fun p hp => ?_⟩
    obtain rfl := Except.ok.inj hp
    obtain ⟨hsign, -, hle, hlt⟩ := hadvances
    exact hasBits_of_le htwo hsign hle hlt
  · cases draws with
    | zero => exact ⟨fun h => (by cases h), fun p hp => (by cases hp)⟩
    | succ draws =>
      rw [newPrimeL_wrapped hwrapped draws]
      exact ⟨fun h => (by cases h), fun p hp => (by cases hp)⟩

end

theorem drawn_five : drawn 4 .EAllBitsRandom (fun _ => 5) = 5 := by decide

/-- Four bits, all of them random, and the draw of five: a prime at once. -/
theorem newPrimeL_hasBits_five :
    newPrimeL 4 .EAllBitsRandom (fun _ _ => 5) (fun _ _ => false) 1 ≠ .error .undefined ∧
      ∀ p, newPrimeL 4 .EAllBitsRandom (fun _ _ => 5) (fun _ _ => false) 1 = .ok (.found p) →
        HasBits p 4 .EAllBitsRandom := by
  apply newPrimeL_hasBits (by decide) 1
  intro i hi self sLength _
  have hfits : DrawFits 4 sLength (fun _ => false) 5 := by
    unfold DrawFits
    rw [if_neg (by decide), if_pos (by decide)]
    exact Or.inl ⟨5, prime_five, Nat.le_refl 5, by decide, by decide⟩
  rw [← drawn_five] at hfits
  exact hfits

theorem drawn_fifteen : drawn 4 .ETopBitSet (fun _ => 15) = 15 := by decide

/-- Four bits with the top bit set, and the draw of fifteen: the next prime is not below 16. -/
theorem not_newPrimeL_hasBits :
    ∃ p, newPrimeL 4 .ETopBitSet (fun _ _ => 15) (fun _ _ => false) 1 = .ok (.found p) ∧
      ¬HasBits p 4 .ETopBitSet := by
  have hrandom : ∃ z, (cleanNewL (BitsToWords 4)).randomizeL 4 .ETopBitSet (fun _ => 15) = .ok z ∧
      z.isNegative = false ∧ z.size = (cleanNewL (BitsToWords 4)).size ∧
        z.magnitude = drawn (4 : UInt32).toNat .ETopBitSet fun _ => 15 :=
    randomizeL_spec (by decide) (by decide) rfl (size_cleanNewL _).ge
      (by rw [magnitude_cleanNewL]; exact Nat.two_pow_pos _)
  obtain ⟨x, hx, hsign, -, hvalue⟩ := hrandom
  have hfifteen : x.magnitude = 15 := hvalue.trans drawn_fifteen
  obtain ⟨z, hz, hzsign, -, hprime, hle, -⟩ := smallPrimeRandomizeL_table hsign (by omega)
    (by rw [hfifteen]; decide)
  refine ⟨z, ?_, ?_⟩
  · rw [newPrimeL, newPrimeL, ok_bind]
    simp only
    unfold drawPrimeL
    rw [hx, ok_bind, hz]
    rfl
  · intro hbits
    have hlt := hbits.1
    rw [toInt_of_positive hzsign] at hlt
    have hless : z.magnitude < 2 ^ 4 := by exact_mod_cast hlt
    have hsame : z.magnitude = 15 := by omega
    rw [hsame] at hprime
    exact absurd hprime (by norm_num)

end TInteger

end OsSecurity

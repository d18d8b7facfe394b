/-
The primes of a DSA key: `softwarecrypto/dsakeypairgenimpl.cpp`, steps 1 to 11 of FIPS 186-2.

A seed fixes `q`, and with a counter it fixes `p`: from the seed on, octet strings are counted
up, and `n + 1` of them are hashed for every counter.  `GeneratePrimesL` tries the counters one
after another, or goes to the one it is given without hashing for those before.  Both count up
for every counter they pass, and that is why the recorded seed and counter give the same primes
again (`search_again`).

SHA-1 and the primality test are parameters.
-/
import OsSecurity.Bigint.Octets
import OsSecurity.Bigint.Shifts

namespace OsSecurity

open List Nat

variable {aL turns aCounter : Nat} {r : Primes} {aQ : TInteger} {seed W : Bytes} {use : Bool}

namespace CDSAKeyPairGenImpl

open TInteger

def KShaSize : Nat := 20
def KMinPrimeLength : Nat := 512
def KMaxPrimeLength : Nat := 1024
def KPrimeLengthMultiple : Nat := 64

def validPrimeLength (aPrimeBits : Nat) : Bool :=
  aPrimeBits ≥ KMinPrimeLength && aPrimeBits ≤ KMaxPrimeLength &&
    aPrimeBits % KPrimeLengthMultiple = 0

/-- What a `TBuf8<KShaSize>` holds after a digest has been copied to it, or random octets. -/
abbrev ShaBuffer := { b : Bytes // b.length = KShaSize }

/-! ### Seeds -/

/-- `++(seed[i])`, from the last octet on while there is a carry. -/
def addCarry : Bytes → Bytes
  | [] => []
  | b :: bs => if b + 1 = 0 then (b + 1) :: addCarry bs else (b + 1) :: bs

/-- `(SEED + 1) mod 2^g` -/
def nextSeed (seed : Bytes) : Bytes := (addCarry seed.reverse).reverse

/-! ### `GeneratePrimesL` -/

/-- The primes, and the counter that `p` was found at. -/
structure Primes where
  aP : TInteger
  aQ : TInteger
  aCounter : Nat

section

variable (sha1 : Bytes → ShaBuffer) (isPrimeL : TInteger → Leaving Bool)

/-- Steps 2 and 3, the two digests given. -/
def formQ (U temp : Bytes) : TInteger :=
  let U := U.zipWith (· ^^^ ·) temp
  let U := U.set 0 (U.getD 0 0 ||| 0x80)
  newDesL (U.set (KShaSize - 1) (U.getD (KShaSize - 1) 0 ||| 1))

/-- Step 7: `Vk` goes in front of those before it.  The pointer that a digest is copied to has
as much room as the seed is long. -/
def fillW (used : Bool) : Nat → Bytes → Bytes → Leaving (Bytes × Bytes)
  | 0, seed, W => .ok (seed, W)
  | turns + 1, seed, W =>
    let seed := nextSeed seed
    if used then
      if seed.length < KShaSize then panic else fillW used turns seed ((sha1 seed).1 ++ W)
    else fillW used turns seed W

/-- Steps 8 and 9. -/
def formP (aQ : TInteger) (aL : Nat) (W : Bytes) : Leaving TInteger := do
  let b := (aL - 1) % 160
  let first := KShaSize - 1 - b / 8
  let W := W.set first (W.getD first 0 ||| 0x80)
  let X := newDesL ((W.drop first).take (aL / 8))
  let twoQ ← aQ.timesL (.other two)
  let c ← X.moduloL twoQ
  let c ← c.decrement
  X.minusL c

/-- Steps 10 and 11. -/
def acceptsP (aL : Nat) (aP : TInteger) : Leaving Bool :=
  if aP.bit (aL - 1) then isPrimeL aP else .ok false

/-- The loop over the counters, from `counter` on. -/
def search (aUseInputCounter : Bool) (aCounter aL : Nat) (aQ : TInteger) :
    Nat → Nat → Bytes → Leaving (Option Primes)
  | 0, _, _ => .ok none
  | turns + 1, counter, seed =>
    if !aUseInputCounter || counter = aCounter then do
      let (seed, W) ← fillW sha1 true ((aL - 1) / 160 + 1) seed []
      let aP ← formP aQ aL W
      let accepted ← acceptsP isPrimeL aL aP
      if accepted then return some ⟨aP, aQ, counter⟩
      else search aUseInputCounter aCounter aL aQ turns (counter + 1) seed
    else do
      let (seed, _) ← fillW sha1 false ((aL - 1) / 160 + 1) seed []
      search aUseInputCounter aCounter aL aQ turns (counter + 1) seed

/-- `GeneratePrimesL`; the counter is a `TUint`. -/
def generatePrimesL (aSeed : Bytes) (aCounter aL : Nat) (aUseInputCounter : Bool) :
    Leaving (Option Primes) :=
  if !validPrimeLength aL then leave KErrNotSupported
  else do
    let seed := nextSeed aSeed
    let aQ := formQ (sha1 aSeed).1 (sha1 seed).1
    let prime ← isPrimeL aQ
    let counterEnd := if aUseInputCounter then (aCounter + 1) % 2 ^ 32 else 4096
    if prime then search sha1 isPrimeL aUseInputCounter aCounter aL aQ counterEnd 0 seed
    else return none

/-- The seeds that `GenerateKeyPairL` draws, and what it records as `CDSAPrimeCertificate`: the
seed and the counter.  `KErrNotSecure` is not an error to it; `c` is what the variable for the
counter holds. -/
def drawPrimesL (draw : Nat → Leaving ShaBuffer) (c aKeySize : Nat) :
    Nat → Nat → Option (Leaving (Bytes × Primes))
  | 0, _ => none
  | fuel + 1, i =>
    match draw i with
    | .error e => some (.error e)
    | .ok seed =>
      match generatePrimesL sha1 isPrimeL seed.1 c aKeySize false with
      | .error e => some (.error e)
      | .ok none => drawPrimesL draw c aKeySize fuel (i + 1)
      | .ok (some primes) => some (.ok (seed.1, primes))

end

/-! ### The search again -/

section

variable {sha1 : Bytes → ShaBuffer} {isPrimeL : TInteger → Leaving Bool}

/-- The octet strings are counted up whether they are hashed or not. -/
theorem fillW_seed {seed' W' : Bytes} (h : fillW sha1 true turns seed W = .ok (seed', W'))
    (V : Bytes) : fillW sha1 false turns seed V = .ok (seed', V) := by
  induction turns generalizing seed W with
  | zero =>
      obtain ⟨rfl, rfl⟩ := Prod.mk.inj (Except.ok.inj h)
      rfl
  | succ turns ih =>
      simp only [fillW, if_true] at h
      by_cases hshort : (nextSeed seed).length < KShaSize
      · rw [if_pos hshort] at h
        cases h
      · rw [if_neg hshort] at h
        exact ih h

theorem fillW_unused (sha1 : Bytes → ShaBuffer) (turns : Nat) (seed V : Bytes) :
    ∃ seed', fillW sha1 false turns seed V = .ok (seed', V) := by
  induction turns generalizing seed with
  | zero => exact ⟨seed, rfl⟩
  | succ turns ih => exact ih (nextSeed seed)

theorem search_used {counter : Nat} (h : (!use || counter = aCounter) = true) :
    search sha1 isPrimeL use aCounter aL aQ (turns + 1) counter seed = .ok (some r) ↔
      ∃ seed' W aP accepted, fillW sha1 true ((aL - 1) / 160 + 1) seed [] = .ok (seed', W) ∧
        formP aQ aL W = .ok aP ∧ acceptsP isPrimeL aL aP = .ok accepted ∧
        if accepted then r = ⟨aP, aQ, counter⟩
        else search sha1 isPrimeL use aCounter aL aQ turns (counter + 1) seed' = .ok (some r) := by
  rw [search, if_pos h]
  constructor
  · intro hsearch
    obtain ⟨⟨seed', W⟩, hW, hsearch⟩ := bind_eq_ok.mp hsearch
    obtain ⟨aP, hP, hsearch⟩ := bind_eq_ok.mp hsearch
    obtain ⟨accepted, haccepted, hsearch⟩ := bind_eq_ok.mp hsearch
    refine ⟨seed', W, aP, accepted, hW, hP, haccepted, ?_⟩
    cases accepted with
    | true => exact (Option.some.inj (Except.ok.inj hsearch)).symm
    | false => exact hsearch
  · rintro ⟨seed', W, aP, accepted, hW, hP, haccepted, hrest⟩
    refine bind_eq_ok.mpr ⟨(seed', W), hW, bind_eq_ok.mpr ⟨aP, hP,
      bind_eq_ok.mpr ⟨accepted, haccepted, ?_⟩⟩⟩
    cases accepted with
    | true =>
      obtain rfl := hrest
      rfl
    | false => exact hrest

/-- **The counter at which a search ends is where a search that is given it ends too.** -/
theorem search_again {counter : Nat}
    (h : search sha1 isPrimeL use aCounter aL aQ turns counter seed = .ok (some r)) :
    counter ≤ r.aCounter ∧ r.aCounter < counter + turns ∧
      (use = true → r.aCounter = aCounter) ∧
      search sha1 isPrimeL true r.aCounter aL aQ (r.aCounter + 1 - counter) counter seed =
        .ok (some r) := by
  induction turns generalizing counter seed with
  | zero => cases h
  | succ turns ih =>
      -- a counter that does not end the search is passed by both
      have hpass : ∀ {seed' : Bytes},
          fillW sha1 false ((aL - 1) / 160 + 1) seed [] = .ok (seed', []) →
          search sha1 isPrimeL use aCounter aL aQ turns (counter + 1) seed' = .ok (some r) →
          counter ≤ r.aCounter ∧ r.aCounter < counter + (turns + 1) ∧
            (use = true → r.aCounter = aCounter) ∧
            search sha1 isPrimeL true r.aCounter aL aQ (r.aCounter + 1 - counter) counter seed =
              .ok (some r) := by
        intro seed' hfill hrest
        obtain ⟨hle, hlt, hsame, hagain⟩ := ih hrest
        refine ⟨by omega, by omega, hsame, ?_⟩
        have hturns : r.aCounter + 1 - counter = (r.aCounter + 1 - (counter + 1)) + 1 := by omega
        have hskip : ¬((!true || decide (counter = r.aCounter)) = true) := by
          rw [decide_eq_false (by omega)]
          decide
        rw [hturns, search, if_neg hskip, hfill]
        exact hagain
      by_cases hused : (!use || counter = aCounter) = true
      · obtain ⟨seed', W, aP, accepted, hW, hP, haccepted, hrest⟩ := (search_used hused).mp h
        cases accepted with
        | true =>
          obtain rfl := hrest
          refine ⟨Nat.le_refl _, by simp, fun huse => ?_, ?_⟩
          · subst huse
            simpa using hused
          · have hone : counter + 1 - counter = 0 + 1 := by omega
            simp only [hone]
            exact (search_used (by simp)).mpr ⟨seed', W, aP, true, hW, hP, haccepted, rfl⟩
        | false => exact hpass (fillW_seed hW []) hrest
      · rw [search, if_neg hused] at h
        obtain ⟨⟨seed', W⟩, hW, hrest⟩ := bind_eq_ok.mp h
        obtain ⟨seed'', hunused⟩ :=
          fillW_unused sha1 ((aL - 1) / 160 + 1) seed []
        obtain ⟨rfl, rfl⟩ := Prod.mk.inj (Except.ok.inj (hW.symm.trans hunused))
        exact hpass hunused hrest

/-! ### The sizes of the primes -/

/-- A string whose first octet has its top bit set. -/
theorem value_top (bs : Bytes) {b : UInt8} (hb : 128 ≤ b.toNat) :
    2 ^ (8 * bs.length + 7) ≤ Der.value (b :: bs) ∧
      Der.value (b :: bs) < 2 ^ (8 * bs.length + 8) := by
  have hpow : ∀ n : Nat, (256 : Nat) ^ n = 2 ^ (8 * n) := fun n => by
    rw [pow_mul]
    rfl
  have hlt := Der.value_lt (b :: bs)
  rw [length_cons, hpow] at hlt
  constructor
  · calc 2 ^ (8 * bs.length + 7) = 128 * 2 ^ (8 * bs.length) := by rw [pow_add, Nat.mul_comm]; rfl
      _ ≤ b.toNat * 2 ^ (8 * bs.length) := Nat.mul_le_mul_right _ hb
      _ ≤ Der.value (b :: bs) := by
        rw [Der.value_cons, hpow]
        exact Nat.le_add_right _ _
  · exact hlt

theorem top_set (b : UInt8) : 128 ≤ (b ||| 0x80).toNat := by
  rw [UInt8.toNat_or]
  exact right_le_or

theorem low_set (b : UInt8) : (b ||| 1).toNat % 2 = 1 := by
  rw [UInt8.toNat_or]
  exact or_mod_two_eq_one.mpr (Or.inr rfl)

/-- **`q` has 160 bits and is odd.** -/
theorem formQ_spec (U temp : ShaBuffer) :
    (formQ U.1 temp.1).isNegative = false ∧ 2 ^ 159 ≤ (formQ U.1 temp.1).magnitude ∧
      (formQ U.1 temp.1).magnitude < 2 ^ 160 ∧ (formQ U.1 temp.1).magnitude % 2 = 1 := by
  have hlen : (U.1.zipWith (· ^^^ ·) temp.1).length = 20 := by
    rw [length_zipWith, U.2, temp.2]
    rfl
  unfold formQ
  generalize U.1.zipWith (· ^^^ ·) temp.1 = V at hlen
  cases V with
  | nil => cases hlen
  | cons v vs =>
      have hvs : vs.length = 19 := Nat.succ.inj hlen
      have hset : ∀ x y : UInt8, ((v :: vs).set 0 x).set (KShaSize - 1) y = x :: vs.set 18 y :=
        fun x y => rfl
      have hlast : ∀ x y : UInt8, x :: vs.set 18 y = (x :: vs.take 18) ++ [y] := by
        intro x y
        rw [set_eq_take_append_cons_drop, if_pos (by omega),
          drop_of_length_le (by omega), cons_append]
      simp only
      rw [hset, magnitude_newDesL]
      obtain ⟨hle, hlt⟩ := value_top (vs.set 18 ((((v :: vs).set 0
        ((v :: vs).getD 0 0 ||| 0x80)).getD (KShaSize - 1) 0) ||| 1)) (top_set ((v :: vs).getD 0 0))
      rw [length_set, hvs] at hle hlt
      refine ⟨rfl, hle, hlt, ?_⟩
      have hodd := low_set (((v :: vs).set 0 ((v :: vs).getD 0 0 ||| 0x80)).getD (KShaSize - 1) 0)
      rw [hlast, Der.value_concat]
      omega

theorem fillW_length {seed' W' : Bytes} (h : fillW sha1 true turns seed W = .ok (seed', W')) :
    W'.length = KShaSize * turns + W.length := by
  induction turns generalizing seed W with
  | zero =>
      obtain ⟨rfl, rfl⟩ := Prod.mk.inj (Except.ok.inj h)
      omega
  | succ turns ih =>
      simp only [fillW, if_true] at h
      by_cases hshort : (nextSeed seed).length < KShaSize
      · rw [if_pos hshort] at h
        cases h
      · rw [if_neg hshort] at h
        rw [ih h, length_append, (sha1 (nextSeed seed)).2, mul_succ]
        omega

theorem validPrimeLength_iff : validPrimeLength aL = true ↔ 512 ≤ aL ∧ aL ≤ 1024 ∧ aL % 64 = 0 := by
  unfold validPrimeLength KMinPrimeLength KMaxPrimeLength KPrimeLengthMultiple
  simp only [Bool.and_eq_true, decide_eq_true_eq, ge_iff_le, and_assoc]

/-- `X`, which has `L` bits. -/
theorem value_X (hL : validPrimeLength aL = true)
    (hW : W.length = KShaSize * ((aL - 1) / 160 + 1)) (b : UInt8) :
    2 ^ (aL - 1) ≤ Der.value (((W.set (KShaSize - 1 - (aL - 1) % 160 / 8) (b ||| 0x80)).drop
        (KShaSize - 1 - (aL - 1) % 160 / 8)).take (aL / 8)) ∧
      Der.value (((W.set (KShaSize - 1 - (aL - 1) % 160 / 8) (b ||| 0x80)).drop
        (KShaSize - 1 - (aL - 1) % 160 / 8)).take (aL / 8)) < 2 ^ aL := by
  obtain ⟨hmin, hmax, hmultiple⟩ := validPrimeLength_iff.mp hL
  unfold KShaSize at hW ⊢
  have hfirst : 20 - 1 - (aL - 1) % 160 / 8 < W.length := by omega
  have hcount : aL / 8 = (aL / 8 - 1) + 1 := by omega
  have hdrop : (W.set (20 - 1 - (aL - 1) % 160 / 8) (b ||| 0x80)).drop
      (20 - 1 - (aL - 1) % 160 / 8) =
        (b ||| 0x80) :: W.drop (20 - 1 - (aL - 1) % 160 / 8 + 1) := by
    rw [set_eq_take_append_cons_drop, if_pos hfirst, drop_left' (length_take_of_le hfirst.le)]
  rw [hdrop, hcount, take_succ_cons]
  have hlen : ((W.drop (20 - 1 - (aL - 1) % 160 / 8 + 1)).take (aL / 8 - 1)).length =
      aL / 8 - 1 := by
    rw [length_take_of_le]
    rw [length_drop]
    omega
  obtain ⟨hle, hlt⟩ := value_top ((W.drop (20 - 1 - (aL - 1) % 160 / 8 + 1)).take (aL / 8 - 1))
    (top_set b)
  rw [hlen] at hle hlt
  have hlow : 8 * (aL / 8 - 1) + 7 = aL - 1 := by omega
  have hhigh : 8 * (aL / 8 - 1) + 8 = aL := by omega
  rw [hlow] at hle
  rw [hhigh] at hlt
  exact ⟨hle, hlt⟩

/-- **`p` is the number from `X` down that is one more than a multiple of `2q`.** -/
theorem formP_spec {aP : TInteger} (hL : validPrimeLength aL = true)
    (hW : W.length = KShaSize * ((aL - 1) / 160 + 1)) (hsign : aQ.isNegative = false)
    (hne : aQ.magnitude ≠ 0) (h : formP aQ aL W = .ok aP) :
    ∃ X : Nat, X < 2 ^ aL ∧
      aP.IsInt ((X : Int) - ((X % (aQ.magnitude * 2) : Nat) - 1)) := by
  unfold formP at h
  simp only at h
  obtain ⟨twoQ, htwoQ, h⟩ := bind_eq_ok.mp h
  obtain ⟨c, hc, h⟩ := bind_eq_ok.mp h
  obtain ⟨c', hc', h⟩ := bind_eq_ok.mp h
  obtain ⟨-, hX⟩ := value_X hL hW (W.getD (KShaSize - 1 - (aL - 1) % 160 / 8) 0)
  rw [← magnitude_newDesL] at hX
  generalize hXdef : newDesL (((W.set (KShaSize - 1 - (aL - 1) % 160 / 8)
    (W.getD (KShaSize - 1 - (aL - 1) % 160 / 8) 0 ||| 0x80)).drop
      (KShaSize - 1 - (aL - 1) % 160 / 8)).take (aL / 8)) = X at h hc hX
  have hXsign : X.isNegative = false := by
    rw [← hXdef]
    rfl
  refine ⟨X.magnitude, hX, ?_⟩
  obtain ⟨z, hz, hzint⟩ := timesL_makes aQ (.other two)
  obtain rfl := Except.ok.inj (htwoQ.symm.trans hz)
  have hdouble : twoQ.IsInt (aQ.magnitude * 2 : Nat) := by
    have hproduct : aQ.toInt * (Operand.integer aQ (.other two)).toInt =
        (aQ.magnitude * 2 : Nat) := by
      show aQ.toInt * (ofWord 2).toInt = _
      rw [toInt_of_positive hsign, toInt_ofWord, cast_mul]
      rfl
    rwa [hproduct] at hzint
  obtain ⟨⟨c₀, hc₀, hcint⟩, -⟩ := divideL_makes hXsign
    (hdouble.notNegative (Int.natCast_nonneg _)) (by rw [hdouble.magnitude]; omega)
  obtain rfl := Except.ok.inj (hc.symm.trans hc₀)
  rw [hdouble.magnitude] at hcint
  have hless := decrement_ok hcint.wellSigned hc'
  obtain ⟨p, hp, hpint⟩ := minusL_makes (x := X)
    (fun hneg => absurd (hXsign.symm.trans hneg) (by decide)) c'
  obtain rfl := Except.ok.inj (h.symm.trans hp)
  rwa [toInt_of_positive hXsign, hless.toInt, hcint.toInt] at hpint

/-- From a number of `L` bits down to one more than a multiple of an even number. -/
theorem formed_spec {X m : Nat} (hX : X < 2 ^ aL) (hL : 0 < aL) (heven : m % 2 = 0) :
    1 ≤ (X : Int) - ((X % m : Nat) - 1) ∧ (X : Int) - ((X % m : Nat) - 1) < 2 ^ aL ∧
      (m : Int) ∣ (X : Int) - ((X % m : Nat) - 1) - 1 := by
  have hle := mod_le X m
  have hpow : ((2 ^ aL : Nat) : Int) = 2 ^ aL := by push_cast; rfl
  refine ⟨by omega, ?_, ?_⟩
  · rcases Nat.eq_zero_or_pos (X % m) with hzero | hpos
    · -- an even number below a power of two is not the last one below it
      have htwo : X % 2 = 0 :=
        mod_eq_zero_of_dvd ((dvd_of_mod_eq_zero heven).trans (dvd_of_mod_eq_zero hzero))
      have hpowEven : 2 ^ aL % 2 = 0 := by
        obtain ⟨n, rfl⟩ : ∃ n, aL = n + 1 := ⟨aL - 1, by omega⟩
        rw [pow_succ, mul_mod_left]
      omega
    · omega
  · have hmultiple : (X : Int) - ((X % m : Nat) - 1) - 1 = (m : Int) * (X / m : Nat) := by
      have hsum := div_add_mod X m
      zify at hsum
      push_cast
      omega
    rw [hmultiple]
    exact dvd_mul_right _ _

/-! ### What a certificate of primes promises -/

variable (sha1 isPrimeL) in
/-- The seed and the counter give the primes again, and these have the sizes they should. -/
structure Certified (aSeed : Bytes) (aL : Nat) (primes : Primes) : Prop where
  again : generatePrimesL sha1 isPrimeL aSeed primes.aCounter aL true = .ok (some primes)
  bitsQ : 2 ^ 159 ≤ primes.aQ.toInt ∧ primes.aQ.toInt < 2 ^ 160
  bitsP : 2 ^ (aL - 1) ≤ primes.aP.toInt ∧ primes.aP.toInt < 2 ^ aL
  divides : primes.aQ.toInt ∣ primes.aP.toInt - 1

/-- The primes that a search ends with. -/
theorem search_primes {counter : Nat}
    (h : search sha1 isPrimeL use aCounter aL aQ turns counter seed = .ok (some r)) :
    r.aQ = aQ ∧ ∃ W, W.length = KShaSize * ((aL - 1) / 160 + 1) ∧ formP aQ aL W = .ok r.aP ∧
      r.aP.bit (aL - 1) = true := by
  induction turns generalizing counter seed with
  | zero => cases h
  | succ turns ih =>
      by_cases hused : (!use || counter = aCounter) = true
      · obtain ⟨seed', W, aP, accepted, hW, hP, haccepted, hrest⟩ := (search_used hused).mp h
        cases accepted with
        | true =>
          obtain rfl := hrest
          have hbit : aP.bit (aL - 1) = true := by
            unfold acceptsP at haccepted
            by_contra hclear
            rw [if_neg hclear] at haccepted
            cases haccepted
          exact ⟨rfl, W, (fillW_length hW).trans (Nat.add_zero _), hP, hbit⟩
        | false => exact ih hrest
      · rw [search, if_neg hused] at h
        obtain ⟨⟨seed', W⟩, -, hrest⟩ := bind_eq_ok.mp h
        exact ih hrest

theorem generatePrimesL_some {aSeed : Bytes} :
    generatePrimesL sha1 isPrimeL aSeed aCounter aL use = .ok (some r) ↔
      validPrimeLength aL = true ∧
        isPrimeL (formQ (sha1 aSeed).1 (sha1 (nextSeed aSeed)).1) = .ok true ∧
        search sha1 isPrimeL use aCounter aL (formQ (sha1 aSeed).1 (sha1 (nextSeed aSeed)).1)
          (if use then (aCounter + 1) % 2 ^ 32 else 4096) 0 (nextSeed aSeed) = .ok (some r) := by
  unfold generatePrimesL
  cases hvalid : validPrimeLength aL with
  | false =>
      refine ⟨fun h => ?_, fun h => absurd h.1 (by decide)⟩
      cases h
  | true =>
      simp only [Bool.not_true, Bool.false_eq_true, if_false, true_and]
      constructor
      · intro h
        obtain ⟨prime, hprime, h⟩ := bind_eq_ok.mp h
        cases prime with
        | true => exact ⟨hprime, h⟩
        | false => cases h
      · rintro ⟨hprime, h⟩
        exact bind_eq_ok.mpr ⟨true, hprime, h⟩

theorem certified {aSeed : Bytes}
    (h : generatePrimesL sha1 isPrimeL aSeed aCounter aL use = .ok (some r)) :
    Certified sha1 isPrimeL aSeed aL r := by
  obtain ⟨hvalid, hprime, hsearch⟩ := generatePrimesL_some.mp h
  obtain ⟨hmin, -, -⟩ := validPrimeLength_iff.mp hvalid
  obtain ⟨hsign, hlow, hhigh, -⟩ := formQ_spec (sha1 aSeed) (sha1 (nextSeed aSeed))
  obtain ⟨-, hlt, hsame, hagain⟩ := search_again hsearch
  obtain ⟨hq, W, hW, hP, hbit⟩ := search_primes hsearch
  obtain ⟨X, hX, hint⟩ := formP_spec hvalid hW hsign (by omega) hP
  obtain ⟨hpos, hless, hdivides⟩ := formed_spec (m := (formQ (sha1 aSeed).1
    (sha1 (nextSeed aSeed)).1).magnitude * 2) hX (by omega) (mul_mod_left _ _)
  have hqInt : r.aQ.toInt = ((formQ (sha1 aSeed).1 (sha1 (nextSeed aSeed)).1).magnitude : Int) := by
    rw [hq, toInt_of_positive hsign]
  rw [← hint.toInt] at hpos hless hdivides
  have hpInt : r.aP.toInt = r.aP.magnitude :=
    toInt_of_positive (hint.notNegative (by rw [← hint.toInt]; omega))
  refine ⟨?_, ?_, ⟨?_, hless⟩, ?_⟩
  · have hend : (r.aCounter + 1) % 2 ^ 32 = r.aCounter + 1 := by
      cases use with
      | true =>
        have hcounter := hsame rfl
        rw [if_pos rfl] at hlt
        omega
      | false =>
        rw [if_neg (by decide)] at hlt
        omega
    refine generatePrimesL_some.mpr ⟨hvalid, hprime, ?_⟩
    rw [if_pos rfl, hend]
    exact hagain
  · rw [hqInt]
    exact ⟨by exact_mod_cast hlow, by exact_mod_cast hhigh⟩
  · rw [hpInt]
    exact_mod_cast le_magnitude_of_bit hbit
  · rw [hqInt]
    refine dvd_trans ?_ hdivides
    exact_mod_cast Nat.dvd_mul_right _ 2

/-- **Whatever seeds are drawn, and with whatever seed and counter primes are generated, the
seed and the counter of the primes give them again, and they have the sizes they should.** -/
theorem reproducible (sha1 : Bytes → ShaBuffer) (isPrimeL : TInteger → Leaving Bool) (aL : Nat) :
    (∀ (aSeed : Bytes) (aCounter : Nat) (use : Bool) (primes : Primes),
      generatePrimesL sha1 isPrimeL aSeed aCounter aL use = .ok (some primes) →
        Certified sha1 isPrimeL aSeed aL primes) ∧
    ∀ (draw : Nat → Leaving ShaBuffer) (c fuel i : Nat) (seed : Bytes) (primes : Primes),
      drawPrimesL sha1 isPrimeL draw c aL fuel i = some (.ok (seed, primes)) →
        Certified sha1 isPrimeL seed aL primes := by
  refine ⟨fun aSeed aCounter use primes h => certified h, ?_⟩
  intro draw c fuel i seed primes h
  induction fuel generalizing i with
  | zero => cases h
  | succ fuel ih =>
      unfold drawPrimesL at h
      split at h
      · cases h
      · rename_i drawn hdrawn
        split at h
        · cases h
        · exact ih (i + 1) h
        · rename_i found hfound
          obtain ⟨rfl, rfl⟩ := Prod.mk.inj (Except.ok.inj (Option.some.inj h))
          exact certified hfound

/-- Primes are generated where every digest is all ones and every number passes for a prime. -/
theorem reproducible_ones :
    ∃ primes, generatePrimesL (fun _ => ⟨replicate 20 255, rfl⟩) (fun _ => .ok true)
        (replicate 20 0) 0 512 false = .ok (some primes) ∧
      Certified (fun _ => ⟨replicate 20 255, rfl⟩) (fun _ => .ok true)
        (replicate 20 0) 512 primes := by
  have hfound : (match generatePrimesL (fun _ => ⟨replicate 20 255, rfl⟩) (fun _ => .ok true)
      (replicate 20 0) 0 512 false with
    | .ok (some _) => true
    | _ => false) = true := by decide +kernel
  split at hfound
  · rename_i primes hprimes
    exact ⟨primes, hprimes, (reproducible _ _ 512).1 _ _ _ _ hprimes⟩
  · cases hfound

end

end CDSAKeyPairGenImpl

end OsSecurity

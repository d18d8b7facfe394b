/-
The verification of DSA signatures: `softwarecrypto/dsaverifyimpl.cpp`.

`VerifyL` writes the caller's flag where a number is out of range, and where `v` is `r`.  Where
`v` is another number it does not write it.
-/
import OsSecurity.Bigint.MontgomeryStructure

namespace OsSecurity

open Int TInteger

/-! ### Parameters -/

inductive CCryptoParam where
  | EInt (value : Int)
  | EBigInt (value : TInteger)
  | EDesC8 (value : Bytes)
  | EDesC16 (value : List UInt16)

/-- The parameters with their identifiers. -/
abbrev CCryptoParams := List (Nat × CCryptoParam)

def CCryptoParams.getBigIntL (self : CCryptoParams) (aUid : Nat) : Leaving TInteger :=
  match self.find? fun param => param.1 = aUid with
  | some (_, .EBigInt value) => .ok value
  | _ => leave KErrArgument

def KDsaKeyParameterPUid : Nat := 0x10283197
def KDsaKeyParameterQUid : Nat := 0x10283198
def KDsaKeyParameterGUid : Nat := 0x10283199
def KDsaKeyParameterYUid : Nat := 0x1028319a
def KDsaSignatureParameterRUid : Nat := 0x102831aa
def KDsaSignatureParameterSUid : Nat := 0x102831ab

def TInteger.modularMultiplyL (aA aB aMod : TInteger) : Leaving TInteger := do
  let product ← aA.timesL (.other aB)
  product.moduloL aMod

namespace CDSAVerifierImpl

/-- The steps c) to e). -/
def computeVL (iKey : CCryptoParams) (aInput : Bytes) (tQ tR tS : TInteger) :
    Leaving TInteger := do
  let w ← inverseModL 4 tS tQ
  let hm := newDesL aInput
  let u1 ← modularMultiplyL w hm tQ
  let u2 ← modularMultiplyL tR w tQ
  let tG ← iKey.getBigIntL KDsaKeyParameterGUid
  let tY ← iKey.getBigIntL KDsaKeyParameterYUid
  let tP ← iKey.getBigIntL KDsaKeyParameterPUid
  let temp ← modularExponentiateL tG u1 tP
  let temp1 ← modularExponentiateL tY u2 tP
  let v ← modularMultiplyL temp temp1 tP
  v.moduloL tQ

/-- `VerifyL`: the flag before, and after. -/
def verifyL (iKey : CCryptoParams) (aInput : Bytes) (aSignature : CCryptoParams)
    (aVerificationResult : Bool) : Leaving Bool := do
  let tQ ← iKey.getBigIntL KDsaKeyParameterQUid
  let tR ← aSignature.getBigIntL KDsaSignatureParameterRUid
  let tS ← aSignature.getBigIntL KDsaSignatureParameterSUid
  if tR.signedCompareInt 0 ≤ 0 ∨ tR.signedCompare tQ ≥ 0 then return false
  else if tS.signedCompareInt 0 ≤ 0 ∨ tS.signedCompare tQ ≥ 0 then return false
  else do
    let v ← computeVL iKey aInput tQ tR tS
    return if v.signedCompare tR = 0 then true else aVerificationResult

/-! ### The standard -/

/-- The numbers of a key, and of a signature. -/
structure Numbers where
  p : Int
  q : Int
  g : Int
  y : Int
  r : Int
  s : Int

/-- What is not there is taken as zero. -/
def numberOf (params : CCryptoParams) (aUid : Nat) : Int :=
  match params.getBigIntL aUid with
  | .ok value => value.toInt
  | .error _ => 0

def numbersOf (iKey aSignature : CCryptoParams) : Numbers where
  p := numberOf iKey KDsaKeyParameterPUid
  q := numberOf iKey KDsaKeyParameterQUid
  g := numberOf iKey KDsaKeyParameterGUid
  y := numberOf iKey KDsaKeyParameterYUid
  r := numberOf aSignature KDsaSignatureParameterRUid
  s := numberOf aSignature KDsaSignatureParameterSUid

namespace Numbers

/-- `0 < r < q` and `0 < s < q` -/
def InRange (n : Numbers) : Prop := (0 < n.r ∧ n.r < n.q) ∧ 0 < n.s ∧ n.s < n.q

def u1 (n : Numbers) (h w : Int) : Nat := (h * w % n.q).toNat

def u2 (n : Numbers) (w : Int) : Nat := (n.r * w % n.q).toNat

/-- `v`, of the exponents. -/
def v (n : Numbers) (u1 u2 : Nat) : Int := n.g ^ u1 * n.y ^ u2 % n.p % n.q

/-- The signature of a message with the hash value `h` is accepted. -/
def Accepts (n : Numbers) (h : Int) : Prop :=
  n.InRange ∧ ∃ w, n.s * w ≡ 1 [ZMOD n.q] ∧ n.v (n.u1 h w) (n.u2 w) = n.r

/-- The bits that are taken of the exponents lead to the same answer as all of them. -/
def BitsSuffice (n : Numbers) (h : Int) : Prop :=
  ∀ w, n.s * w ≡ 1 [ZMOD n.q] →
    (n.v (taken (n.u1 h w)) (taken (n.u2 w)) = n.r ↔ n.v (n.u1 h w) (n.u2 w) = n.r)

/-- The flag was true and the signature is accepted, or it was false. -/
def FlagFits (n : Numbers) (h : Int) (initial : Bool) : Prop :=
  n.InRange → if initial then n.Accepts h else n.BitsSuffice h

end Numbers

/-! ### The arithmetic -/

section

variable {a b m : TInteger}

/-- The remainder of positive integers. -/
theorem moduloL_positive (ha : a.isNegative = false) (hm : m.isNegative = false)
    (hne : m.magnitude ≠ 0) :
    ∃ z, a.moduloL m = .ok z ∧ z.isNegative = false ∧
      z.magnitude = a.magnitude % m.magnitude := by
  obtain ⟨r, q, hpositive, hspec⟩ := positiveDivideL_spec (a := a) hne
  have hdivide := divideL_eq hpositive (if_neg (by rw [ha]; decide))
  rw [hm, if_neg (by decide)] at hdivide
  refine ⟨r, ?_, hspec.remainderPositive, hspec.remainder⟩
  unfold moduloL
  rw [hdivide]
  rfl

theorem modularMultiplyL_spec (ha : a.isNegative = false) (hb : b.isNegative = false)
    (hm : m.isNegative = false) (hne : m.magnitude ≠ 0) :
    ∃ z, modularMultiplyL a b m = .ok z ∧ z.isNegative = false ∧
      z.magnitude = a.magnitude * b.magnitude % m.magnitude := by
  obtain ⟨product, hproduct, hint⟩ := timesL_makes a (.other b)
  have hvalue : product.IsInt ((a.magnitude * b.magnitude : Nat) : Int) := by
    have hcast : a.toInt * b.toInt = ((a.magnitude * b.magnitude : Nat) : Int) := by
      rw [toInt_of_positive ha, toInt_of_positive hb, Nat.cast_mul]
    rw [← hcast]
    exact hint
  obtain ⟨z, hz, hsign, hmagnitude⟩ :=
    moduloL_positive (hvalue.notNegative (natCast_nonneg _)) hm hne
  refine ⟨z, ?_, hsign, ?_⟩
  · unfold modularMultiplyL
    rw [hproduct, ok_bind, hz]
  · rw [hmagnitude, hvalue.magnitude]

/-- What is known of a power that has been returned. -/
structure Powered (b e m z : TInteger) : Prop where
  base : b.isNegative = false
  basePositive : b.magnitude ≠ 0
  modulus : m.isNegative = false
  baseLess : b.magnitude < m.magnitude
  exponent : e.isNegative = false
  exponentPositive : e.magnitude ≠ 0
  positive : z.isNegative = false
  value : z.magnitude = b.magnitude ^ taken e.magnitude % m.magnitude

/-- **`ModularExponentiateL`** returns only if the base and the exponent have been found to be
positive, and the base less than the modulus. -/
theorem modularExponentiateL_eq_ok {e z : TInteger} (h : modularExponentiateL b e m = .ok z) :
    Powered b e m z := by
  unfold modularExponentiateL at h
  obtain ⟨mont, hmont, h⟩ := bind_eq_ok.mp h
  obtain ⟨next, hnext, h⟩ := bind_eq_ok.mp h
  obtain rfl := Except.ok.inj ((newL_eq next.iResult).symm.trans h)
  obtain ⟨hvalid, rfl⟩ := CMontgomeryStructure.newL_valid hmont
  have hchecked : ¬(mont.iResult.size ≠ mont.size ∨ b.signedCompare mont.iModulus ≥ 0 ∨
      (!b.isPositive) = true ∨ (!e.isPositive) = true) := by
    intro hbad
    unfold CMontgomeryStructure.exponentiateL at hnext
    rw [if_pos hbad] at hnext
    exact absurd hnext (leave_ne_ok _ _)
  have hbpositive : b.isPositive = true := by
    by_contra hnot
    exact hchecked (.inr (.inr (.inl (by simpa using hnot))))
  have hepositive : e.isPositive = true := by
    by_contra hnot
    exact hchecked (.inr (.inr (.inr (by simpa using hnot))))
  obtain ⟨hb, hbne⟩ := (CMontgomeryStructure.isPositive_iff b).mp hbpositive
  obtain ⟨he, hene⟩ := (CMontgomeryStructure.isPositive_iff e).mp hepositive
  have hmodulus : mont.iModulus.isNegative = false := by
    by_contra hneg
    have htrue : mont.iModulus.isNegative = true := by simpa using hneg
    have hcompare : b.signedCompare mont.iModulus = 1 := by
      unfold signedCompare
      rw [hb, htrue]
      rfl
    exact hchecked (.inr (.inl (by rw [hcompare]; decide)))
  have hless : b.magnitude < mont.iModulus.magnitude := by
    by_contra hge
    exact hchecked (.inr (.inl ((signedCompare_ge hb hmodulus).mpr (Nat.not_lt.mp hge))))
  obtain ⟨next', hnext', hvalid', -, hint⟩ :=
    mont.exponentiateL_spec hvalid hmodulus hb hbne hless he hene
  obtain rfl := Except.ok.inj (hnext.symm.trans hnext')
  exact ⟨hb, hbne, hmodulus, hless, he, hene, hint.notNegative (natCast_nonneg _), hint.magnitude⟩

/-- The checks that a number is between zero and `q`. -/
theorem outOfRange_iff {x q : TInteger} :
    (x.signedCompareInt 0 ≤ 0 ∨ x.signedCompare q ≥ 0) ↔ ¬(0 < x.toInt ∧ x.toInt < q.toInt) := by
  rcases toInt_cases x with ⟨hx, hxv⟩ | ⟨hx, hxv⟩
  · have hzero : x.signedCompareInt 0 ≤ 0 ↔ x.magnitude ≤ 0 :=
      signedCompareInt_le (n := 0) hx (by decide)
    rw [hzero]
    rcases toInt_cases q with ⟨hq, hqv⟩ | ⟨hq, hqv⟩
    · rw [signedCompare_ge hx hq]
      omega
    · have hcompare : x.signedCompare q = 1 := by
        unfold signedCompare
        rw [hx, hq]
        rfl
      rw [hcompare]
      omega
  · have hbelow : x.signedCompareInt 0 = -1 := by
      unfold signedCompareInt signedCompare
      rw [hx]
      rfl
    rw [hbelow]
    omega

end

/-! ### The flag -/

section

variable {iKey aSignature : CCryptoParams} {aInput : Bytes}

theorem numberOf_eq {params : CCryptoParams} {aUid : Nat} {x : TInteger}
    (h : params.getBigIntL aUid = .ok x) : numberOf params aUid = x.toInt := by
  unfold numberOf
  rw [h]

/-- What is computed where the steps c) to e) return: `s` has an inverse, and `v` is the number
of the standard for the bits that are taken of the exponents. -/
theorem computeVL_eq_ok {tQ tR tS v : TInteger} (hr : 0 < tR.toInt ∧ tR.toInt < tQ.toInt)
    (hs : 0 < tS.toInt ∧ tS.toInt < tQ.toInt) {n : Numbers} (hnq : n.q = tQ.toInt)
    (hnr : n.r = tR.toInt) (hns : n.s = tS.toInt) (hng : n.g = numberOf iKey KDsaKeyParameterGUid)
    (hny : n.y = numberOf iKey KDsaKeyParameterYUid)
    (hnp : n.p = numberOf iKey KDsaKeyParameterPUid) (h : computeVL iKey aInput tQ tR tS = .ok v) :
    v.isNegative = false ∧ ∃ w : Int, n.s * w ≡ 1 [ZMOD n.q] ∧
      v.toInt = n.v (taken (n.u1 (Der.value aInput) w)) (taken (n.u2 w)) := by
  obtain ⟨hrsign, hrne, hrv⟩ := positive_magnitude hr.1
  obtain ⟨hssign, -, hsv⟩ := positive_magnitude hs.1
  obtain ⟨hqsign, hqne, hqv⟩ := positive_magnitude (hr.1.trans hr.2)
  unfold computeVL at h
  obtain ⟨w, hw, h⟩ := bind_eq_ok.mp h
  simp only at h
  obtain ⟨x1, hx1, h⟩ := bind_eq_ok.mp h
  obtain ⟨x2, hx2, h⟩ := bind_eq_ok.mp h
  obtain ⟨tG, htG, h⟩ := bind_eq_ok.mp h
  obtain ⟨tY, htY, h⟩ := bind_eq_ok.mp h
  obtain ⟨tP, htP, h⟩ := bind_eq_ok.mp h
  obtain ⟨temp, htemp, h⟩ := bind_eq_ok.mp h
  obtain ⟨temp1, htemp1, h⟩ := bind_eq_ok.mp h
  obtain ⟨product, hproduct, h⟩ := bind_eq_ok.mp h
  -- the inverse
  have hfits : CellFits tS tQ := by
    intro hlt hodd
    by_contra hlong
    rw [inverseModL_undefined hssign hqsign hlt hodd (by omega)] at hw
    cases hw
  obtain ⟨w', hw', hwsign, hinverse⟩ := inverseModL_fits (n := 0) hssign hqsign (by omega) hfits
  obtain rfl := Except.ok.inj (hw.symm.trans hw')
  -- the exponents
  obtain ⟨x1', hx1', hx1sign, hx1value⟩ :=
    modularMultiplyL_spec hwsign (isNegative_newDesL aInput) hqsign hqne
  obtain rfl := Except.ok.inj (hx1.symm.trans hx1')
  obtain ⟨x2', hx2', hx2sign, hx2value⟩ := modularMultiplyL_spec hrsign hwsign hqsign hqne
  obtain rfl := Except.ok.inj (hx2.symm.trans hx2')
  rw [magnitude_newDesL] at hx1value
  -- the powers
  have hg := modularExponentiateL_eq_ok htemp
  have hy := modularExponentiateL_eq_ok htemp1
  have hpne : tP.magnitude ≠ 0 := by
    have hless := hg.baseLess
    omega
  obtain ⟨product', hproduct', hpsign, hpvalue⟩ :=
    modularMultiplyL_spec hg.positive hy.positive hg.modulus hpne
  obtain rfl := Except.ok.inj (hproduct.symm.trans hproduct')
  obtain ⟨v', hv', hvsign, hvvalue⟩ := moduloL_positive hpsign hqsign hqne
  obtain rfl := Except.ok.inj (h.symm.trans hv')
  refine ⟨hvsign, (w.magnitude : Int), ?_, ?_⟩
  · have hcoprime : Nat.Coprime tS.magnitude tQ.magnitude := by
      by_contra hnot
      -- without an inverse the exponent would be zero
      apply hg.exponentPositive
      rw [hx1value, hinverse.zero hnot, Nat.zero_mul, Nat.zero_mod]
    have hmul := hinverse.mul hcoprime
    rw [hns, hnq, hsv, hqv]
    exact_mod_cast natCast_modEq_iff.mpr hmul
  · have hu1 : n.u1 (Der.value aInput) w.magnitude = x1.magnitude := by
      unfold Numbers.u1
      rw [hnq, hqv, hx1value, Nat.mul_comm]
      exact_mod_cast toNat_natCast _
    have hu2 : n.u2 w.magnitude = x2.magnitude := by
      unfold Numbers.u2
      rw [hnr, hnq, hrv, hqv, hx2value]
      exact_mod_cast toNat_natCast _
    rw [hu1, hu2, toInt_of_positive hvsign, hvvalue, hpvalue, hg.value, hy.value, ← Nat.mul_mod]
    unfold Numbers.v
    rw [hng, hny, hnp, hnq, numberOf_eq htG, numberOf_eq htY, numberOf_eq htP,
      toInt_of_positive hg.base, toInt_of_positive hy.base, toInt_of_positive hg.modulus, hqv]
    push_cast
    rfl

/-- The exponents do not depend on which inverse is taken. -/
theorem exponents_unique {n : Numbers} {h w w' : Int} (hw : n.s * w ≡ 1 [ZMOD n.q])
    (hw' : n.s * w' ≡ 1 [ZMOD n.q]) : n.u1 h w = n.u1 h w' ∧ n.u2 w = n.u2 w' := by
  have hsame : w ≡ w' [ZMOD n.q] := by
    calc w = 1 * w := (Int.one_mul w).symm
      _ ≡ n.s * w' * w [ZMOD n.q] := hw'.symm.mul_right w
      _ = n.s * w * w' := by ring
      _ ≡ 1 * w' [ZMOD n.q] := hw.mul_right w'
      _ = w' := Int.one_mul w'
  exact ⟨congrArg toNat (hsame.mul_left h), congrArg toNat (hsame.mul_left n.r)⟩

/-- **When `VerifyL` returns, the flag says whether the signature is accepted exactly where the
flag was false before or the signature is accepted.** -/
theorem verifyL_iff {initial flag : Bool}
    (hreturns : verifyL iKey aInput aSignature initial = .ok flag) :
    (flag = true ↔ (numbersOf iKey aSignature).Accepts (Der.value aInput)) ↔
      (numbersOf iKey aSignature).FlagFits (Der.value aInput) initial := by
  unfold verifyL at hreturns
  obtain ⟨tQ, htQ, hreturns⟩ := bind_eq_ok.mp hreturns
  obtain ⟨tR, htR, hreturns⟩ := bind_eq_ok.mp hreturns
  obtain ⟨tS, htS, hreturns⟩ := bind_eq_ok.mp hreturns
  have hq : (numbersOf iKey aSignature).q = tQ.toInt := numberOf_eq htQ
  have hr : (numbersOf iKey aSignature).r = tR.toInt := numberOf_eq htR
  have hs : (numbersOf iKey aSignature).s = tS.toInt := numberOf_eq htS
  have hfirst := @outOfRange_iff tR tQ
  have hsecond := @outOfRange_iff tS tQ
  rw [← hq, ← hr] at hfirst
  rw [← hq, ← hs] at hsecond
  have hrejected : ¬(numbersOf iKey aSignature).InRange → flag = false →
      ((flag = true ↔ (numbersOf iKey aSignature).Accepts (Der.value aInput)) ↔
        (numbersOf iKey aSignature).FlagFits (Der.value aInput) initial) := by
    intro hout hflag
    refine ⟨fun _ hin => absurd hin hout, fun _ => ⟨fun htrue => ?_, fun haccepts => ?_⟩⟩
    · rw [hflag] at htrue
      exact absurd htrue (by decide)
    · exact absurd haccepts.1 hout
  by_cases hrout : tR.signedCompareInt 0 ≤ 0 ∨ tR.signedCompare tQ ≥ 0
  · rw [if_pos hrout] at hreturns
    exact hrejected (fun hin => hfirst.mp hrout hin.1) (Except.ok.inj hreturns).symm
  rw [if_neg hrout] at hreturns
  by_cases hsout : tS.signedCompareInt 0 ≤ 0 ∨ tS.signedCompare tQ ≥ 0
  · rw [if_pos hsout] at hreturns
    exact hrejected (fun hin => hsecond.mp hsout hin.2) (Except.ok.inj hreturns).symm
  rw [if_neg hsout] at hreturns
  have hrin := not_not.mp (mt hfirst.mpr hrout)
  have hsin := not_not.mp (mt hsecond.mpr hsout)
  obtain ⟨v, hv, hreturns⟩ := bind_eq_ok.mp hreturns
  have hflag := Except.ok.inj hreturns
  obtain ⟨hvsign, w, hw, hvalue⟩ := computeVL_eq_ok (by rw [← hq, ← hr]; exact hrin)
    (by rw [← hq, ← hs]; exact hsin) hq hr hs rfl rfl rfl hv
  have hcompare : v.signedCompare tR = 0 ↔ v.toInt = (numbersOf iKey aSignature).r := by
    obtain ⟨hrsign, -, hrv⟩ := positive_magnitude (x := tR) (by rw [← hr]; exact hrin.1)
    rw [signedCompare_eq hvsign hrsign, sign_eq_zero_iff_zero, hr, hrv,
      toInt_of_positive hvsign]
    omega
  rw [hvalue] at hcompare
  generalize numbersOf iKey aSignature = n at *
  generalize (Der.value aInput : Int) = h at *
  -- the inverse that has been computed stands for any
  have haccepts : n.Accepts h ↔ n.v (n.u1 h w) (n.u2 w) = n.r := by
    constructor
    · rintro ⟨-, w', hw', heq⟩
      obtain ⟨h1, h2⟩ := exponents_unique (h := h) hw hw'
      rw [h1, h2]
      exact heq
    · intro heq
      exact ⟨⟨hrin, hsin⟩, w, hw, heq⟩
  have hbits : n.BitsSuffice h ↔
      (n.v (taken (n.u1 h w)) (taken (n.u2 w)) = n.r ↔ n.v (n.u1 h w) (n.u2 w) = n.r) := by
    constructor
    · intro hall
      exact hall w hw
    · intro hone w' hw'
      obtain ⟨h1, h2⟩ := exponents_unique (h := h) hw hw'
      rwa [h1, h2] at hone
  have hrange : n.FlagFits h initial ↔ if initial then n.Accepts h else n.BitsSuffice h :=
    ⟨fun hall => hall ⟨hrin, hsin⟩, fun hall _ => hall⟩
  rw [hrange, hbits, haccepts, ← hflag]
  by_cases hinitial : initial = true
  · subst hinitial
    simp
  · rw [Bool.not_eq_true] at hinitial
    subst hinitial
    rw [← hcompare]
    simp

end

/-- A key with `p = 7`, `q = 3` and `g = y = 2`. -/
def smallKey : CCryptoParams :=
  [(KDsaKeyParameterPUid, .EBigInt (ofWord 7)), (KDsaKeyParameterQUid, .EBigInt (ofWord 3)),
    (KDsaKeyParameterGUid, .EBigInt (ofWord 2)), (KDsaKeyParameterYUid, .EBigInt (ofWord 2))]

def smallSignature (r s : UInt32) : CCryptoParams :=
  [(KDsaSignatureParameterRUid, .EBigInt (ofWord r)),
    (KDsaSignatureParameterSUid, .EBigInt (ofWord s))]

/-- A signature of the octet one that is accepted. -/
theorem verifyL_iff_small :
    (true = true ↔ (numbersOf smallKey (smallSignature 1 1)).Accepts (Der.value [1])) ↔
      (numbersOf smallKey (smallSignature 1 1)).FlagFits (Der.value [1]) false :=
  verifyL_iff (show verifyL smallKey [1] (smallSignature 1 1) false = .ok true by decide +kernel)

/-- `v` is one and `r` is two, but a flag that was true is still true. -/
theorem not_verifyL_small :
    verifyL smallKey [1] (smallSignature 2 1) true = .ok true ∧
      verifyL smallKey [1] (smallSignature 2 1) false = .ok false ∧
      ¬(numbersOf smallKey (smallSignature 2 1)).Accepts (Der.value [1]) := by
  refine ⟨by decide +kernel, by decide +kernel, ?_⟩
  rintro ⟨-, w, hw, heq⟩
  obtain ⟨h1, h2⟩ := @exponents_unique _ (Der.value [1]) w 1 hw (by decide)
  rw [h1, h2] at heq
  exact absurd heq (by decide)

end CDSAVerifierImpl

end OsSecurity

/-
Diffie-Hellman key agreement: `dhkeypairgenimpl.cpp` and `dhimpl.cpp`.

A key is the number that is in it, and what a side draws is a parameter.  `ModularExponentiateL`
takes the same bits of an exponent on both sides, so they agree even where these are not all.
-/
import OsSecurity.Crypto.DsaVerifier

namespace OsSecurity

open CDSAVerifierImpl TInteger

def KDhKeyParameterNUid : Nat := 0x1028319e
def KDhKeyParameterGUid : Nat := 0x1028319f
def KDhKeyParameterxUid : Nat := 0x102831a1

variable (newRandomL newRandomL' : TInteger → TInteger → Leaving TInteger)

/-- `GenerateKeyPairL`: `x` of the private key, and `X` of the public one. -/
def CDHKeyPairGenImpl.generateKeyPairL (aKeyParameters : CCryptoParams) :
    Leaving (TInteger × TInteger) := do
  let N ← aKeyParameters.getBigIntL KDhKeyParameterNUid
  let G ← aKeyParameters.getBigIntL KDhKeyParameterGUid
  let nminus2 ← (← N.decrement).decrement
  if G.signedCompare two < 0 ∨ G.signedCompare nminus2 > 0 then leave KErrArgument
  else do
    let x ← (if aKeyParameters.any fun param => param.1 = KDhKeyParameterxUid then
      aKeyParameters.getBigIntL KDhKeyParameterxUid else newRandomL (ofWord 1) nminus2)
    return (x, ← modularExponentiateL G x N)

/-- `AgreeL`, with `x` of the private key and `X` of the other side's public one. -/
def CDHImpl.agreeL (x : TInteger) (iSharedParams : CCryptoParams) (X : TInteger)
    (aParams : CCryptoParams) : Leaving TInteger := do
  let N ← aParams.getBigIntL KDhKeyParameterNUid
  let G ← aParams.getBigIntL KDhKeyParameterGUid
  let privateN ← iSharedParams.getBigIntL KDhKeyParameterNUid
  let privateG ← iSharedParams.getBigIntL KDhKeyParameterGUid
  if N.signedCompare privateN ≠ 0 ∨ G.signedCompare privateG ≠ 0 then leave KErrArgument
  else modularExponentiateL X x N

/-- Two sides make their keys, send each other the public ones with the parameters, and agree. -/
def exchangeL (params params' : CCryptoParams) : Leaving (TInteger × TInteger) := do
  let (x, X) ← CDHKeyPairGenImpl.generateKeyPairL newRandomL params
  let (y, Y) ← CDHKeyPairGenImpl.generateKeyPairL newRandomL' params'
  return (← CDHImpl.agreeL x params Y params', ← CDHImpl.agreeL y params' X params)

variable {newRandomL newRandomL'} {params params' : CCryptoParams} {N N' G G' x X k k' : TInteger}

def HasGroup (params : CCryptoParams) (N G : TInteger) : Prop :=
  params.getBigIntL KDhKeyParameterNUid = .ok N ∧ params.getBigIntL KDhKeyParameterGUid = .ok G

theorem generateKeyPairL_ok
    (h : CDHKeyPairGenImpl.generateKeyPairL newRandomL params = .ok (x, X)) :
    ∃ N G, HasGroup params N G ∧ Powered G x N X := by
  obtain ⟨N, hN, h⟩ := bind_eq_ok.mp h
  obtain ⟨G, hG, h⟩ := bind_eq_ok.mp h
  obtain ⟨_, -, h⟩ := bind_eq_ok.mp h
  obtain ⟨_, -, h⟩ := bind_eq_ok.mp h
  split at h
  · cases h
  · obtain ⟨_, -, h⟩ := bind_eq_ok.mp h
    obtain ⟨_, hX, h⟩ := bind_eq_ok.mp h
    cases h
    exact ⟨N, G, ⟨hN, hG⟩, modularExponentiateL_eq_ok hX⟩

theorem agreeL_ok (hgroup : HasGroup params N G) (hgroup' : HasGroup params' N' G')
    (h : CDHImpl.agreeL x params X params' = .ok k) :
    N'.signedCompare N = 0 ∧ G'.signedCompare G = 0 ∧ Powered X x N' k := by
  unfold CDHImpl.agreeL at h
  simp only [hgroup.1, hgroup.2, hgroup'.1, hgroup'.2, ok_bind] at h
  split at h
  · cases h
  next hsame =>
    rw [not_or, not_not, not_not] at hsame
    exact ⟨hsame.1, hsame.2, modularExponentiateL_eq_ok h⟩

/-- **The two sides agree**, whatever they draw. -/
theorem exchangeL_agrees (h : exchangeL newRandomL newRandomL' params params' = .ok (k, k')) :
    k.toInt = k'.toInt := by
  obtain ⟨⟨x, X⟩, hkeys, h⟩ := bind_eq_ok.mp h
  obtain ⟨⟨y, Y⟩, hkeys', h⟩ := bind_eq_ok.mp h
  obtain ⟨N, G, hgroup, hX⟩ := generateKeyPairL_ok hkeys
  obtain ⟨N', G', hgroup', hY⟩ := generateKeyPairL_ok hkeys'
  obtain ⟨_, hk, h⟩ := bind_eq_ok.mp h
  obtain ⟨_, hk', h⟩ := bind_eq_ok.mp h
  cases h
  obtain ⟨hmodulus, hbase, hk⟩ := agreeL_ok hgroup hgroup' hk
  obtain ⟨-, -, hk'⟩ := agreeL_ok hgroup' hgroup hk'
  rw [signedCompare_eq hY.modulus hX.modulus, Int.sign_eq_zero_iff_zero] at hmodulus
  rw [signedCompare_eq hY.base hX.base, Int.sign_eq_zero_iff_zero] at hbase
  have hNN : N'.magnitude = N.magnitude := by omega
  have hGG : G'.magnitude = G.magnitude := by omega
  have hsame : k.magnitude = k'.magnitude := by
    rw [hk.value, hk'.value, hX.value, hY.value, hNN, hGG, ← Nat.pow_mod, ← Nat.pow_mod,
      ← Nat.pow_mul, ← Nat.pow_mul, Nat.mul_comm]
  rw [toInt_of_positive hk.positive, toInt_of_positive hk'.positive, hsame]

/-- The sixth and the fifteenth power of five, modulo 23. -/
theorem exchangeL_agrees_small :
    let params := [(KDhKeyParameterNUid, .EBigInt (ofWord 23)),
      (KDhKeyParameterGUid, .EBigInt (ofWord 5))]
    ∃ k k', exchangeL (fun _ _ => .ok (ofWord 6)) (fun _ _ => .ok (ofWord 15)) params params =
      .ok (k, k') ∧ k.toInt = k'.toInt := by
  intro params
  generalize h : exchangeL _ _ params params = r
  have hok : r.isOk := by
    rw [← h]
    decide +kernel
  cases r with
  | ok keys => exact ⟨keys.1, keys.2, rfl, exchangeL_agrees h⟩
  | error e => cases hok

end OsSecurity

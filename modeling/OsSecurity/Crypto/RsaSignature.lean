/-
RSA signatures with PKCS#1 v1.5 padding: `rsasignerimpl.cpp` and `rsaverifyimpl.cpp`.

The key permutes with its exponents in the other order: the private one signs and the public
one brings the padded hash back, without the zero that it begins with.
-/
import OsSecurity.Crypto.PaddingSchemes
import OsSecurity.Crypto.Rsa

namespace OsSecurity

open CPaddingPKCS1Signature TInteger

section

variable (modularExponentiateL : TInteger → TInteger → TInteger → TInteger) (iKey : RsaKey)

/-- The signature that `SignL` adds under `KRsaSignatureParameterSUid`. -/
def CRSASignerImpl.signL (aInput : Bytes) : Leaving TInteger := do
  let block ← padL iKey.n.byteCount aInput iKey.n.byteCount
  RSAFunction.decryptL modularExponentiateL iKey (newDesL block)

namespace CRSAVerifierImpl

/-- The hash that is in a signature. -/
def inverseSignL (signature : TInteger) : Leaving Bytes := do
  let output ← RSAFunction.encryptL modularExponentiateL iKey signature
  let paddedHash ← output.bufferLC
  unPadL paddedHash

def verifyL (aInput : Bytes) (signature : TInteger) : Leaving Bool := do
  let output ← inverseSignL modularExponentiateL iKey signature
  return decide (output = aInput)

end CRSAVerifierImpl

end

variable {modularExponentiateL : TInteger → TInteger → TInteger → TInteger} {key : RsaKey}
  {m : Bytes}

/-- A hash is signed unless it is too long, and comes back out of its signature, in whatever words
the number comes back. -/
theorem inverseSignL_of_signL (hkey : Permutes modularExponentiateL ⟨key.n, key.d, key.e⟩)
    (hm : m.length + MinPaddingLength ≤ key.n.byteCount) :
    ∃ s, CRSASignerImpl.signL modularExponentiateL key m = .ok s ∧
      ∀ s', s'.isNegative = false → s'.magnitude = s.magnitude →
        CRSAVerifierImpl.inverseSignL modularExponentiateL key s' = .ok m := by
  let rest : Bytes := 1 :: (List.replicate (key.n.byteCount - m.length - 3) 0xff ++ 0 :: m)
  have hpad := padL_eq hm (Nat.le_refl _)
  unfold MinPaddingLength at hm
  have hvalue : (newDesL (0 :: rest)).magnitude = Der.value rest := by
    rw [magnitude_newDesL, Der.value_cons]
    simp
  have hlt : (newDesL (0 :: rest)).magnitude < key.n.magnitude := by
    rw [hvalue]
    exact CRSAImpl.octets_lt (by simp [rest]; omega)
  obtain ⟨-, hbelow⟩ := hkey.encrypts _ rfl hlt
  refine ⟨modularExponentiateL (newDesL (0 :: rest)) key.d key.n, ?_, fun s' hs' hsame => ?_⟩
  · unfold CRSASignerImpl.signL
    rw [hpad, ok_bind]
    exact RSAFunction.functionL_ok rfl hkey.positive hlt
  · obtain ⟨hpositive, hback⟩ := hkey.decrypts _ s' rfl hlt hs' hsame
    unfold CRSAVerifierImpl.inverseSignL RSAFunction.encryptL
    rw [RSAFunction.functionL_ok hs' hkey.positive (by rw [hsame]; exact hbelow), ok_bind,
      bufferLC_eq hpositive, ok_bind, hback, hvalue, Der.octets_value (by simp [rest]),
      (unPadL_block _ m).1]

/-- **The signature of a hash verifies for it and for no other one.** -/
theorem verifyL_of_signL (hkey : Permutes modularExponentiateL ⟨key.n, key.d, key.e⟩)
    (hm : m.length + MinPaddingLength ≤ key.n.byteCount) :
    ∃ s, CRSASignerImpl.signL modularExponentiateL key m = .ok s ∧
      ∀ s' m', s'.isNegative = false → s'.magnitude = s.magnitude →
        CRSAVerifierImpl.verifyL modularExponentiateL key m' s' = .ok (decide (m = m')) := by
  obtain ⟨s, hs, hback⟩ := inverseSignL_of_signL hkey hm
  refine ⟨s, hs, fun s' m' hs' hsame => ?_⟩
  unfold CRSAVerifierImpl.verifyL
  rw [hback s' hs' hsame]
  rfl

theorem verifyL_of_signL_zero :
    ∃ s, CRSASignerImpl.signL CRSAImpl.exponentiate CRSAImpl.mersenneKey [0] = .ok s ∧
      CRSAVerifierImpl.verifyL CRSAImpl.exponentiate CRSAImpl.mersenneKey [0] s = .ok true := by
  have hkey : Permutes CRSAImpl.exponentiate
      ⟨CRSAImpl.mersenneKey.n, CRSAImpl.mersenneKey.d, CRSAImpl.mersenneKey.e⟩ :=
    CRSAImpl.permutes_exponents CRSAImpl.mersenneKey_magnitude rfl
      ((Nat.mul_comm ..).trans CRSAImpl.mersenneKey_exponents)
  obtain ⟨s, hs, hverify⟩ := verifyL_of_signL hkey (m := [0]) (by decide)
  have hpositive : s.isNegative = false := by
    obtain rfl := Except.ok.inj hs
    rfl
  exact ⟨s, hs, hverify s [0] hpositive rfl⟩

end OsSecurity

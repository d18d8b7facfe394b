/-
RSA with PKCS#1 v1.5 padding: `CRSAImpl` and `RSAFunction`.

`ModularExponentiateL` is a parameter, and `Permutes` says what is assumed of it for a key:
that the public exponent maps the numbers below the modulus among themselves and the private
one maps them back.

The zero that begins a padded block is what makes its number smaller than the modulus.  It is
lost in the conversion, and so are zeros that begin the ciphertext; neither matters, since a
ciphertext is read as a number and the unpadding accepts a block without the zero.
-/
import Mathlib.FieldTheory.Finite.Basic
import Mathlib.NumberTheory.LucasLehmer
import OsSecurity.Bigint.Octets
import OsSecurity.Crypto.Pkcs1Encryption
import OsSecurity.Crypto.SymmetricCipher

namespace OsSecurity

open TInteger


/-- A key pair in standard form. -/
structure RsaKey where
  n : TInteger
  e : TInteger
  d : TInteger

namespace RSAFunction

variable (modularExponentiateL : TInteger → TInteger → TInteger → TInteger)

def isInputValid (aInput aModulus : TInteger) : Bool :=
  !(aInput.isNegative || decide (aInput.signedCompare aModulus ≥ 0))

/-- `FunctionL`: the arguments of `ModularExponentiateL` are base, exponent and modulus. -/
def functionL (aModulus aExponent aBase : TInteger) : Leaving TInteger :=
  if isInputValid aBase aModulus then .ok (modularExponentiateL aBase aExponent aModulus)
  else leave KErrArgument

def encryptL (aPublicKey : RsaKey) (aInput : TInteger) : Leaving TInteger :=
  functionL modularExponentiateL aPublicKey.n aPublicKey.e aInput

/-- The branch of `KRsaPrivateKeyStandardUid`. -/
def decryptL (aPrivateKey : RsaKey) (aInput : TInteger) : Leaving TInteger :=
  functionL modularExponentiateL aPrivateKey.n aPrivateKey.d aInput

end RSAFunction

/-- `iBlockBytes` is the block size of the padding. -/
structure CRSAImpl where
  iKey : RsaKey
  iCryptoMode : CryptoMode
  iBlockBytes : Nat

namespace CRSAImpl

open CPaddingPKCS1Encryption

def getMaximumOutputLengthL (aKey : RsaKey) : CryptoMode → Int
  | .KCryptoModeDecrypt => (aKey.n.byteCount : Int) - MinPaddingLength
  | .KCryptoModeEncrypt => aKey.n.byteCount

def getMaximumInputLengthL (aKey : RsaKey) : CryptoMode → Int
  | .KCryptoModeEncrypt => (aKey.n.byteCount : Int) - MinPaddingLength
  | .KCryptoModeDecrypt => aKey.n.byteCount

def isValidKeyLengthL (aKey : RsaKey) (aCryptoMode : CryptoMode) (aKeyBytes : Nat) : Bool :=
  if aKeyBytes < 1 then false
  else
    match aCryptoMode with
    | .KCryptoModeEncrypt => !decide (getMaximumInputLengthL aKey .KCryptoModeEncrypt ≤ 0)
    | .KCryptoModeDecrypt => !decide (getMaximumOutputLengthL aKey .KCryptoModeDecrypt ≤ 0)

/-- The block size that `DoSetPaddingModeL` asks for. -/
def padlength (aKey : RsaKey) : CryptoMode → Int
  | .KCryptoModeEncrypt => getMaximumOutputLengthL aKey .KCryptoModeEncrypt
  | .KCryptoModeDecrypt => getMaximumInputLengthL aKey .KCryptoModeDecrypt

/-- `ConstructL`: a padding whose blocks are empty panics. -/
def newL (aKey : RsaKey) (aCryptoMode : CryptoMode) : Leaving CRSAImpl :=
  if padlength aKey aCryptoMode ≤ 0 then panic
  else if isValidKeyLengthL aKey aCryptoMode aKey.n.byteCount then
    .ok ⟨aKey, aCryptoMode, (padlength aKey aCryptoMode).toNat⟩
  else leave KErrKeySize

variable (modularExponentiateL : TInteger → TInteger → TInteger → TInteger)

/-- What `EncryptL` appends to the output. -/
def encryptL (self : CRSAImpl) (draw : RandomSource) (fuel : Nat) (aInput : Bytes) :
    Option (Leaving Bytes) :=
  (padL self.iBlockBytes draw fuel aInput
    (getMaximumOutputLengthL self.iKey self.iCryptoMode).toNat).map fun padded => do
      let block ← padded
      let output ← RSAFunction.encryptL modularExponentiateL self.iKey (TInteger.newDesL block)
      output.bufferLC

def decryptL (self : CRSAImpl) (aInput : Bytes) : Leaving Bytes := do
  let output ← RSAFunction.decryptL modularExponentiateL self.iKey (TInteger.newDesL aInput)
  let buffer ← output.bufferLC
  unPadL buffer

end CRSAImpl

/-! ### The assumption -/

/-- The RSA permutation of a key and its inverse.  A result is never negative. -/
structure Permutes (modularExponentiateL : TInteger → TInteger → TInteger → TInteger)
    (key : RsaKey) : Prop where
  positive : key.n.isNegative = false
  encrypts : ∀ x, x.isNegative = false → x.magnitude < key.n.magnitude →
    (modularExponentiateL x key.e key.n).isNegative = false ∧
      (modularExponentiateL x key.e key.n).magnitude < key.n.magnitude
  decrypts : ∀ x y, x.isNegative = false → x.magnitude < key.n.magnitude →
    y.isNegative = false → y.magnitude = (modularExponentiateL x key.e key.n).magnitude →
      (modularExponentiateL y key.d key.n).isNegative = false ∧
        (modularExponentiateL y key.d key.n).magnitude = x.magnitude

namespace RSAFunction

variable {modularExponentiateL : TInteger → TInteger → TInteger → TInteger}

theorem isInputValid_of_lt {x n : TInteger} (hx : x.isNegative = false)
    (hn : n.isNegative = false) (h : x.magnitude < n.magnitude) : isInputValid x n = true := by
  have hless : x.signedCompare n = -1 := by
    unfold signedCompare
    rw [hx, hn, unsignedCompare_eq]
    exact Int.sign_eq_neg_one_of_neg (by omega)
  unfold isInputValid
  rw [hx, hless]
  decide

theorem functionL_ok {x n e : TInteger} (hx : x.isNegative = false)
    (hn : n.isNegative = false) (h : x.magnitude < n.magnitude) :
    functionL modularExponentiateL n e x = .ok (modularExponentiateL x e n) := by
  unfold functionL
  rw [if_pos (isInputValid_of_lt hx hn h)]

theorem encryptL_ok {key : RsaKey} (hkey : Permutes modularExponentiateL key) {x : TInteger}
    (hx : x.isNegative = false) (h : x.magnitude < key.n.magnitude) :
    encryptL modularExponentiateL key x = .ok (modularExponentiateL x key.e key.n) :=
  functionL_ok hx hkey.positive h

theorem decryptL_ok {key : RsaKey} (hkey : Permutes modularExponentiateL key) {x : TInteger}
    (hx : x.isNegative = false) (h : x.magnitude < key.n.magnitude) :
    decryptL modularExponentiateL key x = .ok (modularExponentiateL x key.d key.n) :=
  functionL_ok hx hkey.positive h

end RSAFunction

namespace CRSAImpl

open CPaddingPKCS1Encryption

variable {modularExponentiateL : TInteger → TInteger → TInteger → TInteger} {key : RsaKey}

theorem newL_ok {aCryptoMode : CryptoMode} {self : CRSAImpl}
    (h : newL key aCryptoMode = .ok self) : self = ⟨key, aCryptoMode, key.n.byteCount⟩ := by
  have hlength : padlength key aCryptoMode = key.n.byteCount := by
    cases aCryptoMode <;> rfl
  unfold newL at h
  rw [hlength] at h
  split at h
  · simp at h
  · split at h
    · rw [Except.ok.injEq, Int.toNat_natCast] at h
      exact h.symm
    · simp at h

/-- The number of a block that begins with a zero is smaller than the modulus. -/
theorem octets_lt {rest : Bytes} (hlength : rest.length + 1 = key.n.byteCount) :
    Der.value rest < key.n.magnitude := by
  have hne : key.n.magnitude ≠ 0 := by
    intro hzero
    have hbytes : key.n.byteCount = 0 := by
      unfold byteCount
      rw [wordCount_eq_zero.mpr hzero]
      rfl
    omega
  have hlt := Der.value_lt rest
  rw [show rest.length = key.n.byteCount - 1 by omega] at hlt
  exact Nat.lt_of_lt_of_le hlt (byteCount_spec hne).2.1

theorem block_lt {ps m : Bytes} (hlength : ps.length + m.length + 3 = key.n.byteCount) :
    Der.value (2 :: ps ++ 0 :: m) < key.n.magnitude :=
  octets_lt (by simp; omega)

/-- What was encrypted decrypts to the message, whatever the random octets were. -/
theorem decryptL_of_encryptL (hkey : Permutes modularExponentiateL key) {m c : Bytes}
    (hm : m.length + MinPaddingLength ≤ key.n.byteCount) {draw : RandomSource} {fuel : Nat}
    (h : encryptL modularExponentiateL ⟨key, .KCryptoModeEncrypt, key.n.byteCount⟩ draw fuel m =
      some (.ok c)) :
    decryptL modularExponentiateL ⟨key, .KCryptoModeDecrypt, key.n.byteCount⟩ c = .ok m := by
  obtain ⟨padded, hpadded, hc⟩ := Option.map_eq_some_iff.mp h
  obtain ⟨block, rfl, hc⟩ := bind_eq_ok.mp hc
  obtain ⟨ps, rfl, hlength, hps⟩ := padL_ok hm hpadded
  have hvalue : (newDesL (0 :: (2 :: ps ++ 0 :: m))).magnitude =
      Der.value (2 :: ps ++ 0 :: m) := by
    rw [magnitude_newDesL, Der.value_cons]
    simp
  have hlt := block_lt hlength
  rw [← hvalue] at hlt
  obtain ⟨hpositive, hbelow⟩ := hkey.encrypts _ rfl hlt
  simp only [ok_bind] at hc
  rw [RSAFunction.encryptL_ok hkey rfl hlt, ok_bind, bufferLC_eq hpositive, Except.ok.injEq] at hc
  have hcipher : (newDesL c).magnitude =
      (modularExponentiateL (newDesL (0 :: (2 :: ps ++ 0 :: m))) key.e
        key.n).magnitude := by
    rw [magnitude_newDesL, ← hc, Der.value_octets]
  obtain ⟨hpositive', hplain⟩ := hkey.decrypts _ _ rfl hlt
    (isNegative_newDesL c) hcipher
  unfold decryptL
  rw [RSAFunction.decryptL_ok hkey rfl (by rw [hcipher]; exact hbelow), ok_bind,
    bufferLC_eq hpositive', ok_bind, hplain, hvalue, Der.octets_value (by simp)]
  exact unPadL_block hps

theorem encryptL_some (hkey : Permutes modularExponentiateL key) {m : Bytes}
    (hm : m.length + MinPaddingLength ≤ key.n.byteCount) {draw : RandomSource}
    (hdraw : draw.NeverDry) : ∃ enough, ∀ fuel, enough ≤ fuel → ∃ c,
      encryptL modularExponentiateL ⟨key, .KCryptoModeEncrypt, key.n.byteCount⟩ draw fuel m =
        some (.ok c) := by
  obtain ⟨enough, henough⟩ := padL_some hm (Nat.le_refl _) hdraw
  refine ⟨enough, ?_⟩
  intro fuel hfuel
  obtain ⟨block, hblock⟩ := henough fuel hfuel
  obtain ⟨ps, rfl, hlength, -⟩ := padL_ok hm hblock
  have hlt : (newDesL (0 :: (2 :: ps ++ 0 :: m))).magnitude < key.n.magnitude := by
    rw [magnitude_newDesL, Der.value_cons]
    simpa using block_lt hlength
  have hbuffer := bufferLC_eq (hkey.encrypts _ rfl hlt).1
  let output := modularExponentiateL (newDesL (0 :: (2 :: ps ++ 0 :: m))) key.e key.n
  refine ⟨Der.octets output.magnitude, ?_⟩
  unfold encryptL
  show (padL key.n.byteCount draw fuel m key.n.byteCount).map _ = _
  rw [hblock, Option.map_some, ok_bind, RSAFunction.encryptL_ok hkey rfl hlt, ok_bind, hbuffer]

/-- **The round trip.**  Whatever octets the random source gives, what `EncryptL` returns for
a message is decrypted to that message; and it does return where the source never dries up. -/
theorem roundTrip (hkey : Permutes modularExponentiateL key) {sender receiver : CRSAImpl}
    (hsender : newL key .KCryptoModeEncrypt = .ok sender)
    (hreceiver : newL key .KCryptoModeDecrypt = .ok receiver)
    {m : Bytes} (hm : m.length + 11 ≤ key.n.byteCount) (draw : RandomSource) :
    (∀ fuel c, encryptL modularExponentiateL sender draw fuel m = some (.ok c) →
      decryptL modularExponentiateL receiver c = .ok m) ∧
    (draw.NeverDry → ∃ enough, ∀ fuel, enough ≤ fuel →
      ∃ c, encryptL modularExponentiateL sender draw fuel m = some (.ok c)) := by
  rw [newL_ok hsender, newL_ok hreceiver]
  exact ⟨fun fuel c h => decryptL_of_encryptL hkey hm h, fun hdraw => encryptL_some hkey hm hdraw⟩

/-! ### A key of twelve octets -/

/-- Fermat's theorem for a power that is one more than a multiple of `p - 1`. -/
theorem pow_modEq {p n : Nat} (hp : p.Prime) (hn : p - 1 ∣ n) (x : Nat) :
    x ^ (n + 1) ≡ x [MOD p] := by
  have := Fact.mk hp
  rw [← ZMod.natCast_eq_natCast_iff, Nat.cast_pow, pow_succ]
  obtain ⟨k, rfl⟩ := hn
  by_cases hx : (x : ZMod p) = 0
  · rw [hx, mul_zero]
  · rw [pow_mul, ZMod.pow_card_sub_one_eq_one hx, one_pow, one_mul]

/-- Exponents that are inverse to each other modulo `p - 1` and modulo `q - 1`. -/
theorem pow_mod_pow_mod {p q e d n : Nat} (hp : p.Prime) (hq : q.Prime) (hpq : p.Coprime q)
    (hexp : e * d = n + 1) (hpn : p - 1 ∣ n) (hqn : q - 1 ∣ n) {x : Nat} (hx : x < p * q) :
    (x ^ e % (p * q)) ^ d % (p * q) = x := by
  have hpow : x ^ (n + 1) ≡ x [MOD p * q] :=
    (Nat.modEq_and_modEq_iff_modEq_mul hpq).mp ⟨pow_modEq hp hpn x, pow_modEq hq hqn x⟩
  rw [← Nat.pow_mod, ← pow_mul, hexp]
  exact Nat.mod_eq_of_modEq hpow hx

/-- The primes `2^61 - 1` and `2^31 - 1`. -/
def mersenneKey : RsaKey where
  n := .newDesL [0x0f, 0xff, 0xff, 0xff, 0xdf, 0xff, 0xff, 0xff, 0x80, 0x00, 0x00, 0x01]
  e := .newDesL [17]
  d := .newDesL (Der.octets 1763291712928118903)

def exponentiate (aBase aExp aMod : TInteger) : TInteger :=
  .newDesL (Der.octets (aBase.magnitude ^ aExp.magnitude % aMod.magnitude))

theorem exponentiate_magnitude (aBase aExp aMod : TInteger) :
    (exponentiate aBase aExp aMod).magnitude =
      aBase.magnitude ^ aExp.magnitude % aMod.magnitude := by
  unfold exponentiate
  rw [magnitude_newDesL, Der.value_octets]

theorem permutes_exponents {key : RsaKey} (hn : key.n.magnitude = mersenne 61 * mersenne 31)
    (hsign : key.n.isNegative = false)
    (hexp : key.e.magnitude * key.d.magnitude = 17 * 1763291712928118903 - 1 + 1) :
    Permutes exponentiate key := by
  have hback : ∀ x, x < key.n.magnitude →
      (x ^ key.e.magnitude % key.n.magnitude) ^ key.d.magnitude % key.n.magnitude = x := by
    intro x hx
    rw [hn] at hx ⊢
    exact pow_mod_pow_mod (lucas_lehmer_sufficiency 61 (by norm_num) (by norm_num))
      (lucas_lehmer_sufficiency 31 (by norm_num) (by norm_num)) (by norm_num [mersenne]) hexp
      (by norm_num [mersenne]) (by norm_num [mersenne]) hx
  refine ⟨hsign, ?_, ?_⟩
  · intro x _ hx
    rw [exponentiate_magnitude]
    exact ⟨rfl, Nat.mod_lt _ (by omega)⟩
  · intro x y _ hx _ hy
    rw [exponentiate_magnitude] at hy
    rw [exponentiate_magnitude, hy]
    exact ⟨rfl, hback _ hx⟩

theorem mersenneKey_magnitude : mersenneKey.n.magnitude = mersenne 61 * mersenne 31 := by
  have hvalue : mersenneKey.n.magnitude = 4951760154835678088235319297 :=
    magnitude_newDesL _
  rw [hvalue]
  norm_num [mersenne]

theorem mersenneKey_exponents : mersenneKey.e.magnitude * mersenneKey.d.magnitude =
    17 * 1763291712928118903 - 1 + 1 := by
  have hd : mersenneKey.d.magnitude = 1763291712928118903 := by
    show (newDesL _).magnitude = _
    rw [magnitude_newDesL, Der.value_octets]
  have he : mersenneKey.e.magnitude = 17 := magnitude_newDesL _
  rw [he, hd]

theorem permutes_mersenneKey : Permutes exponentiate mersenneKey :=
  permutes_exponents mersenneKey_magnitude rfl mersenneKey_exponents

/-- Random octets that are all seven. -/
def sevens : RandomSource := fun _ => .ok ⟨List.replicate 256 7, List.length_replicate⟩

theorem neverDry_sevens : sevens.NeverDry := by
  refine ⟨fun _ => ⟨_, rfl⟩, ?_⟩
  intro i
  refine ⟨i, Nat.le_refl i, 7, ?_, by decide⟩
  have hindex : i % 256 < (List.replicate 256 (7 : UInt8)).length := by
    rw [List.length_replicate]
    exact Nat.mod_lt _ (by decide)
  show Except.ok ((List.replicate 256 (7 : UInt8)).getD (i % 256) 0) = _
  rw [List.getD_eq_getElem?_getD, List.getElem?_eq_getElem hindex, List.getElem_replicate]
  rfl

/-- A message that begins with a zero, under a key whose length is not a number of octets. -/
theorem roundTrip_zero : ∃ sender receiver fuel c,
    newL mersenneKey .KCryptoModeEncrypt = .ok sender ∧
      newL mersenneKey .KCryptoModeDecrypt = .ok receiver ∧
      encryptL exponentiate sender sevens fuel [0] = some (.ok c) ∧
        decryptL exponentiate receiver c = .ok [0] := by
  have hbytes : mersenneKey.n.byteCount = 12 := by decide
  have hsender : newL mersenneKey .KCryptoModeEncrypt =
      .ok ⟨mersenneKey, .KCryptoModeEncrypt, 12⟩ := rfl
  have hreceiver : newL mersenneKey .KCryptoModeDecrypt =
      .ok ⟨mersenneKey, .KCryptoModeDecrypt, 12⟩ := rfl
  obtain ⟨hback, hreturns⟩ := roundTrip permutes_mersenneKey hsender hreceiver (m := [0])
    (by rw [hbytes]; decide) sevens
  obtain ⟨enough, henough⟩ := hreturns neverDry_sevens
  obtain ⟨c, hc⟩ := henough enough (Nat.le_refl enough)
  exact ⟨_, _, enough, c, hsender, hreceiver, hc, hback enough c hc⟩

end CRSAImpl

end OsSecurity

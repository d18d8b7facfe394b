/-
WTLS certificates and the names in them.

A decoder takes the octets from its position on and gives back those that it leaves.  Of the
operating system the model takes the conversion from UTF-8, and of the cryptography the digest
and the check of a signature.  Where the source looks for one of `;` and `=`, it folds the text
first, which leaves these two characters alone.
-/
import OsSecurity.Bigint.Octets
import OsSecurity.X509.Certificate

namespace OsSecurity

open List

/-! ### Reading octets -/

namespace TWTLSDecUnsignedInteger

def decodeShortL (aSource : Bytes) (aLength : Nat) : Leaving (Int × Bytes) :=
  if 4 < aLength then leave KErrOverflow
  else if aSource.length < aLength then leave KErrArgument
  else .ok (TInt.wrap (Der.value (aSource.take aLength)), aSource.drop aLength)

def decodeLongL (aSource : Bytes) (aLength : Int) : Leaving (TInteger × Bytes) :=
  if (aSource.length : Int) < aLength then leave KErrArgument
  else .ok (TInteger.newDesL (aSource.take aLength.toNat), aSource.drop aLength.toNat)

end TWTLSDecUnsignedInteger

/-- `TWTLSDecVector`, for a length in two octets: how much of the source it takes. -/
def TWTLSDecVector.encodingLengthL (aSource : Bytes) (aMinLength : Nat) : Leaving Int :=
  if aSource.length < 2 + aMinLength then leave KErrArgument
  else do
    let (iLengthOfContents, _) ← TWTLSDecUnsignedInteger.decodeShortL aSource 2
    if (aSource.length : Int) < 2 + iLengthOfContents then leave KErrArgument
    else return 2 + iLengthOfContents

/-- `TWTLSDecTime`: seconds from the start of 1970. -/
def TWTLSDecTime.decodeL (aSource : Bytes) : Leaving (Int × Bytes) :=
  if aSource.length < 4 then leave KErrArgument
  else do
    let (inc, rest) ← TWTLSDecUnsignedInteger.decodeShortL aSource 4
    return (0x00dcddb30f2f8000 + inc * 1000000, rest)

/-! ### Names -/

structure CWTLSName where
  iNameType : UInt8
  iNameData : Bytes

namespace CWTLSName

def EWTLSText : UInt8 := 0x01
def EWTLSX500DN : UInt8 := 0xff

def allocTextDataL (aBinaryData : Bytes) : Leaving (Bytes × Bytes) :=
  match aBinaryData with
  | _ :: _ :: length :: _ =>
    let nameLength := length.toNat + 3
    if aBinaryData.length < nameLength then leave KErrArgument
    else .ok (aBinaryData.take nameLength, aBinaryData.drop nameLength)
  | _ => leave KErrArgument

def allocNameDataL (aBinaryData : Bytes) : Leaving (Bytes × Bytes) :=
  match aBinaryData with
  | [] => leave KErrArgument
  | nameLength :: rest =>
    if rest.length < nameLength.toNat then leave KErrArgument
    else .ok (rest.take nameLength.toNat, rest.drop nameLength.toNat)

def newL (aBinaryData : Bytes) : Leaving (CWTLSName × Bytes) :=
  match aBinaryData with
  | [] => leave KErrArgument
  | iNameType :: rest =>
    if iNameType = EWTLSText then do
      let (iNameData, rest) ← allocTextDataL rest
      return (⟨iNameType, iNameData⟩, rest)
    else if iNameType = EWTLSX500DN then do
      let (iNameData, rest) ← allocNameDataL rest
      return (⟨iNameType, iNameData⟩, rest)
    else leave KErrNotSupported

/-- `ExactMatchL` matches the data. -/
def exactMatchL (name aName : CWTLSName) : Bool := name.iNameData = aName.iNameData

end CWTLSName

/-! ### Structured text -/

namespace CWTLSStructuredText

def separator : UInt16 := 59
def assignment : UInt16 := 61

/-- `GetSubFieldL`: the place of the next separator, and whether the field ends there. -/
def getSubFieldL (aString : Text) : Leaving (Nat × Bool) :=
  let aPos := aString.findIdx (· = separator)
  if aPos = aString.length then .ok (aPos, true)
  else if aPos + 1 = aString.length then leave KErrArgument
  else if aString[aPos + 1]? = some separator then .ok (aPos + 1, false)
  else .ok (aPos, true)

theorem getSubFieldL_false {aString : Text} {length : Nat}
    (h : getSubFieldL aString = .ok (length, false)) : 0 < length ∧ 0 < aString.length := by
  unfold getSubFieldL at h
  simp only at h
  split at h
  · cases h
  split at h
  · cases h
  split at h
  next hnext =>
    have hlt := (List.getElem?_eq_some_iff.mp hnext).1
    cases h
    exact ⟨Nat.succ_pos _, Nat.lt_of_le_of_lt (Nat.zero_le _) hlt⟩
  next => cases h

/-- The loop of `GetFieldL`. -/
def fieldLengthL (aString : Text) : Leaving Nat :=
  match _h : getSubFieldL aString with
  | .error e => .error e
  | .ok (length, true) => .ok length
  | .ok (length, false) => do
    let increment ← fieldLengthL (aString.drop length)
    return length + increment
termination_by aString.length
decreasing_by
  obtain ⟨hlength, hpos⟩ := getSubFieldL_false _h
  rw [length_drop]
  omega

/-- `GetFieldL`: a field, and the text behind its separator. -/
def getFieldL (aString : Text) : Leaving (Text × Text) := do
  let length ← fieldLengthL aString
  if length = 0 then leave KErrArgument
  else return (aString.take length, aString.drop (length + 1))

theorem getFieldL_shorter {aString field rest : Text}
    (h : getFieldL aString = .ok (field, rest)) (hne : aString ≠ []) :
    rest.length < aString.length := by
  obtain ⟨length, -, hrest⟩ := bind_eq_ok.mp h
  split at hrest
  · cases hrest
  · cases hrest
    have hpos := length_pos_iff.mpr hne
    rw [length_drop]
    omega

/-- The loop of `ConstructL` with `AddFieldL`: types and values. -/
def addFieldsL (rest : Text) : Leaving (List (Text × Text)) :=
  if _hne : rest = [] then .ok []
  else
    match _h : getFieldL rest with
    | .error e => .error e
    | .ok (fieldData, rest') =>
      let endType := fieldData.findIdx (· = assignment)
      if endType = fieldData.length ∨ endType + 1 = fieldData.length then leave KErrArgument
      else do
        let fields ← addFieldsL rest'
        return (fieldData.take endType, fieldData.drop (endType + 1)) :: fields
termination_by rest.length
decreasing_by exact getFieldL_shorter _h _hne

def KWTLSServiceName : Text := [79, 85]
def KWTLSOrganizationName : Text := [79]
def KWTLSCountryName : Text := [67]
def KWTLSCommonName : Text := [67, 78]

/-- `ConstructL`, behind the conversion of the text. -/
def fieldsL (iName : Text) : Leaving (List (Text × Text)) := do
  let (serviceName, rest) ← getFieldL iName
  let (organization, rest) ← getFieldL rest
  let (country, rest) ← getFieldL rest
  let fields := [(KWTLSServiceName, serviceName), (KWTLSOrganizationName, organization),
    (KWTLSCountryName, country)]
  if rest = [] then return fields
  else do
    let (commonName, rest) ← getFieldL rest
    let others ← addFieldsL rest
    return fields ++ (KWTLSCommonName, commonName) :: others

def KWTLSLatin1CharSet : Int := 4
def KWTLSUTF8CharSet : Int := 106

/-- `CWTLSText::ConstructL` -/
def textL (convertToUnicodeFromUtf8 : Bytes → Leaving Text) (aBinaryData : Bytes) :
    Leaving Text := do
  if aBinaryData.length < 3 then leave KErrArgument
  else do
    let (iCharacterSet, rest) ← TWTLSDecUnsignedInteger.decodeShortL aBinaryData 2
    match rest with
    | [] => panic
    | nameLength :: rest =>
      if rest.length < nameLength.toNat then leave KErrArgument
      else
        let ptr := rest.take nameLength.toNat
        if iCharacterSet = KWTLSLatin1CharSet then return ptr.map UInt8.toUInt16
        else if iCharacterSet = KWTLSUTF8CharSet then convertToUnicodeFromUtf8 ptr
        else leave KErrNotSupported

def fieldByName (fields : List (Text × Text)) (aType : Text) : Option Text :=
  (fields.find? fun field => field.1 = aType).map (·.2)

end CWTLSStructuredText

/-! ### Certificates -/

/-- `RSAPublicKeyL` of the key factory. -/
structure CWTLSRSAPublicKey where
  iE : TInteger
  iN : TInteger

def CWTLSRSAPublicKey.newL (aBinaryData : Bytes) : Leaving CWTLSRSAPublicKey := do
  let (expLength, rest) ← TWTLSDecUnsignedInteger.decodeShortL aBinaryData 2
  let (iE, rest) ← TWTLSDecUnsignedInteger.decodeLongL rest expLength
  let (modLength, rest) ← TWTLSDecUnsignedInteger.decodeShortL rest 2
  let (iN, _) ← TWTLSDecUnsignedInteger.decodeLongL rest modLength
  return ⟨iE, iN⟩

/-- `CWTLSSubjectPublicKeyInfo`: RSA, and the encoded key. -/
def CWTLSSubjectPublicKeyInfo.newL (aBinaryData : Bytes) : Leaving (Bytes × Bytes) :=
  match aBinaryData with
  | algorithm :: params :: keyData =>
    if algorithm ≠ 0x02 then leave KErrNotSupported
    else if params ≠ 0 then leave KErrArgument
    else do
      let exp ← TWTLSDecVector.encodingLengthL keyData 1
      let modEnc := keyData.drop exp.toNat
      let mod ← TWTLSDecVector.encodingLengthL modEnc 1
      let length := (exp + mod).toNat
      return (keyData.take length, keyData.drop length)
  | _ => leave KErrArgument

structure CWTLSCertificate where
  iIssuerName : CWTLSName
  iValidityPeriod : CValidityPeriod
  iSubjectName : CWTLSName
  /-- `PublicKey().KeyData()` -/
  iKeyData : Bytes
  iSignature : Bytes
  iEncoding : Bytes

namespace CWTLSCertificate

/-- `ConstructL`, with what is left of the octets. -/
def newL (aBinaryData : Bytes) : Leaving (CWTLSCertificate × Bytes) :=
  match aBinaryData with
  | [] => leave KErrArgument
  | [_] => leave KErrArgument
  | _ :: signing :: rest =>
    if signing ≠ 0x02 then leave KErrNotSupported
    else do
      let (iIssuerName, rest) ← CWTLSName.newL rest
      let (iStart, rest) ← TWTLSDecTime.decodeL rest
      let (iFinish, rest) ← TWTLSDecTime.decodeL rest
      let (iSubjectName, rest) ← CWTLSName.newL rest
      let (iKeyData, rest) ← CWTLSSubjectPublicKeyInfo.newL rest
      let (sigLength, rest) ← TWTLSDecUnsignedInteger.decodeShortL rest 2
      if (rest.length : Int) < sigLength then leave KErrArgument
      else
        let iSignature := rest.take sigLength.toNat
        let rest := rest.drop sigLength.toNat
        let iEncoding := aBinaryData.take (aBinaryData.length - rest.length)
        return ({
          iIssuerName
          iValidityPeriod := ⟨iStart, iFinish⟩
          iSubjectName, iKeyData, iSignature, iEncoding }, rest)

def isSelfSignedL (cert : CWTLSCertificate) : Bool :=
  cert.iSubjectName.exactMatchL cert.iIssuerName

def KWTLSTCAType : Text := [32, 84]
def KWTLSTCAValue : Text := [99, 97]

/-- `IsTCAL`: the subject has a field `T` that says `ca`. -/
def isTCAL (convertToUnicodeFromUtf8 : Bytes → Leaving Text) (cert : CWTLSCertificate) :
    Leaving Bool :=
  match CWTLSStructuredText.textL convertToUnicodeFromUtf8 cert.iSubjectName.iNameData >>=
      CWTLSStructuredText.fieldsL with
  | .ok fields => .ok (CWTLSStructuredText.fieldByName fields KWTLSTCAType = some KWTLSTCAValue)
  | .error (.leave _) => .ok false
  | .error e => .error e

end CWTLSCertificate

/-! ### What a decoded certificate holds -/

theorem decodeShortL_two {aSource : Bytes} (h : 2 ≤ aSource.length) :
    TWTLSDecUnsignedInteger.decodeShortL aSource 2 =
      .ok ((Der.value (aSource.take 2) : Int), aSource.drop 2) := by
  unfold TWTLSDecUnsignedInteger.decodeShortL
  have hlt := Der.value_lt (aSource.take 2)
  rw [length_take_of_le h] at hlt
  rw [if_neg (by omega), if_neg (by omega), TInt.wrap_of_range]
  · unfold KMinTInt
    omega
  · unfold KMaxTInt
    omega

theorem encodingLengthL_ok {aSource : Bytes} {aMinLength : Nat} {length : Int}
    (h : TWTLSDecVector.encodingLengthL aSource aMinLength = .ok length) :
    length = 2 + (Der.value (aSource.take 2) : Int) ∧ length ≤ aSource.length := by
  unfold TWTLSDecVector.encodingLengthL at h
  split at h
  · cases h
  next hshort =>
    rw [decodeShortL_two (by omega)] at h
    simp only [ok_bind] at h
    split at h
    · cases h
    · cases h
      exact ⟨rfl, by omega⟩

/-- The key of a certificate that has been decoded can be decoded. -/
theorem CWTLSSubjectPublicKeyInfo.newL_key {aBinaryData iKeyData rest : Bytes}
    (h : CWTLSSubjectPublicKeyInfo.newL aBinaryData = .ok (iKeyData, rest)) :
    ∃ key, CWTLSRSAPublicKey.newL iKeyData = .ok key := by
  unfold CWTLSSubjectPublicKeyInfo.newL at h
  split at h
  next algorithm params keyData =>
    split at h
    · cases h
    split at h
    · cases h
    obtain ⟨exp, hexp, h⟩ := bind_eq_ok.mp h
    obtain ⟨mod, hmod, h⟩ := bind_eq_ok.mp h
    cases h
    obtain ⟨hexpLength, hexpLe⟩ := encodingLengthL_ok hexp
    obtain ⟨hmodLength, hmodLe⟩ := encodingLengthL_ok hmod
    rw [length_drop] at hmodLe
    generalize hvalue : Der.value (keyData.take 2) = e at hexpLength
    generalize hvalue' : Der.value ((keyData.drop exp.toNat).take 2) = n at hmodLength
    have hlength : (exp + mod).toNat = 2 + e + (2 + n) := by omega
    have hlen : (keyData.take (2 + e + (2 + n))).length = 2 + e + (2 + n) :=
      length_take_of_le (by omega)
    rw [hlength]
    generalize hkey : keyData.take (2 + e + (2 + n)) = key at hlen
    have hfirst : Der.value (key.take 2) = e := by
      rw [← hkey, take_take, Nat.min_eq_left (by omega)]
      exact hvalue
    have hsecond : Der.value (((key.drop 2).drop e).take 2) = n := by
      rw [← hkey, drop_drop, drop_take, take_take, Nat.min_eq_left (by omega)]
      rw [show 2 + e = exp.toNat by omega]
      exact hvalue'
    unfold CWTLSRSAPublicKey.newL TWTLSDecUnsignedInteger.decodeLongL
    rw [decodeShortL_two (by omega), hfirst]
    simp only [ok_bind, length_drop, Int.toNat_natCast]
    rw [if_neg (by omega)]
    simp only [ok_bind]
    rw [decodeShortL_two (by simp; omega), hsecond]
    simp only [ok_bind, length_drop, Int.toNat_natCast]
    rw [if_neg (by omega)]
    exact ⟨_, rfl⟩
  next => cases h

theorem CWTLSCertificate.newL_key {aBinaryData rest : Bytes} {cert : CWTLSCertificate}
    (h : CWTLSCertificate.newL aBinaryData = .ok (cert, rest)) :
    ∃ key, CWTLSRSAPublicKey.newL cert.iKeyData = .ok key := by
  unfold CWTLSCertificate.newL at h
  split at h
  · cases h
  · cases h
  split at h
  · cases h
  obtain ⟨⟨issuer, r₁⟩, -, h⟩ := bind_eq_ok.mp h
  obtain ⟨⟨start, r₂⟩, -, h⟩ := bind_eq_ok.mp h
  obtain ⟨⟨finish, r₃⟩, -, h⟩ := bind_eq_ok.mp h
  obtain ⟨⟨subject, r₄⟩, -, h⟩ := bind_eq_ok.mp h
  obtain ⟨⟨keyData, r₅⟩, hkey, h⟩ := bind_eq_ok.mp h
  obtain ⟨⟨sigLength, r₆⟩, -, h⟩ := bind_eq_ok.mp h
  simp only at h
  split at h
  · cases h
  · cases h
    exact CWTLSSubjectPublicKeyInfo.newL_key hkey

end OsSecurity

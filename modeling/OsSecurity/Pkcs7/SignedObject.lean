/-
Validating the signers of PKCS#7 and CMS messages.

`ValidateSignerLC` of a CMS object looks for the certificate that a signer info names, in its
own certificates or in a list it is given, verifies the signature under its key, and returns
the verdict with the encodings of all X.509 certificates, that one first.  What it verifies
the signature over comes from three places: the content embedded in the object, and a content
and a hash that the caller supplies and the object remembers from one call to the next.
`ValidateSignerL` of a PKCS#7 object has the embedded content only, and looks at nothing but
the issuer.

Hashing, RSA and DSA are parameters (`SignaturePrimitives`).  Which of them is called, on
what, and what becomes of an error, is `CSignedObject`, as the source has it.
-/
import OsSecurity.Pkcs7.SignerInfos

namespace OsSecurity

/-! ### `CSignedObject` -/

/-- What verification is made of. -/
structure SignaturePrimitives where
  /-- The digest of some octets, by algorithm. -/
  final : TAlgorithmId → Bytes → Bytes
  DSAParameters : Type
  DSAPublicKey : Type
  /-- `DSAParametersL` of the key factory -/
  dsaParametersL : Bytes → Leaving DSAParameters
  /-- `DSAPublicKeyL` from encoded parameters and an encoded key -/
  dsaPublicKeyL : Bytes → Bytes → Leaving DSAPublicKey
  /-- `DSAPublicKeyL` from parameters and an encoded key -/
  dsaPublicKeyWithL : DSAParameters → Bytes → Leaving DSAPublicKey
  /-- A signature, decoded and verified by a key over a hash. -/
  verifyDSAL : DSAPublicKey → Bytes → Bytes → Leaving Bool
  /-- A signature, opened by an encoded key and compared with a hash made by the given
  algorithm. -/
  verifyRSAL : Bytes → Bytes → CAlgorithmIdentifier → Bytes → Leaving Bool

structure CSignedObject (P : SignaturePrimitives) where
  iSigningAlgorithm : CSigningAlgorithmIdentifier
  iSignature : Bytes
  iParameters : Option P.DSAParameters

namespace CSignedObject

variable {P : SignaturePrimitives} (self : CSignedObject P) (aEncodedKey : Bytes)

/-- The digests that `VerifyRSASignatureL` knows. -/
def isRSADigest (aAlgorithm : TAlgorithmId) : Bool :=
  aAlgorithm ∈ [.EMD2, .EMD5, .ESHA1, .ESHA224, .ESHA256, .ESHA384, .ESHA512]

/-- `VerifyRSASignatureL(const TDesC8&, const TDesC8&)` -/
def verifyRSASignatureHashL (aHash : Bytes) : Leaving Bool :=
  if self.iSigningAlgorithm.iAsymmetricAlgorithm.iAlgorithmId ≠ .ERSA then leave KErrArgument
  else P.verifyRSAL aEncodedKey self.iSignature self.iSigningAlgorithm.iDigestAlgorithm aHash

/-- `VerifyRSASignatureL(const TDesC8&)` -/
def verifyRSASignatureL (signedDataL : Leaving Bytes) : Leaving Bool :=
  if self.iSigningAlgorithm.iAsymmetricAlgorithm.iAlgorithmId ≠ .ERSA then leave KErrArgument
  else if isRSADigest self.iSigningAlgorithm.iDigestAlgorithm.iAlgorithmId then do
    let hash := P.final self.iSigningAlgorithm.iDigestAlgorithm.iAlgorithmId (← signedDataL)
    self.verifyRSASignatureHashL aEncodedKey hash
  else
    leave KErrArgument

/-- The `TRAP` around both: any error but that of memory is a verdict. -/
def trapRSA : Leaving Bool → Leaving Bool
  | .error (.leave e) => if e = KErrNoMemory then leave e else .ok false
  | outcome => outcome

/-- The public key, with the parameters of the algorithm or those of the certificate. -/
def dsaKeyL : Leaving P.DSAPublicKey :=
  let algId := self.iSigningAlgorithm.iAsymmetricAlgorithm
  if algId.iEncodedParams.length ≠ 0 then P.dsaPublicKeyL algId.iEncodedParams aEncodedKey
  else match self.iParameters with
    | some params => P.dsaPublicKeyWithL params aEncodedKey
    | none => leave KErrArgument

/-- `VerifySignatureL(const TDesC8&, const TDesC8&)` -/
def verifySignatureHashL (aHash : Bytes) : Leaving Bool :=
  if self.iSigningAlgorithm.iAsymmetricAlgorithm.iAlgorithmId = .EDSA then
    if self.iSigningAlgorithm.iDigestAlgorithm.iAlgorithmId ≠ .ESHA1 then leave KErrArgument
    else do
      let key ← self.dsaKeyL aEncodedKey
      P.verifyDSAL key self.iSignature aHash
  else trapRSA (self.verifyRSASignatureHashL aEncodedKey aHash)

/-- `VerifySignatureL(const TDesC8&)`, over what `SignedDataL` returns. -/
def verifySignatureL (signedDataL : Leaving Bytes) : Leaving Bool :=
  if self.iSigningAlgorithm.iAsymmetricAlgorithm.iAlgorithmId = .EDSA then
    if self.iSigningAlgorithm.iDigestAlgorithm.iAlgorithmId ≠ .ESHA1 then leave KErrArgument
    else do
      let hash := P.final .ESHA1 (← signedDataL)
      self.verifySignatureHashL aEncodedKey hash
  else trapRSA (self.verifyRSASignatureL aEncodedKey signedDataL)

end CSignedObject

/-! ### Certificates -/

/-- What decoding its own encoding gives, but for the table of data elements, which a copy
fills anew.  Every way to make a certificate comes to this. -/
structure CX509Certificate.Decoded (pf : Platform) (c : CX509Certificate) : Prop where
  length : c.iEncoding.length ≤ KMaxTInt
  newL : ∃ table, CX509Certificate.newL pf c.iEncoding = .ok { c with iDataElements := table }

/-- A certificate object. -/
abbrev DecodedCertificate (pf : Platform) := { c : CX509Certificate // c.Decoded pf }

/-- `RInteger::operator==` on two serial numbers. -/
def sameSerialNumber (sn1 sn2 : Bytes) : Bool :=
  (TInteger.newDesL sn1).signedCompare (TInteger.newDesL sn2) = 0

/-- A walk over the certificates, with what it has found: `endEntityPos` is −1 at first. -/
structure EndEntity where
  endEntityPos : Int
  endEncodingSize : Nat
  endEntityEncoding : Bytes
  valid : Bool

namespace EndEntity

def start : EndEntity := ⟨-1, 0, [], false⟩

/-- The certificate at `cert` is the end entity. -/
def found (s : EndEntity) (cert : Nat) (aEncoding : Bytes) (valid : Bool) : EndEntity :=
  { s with endEntityPos := cert, endEntityEncoding := aEncoding, valid := valid }

def count (s : EndEntity) (aEncoding : Bytes) : EndEntity :=
  { s with endEncodingSize := s.endEncodingSize + aEncoding.length }

end EndEntity

/-- `TDes8::Append`, into a descriptor of the given length. -/
def appendWithin (aMaxLength : Nat) (d aDes : Bytes) : Leaving Bytes :=
  if aMaxLength < d.length + aDes.length then panic else .ok (d ++ aDes)

/-- The encodings, at their positions from `cert` on, but for the end entity's.  A position
without an X.509 certificate has none. -/
def appendOthers (aMaxLength : Nat) (endEntityPos : Int) :
    Nat → List (Option Bytes) → Bytes → Leaving Bytes
  | _, [], encodingPtr => .ok encodingPtr
  | cert, none :: encodings, encodingPtr =>
    appendOthers aMaxLength endEntityPos (cert + 1) encodings encodingPtr
  | cert, some aEncoding :: encodings, encodingPtr =>
    if (cert : Int) = endEntityPos then
      appendOthers aMaxLength endEntityPos (cert + 1) encodings encodingPtr
    else do
      let encodingPtr ← appendWithin aMaxLength encodingPtr aEncoding
      appendOthers aMaxLength endEntityPos (cert + 1) encodings encodingPtr

/-- What `ValidateSignerLC` does with the end of its walk: the verdict and the chain. -/
def chainEncodingL (s : EndEntity) (encodings : List (Option Bytes)) : Leaving (Bool × Bytes) :=
  if s.endEntityPos = -1 then leave KErrNotFound
  else do
    let encodingPtr ← appendWithin s.endEncodingSize [] s.endEntityEncoding
    return (s.valid, ← appendOthers s.endEncodingSize s.endEntityPos 0 encodings encodingPtr)

/-! ### CMS -/

structure CEncapsulatedContentInfo where
  iIsContentDataPresent : Bool
  iContentData : Bytes

/-- The encoding of an attribute certificate is all the object has of it. -/
inductive CCmsCertificateChoice (pf : Platform) where
  | ECertificateX509 (iCertificate : DecodedCertificate pf)
  | ECertificateAttribute (iEncodedAttributeCertificate : Bytes)

def CCmsCertificateChoice.encoding {pf : Platform} : CCmsCertificateChoice pf → Option Bytes
  | .ECertificateX509 certificate => some certificate.val.iEncoding
  | .ECertificateAttribute _ => none

structure CCmsSignedObject (pf : Platform) where
  iContentInfo : CEncapsulatedContentInfo
  iCertificates : List (CCmsCertificateChoice pf)
  iContentData : Bytes
  iHash : Bytes

namespace CCmsSignedObject

section

variable {pf : Platform} (P : SignaturePrimitives) (self : CCmsSignedObject pf)

def signedDataL : Leaving Bytes :=
  if self.iContentInfo.iIsContentDataPresent then .ok self.iContentInfo.iContentData
  else if self.iContentData ≠ [] then .ok self.iContentData
  else leave KErrArgument

/-- The part of `ValidateSignatureL` that sets up the members of `CSignedObject`. -/
def signedObjectL (aSignerInfo : CCmsSignerInfo) (aEndEntityCert : CX509Certificate) :
    Leaving (CSignedObject P) := do
  let algorithm := aSignerInfo.iSignatureAlgorithm
  let iSigningAlgorithm := ⟨algorithm, aSignerInfo.iDigestAlgorithm⟩
  if algorithm.iAlgorithmId = .EDSA then
    let params ← P.dsaParametersL aEndEntityCert.iSubjectPublicKeyInfo.iAlgId.iEncodedParams
    return ⟨iSigningAlgorithm, aSignerInfo.iSignatureValue, some params⟩
  else
    return ⟨iSigningAlgorithm, aSignerInfo.iSignatureValue, none⟩

def validateSignatureL (aSignerInfo : CCmsSignerInfo) (aEndEntityCert : CX509Certificate) :
    Leaving Bool := do
  let signed ← signedObjectL P aSignerInfo aEndEntityCert
  let key := aEndEntityCert.iSubjectPublicKeyInfo.iEncodedKeyData
  if self.iContentInfo.iIsContentDataPresent ∨ self.iContentData ≠ [] then
    signed.verifySignatureL key self.signedDataL
  else if self.iHash ≠ [] then
    signed.verifySignatureHashL key self.iHash
  else
    leave KErrArgument

/-- Whether the walk takes a certificate for the one that is named. -/
def matchesL (pf : Platform) (signerId : CCmsSignerIdentifier) (certificate : CX509Certificate) :
    Leaving Bool :=
  match signerId with
  | .EIssuerAndSerialNumber name => do
    if ← certificate.iIssuerName.exactMatchL pf name.iIssuerName then
      return sameSerialNumber certificate.iSerialNumber name.iSerialNumber
    else
      return false
  | .ESubjectKeyIdentifier keyId =>
    match certificate.extension KSubjectKeyId with
    | some certExt => do return keyId = (← CX509SubjectKeyIdExt.newL certExt.iData).iKeyIdentifier
    | none => .ok false

/-- One turn of the walk, at an X.509 certificate. -/
def considerL (aSignerInfo : CCmsSignerInfo) (cert : Nat) (certificate : CX509Certificate)
    (s : EndEntity) : Leaving EndEntity :=
  let s := s.count certificate.iEncoding
  if s.endEntityPos = -1 then do
    if ← matchesL pf aSignerInfo.iSignerIdentifier certificate then
      return s.found cert certificate.iEncoding
        (← self.validateSignatureL P aSignerInfo certificate)
    else
      return s
  else
    .ok s

def searchL (aSignerInfo : CCmsSignerInfo) :
    Nat → List (CCmsCertificateChoice pf) → EndEntity → Leaving EndEntity
  | _, [], s => .ok s
  | cert, .ECertificateX509 certificate :: others, s => do
    searchL aSignerInfo (cert + 1) others
      (← self.considerL P aSignerInfo cert certificate.val s)
  | cert, .ECertificateAttribute _ :: others, s => searchL aSignerInfo (cert + 1) others s

/-- The body of both functions that validate a signer. -/
def validateSignerInLC (aSignerInfo : CCmsSignerInfo)
    (certificates : List (CCmsCertificateChoice pf)) : Leaving (Bool × Bytes) := do
  let s ← self.searchL P aSignerInfo 0 certificates .start
  chainEncodingL s (certificates.map (·.encoding))

/-- `ValidateSignerLC(const CCmsSignerInfo&, HBufC8*&)` -/
def validateSignerLC (aSignerInfo : CCmsSignerInfo) : Leaving (Bool × Bytes) :=
  self.validateSignerInLC P aSignerInfo self.iCertificates

/-- `ValidateSignerLC(const CCmsSignerInfo&, const RPointerArray<CX509Certificate>&, HBufC8*&)` -/
def validateSignerWithLC (aSignerInfo : CCmsSignerInfo)
    (aCertificates : List (DecodedCertificate pf)) : Leaving (Bool × Bytes) :=
  self.validateSignerInLC P aSignerInfo (aCertificates.map .ECertificateX509)

def setContentData (aContentData : Bytes) : CCmsSignedObject pf :=
  { self with iContentData := aContentData }

def setHash (aHash : Bytes) : CCmsSignedObject pf := { self with iHash := aHash }

end

/-- The arguments `aIsHash` and `aContentDataOrHash`, where the caller gives them. -/
inductive Supplied where
  | content (aContentData : Bytes)
  | hash (aHash : Bytes)

/-- A call of one of the four functions. -/
structure Call (pf : Platform) where
  aSignerInfo : CCmsSignerInfo
  aCertificates : Option (List (DecodedCertificate pf))
  supplied : Option Supplied

variable {pf : Platform} (P : SignaturePrimitives) (self : CCmsSignedObject pf)

/-- What the call leaves in the object, however it ends. -/
def after (call : Call pf) : CCmsSignedObject pf :=
  match call.supplied with
  | none => self
  | some (.content aContentData) => self.setContentData aContentData
  | some (.hash aHash) => self.setHash aHash

/-- The certificates the call looks through. -/
def certificatesOf (call : Call pf) : List (CCmsCertificateChoice pf) :=
  match call.aCertificates with
  | none => self.iCertificates
  | some aCertificates => aCertificates.map .ECertificateX509

/-- What the call returns. -/
def validateL (call : Call pf) : Leaving (Bool × Bytes) :=
  match call.aCertificates with
  | none => (self.after call).validateSignerLC P call.aSignerInfo
  | some aCertificates => (self.after call).validateSignerWithLC P call.aSignerInfo aCertificates

/-- The object after some calls. -/
def afterAll (calls : List (Call pf)) : CCmsSignedObject pf := calls.foldl after self

end CCmsSignedObject

/-! ### PKCS#7 -/

/-- Extended certificates are not decoded, so that every certificate is an X.509 one. -/
structure CPKCS7SignedObject (pf : Platform) where
  /-- The embedded content, which is empty where there is none. -/
  iContentData : Bytes
  iCertificates : List (DecodedCertificate pf)

namespace CPKCS7SignedObject

variable {pf : Platform} (P : SignaturePrimitives) (self : CPKCS7SignedObject pf)

def signedDataL : Leaving Bytes := .ok self.iContentData

/-- The members of `CSignedObject` as `ValidateSignatureL` sets them. -/
def signedObject (aSignerInfo : CPKCS7SignerInfo) : CSignedObject P :=
  ⟨⟨aSignerInfo.iDigestEncryptionAlgorithm, aSignerInfo.iDigestAlgorithm⟩,
    aSignerInfo.iEncryptedDigest, none⟩

def validateSignatureL (aSignerInfo : CPKCS7SignerInfo) (aEndEntityCert : CX509Certificate) :
    Leaving Bool :=
  (signedObject P aSignerInfo).verifySignatureL aEndEntityCert.iSubjectPublicKeyInfo.iEncodedKeyData
    self.signedDataL

/-- One turn of the walk: a later match takes the place of an earlier one. -/
def considerL (aSignerInfo : CPKCS7SignerInfo) (cert : Nat) (certificate : CX509Certificate)
    (s : EndEntity) : Leaving EndEntity := do
  let s := s.count certificate.iEncoding
  if ← certificate.iIssuerName.exactMatchL pf aSignerInfo.iIssuerAndSerialNumber.iIssuerName then
    return s.found cert certificate.iEncoding
      (← self.validateSignatureL P aSignerInfo certificate)
  else
    return s

def searchL (aSignerInfo : CPKCS7SignerInfo) :
    Nat → List (DecodedCertificate pf) → EndEntity → Leaving EndEntity
  | _, [], s => .ok s
  | cert, certificate :: others, s => do
    searchL aSignerInfo (cert + 1) others
      (← self.considerL P aSignerInfo cert certificate.val s)

def validateSignerL (aSignerInfo : CPKCS7SignerInfo) : Leaving (Bool × Bytes) := do
  let s ← self.searchL P aSignerInfo 0 self.iCertificates .start
  chainEncodingL s (self.iCertificates.map fun certificate => some certificate.val.iEncoding)

end CPKCS7SignedObject

end OsSecurity

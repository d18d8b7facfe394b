/-
Certificates: `x509cert.cpp`.

`ConstructCertL` fills the table of data elements through a pointer that moves on by one
slot with every write.  Three optional components end the certificate, each a case of its
own in three nested switches, and every case pads with NULLs for the components it takes
to be missing.  What is written, in order, is `writes`; the table is the first
`KX509MaxDataElements` of it, and the rest lands behind the table.

A copy computes its table from its own encoding and asks the original only which of the
optional slots are in use.
-/
import OsSecurity.Asn1.Time
import OsSecurity.X509.AlgorithmId
import OsSecurity.X509.Extensions

namespace OsSecurity

/-! ### The components of a certificate -/

def KMD2WithRSA : Text := dotted [1, 2, 840, 113549, 1, 1, 2]
def KMD5WithRSA : Text := dotted [1, 2, 840, 113549, 1, 1, 4]
def KSHA1WithRSA : Text := dotted [1, 2, 840, 113549, 1, 1, 5]
def KSHA256WithRSA : Text := dotted [1, 2, 840, 113549, 1, 1, 11]
def KSHA384WithRSA : Text := dotted [1, 2, 840, 113549, 1, 1, 12]
def KSHA512WithRSA : Text := dotted [1, 2, 840, 113549, 1, 1, 13]
def KSHA224WithRSA : Text := dotted [1, 2, 840, 113549, 1, 1, 14]
def KDSAWithSHA1 : Text := dotted [1, 2, 840, 10040, 4, 3]
def KSHA1WithRSASignature : Text := dotted [1, 3, 14, 3, 2, 29]

structure CSigningAlgorithmIdentifier where
  iAsymmetricAlgorithm : CAlgorithmIdentifier
  iDigestAlgorithm : CAlgorithmIdentifier
  deriving DecidableEq

namespace CX509SigningAlgorithmIdentifier

/-- The identifiers and the two algorithms each stands for, in the order they are
compared. -/
def signingAlgorithms : List (Text × TAlgorithmId × TAlgorithmId) :=
  [(KDSAWithSHA1, .EDSA, .ESHA1), (KMD2WithRSA, .ERSA, .EMD2), (KMD5WithRSA, .ERSA, .EMD5),
    (KSHA1WithRSA, .ERSA, .ESHA1), (KSHA1WithRSASignature, .ERSA, .ESHA1),
    (KSHA224WithRSA, .ERSA, .ESHA224), (KSHA256WithRSA, .ERSA, .ESHA256),
    (KSHA384WithRSA, .ERSA, .ESHA384), (KSHA512WithRSA, .ERSA, .ESHA512)]

/-- `ConstructL`, on the elements of the sequence: the second has to be a NULL when it is
the last. -/
def constructSeqL : List TASN1DecGeneric → Leaving CSigningAlgorithmIdentifier
  | [] => leave KErrArgument
  | first :: others => do
    let oidDes ← TASN1DecObjectIdentifier.decodeDERL first
    match signingAlgorithms.lookup oidDes with
    | none => leave KErrNotSupported
    | some (algId, digestId) =>
      match others with
      | [gen] => do
        TASN1DecNull.decodeDERL gen
        return ⟨⟨algId, []⟩, ⟨digestId, []⟩⟩
      | _ => return ⟨⟨algId, []⟩, ⟨digestId, []⟩⟩

def newL (aBinaryData : Bytes) : Leaving CSigningAlgorithmIdentifier := do
  constructSeqL (← TASN1DecSequence.decodeRangeLC aBinaryData 0 1 KMaxTInt).1

end CX509SigningAlgorithmIdentifier

/-- The two ends, as `TTime`s. -/
structure CValidityPeriod where
  iStart : Int
  iFinish : Int

def CValidityPeriod.valid (self : CValidityPeriod) (aTime : Int) : Bool :=
  self.iStart < aTime ∧ aTime < self.iFinish

namespace CX509ValidityPeriod

def constructSeqL (pf : Platform) : List TASN1DecGeneric → Leaving CValidityPeriod
  | [start, finish] => do
    let iStart ← TASN1DecX509Time.decodeContentsL pf start
    return ⟨iStart, ← TASN1DecX509Time.decodeContentsL pf finish⟩
  | _ => leave KErrArgument

def newL (pf : Platform) (aBinaryData : Bytes) : Leaving CValidityPeriod := do
  constructSeqL pf (← TASN1DecSequence.decodeDERLC aBinaryData 0).1

end CX509ValidityPeriod

structure CSubjectPublicKeyInfo where
  iAlgId : CAlgorithmIdentifier
  iEncodedKeyData : Bytes

namespace CX509SubjectPublicKeyInfo

def constructSeqL : List TASN1DecGeneric → Leaving CSubjectPublicKeyInfo
  | algId :: keyData :: _ => do
    let iAlgId ← CX509AlgorithmIdentifier.newLC (← algId.encoding)
    return ⟨iAlgId, ← TASN1DecBitString.extractOctetStringL keyData⟩
  | _ => leave KErrArgument

def newL (aBinaryData : Bytes) : Leaving CSubjectPublicKeyInfo := do
  constructSeqL (← TASN1DecSequence.decodeRangeLC aBinaryData 0 2 KMaxTInt).1

end CX509SubjectPublicKeyInfo

structure CX509CertExtension where
  iId : Text
  iCritical : Bool
  iData : Bytes

namespace CX509CertExtension

def constructSeqL : List TASN1DecGeneric → Leaving CX509CertExtension
  | first :: second :: others => do
    let iId ← TASN1DecObjectIdentifier.decodeDERL first
    if second.tag ≠ EASN1Boolean then
      return ⟨iId, false, ← second.encoding⟩
    else
      let iCritical ← TASN1DecBoolean.decodeDERL second
      match others with
      | [third] => return ⟨iId, iCritical, ← third.encoding⟩
      | _ => leave KErrArgument
  | _ => leave KErrArgument

def newL (aBinaryData : Bytes) : Leaving CX509CertExtension := do
  constructSeqL (← TASN1DecSequence.decodeRangeLC aBinaryData 0 2 KMaxTInt).1

end CX509CertExtension

/-! ### Certificates -/

def KX509MaxDataElements : Nat := 10

structure CX509Certificate where
  iEncoding : Bytes
  iSigningAlgorithm : CSigningAlgorithmIdentifier
  iSignature : Bytes
  iVersion : Int
  iSerialNumber : Bytes
  iIssuerName : CX500DistinguishedName
  iValidityPeriod : CValidityPeriod
  iSubjectName : CX500DistinguishedName
  iSubjectPublicKeyInfo : CSubjectPublicKeyInfo
  iIssuerUid : Bytes
  iSubjectUid : Bytes
  iExtensions : List CX509CertExtension
  /-- The table of data elements; NULL is `none`. -/
  iDataElements : List (Option Bytes)

namespace CX509Certificate

def EVersionNumber : Nat := 0
def ESerialNumber : Nat := 1
def EAlgorithmId : Nat := 2
def EIssuerName : Nat := 3
def EValidityPeriod : Nat := 4
def ESubjectName : Nat := 5
def ESubjectPublicKeyInfo : Nat := 6
def EIssuerUID : Nat := 7
def ESubjectUID : Nat := 8
def EExtensionList : Nat := 9

/-- `Extension`: the first with the identifier. -/
def extension (self : CX509Certificate) (aExtensionName : Text) : Option CX509CertExtension :=
  self.iExtensions.find? fun ext => ext.iId = aExtensionName

def dataElementEncoding (self : CX509Certificate) (aIndex : Nat) : Option Bytes :=
  self.iDataElements.getD aIndex none

def signedDataL (iEncoding : Bytes) : Leaving Bytes := do
  match (← TASN1DecSequence.decodeRangeLC iEncoding 0 3 3).1 with
  | gen :: _ => gen.encoding
  | [] => panic

/-- The elements of the signed data. -/
def signedElementsL (iEncoding : Bytes) : Leaving (List TASN1DecGeneric) := do
  return (← TASN1DecSequence.decodeRangeLC (← signedDataL iEncoding) 0 6 KMaxTInt).1

/-- Whether the element is the context-specific component with a tag. -/
def isComponent (aTag : UInt32) (gen : TASN1DecGeneric) : Bool :=
  gen.cls = .EContextSpecific ∧ gen.tag = aTag

/-- The version, the write for it, and the elements from the serial number on. -/
def versionL : List TASN1DecGeneric → Leaving (Int × Option Bytes × List TASN1DecGeneric)
  | [] => panic
  | curr :: others => do
    if isComponent 0 curr then
      let ver ← TASN1DecGeneric.initL (← curr.getContentDER)
      match ← ver.getContentDER with
      | [b] =>
        let iVersion : Int := b.toNat + 1
        if iVersion < 1 ∨ 3 < iVersion ∨ (curr :: others).length < 7 then
          leave KErrArgument
        else
          return (iVersion, some (← curr.encoding), others)
      | _ => leave KErrArgument
    else
      return (1, none, curr :: others)

/-- The optional components: what they were decoded to, which of the flags are set, the
writes so far, and the slots whose component has been decoded. -/
structure Optionals where
  iIssuerUid : Option Bytes
  iSubjectUid : Option Bytes
  iExtensions : List CX509CertExtension
  hasIssuerUid : Bool
  hasSubjectUid : Bool
  hasExts : Bool
  writes : List (Option Bytes)
  decoded : List Nat

/-- `*pElement++ = NULL`, `n` times, and then `*pElement++ = new(ELeave) TPtrC8(..)`. -/
def Optionals.put (s : Optionals) (n : Nat) (aEncoding : Bytes) : Optionals :=
  { s with writes := s.writes ++ List.replicate n none ++ [some aEncoding] }

def decodeUidL (iVersion : Int) (aBinaryData : Bytes) (aHasElementAlready : Bool) : Leaving Bytes :=
  if aHasElementAlready ∨ iVersion = 1 then leave KErrArgument else .ok aBinaryData

/-- The flag is set and never looked at. -/
def decodeExtsL (iExtensions : List CX509CertExtension) (aBinaryData : Bytes)
    (_aHasElementAlready : Bool) : Leaving (List CX509CertExtension) := do
  let (seq, _) ← TASN1DecSequence.decodeDERLC aBinaryData 0
  let exts ← seq.mapM fun gen => do CX509CertExtension.newL (← gen.encoding)
  return iExtensions ++ exts

namespace Optionals

def issuerUidL (s : Optionals) (iVersion : Int) (curr : TASN1DecGeneric) : Leaving Optionals := do
  let uid ← decodeUidL iVersion (← curr.getContentDER) s.hasIssuerUid
  return { s with
    iIssuerUid := some uid, hasIssuerUid := true, decoded := s.decoded ++ [EIssuerUID] }

def subjectUidL (s : Optionals) (iVersion : Int) (curr : TASN1DecGeneric) : Leaving Optionals := do
  let uid ← decodeUidL iVersion (← curr.getContentDER) s.hasSubjectUid
  return { s with
    iSubjectUid := some uid, hasSubjectUid := true, decoded := s.decoded ++ [ESubjectUID] }

def extensionsL (s : Optionals) (curr : TASN1DecGeneric) : Leaving Optionals := do
  let exts ← decodeExtsL s.iExtensions (← curr.getContentDER) s.hasExts
  return { s with
    iExtensions := exts, hasExts := true, decoded := s.decoded ++ [EExtensionList] }

/-- The first switch. -/
def firstL (s : Optionals) (iVersion : Int) (curr : TASN1DecGeneric) : Leaving Optionals := do
  if curr.cls ≠ .EContextSpecific then
    leave KErrArgument
  else if curr.tag = 1 then
    return (← s.issuerUidL iVersion curr).put 0 (← curr.encoding)
  else if curr.tag = 2 then
    return (← s.subjectUidL iVersion curr).put 1 (← curr.encoding)
  else if curr.tag = 3 then
    return (← s.extensionsL curr).put 2 (← curr.encoding)
  else
    leave KErrArgument

/-- The second switch, which no longer looks at the class. -/
def secondL (s : Optionals) (iVersion : Int) (curr : TASN1DecGeneric) : Leaving Optionals := do
  if curr.tag = 2 then
    return (← s.subjectUidL iVersion curr).put 0 (← curr.encoding)
  else if curr.tag = 3 then
    return (← s.extensionsL curr).put 1 (← curr.encoding)
  else
    leave KErrArgument

/-- The third. -/
def thirdL (s : Optionals) (curr : TASN1DecGeneric) : Leaving Optionals := do
  if curr.tag = 3 then
    return (← s.extensionsL curr).put 0 (← curr.encoding)
  else
    leave KErrArgument

def decodeL (s : Optionals) (iVersion : Int) : List TASN1DecGeneric → Leaving Optionals
  | [] => .ok s
  | [a] => s.firstL iVersion a
  | [a, b] => do (← s.firstL iVersion a).secondL iVersion b
  | [a, b, c] => do (← (← s.firstL iVersion a).secondL iVersion b).thirdL c
  | a :: b :: c :: _ => do
    let _ ← (← (← s.firstL iVersion a).secondL iVersion b).thirdL c
    leave KErrArgument

end Optionals

/-- A certificate as `ConstructCertL` leaves it, with what it wrote through `pElement` and
the slots of the optional components it decoded, one entry for each time. -/
structure Construction where
  cert : CX509Certificate
  writes : List (Option Bytes)
  decoded : List Nat

/-- What a table is after `Reset` and then these writes. -/
def tableOf (writes : List (Option Bytes)) : List (Option Bytes) :=
  (writes ++ List.replicate KX509MaxDataElements none).take KX509MaxDataElements

/-- `ConstructCertL` from the serial number on. -/
def constructFieldsL (pf : Platform) (iEncoding : Bytes)
    (iSigningAlgorithm : CSigningAlgorithmIdentifier) (iSignature : Bytes) (iVersion : Int)
    (version : Option Bytes) : List TASN1DecGeneric → Leaving Construction
  | serial :: algorithm :: issuer :: validity :: subject :: key :: others => do
    if serial.tag ≠ EASN1Integer then
      leave KErrArgument
    let iSerialNumber ← serial.getContentDER
    let serialData ← serial.encoding
    let algorithmData ← algorithm.encoding
    let algorithmId ← CX509SigningAlgorithmIdentifier.newL algorithmData
    if iSigningAlgorithm ≠ algorithmId then
      leave KErrArgument
    let issuerData ← issuer.encoding
    let iIssuerName ← CX500DistinguishedName.newL issuerData
    let validityData ← validity.encoding
    let iValidityPeriod ← CX509ValidityPeriod.newL pf validityData
    let subjectData ← subject.encoding
    let iSubjectName ← CX500DistinguishedName.newL subjectData
    let keyData ← key.encoding
    let iSubjectPublicKeyInfo ← CX509SubjectPublicKeyInfo.newL keyData
    let s ← Optionals.decodeL
      ⟨none, none, [], false, false, false,
        [version, some serialData, some algorithmData, some issuerData, some validityData,
          some subjectData, some keyData], []⟩ iVersion others
    return {
      cert := {
        iEncoding, iSigningAlgorithm, iSignature, iVersion, iSerialNumber, iIssuerName
        iValidityPeriod, iSubjectName, iSubjectPublicKeyInfo
        iIssuerUid := s.iIssuerUid.getD []
        iSubjectUid := s.iSubjectUid.getD []
        iExtensions := s.iExtensions
        iDataElements := tableOf s.writes }
      writes := s.writes
      decoded := s.decoded }
  | _ => panic

def constructCertL (pf : Platform) (iEncoding : Bytes)
    (iSigningAlgorithm : CSigningAlgorithmIdentifier) (iSignature : Bytes) :
    Leaving Construction := do
  let seq ← signedElementsL iEncoding
  let (iVersion, version, others) ← versionL seq
  constructFieldsL pf iEncoding iSigningAlgorithm iSignature iVersion version others

/-- The certificate at a position of the data, and the position behind it. -/
def encodingL (aBinaryData : Bytes) (aPos : Int) : Leaving (Bytes × Int) := do
  let gen ← TASN1DecGeneric.initL
    (← TDes.right aBinaryData (TInt.wrap (aBinaryData.length - aPos)))
  -- the outermost tag is not part of the signed data
  if gen.tag ≠ EASN1Sequence then
    leave KErrArgument
  return (← gen.encoding, TInt.wrap (aPos + gen.lengthDER))

/-- `ConstructL(const TDesC8&, TInt&)`, without the fingerprint. -/
def constructL (pf : Platform) (aBinaryData : Bytes) (aPos : Int) :
    Leaving (Construction × Int) := do
  let (iEncoding, aPos) ← encodingL aBinaryData aPos
  match (← TASN1DecSequence.decodeRangeLC iEncoding 0 3 3).1 with
  | [_, encSigAlg, encSignature] =>
    let iSigningAlgorithm ← CX509SigningAlgorithmIdentifier.newL (← encSigAlg.encoding)
    let iSignature ← TASN1DecBitString.extractOctetStringL encSignature
    return (← constructCertL pf iEncoding iSigningAlgorithm iSignature, aPos)
  | _ => panic

def newL (pf : Platform) (aBinaryData : Bytes) : Leaving CX509Certificate := do
  return (← constructL pf aBinaryData 0).1.cert

/-- Slot by slot: the next element where the slot is in use, NULL where it is not. -/
def fillL : List Bool → List TASN1DecGeneric → Leaving (List (Option Bytes))
  | [], _ => .ok []
  | false :: used, seq => do return none :: (← fillL used seq)
  | true :: _, [] => panic
  | true :: used, gen :: seq => do
    let aEncoding ← gen.encoding
    return some aEncoding :: (← fillL used seq)

/-- `InitDataElementsL`: the table of a copy of the certificate. -/
def initDataElementsL (aCertificate : CX509Certificate) : Leaving (List (Option Bytes)) := do
  let seq ← signedElementsL aCertificate.iEncoding
  let inUse := fun aIndex => (aCertificate.dataElementEncoding aIndex).isSome
  fillL ([inUse EVersionNumber] ++ List.replicate 6 true ++
    [inUse EIssuerUID, inUse ESubjectUID, inUse EExtensionList]) seq

/-- `ConstructL(const CX509Certificate&)` -/
def copyL (aCertificate : CX509Certificate) : Leaving CX509Certificate := do
  return { aCertificate with iDataElements := ← initDataElementsL aCertificate }

end CX509Certificate

end OsSecurity

/-
The certificate extensions path validation looks at: `x509CertExt_v2.cpp`.

Each extension's data is an OCTET STRING around the encoding of its own type.  The base
class checks the tag, lets the extension decode what is inside, and checks that it used
all of it.
-/
import OsSecurity.X500.DistinguishedName
import OsSecurity.X509.GeneralName

namespace OsSecurity

def KBasicConstraints : Text := dotted [2, 5, 29, 19]
def KSubjectAltName : Text := dotted [2, 5, 29, 17]
def KKeyUsage : Text := dotted [2, 5, 29, 15]
def KNameConstraints : Text := dotted [2, 5, 29, 30]
def KPolicyConstraints : Text := dotted [2, 5, 29, 36]
def KCertPolicies : Text := dotted [2, 5, 29, 32]
def KPolicyMapping : Text := dotted [2, 5, 29, 33]
def KSubjectKeyId : Text := dotted [2, 5, 29, 14]
def KExtendedKeyUsage : Text := dotted [2, 5, 29, 37]

/-- `CX509ExtensionBase::ConstructL` around the `DoConstructL` of an extension. -/
def constructExtensionL {α : Type} (doConstructL : Bytes → Int → Leaving (α × Int))
    (aBinaryData : Bytes) : Leaving α := do
  let dec ← TASN1DecGeneric.initL aBinaryData
  if dec.tag ≠ EASN1OctetString then
    leave KErrArgument
  let end' := dec.lengthDER
  let (ext, aPos) ← doConstructL aBinaryData dec.lengthDERHeader
  if aPos ≠ end' then
    leave KErrArgument
  return ext

/-! ### Basic constraints -/

structure CX509BasicConstraintsExt where
  iIsCA : Bool
  iMaxChainLen : Int
  deriving DecidableEq

namespace CX509BasicConstraintsExt

/-- The two optional components.  Only an integer behind a boolean is checked for a
negative value. -/
def decodeSeqL : List TASN1DecGeneric → Leaving CX509BasicConstraintsExt
  | [] => .ok ⟨false, KMaxTInt⟩
  | [curr] => do
    if curr.tag = EASN1Boolean then
      return ⟨← TASN1DecBoolean.decodeDERL curr, KMaxTInt⟩
    else
      return ⟨false, ← TASN1DecInteger.decodeDERShortL curr⟩
  | curr :: next :: others => do
    if curr.tag = EASN1Boolean then
      let iIsCA ← TASN1DecBoolean.decodeDERL curr
      let iMaxChainLen ← TASN1DecInteger.decodeDERShortL next
      if iMaxChainLen < 0 ∨ others ≠ [] then
        leave KErrArgument
      else
        return ⟨iIsCA, iMaxChainLen⟩
    else
      let _ ← TASN1DecInteger.decodeDERShortL curr
      leave KErrArgument

def doConstructL (aBinaryData : Bytes) (aPos : Int) :
    Leaving (CX509BasicConstraintsExt × Int) := do
  let (seq, aPos) ← TASN1DecSequence.decodeDERLC aBinaryData aPos
  return (← decodeSeqL seq, aPos)

def newL : Bytes → Leaving CX509BasicConstraintsExt := constructExtensionL doConstructL

end CX509BasicConstraintsExt

/-! ### Alternative names -/

structure CX509AltNameExt where
  iAuthorityName : List CX509GeneralName

namespace CX509AltNameExt

def doConstructL (aBinaryData : Bytes) (aPos : Int) : Leaving (CX509AltNameExt × Int) := do
  let (seq, aPos) ← TASN1DecSequence.decodeRangeLC aBinaryData aPos 0 KMaxTInt
  let iAuthorityName ← seq.mapM fun gen => do CX509GeneralName.newL (← gen.encoding)
  return (⟨iAuthorityName⟩, aPos)

def newL : Bytes → Leaving CX509AltNameExt := constructExtensionL doConstructL

/-- `Match`: the two arrays, element by element. -/
def match' (self aExt : CX509AltNameExt) : Bool :=
  if aExt.iAuthorityName.length ≠ self.iAuthorityName.length then false
  else (self.iAuthorityName.zip aExt.iAuthorityName).all fun (thisGN, otherGN) =>
    thisGN.exactMatch otherGN

end CX509AltNameExt

/-! ### Key usage -/

/-- The bits of `TX509KeyUsage`, in their order. -/
inductive TX509KeyUsage where
  | EX509DigitalSignature | EX509NonRepudiation | EX509KeyEncipherment
  | EX509DataEncipherment | EX509KeyAgreement | EX509KeyCertSign | EX509CRLSign
  | EX509EncipherOnly | EX509DecipherOnly

/-- The bit's number. -/
def TX509KeyUsage.bit : TX509KeyUsage → Nat
  | .EX509DigitalSignature => 0
  | .EX509NonRepudiation => 1
  | .EX509KeyEncipherment => 2
  | .EX509DataEncipherment => 3
  | .EX509KeyAgreement => 4
  | .EX509KeyCertSign => 5
  | .EX509CRLSign => 6
  | .EX509EncipherOnly => 7
  | .EX509DecipherOnly => 8

structure CX509KeyUsageExt where
  iData : Bytes
  iLength : Int

namespace CX509KeyUsageExt

def doConstructL (aBinaryData : Bytes) (aPos : Int) : Leaving (CX509KeyUsageExt × Int) := do
  let gen ← TASN1DecGeneric.initL (← TDes.right aBinaryData (TInt.wrap (aBinaryData.length - aPos)))
  if gen.tag ≠ EASN1BitString then
    leave KErrArgument
  match ← gen.getContentDER with
  | paddingLength :: d :: ds =>
    return (⟨d :: ds, (d :: ds).length * 8 - paddingLength.toNat⟩, TInt.wrap (aPos + gen.lengthDER))
  | _ => leave KErrArgument

def newL : Bytes → Leaving CX509KeyUsageExt := constructExtensionL doConstructL

/-- `CX509BitString::IsSet` -/
def isSet (self : CX509KeyUsageExt) (aUsage : TX509KeyUsage) : Bool :=
  let aBit := aUsage.bit
  (aBit : Int) < self.iLength ∧ (self.iData.getD (aBit / 8) 0) &&& (1 <<< (7 - aBit % 8).toUInt8) ≠ 0

end CX509KeyUsageExt

/-! ### Name constraints -/

structure CX509GeneralSubtree where
  iName : CX509GeneralName
  iMinDist : Int
  iMaxDist : Int

namespace CX509GeneralSubtree

/-- The elements of the sequence.  A third one is never counted as read, so a subtree
with both distances is refused. -/
def decodeSeqL : List TASN1DecGeneric → Leaving CX509GeneralSubtree
  | [] => leave KErrArgument
  | [curr] => do return ⟨← CX509GeneralName.newL (← curr.encoding), 0, KMaxTInt⟩
  | curr :: dist :: others => do
    let iName ← CX509GeneralName.newL (← curr.encoding)
    if dist.cls ≠ .EContextSpecific then
      leave KErrArgument
    let iMinDist ← if dist.tag = 0 then TASN1DecInteger.decodeDERShortL dist else pure 0
    let iMaxDist ← if dist.tag = 1 then TASN1DecInteger.decodeDERShortL dist else pure KMaxTInt
    match others with
    | [] => return ⟨iName, iMinDist, iMaxDist⟩
    | next :: _ =>
      if dist.tag ≠ 1 ∧ next.cls = .EContextSpecific ∧ next.tag = 1 then
        let _ ← TASN1DecInteger.decodeDERShortL next
        leave KErrArgument
      else
        leave KErrArgument

def newL (aBinaryData : Bytes) : Leaving CX509GeneralSubtree := do
  decodeSeqL (← TASN1DecSequence.decodeRangeLC aBinaryData 0 1 KMaxTInt).1

end CX509GeneralSubtree

structure CX509NameConstraintsExt where
  iExcludedSubtrees : List CX509GeneralSubtree
  iPermittedSubtrees : List CX509GeneralSubtree

namespace CX509NameConstraintsExt

def addSubtreesL (aBinaryData : Bytes) : Leaving (List CX509GeneralSubtree) := do
  let (seq, _) ← TASN1DecSequence.decodeRangeLC aBinaryData 0 1 KMaxTInt
  seq.mapM fun gen => do CX509GeneralSubtree.newL (← gen.encoding)

def decodeSeqL : List TASN1DecGeneric → Leaving CX509NameConstraintsExt
  | [] => .ok ⟨[], []⟩
  | curr :: others => do
    if curr.cls ≠ .EContextSpecific then
      leave KErrArgument
    let first ←
      if curr.tag = 0 then do pure ⟨[], ← addSubtreesL (← curr.encoding)⟩
      else if curr.tag = 1 then do pure ⟨← addSubtreesL (← curr.encoding), []⟩
      else leave KErrArgument
    match others with
    | [] => return first
    | next :: _ =>
      if next.cls ≠ .EContextSpecific ∨ next.tag ≠ 1 ∨ curr.tag = 1 then
        leave KErrArgument
      return { first with iExcludedSubtrees := ← addSubtreesL (← next.encoding) }

def doConstructL (aBinaryData : Bytes) (aPos : Int) :
    Leaving (CX509NameConstraintsExt × Int) := do
  let (seq, aPos) ← TASN1DecSequence.decodeDERLC aBinaryData aPos
  return (← decodeSeqL seq, aPos)

def newL : Bytes → Leaving CX509NameConstraintsExt := constructExtensionL doConstructL

end CX509NameConstraintsExt

/-! ### Policies -/

structure TX509PolicyConstraint where
  iRequired : Bool
  iCountdown : Int

structure CX509PolicyConstraintsExt where
  iRequirePolicy : TX509PolicyConstraint
  iInhibitPolicyMapping : TX509PolicyConstraint

namespace CX509PolicyConstraintsExt

/-- The first component. -/
def decodeFirstL (curr : TASN1DecGeneric) : Leaving CX509PolicyConstraintsExt :=
  if curr.cls ≠ .EContextSpecific then leave KErrArgument
  else if curr.tag = 0 then do
    return ⟨⟨true, ← TASN1DecInteger.decodeDERShortL curr⟩, ⟨false, 0⟩⟩
  else if curr.tag = 1 then do
    return ⟨⟨false, 0⟩, ⟨true, ← TASN1DecInteger.decodeDERShortL curr⟩⟩
  else leave KErrArgument

def decodeSeqL : List TASN1DecGeneric → Leaving CX509PolicyConstraintsExt
  | [] => .ok ⟨⟨false, 0⟩, ⟨false, 0⟩⟩
  | [curr] => decodeFirstL curr
  | curr :: next :: others => do
    let first ← decodeFirstL curr
    if first.iInhibitPolicyMapping.iRequired ∨ next.cls ≠ .EContextSpecific ∨ next.tag ≠ 1 then
      leave KErrArgument
    let iCountdown ← TASN1DecInteger.decodeDERShortL next
    if others ≠ [] then
      leave KErrArgument
    return { first with iInhibitPolicyMapping := ⟨true, iCountdown⟩ }

def doConstructL (aBinaryData : Bytes) (aPos : Int) :
    Leaving (CX509PolicyConstraintsExt × Int) := do
  let (seq, aPos) ← TASN1DecSequence.decodeDERLC aBinaryData aPos
  return (← decodeSeqL seq, aPos)

def newL : Bytes → Leaving CX509PolicyConstraintsExt := constructExtensionL doConstructL

end CX509PolicyConstraintsExt

structure CX509PolicyQualifierInfo where
  iPolicyQualifierId : Text
  iData : Bytes
  deriving DecidableEq

namespace CX509PolicyQualifierInfo

/-- The data is the encoding of the first element, the identifier's own: `curr` is not
moved on. -/
def decodeSeqL : List TASN1DecGeneric → Leaving CX509PolicyQualifierInfo
  | [] => leave KErrArgument
  | [curr] => do return ⟨← TASN1DecObjectIdentifier.decodeDERL curr, []⟩
  | curr :: _ :: others => do
    let iPolicyQualifierId ← TASN1DecObjectIdentifier.decodeDERL curr
    let iData ← curr.encoding
    if others ≠ [] then
      leave KErrArgument
    return ⟨iPolicyQualifierId, iData⟩

def newL (aBinaryData : Bytes) : Leaving CX509PolicyQualifierInfo := do
  decodeSeqL (← TASN1DecSequence.decodeRangeLC aBinaryData 0 1 KMaxTInt).1

end CX509PolicyQualifierInfo

structure CX509CertPolicyInfo where
  iCertPolicyId : Text
  iQualifiers : List CX509PolicyQualifierInfo
  deriving DecidableEq

namespace CX509CertPolicyInfo

def decodeSeqL : List TASN1DecGeneric → Leaving CX509CertPolicyInfo
  | [] => leave KErrArgument
  | [curr] => do return ⟨← TASN1DecObjectIdentifier.decodeDERL curr, []⟩
  | curr :: next :: others => do
    let iCertPolicyId ← TASN1DecObjectIdentifier.decodeDERL curr
    let seqQualifier ← TASN1DecSequence.decodeGenericLC next
    let iQualifiers ← seqQualifier.mapM fun qGen => do
      CX509PolicyQualifierInfo.newL (← qGen.encoding)
    if others ≠ [] then
      leave KErrArgument
    return ⟨iCertPolicyId, iQualifiers⟩

def newL (aBinaryData : Bytes) : Leaving CX509CertPolicyInfo := do
  decodeSeqL (← TASN1DecSequence.decodeRangeLC aBinaryData 0 1 KMaxTInt).1

end CX509CertPolicyInfo

structure CX509CertPoliciesExt where
  iPolicies : List CX509CertPolicyInfo
  deriving DecidableEq

namespace CX509CertPoliciesExt

def doConstructL (aBinaryData : Bytes) (aPos : Int) :
    Leaving (CX509CertPoliciesExt × Int) := do
  let (seq, aPos) ← TASN1DecSequence.decodeRangeLC aBinaryData aPos 1 KMaxTInt
  let iPolicies ← seq.mapM fun gen => do CX509CertPolicyInfo.newL (← gen.encoding)
  return (⟨iPolicies⟩, aPos)

def newL : Bytes → Leaving CX509CertPoliciesExt := constructExtensionL doConstructL

end CX509CertPoliciesExt

structure CX509PolicyMapping where
  iIssuerPolicy : Text
  iSubjectPolicy : Text

namespace CX509PolicyMapping

def decodeSeqL : List TASN1DecGeneric → Leaving CX509PolicyMapping
  | issuer :: subject :: _ => do
    let iIssuerPolicy ← TASN1DecObjectIdentifier.decodeDERL issuer
    return ⟨iIssuerPolicy, ← TASN1DecObjectIdentifier.decodeDERL subject⟩
  | _ => leave KErrArgument

def newL (aBinaryData : Bytes) : Leaving CX509PolicyMapping := do
  decodeSeqL (← TASN1DecSequence.decodeDERLC aBinaryData 0).1

end CX509PolicyMapping

structure CX509PolicyMappingExt where
  iPolicies : List CX509PolicyMapping

namespace CX509PolicyMappingExt

def doConstructL (aBinaryData : Bytes) (aPos : Int) :
    Leaving (CX509PolicyMappingExt × Int) := do
  let (seq, aPos) ← TASN1DecSequence.decodeRangeLC aBinaryData aPos 1 KMaxTInt
  let iPolicies ← seq.mapM fun gen => do CX509PolicyMapping.newL (← gen.encoding)
  return (⟨iPolicies⟩, aPos)

def newL : Bytes → Leaving CX509PolicyMappingExt := constructExtensionL doConstructL

end CX509PolicyMappingExt

/-! ### Key identifiers -/

structure CX509SubjectKeyIdExt where
  iKeyIdentifier : Bytes

namespace CX509SubjectKeyIdExt

def doConstructL (aBinaryData : Bytes) (aPos : Int) :
    Leaving (CX509SubjectKeyIdExt × Int) := do
  let gen ← TASN1DecGeneric.initL (← TDes.mid aBinaryData aPos (aBinaryData.length - aPos))
  let iKeyIdentifier ← TASN1DecOctetString.decodeDERL gen
  return (⟨iKeyIdentifier⟩, TInt.wrap (aPos + gen.lengthDER))

def newL : Bytes → Leaving CX509SubjectKeyIdExt := constructExtensionL doConstructL

end CX509SubjectKeyIdExt

end OsSecurity

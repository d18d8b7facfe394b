/-
Path validation: `ProcessCertsL` and `DoValidateL` of `pkixcertchainao.cpp`.

The loop goes from the root, which is the last certificate of the chain, down to the
certificate at position 0.  What the check of a signature comes to is the business of the
cryptography below, so `verifySignatureL` is a parameter: the certificate and the key its
signature is verified under.

The loop counts positions and the proofs walk along the chain.  `processCertsL_exit` takes
the one to the other: the states the loop goes through are those of a descent, in which
the step for a certificate is told the certificates above it.
-/
import OsSecurity.Library.Der
import OsSecurity.Library.Descent
import OsSecurity.Pkix.Constraints

namespace OsSecurity

open Validating

def KDeviceIdListConstraint : Text := dotted [1, 2, 826, 0, 1, 1796587, 1, 1, 1, 1]
def KSidListConstraint : Text := dotted [1, 2, 826, 0, 1, 1796587, 1, 1, 1, 4]
def KVidListConstraint : Text := dotted [1, 2, 826, 0, 1, 1796587, 1, 1, 1, 5]
def KCapabilitiesConstraint : Text := dotted [1, 2, 826, 0, 1, 1796587, 1, 1, 1, 6]

/-- A certificate that has these extensions and next to nothing else, for building
chains. -/
def CX509Certificate.bare (iExtensions : List CX509CertExtension) : CX509Certificate where
  iEncoding := []
  iSigningAlgorithm := ⟨⟨.ERSA, []⟩, ⟨.ESHA1, []⟩⟩
  iSignature := []
  iVersion := 3
  iSerialNumber := []
  iIssuerName := ⟨[]⟩
  iValidityPeriod := ⟨0, 2⟩
  iSubjectName := ⟨[]⟩
  iSubjectPublicKeyInfo := ⟨⟨.ERSA, []⟩, []⟩
  iIssuerUid := []
  iSubjectUid := []
  iExtensions
  iDataElements := []

/-- The data of a basic constraints extension that marks an authority. -/
def authorityData : Bytes := Der.element 4 (Der.element 0x30 (Der.element 1 [0xff]))

structure CPKIXCertChainBase where
  iChain : List CX509Certificate
  iIntermediateCerts : List CX509Certificate
  iChainHasRoot : Bool
  iSupportedCriticalExts : List Text
  iDateTimeCheckFatal : Bool

namespace CPKIXCertChainAO

/-! ### The check of one certificate -/

/-- The critical extensions that are warned of, and how. -/
def criticalWarnings : List (Text × TValidationError) :=
  [(KExtendedKeyUsage, .ECriticalExtendedKeyUsage), (KPolicyMapping, .ECriticalPolicyMapping),
    (KDeviceIdListConstraint, .ECriticalDeviceId), (KSidListConstraint, .ECriticalSid),
    (KVidListConstraint, .ECriticalVid), (KCapabilitiesConstraint, .ECriticalCapabilities)]

def warnOfCriticalL (iPos : Int) (extName : Text) : Validating Unit :=
  match criticalWarnings.lookup extName with
  | none => pure ()
  | some aReason => .call (.appendWarning ⟨aReason, iPos⟩)

/-- One turn of the loop of `CheckCriticalExtsL`. -/
def checkCriticalExtL (supportedCritExt : List Text) (iPos : Int) (ext : CX509CertExtension) :
    Validating Unit :=
  if ext.iId ∈ supportedCritExt then do
    .call (.appendCriticalExtensionWarning ext.iId)
    warnOfCriticalL iPos ext.iId
  else do
    warnOfCriticalL iPos ext.iId
    setErrorAndLeaveL .EUnrecognizedCriticalExtension iPos

def checkCriticalExtsL (supportedCritExt : List Text) (iPos : Int) :
    List CX509CertExtension → Validating Unit
  | [] => pure ()
  | ext :: others => do
    checkCriticalExtL supportedCritExt iPos ext
    checkCriticalExtsL supportedCritExt iPos others

def criticalExtsL (aState : CPKIXValidationState) (aCert : CX509Certificate) :
    CPKIXValidationState :=
  { aState with
    iCriticalExts := aState.iCriticalExts ++ aCert.iExtensions.filter CX509CertExtension.iCritical }

section

variable (pf : Platform) (verifySignatureL : CX509Certificate → Bytes → Leaving Bool)

/-- `VerifySignatureL`, and the error when it says no. -/
def checkSignatureL (aCert : CX509Certificate) (aEncodedKey : Bytes) (iPos : Int) :
    Validating Unit := do
  if ← verifySignatureL aCert aEncodedKey then pure ()
  else setErrorAndLeaveL .ESignatureInvalid iPos

/-- The certificate's issuer is the next one up, and there is none for the root. -/
def checkSignatureAndNameL (issuer : Option CX509Certificate) (aCert : CX509Certificate)
    (iPos : Int) : Validating Unit :=
  match issuer with
  | none => do
    if ← aCert.iIssuerName.exactMatchL pf aCert.iSubjectName then
      checkSignatureL verifySignatureL aCert aCert.iSubjectPublicKeyInfo.iEncodedKeyData iPos
    else
      .call (.appendWarning ⟨.ERootCertNotSelfSigned, iPos⟩)
  | some issuer => do
    if ← aCert.iIssuerName.exactMatchL pf issuer.iSubjectName then
      checkSignatureL verifySignatureL aCert issuer.iSubjectPublicKeyInfo.iEncodedKeyData iPos
    else
      setErrorAndLeaveL .ENamesDontChain iPos

def checkValidityPeriodL (aFatal : Bool) (aCert : CX509Certificate)
    (aState : CPKIXValidationState) : Validating Unit :=
  if aCert.iValidityPeriod.valid aState.iValidationTime then pure ()
  else if aFatal then setErrorAndLeaveL .EDateOutOfRange aState.iPos
  else .call (.appendWarning ⟨.EDateOutOfRange, aState.iPos⟩)

/-- The body of the loop for a certificate and the one above it, behind the check of the
path length. -/
def processCertL (iPKIXCertChain : CPKIXCertChainBase) (issuer : Option CX509Certificate)
    (current : CX509Certificate) (aState : CPKIXValidationState) :
    Validating CPKIXValidationState := do
  .call (.appendCertificateValidationObject aState.iPos)
  let aState := criticalExtsL aState current
  checkCriticalExtsL iPKIXCertChain.iSupportedCriticalExts aState.iPos aState.iCriticalExts
  checkSignatureAndNameL pf verifySignatureL issuer current aState.iPos
  checkValidityPeriodL iPKIXCertChain.iDateTimeCheckFatal current aState
  let aState ← TPKIXPolicyConstraint.checkCertPoliciesL aState current
  let aState ← TPKIXNameConstraint.checkNameConstraintsL pf aState current
  let aState ← TPKIXKeyUsageConstraint.checkKeyUsageL aState current
  -- the root need not be marked as a CA
  (if aState.iPos < iPKIXCertChain.iChain.length - 1 then
    TPKIXBasicConstraint.checkCertSubjectTypeL aState current
  else pure ())
  let aState ← TPKIXBasicConstraint.updatePathLengthConstraintsL aState current
  let aState ← TPKIXNameConstraint.updateNameConstraintsL pf aState current
  let aState ← TPKIXPolicyConstraint.updatePolicyConstraintsL aState current
  return { aState with iCriticalExts := [] }

/-- One turn of the loop, with the certificate and its issuer given. -/
def turnL (iPKIXCertChain : CPKIXCertChainBase) (issuer : Option CX509Certificate)
    (current : CX509Certificate) (aState : CPKIXValidationState) :
    Validating CPKIXValidationState := do
  let aState := { aState with iMaxPathLength := aState.iMaxPathLength - 1 }
  if aState.iMaxPathLength < aState.iPos then
    setErrorAndLeaveL .EPathTooLong aState.iPos
  else do
    let aState ← processCertL pf verifySignatureL iPKIXCertChain issuer current aState
    return { aState with iPos := aState.iPos - 1 }

/-- The loop, with as many turns as there are certificates. -/
def loopL (iPKIXCertChain : CPKIXCertChainBase) : Nat → CPKIXValidationState →
    Validating CPKIXValidationState
  | 0, aState => pure aState
  | n + 1, aState =>
    if aState.iPos < 0 then pure aState
    else
      match iPKIXCertChain.iChain[aState.iPos.toNat]? with
      | none => (panic : Leaving CPKIXValidationState)
      | some current => do
        let issuer := iPKIXCertChain.iChain[aState.iPos.toNat + 1]?
        let aState ← turnL pf verifySignatureL iPKIXCertChain issuer current aState
        loopL iPKIXCertChain n aState

/-- *copy* all policies from `aState.iAuthorityConstrainedPolicies` into the result. -/
def appendPoliciesL : List CX509CertPolicyInfo → Validating Unit
  | [] => pure ()
  | policyInfo :: others => do
    .call (.appendPolicy policyInfo)
    appendPoliciesL others

/-- `ProcessCertsL` up to its last line. -/
def checkChainL (iPKIXCertChain : CPKIXCertChainBase) (aState : CPKIXValidationState) :
    Validating Unit := do
  let aState ← loopL pf verifySignatureL iPKIXCertChain iPKIXCertChain.iChain.length aState
  TPKIXPolicyConstraint.finishPolicyCheckL aState
  appendPoliciesL aState.iAuthorityConstrainedPolicies

def processCertsL (iPKIXCertChain : CPKIXCertChainBase) (aState : CPKIXValidationState) :
    Validating Unit := do
  checkChainL pf verifySignatureL iPKIXCertChain aState
  .call (.setError ⟨.EValidatedOK, 0⟩)

/-- What `DoValidateL` does to the result.  Only a leave is caught, and only one for which
the error field has been set. -/
def doValidateL (iPKIXCertChain : CPKIXCertChainBase)
    (aValidationResult : CPKIXValidationResultBase) (aValidationTime : Int)
    (aInitialPolicies : Option (List Text)) : Leaving CPKIXValidationResultBase :=
  if ¬ iPKIXCertChain.iChainHasRoot then
    .ok { aValidationResult with iError := ⟨.EChainHasNoRoot, 0⟩ }
  else do
    let state :=
      CPKIXValidationState.newL aValidationTime iPKIXCertChain.iChain.length aInitialPolicies
    let processed := processCertsL pf verifySignatureL iPKIXCertChain state
    let aValidationResult ← processed.calls.foldlM CPKIXValidationResultBase.apply aValidationResult
    match processed.exit with
    | .ok () => return aValidationResult
    | .error (.leave err) =>
      if aValidationResult.iError.iReason = .EChainHasNoRoot then leave err
      else return aValidationResult
    | .error e => .error e

end

end CPKIXCertChainAO

end OsSecurity

/-
The active object that validates a WTLS certificate chain (`CWTLSCertChainAO`).

`RunL` runs each time a request completes, its own or one to the certificate store, and does
what the state says.  The store answers a list with the roots it has, and a retrieval with the
encoding of one of them, unless the request completes with an error.  A chain comes in with the
request; what is in it is decoded.
-/
import OsSecurity.Library.Transitions
import OsSecurity.Pkix.ValidationResult
import OsSecurity.Wtls.Certificate

namespace OsSecurity

/-- What the validation takes from elsewhere. -/
structure WTLSServices where
  /-- `CnvUtfConverter::ConvertToUnicodeFromUtf8` -/
  convertToUnicodeFromUtf8 : Bytes → Leaving Text
  /-- `CSHA1::Final` -/
  sha1 : Bytes → Bytes
  /-- `VerifySignatureL`, with an encoded key -/
  verifySignatureL : CWTLSCertificate → Bytes → Leaving Bool

/-- A root of the certificate store that the filter lets through. -/
structure StoreRoot where
  iSubjectKeyId : Bytes
  encoding : Bytes

structure CWTLSValidationResult where
  iError : TValidationStatus
  iWarnings : List TValidationStatus

namespace CWTLSValidationResult

def reset : CWTLSValidationResult := ⟨⟨.EValidatedOK, 0⟩, []⟩

def setError (self : CWTLSValidationResult) (aError : TValidationError) (aCert : Int) :
    CWTLSValidationResult :=
  { self with iError := ⟨aError, aCert⟩ }

def appendWarningL (self : CWTLSValidationResult) (aWarning : TValidationStatus) :
    CWTLSValidationResult :=
  { self with iWarnings := self.iWarnings ++ [aWarning] }

end CWTLSValidationResult

inductive WTLSState where
  | EStoreManagerInitialization
  | EStoreManagerInitialized
  | EGetCertHashes
  | EPruneList
  | EPruneListDone
  | ECheckTCA
  | EIsChainSelfSigned
  | ERetrieveRoots
  | EAddRootToList
  | EFindRoot
  | EValidateEnd

/-- How the client's request completes: with `KErrNone`, or through `RunError` or `DoCancel`. -/
inductive WTLSEnding where
  | complete
  | error (aError : Int)

structure CWTLSCertChainAO where
  iChain : List CWTLSCertificate
  iRootsFromClient : List CWTLSCertificate
  iRootsFromStore : List CWTLSCertificate
  iRootSubjectClientHashList : List Bytes
  iRootSubjectStoreHashList : List Bytes
  iCertInfos : List StoreRoot
  iEncodedCert : Bytes
  iPruned : Bool
  iPrunedChainLength : Nat
  /-- the index that comes next, which is one more than `iIndex` -/
  iNextIndex : Nat
  iFoundRoot : Bool
  iValidationTime : Int
  iValidationResult : CWTLSValidationResult
  iState : WTLSState
  iOriginalRequest : Option WTLSEnding

namespace CWTLSCertChainAO

/-- `Validate` on a new object. -/
def validate (iChain iRootsFromClient : List CWTLSCertificate) (aValidationTime : Int) :
    CWTLSCertChainAO where
  iChain
  iRootsFromClient
  iRootsFromStore := []
  iRootSubjectClientHashList := []
  iRootSubjectStoreHashList := []
  iCertInfos := []
  iEncodedCert := []
  iPruned := false
  iPrunedChainLength := 0
  iNextIndex := 0
  iFoundRoot := false
  iValidationTime := aValidationTime
  iValidationResult := .reset
  iState := .EStoreManagerInitialization
  iOriginalRequest := none

section

variable (services : WTLSServices) (store : List StoreRoot)

def setError (m : CWTLSCertChainAO) (aError : TValidationError) (aCert : Int) :
    CWTLSCertChainAO :=
  { m with iValidationResult := m.iValidationResult.setError aError aCert }

/-- `User::RequestComplete(iOriginalRequestStatus, KErrNone)` -/
def completeRequest (m : CWTLSCertChainAO) : CWTLSCertChainAO :=
  { m with iOriginalRequest := some .complete }

/-- `GeneratePublicKeyHashL` hashes the modulus. -/
def generatePublicKeyHashL (aCert : CWTLSCertificate) : Leaving Bytes := do
  let key ← CWTLSRSAPublicKey.newL aCert.iKeyData
  let modulusBuffer ← key.iN.bufferLC
  return services.sha1 modulusBuffer

def checkSignatureAndNameL (m : CWTLSCertChainAO) (aCert : CWTLSCertificate) (aPos : Nat) :
    Leaving (CWTLSCertChainAO × Bool) :=
  match m.iChain[aPos + 1]? with
  | none =>
    if aCert.iIssuerName.exactMatchL aCert.iSubjectName then do
      if ← services.verifySignatureL aCert aCert.iKeyData then return (m, true)
      else return (m.setError .ESignatureInvalid aPos, false)
    else
      .ok ({ m with iValidationResult :=
        m.iValidationResult.appendWarningL ⟨.ERootCertNotSelfSigned, aPos⟩ }, true)
  | some issuer =>
    if aCert.iIssuerName.exactMatchL issuer.iSubjectName then do
      if ← services.verifySignatureL aCert issuer.iKeyData then return (m, true)
      else return (m.setError .ESignatureInvalid aPos, false)
    else .ok (m.setError .ENamesDontChain aPos, false)

def checkValidityPeriod (m : CWTLSCertChainAO) (aCert : CWTLSCertificate) (aPos : Nat) :
    CWTLSCertChainAO × Bool :=
  if aCert.iValidityPeriod.valid m.iValidationTime then (m, true)
  else (m.setError .EDateOutOfRange aPos, false)

def handleEStoreManagerInitializationL (m : CWTLSCertChainAO) : CWTLSCertChainAO :=
  { m with iState := .EStoreManagerInitialized }

def handleEStoreManagerInitializedL (m : CWTLSCertChainAO) : CWTLSCertChainAO :=
  { m with iCertInfos := m.iCertInfos ++ store, iState := .EGetCertHashes }

def handleEGetCertHashesL (m : CWTLSCertChainAO) : Leaving CWTLSCertChainAO := do
  let hashes ← m.iRootsFromClient.mapM (generatePublicKeyHashL services)
  return { m with
    iRootSubjectClientHashList := m.iRootSubjectClientHashList ++ hashes
    iRootSubjectStoreHashList :=
      m.iRootSubjectStoreHashList ++ m.iCertInfos.map StoreRoot.iSubjectKeyId
    iPruned := false
    iPrunedChainLength := m.iChain.length
    iNextIndex := 0
    iState := .EPruneList }

/-- A hash is on one of the two lists. -/
def listed (m : CWTLSCertChainAO) (hash : Bytes) : Bool :=
  hash ∈ m.iRootSubjectClientHashList ∨ hash ∈ m.iRootSubjectStoreHashList

def handleEPruneListL (m : CWTLSCertChainAO) : Leaving CWTLSCertChainAO :=
  match m.iChain[m.iNextIndex]? with
  | none => .ok { m with iNextIndex := m.iNextIndex + 1, iState := .EPruneListDone }
  | some cert => do
    let hash ← generatePublicKeyHashL services cert
    if m.listed hash then
      return { m with
        iNextIndex := m.iNextIndex + 1
        iPrunedChainLength := m.iNextIndex
        iPruned := true
        iState := .EPruneListDone }
    else return { m with iNextIndex := m.iNextIndex + 1, iState := .EPruneList }

/-- The certificates behind the one that is trusted go. -/
def handleEPruneListDoneL (m : CWTLSCertChainAO) : CWTLSCertChainAO :=
  { m with
    iChain := if m.iPruned then m.iChain.take (m.iPrunedChainLength + 1) else m.iChain
    iState := .ECheckTCA }

/-- The first certificate, from an index on, that may not sign others. -/
def notTCAL : Nat → List CWTLSCertificate → Leaving (Option Nat)
  | _, [] => .ok none
  | i, cert :: certs => do
    if !(← cert.isTCAL services.convertToUnicodeFromUtf8) && !cert.isSelfSignedL then
      return some i
    else notTCAL (i + 1) certs

def handleECheckTCAL (m : CWTLSCertChainAO) : Leaving CWTLSCertChainAO := do
  match ← notTCAL services 1 (m.iChain.drop 1) with
  | some i => return (m.setError .ENotCACert i).completeRequest
  | none =>
    if m.iPruned then return { m with iState := .EValidateEnd }
    else return { m with iState := .EIsChainSelfSigned }

def handleEIsChainSelfSignedL (m : CWTLSCertChainAO) : Leaving CWTLSCertChainAO :=
  match m.iChain.getLast? with
  | none => panic
  | some last =>
    if last.isSelfSignedL then
      .ok (m.setError .EChainHasNoRoot (m.iChain.length - 1 : Int)).completeRequest
    else .ok { m with iState := .ERetrieveRoots, iNextIndex := 0 }

def handleERetrieveRootsL (m : CWTLSCertChainAO) : CWTLSCertChainAO :=
  match m.iCertInfos[m.iNextIndex]? with
  | some info =>
    { m with
      iNextIndex := m.iNextIndex + 1
      iEncodedCert := info.encoding
      iState := .EAddRootToList }
  | none => { m with iNextIndex := m.iNextIndex + 1, iState := .EFindRoot }

def handleEAddRootToListL (m : CWTLSCertChainAO) : Leaving CWTLSCertChainAO := do
  let (cert, _) ← CWTLSCertificate.newL m.iEncodedCert
  return { m with iRootsFromStore := m.iRootsFromStore ++ [cert], iState := .ERetrieveRoots }

/-- The first root that has a name for its subject. -/
def rootNamed (roots : List CWTLSCertificate) (issuerName : CWTLSName) :
    Option CWTLSCertificate :=
  roots.find? fun root => issuerName.exactMatchL root.iSubjectName

def handleEFindRootL (m : CWTLSCertChainAO) : Leaving CWTLSCertChainAO :=
  match m.iChain.getLast? with
  | none => panic
  | some last =>
    match rootNamed m.iRootsFromClient last.iIssuerName,
        rootNamed m.iRootsFromStore last.iIssuerName with
    | some root, _ | none, some root =>
      .ok { m with iFoundRoot := true, iChain := m.iChain ++ [root], iState := .EValidateEnd }
    | none, none =>
      .ok (({ m with iFoundRoot := false }.setError .EChainHasNoRoot
        (m.iChain.length - 1 : Int)).completeRequest)

/-- The loop of `HandleEValidateEndL`, from the certificate below the bound down. -/
def checkDownL : Nat → CWTLSCertChainAO → Leaving CWTLSCertChainAO
  | 0, m => .ok m
  | i + 1, m =>
    match m.iChain[i]? with
    | none => panic
    | some current => do
      let (m, good) ← checkSignatureAndNameL services m current i
      if !good then return m
      else
        let (m, good) := m.checkValidityPeriod current i
        if !good then return m else checkDownL i m

def handleEValidateEndL (m : CWTLSCertChainAO) : Leaving CWTLSCertChainAO := do
  return (← checkDownL services m.iChain.length m).completeRequest

/-- `RunL`, when a request has completed with `iStatus`. -/
def runL (m : CWTLSCertChainAO) (iStatus : Int) : Leaving CWTLSCertChainAO :=
  if iStatus < 0 then leave iStatus
  else
    match m.iState with
    | .EStoreManagerInitialization => .ok m.handleEStoreManagerInitializationL
    | .EStoreManagerInitialized => .ok (m.handleEStoreManagerInitializedL store)
    | .EGetCertHashes => m.handleEGetCertHashesL services
    | .EPruneList => m.handleEPruneListL services
    | .EPruneListDone => .ok m.handleEPruneListDoneL
    | .ECheckTCA => m.handleECheckTCAL services
    | .EIsChainSelfSigned => m.handleEIsChainSelfSignedL
    | .ERetrieveRoots => .ok m.handleERetrieveRootsL
    | .EAddRootToList => m.handleEAddRootToListL
    | .EFindRoot => m.handleEFindRootL
    | .EValidateEnd => m.handleEValidateEndL services

end

/-- What happens to the active object. -/
inductive Event where
  /-- the request it waits for completes -/
  | run (iStatus : Int)
  /-- memory runs out in `RunL` -/
  | noMemory
  | cancel

/-- Nothing happens any more once the client's request is complete. -/
def step (services : WTLSServices) (store : List StoreRoot) (m : CWTLSCertChainAO) (e : Event) :
    Option CWTLSCertChainAO :=
  match m.iOriginalRequest, e with
  | some _, _ => none
  | none, .noMemory => some { m with iOriginalRequest := some (.error KErrNoMemory) }
  | none, .cancel => some { m with iOriginalRequest := some (.error KErrCancel) }
  | none, .run iStatus =>
    match m.runL services store iStatus with
    | .ok r => some r
    | .error (.leave aError) => some { m with iOriginalRequest := some (.error aError) }
    | .error _ => none

end CWTLSCertChainAO

end OsSecurity

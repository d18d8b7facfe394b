/-
The certificate store server (`CFSCertStoreServer`).

The server keeps the list of entries in memory, and the store has it in one stream, beside a
data stream for each certificate.  An operation on the store ends as its `Outcome` says.  A
request that runs out of memory elsewhere says so with an error of its own, and `none` there
means that it does not.  The list is a sequence of entries, which the stream holds as it is.
-/
import OsSecurity.Streams
import OsSecurity.Tokens.KeyDataManager

namespace OsSecurity

open TransactionalStore

def KErrBadName : Int := -28

/-! ### Entries -/

/-- `TCertificateFormat` -/
def EX509Certificate : Int := 0x00
def EWTLSCertificate : Int := 0x01
def EX968Certificate : Int := 0x02
def EX509CertificateUrl : Int := 0x10
def EWTLSCertificateUrl : Int := 0x11
def EX968CertificateUrl : Int := 0x12

/-- `TCertificateOwnerType` -/
def ECACertificate : Int := 0
def EUserCertificate : Int := 1
def EPeerCertificate : Int := 2

structure CCertInfo where
  iLabel : Text
  iCertificateId : Int
  iFormat : Int
  iCertificateOwnerType : Int
  iSize : Int
  iSubjectKeyId : Bytes
  iIssuerKeyId : Bytes
  iDeletable : Bool

/-- `MCertInfo::Valid`, where there is no issuer hash. -/
def CCertInfo.valid (info : CCertInfo) : Bool :=
  info.iLabel.length ≠ 0 ∧ 0 ≤ info.iCertificateId ∧
    (info.iFormat = EX509Certificate ∨ info.iFormat = EWTLSCertificate ∨
      info.iFormat = EX968Certificate ∨ info.iFormat = EX509CertificateUrl ∨
      info.iFormat = EWTLSCertificateUrl ∨ info.iFormat = EX968CertificateUrl) ∧
    (info.iCertificateOwnerType = ECACertificate ∨
      info.iCertificateOwnerType = EUserCertificate ∨
      info.iCertificateOwnerType = EPeerCertificate) ∧
    0 < info.iSize

structure CCertStoreEntry where
  iCertInfo : CCertInfo
  iCertificateApps : List UInt32
  iTrusted : Bool
  iDataStreamId : StreamId

def CCertStoreEntry.handle (entry : CCertStoreEntry) : Int := entry.iCertInfo.iCertificateId

def CCertStoreEntry.label (entry : CCertStoreEntry) : Text := entry.iCertInfo.iLabel

abbrev CCertStoreEntryList := List CCertStoreEntry

namespace CCertStoreEntryList

def indexForHandle (iEntries : CCertStoreEntryList) (aHandle : Int) : Option Nat :=
  iEntries.findIdx? fun entry => entry.handle = aHandle

def labelExists (iEntries : CCertStoreEntryList) (aLabel : Text) : Bool :=
  iEntries.any fun entry => entry.label = aLabel

/-- The greatest handle, from -1 on. -/
def maxHandle (iEntries : CCertStoreEntryList) : Int :=
  iEntries.foldl (fun maxHandle entry => max maxHandle entry.handle) (-1)

def nextFreeHandle (iEntries : CCertStoreEntryList) : Leaving Int :=
  if KMaxTInt ≤ maxHandle iEntries then .error .undefined else .ok (maxHandle iEntries + 1)

/-- `InternalizeL`: a list with one handle twice is corrupt. -/
def internalizeL (entries : List CCertStoreEntry) : Leaving CCertStoreEntryList :=
  entries.foldlM (fun (iEntries : CCertStoreEntryList) entry =>
    if (indexForHandle iEntries entry.handle).isSome then leave KErrCorrupt
    else .ok (iEntries ++ [entry])) []

end CCertStoreEntryList

/-! ### Who may ask for what -/

inductive TCapability where
  | writeUserData
  | writeDeviceData
  deriving DecidableEq

inductive TSecurityPolicy where
  | alwaysFail
  | requires (capability : TCapability)

/-- The client that sends a request. -/
structure RMessage2 where
  iCapabilities : List TCapability

def TSecurityPolicy.checkPolicy (policy : TSecurityPolicy) (aMessage : RMessage2) : Bool :=
  match policy with
  | .alwaysFail => false
  | .requires capability => capability ∈ aMessage.iCapabilities

def addRemovePolicy (aOwnerType : Int) : TSecurityPolicy :=
  if aOwnerType = ECACertificate then .requires .writeDeviceData
  else if aOwnerType = EUserCertificate ∨ aOwnerType = EPeerCertificate then
    .requires .writeUserData
  else .alwaysFail

def writeTrustSettingsPolicy : TSecurityPolicy := .requires .writeDeviceData

/-! ### The server -/

inductive CertStream where
  | entries (iEntries : CCertStoreEntryList)
  | data (bytes : Bytes)

abbrev CertFileStore := Store StreamId CertStream

structure CFSCertStoreServer where
  iStore : CertFileStore
  iStreamId : StreamId
  iEntryList : CCertStoreEntryList

/-- What a request leaves behind, and how it ends. -/
abbrev CertCallResult := CFSCertStoreServer × Leaving Unit

namespace CFSCertStoreServer

/-- `RestoreL`, once the store is open. -/
def restoreL (iStore : CertFileStore) (iStreamId : StreamId) : Leaving CFSCertStoreServer :=
  match iStore.working iStreamId with
  | some (.entries entries) => do
    let iEntryList ← CCertStoreEntryList.internalizeL entries
    .ok { iStore, iStreamId, iEntryList }
  | _ => leave KErrNotFound

/-- An operation on the store, and then the rest. -/
def perform (m : CFSCertStoreServer) (o : Outcome) (change : CertFileStore → CertFileStore)
    (rest : CFSCertStoreServer → CertCallResult) : CertCallResult :=
  match o with
  | .done => rest { m with iStore := change m.iStore }
  | .failed aError => (m, leave aError)
  | .late aError => ({ m with iStore := change m.iStore }, leave aError)

/-- `iStore->CommitL()`.  A commit that fails commits nothing. -/
def commitL (m : CFSCertStoreServer) (o : Outcome) : CertCallResult :=
  match o with
  | .done => ({ m with iStore := m.iStore.commit }, .ok ())
  | .failed aError | .late aError => (m, leave aError)

def revert (m : CFSCertStoreServer) : CFSCertStoreServer := { m with iStore := m.iStore.revert }

def updateStoreL (m : CFSCertStoreServer) (index commit : Outcome) : CertCallResult :=
  m.perform index (fun s => s.write m.iStreamId (.entries m.iEntryList)) fun m => m.commitL commit

/-- `CompactStoreL`: reclaiming and compaction change no stream, and then there is a commit. -/
def compactStoreL (m : CFSCertStoreServer) (o : Outcome) : CertCallResult := m.commitL o

/-- `TAddCertDataStruct` -/
structure TAddCertDataStruct where
  iLabel : Text
  iFormat : Int
  iCertificateOwnerType : Int
  iSubjectKeyId : Bytes
  iIssuerKeyId : Bytes
  iDeletable : Bool

/-- How the steps of an addition end. -/
structure AddOutcomes where
  certInfo : Option Int
  compact : Outcome
  data : Outcome
  entry : Option Int
  append : Option Int
  index : Outcome
  commit : Outcome

/-- `DoAddL`.  The store hands out `dataStreamId`. -/
def doAddL (m : CFSCertStoreServer) (o : AddOutcomes) (dataStreamId : StreamId)
    (aCertInfo : CCertInfo) (aCertData : Bytes) : CertCallResult :=
  m.perform o.data (fun s => s.write dataStreamId (.data aCertData)) fun m =>
    match o.entry, o.append with
    | some aError, _ => (m, leave aError)
    | none, append =>
      if dataStreamId = KNullStreamId then (m, panic)
      else
        match append with
        | some aError => (m, leave aError)
        | none =>
          let entry : CCertStoreEntry := ⟨aCertInfo, [], false, dataStreamId⟩
          let index := m.iEntryList.length
          match { m with iEntryList := m.iEntryList ++ [entry] }.updateStoreL o.index o.commit with
          | (r, .ok ()) => (r, .ok ())
          | (r, .error err) => ({ r with iEntryList := r.iEntryList.eraseIdx index }, .error err)

/-- Where a trapped function has left, the store is reverted. -/
def revertOnLeave : CertCallResult → CertCallResult
  | (r, .error (.leave err)) => (r.revert, leave err)
  | result => result

def addL (m : CFSCertStoreServer) (o : AddOutcomes) (dataStreamId : StreamId)
    (aInfo : TAddCertDataStruct) (aCert : Bytes) (aMessage : RMessage2) : CertCallResult :=
  if m.iEntryList.labelExists aInfo.iLabel then (m, leave KErrBadName)
  else if aInfo.iSubjectKeyId = [] ∨ aCert = [] then (m, leave KErrArgument)
  else
    match m.iEntryList.nextFreeHandle, o.certInfo with
    | .error e, _ => (m, .error e)
    | .ok _, some aError => (m, leave aError)
    | .ok aCertificateId, none =>
      let certInfo : CCertInfo := {
        iLabel := aInfo.iLabel
        iCertificateId := aCertificateId
        iFormat := aInfo.iFormat
        iCertificateOwnerType := aInfo.iCertificateOwnerType
        iSize := aCert.length
        iSubjectKeyId := aInfo.iSubjectKeyId
        iIssuerKeyId := aInfo.iIssuerKeyId
        iDeletable := aInfo.iDeletable }
      if !certInfo.valid then (m, leave KErrArgument)
      else if !(addRemovePolicy aInfo.iCertificateOwnerType).checkPolicy aMessage then
        (m, leave KErrPermissionDenied)
      else
        match m.compactStoreL o.compact with
        | (r, .error e) => (r, .error e)
        | (r, .ok ()) => revertOnLeave (r.doAddL o dataStreamId certInfo aCert)

/-- How the steps of a removal end. -/
structure RemoveOutcomes where
  delete : Outcome
  index : Outcome
  commit : Outcome
  compact : Outcome

/-- `RemoveL` up to the last compaction, under the item that reverts the store.  An entry that
could not be removed is put back behind the others. -/
def doRemoveL (m : CFSCertStoreServer) (o : RemoveOutcomes) (index : Nat)
    (entry : CCertStoreEntry) : CertCallResult :=
  m.perform o.delete (fun s => s.delete entry.iDataStreamId) fun m =>
    match { m with iEntryList := m.iEntryList.eraseIdx index }.updateStoreL o.index o.commit with
    | (r, .ok ()) => (r, .ok ())
    | (r, .error err) => ({ r with iEntryList := r.iEntryList ++ [entry] }, .error err)

def removeL (m : CFSCertStoreServer) (o : RemoveOutcomes) (aHandle : Int) (aMessage : RMessage2) :
    CertCallResult :=
  match m.iEntryList.indexForHandle aHandle with
  | none => (m, leave KErrNotFound)
  | some index =>
    match m.iEntryList[index]? with
    | none => (m, panic)
    | some entry =>
      if !(addRemovePolicy entry.iCertInfo.iCertificateOwnerType).checkPolicy aMessage then
        (m, leave KErrPermissionDenied)
      else
        match revertOnLeave (m.doRemoveL o index entry) with
        | (r, .ok ()) => r.compactStoreL o.compact
        | left => left

/-- How the steps of a change of an entry end. -/
structure ChangeOutcomes where
  compact : Outcome
  entry : Option Int
  index : Outcome
  commit : Outcome

def replaceCertEntryL (m : CFSCertStoreServer) (o : ChangeOutcomes) (aIndex : Nat)
    (oldEntry aNewEntry : CCertStoreEntry) : CertCallResult :=
  match { m with iEntryList := m.iEntryList.set aIndex aNewEntry }.updateStoreL o.index o.commit with
  | (r, .ok ()) => (r, .ok ())
  | (r, .error err) =>
    ({ r.revert with iEntryList := r.iEntryList.set aIndex oldEntry }, .error err)

/-- What `SetApplicabilityL` and `SetTrustL` have in common. -/
def changeEntryL (m : CFSCertStoreServer) (o : ChangeOutcomes) (aHandle : Int)
    (aMessage : RMessage2) (change : CCertStoreEntry → CCertStoreEntry) : CertCallResult :=
  match m.iEntryList.indexForHandle aHandle with
  | none => (m, leave KErrNotFound)
  | some index =>
    match m.iEntryList[index]? with
    | none => (m, panic)
    | some entry =>
      if entry.iCertInfo.iCertificateOwnerType ≠ ECACertificate then (m, leave KErrArgument)
      else if !writeTrustSettingsPolicy.checkPolicy aMessage then (m, leave KErrPermissionDenied)
      else
        match m.compactStoreL o.compact, o.entry with
        | (r, .error e), _ => (r, .error e)
        | (r, .ok ()), some aError => (r, leave aError)
        | (r, .ok ()), none => r.replaceCertEntryL o index entry (change entry)

def setApplicabilityL (m : CFSCertStoreServer) (o : ChangeOutcomes) (aHandle : Int)
    (aApps : List UInt32) (aMessage : RMessage2) : CertCallResult :=
  m.changeEntryL o aHandle aMessage fun entry => { entry with iCertificateApps := aApps }

def setTrustL (m : CFSCertStoreServer) (o : ChangeOutcomes) (aHandle : Int) (aTrusted : Bool)
    (aMessage : RMessage2) : CertCallResult :=
  m.changeEntryL o aHandle aMessage fun entry => { entry with iTrusted := aTrusted }

inductive Request where
  | add (o : AddOutcomes) (dataStreamId : StreamId) (aInfo : TAddCertDataStruct) (aCert : Bytes)
  | remove (o : RemoveOutcomes) (aHandle : Int)
  | setApplicability (o : ChangeOutcomes) (aHandle : Int) (aApps : List UInt32)
  | setTrust (o : ChangeOutcomes) (aHandle : Int) (aTrusted : Bool)

def serve (m : CFSCertStoreServer) (aMessage : RMessage2) : Request → CertCallResult
  | .add o dataStreamId aInfo aCert => m.addL o dataStreamId aInfo aCert aMessage
  | .remove o aHandle => m.removeL o aHandle aMessage
  | .setApplicability o aHandle aApps => m.setApplicabilityL o aHandle aApps aMessage
  | .setTrust o aHandle aTrusted => m.setTrustL o aHandle aTrusted aMessage

end CFSCertStoreServer

end OsSecurity

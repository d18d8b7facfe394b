/-
The key store server's active objects and what they do one step at a time: an opened key
(`COpenedKey`), the server (`CFSKeyStoreServer`) and the conduit (`CKeyStoreConduit`), which has
one asynchronous request at a time.

An event is a message, a session that comes or goes, the run of one of the active objects, the
end of a dialog or of a key's creation, or the passing of time.  Messages that only read a key or
rewrite its information change nothing here, so `answered` stands for all of them.  The server is
never deleted while a session is there, and then nothing is outstanding that the conduit could
cancel, so shutting down is not an event.
-/
import OsSecurity.Tokens.KeyStoreSessions

namespace OsSecurity.KeyStore

open Commands TransactionalStore

def KTheMinKeySize : Int := 512
def KTheMaxKeySize : Int := 2048

/-- `CKeyInfo::EKeyAccess` -/
def ESensitive : UInt32 := 0x01
def EExtractable : UInt32 := 0x02
def EAlwaysSensitive : UInt32 := 0x04
def ENeverExtractable : UInt32 := 0x08
def ELocal : UInt32 := 0x10

inductive TNewKeyOperation where
  | ENewKeyCreate
  | ENewKeyImportPlaintext
  | ENewKeyImportEncrypted
  deriving DecidableEq

/-- What the rest of the system answers to the function that runs. -/
structure Answers where
  /-- reading what a message brings, or checking what it asks for -/
  readL : Leaving Unit
  /-- the key information that a message brings -/
  keyInfo : CKeyInfo
  /-- writing the results into the client's buffers -/
  writeL : Leaving Unit
  /-- what a message that changes nothing is completed with -/
  reply : Leaving Int
  /-- `ReadKeyInfoLC` -/
  readKeyInfoLC : Leaving CKeyInfo
  /-- reading, decoding or encoding a private key, or working with it -/
  keyL : Leaving Unit
  /-- the algorithm and the size of an imported key -/
  imported : Algorithm × Int
  newKeyCreator : Leaving Unit
  store : CFileKeyDataManager.AddOutcomes
  newKey : CFileKeyDataManager.NewKey
  remove : CFileKeyDataManager.RemoveOutcomes
  timeoutWrite : Outcome
  timeoutCommit : Outcome

/-! ### The key data manager -/

def defaultPassphraseId : Server StreamId := do
  let keys := (← get).iKeyDataManager
  assert (keys.iPassStreamId = KNullStreamId ↔ keys.iKeys.length = 0)
  pure keys.iPassStreamId

def lookup (aObjectId : Int) : Server (Option CFileKeyData) := do
  return (← get).iKeyDataManager.iKeys.find? fun key => key.iObjectId = aObjectId

def onKeys (f : CFileKeyDataManager → KeyCallResult) : Server Unit := do
  let (keys, r) := f (← get).iKeyDataManager
  modify fun m => { m with iKeyDataManager := keys }
  answer r

/-- A use of a passphrase: of its stream or of its store. -/
def usePassphrase (p : PassphrasePtr) : Server CPassphrase := do
  let m ← get
  modify fun m => { m with passphraseUses := (p, (m.cached p).isSome) :: m.passphraseUses }
  match m.cached p with
  | some q => pure q
  | none => throw .undefined

/-- A use of a buffer of the conduit. -/
def useBuffer (p : Option Nat) : Server Unit := do
  match p with
  | some request => if (← get).iConduit.buffers = some request then pure () else throw .undefined
  | none => throw .panic

/-! ### Opened keys -/

namespace COpenedKey

/-- `COpenedKey::Complete` -/
def complete (s : Nat) (aHandle aError : Int) : Server Unit := do
  let client := ((← get).openedKey s aHandle).any (·.iClientStatus)
  onOpenedKey s aHandle fun key =>
    { key with iInput := none, iPassphrase := none, iClientStatus := false }
  doIf client (completeConduit aError)
  onOpenedKey s aHandle ({ · with iGettingPassphrase := false })

/-- `COpenedKey::Cancel` -/
def cancel (s : Nat) (aHandle : Int) : Server Unit := do
  match (← get).openedKey s aHandle with
  | none => throw .undefined
  | some key =>
      if key.iActive then
        complete s aHandle KErrCancel
        waitIf (key.iStatus = .KRequestPending)
        onOpenedKey s aHandle ({ · with iActive := false })

def setActive (s : Nat) (aHandle : Int) : Server Unit := do
  assert (¬ ((← get).openedKey s aHandle).any (·.iActive))
  onOpenedKey s aHandle ({ · with iActive := true })

/-- `COpenedKey::GetPassphrase` -/
def getPassphrase (s : Nat) (aHandle : Int) : Server Unit := do
  assert (¬ ((← get).openedKey s aHandle).any (·.iGettingPassphrase))
  let timeout := (← get).iKeyDataManager.iTimeout
  let passphraseId ← defaultPassphraseId
  assert (passphraseId ≠ KNullStreamId)
  onOpenedKey s aHandle ({ · with iClientStatus := true })
  CPassphraseManager.getPassphrase s passphraseId timeout (.openedKey aHandle)
  onOpenedKey s aHandle ({ · with iGettingPassphrase := true })
  setActive s aHandle

/-- `Sign`, `Decrypt`, `PublicKey` or `Agree`, with what it is to work on -/
def start (s : Nat) (aHandle : Int) (aInput : Nat) : Server Unit := do
  assert (((← get).openedKey s aHandle).all (·.iInput = none))
  onOpenedKey s aHandle ({ · with iInput := some aInput })
  getPassphrase s aHandle

def readPrivateKeyL (s : Nat) (aHandle : Int) (id : Nat) (a : Answers) : Server Unit := do
  let _ ← usePassphrase ⟨s, id⟩
  answer a.keyL
  onOpenedKey s aHandle ({ · with iKeyRead := true })

def performOperationL (s : Nat) (aHandle : Int) (aInput : Option Nat) (a : Answers) :
    Server Unit := do
  useBuffer aInput
  answer a.writeL
  onConduit ({ · with iOutput := true })
  complete s aHandle KErrNone

def runL (s : Nat) (aHandle : Int) (key : COpenedKey) (a : Answers) : Server Unit := do
  leaveIfFailed key.iStatus
  assert (key.iGettingPassphrase = true)
  match key.iPassphrase with
  | none => throw .panic
  | some id =>
      doIf (key.iKeyRead = false) (readPrivateKeyL s aHandle id a)
      performOperationL s aHandle key.iInput a

def run (s : Nat) (aHandle : Int) (key : COpenedKey) (a : Answers) : Server Unit := do
  onOpenedKey s aHandle ({ · with iActive := false })
  trap (runL s aHandle key a) (complete s aHandle)

end COpenedKey

/-! ### The server -/

namespace CFSKeyStoreServer

/-- `Cleanup`.  A key creator that is active completes `iStatus` on its way out. -/
def cleanup (c : CFSKeyStoreServer) : CFSKeyStoreServer :=
  { c with
    iStatus := if c.iKeyCreator = some true then .complete KErrCancel else c.iStatus
    iKeyCreator := none
    iPassphrase := none
    iKeyInfo := none
    iKeyData := none
    iExportBuf := none
    iPKCS8Data := none
    iSession := none
    iMessage := none }

def completeCaller (aCompletionCode : Int) : Server Unit := do
  if (← get).iServer.iCallerRequest then
    onServer ({ · with iCallerRequest := false })
    completeConduit aCompletionCode

def completeClientRequest (aCompletionCode : Int) : Server Unit := do
  onServer cleanup
  completeCaller aCompletionCode
  onServer ({ · with iAction := .EIdle })

def cancelManager : Server Unit := do
  match (← get).iServer.iSession with
  | some s => CPassphraseManager.cancel s
  | none => throw .panic

def cancelKeyCreator : Server Unit := do
  match (← get).iServer.iKeyCreator with
  | some true => onServer ({ · with iKeyCreator := some false, iStatus := .complete KErrCancel })
  | some false => pure ()
  | none => throw .panic

/-- What `DoCancel` cancels. -/
def cancelAction : TCurrentAction → Server Unit
  | .EImportKey | .ECreateKeyCreate | .EExportKey | .EExportEncryptedKey
  | .EChangePassphraseClearCached => cancelManager
  | .ECreateKeyFinal => cancelKeyCreator
  | _ => pure ()

def doCancel : Server Unit := do
  cancelAction (← get).iServer.iAction
  completeClientRequest KErrCancel

/-- `CActive::Cancel` waits for a dialog of the server's own until the user answers it. -/
def waitForStatus : Server Unit := do
  let c := (← get).iServer
  waitIf (c.iStatus = .KRequestPending ∧ ¬ c.dialog)
  onServer ({ · with iActive := false, dialog := false, iStatus := .complete KErrNone })

/-- `CFSKeyStoreServer::Cancel` -/
def cancel : Server Unit := do
  if (← get).iServer.iActive then
    doCancel
    waitForStatus

def setActive : Server Unit := do
  assert ((← get).iServer.iActive = false)
  onServer ({ · with iActive := true })

/-- `User::RequestComplete` on the server's own status -/
def completeSelf (aCode : Int) : Server Unit := onServer ({ · with iStatus := .complete aCode })

/-- `ImportPassword` or `ExportPassword` -/
def askPassword : Server Unit := onServer ({ · with iStatus := .KRequestPending, dialog := true })

/-! ### Policies -/

/-- `CheckPolicy(*iMessage)`, for the request that is served -/
def checkPolicy (aPolicy : TSecurityPolicy) : Server Bool := do
  let m ← get
  match m.iServer.iMessage with
  | some message =>
      modify fun m => { m with
        policyChecks := ⟨m.started.map (·.iHandle), message.iHandle⟩ :: m.policyChecks }
      pure (aPolicy.checkPolicy message)
  | none => throw .panic

/-- `*iKeyInfo` -/
def keyInfo : Server CKeyInfo := do
  let m ← get
  match m.iServer.iKeyInfo with
  | some (.owned info) => pure info
  | some (.conduits request) =>
      match m.iConduit.buffers, m.iConduit.iKeyInfo with
      | some r, some info => if r = request then pure info else throw .undefined
      | _, _ => throw .undefined
  | none => throw .panic

/-- A change of `*iKeyInfo`, which `keyInfo` has found -/
def setKeyInfo (info : CKeyInfo) : Server Unit := do
  match (← get).iServer.iKeyInfo with
  | some (.conduits _) => onConduit ({ · with iKeyInfo := some info })
  | _ => onServer ({ · with iKeyInfo := some (.owned info) })

/-- The access rights that `CheckKeyAttributes` settles on -/
def settledAccess (access : UInt32) (aOp : TNewKeyOperation) : UInt32 :=
  let sensitive :=
    if access &&& ESensitive ≠ 0 ∧ (aOp = .ENewKeyCreate ∨ aOp = .ENewKeyImportEncrypted)
    then access ||| EAlwaysSensitive else access
  if sensitive &&& EExtractable = 0 ∧ aOp = .ENewKeyCreate
  then sensitive ||| ENeverExtractable else sensitive

def checkKeyAttributes (aOp : TNewKeyOperation) : Server Int := do
  let key ← keyInfo
  if key.iAccessType &&& ~~~(ESensitive ||| EExtractable) ≠ 0 then pure KErrKeyAccess
  else do
    setKeyInfo { key with iAccessType := settledAccess key.iAccessType aOp }
    if ¬ (← checkPolicy key.iManagementPolicy) then pure KErrArgument
    else if key.iEndDate ≠ 0 ∧ key.iEndDate ≤ (← get).now then pure KErrKeyValidity
    else pure KErrNone

def checkKeyAlgorithmAndSize (key : CKeyInfo) : Int :=
  if key.iAlgorithm = .EInvalidAlgorithm then KErrKeyAlgorithm
  else if key.iSize < KTheMinKeySize ∨ KTheMaxKeySize < key.iSize then KErrKeySize
  else KErrNone

def isKeyAlreadyInStore (keys : CFileKeyDataManager) (aKeyLabel : Text) : Bool :=
  keys.iKeys.any (·.iLabel = aKeyLabel)

def checkImportKeyPolicy (aKeyOperation : TNewKeyOperation) : Server Int := do
  assert ((← get).iServer.iMessage.isSome)
  let err ← checkKeyAttributes aKeyOperation
  let label := (← keyInfo).iLabel
  if err = KErrNone ∧ isKeyAlreadyInStore (← get).iKeyDataManager label then
    pure KErrAlreadyExists
  else pure err

def checkCreateKeyPolicy : Server Int := do
  assert ((← get).iServer.iSession.isSome)
  let err ← checkImportKeyPolicy .ENewKeyCreate
  if err ≠ KErrNone then pure err
  else do
    let key ← keyInfo
    if checkKeyAlgorithmAndSize key ≠ KErrNone then pure (checkKeyAlgorithmAndSize key)
    else do
      setKeyInfo { key with iAccessType := key.iAccessType ||| ELocal }
      pure KErrNone

/-- `CheckExportKeyPolicyL`.  A key information that is there already is deleted. -/
def checkExportKeyPolicyL (a : Answers) : Server Unit := do
  let c := (← get).iServer
  assert (c.iMessage.isSome)
  assert (c.iKeyData = none)
  onServer ({ · with iKeyInfo := none })
  match ← lookup c.iObjectId with
  | none => throw (.leave KErrNotFound)
  | some keyData =>
      let key ← answer a.readKeyInfoLC
      leaveIf (¬ (← checkPolicy key.iManagementPolicy)) KErrPermissionDenied
      leaveIf (key.iAccessType &&& EExtractable = 0 ∨
        key.iAccessType &&& ESensitive ≠ 0 ∧ c.iExportingKeyEncrypted = false) KErrKeyAccess
      leaveIf (key.iAlgorithm ≠ .ERSA ∧ key.iAlgorithm ≠ .EDSA) KErrNotSupported
      onServer ({ · with iKeyData := some keyData, iKeyInfo := some (.owned key) })

/-! ### Requests -/

/-- The passphrase that the store has, or a new one -/
def askPassphrase (s : Nat) (passphraseId : StreamId) (timeout : Int) : Server Unit :=
  if passphraseId = KNullStreamId then CPassphraseManager.createPassphrase s timeout .server
  else CPassphraseManager.getPassphrase s passphraseId timeout .server

def getKeystorePassphrase (aNextState : TCurrentAction) : Server Unit := do
  modify fun m => { m with
    passphraseRequests :=
      ⟨m.started.map (·.iSession), m.iServer.iSession,
        m.iServer.iSession.any (· ∈ m.iSessions)⟩ :: m.passphraseRequests }
  match (← get).iServer.iSession with
  | none => throw .panic
  | some s =>
      let passphraseId ← defaultPassphraseId
      askPassphrase s passphraseId (← get).iKeyDataManager.iTimeout
      onServer ({ · with iAction := aNextState })
      setActive

/-- What every asynchronous request begins with: the caller's status is pending. -/
def accept : Server Unit := do
  onServer ({ · with iCallerRequest := true })
  onConduit ({ · with iStatus := .KRequestPending })

def createKey (aRequest : Nat) : Server Unit := do
  onServer ({ · with iKeyInfo := some (.conduits aRequest) })
  accept
  onServer ({ · with iAction := .EGetPassphrase })
  if ¬ (← checkPolicy .KWriteUserDataPolicy) then completeClientRequest KErrPermissionDenied
  else do
    setActive
    completeSelf KErrNone

/-- The end of `ImportKey`, when the key may be imported -/
def openPrivateStream (aIsEncrypted : Bool) : Server Unit := do
  onServer ({ · with iAction := .EImportOpenPrivateStream })
  if aIsEncrypted then askPassword else completeSelf KErrNone

def importKey (aRequest : Nat) (aIsEncrypted : Bool) : Server Unit := do
  assert ((← get).iServer.iMessage.isSome)
  accept
  if ¬ (← checkPolicy .KWriteUserDataPolicy) then completeClientRequest KErrPermissionDenied
  else do
    onServer ({ · with
      iPKCS8Data := some aRequest
      iImportingEncryptedKey := aIsEncrypted
      iKeyInfo := some (.conduits aRequest) })
    setActive
    let err ← checkImportKeyPolicy
      (if aIsEncrypted then .ENewKeyImportEncrypted else .ENewKeyImportPlaintext)
    if err ≠ KErrNone then completeSelf err else openPrivateStream aIsEncrypted

/-- `ExportKey` and `ExportEncryptedKey` -/
def exportKey (aRequest : Nat) (aObjectId : Int) (aIsEncrypted : Bool) : Server Unit := do
  accept
  onServer ({ · with
    iExportBuf := some aRequest
    iObjectId := aObjectId
    iExportingKeyEncrypted := aIsEncrypted
    iAction := .EDoExportKey })
  setActive
  completeSelf KErrNone

/-- `ChangePassphrase`, which goes on after it has answered that there is none. -/
def changePassphrase : Server Unit := do
  doIf ((← defaultPassphraseId) = KNullStreamId) (completeConduit KErrNotFound)
  onServer ({ · with iCallerRequest := true, iAction := .EChangePassphrase })
  setActive
  completeSelf KErrNone

def authOpen : Server Unit := do
  onServer ({ · with iCallerRequest := true })
  getKeystorePassphrase .EAuthOpen

def cancelIn (actions : List TCurrentAction) : Server Unit := do
  if (← get).iServer.iAction ∈ actions then cancel

def cancelCreateKey : Server Unit := cancelIn [.ECreateKeyCreate, .ECreateKeyFinal]
def cancelImportKey : Server Unit := cancelIn [.EImportOpenPrivateStream, .EImportKey]
def cancelExportKey : Server Unit := cancelIn [.EExportKey, .EExportKeyGetPassphrase]
def cancelExportEncryptedKey : Server Unit := cancelIn [.EExportKeyGetPassphrase, .EExportKey]
def cancelChangePassphrase : Server Unit :=
  cancelIn [.EChangePassphrase, .EChangePassphraseClearCached]
def cancelAuthOpen : Server Unit := cancelIn [.EAuthOpen]

/-- `RemoveCachedPassphrases`, for every session -/
def removeCachedPassphrases (aStreamId : StreamId) : Server Unit :=
  modify fun m => { m with
    session := fun s =>
      if s ∈ m.iSessions then
        { m.session s with
          iPassphraseMan := (m.session s).iPassphraseMan.removeCached aStreamId }
      else m.session s }

/-! ### Runs -/

def doCreateKeyL (a : Answers) : Server Unit := do
  let c := (← get).iServer
  assert (c.iAction = .ECreateKeyCreate)
  let key ← keyInfo
  onServer ({ · with iKeyCreator := none })
  answer a.newKeyCreator
  setActive
  if key.iSize ≤ 0 ∨ key.iAlgorithm = .EInvalidAlgorithm then
    onServer ({ · with iKeyCreator := some false, iStatus := .complete KErrKeyAlgorithm })
  else onServer ({ · with iKeyCreator := some true, iStatus := .KRequestPending })

/-- `*iPassphrase` -/
def passphrase : Server CPassphrase := do
  match (← get).iServer.iPassphrase with
  | some p => usePassphrase p
  | none => throw .panic

/-- A key's streams written, and the key added, under the store's passphrase -/
def storeKeyL (key : CKeyInfo) (a : Answers) : Server Unit := do
  let p ← passphrase
  onKeys fun keys => keys.storeKeyL a.store
    { a.newKey with aLabel := key.iLabel, aPassStreamId := p.iStreamId }

def doStoreKeyL (a : Answers) : Server Unit := do
  let c := (← get).iServer
  assert (c.iAction = .ECreateKeyFinal)
  let key ← keyInfo
  assert (c.iKeyCreator.isSome)
  storeKeyL key a
  onServer ({ · with iKeyCreator := none })
  setKeyInfo { key with iHandle := (← get).iKeyDataManager.iKeyIdentifier }
  assert ((← get).iKeyDataManager.iKeyIdentifier ≠ 0)
  completeClientRequest KErrNone

/-- `DoImportKeyL` and `PKCS8ToKeyL` -/
def doImportKeyL (a : Answers) : Server Unit := do
  useBuffer (← get).iServer.iPKCS8Data
  answer a.keyL
  assert ((← get).iServer.iPassphrase.isSome)
  let key ← keyInfo
  leaveIf (a.imported.1 ≠ .ERSA ∧ a.imported.1 ≠ .EDSA) KErrKeyAlgorithm
  let key := { key with iAlgorithm := a.imported.1, iSize := a.imported.2 }
  setKeyInfo key
  leaveIfError (checkKeyAlgorithmAndSize key)
  storeKeyL key a
  setKeyInfo { key with iHandle := (← get).iKeyDataManager.iKeyIdentifier }

/-- The run of `EImportKey` -/
def runImportKeyL (a : Answers) : Server Unit := do
  trap (doImportKeyL a) fun err => throw (.leave (if err = KErrTooBig then KErrArgument else err))
  completeClientRequest KErrNone

def completeKeyExportL (a : Answers) : Server Unit := do
  let c := (← get).iServer
  assert (c.iPassphrase.isSome)
  assert (c.iKeyData.isSome)
  assert (c.iExportBuf.isSome)
  let _ ← keyInfo
  let _ ← passphrase
  answer a.keyL
  useBuffer c.iExportBuf
  completeClientRequest KErrNone

/-- The run of `EDoExportKey` -/
def runDoExportKeyL (a : Answers) : Server Unit := do
  checkExportKeyPolicyL a
  onServer fun c => { c with
    iAction :=
      if c.iExportingKeyEncrypted then .EExportEncryptedKeyGetPassphrase
      else .EExportKeyGetPassphrase }
  setActive
  completeSelf KErrNone

def doChangePassphrase : Server Unit := do
  match (← get).iServer.iSession with
  | none => throw .panic
  | some s =>
      let passphraseId ← defaultPassphraseId
      assert (passphraseId ≠ KNullStreamId)
      CPassphraseManager.changePassphrase s passphraseId .server
      onServer ({ · with iAction := .EChangePassphraseClearCached })
      setActive

/-- The run of `EGetPassphrase` -/
def runGetPassphraseL : Server Unit := do
  leaveIfError (← checkCreateKeyPolicy)
  getKeystorePassphrase .ECreateKeyCreate

def runL (a : Answers) : Server Unit := do
  let c := (← get).iServer
  leaveIfFailed c.iStatus
  match c.iAction with
  | .EImportKey => runImportKeyL a
  | .EExportEncryptedKey => do
      askPassword
      onServer ({ · with iAction := .EExportKey })
      setActive
  | .EExportKey => completeKeyExportL a
  | .EDoExportKey => runDoExportKeyL a
  | .ECreateKeyFinal => doStoreKeyL a
  | .EImportOpenPrivateStream => do
      assert (c.iKeyInfo.isSome)
      getKeystorePassphrase .EImportKey
  | .EChangePassphrase => doChangePassphrase
  | .EChangePassphraseClearCached => do
      removeCachedPassphrases (← defaultPassphraseId)
      completeClientRequest KErrNone
  | .EAuthOpen => completeClientRequest KErrNone
  | .EExportKeyGetPassphrase => getKeystorePassphrase .EExportKey
  | .EExportEncryptedKeyGetPassphrase => getKeystorePassphrase .EExportEncryptedKey
  | .ECreateKeyCreate => do
      doCreateKeyL a
      onServer ({ · with iAction := .ECreateKeyFinal })
  | .EGetPassphrase => runGetPassphraseL
  | .EIdle => throw .panic

def run (a : Answers) : Server Unit := do
  onServer ({ · with iActive := false })
  trap (runL a) completeClientRequest

end CFSKeyStoreServer

/-! ### The conduit -/

namespace CKeyStoreConduit

def cleanup : Server Unit :=
  onConduit ({ · with buffers := none, iKeyInfo := none, iOpenedKey := none, iOutput := false })

def completeIfAny (aResult : Int) : Option RMessage2 → Server Unit
  | some message => completeMessage message (some aResult)
  | none => pure ()

/-- `iCurrentRequest.Complete` and `iCurrentRequest.Cancel` -/
def completeCurrent (aResult : Int) : Server Unit := do
  completeIfAny aResult (← get).iConduit.iMessage
  onConduit ({ · with iRequest := .EIdle })

/-- `iCurrentRequest.Set`, with the status pending and the conduit active -/
def setCurrent (aMessage : RMessage2) (aState : TFSTokenMessages) : Server Unit := do
  assert ((← get).iConduit.iRequest = .EIdle)
  onConduit ({ · with
    iStatus := .KRequestPending, iRequest := aState, iMessage := some aMessage })
  assert ((← get).iConduit.iActive = false)
  onConduit ({ · with iActive := true })
  modify ({ · with started := some aMessage })

def allocate (aMessage : RMessage2) (aInfo : Option CKeyInfo) : Server Unit :=
  onConduit ({ · with buffers := some aMessage.iHandle, iKeyInfo := aInfo })

def cancelOpenedKey : Server Unit := do
  match (← get).iConduit.iOpenedKey with
  | some (s, aHandle) => COpenedKey.cancel s aHandle
  | none => pure ()

/-- What `DoCancel` cancels. -/
def cancelOutstanding : TFSTokenMessages → Server Unit
  | .ECreateKey => CFSKeyStoreServer.cancelCreateKey
  | .ERepudiableRSASign | .ERepudiableDSASign | .EDecryptText | .EDHAgree | .EDHPublicKey =>
      cancelOpenedKey
  | .EImportKey | .EImportEncryptedKey => CFSKeyStoreServer.cancelImportKey
  | .EExportKey => CFSKeyStoreServer.cancelExportKey
  | .EExportEncryptedKey => CFSKeyStoreServer.cancelExportEncryptedKey
  | .EChangePassphrase => CFSKeyStoreServer.cancelChangePassphrase
  | .EAuthOpen => CFSKeyStoreServer.cancelAuthOpen
  | _ => pure ()

def doCancel : Server Unit := do
  cancelOutstanding (← get).iConduit.iRequest
  cleanup
  completeCurrent KErrCancel

def waitForStatus : Server Unit := do
  waitIf ((← get).iConduit.iStatus = .KRequestPending)
  onConduit ({ · with iActive := false })

/-- `CKeyStoreConduit::Cancel` -/
def cancel : Server Unit := do
  if (← get).iConduit.iActive then
    doCancel
    waitForStatus

/-- A message that cancels the requests of some kinds -/
def cancelRequest (aMessage : RMessage2) (kinds : List TFSTokenMessages) : Server Unit := do
  doIf ((← get).iConduit.iRequest ∈ kinds) cancel
  completeMessage aMessage (some KErrNone)

/-- The same for an opened key's requests, after the passphrase manager of the sender -/
def cancelKeyRequest (aMessage : RMessage2) (kinds : List TFSTokenMessages) : Server Unit := do
  doIf ((← get).iConduit.iRequest ∈ kinds) do
    CPassphraseManager.cancel aMessage.iSession
    cancel
  completeMessage aMessage (some KErrNone)

/-- A message whose answer changes nothing -/
def answered (aMessage : RMessage2) (a : Answers) : Server Unit := do
  completeMessage aMessage (some (← answer a.reply))

def createKeyL (aMessage : RMessage2) (a : Answers) : Server Unit := do
  assert ((← get).iConduit.buffers = none)
  answer a.readL
  allocate aMessage (some a.keyInfo)
  setCurrent aMessage .ECreateKey
  CFSKeyStoreServer.createKey aMessage.iHandle

def importKeyL (aMessage : RMessage2) (a : Answers) : Server Unit := do
  assert ((← get).iConduit.buffers = none)
  answer a.readL
  allocate aMessage (some a.keyInfo)
  setCurrent aMessage aMessage.iFunction
  CFSKeyStoreServer.importKey aMessage.iHandle (aMessage.iFunction = .EImportEncryptedKey)

def exportKeyL (aMessage : RMessage2) (a : Answers) : Server Unit := do
  assert ((← get).iConduit.buffers = none)
  answer a.readL
  allocate aMessage none
  setCurrent aMessage aMessage.iFunction
  CFSKeyStoreServer.exportKey aMessage.iHandle aMessage.int0
    (aMessage.iFunction = .EExportEncryptedKey)

def deleteKeyL (aMessage : RMessage2) (a : Answers) : Server Unit := do
  match ← lookup aMessage.int0 with
  | none => throw (.leave KErrNotFound)
  | some _ =>
      let key ← answer a.readKeyInfoLC
      leaveIf (¬ key.iManagementPolicy.checkPolicy aMessage) KErrPermissionDenied
      let m ← get
      leaveIf (m.iSessions.any fun s =>
        (m.session s).iOpenedKeys.any fun o => o.2.iObjectId = aMessage.int0) KErrInUse
      onKeys fun keys => keys.removeL a.remove aMessage.int0
      completeMessage aMessage (some KErrNone)

/-- `OpenKeyL`.  A handle that cannot be written leaves the key to be deleted twice. -/
def openKeyL (aMessage : RMessage2) (aType : OpenedKeyType) (a : Answers) : Server Unit := do
  match ← lookup aMessage.int0 with
  | none => throw (.leave KErrNotFound)
  | some keyData =>
      let _ ← answer a.readKeyInfoLC
      answer a.keyL
      answer a.readL
      let s := aMessage.iSession
      let aHandle := ((← get).session s).iLastHandle + 1
      onSession s fun c => { c with
        iLastHandle := aHandle
        iOpenedKeys :=
          c.iOpenedKeys ++ [(aHandle, { iObjectId := keyData.iObjectId, iType := aType })] }
      match a.writeL with
      | .ok () => completeMessage aMessage (some KErrNone)
      | .error _ => throw .undefined

/-- `CloseObjectL`; deleting an opened key cancels it. -/
def closeObjectL (aMessage : RMessage2) : Server Unit := do
  let s := aMessage.iSession
  match (← get).openedKey s aMessage.int0 with
  | none => throw (.leave KErrNotFound)
  | some _ =>
      COpenedKey.cancel s aMessage.int0
      onSession s fun c => { c with
        iOpenedKeys := c.iOpenedKeys.filter fun o => o.1 ≠ aMessage.int0 }
      completeMessage aMessage (some KErrNone)

/-- The key of a signing or decrypting request -/
def openedKeyL (aMessage : RMessage2) (aType : OpenedKeyType) : Server Unit := do
  match (← get).openedKey aMessage.iSession aMessage.int0 with
  | none => throw (.leave KErrNotFound)
  | some key => leaveIf (aType ≠ key.iType) KErrAccessDenied

/-- A request of an opened key.  `DoDHAgreeL` gives the key to a local variable. -/
def processL (aMessage : RMessage2) (aType : OpenedKeyType) (a : Answers) : Server Unit := do
  assert ((← get).iConduit.iOpenedKey = none)
  openedKeyL aMessage aType
  answer a.readL
  allocate aMessage none
  setCurrent aMessage aMessage.iFunction
  doIf (aMessage.iFunction ≠ .EDHAgree)
    (onConduit ({ · with iOpenedKey := some (aMessage.iSession, aMessage.int0) }))
  COpenedKey.start aMessage.iSession aMessage.int0 aMessage.iHandle

def changePassphrase (aMessage : RMessage2) : Server Unit := do
  setCurrent aMessage .EChangePassphrase
  CFSKeyStoreServer.changePassphrase

def authOpen (aMessage : RMessage2) : Server Unit := do
  setCurrent aMessage .EAuthOpen
  CFSKeyStoreServer.authOpen

def authClose (aMessage : RMessage2) : Server Unit := do
  match (← get).iServer.iSession with
  | none => throw .panic
  | some s =>
      CPassphraseManager.removeCachedPassphrases s (← defaultPassphraseId)
      completeMessage aMessage (some KErrNone)

def setTimeoutL (aMessage : RMessage2) (a : Answers) : Server Unit := do
  leaveIf (¬ TSecurityPolicy.KSetTimeoutSecurityPolicy.checkPolicy aMessage) KErrPermissionDenied
  leaveIf (aMessage.int1 < KTimeoutNever) KErrArgument
  onKeys fun keys => keys.setPassphraseTimeoutL a.timeoutWrite a.timeoutCommit aMessage.int1
  CFSKeyStoreServer.removeCachedPassphrases KNullStreamId
  completeMessage aMessage (some KErrNone)

def setTimeout (aMessage : RMessage2) (a : Answers) : Server Unit :=
  trap (setTimeoutL aMessage a) fun err => completeMessage aMessage (some err)

def relock (aMessage : RMessage2) : Server Unit := do
  CFSKeyStoreServer.removeCachedPassphrases KNullStreamId
  completeMessage aMessage (some KErrNone)

/-- The messages that are served while a request is outstanding -/
def allowed : TFSTokenMessages → Bool
  | .ECancelCreateKey | .ECancelImportKey | .ECancelImportEncryptedKey | .ECancelExportKey
  | .ECancelExportEncryptedKey | .ECancelRSASign | .ECancelDSASign | .ECancelDecrypt
  | .ECancelChangePassphrase | .ECancelAuthOpen => true
  | _ => false

def serve (aMessage : RMessage2) (a : Answers) : Server Unit :=
  match aMessage.iFunction with
  | .EListKeys | .EGetKeyInfo | .EExportPublic | .EGetKeyLength | .ESetUsePolicy
  | .ESetManagementPolicy | .EAuthTimeRemaining | .EGetTimeout => answered aMessage a
  | .ECreateKey => createKeyL aMessage a
  | .ECancelCreateKey => cancelRequest aMessage [.ECreateKey]
  | .EImportKey | .EImportEncryptedKey => importKeyL aMessage a
  | .ECancelImportKey | .ECancelImportEncryptedKey =>
      cancelRequest aMessage [.EImportKey, .EImportEncryptedKey]
  | .EExportKey | .EExportEncryptedKey => exportKeyL aMessage a
  | .ECancelExportKey => cancelRequest aMessage [.EExportKey]
  | .ECancelExportEncryptedKey => cancelRequest aMessage [.EExportEncryptedKey]
  | .EDeleteKey => deleteKeyL aMessage a
  | .EOpenKeyRepudiableRSASign => openKeyL aMessage .KRSARepudiableSignerUID a
  | .EOpenKeyRepudiableDSASign => openKeyL aMessage .KDSARepudiableSignerUID a
  | .EOpenKeyDecrypt => openKeyL aMessage .KPrivateDecryptorUID a
  | .EOpenKeyAgree => openKeyL aMessage .KKeyAgreementUID a
  | .ECloseObject => closeObjectL aMessage
  | .ERepudiableRSASign => processL aMessage .KRSARepudiableSignerUID a
  | .ECancelRSASign => cancelKeyRequest aMessage [.ERepudiableRSASign]
  | .ERepudiableDSASign => processL aMessage .KDSARepudiableSignerUID a
  | .ECancelDSASign => cancelKeyRequest aMessage [.ERepudiableDSASign]
  | .EDecryptText => processL aMessage .KPrivateDecryptorUID a
  | .ECancelDecrypt => cancelKeyRequest aMessage [.EDecryptText]
  | .EDHPublicKey | .EDHAgree => processL aMessage .KKeyAgreementUID a
  | .ECancelDH => cancelKeyRequest aMessage [.EDHPublicKey, .EDHAgree]
  | .EChangePassphrase => changePassphrase aMessage
  | .ECancelChangePassphrase => cancelRequest aMessage [.EChangePassphrase]
  | .EAuthOpen => authOpen aMessage
  | .ECancelAuthOpen => cancelRequest aMessage [.EAuthOpen]
  | .EAuthClose => authClose aMessage
  | .ESetTimeout => setTimeout aMessage a
  | .ERelock => relock aMessage
  | .EIdle => completeMessage aMessage none

/-- `CKeyStoreConduit::ServiceRequestL` -/
def serviceRequestL (aMessage : RMessage2) (a : Answers) : Server Unit := do
  leaveIf ((← get).iConduit.iRequest ≠ .EIdle ∧ ¬ allowed aMessage.iFunction) KErrServerBusy
  serve aMessage a

/-- What `RunL` does with the results of the request -/
def finishL (c : CKeyStoreConduit) (a : Answers) : Server Unit :=
  match c.iRequest with
  | .ECreateKey | .EImportKey | .EImportEncryptedKey | .EExportKey | .EExportEncryptedKey => do
      assert (c.buffers.isSome)
      answer a.writeL
  | .ERepudiableDSASign | .ERepudiableRSASign | .EDecryptText | .EDHPublicKey | .EDHAgree => do
      assert (c.iOutput = true)
      answer a.writeL
  | .EChangePassphrase | .EAuthOpen => pure ()
  | _ => throw .panic

def runL (a : Answers) : Server Unit := do
  let c := (← get).iConduit
  leaveIfFailed c.iStatus
  finishL c a
  cleanup
  completeCurrent KErrNone

def run (a : Answers) : Server Unit := do
  onConduit ({ · with iActive := false })
  trap (runL a) fun aError => do
    cleanup
    completeCurrent aError

end CKeyStoreConduit

/-! ### Sessions -/

namespace CKeyStoreSession

/-- `CKeyStoreSession::DoServiceL`, with what the framework does about a leave -/
def serviceL (aMessage : RMessage2) (a : Answers) : Server Unit :=
  trap (do
    CPassphraseManager.expireCacheL aMessage.iSession
    onServer ({ · with iMessage := some aMessage, iSession := some aMessage.iSession })
    CKeyStoreConduit.serviceRequestL aMessage a) fun aError =>
    completeMessage aMessage (some aError)

def removeSession (s : Nat) : Server Unit :=
  modify fun m => { m with
    iSessions := m.iSessions.erase s
    iServer := { m.iServer with
      iSession := if m.iServer.iSession = some s then none else m.iServer.iSession } }

/-- `~CKeyStoreSession` -/
def delete (s : Nat) : Server Unit := do
  removeSession s
  CPassphraseManager.cancel s
  onManager s ({ · with iCache := [] })
  ((← get).session s).iOpenedKeys.forM fun o => COpenedKey.cancel s o.1
  onSession s ({ · with iOpenedKeys := [] })

end CKeyStoreSession

/-! ### Steps -/

inductive Event where
  | connect
  | disconnect (s : Nat)
  | message (s : Nat) (aFunction : TFSTokenMessages) (int0 int1 : Int)
      (passes : TSecurityPolicy → Bool) (a : Answers)
  | clock (aTime : Int)
  /-- the end of a passphrase dialog -/
  | dialog (s : Nat) (aCode : Int)
  /-- the end of a password dialog of the server -/
  | password (aCode : Int)
  | keyCreated (aCode : Int)
  | runManager (s : Nat) (a : ManagerAnswers)
  | runOpenedKey (s : Nat) (aHandle : Int) (a : Answers)
  | runServer (a : Answers)
  | runConduit (a : Answers)

/-- An active object that the scheduler can run -/
def CActive.ready (c : CActive) : Bool := c.iActive ∧ c.iStatus ≠ .KRequestPending

namespace TokenServer

/-- The state after a function, the last one if it was not left with an error code. -/
def after (r : Except Halt Unit × TokenServer) : TokenServer :=
  match r with
  | (.ok (), m) => m
  | (.error h, m) => { m with halted := some h }

/-- The message that the platform hands to the session -/
def received (m : TokenServer) (s : Nat) (aFunction : TFSTokenMessages) (int0 int1 : Int)
    (passes : TSecurityPolicy → Bool) : RMessage2 where
  iHandle := m.nextMessage
  iSession := s
  iFunction := aFunction
  int0 := int0
  int1 := int1
  passes := passes

def step (m : TokenServer) (e : Event) : Option TokenServer :=
  if m.halted.isSome then none
  else match e with
  | .connect =>
      some { m with
        iSessions := m.iSessions ++ [m.nextSession]
        session := fun t => if t = m.nextSession then {} else m.session t
        nextSession := m.nextSession + 1 }
  | .disconnect s =>
      if s ∈ m.iSessions then some (after (CKeyStoreSession.delete s m)) else none
  | .message s aFunction int0 int1 passes a =>
      if s ∈ m.iSessions then
        some (after (CKeyStoreSession.serviceL (m.received s aFunction int0 int1 passes) a
          { m with nextMessage := m.nextMessage + 1 }))
      else none
  | .clock aTime => some { m with now := aTime }
  | .dialog s aCode =>
      let man := (m.session s).iPassphraseMan
      if man.iActive ∧ man.iStatus = .KRequestPending then
        some (m.setSession s fun c => { c with
          iPassphraseMan := { c.iPassphraseMan with iStatus := .complete aCode } })
      else none
  | .password aCode =>
      if m.iServer.dialog then
        some { m with
          iServer := { m.iServer with iStatus := .complete aCode, dialog := false } }
      else none
  | .keyCreated aCode =>
      if m.iServer.iKeyCreator = some true then
        some { m with
          iServer := { m.iServer with iStatus := .complete aCode, iKeyCreator := some false } }
      else none
  | .runManager s a =>
      if (m.session s).iPassphraseMan.ready then some (after (CPassphraseManager.run s a m))
      else none
  | .runOpenedKey s aHandle a =>
      match m.openedKey s aHandle with
      | some key => if key.ready then some (after (COpenedKey.run s aHandle key a m)) else none
      | none => none
  | .runServer a =>
      if m.iServer.ready then some (after (CFSKeyStoreServer.run a m)) else none
  | .runConduit a =>
      if m.iConduit.ready then some (after (CKeyStoreConduit.run a m)) else none

/-- The server has started: no session, nothing outstanding, and a passphrase that is set exactly
when there are keys. -/
structure Started (m : TokenServer) : Prop where
  keys : m.iKeyDataManager.iPassStreamId = KNullStreamId ↔ m.iKeyDataManager.iKeys = []
  timeout : KTimeoutNever ≤ m.iKeyDataManager.iTimeout
  identifier : 0 ≤ m.iKeyDataManager.iKeyIdentifier
  rest : m = { now := m.now, iKeyDataManager := m.iKeyDataManager }

end TokenServer

end OsSecurity.KeyStore

/-
The sessions of the key store server, with the passphrases they keep (`CPassphraseManager`),
and the state that the server's active objects share.

Sessions, messages and `CPassphrase` objects are numbered as they come, and a pointer to one is
its number.  The conduit frees all the buffers of a request together, so they are one, named by
the message of the request.  An active object waits while `iActive` is set and runs once its
`iStatus` is complete; `CActive::Cancel` waits for the status, and the thread stays there when
nothing is left that could complete it.

Members changed before a leave stay changed, so the functions are `Command`s.  What a dialog, the
store, the clock or a client's descriptor answers is a parameter of the function that asks.  The
message that `iMessage` points to is taken to stay what it was when the pointer was set.

The fields behind `halted` are not in the source: statements about runs need them.
-/
import OsSecurity.Library.Commands
import OsSecurity.Tokens.KeyDataManager

namespace OsSecurity

open Commands TransactionalStore

def KErrInUse : Int := -14
def KErrServerBusy : Int := -16
def KErrAccessDenied : Int := -21
def KErrBadPassphrase : Int := -11000
def KErrKeyAlgorithm : Int := -11006
def KErrKeyValidity : Int := -11008
def KErrKeyAccess : Int := -11010

def KTimeoutNever : Int := -1
def KRetryCount : Int := 3

namespace KeyStore

/-- How a function is left, other than by returning. -/
inductive Halt where
  | leave (aError : Int)
  | panic
  /-- an object or a buffer was used after it had been deleted -/
  | undefined
  /-- `CActive::Cancel` waits for a status that nothing completes -/
  | waits

def Halt.ofExit : Exit → Halt
  | .leave aError => .leave aError
  | .panic => .panic
  | .undefined => .undefined

/-! ### Messages -/

/-- The messages that the conduit serves.  Any other panics its client, as `EIdle` does. -/
inductive TFSTokenMessages where
  | EIdle
  | EListKeys
  | EGetKeyInfo
  | ECreateKey
  | ECancelCreateKey
  | EImportKey
  | ECancelImportKey
  | EImportEncryptedKey
  | ECancelImportEncryptedKey
  | EExportKey
  | ECancelExportKey
  | EExportEncryptedKey
  | ECancelExportEncryptedKey
  | EDeleteKey
  | EOpenKeyRepudiableRSASign
  | EOpenKeyRepudiableDSASign
  | EOpenKeyDecrypt
  | EOpenKeyAgree
  | ECloseObject
  | ERepudiableDSASign
  | ECancelDSASign
  | ERepudiableRSASign
  | ECancelRSASign
  | EExportPublic
  | EDecryptText
  | ECancelDecrypt
  | EDHPublicKey
  | EDHAgree
  | ECancelDH
  | EChangePassphrase
  | ECancelChangePassphrase
  | EAuthOpen
  | ECancelAuthOpen
  | EAuthClose
  | EAuthTimeRemaining
  | ESetTimeout
  | EGetTimeout
  | EGetKeyLength
  | ESetUsePolicy
  | ESetManagementPolicy
  | ERelock
  deriving DecidableEq

inductive TSecurityPolicy where
  | KWriteUserDataPolicy
  | KSetTimeoutSecurityPolicy
  /-- one that a client set for a key -/
  | chosen (n : Nat)

structure RMessage2 where
  iHandle : Nat
  iSession : Nat
  iFunction : TFSTokenMessages
  int0 : Int
  int1 : Int
  /-- what the sender may do -/
  passes : TSecurityPolicy → Bool

def TSecurityPolicy.checkPolicy (p : TSecurityPolicy) (aMessage : RMessage2) : Bool :=
  aMessage.passes p

/-! ### Active objects -/

inductive TRequestStatus where
  | KRequestPending
  | complete (aCode : Int)
  deriving DecidableEq

structure CActive where
  iActive : Bool := false
  iStatus : TRequestStatus := .complete KErrNone

/-! ### Passphrases -/

structure CPassphrase where
  id : Nat
  iStreamId : StreamId
  /-- in microseconds, where `iExpires` is set -/
  iExpiryTime : Option Int

namespace CPassphrase

def new (id : Nat) (timeNow aTimeout : Int) (aStreamId : StreamId) : CPassphrase where
  id := id
  iStreamId := aStreamId
  iExpiryTime := if aTimeout = KTimeoutNever then none else some (timeNow + aTimeout * 1000000)

/-- `TimeRemainingL`; `SecondsFrom` fails where the seconds are no `TInt`. -/
def timeRemainingL (p : CPassphrase) (aCurrentTime : Int) : Leaving Int :=
  match p.iExpiryTime with
  | none => .ok KTimeoutNever
  | some t =>
    let seconds := (t - aCurrentTime).tdiv 1000000
    if seconds < KMinTInt ∨ KMaxTInt < seconds then leave KErrOverflow
    else .ok (if seconds < 0 then 0 else seconds)

end CPassphrase

/-- Whose `iPassphrase` and `iStatus` a passphrase manager was given. -/
inductive PassphraseClient where
  | server
  /-- an opened key of the manager's own session -/
  | openedKey (aHandle : Int)

inductive TManagerState where
  | EIdle
  | ECreatePassphrase
  | EGetPassphrase
  | EChangePassphrase

/-- `iNewPassphrasePtr` and `iClientStatus` are set together, so they are one. -/
structure CPassphraseManager extends CActive where
  iState : TManagerState := .EIdle
  iTimeout : Int := 0
  iRetries : Int := 0
  iNewPassphraseStream : StreamId := KNullStreamId
  iClientStatus : Option PassphraseClient := none
  iCache : List CPassphrase := []

inductive OpenedKeyType where
  | KRSARepudiableSignerUID
  | KDSARepudiableSignerUID
  | KPrivateDecryptorUID
  | KKeyAgreementUID
  deriving DecidableEq

/-- An opened key; what it was given to work on is the buffer `iInput` of the conduit. -/
structure COpenedKey extends CActive where
  /-- `iKeyData.Handle()` -/
  iObjectId : Int
  iType : OpenedKeyType
  /-- `iState` is `EGetPassphrase`, not `EIdle` -/
  iGettingPassphrase : Bool := false
  /-- `iClientStatus` points to the conduit's status -/
  iClientStatus : Bool := false
  iPassphrase : Option Nat := none
  iKeyRead : Bool := false
  iInput : Option Nat := none

structure CKeyStoreSession where
  iPassphraseMan : CPassphraseManager := {}
  iLastHandle : Int := 0
  iOpenedKeys : List (Int × COpenedKey) := []

/-! ### The server and the conduit -/

inductive Algorithm where
  | EInvalidAlgorithm
  | ERSA
  | EDSA
  | EDH
  deriving DecidableEq

structure CKeyInfo where
  iLabel : Text
  iHandle : Int
  iAccessType : UInt32
  iManagementPolicy : TSecurityPolicy
  iEndDate : Int
  iAlgorithm : Algorithm
  iSize : Int

inductive TCurrentAction where
  | EIdle
  | ECreateKeyCreate
  | ECreateKeyFinal
  | EImportKey
  | EExportKey
  | EExportEncryptedKey
  | EDoExportKey
  | EImportOpenPrivateStream
  | EExportKeyGetPassphrase
  | EExportEncryptedKeyGetPassphrase
  | EChangePassphrase
  | EChangePassphraseClearCached
  | EAuthOpen
  | EGetPassphrase
  deriving DecidableEq

/-- Where the server's `iKeyInfo` points: to the conduit's buffer, or to one of its own. -/
inductive KeyInfoPtr where
  | conduits (aRequest : Nat)
  | owned (aInfo : CKeyInfo)

structure PassphrasePtr where
  iSession : Nat
  id : Nat

structure CFSKeyStoreServer extends CActive where
  iMessage : Option RMessage2 := none
  iSession : Option Nat := none
  /-- `iCallerRequest` points to the conduit's status -/
  iCallerRequest : Bool := false
  iAction : TCurrentAction := .EIdle
  iKeyInfo : Option KeyInfoPtr := none
  /-- the key creator, and whether it is active -/
  iKeyCreator : Option Bool := none
  /-- a password dialog is up that completes `iStatus` -/
  dialog : Bool := false
  iObjectId : Int := 0
  iExportBuf : Option Nat := none
  iExportingKeyEncrypted : Bool := false
  iPKCS8Data : Option Nat := none
  iImportingEncryptedKey : Bool := false
  iKeyData : Option CFileKeyData := none
  iPassphrase : Option PassphrasePtr := none

structure CKeyStoreConduit extends CActive where
  /-- `iCurrentRequest` -/
  iRequest : TFSTokenMessages := .EIdle
  iMessage : Option RMessage2 := none
  buffers : Option Nat := none
  /-- what the key information buffer holds -/
  iKeyInfo : Option CKeyInfo := none
  /-- a session and a handle of one of its keys -/
  iOpenedKey : Option (Nat × Int) := none
  /-- an opened key has written its result -/
  iOutput : Bool := false

/-- A policy check made for the request that `request` started. -/
structure PolicyCheck where
  request : Option Nat
  checked : Nat

/-- The key store passphrase asked of the manager of `session`. -/
structure PassphraseRequest where
  sender : Option Nat
  session : Option Nat
  /-- `session` is one of those that exist -/
  exist : Bool

structure TokenServer where
  now : Int
  iSessions : List Nat := []
  session : Nat → CKeyStoreSession := fun _ => {}
  iKeyDataManager : CFileKeyDataManager
  iConduit : CKeyStoreConduit := {}
  iServer : CFSKeyStoreServer := {}
  nextSession : Nat := 0
  nextMessage : Nat := 0
  nextPassphrase : Nat := 0
  halted : Option Halt := none
  /-- the message that started the server's action -/
  started : Option RMessage2 := none
  policyChecks : List PolicyCheck := []
  passphraseRequests : List PassphraseRequest := []
  /-- the passphrases used, and whether each was in the cache of its session -/
  passphraseUses : List (PassphrasePtr × Bool) := []
  /-- client messages completed, with a code unless the client was panicked -/
  completions : List (Nat × Option Int) := []
  /-- completions of the conduit's status, each with the message of the request it was for -/
  signals : List (Option Nat × Int) := []

abbrev Server (α : Type) := Command TokenServer Halt α

/-! ### Steps of any function -/

/-- What a parameter answers. -/
def answer {α : Type} (x : Leaving α) : Server α :=
  match x with
  | .ok a => pure a
  | .error e => throw (.ofExit e)

def assert (c : Prop) [Decidable c] : Server Unit :=
  if c then pure () else throw .panic

/-- `User::LeaveIfError` -/
def leaveIfError (aError : Int) : Server Unit :=
  if aError < 0 then throw (.leave aError) else pure ()

def leaveIf (c : Prop) [Decidable c] (aError : Int) : Server Unit :=
  if c then throw (.leave aError) else pure ()

def doIf (c : Prop) [Decidable c] (f : Server Unit) : Server Unit :=
  if c then f else pure ()

/-- The end of a `CActive::Cancel` whose status nothing will complete, if `c`. -/
def waitIf (c : Prop) [Decidable c] : Server Unit :=
  if c then throw .waits else pure ()

/-- A `TRAP` around `f`, and what follows where it was left. -/
def trap (f : Server Unit) (k : Int → Server Unit) : Server Unit :=
  tryCatch f fun
    | .leave aError => k aError
    | h => throw h

/-- `User::LeaveIfError(iStatus.Int())` at the head of a `RunL` -/
def leaveIfFailed : TRequestStatus → Server Unit
  | .complete aCode => leaveIfError aCode
  | .KRequestPending => pure ()

section Frames

variable {α γ : Type} {v : TokenServer → γ}

@[grind ←] theorem frames_answer (x : Leaving α) : Frames v (answer x) := by
  unfold answer
  grind

@[grind ←] theorem frames_assert (c : Prop) [Decidable c] : Frames v (assert c) := by
  unfold assert
  grind

@[grind ←] theorem frames_leaveIf (c : Prop) [Decidable c] (aError : Int) :
    Frames v (leaveIf c aError) := by
  unfold leaveIf
  grind

@[grind ←] theorem frames_leaveIfError (aError : Int) : Frames v (leaveIfError aError) := by
  unfold leaveIfError
  grind

@[grind ←] theorem frames_leaveIfFailed (x : TRequestStatus) : Frames v (leaveIfFailed x) := by
  unfold leaveIfFailed
  grind

@[grind ←] theorem frames_waitIf (c : Prop) [Decidable c] : Frames v (waitIf c) := by
  unfold waitIf
  grind

@[grind ←] theorem frames_doIf (c : Prop) [Decidable c] {f : Server Unit} (h : Frames v f) :
    Frames v (doIf c f) := by
  unfold doIf
  grind

@[grind ←] theorem frames_trap {f : Server Unit} {k : Int → Server Unit} (hf : Frames v f)
    (hk : ∀ e, Frames v (k e)) : Frames v (trap f k) := by
  refine Frames.tryCatch hf fun e => ?_
  grind

end Frames

namespace TokenServer

def setSession (m : TokenServer) (s : Nat) (f : CKeyStoreSession → CKeyStoreSession) :
    TokenServer :=
  { m with session := fun t => if t = s then f (m.session s) else m.session t }

def openedKey (m : TokenServer) (s : Nat) (aHandle : Int) : Option COpenedKey :=
  (m.session s).iOpenedKeys.lookup aHandle

def cached (m : TokenServer) (p : PassphrasePtr) : Option CPassphrase :=
  (m.session p.iSession).iPassphraseMan.iCache.find? fun q => q.id = p.id

end TokenServer

def onServer (f : CFSKeyStoreServer → CFSKeyStoreServer) : Server Unit :=
  modify fun m => { m with iServer := f m.iServer }

def onConduit (f : CKeyStoreConduit → CKeyStoreConduit) : Server Unit :=
  modify fun m => { m with iConduit := f m.iConduit }

def onSession (s : Nat) (f : CKeyStoreSession → CKeyStoreSession) : Server Unit :=
  modify (·.setSession s f)

def onManager (s : Nat) (f : CPassphraseManager → CPassphraseManager) : Server Unit :=
  onSession s fun c => { c with iPassphraseMan := f c.iPassphraseMan }

def onOpenedKey (s : Nat) (aHandle : Int) (f : COpenedKey → COpenedKey) : Server Unit :=
  onSession s fun c => { c with
    iOpenedKeys := c.iOpenedKeys.map fun o => if o.1 = aHandle then (o.1, f o.2) else o }

/-- `User::RequestComplete` on the conduit's status -/
def completeConduit (aCode : Int) : Server Unit :=
  modify fun m => { m with
    iConduit := { m.iConduit with iStatus := .complete aCode }
    signals := (m.iConduit.iMessage.map (·.iHandle), aCode) :: m.signals }

/-- `aMessage.Complete(aCode)`, or the panic of its client -/
def completeMessage (aMessage : RMessage2) (aCode : Option Int) : Server Unit :=
  modify fun m => { m with completions := (aMessage.iHandle, aCode) :: m.completions }

/-! ### The passphrase manager -/

namespace PassphraseClient

/-- The client's status -/
def setStatus (s : Nat) (aStatus : TRequestStatus) : PassphraseClient → Server Unit
  | .server => onServer ({ · with iStatus := aStatus })
  | .openedKey aHandle => onOpenedKey s aHandle ({ · with iStatus := aStatus })

def setPassphrase (s id : Nat) : PassphraseClient → Server Unit
  | .server => onServer ({ · with iPassphrase := some ⟨s, id⟩ })
  | .openedKey aHandle => onOpenedKey s aHandle ({ · with iPassphrase := some id })

end PassphraseClient

/-- What a passphrase manager is answered when a dialog is over. -/
structure ManagerAnswers where
  /-- `CPassphrase::NewLC` for a passphrase that exists -/
  newLC : Leaving Unit
  /-- `CPassphrase::NewLC` for a new one, in a new stream -/
  createLC : Leaving StreamId
  /-- the cache can grow -/
  append : Bool
  changePassphraseL : Leaving Unit

namespace CPassphraseManager

def getCachedPassphrase (man : CPassphraseManager) (aStreamId : StreamId) : Option CPassphrase :=
  man.iCache.find? fun p => p.iStreamId = aStreamId

/-- What is left of a cache whose passphrases are looked at in the order of the list. -/
def expire (timeNow : Int) : List CPassphrase → List CPassphrase × Leaving Unit
  | [] => ([], .ok ())
  | p :: rest =>
    match p.timeRemainingL timeNow with
    | .error e => (p :: rest, .error e)
    | .ok remaining =>
      let (kept, r) := expire timeNow rest
      (if remaining = 0 then kept else p :: kept, r)

/-- `ExpireCacheL`, from the last passphrase to the first -/
def expireCacheL (s : Nat) : Server Unit := do
  let m ← get
  let (kept, r) := expire m.now (m.session s).iPassphraseMan.iCache.reverse
  onManager s ({ · with iCache := kept.reverse })
  answer r

def removeCached (aStreamId : StreamId) (man : CPassphraseManager) : CPassphraseManager :=
  { man with
    iCache := man.iCache.filter fun p => ¬ (aStreamId = KNullStreamId ∨ p.iStreamId = aStreamId) }

def removeCachedPassphrases (s : Nat) (aStreamId : StreamId) : Server Unit :=
  onManager s (removeCached aStreamId)

def setActive (s : Nat) : Server Unit := do
  assert (((← get).session s).iPassphraseMan.iActive = false)
  onManager s ({ · with iActive := true })

/-- A dialog, which completes `iStatus` -/
def showDialog (s : Nat) : Server Unit := do
  onManager s ({ · with iStatus := .KRequestPending })
  setActive s

def complete (s : Nat) (aError : Int) : Server Unit := do
  let client := ((← get).session s).iPassphraseMan.iClientStatus
  onManager s ({ · with iState := .EIdle, iClientStatus := none })
  match client with
  | some c => c.setStatus s (.complete aError)
  | none => pure ()

/-- `CPassphraseManager::Cancel`.  Its `DoCancel` has the dialog complete `iStatus`. -/
def cancel (s : Nat) : Server Unit := do
  if ((← get).session s).iPassphraseMan.iActive then
    onManager s ({ · with iStatus := .complete KErrCancel })
    complete s KErrCancel
    onManager s ({ · with iActive := false })

/-- What every request sets, and the dialog. -/
def ask (s : Nat) (aClient : PassphraseClient) (aState : TManagerState)
    (f : CPassphraseManager → CPassphraseManager) : Server Unit := do
  aClient.setStatus s .KRequestPending
  onManager s fun man => { f man with iClientStatus := some aClient, iState := aState }
  showDialog s

def getPassphrase (s : Nat) (aStreamId : StreamId) (aTimeout : Int) (aClient : PassphraseClient) :
    Server Unit := do
  assert (KTimeoutNever ≤ ((← get).session s).iPassphraseMan.iTimeout)
  match ((← get).session s).iPassphraseMan.getCachedPassphrase aStreamId with
  | some p =>
      aClient.setPassphrase s p.id
      aClient.setStatus s (.complete KErrNone)
  | none =>
      ask s aClient .EGetPassphrase
        ({ · with
          iRetries := KRetryCount, iNewPassphraseStream := aStreamId, iTimeout := aTimeout })

def createPassphrase (s : Nat) (aTimeout : Int) (aClient : PassphraseClient) : Server Unit := do
  assert (KTimeoutNever ≤ ((← get).session s).iPassphraseMan.iTimeout)
  ask s aClient .ECreatePassphrase ({ · with iTimeout := aTimeout })

def changePassphrase (s : Nat) (aStreamId : StreamId) (aClient : PassphraseClient) : Server Unit :=
  ask s aClient .EChangePassphrase
    ({ · with iRetries := KRetryCount, iNewPassphraseStream := aStreamId })

/-- `*iNewPassphrasePtr`, of a new `CPassphrase` -/
def setNewPassphrase (s id : Nat) : Option PassphraseClient → Server Unit
  | some c => c.setPassphrase s id
  | none => throw .panic

/-- A new `CPassphrase` is put into the client's pointer and then into the cache, and it is
deleted when the cache cannot take it. -/
def cachePassphraseL (s : Nat) (aStreamId : StreamId) (append : Bool) : Server Unit := do
  let m ← get
  let man := (m.session s).iPassphraseMan
  modify fun m => { m with nextPassphrase := m.nextPassphrase + 1 }
  setNewPassphrase s m.nextPassphrase man.iClientStatus
  leaveIf (append = false) KErrNoMemory
  onManager s fun man => { man with
    iCache := man.iCache ++ [.new m.nextPassphrase m.now man.iTimeout aStreamId] }
  complete s KErrNone

def handleGetPassphraseL (s : Nat) (a : ManagerAnswers) : Server Unit := do
  answer a.newLC
  cachePassphraseL s ((← get).session s).iPassphraseMan.iNewPassphraseStream a.append

/-- The dialog again for a wrong passphrase, or the error. -/
def retryOrLeave (s : Nat) (err : Int) : Server Unit := do
  if err = KErrBadPassphrase then
    onManager s fun man => { man with iRetries := man.iRetries - 1 }
    if 0 < ((← get).session s).iPassphraseMan.iRetries then showDialog s
    else throw (.leave err)
  else throw (.leave err)

def changeL (s : Nat) (a : ManagerAnswers) : Server Unit := do
  answer a.changePassphraseL
  removeCachedPassphrases s ((← get).session s).iPassphraseMan.iNewPassphraseStream
  complete s KErrNone

def runL (s : Nat) (a : ManagerAnswers) : Server Unit := do
  let man := ((← get).session s).iPassphraseMan
  leaveIfFailed man.iStatus
  match man.iState with
  | .EGetPassphrase => trap (handleGetPassphraseL s a) (retryOrLeave s)
  | .ECreatePassphrase => do
      let aStreamId ← answer a.createLC
      cachePassphraseL s aStreamId a.append
  | .EChangePassphrase =>
      match a.newLC with
      | .error (.leave err) => retryOrLeave s err
      | .error e => throw (.ofExit e)
      | .ok () => changeL s a
  | .EIdle => throw .panic

/-- The scheduler's run, with `RunError` -/
def run (s : Nat) (a : ManagerAnswers) : Server Unit := do
  onManager s ({ · with iActive := false })
  trap (runL s a) (complete s)

end CPassphraseManager

end KeyStore

end OsSecurity

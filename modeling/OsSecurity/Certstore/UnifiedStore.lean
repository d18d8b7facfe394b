/-
The unified certificate store (`CUnifiedCertStore`): its members, what every operation shares,
and the discovery of the stores that `Initialize` starts.

The store is an active object.  It is active exactly while `iState` is not `EIdle`, so that flag
is not modelled.  A request it has made stays pending until the platform answers it, and `RunL`
runs once it is answered.  What the platform answers about a token type or a token is part of
the token type or token here, one entry for each place in a list, so that a list may name the
same token twice and be answered differently.

Members changed before a leave stay changed, so the functions are `Command`s.
-/
import OsSecurity.E32
import OsSecurity.Library.Commands
import OsSecurity.Library.Transitions

namespace OsSecurity

open Commands

namespace Certstore

def KErrHardwareNotAvailable : Int := -44

def KCTSoftware : Nat := 0x101F527B
def KManufactureCertStore : Int := 5

/-! ### What the platform offers -/

structure TCTTokenHandle where
  iTokenTypeId : Nat
  iTokenId : Int
  deriving DecidableEq

structure MCTToken where
  handle : TCTTokenHandle
  /-- `TokenType().Type()` -/
  tokenType : Nat
  deriving DecidableEq

/-- A token that a token type lists, and how the calls made for it end. -/
structure Token where
  token : MCTToken
  /-- `MCTTokenType::OpenToken` -/
  opened : Int := KErrNone
  /-- `MCTToken::GetInterface`, for `KInterfaceWritableCertStore` -/
  writable : Int := KErrNone
  /-- `MCTToken::GetInterface`, for `KInterfaceCertStore` -/
  readable : Int := KErrNone
  /-- the allocation of the `CCheckedCertStore` -/
  allocated : Int := KErrNone
  /-- `RFs::Connect` in its `ConstructL` -/
  connected : Int := KErrNone
  /-- its `Append` to `iWritableCertStores` or `iReadOnlyCertStores` -/
  appended : Int := KErrNone
  /-- its `Append` to `iCertStores` -/
  appendedToAll : Int := KErrNone

def Token.interfaceCode (t : Token) (aWritable : Bool) : Int :=
  if aWritable then t.writable else t.readable

structure TCTTokenTypeAttribute where
  iUID : Nat
  iVal : Int

/-- A token type, and how the calls made for it end. -/
structure CCTTokenTypeInfo where
  type : Nat
  attributes : List TCTTokenTypeAttribute
  /-- the `Append`s to `iHardwareTypeUids` and to `iReadOnlyTokenTypes` -/
  noted : Int := KErrNone
  moved : Int := KErrNone
  /-- `MCTTokenType::NewL` -/
  created : Int := KErrNone
  /-- `MCTTokenType::List` -/
  listed : Int := KErrNone
  tokens : List Token

/-- What the platform offers while one `Initialize` is under way. -/
structure Platform where
  /-- the allocations of `InitializeL` before it lists any token types -/
  allocated : Int := KErrNone
  /-- `CCTTokenTypeInfo::ListL` for `KInterfaceWritableCertStore` -/
  writableListed : Int := KErrNone
  writableTypes : List CCTTokenTypeInfo
  /-- `CCTTokenTypeInfo::ListL` for `KInterfaceCertStore` -/
  readableListed : Int := KErrNone
  readableTypes : List CCTTokenTypeInfo
  /-- the allocations of `ApplyOrderingL` -/
  ordered : Int := KErrNone

/-! ### The members -/

inductive TState where
  | EIdle
  | EInitializeGetTokenList
  | EInitializeGetToken
  | EInitializeGetWritableInterface
  | EInitializeGetReadableInterface
  | EInitializeGetReadableInterfaceFinished
  | EInitializeFinished
  deriving DecidableEq

/-- An interface object that a token has handed out. -/
structure MCTTokenInterface where
  id : Nat
  token : Token
  isWritable : Bool

structure CCheckedCertStore where
  iCertStore : MCTTokenInterface

/-- What a store is, whichever interface object it was made with. -/
structure FoundStore where
  token : MCTToken
  isWritable : Bool
  deriving DecidableEq

def CCheckedCertStore.found (c : CCheckedCertStore) : FoundStore :=
  { token := c.iCertStore.token.token, isWritable := c.iCertStore.isWritable }

/-- A request made with `iStatus`. -/
inductive Request where
  | list (aType : CCTTokenTypeInfo)
  | openToken (aToken : Token)
  | getInterface (aToken : Token) (aWritable : Bool)

inductive TRequestStatus where
  | KRequestPending (aRequest : Request)
  | complete (aCode : Int)

structure CUnifiedCertStoreWorkingVars where
  iWritableTokenTypes : List CCTTokenTypeInfo := []
  iReadOnlyTokenTypes : List CCTTokenTypeInfo := []
  iIndex : Int := 0

structure CUnifiedCertStore where
  iOpenedForWrite : Bool
  iOrderAttributes : List Int := []
  iReadOnlyCertStores : List CCheckedCertStore := []
  iWritableCertStores : List CCheckedCertStore := []
  iCertStores : List CCheckedCertStore := []
  iCurrentlyDoingReadOnly : Bool := false
  iTokenType : Option CCTTokenTypeInfo := none
  iTokens : List Token := []
  iHardwareTypeUids : List Nat := []
  iIndexTokens : Int := 0
  iToken : Option Token := none
  iTokenInterface : Option MCTTokenInterface := none
  iClientStatus : Bool := false
  iState : TState := .EIdle
  iIsInitialized : Bool := false
  iWorkingVars : Option CUnifiedCertStoreWorkingVars := none
  iStatus : TRequestStatus := .complete KErrNone
  /-- the caller's `TRequestStatus`, once it is completed -/
  answered : Option Int := none
  nextInterface : Nat := 0
  /-- the interface objects released, one entry for each release -/
  released : List Nat := []

abbrev Unified (α : Type) := Command CUnifiedCertStore Exit α

/-! ### Steps of any function -/

def assert (c : Prop) [Decidable c] : Unified Unit :=
  if c then pure () else throw .panic

/-- `User::LeaveIfError` -/
def leaveIfError {σ : Type} (aError : Int) : Command σ Exit Unit :=
  if aError < 0 then throw (.leave aError) else pure ()

def leaveIf (c : Prop) [Decidable c] (aError : Int) : Unified Unit :=
  if c then throw (.leave aError) else pure ()

def doIf (c : Prop) [Decidable c] (f : Unified Unit) : Unified Unit :=
  if c then f else pure ()

/-- A member that an assertion or the code itself takes to be set. -/
def member {α : Type} (f : CUnifiedCertStore → Option α) : Unified α := do
  let m ← get
  match f m with
  | some a => pure a
  | none => throw .panic

namespace CUnifiedCertStore

/-! ### `BeginAsyncOp`, `Complete` -/

def listed (m : CUnifiedCertStore) : List CCheckedCertStore :=
  m.iReadOnlyCertStores ++ m.iWritableCertStores ++ m.iCertStores

def releaseStores (cs : List CCheckedCertStore) (m : CUnifiedCertStore) : CUnifiedCertStore :=
  { m with released := cs.map (·.iCertStore.id) ++ m.released }

def dropStores (m : CUnifiedCertStore) : CUnifiedCertStore :=
  if m.iIsInitialized then m
  else
    { releaseStores m.iWritableCertStores (releaseStores m.iReadOnlyCertStores m) with
      iReadOnlyCertStores := []
      iWritableCertStores := []
      iCertStores := [] }

def dropInterface (m : CUnifiedCertStore) : CUnifiedCertStore :=
  { m with
    released := (m.iTokenInterface.map (·.id)).toList ++ m.released
    iTokenInterface := none }

/-- `DestroyTemporaryMembers`.  It leaves `iCurrentlyDoingReadOnly` as it is. -/
def destroyTemporaryMembers (m : CUnifiedCertStore) : CUnifiedCertStore :=
  { dropInterface { dropStores m with iTokenType := none, iToken := none } with
    iTokens := []
    iWorkingVars := none }

def complete (aError : Int) (m : CUnifiedCertStore) : CUnifiedCertStore :=
  { destroyTemporaryMembers { m with answered := some aError, iClientStatus := false } with
    iState := .EIdle }

def beginAsyncOp (aState : TState) : Unified Unit := do
  let m ← get
  assert (m.iState = .EIdle)
  assert (m.iClientStatus = false)
  modify fun m => { m with iClientStatus := true, answered := none, iState := aState }

/-- `assert(iClientStatus)`, then what `complete` does. -/
def completeClient (aError : Int) : Unified Unit := do
  let m ← get
  assert (m.iClientStatus = true)
  modify (complete aError)

/-- A `TRAP` around `f`, with what every operation does where it was left. -/
def trapped (f : Unified Unit) : Unified Unit :=
  tryCatch f fun
    | .leave aError => completeClient aError
    | e => throw e

/-! ### `InitializeL` -/

def hasOrderAttribute (aOrderAttribute : Int) (t : CCTTokenTypeInfo) : Bool :=
  t.attributes.any fun a => a.iUID = KCTSoftware ∧ a.iVal = aOrderAttribute

/-- `FilterTokenTypesL`, from `tokenTypesLoop = n - 1` down. -/
def filterTokenTypes (aOrderAttribute : Int) :
    Nat → List CCTTokenTypeInfo × List CCTTokenTypeInfo →
      List CCTTokenTypeInfo × List CCTTokenTypeInfo
  | 0, p => p
  | n + 1, (aSearch, aTemp) =>
      match aSearch[n]? with
      | some t =>
        if hasOrderAttribute aOrderAttribute t then
          filterTokenTypes aOrderAttribute n (aSearch.eraseIdx n, aTemp ++ [t])
        else filterTokenTypes aOrderAttribute n (aSearch, aTemp)
      | none => filterTokenTypes aOrderAttribute n (aSearch, aTemp)

/-- `ApplyOrderingL` for one of its two lists.  What no attribute moved is dropped. -/
def applyOrdering (iOrderAttributes : List Int) (types : List CCTTokenTypeInfo) :
    List CCTTokenTypeInfo :=
  (iOrderAttributes.foldl (fun p a => filterTokenTypes a p.1.length p) (types, [])).2

def ordered (iOrderAttributes : List Int) (types : List CCTTokenTypeInfo) :
    List CCTTokenTypeInfo :=
  if iOrderAttributes = [] then types else applyOrdering iOrderAttributes types

/-- The value of the first attribute with the UID `KCTSoftware`. -/
def software (t : CCTTokenTypeInfo) : Option Int :=
  (t.attributes.find? fun a => a.iUID = KCTSoftware).map (·.iVal)

def isHardware (t : CCTTokenTypeInfo) : Bool :=
  match software t with
  | some v => v ≠ 1 ∧ v ≠ KManufactureCertStore
  | none => false

def noteTypeL (t : CCTTokenTypeInfo) : Unified Unit := do
  leaveIfError t.noted
  modify fun m => { m with iHardwareTypeUids := m.iHardwareTypeUids ++ [t.type] }

def noteHardwareTypesL : List CCTTokenTypeInfo → Unified Unit
  | [] => pure ()
  | t :: ts => do
      doIf (isHardware t) (noteTypeL t)
      noteHardwareTypesL ts

/-- The token types of `types` that are not among the writable ones. -/
def readOnlyTypesL (writable : List CCTTokenTypeInfo) :
    List CCTTokenTypeInfo → Unified (List CCTTokenTypeInfo)
  | [] => pure []
  | t :: ts =>
      if writable.any fun w => w.type = t.type then readOnlyTypesL writable ts
      else do
        leaveIfError t.moved
        let rest ← readOnlyTypesL writable ts
        pure (t :: rest)

def initializeL (p : Platform) : Unified Unit := do
  leaveIfError p.allocated
  leaveIfError p.writableListed
  leaveIfError p.readableListed
  let m ← get
  leaveIf (m.iOrderAttributes ≠ [] ∧ p.ordered < 0) p.ordered
  let writable := ordered m.iOrderAttributes p.writableTypes
  let tokenTypes := ordered m.iOrderAttributes p.readableTypes
  noteHardwareTypesL tokenTypes
  let readOnly ← readOnlyTypesL writable tokenTypes
  modify fun m =>
    { m with
      iWorkingVars := some
        { iWritableTokenTypes := writable
          iReadOnlyTokenTypes := readOnly
          iIndex := -1 }
      iStatus := .complete KErrNone }

def Initialize (p : Platform) : Unified Unit := do
  beginAsyncOp .EInitializeGetTokenList
  trapped (initializeL p)

/-! ### `RunL` while the store is initialised -/

def selfComplete : Unified Unit :=
  modify fun m => { m with iStatus := .complete KErrNone }

def code : TRequestStatus → Int
  | .complete aCode => aCode
  | .KRequestPending _ => 0

def setIndex (i : Int) : Unified Unit := do
  let w ← member (·.iWorkingVars)
  modify fun m => { m with iWorkingVars := some { w with iIndex := i } }

/-- The token types of the pass that is under way. -/
def passTypes (m : CUnifiedCertStore) (w : CUnifiedCertStoreWorkingVars) :
    List CCTTokenTypeInfo :=
  if m.iCurrentlyDoingReadOnly then w.iReadOnlyTokenTypes else w.iWritableTokenTypes

/-- One more token type. -/
def tryTokenTypeL (t : CCTTokenTypeInfo) : Unified Unit := do
  let m ← get
  assert (m.iTokenType = none)
  leaveIf (t.created = KErrNoMemory) KErrNoMemory
  if t.created ≠ KErrNone then selfComplete
  else do
    assert (m.iTokens = [])
    modify fun m =>
      { m with
        iTokenType := some t
        iStatus := .KRequestPending (.list t)
        iIndexTokens := -1
        iState := .EInitializeGetToken }

/-- No more token types in this pass. -/
def endPass : Unified Unit := do
  let m ← get
  if m.iCurrentlyDoingReadOnly then do
    modify fun m => { m with iState := .EInitializeFinished }
    selfComplete
  else do
    modify fun m => { m with iCurrentlyDoingReadOnly := true }
    setIndex (-1)
    selfComplete

def runGetTokenList : Unified Unit := do
  let w ← member (·.iWorkingVars)
  setIndex (w.iIndex + 1)
  let m ← get
  match (passTypes m w)[(w.iIndex + 1).toNat]? with
  | some t => tryTokenTypeL t
  | none => endPass

/-- `++iIndexTokens` -/
def countToken : Unified Unit :=
  modify fun m => { m with iIndexTokens := m.iIndexTokens + 1 }

def openToken (t : Token) : Unified Unit := do
  let m ← get
  assert (m.iToken = none)
  let _ ← member (·.iTokenType)
  modify fun m =>
    { m with
      iStatus := .KRequestPending (.openToken t)
      iState :=
        if m.iOpenedForWrite ∧ ¬ m.iCurrentlyDoingReadOnly then
          .EInitializeGetWritableInterface
        else .EInitializeGetReadableInterface }

/-- Neither the token type nor its tokens are needed any more. -/
def nextTokenType : Unified Unit := do
  let _ ← member (·.iTokenType)
  modify fun m =>
    { m with
      iTokenType := none
      iTokens := []
      iState := .EInitializeGetTokenList }
  selfComplete

def runGetToken : Unified Unit := do
  let m ← get
  if code m.iStatus = KErrHardwareNotAvailable then do
    countToken
    selfComplete
  else do
    leaveIfError (code m.iStatus)
    countToken
    let m ← get
    match m.iTokens[m.iIndexTokens.toNat]? with
    | some t => openToken t
    | none => nextTokenType

def getInterface (aWritable : Bool) (aNext : TState) : Unified Unit := do
  let t ← member (·.iToken)
  let m ← get
  assert (m.iTokenInterface = none)
  modify fun m =>
    { m with
      iStatus := .KRequestPending (.getInterface t aWritable)
      iState := aNext }

def runGetWritableInterface : Unified Unit := do
  let m ← get
  leaveIfError (code m.iStatus)
  getInterface true .EInitializeGetReadableInterface

def release (c : CCheckedCertStore) : Unified Unit :=
  modify (releaseStores [c])

/-- `NewCheckedCertStoreL`, `NewCheckedWritableCertStoreL`.  A checked store that cannot connect
is deleted, and releases the interface it was given. -/
def newCheckedL (aTokenIF : MCTTokenInterface) : Unified CCheckedCertStore := do
  leaveIfError aTokenIF.token.allocated
  if aTokenIF.token.connected < 0 then do
    release { iCertStore := aTokenIF }
    throw (.leave aTokenIF.token.connected)
  else pure { iCertStore := aTokenIF }

/-- The `Append` that `CleanupReleasePushL` guards. -/
def appendL (add : CCheckedCertStore → CUnifiedCertStore → CUnifiedCertStore)
    (interf : CCheckedCertStore) : Unified Unit :=
  if interf.iCertStore.token.appended < 0 then do
    release interf
    throw (.leave interf.iCertStore.token.appended)
  else modify (add interf)

/-- The checked store goes into its own list, with `add`, and into `iCertStores`. -/
def addStoreL (add : CCheckedCertStore → CUnifiedCertStore → CUnifiedCertStore) :
    Unified Unit := do
  let tokenInterface ← member (·.iTokenInterface)
  let interf ← newCheckedL tokenInterface
  modify fun m => { m with iTokenInterface := none }
  appendL add interf
  leaveIfError tokenInterface.token.appendedToAll
  modify fun m => { m with iCertStores := m.iCertStores ++ [interf] }

def addWritable (c : CCheckedCertStore) (m : CUnifiedCertStore) : CUnifiedCertStore :=
  { m with iWritableCertStores := m.iWritableCertStores ++ [c] }

def addReadOnly (c : CCheckedCertStore) (m : CUnifiedCertStore) : CUnifiedCertStore :=
  { m with iReadOnlyCertStores := m.iReadOnlyCertStores ++ [c] }

/-- The token is not needed any more, on to the next one. -/
def nextToken : Unified Unit := do
  let _ ← member (·.iToken)
  modify fun m => { m with iToken := none, iState := .EInitializeGetToken }
  selfComplete

def runGetReadableInterface : Unified Unit := do
  let m ← get
  leaveIf (code m.iStatus = KErrNoMemory) KErrNoMemory
  if ¬ m.iCurrentlyDoingReadOnly ∧ m.iOpenedForWrite ∧ code m.iStatus = KErrNone then do
    addStoreL addWritable
    nextToken
  else do
    leaveIf ((m.iCurrentlyDoingReadOnly ∨ ¬ m.iOpenedForWrite) ∧ code m.iStatus ≠ KErrNone)
      (code m.iStatus)
    getInterface false .EInitializeGetReadableInterfaceFinished

def runGetReadableInterfaceFinished : Unified Unit := do
  let m ← get
  leaveIf (code m.iStatus = KErrNoMemory) KErrNoMemory
  doIf (code m.iStatus = KErrNone) (addStoreL addReadOnly)
  nextToken

def runInitializeFinished : Unified Unit := do
  let m ← get
  leaveIfError (code m.iStatus)
  assert (m.iTokenType = none ∧ m.iToken = none ∧ m.iTokenInterface = none)
  modify fun m => { m with iIsInitialized := true }
  completeClient (code m.iStatus)

def runL : Unified Unit := do
  let m ← get
  match m.iState with
  | .EInitializeGetTokenList => do
      leaveIfError (code m.iStatus)
      runGetTokenList
  | .EInitializeGetToken => runGetToken
  | .EInitializeGetWritableInterface => runGetWritableInterface
  | .EInitializeGetReadableInterface => runGetReadableInterface
  | .EInitializeGetReadableInterfaceFinished => runGetReadableInterfaceFinished
  | .EInitializeFinished => runInitializeFinished
  | .EIdle => throw .panic

/-! ### The platform's answers, `DoCancel` -/

/-- What is there once the platform has answered a request. -/
def deliver (m : CUnifiedCertStore) : Request → CUnifiedCertStore
  | .list t => { m with iTokens := m.iTokens ++ t.tokens, iStatus := .complete t.listed }
  | .openToken t =>
      { m with
        iToken := if t.opened = KErrNone then some t else none
        iStatus := .complete t.opened }
  | .getInterface t aWritable =>
      if t.interfaceCode aWritable = KErrNone then
        { m with
          iTokenInterface := some { id := m.nextInterface, token := t, isWritable := aWritable }
          nextInterface := m.nextInterface + 1
          iStatus := .complete KErrNone }
      else { m with iStatus := .complete (t.interfaceCode aWritable) }

def doCancel : Unified Unit := do
  let m ← get
  if m.iState = .EInitializeFinished then trapped runL
  else do
    modify fun m => { m with iStatus := .complete KErrCancel }
    completeClient KErrCancel

inductive Act where
  | Initialize (p : Platform)
  /-- the platform answers the request that is pending -/
  | answer
  | run
  | cancelInitialize

/-- The state a function ends in, unless it panics. -/
def outcome : Except Exit Unit × CUnifiedCertStore → Option CUnifiedCertStore
  | (.ok _, m) => some m
  | (.error _, _) => none

def step (m : CUnifiedCertStore) : Act → Option CUnifiedCertStore
  | .Initialize p => outcome (Initialize p m)
  | .answer =>
      match m.iStatus with
      | .KRequestPending r => if m.iState = .EIdle then none else some (deliver m r)
      | .complete _ => none
  | .run =>
      match m.iStatus with
      | .KRequestPending _ => none
      | .complete _ => if m.iState = .EIdle then none else outcome (trapped runL m)
  | .cancelInitialize => if m.iState = .EIdle then some m else outcome (doCancel m)

/-- `NewL` -/
def New (m : CUnifiedCertStore) : Prop :=
  m = { iOpenedForWrite := m.iOpenedForWrite, iOrderAttributes := m.iOrderAttributes }

end CUnifiedCertStore

end Certstore

end OsSecurity

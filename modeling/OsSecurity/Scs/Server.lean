/-
The server side of the SCS framework: sessions with their subsession handles, and the
asynchronous requests that the server completes later (`CScsServer`, `CScsSession`,
`CAsyncRequest`).

Sessions, subsessions and messages are numbered as they come, and a request has the number of
the message it completes.  A server that uses the framework adds code of its own: how a function
is served, how a subsession is made, how a request is cleaned up.  What that code calls of the
framework is a `Work`, and a call that the framework's documentation rules out is a way out of
its own, `contract`.  What the platform answers is a parameter of the event that asks.

The null pointer is part of the model: a session without a handle index has none to look in.
The shutdown timer is only a flag, and the messages for heap tests do what they do in a release
build.

`log` is not in the source.  It records what a statement about a whole run has to name.
-/
import OsSecurity.E32
import OsSecurity.Library.Commands
import OsSecurity.Library.Transitions
import Mathlib.Data.UInt

namespace OsSecurity.Scs

open Commands

/-! ### Function codes -/

def KScsFunctionPos : UInt32 := 24

def KScsFunctionMask : UInt32 := 0xFF000000

inductive TScsFunction where
  | ECallSessionFunc
  | ECallSubsessionFunc
  | EPreCloseSession
  | ECancelSessionFunc
  | ECreateSubsession
  | ECloseSubsession
  | ECancelSubsessionFunc
  | EUHeapSetFail
  | EUHeapResetFail
  | EGetServerPid
  | EShutdownAsap
  deriving DecidableEq

namespace TScsFunction

def code : TScsFunction → UInt32
  | ECallSessionFunc => 1 <<< KScsFunctionPos
  | ECallSubsessionFunc => 2 <<< KScsFunctionPos
  | EPreCloseSession => 3 <<< KScsFunctionPos
  | ECancelSessionFunc => 4 <<< KScsFunctionPos
  | ECreateSubsession => 5 <<< KScsFunctionPos
  | ECloseSubsession => 6 <<< KScsFunctionPos
  | ECancelSubsessionFunc => 7 <<< KScsFunctionPos
  | EUHeapSetFail => 8 <<< KScsFunctionPos
  | EUHeapResetFail => 9 <<< KScsFunctionPos
  | EGetServerPid => 10 <<< KScsFunctionPos
  | EShutdownAsap => 11 <<< KScsFunctionPos

def all : List TScsFunction :=
  [ECallSessionFunc, ECallSubsessionFunc, EPreCloseSession, ECancelSessionFunc,
    ECreateSubsession, ECloseSubsession, ECancelSubsessionFunc, EUHeapSetFail, EUHeapResetFail,
    EGetServerPid, EShutdownAsap]

def ofCode (aFunction : UInt32) : Option TScsFunction :=
  all.find? fun f => f.code = aFunction &&& KScsFunctionMask

end TScsFunction

structure RMessage2 where
  iHandle : Nat
  iSession : Nat
  iFunction : UInt32
  int3 : Int

namespace RMessage2

/-- `ExtractScsAndImplFunctions`; a code that the framework does not know is none. -/
def scsFunction (aMessage : RMessage2) : Option TScsFunction :=
  TScsFunction.ofCode aMessage.iFunction

def implFunction (aMessage : RMessage2) : UInt32 := aMessage.iFunction &&& ~~~KScsFunctionMask

end RMessage2

/-! ### The state -/

structure CAsyncRequest where
  /-- null once the request is marked for deletion -/
  iSession : Option Nat := none
  /-- null where the request is for the session itself -/
  iSubsession : Option Nat := none
  iFunction : UInt32 := 0
  iActive : Bool := false

/-- The containers hold subsessions, and are null before the first one is created. -/
structure CScsSession where
  iPreCreateSubsessionCount : Nat := 0
  iSsObjects : Option (List Nat) := none
  iSsHandles : Option (List (Int × Nat)) := none

inductive TScsClientPanic where
  | EScsClBadDesc
  | EScsClBadHandle
  | EScsClAsyncAlreadyQueued
  deriving DecidableEq

/-- How a client's message comes to its end. -/
inductive Completion where
  | complete (aReason : Int)
  | panicked (aReason : TScsClientPanic)
  deriving DecidableEq

inductive Action where
  /-- `TransferToScsFrameworkL` returned. -/
  | accepted (x aSession : Nat)
  | completed (x : Nat) (c : Completion)
  | deleted (x : Nat)
  | destroyed (aSession : Nat)
  /-- The client was given the handle of a new subsession. -/
  | created (aSession : Nat) (aHandle : Int)
  | closed (aSession : Nat) (aHandle : Int)
  deriving DecidableEq

structure CScsServer where
  session : Nat → Option CScsSession := fun _ => none
  iAsyncRequests : List Nat := []
  request : Nat → CAsyncRequest := fun _ => {}
  /-- `iAsyncCleanup` is due to run -/
  iAsyncCleanup : Bool := false
  iShutdownTimer : Bool := false
  nextSession : Nat := 0
  nextSubsession : Nat := 0
  nextMessage : Nat := 0
  /-- A null pointer was followed. -/
  crashed : Bool := false
  log : List Action := []

/-- How a function is left, other than by returning. -/
inductive Halt where
  | leave (aError : Int)
  /-- a null pointer was followed -/
  | undefined
  /-- the server's own code did what it must not do -/
  | contract

abbrev Server (α : Type) := Command CScsServer Halt α

/-- What a parameter answers. -/
def answer {α : Type} (x : Except Int α) : Server α :=
  match x with
  | .ok a => pure a
  | .error aError => throw (.leave aError)

/-- What the server's own code has to keep to. -/
def contract (c : Prop) [Decidable c] : Server Unit :=
  if c then pure () else throw .contract

/-- A pointer that is about to be followed. -/
def deref {α : Type} (p : Option α) : Server α :=
  match p with
  | some a => pure a
  | none => throw .undefined

def doIf (c : Prop) [Decidable c] (f : Server Unit) : Server Unit :=
  if c then f else pure ()

namespace CScsServer

variable (m : CScsServer)

def setRequest (x : Nat) (f : CAsyncRequest → CAsyncRequest) : CScsServer :=
  { m with request := fun y => if y = x then f (m.request x) else m.request y }

def setSession (s : Nat) (f : CScsSession → CScsSession) : CScsServer :=
  { m with session := fun y => if y = s then (m.session s).map f else m.session y }

def wrote (act : Action) : CScsServer := { m with log := act :: m.log }

/-- A request that still has to be completed. -/
def Outstanding (x : Nat) : Prop := x ∈ m.iAsyncRequests ∧ (m.request x).iSession ≠ none

instance (x : Nat) : Decidable (m.Outstanding x) := by unfold Outstanding; infer_instance

end CScsServer

def note (act : Action) : Server Unit := modify (·.wrote act)

def onRequest (x : Nat) (f : CAsyncRequest → CAsyncRequest) : Server Unit :=
  modify (·.setRequest x f)

def onSession (s : Nat) (f : CScsSession → CScsSession) : Server Unit :=
  modify (·.setSession s f)

/-- The members of the session that a function is called on. -/
def thisSession (s : Nat) : Server CScsSession := do deref ((← get).session s)

/-! ### Completing requests -/

/-- What code of the server calls of the framework, one call after the other. -/
inductive Work where
  | returns
  | setActive (x : Nat) (rest : Work)
  /-- `CompleteAndMarkForDeletion` of a request whose own cleanup does `cleanup` -/
  | finishes (x : Nat) (aError : Int) (cleanup rest : Work)

def complete (x : Nat) (aReason : Int) : Server Unit := note (.completed x (.complete aReason))

def panicClient (x : Nat) (aReason : TScsClientPanic) : Server Unit :=
  note (.completed x (.panicked aReason))

namespace CAsyncRequest

/-- The client's part of `CompleteAndMarkForDeletion` -/
def completeClient (x : Nat) (aError : Int) : Server Unit :=
  if aError = KErrBadDescriptor then panicClient x .EScsClBadDesc else complete x aError

/-- `CActive::Cancel` -/
def cancel (x : Nat) : Server Unit := onRequest x ({ · with iActive := false })

/-- The end of `MarkForDeletion`; `CallBack` has no effect if it is queued already. -/
def mark (x : Nat) : Server Unit := do
  modify ({ · with iAsyncCleanup := true })
  onRequest x ({ · with iSession := none })

/-- The calls of some code, while the requests in `busy` are being cleaned up. -/
def work (busy : List Nat) : Work → Server Unit
  | .returns => pure ()
  | .setActive x rest => do
      contract ((← get).Outstanding x ∧ x ∉ busy)
      onRequest x ({ · with iActive := true })
      work busy rest
  | .finishes x aError cleanup rest => do
      contract ((← get).Outstanding x ∧ x ∉ busy)
      completeClient x aError
      cancel x
      work (x :: busy) cleanup
      mark x
      work busy rest

/-- It cancels the active object and does what else the server's own code adds. -/
def doCleanup (x : Nat) (cleanup : Work) : Server Unit := do
  cancel x
  work [x] cleanup

def markForDeletion (x : Nat) (cleanup : Work) : Server Unit := do
  doCleanup x cleanup
  mark x

def completeAndMarkForDeletion (x : Nat) (aError : Int) (cleanup : Work) : Server Unit := do
  completeClient x aError
  markForDeletion x cleanup

def cancelCompleteAndMarkForDeletion (x : Nat) (cleanup : Work) : Server Unit :=
  completeAndMarkForDeletion x KErrCancel cleanup

def runError (x : Nat) (aError : Int) (cleanup : Work) : Server Unit :=
  completeAndMarkForDeletion x aError cleanup

end CAsyncRequest

/-- `RunL` of a request: the framework's own, or one that the server has in its place.  The
latter finishes its request, or waits for more and makes it active again, or leaves before it
has completed it. -/
inductive RunL where
  | ofFramework (iStatus : Int) (cleanup : Work)
  | overridden (calls : Work) (leaves : Option (Int × Work))

namespace CAsyncRequest

def runL (x : Nat) : RunL → Server Unit
  | .ofFramework iStatus cleanup => do
      cancel x
      completeAndMarkForDeletion x iStatus cleanup
  | .overridden calls none => do
      cancel x
      work [] calls
  | .overridden calls (some (aError, cleanup)) => do
      cancel x
      work [] calls
      contract ((← get).Outstanding x)
      runError x aError cleanup

end CAsyncRequest

/-! ### The server's requests -/

/-- The subsession whose requests are cancelled, or `KWildSubsession`. -/
inductive SubsessionMatch where
  | KWildSubsession
  | subsession (aSubsession : Option Nat)

def SubsessionMatch.matches : SubsessionMatch → Option Nat → Bool
  | KWildSubsession, _ => true
  | subsession aSubsession, iSubsession => iSubsession = aSubsession

/-- What the cleanup of each request does: when it is called for a session that is destroyed,
and in `MarkForDeletion`. -/
structure Cleanups where
  first : Nat → Work := fun _ => .returns
  marking : Nat → Work := fun _ => .returns

namespace CScsServer

open CAsyncRequest

def findAsyncRequest (m : CScsServer) (aSession : Nat) (aSubsession : Option Nat)
    (aFunction : UInt32) : Option Nat :=
  m.iAsyncRequests.reverse.find? fun req =>
    (m.request req).iSession = some aSession ∧ (m.request req).iSubsession = aSubsession ∧
      (m.request req).iFunction = aFunction

/-- `appendL` is what the array answers when the request is appended. -/
def addAsyncRequestL (x : Nat) (aRequest : CAsyncRequest) (aSession : Nat)
    (appendL : Except Int Unit) : Server Unit := do
  match (← get).findAsyncRequest aSession aRequest.iSubsession aRequest.iFunction with
  | some _ => throw (.leave KErrScsAsyncAlreadyQueued)
  | none =>
      answer appendL
      modify fun m => { m with iAsyncRequests := m.iAsyncRequests ++ [x] }
      onRequest x fun _ => aRequest
      note (.accepted x aSession)

def cancelAsyncRequest (aSession : Nat) (aSubsession : Option Nat) (aFunction : UInt32)
    (c : Cleanups) : Server Unit := do
  match (← get).findAsyncRequest aSession aSubsession aFunction with
  | none => pure ()
  | some req => cancelCompleteAndMarkForDeletion req (c.marking req)

/-- `sessionMatch` and `subsessionMatch` -/
def Matches (m : CScsServer) (aSession : Nat) (aSubsession : SubsessionMatch) (req : Nat) :
    Prop :=
  (m.request req).iSession = some aSession ∧ aSubsession.matches (m.request req).iSubsession

instance (m : CScsServer) (aSession : Nat) (aSubsession : SubsessionMatch) (req : Nat) :
    Decidable (m.Matches aSession aSubsession req) := by unfold Matches; infer_instance

def cancelMatching (aCompleteClientRequests : Bool) (c : Cleanups) (req : Nat) : Server Unit :=
  if aCompleteClientRequests then cancelCompleteAndMarkForDeletion req (c.marking req)
  else do
    doCleanup req (c.first req)
    markForDeletion req (c.marking req)

/-- One turn of the loop in `CancelOutstandingRequests`. -/
def cancelOutstanding (aSession : Nat) (aSubsession : SubsessionMatch)
    (aCompleteClientRequests : Bool) (c : Cleanups) (req : Nat) : Server Unit := do
  doIf ((← get).Matches aSession aSubsession req) (cancelMatching aCompleteClientRequests c req)

/-- The loop, which still has `i` requests to look at and takes the last of them. -/
def cancelRequestsBelow (aSession : Nat) (aSubsession : SubsessionMatch)
    (aCompleteClientRequests : Bool) (c : Cleanups) : Nat → Server Unit
  | 0 => pure ()
  | i + 1 => do
      let req ← deref (← get).iAsyncRequests[i]?
      cancelOutstanding aSession aSubsession aCompleteClientRequests c req
      cancelRequestsBelow aSession aSubsession aCompleteClientRequests c i

def cancelOutstandingRequests (aSession : Nat) (aSubsession : SubsessionMatch)
    (aCompleteClientRequests : Bool) (c : Cleanups) : Server Unit := do
  cancelRequestsBelow aSession aSubsession aCompleteClientRequests c
    (← get).iAsyncRequests.length

/-- One turn of the loop in `RemoveCompletedRequests`. -/
def removeIfCompleted (i req : Nat) : Server Unit := do
  doIf (((← get).request req).iSession = none) do
    note (.deleted req)
    modify fun m => { m with iAsyncRequests := m.iAsyncRequests.eraseIdx i }

def removeCompletedBelow : Nat → Server Unit
  | 0 => pure ()
  | i + 1 => do
      let req ← deref (← get).iAsyncRequests[i]?
      removeIfCompleted i req
      removeCompletedBelow i

def removeCompletedRequests : Server Unit := do
  removeCompletedBelow (← get).iAsyncRequests.length

end CScsServer

/-! ### Sessions -/

/-- How the server's own `DoServiceL` ends: the request is served, or it leaves, or a
`CAsyncRequest` has been made for it, is handed to the framework and then started. -/
inductive Service where
  | served
  | leaves (aError : Int)
  | asynchronous (appendL : Except Int Unit) (start : Work)

/-- What the rest of the system answers while a message is served. -/
structure Answers where
  /-- what the server's own code calls first -/
  calls : Work := .returns
  doServiceL : Service := .served
  doCreateSubsessionL : Except Int Unit := .ok ()
  cleanups : Cleanups := {}
  /-- `iContainerIndex->CreateL` and `CObjectIx::NewL` -/
  createL : Except Int Unit := .ok ()
  newL : Except Int Unit := .ok ()
  objectsAddL : Except Int Unit := .ok ()
  /-- the handle that the index gives to the new subsession -/
  handlesAddL : Except Int Int := .ok 0
  /-- `RMessage2::Write` -/
  write : Int := KErrNone

namespace CScsSession

open CScsServer CAsyncRequest

def doServiceL (aSubsession : Option Nat) (aMessage : RMessage2) (a : Answers) : Server Bool := do
  work [] a.calls
  match a.doServiceL with
  | .served => pure true
  | .leaves aError => throw (.leave aError)
  | .asynchronous appendL start =>
      addAsyncRequestL aMessage.iHandle
        { iSession := some aMessage.iSession
          iSubsession := aSubsession
          iFunction := aMessage.implFunction } aMessage.iSession appendL
      work [] start
      pure false

def preCloseSession (s : Nat) (a : Answers) : Server Unit :=
  cancelOutstandingRequests s .KWildSubsession true a.cleanups

def cancelAsyncSessionRequestL (s : Nat) (aFunction : UInt32) (a : Answers) : Server Unit :=
  cancelAsyncRequest s none aFunction a.cleanups

/-- Deleting the index closes the subsessions that are left in it. -/
def deleteSubsessionContainers (s : Nat) : Server Unit :=
  onSession s ({ · with iSsHandles := none, iSsObjects := none })

/-- `CObjectIx::AtL` -/
def atL (handles : List (Int × Nat)) (aHandle : Int) : Server Nat :=
  match handles.find? (fun entry => entry.1 = aHandle) with
  | some entry => pure entry.2
  | none => throw (.leave KErrBadHandle)

def getSubsessionL (aMessage : RMessage2) : Server Nat := do
  let handles ← deref (← thisSession aMessage.iSession).iSsHandles
  atL handles aMessage.int3

/-- The containers, if this is the first subsession. -/
def createContainersL (s : Nat) (a : Answers) : Server Unit := do
  doIf ((← thisSession s).iSsObjects = none) do
    answer a.createL
    onSession s ({ · with iSsObjects := some [] })
    answer a.newL
    onSession s ({ · with iSsHandles := some [] })

/-- A subsession that the cleanup stack closes. -/
def closeObject (s ss : Nat) : Server Unit :=
  onSession s fun x => { x with iSsObjects := x.iSsObjects.map (·.erase ss) }

/-- What the index answers to `AddL`, with the subsession on the cleanup stack.  No handle is
given out twice. -/
def giveHandle (s ss : Nat) (handles : List (Int × Nat)) : Except Int Int → Server Int
  | .error aError => do
      closeObject s ss
      throw (.leave aError)
  | .ok handle => do
      contract (∀ entry ∈ handles, entry.1 ≠ handle)
      onSession s ({ · with iSsHandles := some (handles ++ [(handle, ss)]) })
      pure handle

/-- `iSsHandles->AddL` -/
def addHandleL (s ss : Nat) (a : Answers) : Server Int := do
  let handles ← deref (← thisSession s).iSsHandles
  giveHandle s ss handles a.handlesAddL

/-- The containers take the subsession, and the client is sent its handle. -/
def registerL (s ss : Nat) (a : Answers) : Server Unit := do
  let objects ← deref (← thisSession s).iSsObjects
  answer a.objectsAddL
  onSession s ({ · with iSsObjects := some (objects ++ [ss]) })
  let handle ← addHandleL s ss a
  answer (if a.write < 0 then .error a.write else .ok ())
  note (.created s handle)

/-- The subsession and its handle, once there are containers. -/
def addSubsessionL (s : Nat) (a : Answers) : Server Unit := do
  work [] a.calls
  answer a.doCreateSubsessionL
  let ss := (← get).nextSubsession
  modify ({ · with nextSubsession := ss + 1 })
  registerL s ss a

def createSubsessionL (aMessage : RMessage2) (a : Answers) : Server Unit := do
  createContainersL aMessage.iSession a
  addSubsessionL aMessage.iSession a

/-- The last of the handles is closed with the containers. -/
def removeHandle (s : Nat) (aHandle : Int) : Server Unit := do
  let handles ← deref (← thisSession s).iSsHandles
  let ss ← atL handles aHandle
  onSession s ({ · with iSsHandles := some (handles.filter (fun entry => entry.1 ≠ aHandle)) })
  closeObject s ss
  doIf (handles.filter (fun entry => entry.1 ≠ aHandle) = []) (deleteSubsessionContainers s)

def closeSubsessionL (aMessage : RMessage2) (a : Answers) : Server Unit := do
  let ss ← getSubsessionL aMessage
  cancelOutstandingRequests aMessage.iSession (.subsession (some ss)) true a.cleanups
  removeHandle aMessage.iSession aMessage.int3
  note (.closed aMessage.iSession aMessage.int3)

def callSubsessionFunctionL (aMessage : RMessage2) (a : Answers) : Server Bool := do
  let ss ← getSubsessionL aMessage
  doServiceL (some ss) aMessage a

def cancelAsyncSubsessionRequestL (aMessage : RMessage2) (a : Answers) : Server Unit := do
  let ss ← getSubsessionL aMessage
  cancelAsyncRequest aMessage.iSession (some ss) aMessage.implFunction a.cleanups

def savePreCreateCount (s : Nat) : Server Unit :=
  onSession s fun x => { x with iPreCreateSubsessionCount := (x.iSsHandles.getD []).length }

/-- What `ServiceL` delegates, and whether the message is to be completed then. -/
def delegateL (aMessage : RMessage2) (a : Answers) : Server Bool :=
  match aMessage.scsFunction with
  | some .ECallSessionFunc => doServiceL none aMessage a
  | some .EPreCloseSession => do
      preCloseSession aMessage.iSession a
      pure true
  | some .ECancelSessionFunc => do
      cancelAsyncSessionRequestL aMessage.iSession aMessage.implFunction a
      pure true
  | some .EGetServerPid => do
      answer (if a.write < 0 then .error a.write else .ok ())
      pure true
  | some .EShutdownAsap => do
      answer (if (← get).iShutdownTimer then .ok () else .error KErrNotSupported)
      pure true
  | some .ECreateSubsession => do
      savePreCreateCount aMessage.iSession
      createSubsessionL aMessage a
      pure true
  | some .ECloseSubsession => do
      closeSubsessionL aMessage a
      pure true
  | some .ECallSubsessionFunc => callSubsessionFunctionL aMessage a
  | some .ECancelSubsessionFunc => do
      cancelAsyncSubsessionRequestL aMessage a
      pure true
  | some .EUHeapSetFail | some .EUHeapResetFail => pure true
  | none => throw (.leave KErrNotSupported)

def serviceL (aMessage : RMessage2) (a : Answers) : Server Unit := do
  let completeMessage ← delegateL aMessage a
  doIf completeMessage (complete aMessage.iHandle KErrNone)

/-- What `ServiceError` tells the client. -/
def completeError (aMessage : RMessage2) (aError : Int) : Server Unit :=
  if aError = KErrBadDescriptor then panicClient aMessage.iHandle .EScsClBadDesc
  else if aError = KErrBadHandle then panicClient aMessage.iHandle .EScsClBadHandle
  else if aError = KErrScsAsyncAlreadyQueued then
    panicClient aMessage.iHandle .EScsClAsyncAlreadyQueued
  else complete aMessage.iHandle aError

def serviceError (aMessage : RMessage2) (aError : Int) : Server Unit := do
  let x ← thisSession aMessage.iSession
  doIf (aMessage.scsFunction = some .ECreateSubsession ∧ x.iPreCreateSubsessionCount = 0)
    (deleteSubsessionContainers aMessage.iSession)
  completeError aMessage aError

/-- A message from its arrival: `ServiceL`, and `ServiceError` where that leaves. -/
def service (aMessage : RMessage2) (a : Answers) : Server Unit :=
  tryCatch (serviceL aMessage a) fun
    | .leave aError => serviceError aMessage aError
    | e => throw e

/-- `~CScsSession` -/
def destroy (s : Nat) (c : Cleanups) : Server Unit := do
  cancelOutstandingRequests s .KWildSubsession false c
  deleteSubsessionContainers s
  modify fun m => { m with session := fun y => if y = s then none else m.session y }
  note (.destroyed s)

end CScsSession

/-! ### Runs -/

inductive Event where
  | connects
  | message (aSession : Nat) (aFunction : UInt32) (int3 : Int) (a : Answers)
  | runs (x : Nat) (r : RunL)
  /-- Code of the server runs for a reason of its own. -/
  | calls (w : Work)
  | disconnects (aSession : Nat) (c : Cleanups)
  | asyncCleanup

namespace CScsServer

/-- Where a function has taken the server; one that broke its contract takes it nowhere. -/
def outcome : Except Halt Unit × CScsServer → Option CScsServer
  | (.ok _, t) => some t
  | (.error .undefined, t) => some { t with crashed := true }
  | (.error _, _) => none

/-- The server and the message, once a client has sent it. -/
def arrived (m : CScsServer) : CScsServer := { m with nextMessage := m.nextMessage + 1 }

def arriving (m : CScsServer) (aSession : Nat) (aFunction : UInt32) (int3 : Int) : RMessage2 where
  iHandle := m.nextMessage
  iSession := aSession
  iFunction := aFunction
  int3 := int3

/-- What an event calls, where it can come. -/
def handler (m : CScsServer) : Event → Option (Server Unit)
  | .connects => some (modify fun m =>
      { m with
        session := fun y => if y = m.nextSession then some {} else m.session y
        nextSession := m.nextSession + 1 })
  | .message s aFunction int3 a =>
      if m.session s ≠ none then
        some do
          modify arrived
          CScsSession.service (m.arriving s aFunction int3) a
      else none
  | .runs x r =>
      if x ∈ m.iAsyncRequests ∧ (m.request x).iActive then some (CAsyncRequest.runL x r) else none
  | .calls w => some (CAsyncRequest.work [] w)
  | .disconnects s c =>
      if m.session s ≠ none then some (CScsSession.destroy s c) else none
  | .asyncCleanup =>
      if m.iAsyncCleanup then
        some do
          modify ({ · with iAsyncCleanup := false })
          removeCompletedRequests
      else none

def step (m : CScsServer) (e : Event) : Option CScsServer :=
  if m.crashed then none else (m.handler e).bind fun f => outcome (f m)

/-- A server that has just been constructed. -/
def Started (m : CScsServer) : Prop := ∃ iShutdownTimer, m = { iShutdownTimer := iShutdownTimer }

end CScsServer

/-! ### What cleaning up can change -/

/-- The request is what it was, but for its state, and may have been marked. -/
structure CAsyncRequest.Ages (r u : CAsyncRequest) : Prop where
  iSession : u.iSession = r.iSession ∨ u.iSession = none
  iSubsession : u.iSubsession = r.iSubsession
  iFunction : u.iFunction = r.iFunction

namespace CScsServer

def completions (m : CScsServer) (x : Nat) : Nat :=
  m.log.countP fun act => match act with
    | .completed y _ => y = x
    | _ => false

/-- The completions on top of the log, and requests that age; those in `busy` are left alone. -/
structure Moves (busy : List Nat) (m t : CScsServer) : Prop where
  iAsyncRequests : t.iAsyncRequests = m.iAsyncRequests
  session : t.session = m.session
  nextSession : t.nextSession = m.nextSession
  nextSubsession : t.nextSubsession = m.nextSubsession
  nextMessage : t.nextMessage = m.nextMessage
  crashed : t.crashed = m.crashed
  ages : ∀ x, (m.request x).Ages (t.request x)
  log : ∃ l, t.log = l ++ m.log ∧ ∀ act ∈ l, ∃ x c, act = .completed x c
  busy_request : ∀ x ∈ busy, t.request x = m.request x
  busy_completions : ∀ x ∈ busy, t.completions x = m.completions x

end CScsServer

theorem CAsyncRequest.Ages.refl (r : CAsyncRequest) : r.Ages r := ⟨.inl rfl, rfl, rfl⟩

theorem CAsyncRequest.Ages.trans {r u v : CAsyncRequest} (h : r.Ages u) (h' : u.Ages v) :
    r.Ages v := by
  refine ⟨?_, h'.iSubsession.trans h.iSubsession, h'.iFunction.trans h.iFunction⟩
  rcases h'.iSession with hs | hs
  · rw [hs]
    exact h.iSession
  · exact .inr hs

namespace CScsServer

variable {busy : List Nat} {m t u : CScsServer} {x : Nat}

@[simp] theorem setRequest_request_self {f : CAsyncRequest → CAsyncRequest} :
    (m.setRequest x f).request x = f (m.request x) := by simp [setRequest]

theorem setRequest_request {f : CAsyncRequest → CAsyncRequest} {y : Nat} :
    (m.setRequest x f).request y = if y = x then f (m.request x) else m.request y := rfl

@[simp] theorem completions_wrote_completed {c : Completion} {y : Nat} :
    (m.wrote (.completed y c)).completions x =
      m.completions x + if y = x then 1 else 0 := by
  simp [completions, wrote, List.countP_cons]

namespace Moves

theorem refl (m : CScsServer) : Moves busy m m where
  iAsyncRequests := rfl
  session := rfl
  nextSession := rfl
  nextSubsession := rfl
  nextMessage := rfl
  crashed := rfl
  ages x := .refl _
  log := ⟨[], rfl, by simp⟩
  busy_request _ _ := rfl
  busy_completions _ _ := rfl

theorem trans (h : Moves busy m t) (h' : Moves busy t u) : Moves busy m u where
  iAsyncRequests := h'.iAsyncRequests.trans h.iAsyncRequests
  session := h'.session.trans h.session
  nextSession := h'.nextSession.trans h.nextSession
  nextSubsession := h'.nextSubsession.trans h.nextSubsession
  nextMessage := h'.nextMessage.trans h.nextMessage
  crashed := h'.crashed.trans h.crashed
  ages x := (h.ages x).trans (h'.ages x)
  log := by
    obtain ⟨l, hl, hc⟩ := h.log
    obtain ⟨l', hl', hc'⟩ := h'.log
    refine ⟨l' ++ l, by rw [hl', hl, List.append_assoc], ?_⟩
    intro act hact
    rcases List.mem_append.mp hact with hin | hin
    · exact hc' act hin
    · exact hc act hin
  busy_request x hx := (h'.busy_request x hx).trans (h.busy_request x hx)
  busy_completions x hx := (h'.busy_completions x hx).trans (h.busy_completions x hx)

theorem weaken {busy' : List Nat} (h : Moves busy m t) (hsub : busy' ⊆ busy) : Moves busy' m t :=
  { h with
    busy_request := fun x hx => h.busy_request x (hsub hx)
    busy_completions := fun x hx => h.busy_completions x (hsub hx) }

end Moves

end CScsServer

/-- The function moves the server, and is left only where it breaks its contract. -/
def Moving {α : Type} (busy : List Nat) (f : Server α) : Prop :=
  ∀ m, Ends (fun _ t => m.Moves busy t) (fun e t => e = .contract ∧ m.Moves busy t) (f m)

namespace Moving

open CScsServer

variable {α β : Type} {busy : List Nat} {f : Server α} {x : Nat}

theorem returns (a : α) : Moving busy (pure a) := fun m => Moves.refl m

theorem bind {g : α → Server β} (hf : Moving busy f) (hg : ∀ a, Moving busy (g a)) :
    Moving busy (f >>= g) := by
  intro m
  refine Ends.bind (hf m) fun a t ht => ?_
  exact (hg a t).mono (fun _ _ h => ht.trans h) (fun _ _ h => ⟨h.1, ht.trans h.2⟩)

theorem weaken {busy' : List Nat} (hf : Moving busy f) (hsub : busy' ⊆ busy) :
    Moving busy' f := fun m =>
  (hf m).mono (fun _ _ h => h.weaken hsub) (fun _ _ h => ⟨h.1, h.2.weaken hsub⟩)

theorem then_get {g : CScsServer → Server β} (hg : ∀ m, Moving busy (g m)) :
    Moving busy (get >>= g) := fun m => hg m m

/-- What the contract rules out is not done. -/
theorem then_contract {c : Prop} [Decidable c] {g : Unit → Server β}
    (hg : c → Moving busy (g ())) : Moving busy (contract c >>= g) := by
  intro m
  by_cases hc : c
  · simpa [contract, hc] using hg hc m
  · simp [contract, hc, Moves.refl]

theorem doIf {c : Prop} [Decidable c] {f : Server Unit} (hf : Moving busy f) :
    Moving busy (doIf c f) := by
  unfold Scs.doIf
  split
  · exact hf
  · exact returns _

theorem completeClient (hx : x ∉ busy) (aError : Int) :
    Moving busy (CAsyncRequest.completeClient x aError) := by
  have hmoves : ∀ (m : CScsServer) c, m.Moves busy (m.wrote (.completed x c)) := by
    intro m c
    refine ⟨rfl, rfl, rfl, rfl, rfl, rfl, fun _ => .refl _, ⟨[.completed x c], rfl, by simp⟩,
      fun _ _ => rfl, fun y hy => ?_⟩
    have hne : x ≠ y := fun heq => hx (heq ▸ hy)
    simp [hne]
  intro m
  unfold CAsyncRequest.completeClient
  split
  · exact hmoves m _
  · exact hmoves m _

theorem onRequest (hx : x ∉ busy) {h : CAsyncRequest → CAsyncRequest}
    (hages : ∀ r, CAsyncRequest.Ages r (h r)) : Moving busy (onRequest x h) := by
  intro m
  refine ⟨rfl, rfl, rfl, rfl, rfl, rfl, fun y => ?_, ⟨[], rfl, by simp⟩, fun y hy => ?_,
    fun _ _ => rfl⟩
  · rw [setRequest_request]
    split
    · rename_i heq
      rw [heq]
      exact hages _
    · exact .refl _
  · have hne : y ≠ x := fun heq => hx (heq ▸ hy)
    rw [setRequest_request, if_neg hne]

theorem cancel (hx : x ∉ busy) : Moving busy (CAsyncRequest.cancel x) :=
  onRequest hx fun _ => ⟨.inl rfl, rfl, rfl⟩

theorem mark (hx : x ∉ busy) : Moving busy (CAsyncRequest.mark x) := by
  refine bind (fun m => ?_) fun _ => onRequest hx fun _ => ⟨.inr rfl, rfl, rfl⟩
  exact ⟨rfl, rfl, rfl, rfl, rfl, rfl, fun _ => .refl _, ⟨[], rfl, by simp⟩, fun _ _ => rfl,
    fun _ _ => rfl⟩

theorem work {busy : List Nat} {w : Work} : Moving busy (CAsyncRequest.work busy w) := by
  induction w generalizing busy with
  | returns => exact returns _
  | setActive x rest ih =>
      refine then_get fun m => then_contract fun hc => ?_
      exact bind (onRequest hc.2 fun _ => ⟨.inl rfl, rfl, rfl⟩) fun _ => ih
  | finishes x aError cleanup rest ihc ih =>
      refine then_get fun m => then_contract fun hc => ?_
      refine bind (completeClient hc.2 aError) fun _ => bind (cancel hc.2) fun _ => ?_
      refine bind (ihc.weaken (List.subset_cons_self x busy)) fun _ => ?_
      exact bind (mark hc.2) fun _ => ih

theorem doCleanup (x : Nat) (w : Work) : Moving [] (CAsyncRequest.doCleanup x w) :=
  bind (cancel (by simp)) fun _ => work.weaken (by simp)

theorem markForDeletion (x : Nat) (w : Work) : Moving [] (CAsyncRequest.markForDeletion x w) :=
  bind (doCleanup x w) fun _ => mark (by simp)

theorem completeAndMarkForDeletion (x : Nat) (aError : Int) (w : Work) :
    Moving [] (CAsyncRequest.completeAndMarkForDeletion x aError w) :=
  bind (completeClient (by simp) aError) fun _ => markForDeletion x w

theorem runL (x : Nat) (r : RunL) : Moving [] (CAsyncRequest.runL x r) := by
  cases r with
  | ofFramework iStatus w =>
      exact bind (cancel (by simp)) fun _ => completeAndMarkForDeletion x iStatus w
  | overridden calls left =>
      cases left with
      | none => exact bind (cancel (by simp)) fun _ => work
      | some left =>
        refine bind (cancel (by simp)) fun _ => bind work fun _ => then_get fun m => ?_
        exact then_contract fun _ => completeAndMarkForDeletion x _ _

theorem cancelAsyncRequest (s : Nat) (ss : Option Nat) (aFunction : UInt32) (c : Cleanups) :
    Moving [] (CScsServer.cancelAsyncRequest s ss aFunction c) := by
  refine then_get fun m => ?_
  cases m.findAsyncRequest s ss aFunction with
  | none => exact returns _
  | some req => exact completeAndMarkForDeletion req _ _

theorem cancelMatching (b : Bool) (c : Cleanups) (req : Nat) :
    Moving [] (CScsServer.cancelMatching b c req) := by
  unfold CScsServer.cancelMatching
  split
  · exact completeAndMarkForDeletion req _ _
  · exact bind (doCleanup req _) fun _ => markForDeletion req _

theorem cancelOutstanding (s : Nat) (w : SubsessionMatch) (b : Bool) (c : Cleanups) (req : Nat) :
    Moving [] (CScsServer.cancelOutstanding s w b c req) :=
  then_get fun _ => doIf (cancelMatching b c req)

end Moving

namespace CScsServer

/-- One turn of the loop and the rest of it; the index stays inside the array. -/
theorem cancelRequestsBelow_succ {s : Nat} {w : SubsessionMatch} {b : Bool} {c : Cleanups}
    {i : Nat} {m : CScsServer} (hi : i < m.iAsyncRequests.length) :
    cancelRequestsBelow s w b c (i + 1) m =
      (cancelOutstanding s w b c m.iAsyncRequests[i] >>= fun _ =>
        cancelRequestsBelow s w b c i) m := by
  simp [cancelRequestsBelow, deref, hi]

theorem cancelRequestsBelow_moves {s : Nat} {w : SubsessionMatch} {b : Bool} {c : Cleanups}
    {i : Nat} {m : CScsServer} (hi : i ≤ m.iAsyncRequests.length) :
    Ends (fun _ t => m.Moves [] t) (fun e t => e = .contract ∧ m.Moves [] t)
      (cancelRequestsBelow s w b c i m) := by
  induction i generalizing m with
  | zero => exact .refl m
  | succ i ih =>
      rw [cancelRequestsBelow_succ hi]
      refine Ends.bind (Moving.cancelOutstanding s w b c _ m) fun _ t ht => ?_
      have hle : i ≤ t.iAsyncRequests.length := by
        rw [ht.iAsyncRequests]
        omega
      exact (ih hle).mono (fun _ _ h => ht.trans h) (fun _ _ h => ⟨h.1, ht.trans h.2⟩)

theorem removeCompletedBelow_succ {i : Nat} {m : CScsServer} (hi : i < m.iAsyncRequests.length) :
    removeCompletedBelow (i + 1) m = (do
      removeIfCompleted i m.iAsyncRequests[i]
      removeCompletedBelow i : Server Unit) m := by
  simp [removeCompletedBelow, deref, hi]

theorem step_handler {m t : CScsServer} {e : Event} (hstep : m.step e = some t) :
    ∃ f, m.handler e = some f ∧ outcome (f m) = some t := by
  have hcrashed : m.crashed = false := by
    by_contra hc
    simp [step, hc] at hstep
  rw [step, hcrashed] at hstep
  exact Option.bind_eq_some_iff.mp hstep

end CScsServer

theorem Moving.cancelOutstandingRequests (s : Nat) (w : SubsessionMatch) (b : Bool)
    (c : Cleanups) : Moving [] (CScsServer.cancelOutstandingRequests s w b c) := by
  intro m
  exact CScsServer.cancelRequestsBelow_moves (Nat.le_refl _)

end OsSecurity.Scs

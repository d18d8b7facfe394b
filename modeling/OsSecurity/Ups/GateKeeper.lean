/-
The user prompt server's requests: `CAuthoriser`, the gate keeper that lets one of them
at a time show a dialog, and the part of the SCS framework that completes and cancels them.

An authoriser is a number, its members are `CUpsServer.authoriser`, and `iAsyncRequests`
lists those the framework holds; one whose `iSession` is cleared is marked for deletion and
leaves the list when the event is over.  Members changed before a leave stay changed, so the
functions are `Command`s.  What a plug-in, the database, the policy cache or the client's
message answer is a parameter of the event that asks.  The cleanup stack is not part of the
state: `LookupFingerprintsL` returns with two objects on it when the record it found is
disputed, and the model goes on from there.

`log` is not in the source.  It records what a statement about a whole run has to name.
-/
import OsSecurity.E32
import OsSecurity.Library.Commands
import OsSecurity.Library.Transitions
import Mathlib.Data.List.Sort
import Mathlib.Data.UInt

namespace OsSecurity

open Commands

def KErrDiskFull : Int := -26

/-! ### Policies and decisions -/

/-- `CPolicy::TOptions`, a bitmap -/
abbrev TOptions := UInt32

structure CPolicy where
  iOptions : TOptions

namespace CPolicy

def EYes : TOptions := 0x01
def ENo : TOptions := 0x02
def ESessionYes : TOptions := 0x04
def EAlways : TOptions := 0x08
def ENever : TOptions := 0x10
def ESessionNo : TOptions := 0x20

def promptRequired (p : CPolicy) : Bool :=
  p.iOptions &&& (EYes ||| ESessionYes ||| EAlways) ≠ 0 &&
    p.iOptions &&& (ENo ||| ESessionNo ||| ENever) ≠ 0

end CPolicy

inductive TUpsDecision where
  | EUpsDecYes
  | EUpsDecNo
  | EUpsDecSessionYes
  | EUpsDecSessionNo

/-- What a lookup reads of a decision record. -/
structure CDecisionRecord where
  iRecordId : UInt32
  iResult : UInt8
  iEvaluatorInfo : UInt32

/-! ### Authorisers -/

inductive TAuthoriserState where
  | ECheckPolicy
  | ECreatingFingerprints
  | ECheckDatabase
  | EPreparingDialog
  | EExecutingDialog

inductive TAuthoriserEvent where
  | EInternalRequestComplete
  | EClearedToDisplayDialog
  | ECancel

/-- What the active object waits for: nothing, a plug-in, or only its turn. -/
inductive Request where
  | idle
  | pending
  | completed
  deriving DecidableEq

inductive TPriority where
  | EPriorityStandard
  /-- `CActive::EPriorityHigh - 1` -/
  | raised
  deriving DecidableEq

structure CAuthoriser where
  iSession : Option Nat := none
  iSubsession : Nat := 0
  iFunction : Int := 0
  iState : TAuthoriserState := .ECheckPolicy
  request : Request := .idle
  iPriority : TPriority := .EPriorityStandard
  iPolicy : CPolicy := ⟨0⟩
  iDialogEvaluatorInfo : UInt32 := 0
  iPromptForced : Bool := false
  iPromptForcedRecordId : UInt32 := 0

inductive Action where
  /-- `ForcePromptL` answered true for the record. -/
  | forced (x : Nat) (aRecordId : UInt32)
  /-- A later lookup matched another record than the one forced before. -/
  | matchedAnother (x : Nat) (aRecordId : UInt32)
  /-- The client was given a decision: a record's stored result, the policy's or the user's. -/
  | answered (x : Nat) (aRecordId : Option UInt32) (aDecision : TUpsDecision)
  /-- The request was completed with an error code, or dropped with its session. -/
  | ended (x : Nat) (aError : Option Int)

structure CUpsServer where
  iAsyncRequests : List Nat := []
  authoriser : Nat → CAuthoriser := fun _ => {}
  iCurrentDialog : Option Nat := none
  iFlurryQueue : List Nat := []
  iFlurryQueueBeingProcessed : List Nat := []
  iDisputed : List UInt32 := []
  log : List Action := []

/-- What the rest of the system answers while an authoriser runs. -/
structure Answers where
  /-- the code the plug-in completed the request with -/
  iStatus : Int
  matchL : Leaving CPolicy
  writeL : Leaving Unit
  createEvaluatorL : Leaving Unit
  newFilter : Leaving Unit
  /-- `SetFingerprintL` and `GetDecisionL`, for one fingerprint after the other -/
  lookups : List (Leaving Unit × Leaving (Option CDecisionRecord))
  deleteDatabaseL : Leaving Unit
  forcePromptL : CDecisionRecord → UInt32 → Leaving (Bool × UInt32)
  insertDisputed : Leaving Unit
  updateDecisionL : Leaving Unit
  pushL : Leaving Unit
  createDialogCreatorL : Leaving Unit
  removeDecisionsL : Leaving Unit
  iDialogSelectedOption : TOptions
  /-- whether the dialog named the fingerprint to save the decision with -/
  iDialogFingerprint : Bool
  newRecord : Leaving Unit
  createDecisionL : Leaving Unit
  newUpdateFilter : Leaving Unit

abbrev Server (α : Type) := Command CUpsServer Exit α

/-- What a parameter answers. -/
def answer {α : Type} (x : Leaving α) : Server α :=
  match x with
  | .ok a => pure a
  | .error e => throw e

/-- `User::LeaveIfError`, for an error the caller found itself -/
def leaveIf (c : Prop) [Decidable c] (aError : Int) : Server Unit :=
  if c then throw (.leave aError) else pure ()

/-- `__ASSERT_ALWAYS`, with a panic -/
def assertAlways (c : Prop) [Decidable c] : Server Unit :=
  if c then pure () else throw .panic

/-- `TRAPD(err, …)`, with the error. -/
def trapd (f : Server Unit) : Server Int :=
  tryCatch (do f; pure KErrNone) fun
    | .leave err => pure err
    | e => throw e

def trapIgnore (f : Server Unit) : Server Unit := do
  let _ ← trapd f

namespace CUpsServer

variable (m : CUpsServer)

def setAuthoriser (x : Nat) (f : CAuthoriser → CAuthoriser) : CUpsServer :=
  { m with authoriser := fun y => if y = x then f (m.authoriser x) else m.authoriser y }

def wrote (act : Action) : CUpsServer := { m with log := act :: m.log }

/-- A request the framework still has to complete. -/
def Live (x : Nat) : Prop := x ∈ m.iAsyncRequests ∧ (m.authoriser x).iSession ≠ none

instance (x : Nat) : Decidable (m.Live x) := by unfold Live; infer_instance

/-- An authoriser that `WakeupNextPendingL` woke and that has not run yet. -/
def Woken (x : Nat) : Prop :=
  m.Live x ∧ (m.authoriser x).request = .completed ∧ (m.authoriser x).iPriority = .raised

instance (x : Nat) : Decidable (m.Woken x) := by unfold Woken; infer_instance

end CUpsServer

def CUpsServer.note (act : Action) : Server Unit := modify (·.wrote act)

namespace CAuthoriser

def update (x : Nat) (f : CAuthoriser → CAuthoriser) : Server Unit :=
  modify (·.setAuthoriser x f)

def setState (x : Nat) (aState : TAuthoriserState) : Server Unit :=
  update x ({ · with iState := aState })

/-- `CActive::SetActive`, of a request that a plug-in will complete -/
def setActive (x : Nat) : Server Unit := do
  assertAlways (((← get).authoriser x).request = .idle)
  update x ({ · with request := .pending })

def completeSelf (x : Nat) : Server Unit := do
  match ((← get).authoriser x).iState with
  | .ECheckPolicy | .ECheckDatabase =>
      if ((← get).authoriser x).request = .pending then
        update x ({ · with request := .completed })
  | .ECreatingFingerprints | .EPreparingDialog | .EExecutingDialog => throw .panic

def wakeup (x : Nat) : Server Unit := do
  setActive x
  completeSelf x

def prepareDialogL (x : Nat) (a : Answers) : Server Unit := do
  setState x .EPreparingDialog
  answer a.createDialogCreatorL
  setActive x

/-- `ProcessEventL` with `EClearedToDisplayDialog` -/
def clearedToDisplayL (x : Nat) (a : Answers) : Server Unit := do
  match ((← get).authoriser x).iState with
  | .ECheckDatabase => prepareDialogL x a
  | _ => throw .panic

end CAuthoriser

/-! ### The gate keeper -/

namespace CUpsServer

open CAuthoriser

def gateKeeperL (aAuthoriser : Nat) (a : Answers) : Server Unit := do
  match (← get).iCurrentDialog with
  | some _ =>
      answer a.pushL
      modify fun m => { m with iFlurryQueue := m.iFlurryQueue ++ [aAuthoriser] }
  | none =>
      modify ({ · with iCurrentDialog := some aAuthoriser })
      clearedToDisplayL aAuthoriser a

def wakeupNextPendingL : Server Unit := do
  match (← get).iFlurryQueueBeingProcessed with
  | [] => pure ()
  | authoriser :: rest =>
      modify ({ · with iFlurryQueueBeingProcessed := rest })
      update authoriser ({ · with iPriority := .raised })
      wakeup authoriser

def removeFromQueues (m : CUpsServer) (x : Nat) : CUpsServer :=
  { m with
    iFlurryQueue := m.iFlurryQueue.erase x
    iFlurryQueueBeingProcessed := m.iFlurryQueueBeingProcessed.erase x }

def swapQueues (m : CUpsServer) : CUpsServer :=
  { m with
    iFlurryQueue := m.iFlurryQueueBeingProcessed
    iFlurryQueueBeingProcessed := m.iFlurryQueue }

def authoriserDoneL (aAuthoriser : Nat) : Server Unit := do
  modify (·.removeFromQueues aAuthoriser)
  if (← get).iCurrentDialog = some aAuthoriser then
    modify ({ · with iCurrentDialog := none })
    modify fun m => if m.iFlurryQueueBeingProcessed = [] then m.swapQueues else m
    wakeupNextPendingL

def disputeRecordIdL (aRecordId : UInt32) (a : Answers) : Server Unit := do
  leaveIf (aRecordId ∈ (← get).iDisputed) KErrAlreadyExists
  answer a.insertDisputed
  modify fun m => { m with iDisputed := m.iDisputed.orderedInsert (· ≤ ·) aRecordId }

def unDisputeRecordIdL (aRecordId : UInt32) : Server Unit := do
  leaveIf (aRecordId ∉ (← get).iDisputed) KErrNotFound
  modify fun m => { m with iDisputed := m.iDisputed.erase aRecordId }

def isRecordIdDisputed (m : CUpsServer) (aRecordId : UInt32) : Bool :=
  aRecordId ∈ m.iDisputed

end CUpsServer

namespace CAuthoriser

open CUpsServer

/-! ### Cancelling and completing -/

/-- `ProcessEventL` with `ECancel` -/
def processCancelL (x : Nat) : Server Unit := do
  match ((← get).authoriser x).iState with
  | .ECheckPolicy | .ECheckDatabase => completeSelf x
  | .ECreatingFingerprints | .EPreparingDialog | .EExecutingDialog =>
      update x ({ · with request := .completed })

def doCancel (x : Nat) : Server Unit :=
  trapIgnore do
    wakeupNextPendingL
    processCancelL x

/-- `CActive::Cancel`, which waits until the request is complete. -/
def cancel (x : Nat) : Server Unit := do
  if ((← get).authoriser x).request ≠ .idle then
    doCancel x
    -- nothing else can complete the request while this thread waits for it
    assertAlways (((← get).authoriser x).request ≠ .pending)
    update x ({ · with request := .idle })

/-- The end of the dispute, for a request that ends without a dialog's result. -/
def dropDispute (x : Nat) : Server Unit := do
  if ((← get).authoriser x).iPromptForced then
    trapIgnore (unDisputeRecordIdL ((← get).authoriser x).iPromptForcedRecordId)
    update x ({ · with iPromptForced := false })

def doCleanup (x : Nat) : Server Unit := do
  dropDispute x
  cancel x
  trapIgnore (authoriserDoneL x)

/-- `CAsyncRequest::MarkForDeletion` -/
def markForDeletion (x : Nat) : Server Unit := do
  doCleanup x
  update x ({ · with iSession := none })

def completeAndMarkForDeletion (x : Nat) (aError : Int) : Server Unit := do
  note (.ended x (some aError))
  markForDeletion x

/-! ### The states -/

def mapCPolicyTOptions2TUpsDecision (iPolicy : CPolicy) (aOptions : TOptions) : TUpsDecision :=
  if aOptions &&& (CPolicy.ENever ||| CPolicy.ESessionNo) ≠ 0 then
    if iPolicy.iOptions &&& CPolicy.ESessionNo ≠ 0 then .EUpsDecSessionNo else .EUpsDecNo
  else if aOptions &&& (CPolicy.EAlways ||| CPolicy.ESessionYes) ≠ 0 then
    if iPolicy.iOptions &&& CPolicy.ESessionYes ≠ 0 then .EUpsDecSessionYes else .EUpsDecYes
  else if aOptions &&& CPolicy.ENo ≠ 0 then .EUpsDecNo
  else if aOptions &&& CPolicy.EYes = 0 then .EUpsDecNo
  else .EUpsDecYes

def handleDbErrorL (a : Answers) (aError : Int) : Server Unit := do
  if aError ≠ KErrNoMemory ∧ aError ≠ KErrDiskFull then
    answer a.deleteDatabaseL
    throw (.leave aError)

def checkDbErrorL (a : Answers) (err : Int) : Server Unit := do
  if err ≠ KErrNone then handleDbErrorL a err

/-- Writing the decision to the client and completing its request. -/
def respondL (x : Nat) (a : Answers) (aRecordId : Option UInt32) (aOptions : TOptions) :
    Server Unit := do
  let iPolicy := ((← get).authoriser x).iPolicy
  answer a.writeL
  note (.answered x aRecordId (mapCPolicyTOptions2TUpsDecision iPolicy aOptions))
  completeAndMarkForDeletion x KErrNone

def createFingerprintsL (x : Nat) (a : Answers) : Server Unit := do
  setState x .ECreatingFingerprints
  answer a.createEvaluatorL
  setActive x

def lookupPolicyL (x : Nat) (a : Answers) : Server Unit := do
  let iPolicy ← answer a.matchL
  update x ({ · with iPolicy := iPolicy })
  if iPolicy.promptRequired then
    createFingerprintsL x a
  else
    respondL x a none iPolicy.iOptions

/-- The lookups of one fingerprint after the other, up to the first record. -/
def getDecisionL (a : Answers) :
    List (Leaving Unit × Leaving (Option CDecisionRecord)) → Server (Option CDecisionRecord)
  | [] => pure none
  | (setFingerprintL, found) :: rest => do
      answer setFingerprintL
      match found with
      | .ok (some record) => pure (some record)
      | .ok none => getDecisionL a rest
      | .error (.leave err) => do
          handleDbErrorL a err
          getDecisionL a rest
      | .error e => throw e

/-- What is undone when the prompt was forced for another record than the one found now. -/
def leaveForcedRecordL (x : Nat) (aRecordId : UInt32) : Server Unit := do
  let self := (← get).authoriser x
  if self.iPromptForced ∧ aRecordId ≠ self.iPromptForcedRecordId then
    note (.matchedAnother x self.iPromptForcedRecordId)
    update x ({ · with iPromptForced := false })
    unDisputeRecordIdL self.iPromptForcedRecordId

/-- Marking the record as disputed when the evaluator wants a prompt. -/
def promptForcedL (x : Nat) (a : Answers) (aRecordId : UInt32) (forcePrompt : Bool) :
    Server Unit := do
  if forcePrompt then
    note (.forced x aRecordId)
    update x ({ · with iPromptForced := true, iPromptForcedRecordId := aRecordId })
    disputeRecordIdL aRecordId a

/-- Keeping what the evaluator wrote over its information in the record. -/
def updateEvaluatorInfoL (x : Nat) (a : Answers) (asked : Bool × UInt32) : Server Unit := do
  if asked.2 ≠ ((← get).authoriser x).iDialogEvaluatorInfo then
    update x ({ · with iDialogEvaluatorInfo := asked.2 })
    if !asked.1 then
      checkDbErrorL a (← trapd (answer a.updateDecisionL))

def matchedRecordL (x : Nat) (a : Answers) (found : CDecisionRecord) : Server Unit := do
  update x ({ · with iDialogEvaluatorInfo := found.iEvaluatorInfo })
  if (← get).isRecordIdDisputed found.iRecordId then
    gateKeeperL x a
  else
    leaveForcedRecordL x found.iRecordId
    let asked ← answer (a.forcePromptL found ((← get).authoriser x).iDialogEvaluatorInfo)
    promptForcedL x a found.iRecordId asked.1
    updateEvaluatorInfoL x a asked
    if asked.1 then
      gateKeeperL x a
    else
      respondL x a (some found.iRecordId)
        (if found.iResult ≠ 0 then CPolicy.EAlways else CPolicy.ENever)

def lookupFingerprintsL (x : Nat) (a : Answers) : Server Unit := do
  setState x .ECheckDatabase
  answer a.newFilter
  match ← getDecisionL a a.lookups with
  | some found => matchedRecordL x a found
  | none => gateKeeperL x a

def executeDialogL (x : Nat) : Server Unit := do
  setState x .EExecutingDialog
  setActive x

/-- The old decision goes when the user was asked about it again. -/
def removeForcedRecordL (x : Nat) (a : Answers) : Server Unit := do
  let self := (← get).authoriser x
  if self.iPromptForced then
    answer a.newFilter
    checkDbErrorL a (← trapd (answer a.removeDecisionsL))
    update x ({ · with iPromptForced := false })
    unDisputeRecordIdL self.iPromptForcedRecordId

def saveDecisionL (a : Answers) (iDialogSelectedOption : TOptions) : Server Unit := do
  if iDialogSelectedOption &&& CPolicy.EAlways ≠ 0 ∨
      iDialogSelectedOption &&& CPolicy.ENever ≠ 0 then
    assertAlways a.iDialogFingerprint
    answer a.newRecord
    let created ← trapd (answer a.createDecisionL)
    if created = KErrAlreadyExists then
      answer a.newUpdateFilter
      checkDbErrorL a (← trapd (answer a.updateDecisionL))
    else
      checkDbErrorL a created

def processDialogResultL (x : Nat) (a : Answers) : Server Unit := do
  removeForcedRecordL x a
  let options := a.iDialogSelectedOption &&& ((← get).authoriser x).iPolicy.iOptions
  saveDecisionL a options
  respondL x a none options

/-- `ProcessEventL` with `EInternalRequestComplete` -/
def processInternalRequestL (x : Nat) (a : Answers) : Server Unit := do
  match ((← get).authoriser x).iState with
  | .ECheckPolicy => lookupPolicyL x a
  | .ECreatingFingerprints => lookupFingerprintsL x a
  | .ECheckDatabase => lookupFingerprintsL x a
  | .EPreparingDialog => executeDialogL x
  | .EExecutingDialog => processDialogResultL x a

def processEventL (x : Nat) (a : Answers) : TAuthoriserEvent → Server Unit
  | .EInternalRequestComplete => processInternalRequestL x a
  | .EClearedToDisplayDialog => clearedToDisplayL x a
  | .ECancel => processCancelL x

def runL (x : Nat) (a : Answers) (iStatus : Int) : Server Unit := do
  wakeupNextPendingL
  update x ({ · with iPriority := .EPriorityStandard })
  leaveIf (iStatus < 0) iStatus
  processEventL x a .EInternalRequestComplete

/-- The active scheduler runs the authoriser, and `RunError` takes what `RunL` leaves with. -/
def schedule (x : Nat) (a : Answers) : Server Unit := do
  let iStatus := if ((← get).authoriser x).request = .completed then KErrNone else a.iStatus
  update x ({ · with request := .idle })
  tryCatch (runL x a iStatus) fun
    | .leave aError => completeAndMarkForDeletion x aError
    | e => throw e

end CAuthoriser

/-! ### The framework's requests -/

namespace CUpsServer

open CAuthoriser

/-- `ESubsessExecutePrompt` -/
def KExecutePrompt : Int := 1

/-- `FindAsyncRequest`, which looks from the end of the list -/
def findAsyncRequest (m : CUpsServer) (aSession aSubsession : Nat) (aFunction : Int) :
    Option Nat :=
  m.iAsyncRequests.reverse.find? fun x =>
    (m.authoriser x).iSession = some aSession ∧ (m.authoriser x).iSubsession = aSubsession ∧
      (m.authoriser x).iFunction = aFunction

def addAsyncRequestL (x : Nat) (append : Leaving Unit) : Server Unit := do
  let m ← get
  let new := m.authoriser x
  leaveIf (new.iSession.bind fun s =>
    m.findAsyncRequest s new.iSubsession new.iFunction).isSome KErrScsAsyncAlreadyQueued
  answer append
  modify fun m => { m with iAsyncRequests := m.iAsyncRequests ++ [x] }

def cancelAsyncRequest (aSession aSubsession : Nat) (aFunction : Int) : Server Unit := do
  match (← get).findAsyncRequest aSession aSubsession aFunction with
  | some x => completeAndMarkForDeletion x KErrCancel
  | none => pure ()

/-- The body of the loop in `CancelOutstandingRequests`; no subsession stands for
`KWildSubsession`. -/
def cancelOutstandingRequest (aSession : Nat) (aSubsession : Option Nat)
    (aCompleteClientRequests : Bool) (x : Nat) : Server Unit := do
  let req := (← get).authoriser x
  if req.iSession = some aSession ∧ aSubsession.all (· = req.iSubsession) then
    if aCompleteClientRequests then
      completeAndMarkForDeletion x KErrCancel
    else
      doCleanup x
      note (.ended x none)
      markForDeletion x

def cancelOutstandingRequests (aSession : Nat) (aSubsession : Option Nat)
    (aCompleteClientRequests : Bool) : List Nat → Server Unit
  | [] => pure ()
  | x :: rest => do
      cancelOutstandingRequest aSession aSubsession aCompleteClientRequests x
      cancelOutstandingRequests aSession aSubsession aCompleteClientRequests rest

def removeCompletedRequests (m : CUpsServer) : CUpsServer :=
  { m with iAsyncRequests := m.iAsyncRequests.filter fun x => (m.authoriser x).iSession.isSome }

/-- `ExecutePromptL`; `construct` and `append` are what building and storing the new object
answer. -/
def executePromptL (x aSession aSubsession : Nat) (construct append : Leaving Unit) :
    Server Unit := do
  answer construct
  update x fun _ =>
    { iSession := some aSession, iSubsession := aSubsession, iFunction := KExecutePrompt }
  addAsyncRequestL x append
  wakeup x

/-! ### Runs -/

/-- What the active scheduler, a client or the kernel makes the server do. -/
inductive Event where
  | executePrompt (x aSession aSubsession : Nat) (construct append : Leaving Unit)
  | schedule (x : Nat) (a : Answers)
  | cancel (aSession aSubsession : Nat) (aFunction : Int)
  | closeSubsession (aSession aSubsession : Nat)
  /-- `EPreCloseSession`: the client closes its session. -/
  | preCloseSession (aSession : Nat)
  /-- The session's destructor, also when the client has died. -/
  | deleteSession (aSession : Nat)

/-- A new object is none of those there are; what runs is active; and an authoriser that was
woken runs ahead of everything else. -/
def enabled (m : CUpsServer) : Event → Bool
  | .executePrompt x .. => x ∉ m.iAsyncRequests ∧ ∀ y ∈ m.iAsyncRequests, ¬m.Woken y
  | .schedule x _ => m.Live x ∧ (m.authoriser x).request ≠ .idle ∧
      (m.Woken x ∨ ∀ y ∈ m.iAsyncRequests, ¬m.Woken y)
  | _ => ∀ y ∈ m.iAsyncRequests, ¬m.Woken y

def handle : Event → Server Unit
  | .executePrompt x aSession aSubsession construct append =>
      executePromptL x aSession aSubsession construct append
  | .schedule x a => CAuthoriser.schedule x a
  | .cancel aSession aSubsession aFunction => cancelAsyncRequest aSession aSubsession aFunction
  | .closeSubsession aSession aSubsession => do
      cancelOutstandingRequests aSession (some aSubsession) true (← get).iAsyncRequests.reverse
  | .preCloseSession aSession => do
      cancelOutstandingRequests aSession none true (← get).iAsyncRequests.reverse
  | .deleteSession aSession => do
      cancelOutstandingRequests aSession none false (← get).iAsyncRequests.reverse

/-- One event, after which the completed requests are deleted ahead of the next.  There is no
next state when the server's thread has ended. -/
def step (m : CUpsServer) (event : Event) : Option CUpsServer :=
  if m.enabled event then
    match handle event m with
    | (.ok _, t) | (.error (.leave _), t) => some t.removeCompletedRequests
    | _ => none
  else none

def started (m : CUpsServer) : Prop := m = {}

end CUpsServer

end OsSecurity

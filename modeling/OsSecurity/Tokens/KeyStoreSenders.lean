/-
Whose rights and whose passphrase a key store request is served with.
-/
import OsSecurity.Tokens.KeyDataTransactions
import OsSecurity.Tokens.KeyStoreServer

namespace OsSecurity.KeyStore

open CKeyStoreSession Commands Frames Transitions

/-- What the server knows about who is served. -/
structure Served where
  iAction : TCurrentAction
  iMessage : Option RMessage2
  iSession : Option Nat
  iSessions : List Nat
  started : Option RMessage2
  policyChecks : List PolicyCheck
  passphraseRequests : List PassphraseRequest

def served (m : TokenServer) : Served where
  iAction := m.iServer.iAction
  iMessage := m.iServer.iMessage
  iSession := m.iServer.iSession
  iSessions := m.iSessions
  started := m.started
  policyChecks := m.policyChecks
  passphraseRequests := m.passphraseRequests

/-! ### Functions that do not touch it -/

section Frames

variable (s : Nat) (aHandle : Int)

@[grind ←] theorem frames_onSession (f : CKeyStoreSession → CKeyStoreSession) :
    Frames served (onSession s f) := modifies fun _ => rfl

@[grind ←] theorem frames_onConduit (f : CKeyStoreConduit → CKeyStoreConduit) :
    Frames served (onConduit f) := modifies fun _ => rfl

@[grind ←] theorem frames_onManager (f : CPassphraseManager → CPassphraseManager) :
    Frames served (onManager s f) := frames_onSession s _

@[grind ←] theorem frames_onOpenedKey (f : COpenedKey → COpenedKey) :
    Frames served (onOpenedKey s aHandle f) := frames_onSession s _

@[grind ←] theorem frames_onServer {f : CFSKeyStoreServer → CFSKeyStoreServer}
    (h : ∀ c, (f c).iAction = c.iAction ∧ (f c).iMessage = c.iMessage ∧
      (f c).iSession = c.iSession) : Frames served (onServer f) := by
  refine modifies fun m => ?_
  obtain ⟨haction, hmessage, hsession⟩ := h m.iServer
  simp [served, haction, hmessage, hsession]

@[grind ←] theorem frames_completeConduit (aCode : Int) :
    Frames served (completeConduit aCode) := modifies fun _ => rfl

@[grind ←] theorem frames_completeMessage (aMessage : RMessage2) (aCode : Option Int) :
    Frames served (completeMessage aMessage aCode) := modifies fun _ => rfl

@[grind ←] theorem frames_setStatus (x : TRequestStatus) (c : PassphraseClient) :
    Frames served (c.setStatus s x) := by
  unfold PassphraseClient.setStatus
  grind

@[grind ←] theorem frames_setPassphrase (id : Nat) (c : PassphraseClient) :
    Frames served (c.setPassphrase s id) := by
  unfold PassphraseClient.setPassphrase
  grind

namespace CPassphraseManager

@[grind ←] theorem frames_expireCacheL : Frames served (expireCacheL s) := by
  unfold expireCacheL
  grind

@[grind ←] theorem frames_removeCachedPassphrases (aStreamId : StreamId) :
    Frames served (removeCachedPassphrases s aStreamId) := frames_onManager s _

@[grind ←] theorem frames_showDialog : Frames served (showDialog s) := by
  unfold showDialog setActive
  grind

@[grind ←] theorem frames_complete (aError : Int) : Frames served (complete s aError) := by
  unfold complete
  grind

@[grind ←] theorem frames_cancel : Frames served (cancel s) := by
  unfold cancel
  grind

@[grind ←] theorem frames_ask (c : PassphraseClient) (aState : TManagerState)
    (f : CPassphraseManager → CPassphraseManager) : Frames served (ask s c aState f) := by
  unfold ask
  grind

@[grind ←] theorem frames_getPassphrase (aStreamId : StreamId) (aTimeout : Int)
    (c : PassphraseClient) : Frames served (getPassphrase s aStreamId aTimeout c) := by
  unfold getPassphrase
  grind

@[grind ←] theorem frames_createPassphrase (aTimeout : Int) (c : PassphraseClient) :
    Frames served (createPassphrase s aTimeout c) := by
  unfold createPassphrase
  grind

@[grind ←] theorem frames_changePassphrase (aStreamId : StreamId) (c : PassphraseClient) :
    Frames served (changePassphrase s aStreamId c) := frames_ask s c _ _

@[grind ←] theorem frames_cachePassphraseL (aStreamId : StreamId) (append : Bool) :
    Frames served (cachePassphraseL s aStreamId append) := by
  unfold cachePassphraseL setNewPassphrase
  grind [served]

@[grind ←] theorem frames_retryOrLeave (err : Int) : Frames served (retryOrLeave s err) := by
  unfold retryOrLeave
  grind

@[grind ←] theorem frames_runL (a : ManagerAnswers) : Frames served (runL s a) := by
  have hget : Frames served (handleGetPassphraseL s a) := by
    unfold handleGetPassphraseL
    grind
  have hchange : Frames served (changeL s a) := by
    unfold changeL
    grind
  unfold runL
  grind

@[grind ←] theorem frames_run (a : ManagerAnswers) : Frames served (run s a) := by
  unfold run
  grind

end CPassphraseManager

@[grind ←] theorem frames_defaultPassphraseId : Frames served defaultPassphraseId := by
  unfold defaultPassphraseId
  grind

@[grind ←] theorem frames_lookup (aObjectId : Int) : Frames served (lookup aObjectId) := by
  unfold lookup
  grind

@[grind ←] theorem frames_onKeys (f : CFileKeyDataManager → KeyCallResult) :
    Frames served (onKeys f) := by
  refine Frames.bind gets fun m => ?_
  refine Frames.bind (modifies fun _ => rfl) fun _ => ?_
  grind

@[grind ←] theorem frames_usePassphrase (p : PassphrasePtr) : Frames served (usePassphrase p) := by
  refine Frames.bind gets fun m => ?_
  refine Frames.bind (modifies fun _ => rfl) fun _ => ?_
  grind

@[grind ←] theorem frames_useBuffer (p : Option Nat) : Frames served (useBuffer p) := by
  unfold useBuffer
  grind

namespace COpenedKey

@[grind ←] theorem frames_complete (aError : Int) : Frames served (complete s aHandle aError) := by
  unfold complete
  grind

@[grind ←] theorem frames_cancel : Frames served (cancel s aHandle) := by
  unfold cancel
  grind

@[grind ←] theorem frames_setActive : Frames served (setActive s aHandle) := by
  unfold setActive
  grind

@[grind ←] theorem frames_getPassphrase : Frames served (getPassphrase s aHandle) := by
  unfold getPassphrase
  refine Frames.bind gets fun m => ?_
  grind

@[grind ←] theorem frames_start (aInput : Nat) : Frames served (start s aHandle aInput) := by
  unfold start
  grind

@[grind ←] theorem frames_readPrivateKeyL (id : Nat) (a : Answers) :
    Frames served (readPrivateKeyL s aHandle id a) := by
  unfold readPrivateKeyL
  grind

@[grind ←] theorem frames_performOperationL (aInput : Option Nat) (a : Answers) :
    Frames served (performOperationL s aHandle aInput a) := by
  unfold performOperationL
  grind

@[grind ←] theorem frames_runL (key : COpenedKey) (a : Answers) :
    Frames served (runL s aHandle key a) := by
  unfold runL
  grind

@[grind ←] theorem frames_run (key : COpenedKey) (a : Answers) :
    Frames served (run s aHandle key a) := by
  unfold run
  grind

end COpenedKey

namespace CFSKeyStoreServer

@[grind ←] theorem frames_cancelAction (aAction : TCurrentAction) :
    Frames served (cancelAction aAction) := by
  unfold cancelAction cancelManager cancelKeyCreator
  grind

@[grind ←] theorem frames_waitForStatus : Frames served waitForStatus := by
  unfold waitForStatus
  grind

@[grind ←] theorem frames_setActive : Frames served setActive := by
  unfold setActive
  grind

@[grind ←] theorem frames_completeSelf (aCode : Int) : Frames served (completeSelf aCode) := by
  unfold completeSelf
  grind

@[grind ←] theorem frames_askPassword : Frames served askPassword := by
  unfold askPassword
  grind

@[grind ←] theorem frames_keyInfo : Frames served keyInfo := by
  unfold keyInfo
  grind

@[grind ←] theorem frames_setKeyInfo (info : CKeyInfo) : Frames served (setKeyInfo info) := by
  unfold setKeyInfo
  grind

@[grind ←] theorem frames_askPassphrase (passphraseId : StreamId) (timeout : Int) :
    Frames served (askPassphrase s passphraseId timeout) := by
  unfold askPassphrase
  grind

@[grind ←] theorem frames_accept : Frames served accept := by
  unfold accept
  refine Frames.bind (frames_onServer (by simp)) fun _ => ?_
  grind

@[grind ←] theorem frames_removeCachedPassphrases (aStreamId : StreamId) :
    Frames served (removeCachedPassphrases aStreamId) := modifies fun _ => rfl

@[grind ←] theorem frames_doCreateKeyL (a : Answers) : Frames served (doCreateKeyL a) := by
  have hcreator : ∀ c : Prop, [Decidable c] → Frames served (if c then
      onServer ({ · with iKeyCreator := some false, iStatus := .complete KErrKeyAlgorithm })
      else onServer ({ · with iKeyCreator := some true, iStatus := .KRequestPending })) := by
    intro c _
    grind
  unfold doCreateKeyL
  refine Frames.bind gets fun m => Frames.bind (frames_assert _) fun _ => ?_
  refine Frames.bind frames_keyInfo fun key => Frames.bind (frames_onServer (by simp)) fun _ => ?_
  grind

@[grind ←] theorem frames_storeKeyL (key : CKeyInfo) (a : Answers) :
    Frames served (storeKeyL key a) := by
  unfold storeKeyL passphrase
  grind

@[grind ←] theorem frames_doImportKeyL (a : Answers) : Frames served (doImportKeyL a) := by
  unfold doImportKeyL
  refine Frames.bind gets fun m => Frames.bind (frames_useBuffer _) fun _ => ?_
  refine Frames.bind (frames_answer _) fun _ => Frames.bind gets fun m => ?_
  refine Frames.bind (frames_assert _) fun _ => ?_
  grind

end CFSKeyStoreServer

namespace CKeyStoreConduit

@[grind ←] theorem frames_cleanup : Frames served cleanup := frames_onConduit _

@[grind ←] theorem frames_completeCurrent (aResult : Int) :
    Frames served (completeCurrent aResult) := by
  unfold completeCurrent completeIfAny
  grind

@[grind ←] theorem frames_allocate (aMessage : RMessage2) (aInfo : Option CKeyInfo) :
    Frames served (allocate aMessage aInfo) := frames_onConduit _

@[grind ←] theorem frames_waitForStatus : Frames served waitForStatus := by
  unfold waitForStatus
  grind

@[grind ←] theorem frames_answered (aMessage : RMessage2) (a : Answers) :
    Frames served (answered aMessage a) := by
  unfold answered
  grind

@[grind ←] theorem frames_deleteKeyL (aMessage : RMessage2) (a : Answers) :
    Frames served (deleteKeyL aMessage a) := by
  unfold deleteKeyL
  refine Frames.bind (frames_lookup _) fun keyData => ?_
  cases keyData with
  | none => exact throws _
  | some keyData =>
      refine Frames.bind (frames_answer _) fun key => ?_
      grind

@[grind ←] theorem frames_openKeyL (aMessage : RMessage2) (aType : OpenedKeyType) (a : Answers) :
    Frames served (openKeyL aMessage aType a) := by
  unfold openKeyL
  refine Frames.bind (frames_lookup _) fun keyData => ?_
  cases keyData with
  | none => exact throws _
  | some keyData =>
      refine Frames.bind (frames_answer _) fun key => ?_
      grind

@[grind ←] theorem frames_closeObjectL (aMessage : RMessage2) :
    Frames served (closeObjectL aMessage) := by
  unfold closeObjectL
  grind

@[grind ←] theorem frames_openedKeyL (aMessage : RMessage2) (aType : OpenedKeyType) :
    Frames served (openedKeyL aMessage aType) := by
  unfold openedKeyL
  grind

@[grind ←] theorem frames_authClose (aMessage : RMessage2) :
    Frames served (authClose aMessage) := by
  unfold authClose
  grind

@[grind ←] theorem frames_setTimeout (aMessage : RMessage2) (a : Answers) :
    Frames served (setTimeout aMessage a) := by
  have hset : Frames served (setTimeoutL aMessage a) := by
    unfold setTimeoutL
    refine Frames.bind (frames_leaveIf _ _) fun _ => Frames.bind (frames_leaveIf _ _) fun _ => ?_
    refine Frames.bind (frames_onKeys _) fun _ => ?_
    grind
  exact frames_trap hset fun _ => frames_completeMessage _ _

@[grind ←] theorem frames_relock (aMessage : RMessage2) : Frames served (relock aMessage) := by
  unfold relock
  grind

@[grind ←] theorem frames_finishL (c : CKeyStoreConduit) (a : Answers) :
    Frames served (finishL c a) := by
  unfold finishL
  grind

@[grind ←] theorem frames_run (a : Answers) : Frames served (run a) := by
  unfold run runL
  grind

end CKeyStoreConduit

end Frames

/-! ### Whose request it is -/

def CheckToCome (aAction : TCurrentAction) : Prop :=
  aAction = .EGetPassphrase ∨ aAction = .EDoExportKey

def PassphraseToCome (aAction : TCurrentAction) : Prop :=
  CheckToCome aAction ∨ aAction = .EImportOpenPrivateStream ∨
    aAction = .EExportKeyGetPassphrase ∨ aAction = .EExportEncryptedKeyGetPassphrase

instance (aAction : TCurrentAction) : Decidable (CheckToCome aAction) :=
  inferInstanceAs (Decidable (_ ∨ _))

instance (aAction : TCurrentAction) : Decidable (PassphraseToCome aAction) :=
  inferInstanceAs (Decidable (_ ∨ _))

namespace Served

/-- Every check was made on the message of the request, and every passphrase asked of the manager
of the session that sent it. -/
structure Recorded (v : Served) : Prop where
  checks : ∀ c ∈ v.policyChecks, c.request = some c.checked
  passphrases : ∀ r ∈ v.passphraseRequests, r.session.isSome ∧ r.session = r.sender ∧ r.exist

/-- The session that the server would ask is the sender, and it exists. -/
def FromSender (v : Served) : Prop :=
  ∃ message, v.started = some message ∧ v.iSession = some message.iSession ∧
    message.iSession ∈ v.iSessions

/-- What the server still has to look at is the request's own. -/
structure Owned (v : Served) : Prop extends Recorded v where
  session : PassphraseToCome v.iAction → v.FromSender
  message : CheckToCome v.iAction → v.iMessage = v.started

/-- A message is served. -/
structure InService (aMessage : RMessage2) (v : Served) : Prop extends Recorded v where
  iMessage : v.iMessage = some aMessage
  iSession : v.iSession = some aMessage.iSession
  sender : aMessage.iSession ∈ v.iSessions
  nothingToCheck : ¬ CheckToCome v.iAction
  sameSession : PassphraseToCome v.iAction → v.started.map (·.iSession) = some aMessage.iSession

/-- A message is served that starts a request. -/
structure Starting (aMessage : RMessage2) (v : Served) : Prop extends InService aMessage v where
  started : v.started = some aMessage

variable {v : Served} {aMessage : RMessage2}

theorem Recorded.check (h : v.Recorded) {c : PolicyCheck} (hc : c.request = some c.checked) :
    Recorded { v with policyChecks := c :: v.policyChecks } := by
  refine ⟨fun d hd => ?_, h.passphrases⟩
  rcases List.mem_cons.mp hd with rfl | hd
  · exact hc
  · exact h.checks d hd

theorem Recorded.owned (h : v.Recorded) (hidle : ¬ PassphraseToCome v.iAction) : v.Owned where
  toRecorded := h
  session := fun ha => absurd ha hidle
  message := fun ha => absurd (.inl ha) hidle

theorem InService.owned (h : v.InService aMessage) : v.Owned where
  toRecorded := h.toRecorded
  session := by
    intro ha
    obtain ⟨message, hstarted, hsame⟩ := Option.map_eq_some_iff.mp (h.sameSession ha)
    exact ⟨message, hstarted, by rw [hsame]; exact h.iSession, by rw [hsame]; exact h.sender⟩
  message := fun ha => absurd ha h.nothingToCheck

theorem Starting.fromSender (h : v.Starting aMessage) : v.FromSender :=
  ⟨aMessage, h.started, h.iSession, h.sender⟩

end Served

/-- Ways out: after a leave `P` holds, and a server that has stopped has recorded nothing else. -/
def Left (P : Served → Prop) : Halt → TokenServer → Prop
  | .leave _, m => P (served m)
  | _, m => (served m).Recorded

theorem left_of {P : Served → Prop} {m : TokenServer} (h : P (served m))
    (hrec : P (served m) → (served m).Recorded) (e : Halt) : Left P e m := by
  cases e with
  | leave aError => exact h
  | panic => exact hrec h
  | undefined => exact hrec h
  | waits => exact hrec h

theorem Left.mono {P Q : Served → Prop} (hPQ : ∀ v, P v → Q v) {e : Halt} {m : TokenServer}
    (h : Left P e m) : Left Q e m := by
  cases e with
  | leave aError => exact hPQ _ h
  | panic => exact h
  | undefined => exact h
  | waits => exact h

theorem Left.recorded {e : Halt} {m : TokenServer} (h : Left Served.Owned e m) :
    (served m).Recorded := by
  cases e with
  | leave aError => exact Served.Owned.toRecorded h
  | panic => exact h
  | undefined => exact h
  | waits => exact h

/-! ### Functions that keep the server to its request -/

/-- From a server that serves its own request to one that does. -/
def Serves {α : Type} (f : Server α) : Prop :=
  Meets (fun m => (served m).Owned) f (fun _ m => (served m).Owned) (Left Served.Owned)

section Serves

variable {α β : Type} {P : Served → Prop} {m : TokenServer}

/-- A function that touches nothing of this, before others. -/
theorem then_owned {f : Server α} {g : α → Server β} {R : β → TokenServer → Prop}
    (hf : Frames served f) (h : P (served m)) (howned : ∀ v, P v → v.Owned)
    (hg : ∀ a t, P (served t) → Ends R (Left Served.Owned) (g a t)) :
    Ends R (Left Served.Owned) ((f >>= g) m) :=
  hf.then_ends h hg fun _ _ ht => left_of (howned _ ht) Served.Owned.toRecorded _

theorem Serves.of_frames {f : Server α} (hf : Frames served f) : Serves f := by
  intro m h
  refine (hf.ends h).mono (fun _ _ ht => ht) fun e t ht => ?_
  exact left_of ht Served.Owned.toRecorded e

theorem Serves.bind {f : Server α} {g : α → Server β} (hf : Serves f) (hg : ∀ a, Serves (g a)) :
    Serves (f >>= g) := fun m h => Ends.bind (hf m h) fun a t ht => hg a t ht

theorem Serves.doIf {c : Prop} [Decidable c] {f : Server Unit} (hf : Serves f) :
    Serves (doIf c f) := by
  unfold KeyStore.doIf
  split
  · exact hf
  · exact .of_frames (returns _)

/-- What a request comes to from, before it is the server's own. -/
class Owning (P : Served → Prop) : Prop where
  owned : ∀ v, P v → v.Owned

instance : Owning Served.Owned := ⟨fun _ h => h⟩

instance {aMessage : RMessage2} : Owning (Served.InService aMessage) := ⟨fun _ h => h.owned⟩

instance {aMessage : RMessage2} : Owning (Served.Starting aMessage) :=
  ⟨fun _ h => h.toInService.owned⟩

/-- From `P` to a server that serves its own request. -/
def Leads (P : Served → Prop) (f : Server α) : Prop :=
  Meets (fun m => P (served m)) f (fun _ m => (served m).Owned) (Left Served.Owned)

theorem Serves.leads [hP : Owning P] {f : Server α} (hf : Serves f) : Leads P f :=
  fun m h => hf m (hP.owned _ h)

theorem Leads.of_frames [Owning P] {f : Server α} (hf : Frames served f) : Leads P f :=
  (Serves.of_frames hf).leads

/-- A function that touches nothing of this leaves `P` to the others. -/
theorem Leads.after [hP : Owning P] {f : Server α} {g : α → Server β} (hf : Frames served f)
    (hg : ∀ a, Leads P (g a)) : Leads P (f >>= g) :=
  fun _ h => then_owned hf h hP.owned fun a t ht => hg a t ht

theorem Leads.through {Q : Served → Prop} {f : Server α} {g : α → Server β}
    (hf : Meets (fun m => P (served m)) f (fun _ m => Q (served m)) (Left Served.Owned))
    (hg : ∀ a, Leads Q (g a)) : Leads P (f >>= g) :=
  fun m h => Ends.bind (hf m h) fun a t ht => hg a t ht

/-- However `f` ends, `P` still holds. -/
def Within (P : Served → Prop) (f : Server α) : Prop :=
  Meets (fun m => P (served m)) f (fun _ m => P (served m)) (Left P)

theorem Within.bind {f : Server α} {g : α → Server β} (hf : Within P f)
    (hg : ∀ a, Within P (g a)) : Within P (f >>= g) :=
  fun m h => Ends.bind (hf m h) fun a t ht => hg a t ht

theorem Within.through [hP : Owning P] {f : Server α} {g : α → Server β} (hf : Within P f)
    (hg : ∀ a, Leads P (g a)) : Leads P (f >>= g) :=
  .through (fun m h => (hf m h).mono (fun _ _ ht => ht) fun _ _ he => he.mono hP.owned) hg

/-- Where nothing is to come, there is nothing to go wrong. -/
theorem onServer_owned {f : CFSKeyStoreServer → CFSKeyStoreServer} (h : (served m).Recorded)
    (hf : ∀ c, ¬ PassphraseToCome (f c).iAction) :
    Ends (fun _ t => (served t).Owned) (Left Served.Owned) (onServer f m) :=
  Served.Recorded.owned ⟨h.checks, h.passphrases⟩ (hf m.iServer)

end Serves

section Steps

variable {m : TokenServer} {aMessage : RMessage2}

namespace CFSKeyStoreServer

theorem completeClientRequest_owned (aCode : Int) (h : (served m).Recorded) :
    Ends (fun _ t => (served t).Owned) (Left Served.Owned) (completeClientRequest aCode m) := by
  unfold completeClientRequest
  have hcleanup : onServer cleanup m = (.ok (), { m with iServer := cleanup m.iServer }) := rfl
  rw [bind_ok hcleanup]
  have hrec : (served { m with iServer := cleanup m.iServer }).Recorded :=
    ⟨h.checks, h.passphrases⟩
  refine Ends.bind (Q := fun _ t => (served t).Recorded) ?_ fun _ t ht => ?_
  · -- nothing in it is left
    unfold completeCaller
    simp only [bind_apply, get_apply]
    split
    · exact hrec
    · exact hrec
  · exact onServer_owned ht fun c => by simp [PassphraseToCome, CheckToCome]

theorem serves_completeClientRequest (aCode : Int) : Serves (completeClientRequest aCode) :=
  fun _ h => completeClientRequest_owned aCode h.toRecorded

theorem serves_cancel : Serves cancel := by
  have hcancel : Serves doCancel :=
    .bind (.of_frames .gets) fun m => .bind (.of_frames (frames_cancelAction _))
      fun _ => serves_completeClientRequest _
  refine .bind (.of_frames .gets) fun m => ?_
  split
  · exact .bind hcancel fun _ => .of_frames frames_waitForStatus
  · exact .of_frames (returns _)

theorem serves_cancelIn (actions : List TCurrentAction) : Serves (cancelIn actions) := by
  refine .bind (.of_frames .gets) fun m => ?_
  split
  · exact serves_cancel
  · exact .of_frames (returns _)

end CFSKeyStoreServer

namespace CKeyStoreConduit

theorem serves_cancel : Serves cancel := by
  have hout : ∀ aRequest, Serves (cancelOutstanding aRequest) := by
    intro aRequest
    have hkey : Serves cancelOpenedKey := .of_frames (by unfold cancelOpenedKey; grind)
    unfold cancelOutstanding
    split
    any_goals exact CFSKeyStoreServer.serves_cancelIn _
    any_goals exact hkey
    exact .of_frames (returns _)
  have hcancel : Serves doCancel :=
    .bind (.of_frames .gets) fun m => .bind (hout _) fun _ => .of_frames (by grind)
  refine .bind (.of_frames .gets) fun m => ?_
  split
  · exact .bind hcancel fun _ => .of_frames frames_waitForStatus
  · exact .of_frames (returns _)

theorem serves_cancelRequest (kinds : List TFSTokenMessages) :
    Serves (cancelRequest aMessage kinds) :=
  .bind (.of_frames .gets) fun _ => .bind (.doIf serves_cancel)
    fun _ => .of_frames (frames_completeMessage _ _)

theorem serves_cancelKeyRequest (kinds : List TFSTokenMessages) :
    Serves (cancelKeyRequest aMessage kinds) := by
  have hcancel : Serves (do
      CPassphraseManager.cancel aMessage.iSession
      cancel) :=
    .bind (.of_frames (CPassphraseManager.frames_cancel _)) fun _ => serves_cancel
  exact .bind (.of_frames .gets) fun _ => .bind (.doIf hcancel)
    fun _ => .of_frames (frames_completeMessage _ _)

end CKeyStoreConduit

/-! ### Checks and passphrases -/

/-- What the checks of a request leave as it is: whose message `iMessage` is. -/
structure Checking (P : Served → Prop) : Prop where
  recorded : ∀ v, P v → v.Recorded
  message : ∀ v, P v → v.iMessage = v.started
  check : ∀ v c, P v → c.request = some c.checked →
    P { v with policyChecks := c :: v.policyChecks }

theorem Checking.frames {P : Served → Prop} (hP : Checking P) {α : Type} {f : Server α}
    (hf : Frames served f) : Within P f :=
  fun _ h => (hf.ends h).mono (fun _ _ ht => ht) fun e _ ht => left_of ht (hP.recorded _) e

namespace CFSKeyStoreServer

section Checks

variable {P : Served → Prop} (hP : Checking P)
include hP

theorem checkPolicy_within (aPolicy : TSecurityPolicy) : Within P (checkPolicy aPolicy) := by
  intro m h
  unfold checkPolicy
  rw [bind_ok (get_apply m)]
  cases hmessage : m.iServer.iMessage with
  | none => exact hP.recorded _ h
  | some message =>
      have hstarted : m.started = some message := (hP.message _ h).symm.trans hmessage
      refine hP.check (served m) ⟨m.started.map (·.iHandle), message.iHandle⟩ h ?_
      rw [hstarted]
      rfl

theorem checkKeyAttributes_within (aOp : TNewKeyOperation) : Within P (checkKeyAttributes aOp) := by
  refine .bind (hP.frames frames_keyInfo) fun key => ?_
  split
  · exact hP.frames (.returns _)
  · refine .bind (hP.frames (frames_setKeyInfo _)) fun _ => ?_
    exact .bind (checkPolicy_within hP _) fun allowed => hP.frames (by grind)

theorem checkImportKeyPolicy_within (aKeyOperation : TNewKeyOperation) :
    Within P (checkImportKeyPolicy aKeyOperation) := by
  refine .bind (hP.frames .gets) fun _ => .bind (hP.frames (frames_assert _)) fun _ => ?_
  exact .bind (checkKeyAttributes_within hP _) fun err => hP.frames (by grind)

theorem checkCreateKeyPolicy_within : Within P checkCreateKeyPolicy := by
  refine .bind (hP.frames .gets) fun _ => .bind (hP.frames (frames_assert _)) fun _ => ?_
  exact .bind (checkImportKeyPolicy_within hP _) fun err => hP.frames (by grind)

theorem checkExportKeyPolicyL_within (a : Answers) : Within P (checkExportKeyPolicyL a) := by
  refine .bind (hP.frames .gets) fun _ => .bind (hP.frames (frames_assert _)) fun _ => ?_
  refine .bind (hP.frames (frames_assert _)) fun _ => ?_
  refine .bind (hP.frames (frames_onServer (by simp))) fun _ => ?_
  refine .bind (hP.frames (frames_lookup _)) fun keyData => ?_
  cases keyData with
  | none => exact hP.frames (.throws _)
  | some keyData =>
      refine .bind (hP.frames (frames_answer _)) fun key => ?_
      exact .bind (checkPolicy_within hP _) fun allowed => hP.frames (by grind)

end Checks

/-- The passphrase is asked of the manager that `iSession` has. -/
theorem getKeystorePassphrase_leads {aNextState : TCurrentAction}
    (hnext : ¬ PassphraseToCome aNextState) :
    Leads (fun v => v.Owned ∧ v.FromSender) (getKeystorePassphrase aNextState) := by
  unfold getKeystorePassphrase
  refine .through (Q := Served.Owned) ?_ fun _ => ?_
  · rintro m ⟨h, message, hstarted, hsession, hexist⟩
    simp only [served] at hstarted hsession hexist
    refine ⟨⟨h.checks, fun r hr => ?_⟩, h.session, h.message⟩
    rcases List.mem_cons.mp hr with rfl | hr
    · simp [hstarted, hsession, hexist]
    · exact h.passphrases r hr
  · refine .after .gets fun c => ?_
    cases c.iServer.iSession with
    | none => exact .of_frames (.throws _)
    | some s =>
      refine .after frames_defaultPassphraseId fun passphraseId => .after .gets fun _ => ?_
      refine .after (frames_askPassphrase _ _ _) fun _ => ?_
      refine .through (fun _ h => onServer_owned h.toRecorded fun _ => hnext) fun _ => ?_
      exact .of_frames frames_setActive

end CFSKeyStoreServer

/-! ### Requests that start -/

theorem checking_starting (aMessage : RMessage2) : Checking (Served.Starting aMessage) where
  recorded _ h := h.toRecorded
  message _ h := h.iMessage.trans h.started.symm
  check _ _ h hc :=
    { h with toRecorded := h.toRecorded.check hc }

/-- The request that was started is still the one whose message is looked at. -/
def OwnMessage (v : Served) : Prop := v.Owned ∧ v.iMessage = v.started

instance : Owning OwnMessage := ⟨fun _ h => h.1⟩

theorem checking_ownMessage : Checking OwnMessage where
  recorded _ h := h.1.toRecorded
  message _ h := h.2
  check _ _ h hc := ⟨{ h.1 with toRecorded := h.1.toRecorded.check hc }, h.2⟩

theorem Served.Starting.ownMessage {v : Served} (h : v.Starting aMessage) :
    v.iMessage = v.started :=
  h.iMessage.trans h.started.symm

theorem CKeyStoreConduit.setCurrent_starting (aState : TFSTokenMessages) :
    Meets (fun m => (served m).InService aMessage) (setCurrent aMessage aState)
      (fun _ t => (served t).Starting aMessage) (Left Served.Owned) := by
  intro m h
  unfold setCurrent
  refine then_owned .gets h (fun _ hv => hv.owned) fun _ t ht => ?_
  refine then_owned (frames_assert _) ht (fun _ hv => hv.owned) fun _ t ht => ?_
  refine then_owned (frames_onConduit _) ht (fun _ hv => hv.owned) fun _ t ht => ?_
  refine then_owned .gets ht (fun _ hv => hv.owned) fun _ t ht => ?_
  refine then_owned (frames_assert _) ht (fun _ hv => hv.owned) fun _ t ht => ?_
  refine then_owned (frames_onConduit _) ht (fun _ hv => hv.owned) fun _ t ht => ?_
  exact {
    checks := ht.checks
    passphrases := ht.passphrases
    iMessage := ht.iMessage
    iSession := ht.iSession
    sender := ht.sender
    nothingToCheck := ht.nothingToCheck
    sameSession := fun _ => rfl
    started := rfl }

namespace CFSKeyStoreServer

/-- `SetActive` and `RequestComplete`, with which a request goes on in `RunL` -/
theorem serves_completeSelf (aCode : Int) : Serves (do setActive; completeSelf aCode) :=
  .bind (.of_frames frames_setActive) fun _ => .of_frames (frames_completeSelf aCode)

theorem createKey_leads (aRequest : Nat) :
    Leads (Served.Starting aMessage) (createKey aRequest) := by
  unfold createKey
  refine .after (frames_onServer (by simp)) fun _ => .after frames_accept fun _ => ?_
  refine .through (Q := OwnMessage) (fun _ ht => ?_) fun _ => ?_
  · exact ⟨⟨⟨ht.checks, ht.passphrases⟩, fun _ => ht.fromSender, fun _ => ht.ownMessage⟩,
      ht.ownMessage⟩
  · refine (checkPolicy_within checking_ownMessage _).through fun allowed => ?_
    split
    · exact (serves_completeClientRequest _).leads
    · exact (serves_completeSelf _).leads

theorem openPrivateStream_leads (aIsEncrypted : Bool) :
    Leads (Served.Starting aMessage) (openPrivateStream aIsEncrypted) := by
  unfold openPrivateStream
  refine .through (Q := Served.Owned) (fun _ h => ?_) fun _ => ?_
  · exact ⟨⟨h.checks, h.passphrases⟩, fun _ => h.fromSender, fun _ => h.ownMessage⟩
  · split
    · exact .of_frames frames_askPassword
    · exact .of_frames (frames_completeSelf _)

theorem importKey_leads (aRequest : Nat) (aIsEncrypted : Bool) :
    Leads (Served.Starting aMessage) (importKey aRequest aIsEncrypted) := by
  have hP := checking_starting aMessage
  unfold importKey
  refine .after .gets fun _ => .after (frames_assert _) fun _ => .after frames_accept fun _ => ?_
  refine (checkPolicy_within hP _).through fun allowed => ?_
  split
  · exact (serves_completeClientRequest _).leads
  · refine .after (frames_onServer (by simp)) fun _ => .after frames_setActive fun _ => ?_
    refine (checkImportKeyPolicy_within hP _).through fun err => ?_
    split
    · exact .of_frames (frames_completeSelf _)
    · exact openPrivateStream_leads _

theorem exportKey_leads (aRequest : Nat) (aObjectId : Int) (aIsEncrypted : Bool) :
    Leads (Served.Starting aMessage) (exportKey aRequest aObjectId aIsEncrypted) := by
  unfold exportKey
  refine .after frames_accept fun _ => ?_
  refine .through (Q := Served.Owned) (fun _ h => ?_) fun _ => serves_completeSelf _
  exact ⟨⟨h.checks, h.passphrases⟩, fun _ => h.fromSender, fun _ => h.ownMessage⟩

theorem serves_changePassphrase : Serves changePassphrase := by
  refine .bind (.of_frames frames_defaultPassphraseId) fun _ => ?_
  refine .bind (.of_frames (frames_doIf _ (frames_completeConduit _))) fun _ => ?_
  refine .bind (fun m h => ?_) fun _ => serves_completeSelf _
  exact onServer_owned h.toRecorded fun c => by simp [PassphraseToCome, CheckToCome]

theorem authOpen_leads : Leads (Served.Starting aMessage) authOpen := by
  refine .after (frames_onServer (by simp)) fun _ => fun m h => ?_
  exact getKeystorePassphrase_leads (by simp [PassphraseToCome, CheckToCome]) m
    ⟨h.toInService.owned, h.fromSender⟩

end CFSKeyStoreServer

/-! ### Messages -/

namespace CKeyStoreConduit

theorem createKeyL_leads (a : Answers) :
    Leads (Served.InService aMessage) (createKeyL aMessage a) := by
  unfold createKeyL
  refine .after .gets fun _ => .after (frames_assert _) fun _ => ?_
  refine .after (frames_answer _) fun _ => .after (frames_allocate _ _) fun _ => ?_
  exact .through (setCurrent_starting _) fun _ => CFSKeyStoreServer.createKey_leads _

theorem importKeyL_leads (a : Answers) :
    Leads (Served.InService aMessage) (importKeyL aMessage a) := by
  unfold importKeyL
  refine .after .gets fun _ => .after (frames_assert _) fun _ => ?_
  refine .after (frames_answer _) fun _ => .after (frames_allocate _ _) fun _ => ?_
  exact .through (setCurrent_starting _) fun _ => CFSKeyStoreServer.importKey_leads _ _

theorem exportKeyL_leads (a : Answers) :
    Leads (Served.InService aMessage) (exportKeyL aMessage a) := by
  unfold exportKeyL
  refine .after .gets fun _ => .after (frames_assert _) fun _ => ?_
  refine .after (frames_answer _) fun _ => .after (frames_allocate _ _) fun _ => ?_
  exact .through (setCurrent_starting _) fun _ => CFSKeyStoreServer.exportKey_leads _ _ _

theorem processL_leads (aType : OpenedKeyType) (a : Answers) :
    Leads (Served.InService aMessage) (processL aMessage aType a) := by
  unfold processL
  refine .after .gets fun _ => .after (frames_assert _) fun _ => ?_
  refine .after (frames_openedKeyL _ _) fun _ => .after (frames_answer _) fun _ => ?_
  refine .after (frames_allocate _ _) fun _ => .through (setCurrent_starting _) fun _ => ?_
  refine .after (frames_doIf _ (frames_onConduit _)) fun _ => ?_
  exact .of_frames (COpenedKey.frames_start _ _ _)

theorem serve_leads (a : Answers) : Leads (Served.InService aMessage) (serve aMessage a) := by
  unfold serve
  cases aMessage.iFunction with
  | EIdle => exact .of_frames (frames_completeMessage _ _)
  | EListKeys | EGetKeyInfo | EExportPublic | EGetKeyLength | ESetUsePolicy
  | ESetManagementPolicy | EAuthTimeRemaining | EGetTimeout =>
      exact .of_frames (frames_answered _ _)
  | ECreateKey => exact createKeyL_leads a
  | EImportKey | EImportEncryptedKey => exact importKeyL_leads a
  | EExportKey | EExportEncryptedKey => exact exportKeyL_leads a
  | ECancelCreateKey | ECancelImportKey | ECancelImportEncryptedKey | ECancelExportKey
  | ECancelExportEncryptedKey | ECancelChangePassphrase | ECancelAuthOpen =>
      exact (serves_cancelRequest _).leads
  | ECancelRSASign | ECancelDSASign | ECancelDecrypt | ECancelDH =>
      exact (serves_cancelKeyRequest _).leads
  | EDeleteKey => exact .of_frames (frames_deleteKeyL _ _)
  | EOpenKeyRepudiableRSASign | EOpenKeyRepudiableDSASign | EOpenKeyDecrypt | EOpenKeyAgree =>
      exact .of_frames (frames_openKeyL _ _ _)
  | ECloseObject => exact .of_frames (frames_closeObjectL _)
  | ERepudiableDSASign | ERepudiableRSASign | EDecryptText | EDHPublicKey | EDHAgree =>
      exact processL_leads _ a
  | EChangePassphrase =>
      exact .through (setCurrent_starting _) fun _ =>
        CFSKeyStoreServer.serves_changePassphrase.leads
  | EAuthOpen =>
      exact .through (setCurrent_starting _) fun _ => CFSKeyStoreServer.authOpen_leads
  | EAuthClose => exact .of_frames (frames_authClose _)
  | ESetTimeout => exact .of_frames (frames_setTimeout _ _)
  | ERelock => exact .of_frames (frames_relock _)

theorem serviceRequestL_leads (a : Answers) :
    Leads (Served.InService aMessage) (serviceRequestL aMessage a) :=
  .after .gets fun _ => .after (frames_leaveIf _ _) fun _ => serve_leads a

end CKeyStoreConduit

/-- The rule of a `TRAP`: what handles an error starts from where `f` was left. -/
theorem trap_owned {P : Served → Prop} {f : Server Unit} {k : Int → Server Unit}
    (hf : Ends (fun _ t => (served t).Owned) (Left P) (f m))
    (hk : ∀ e t, P (served t) →
      Ends (fun _ t => (served t).Owned) (fun _ t => (served t).Recorded) (k e t)) :
    Ends (fun _ t => (served t).Owned) (fun _ t => (served t).Recorded) (trap f k m) := by
  refine Ends.tryCatch hf fun e t ht => ?_
  cases e with
  | leave aError => exact hk aError t ht
  | panic => exact ht
  | undefined => exact ht
  | waits => exact ht

/-- A message of session `s` does not come between a request and what is to come of it: there is
no check to come, and a passphrase only for a request of `s` itself. -/
def Served.Accepts (v : Served) (s : Nat) : Prop :=
  ¬ CheckToCome v.iAction ∧ (PassphraseToCome v.iAction → v.started.map (·.iSession) = some s)

theorem serviceL_owned (a : Answers) (h : (served m).Owned)
    (hsender : aMessage.iSession ∈ m.iSessions) (haccepts : (served m).Accepts aMessage.iSession) :
    Ends (fun _ t => (served t).Owned) (fun _ t => (served t).Recorded)
      (serviceL aMessage a m) := by
  unfold serviceL
  refine trap_owned (P := Served.Owned) ?_ fun e t ht => ?_
  · refine then_owned
      (P := fun v => v.Owned ∧ aMessage.iSession ∈ v.iSessions ∧ v.Accepts aMessage.iSession)
      (CPassphraseManager.frames_expireCacheL _) ⟨h, hsender, haccepts⟩ (fun _ hv => hv.1)
      fun _ t ht => ?_
    obtain ⟨howned, hsender, hcheck, hsame⟩ := ht
    refine Ends.bind (Q := fun _ t => (served t).InService aMessage) ?_
      fun _ t ht => CKeyStoreConduit.serviceRequestL_leads a t ht
    exact {
      checks := howned.checks
      passphrases := howned.passphrases
      iMessage := rfl
      iSession := rfl
      sender := hsender
      nothingToCheck := hcheck
      sameSession := hsame }
  · exact ht

/-! ### Runs of the server -/

namespace CFSKeyStoreServer

theorem serves_runImportKeyL (a : Answers) : Serves (runImportKeyL a) :=
  .bind (.of_frames (by grind)) fun _ => serves_completeClientRequest _

theorem serves_completeKeyExportL (a : Answers) : Serves (completeKeyExportL a) := by
  refine .bind (.of_frames .gets) fun m => .bind (.of_frames (frames_assert _)) fun _ => ?_
  refine .bind (.of_frames (frames_assert _)) fun _ => ?_
  refine .bind (.of_frames (frames_assert _)) fun _ => ?_
  refine .bind (.of_frames frames_keyInfo) fun _ => ?_
  refine .bind (.of_frames (by unfold passphrase; grind)) fun _ => ?_
  refine .bind (.of_frames (frames_answer _)) fun _ => ?_
  exact .bind (.of_frames (frames_useBuffer _)) fun _ => serves_completeClientRequest _

theorem serves_doStoreKeyL (a : Answers) : Serves (doStoreKeyL a) := by
  refine .bind (.of_frames .gets) fun m => .bind (.of_frames (frames_assert _)) fun _ => ?_
  refine .bind (.of_frames frames_keyInfo) fun key => ?_
  refine .bind (.of_frames (frames_assert _)) fun _ => ?_
  refine .bind (.of_frames (frames_storeKeyL _ _)) fun _ => ?_
  refine .bind (.of_frames (frames_onServer (by simp))) fun _ => .bind (.of_frames .gets) fun _ => ?_
  refine .bind (.of_frames (frames_setKeyInfo _)) fun _ => .bind (.of_frames .gets) fun _ => ?_
  exact .bind (.of_frames (frames_assert _)) fun _ => serves_completeClientRequest _

/-- The next action has nothing to come. -/
theorem serves_next {aNextState : TCurrentAction} (hnext : ¬ PassphraseToCome aNextState) :
    Serves (onServer ({ · with iAction := aNextState })) :=
  fun _ h => onServer_owned h.toRecorded fun _ => hnext

theorem serves_doChangePassphrase : Serves doChangePassphrase := by
  refine .bind (.of_frames .gets) fun m => ?_
  cases m.iServer.iSession with
  | none => exact .of_frames (throws _)
  | some s =>
      refine .bind (.of_frames frames_defaultPassphraseId) fun _ => ?_
      refine .bind (.of_frames (frames_assert _)) fun _ => ?_
      refine .bind (.of_frames (CPassphraseManager.frames_changePassphrase _ _ _)) fun _ => ?_
      refine .bind (serves_next (by simp [PassphraseToCome, CheckToCome])) fun _ => ?_
      exact .of_frames frames_setActive

/-- The session is the sender's until the passphrase is asked for. -/
def OwnSession (v : Served) : Prop := OwnMessage v ∧ v.FromSender

instance : Owning OwnSession := ⟨fun _ h => h.1.1⟩

theorem checking_ownSession : Checking OwnSession where
  recorded _ h := h.1.1.toRecorded
  message _ h := h.1.2
  check _ _ h hc := ⟨checking_ownMessage.check _ _ h.1 hc, h.2⟩

theorem runDoExportKeyL_leads (a : Answers) : Leads OwnSession (runDoExportKeyL a) := by
  refine (checkExportKeyPolicyL_within checking_ownSession a).through fun _ => ?_
  refine .through (Q := Served.Owned) (fun _ h => ?_) fun _ => serves_completeSelf _
  exact ⟨⟨h.1.1.checks, h.1.1.passphrases⟩, fun _ => h.2, fun _ => h.1.2⟩

theorem runGetPassphraseL_leads : Leads OwnSession runGetPassphraseL := by
  refine (checkCreateKeyPolicy_within checking_ownSession).through fun err => ?_
  refine .after (frames_leaveIfError _) fun _ m h => ?_
  exact getKeystorePassphrase_leads (by simp [PassphraseToCome, CheckToCome]) m ⟨h.1.1, h.2⟩

theorem runL_owned (a : Answers) (h : (served m).Owned) :
    Ends (fun _ t => (served t).Owned) (Left Served.Owned) (runL a m) := by
  unfold runL
  rw [bind_ok (get_apply m)]
  refine then_owned (P := fun v => v.Owned ∧ v.iAction = m.iServer.iAction)
    (frames_leaveIfFailed _) ⟨h, rfl⟩ (fun _ hv => hv.1) fun _ t ht => ?_
  obtain ⟨ht, haction⟩ := ht
  have hask : ∀ {aNextState}, PassphraseToCome m.iServer.iAction →
      ¬ PassphraseToCome aNextState → Ends (fun _ t => (served t).Owned) (Left Served.Owned)
        (getKeystorePassphrase aNextState t) :=
    fun hcome hnext => getKeystorePassphrase_leads hnext t ⟨ht, ht.session (haction ▸ hcome)⟩
  have hchecked : CheckToCome m.iServer.iAction → OwnSession (served t) :=
    fun hcome => ⟨⟨ht, ht.message (haction ▸ hcome)⟩, ht.session (haction ▸ .inl hcome)⟩
  cases hm : m.iServer.iAction with
  | EIdle => exact ht.toRecorded
  | EImportKey => exact serves_runImportKeyL a t ht
  | EExportEncryptedKey =>
      refine Leads.after frames_askPassword (fun _ => ?_) t ht
      exact .through (serves_next (by simp [PassphraseToCome, CheckToCome])) fun _ =>
        .of_frames frames_setActive
  | EExportKey => exact serves_completeKeyExportL a t ht
  | EDoExportKey => exact runDoExportKeyL_leads a t (hchecked (by simp [hm, CheckToCome]))
  | ECreateKeyFinal => exact serves_doStoreKeyL a t ht
  | EImportOpenPrivateStream =>
      refine then_owned (P := fun v => v.Owned ∧ v.FromSender) (frames_assert _)
        ⟨ht, ht.session (haction ▸ hm ▸ by simp [PassphraseToCome])⟩ (fun _ hv => hv.1) ?_
      exact fun _ => getKeystorePassphrase_leads (by simp [PassphraseToCome, CheckToCome])
  | EChangePassphrase => exact serves_doChangePassphrase t ht
  | EChangePassphraseClearCached =>
      refine Leads.after frames_defaultPassphraseId (fun _ => ?_) t ht
      exact .after (frames_removeCachedPassphrases _) fun _ => serves_completeClientRequest _
  | EAuthOpen => exact serves_completeClientRequest _ t ht
  | EExportKeyGetPassphrase =>
      exact hask (by simp [hm, PassphraseToCome]) (by simp [PassphraseToCome, CheckToCome])
  | EExportEncryptedKeyGetPassphrase =>
      exact hask (by simp [hm, PassphraseToCome]) (by simp [PassphraseToCome, CheckToCome])
  | ECreateKeyCreate =>
      exact Leads.after (frames_doCreateKeyL _)
        (fun _ => serves_next (by simp [PassphraseToCome, CheckToCome])) t ht
  | EGetPassphrase => exact runGetPassphraseL_leads t (hchecked (by simp [hm, CheckToCome]))

theorem run_owned (a : Answers) (h : (served m).Owned) :
    Ends (fun _ t => (served t).Owned) (fun _ t => (served t).Recorded) (run a m) := by
  unfold run
  refine Ends.bind (Q := fun _ t => (served t).Owned) h fun _ t ht => ?_
  refine trap_owned (P := Served.Owned) (runL_owned a ht) fun e t ht => ?_
  exact (completeClientRequest_owned e ht.toRecorded).mono (fun _ _ h => h)
    fun _ _ he => he.recorded

end CFSKeyStoreServer

/-- A session goes whose passphrase is not to come. -/
theorem delete_owned {s : Nat} (h : (served m).Owned)
    (hother : PassphraseToCome m.iServer.iAction → m.started.map (·.iSession) ≠ some s) :
    Ends (fun _ t => (served t).Owned) (Left Served.Owned) (delete s m) := by
  unfold delete
  refine Ends.bind (Q := fun _ t => (served t).Owned) ?_ fun _ t ht => ?_
  · refine ⟨⟨h.checks, h.passphrases⟩, fun ha => ?_, h.message⟩
    obtain ⟨message, hstarted, hsession, hexist⟩ := h.session ha
    have hne : message.iSession ≠ s := by
      intro hs
      have hstarted : m.started = some message := hstarted
      exact hother ha (by rw [hstarted, ← hs]; rfl)
    have hsession : m.iServer.iSession = some message.iSession := hsession
    refine ⟨message, hstarted, ?_, (List.mem_erase_of_ne hne).mpr hexist⟩
    simp [served, hsession, hne]
  · have hkeys : ∀ keys : List (Int × COpenedKey),
        Serves (keys.forM fun o => COpenedKey.cancel s o.1) := by
      intro keys
      induction keys with
      | nil => exact .of_frames (returns _)
      | cons o keys ih =>
        exact .bind (.of_frames (COpenedKey.frames_cancel s o.1)) fun _ => ih
    refine then_owned (CPassphraseManager.frames_cancel s) ht (fun _ hv => hv) fun _ t ht => ?_
    refine then_owned (frames_onManager s _) ht (fun _ hv => hv) fun _ t ht => ?_
    refine then_owned .gets ht (fun _ hv => hv) fun c t ht => ?_
    refine Ends.bind (hkeys _ t ht) fun _ t ht => ?_
    exact Serves.of_frames (frames_onSession s _) t ht

end Steps

/-! ### Steps and runs -/

namespace TokenServer

/-- While a request is at the point where its sender is still to be looked at, no message that
could be taken for its own is served, and its session is not closed. -/
def Undisturbed (m : TokenServer) : Event → Prop
  | .message s _ _ _ _ _ => (served m).Accepts s
  | .disconnect s =>
      PassphraseToCome m.iServer.iAction → m.started.map (·.iSession) ≠ some s
  | _ => True

/-- Every policy check made for a request was made on the message that started it, and every
passphrase it needed was asked of the passphrase manager of the session that sent it, which was
there. -/
structure JudgedBySender (m : TokenServer) : Prop where
  checks : ∀ c ∈ m.policyChecks, c.request = some c.checked
  passphrases : ∀ r ∈ m.passphraseRequests, r.session.isSome ∧ r.session = r.sender ∧ r.exist

/-- What holds of a server that runs, and of one that has stopped. -/
structure SenderInvariant (m : TokenServer) : Prop where
  recorded : (served m).Recorded
  owned : m.halted = none → (served m).Owned

theorem senderInvariant_of_owned {m : TokenServer} (h : (served m).Owned) : SenderInvariant m :=
  ⟨h.toRecorded, fun _ => h⟩

theorem senderInvariant_after {r : Except Halt Unit × TokenServer}
    (h : Ends (fun _ t => (served t).Owned) (fun _ t => (served t).Recorded) r) :
    SenderInvariant (after r) := by
  rcases r with ⟨r, t⟩
  cases r with
  | ok u => exact senderInvariant_of_owned h
  | error e => exact ⟨⟨h.checks, h.passphrases⟩, nofun⟩

theorem senderInvariant_of_frames {f : Server Unit} {m : TokenServer} (hf : Frames served f)
    (h : (served m).Owned) : SenderInvariant (after (f m)) :=
  senderInvariant_after ((Serves.of_frames hf m h).mono (fun _ _ h => h)
    fun _ _ he => he.recorded)

theorem SenderInvariant.step {m t : TokenServer} {e : Event} (h : SenderInvariant m)
    (hok : m.Undisturbed e) (hstep : m.step e = some t) : SenderInvariant t := by
  have hrunning : m.halted = none := by
    by_contra hhalted
    simp [TokenServer.step, Option.isSome_iff_ne_none.mpr hhalted] at hstep
  have howned := h.owned hrunning
  simp only [TokenServer.step, hrunning, Option.isSome_none, Bool.false_eq_true, if_false]
    at hstep
  cases e with
  | connect =>
      cases hstep
      refine senderInvariant_of_owned ⟨⟨howned.checks, howned.passphrases⟩, fun ha => ?_,
        howned.message⟩
      obtain ⟨message, hstarted, hsession, hexist⟩ := howned.session ha
      exact ⟨message, hstarted, hsession, List.mem_append_left _ hexist⟩
  | disconnect s =>
      obtain ⟨-, hstep⟩ := Option.ite_none_right_eq_some.mp hstep
      cases hstep
      exact senderInvariant_after ((delete_owned howned hok).mono (fun _ _ h => h)
        fun _ _ he => he.recorded)
  | message s aFunction int0 int1 passes a =>
      obtain ⟨hs, hstep⟩ := Option.ite_none_right_eq_some.mp hstep
      cases hstep
      exact senderInvariant_after (serviceL_owned a howned hs hok)
  | clock aTime =>
      cases hstep
      exact senderInvariant_of_owned howned
  | dialog s aCode =>
      obtain ⟨-, hstep⟩ := Option.ite_none_right_eq_some.mp hstep
      cases hstep
      exact senderInvariant_of_owned howned
  | password aCode =>
      obtain ⟨-, hstep⟩ := Option.ite_none_right_eq_some.mp hstep
      cases hstep
      exact senderInvariant_of_owned howned
  | keyCreated aCode =>
      obtain ⟨-, hstep⟩ := Option.ite_none_right_eq_some.mp hstep
      cases hstep
      exact senderInvariant_of_owned howned
  | runManager s a =>
      obtain ⟨-, hstep⟩ := Option.ite_none_right_eq_some.mp hstep
      cases hstep
      exact senderInvariant_of_frames (CPassphraseManager.frames_run s a) howned
  | runOpenedKey s aHandle a =>
      cases hkey : m.openedKey s aHandle with
      | none => simp [hkey] at hstep
      | some key =>
        simp only [hkey] at hstep
        obtain ⟨-, hstep⟩ := Option.ite_none_right_eq_some.mp hstep
        cases hstep
        exact senderInvariant_of_frames (COpenedKey.frames_run s aHandle key a) howned
  | runServer a =>
      obtain ⟨-, hstep⟩ := Option.ite_none_right_eq_some.mp hstep
      cases hstep
      exact senderInvariant_after (CFSKeyStoreServer.run_owned a howned)
  | runConduit a =>
      obtain ⟨-, hstep⟩ := Option.ite_none_right_eq_some.mp hstep
      cases hstep
      exact senderInvariant_of_frames (CKeyStoreConduit.frames_run a) howned

theorem Started.senderInvariant {m : TokenServer} (h : Started m) : SenderInvariant m := by
  refine senderInvariant_of_owned ?_
  rw [h.rest]
  exact Served.Recorded.owned ⟨by simp [served], by simp [served]⟩
    (by simp [served, PassphraseToCome, CheckToCome])

/-- **Requests are judged by their senders**, in a run that leaves them undisturbed. -/
theorem judged_by_sender {m : TokenServer} (h : Reachable Started step Undisturbed m) :
    JudgedBySender m := by
  have hinv : SenderInvariant m :=
    h.invariant (fun _ hs => hs.senderInvariant) fun _ _ _ hs hok hstep => hs.step hok hstep
  exact ⟨hinv.recorded.checks, hinv.recorded.passphrases⟩

instance (m : TokenServer) (e : Event) : Decidable (m.Undisturbed e) :=
  match e with
  | .message _ _ _ _ _ _ => inferInstanceAs (Decidable (_ ∧ _))
  | .disconnect _ => inferInstanceAs (Decidable (_ → _))
  | .connect | .clock _ | .dialog _ _ | .password _ | .keyCreated _ | .runManager _ _
  | .runOpenedKey _ _ _ | .runServer _ | .runConduit _ => inferInstanceAs (Decidable True)

/-! ### A key created while another session is busy with the store -/

def newServer : TokenServer := { now := 0, iKeyDataManager := CFileKeyDataManager.emptyManager }

theorem started_newServer : Started newServer where
  keys := by decide
  timeout := by decide
  identifier := by decide
  rest := rfl

def signingKey : CKeyInfo where
  iLabel := []
  iHandle := 0
  iAccessType := 0
  iManagementPolicy := .chosen 0
  iEndDate := 0
  iAlgorithm := .ERSA
  iSize := 1024

/-- Everything goes well. -/
def granted : Answers where
  readL := .ok ()
  keyInfo := signingKey
  writeL := .ok ()
  reply := .ok KErrNone
  readKeyInfoLC := .ok signingKey
  keyL := .ok ()
  imported := (.ERSA, 1024)
  newKeyCreator := .ok ()
  store := CFileKeyDataManager.additionDone
  newKey := CFileKeyDataManager.firstKey
  remove := ⟨.done, .done, .done, .done, .done, .done, .done⟩
  timeoutWrite := .done
  timeoutCommit := .done

def sent (s : Nat) (aFunction : TFSTokenMessages) : Event :=
  .message s aFunction 0 0 (fun _ => true) granted

def judgements (m : TokenServer) : List PolicyCheck × List PassphraseRequest :=
  (m.policyChecks, m.passphraseRequests)

/-- The second session's message is refused, and the server runs after it. -/
theorem judgements_overtaken :
    (run step newServer
      [.connect, .connect, sent 0 .ECreateKey, sent 1 .EListKeys, .runServer granted]).map
        judgements =
      some ([⟨some 0, 1⟩, ⟨some 0, 0⟩], [⟨some 0, some 1, true⟩]) := by
  rfl

theorem judgements_undisturbed :
    (run (guarded step Undisturbed) newServer
      [.connect, .connect, sent 0 .ECreateKey, .runServer granted]).map judgements =
      some ([⟨some 0, 0⟩, ⟨some 0, 0⟩], [⟨some 0, some 0, true⟩]) := by
  rfl

theorem judged_by_another :
    ¬ ∀ m, Reachable Started step Anything m → JudgedBySender m := by
  intro h
  obtain ⟨m, hrun, hm⟩ := Option.map_eq_some_iff.mp judgements_overtaken
  have hjudged := h m ((Reachable.start started_newServer).run hrun)
  have hchecks : m.policyChecks = [⟨some 0, 1⟩, ⟨some 0, 0⟩] := congrArg Prod.fst hm
  have hfirst := hjudged.checks ⟨some 0, 1⟩ (by rw [hchecks]; simp)
  cases hfirst

theorem judged_by_sender_creating :
    ∃ m, judgements m = ([⟨some 0, 0⟩, ⟨some 0, 0⟩], [⟨some 0, some 0, true⟩]) ∧
      JudgedBySender m := by
  obtain ⟨m, hrun, hm⟩ := Option.map_eq_some_iff.mp judgements_undisturbed
  exact ⟨m, hm, judged_by_sender (.run_guarded (.start started_newServer) hrun)⟩

end TokenServer

end OsSecurity.KeyStore

/-
What one event does to the requests, and what therefore holds in every run.

An authoriser that runs starts from settled queues and exact claims and either comes to rest,
waits, ends, or is left part of the way; what `RunL` is left with ends it too.  Each function of
`CAuthoriser` has one statement, which says what it needs and which of these it does.
-/
import OsSecurity.Ups.Disputes

namespace OsSecurity.CUpsServer

open CAuthoriser Commands List Transitions

variable {r : UInt32} {aSession : Nat}

variable {m t : CUpsServer} {x y : Nat} {a : Answers} {calm : Prop}

/-- Between events. -/
def Good (calm : Prop) (m : CUpsServer) : Prop := Settled calm m ∧ Claims none m

/-- While `x` runs. -/
def Running (x : Nat) (m : CUpsServer) : Prop := Held False x m ∧ Claims none m

/-- When `x` is left, or has a result and ends. -/
def Stopped (x : Nat) (m : CUpsServer) : Prop := Held False x m ∧ Claims (some x) m

theorem Running.stopped (h : Running x m) : Stopped x m := ⟨h.1, h.2.hold⟩

/-! ### Functions that only ask -/

theorem keeps_answer {α : Type} (r : Leaving α) : Keeps (answer r : Server α) := by
  unfold answer
  cases r with
  | ok b => exact .returns b
  | error e => exact .throws e

theorem keeps_trapd {f : Server Unit} (hf : Keeps f) : Keeps (trapd f) := by
  refine .tryCatch (.bind hf fun _ => .returns _) fun e => ?_
  cases e with
  | leave err => exact .returns err
  | panic => exact .throws _
  | undefined => exact .throws _

theorem keeps_handleDbErrorL (a : Answers) (aError : Int) : Keeps (handleDbErrorL a aError) := by
  unfold handleDbErrorL
  refine .ite (.bind (keeps_answer _) fun _ => .throws _) (.returns _)

theorem keeps_getDecisionL (a : Answers)
    (lookups : List (Leaving Unit × Leaving (Option CDecisionRecord))) :
    Keeps (getDecisionL a lookups) := by
  induction lookups with
  | nil => exact .returns none
  | cons lookup rest ih =>
      obtain ⟨setFingerprintL, found⟩ := lookup
      refine .bind (keeps_answer _) fun _ => ?_
      cases found with
      | ok found =>
        cases found with
        | none => exact ih
        | some found => exact .returns _
      | error e =>
        cases e with
        | leave err => exact .bind (keeps_handleDbErrorL a err) fun _ => ih
        | panic => exact .throws _
        | undefined => exact .throws _

theorem keeps_checkDbErrorL (a : Answers) (err : Int) : Keeps (checkDbErrorL a err) :=
  .ite (keeps_handleDbErrorL a err) (.returns _)

theorem keeps_leaveIf (c : Prop) [Decidable c] (aError : Int) : Keeps (leaveIf c aError) :=
  .ite (.throws _) (.returns _)

theorem keeps_assertAlways (c : Prop) [Decidable c] : Keeps (assertAlways c) :=
  .ite (.returns _) (.throws _)

theorem keeps_saveDecisionL (a : Answers) (options : TOptions) :
    Keeps (saveDecisionL a options) := by
  unfold saveDecisionL
  refine .ite (.bind (keeps_assertAlways _) fun _ => .bind (keeps_answer _) fun _ =>
    .bind (keeps_trapd (keeps_answer _)) fun created => .ite ?_ ?_) (.returns _)
  · exact .bind (keeps_answer _) fun _ => .bind (keeps_trapd (keeps_answer _)) fun err =>
      keeps_checkDbErrorL a err
  · exact keeps_checkDbErrorL a created

/-! ### Coming to rest -/

theorem setActive_eq (h : (m.authoriser x).request = .idle) :
    CAuthoriser.setActive x m = (.ok (), m.setAuthoriser x ({ · with request := .pending })) := by
  simp [CAuthoriser.setActive, assertAlways, update, h]

theorem Running.pending (h : Running x m) :
    Good False (m.setAuthoriser x ({ · with request := .pending })) :=
  ⟨h.1.pending, h.2.set (fun _ => rfl) (fun _ => rfl) fun _ => rfl⟩

theorem setActive_ends (h : Running x m) :
    Ends (fun _ => Good False) (fun _ => Stopped x) (CAuthoriser.setActive x m) := by
  rw [setActive_eq h.1.idle]
  exact h.pending

theorem gateKeeperL_ends (h : Running x m) (hchecks : (m.authoriser x).iState = .ECheckDatabase) :
    Ends (fun _ => Good False) (fun _ => Stopped x) (gateKeeperL x a m) := by
  unfold gateKeeperL
  rw [bind_ok (get_apply m)]
  cases hcurrent : m.iCurrentDialog with
  | some d =>
      refine (keeps_answer _).then_ends (fun _ => ?_) fun _ => h.stopped
      refine ⟨h.1.wait hchecks (by simp [hcurrent]), ?_⟩
      exact h.2.congr rfl rfl fun _ _ => Iff.rfl
  | none =>
      have hopen := h.1.open hcurrent
      have hclaims : Claims none ({ m with iCurrentDialog := some x }.setAuthoriser x
          ({ · with iState := .EPreparingDialog })) :=
        Claims.set (h.2.congr rfl rfl fun _ _ => Iff.rfl) (fun _ => rfl) (fun _ => rfl) fun _ => rfl
      have hset : ((do
          modify ({ · with iCurrentDialog := some x })
          clearedToDisplayL x a) : Server Unit) m =
          ((do answer a.createDialogCreatorL; CAuthoriser.setActive x) : Server Unit)
            ({ m with iCurrentDialog := some x }.setAuthoriser x
              ({ · with iState := .EPreparingDialog })) := by
        simp [clearedToDisplayL, hchecks, prepareDialogL, setState, update]
      change Ends _ _ (((do
          modify ({ · with iCurrentDialog := some x })
          clearedToDisplayL x a) : Server Unit) m)
      rw [hset]
      refine (keeps_answer _).then_ends (fun _ => ?_) fun _ => Running.stopped ⟨hopen, hclaims⟩
      exact setActive_ends ⟨hopen, hclaims⟩

/-! ### The end of an authoriser -/

theorem dropDispute_eq : dropDispute x m = (.ok (), m.undispute x) := by
  unfold dropDispute undispute
  rw [bind_ok (get_apply m)]
  split
  · by_cases hmem : (m.authoriser x).iPromptForcedRecordId ∈ m.iDisputed
    · have hun : trapIgnore (unDisputeRecordIdL (m.authoriser x).iPromptForcedRecordId) m =
          (.ok (), { m with
            iDisputed := m.iDisputed.erase (m.authoriser x).iPromptForcedRecordId }) :=
        trapIgnore_ok (by simp [unDisputeRecordIdL, leaveIf, hmem])
      simp [hun, update]
    · have hun : trapIgnore (unDisputeRecordIdL (m.authoriser x).iPromptForcedRecordId) m =
          (.ok (), m) := by
        have hleaves : unDisputeRecordIdL (m.authoriser x).iPromptForcedRecordId m =
            (.error (.leave KErrNotFound), m) := by simp [unDisputeRecordIdL, leaveIf, hmem]
        exact trapIgnore_leave hleaves
      simp [hun, update, erase_of_not_mem hmem]
  · rfl

/-- What a cleanup may find. -/
def Leavable (calm : Prop) (x : Nat) (m : CUpsServer) : Prop :=
  Held calm x m ∨ (calm ∧ Settled calm m) ∨ Dropped calm x m

/-- What every cleanup leaves behind. -/
structure Cleaned (calm : Prop) (x : Nat) (m t : CUpsServer) : Prop where
  dropped : Dropped calm x t
  claims : Claims (some x) t
  forced : (t.authoriser x).iPromptForced = false
  log : t.log = m.log
  requests : t.iAsyncRequests = m.iAsyncRequests
  live : t.Live x

theorem done_cleaned (h : Held calm x (m.removeFromQueues x)) (hclaims : Claims (some x) m)
    (hforced : (m.authoriser x).iPromptForced = false) :
    ∃ t, trapIgnore (authoriserDoneL x) m = (.ok (), t) ∧ Cleaned calm x m t := by
  have hclaims' : Claims (some x) (m.removeFromQueues x) :=
    hclaims.congr rfl rfl fun _ _ => Iff.rfl
  refine ⟨_, trapIgnore_ok (authoriserDoneL_eq h), h.dropDialog, hclaims'.dropDialog, ?_,
    dropDialog_log, dropDialog_iAsyncRequests, (live_dropDialog x).mpr h.live⟩
  rw [h.dropDialog_self]
  exact hforced

theorem Held.cleaned (h : Held calm x m) (hclaims : Claims (some x) m)
    (hforced : (m.authoriser x).iPromptForced = false) :
    ∃ t, trapIgnore (authoriserDoneL x) m = (.ok (), t) ∧ Cleaned calm x m t :=
  done_cleaned (by rwa [h.remove]) hclaims hforced

section

variable (h : Leavable calm x m)
include h

theorem Leavable.congr (hs : SameQueues m t) : Leavable calm x t :=
  h.imp (fun h => h.congr hs) (Or.imp (fun h => ⟨h.1, h.2.congr hs⟩) fun h => h.congr hs)

/-- Cancelling and the rest, once the dispute is dropped. -/
theorem Leavable.cleaned (hlive : m.Live x) (hclaims : Claims (some x) m)
    (hforced : (m.authoriser x).iPromptForced = false) :
    ∃ t, ((do cancel x; trapIgnore (authoriserDoneL x)) : Server Unit) m = (.ok (), t) ∧
      Cleaned calm x m t := by
  rcases h with h | ⟨hcalm, h⟩ | h
  · rw [bind_ok (cancel_idle h.idle)]
    exact h.cleaned hclaims hforced
  · by_cases hx : (m.authoriser x).request = .idle
    · rw [bind_ok (cancel_idle hx)]
      exact done_cleaned (h.remove hcalm hlive hx) hclaims hforced
    · have hself := (h.queues.hold hx).wakeNext_held
      rw [bind_ok (cancel_active h hx)]
      obtain ⟨t, hdone, hcleaned⟩ := (h.cancel hcalm hlive hx).cleaned (hclaims.wakeNext.set
        (fun _ => rfl) (fun _ => rfl) fun _ => rfl)
        (by rw [setAuthoriser_self, hself, hforced])
      refine ⟨t, hdone, hcleaned.dropped, hcleaned.claims, hcleaned.forced, ?_, ?_, hcleaned.live⟩
      · rw [hcleaned.log, setAuthoriser_log, wakeNext_log]
      · rw [hcleaned.requests, setAuthoriser_iAsyncRequests, wakeNext_iAsyncRequests]
  · rw [bind_ok (cancel_idle h.idle)]
    exact ⟨m, trapIgnore_ok (authoriserDoneL_dropped h), h, hclaims, hforced, rfl, rfl, hlive⟩

theorem doCleanup_cleaned (hlive : m.Live x) (hclaims : Claims (some x) m) :
    ∃ t, doCleanup x m = (.ok (), t) ∧ Cleaned calm x m t := by
  obtain ⟨t, hdone, hcleaned⟩ := (h.congr sameQueues_undispute).cleaned
    ((live_undispute x).mpr hlive) (hclaims.undispute hlive) undispute_forced
  refine ⟨t, ?_, hcleaned.dropped, hcleaned.claims, hcleaned.forced, ?_, ?_, hcleaned.live⟩
  · unfold doCleanup
    rw [bind_ok dropDispute_eq, hdone]
  · rw [hcleaned.log, undispute_log]
  · rw [hcleaned.requests, undispute_iAsyncRequests]

/-- Nothing of the request is left, once the log says that it ended. -/
theorem markForDeletion_good (hlive : m.Live x) (hclaims : Claims (some x) m)
    (hended : ∀ r, ¬Outstanding m.log x r) :
    ∃ t, markForDeletion x m = (.ok (), t) ∧ Good calm t ∧
      t.iAsyncRequests = m.iAsyncRequests := by
  obtain ⟨t, hdone, hcleaned⟩ := doCleanup_cleaned h hlive hclaims
  refine ⟨_, bind_ok hdone, ⟨hcleaned.dropped.retire, ?_⟩, hcleaned.requests⟩
  exact hcleaned.claims.retire hcleaned.forced (hcleaned.log ▸ hended)

end

theorem not_outstanding_ended (aError : Option Int) (r : UInt32) (log : List Action) :
    ¬Outstanding (.ended x aError :: log) x r := by
  intro h
  rcases outstanding_cons.mp h with hc | ⟨-, hne, -⟩
  · cases hc
  · exact hne aError rfl

theorem sameQueues_wrote (act : Action) : SameQueues m (m.wrote act) :=
  ⟨fun _ => Iff.rfl, fun _ => rfl, fun _ => rfl, fun _ => rfl, rfl, rfl, rfl⟩

theorem completeAndMarkForDeletion_good (h : Leavable calm x m) (hlive : m.Live x)
    (hclaims : Claims (some x) m) (aError : Int) :
    ∃ t, completeAndMarkForDeletion x aError m = (.ok (), t) ∧ Good calm t ∧
      t.iAsyncRequests = m.iAsyncRequests :=
  markForDeletion_good (m := m.wrote (.ended x (some aError))) (h.congr (sameQueues_wrote _)) hlive
    (hclaims.note nofun nofun) fun r => not_outstanding_ended _ r _

/-! ### What each function of an authoriser needs and does -/

/-- A function ends well when it lets `x` rest or end, or is left with `x` stopped. -/
abbrev EndsWell (x : Nat) {α : Type} (r : Except Exit α × CUpsServer) : Prop :=
  Ends (fun _ => Good False) (fun _ => Stopped x) r

theorem Stopped.complete (h : Stopped x m) (aError : Int) :
    EndsWell x (completeAndMarkForDeletion x aError m) := by
  have hleavable : Leavable False x m := Or.inl h.1
  obtain ⟨t, hdone, hgood, -⟩ :=
    completeAndMarkForDeletion_good hleavable h.1.live h.2 aError
  rw [hdone]
  exact hgood

theorem respondL_ends (h : Stopped x m) {aRecordId : Option UInt32} (aOptions : TOptions)
    (hserved : ∀ r, aRecordId = some r → ∀ y, ¬Outstanding m.log y r) :
    EndsWell x (respondL x a aRecordId aOptions m) := by
  unfold respondL
  rw [bind_ok (get_apply m)]
  refine (keeps_answer _).then_ends (fun _ => ?_) fun _ => h
  refine Stopped.complete (m := m.wrote _) ⟨h.1.congr (sameQueues_wrote _), ?_⟩ KErrNone
  refine h.2.note nofun ?_
  intro y r d hact
  cases hact
  exact hserved r rfl

theorem createFingerprintsL_ends (h : Running x m)
    (hpolicy : (m.authoriser x).iState = .ECheckPolicy) :
    EndsWell x (createFingerprintsL x a m) := by
  have hset : Running x (m.setAuthoriser x ({ · with iState := .ECreatingFingerprints })) :=
    ⟨h.1.set (fun _ => rfl) (fun _ => rfl) (by simp [InDialog, hpolicy]), h.2.set (fun _ => rfl) (fun _ => rfl) fun _ => rfl⟩
  unfold createFingerprintsL
  refine Ends.bind (Q := fun _ => Running x) hset fun _ t ht => ?_
  exact (keeps_answer _).then_ends (fun _ => setActive_ends ht) fun _ => ht.stopped

theorem lookupPolicyL_ends (h : Running x m) (hpolicy : (m.authoriser x).iState = .ECheckPolicy) :
    EndsWell x (lookupPolicyL x a m) := by
  unfold lookupPolicyL
  refine (keeps_answer _).then_ends (fun iPolicy => ?_) fun _ => h.stopped
  have hset : Running x (m.setAuthoriser x ({ · with iPolicy := iPolicy })) :=
    ⟨h.1.set (fun _ => rfl) (fun _ => rfl) Iff.rfl, h.2.set (fun _ => rfl) (fun _ => rfl) fun _ => rfl⟩
  have hstate : ((m.setAuthoriser x ({ · with iPolicy := iPolicy })).authoriser x).iState =
      .ECheckPolicy := by simpa using hpolicy
  refine Ends.bind (Q := fun _ t => t = m.setAuthoriser x ({ · with iPolicy := iPolicy }))
    rfl fun _ t ht => ?_
  rw [ht]
  split
  · exact createFingerprintsL_ends hset hstate
  · exact respondL_ends hset.stopped _ nofun

/-- While `x` looks records up. -/
structure LooksUp (x : Nat) (m : CUpsServer) : Prop where
  running : Running x m
  checks : (m.authoriser x).iState = .ECheckDatabase

/-- An update of other members than these. -/
structure Aside (f : CAuthoriser → CAuthoriser) : Prop where
  session : ∀ a, (f a).iSession = a.iSession
  request : ∀ a, (f a).request = a.request
  state : ∀ a, (f a).iState = a.iState
  forced : ∀ a, (f a).iPromptForced = a.iPromptForced
  id : ∀ a, (f a).iPromptForcedRecordId = a.iPromptForcedRecordId

theorem aside (aEvaluatorInfo : UInt32) :
    Aside ({ · with iDialogEvaluatorInfo := aEvaluatorInfo }) :=
  ⟨fun _ => rfl, fun _ => rfl, fun _ => rfl, fun _ => rfl, fun _ => rfl⟩

theorem LooksUp.set (h : LooksUp x m) {f : CAuthoriser → CAuthoriser} (hf : Aside f) :
    LooksUp x (m.setAuthoriser x f) := by
  refine ⟨⟨h.running.1.set hf.session hf.request ?_, h.running.2.set hf.session hf.forced hf.id⟩,
    ?_⟩
  · rw [hf.state]
  · rw [setAuthoriser_self, hf.state, h.checks]

/-- A record that nobody disputes, found by an authoriser that disputes none. -/
structure Undisputed (x : Nat) (r : UInt32) (m : CUpsServer) : Prop extends LooksUp x m where
  free : r ∉ m.iDisputed
  unforced : (m.authoriser x).iPromptForced = false

theorem leaveForcedRecordL_ends (h : LooksUp x m) (hr : r ∉ m.iDisputed) :
    Ends (fun _ => Undisputed x r) (fun _ => Stopped x) (leaveForcedRecordL x r m) := by
  have hlive := h.running.1.live
  have hown (hforced : (m.authoriser x).iPromptForced = true) :
      (m.authoriser x).iPromptForcedRecordId ∈ m.iDisputed :=
    h.running.2.complete x _ ⟨hlive, hforced, rfl⟩ (by simp)
  unfold leaveForcedRecordL
  rw [bind_ok (get_apply m)]
  split
  · rename_i hmoved
    obtain ⟨hforced, -⟩ := hmoved
    have hstate : ((do
        note (.matchedAnother x (m.authoriser x).iPromptForcedRecordId)
        update x ({ · with iPromptForced := false })
        unDisputeRecordIdL (m.authoriser x).iPromptForcedRecordId) : Server Unit) m =
        (.ok (), (m.wrote (.matchedAnother x (m.authoriser x).iPromptForcedRecordId)).undispute x) := by
      simp [note, update, unDisputeRecordIdL, leaveIf, undispute, wrote, hforced, hown hforced,
        setAuthoriser]
    rw [hstate]
    refine ⟨⟨⟨?_, h.running.2.leaveRecord hlive⟩, ?_⟩, ?_, undispute_forced⟩
    · exact (h.running.1.congr (sameQueues_wrote _)).congr sameQueues_undispute
    · rw [sameQueues_undispute.iState]
      exact h.checks
    · intro hmem
      have hclaims : Claims none
          (m.wrote (.matchedAnother x (m.authoriser x).iPromptForcedRecordId)) :=
        h.running.2.note (by simp) (by simp)
      exact hr ((mem_undispute hclaims hlive).mp hmem).1
  · rename_i hstays
    refine ⟨h, hr, Bool.eq_false_iff.mpr fun hforced => ?_⟩
    refine hstays ⟨hforced, fun hc => hr ?_⟩
    rw [hc]
    exact hown hforced

theorem Undisputed.set (h : Undisputed x r m) {f : CAuthoriser → CAuthoriser} (hf : Aside f) :
    Undisputed x r (m.setAuthoriser x f) :=
  ⟨h.toLooksUp.set hf, h.free, by rw [setAuthoriser_self, hf.forced, h.unforced]⟩

theorem promptForcedL_ends (h : Undisputed x r m) (forcePrompt : Bool) :
    Ends (fun _ t => LooksUp x t ∧ (forcePrompt = false → Undisputed x r t))
      (fun _ => Stopped x) (promptForcedL x a r forcePrompt m) := by
  unfold promptForcedL
  split
  · rename_i hforce
    obtain ⟨hbefore, hafter⟩ := h.running.2.force h.running.1.live h.unforced h.free
    have hheld : Held False x (m.forcedBy x r) :=
      (h.running.1.congr (sameQueues_wrote _)).set (fun _ => rfl) (fun _ => rfl) Iff.rfl
    have hchecks : ((m.forcedBy x r).authoriser x).iState = .ECheckDatabase := by
      simpa [forcedBy, wrote] using h.checks
    have hfree : r ∉ (m.forcedBy x r).iDisputed := h.free
    have hstate : ((do
        note (.forced x r)
        update x ({ · with iPromptForced := true, iPromptForcedRecordId := r })
        disputeRecordIdL r a) : Server Unit) m = disputeRecordIdL r a (m.forcedBy x r) := rfl
    rw [hstate]
    unfold disputeRecordIdL
    rw [bind_ok (get_apply _)]
    refine (keeps_leaveIf _ _).then_ends (fun _ => ?_) fun _ => ⟨hheld, hbefore⟩
    refine (keeps_answer _).then_ends (fun _ => ?_) fun _ => ⟨hheld, hbefore⟩
    refine ⟨⟨⟨hheld.congr ?_, hafter⟩, hchecks⟩, fun hc => ?_⟩
    · exact ⟨fun _ => Iff.rfl, fun _ => rfl, fun _ => rfl, fun _ => rfl, rfl, rfl, rfl⟩
    · rw [hc] at hforce
      cases hforce
  · exact ⟨h.toLooksUp, fun _ => h⟩

theorem updateEvaluatorInfoL_ends {asked : Bool × UInt32} (h : LooksUp x m)
    (hfree : asked.1 = false → Undisputed x r m) :
    Ends (fun _ t => LooksUp x t ∧ (asked.1 = false → Undisputed x r t))
      (fun _ => Stopped x) (updateEvaluatorInfoL x a asked m) := by
  unfold updateEvaluatorInfoL
  rw [bind_ok (get_apply m)]
  split
  · refine Ends.bind (Q := fun _ t => LooksUp x t ∧ (asked.1 = false → Undisputed x r t))
      ⟨h.set (aside _), fun hc => (hfree hc).set (aside _)⟩ fun _ t ht => ?_
    have hstopped := ht.1.running.stopped
    split
    · refine Ends.mono (Keeps.bind (keeps_trapd (keeps_answer _))
        (fun err => keeps_checkDbErrorL a err) t) (fun _ s hs => ?_) fun _ s hs => ?_
      · rw [hs]
        exact ht
      · rw [hs]
        exact hstopped
    · exact ht
  · exact ⟨h, hfree⟩

theorem matchedRecordL_ends (h : LooksUp x m) (found : CDecisionRecord) :
    EndsWell x (matchedRecordL x a found m) := by
  unfold matchedRecordL
  refine Ends.bind (Q := fun _ => LooksUp x) (h.set (aside _)) fun _ t ht => ?_
  rw [bind_ok (get_apply t)]
  split
  · exact gateKeeperL_ends ht.running ht.checks
  · rename_i hfree
    have hfree : found.iRecordId ∉ t.iDisputed := by simpa [isRecordIdDisputed] using hfree
    refine Ends.bind (leaveForcedRecordL_ends ht hfree) fun _ s hs => ?_
    rw [bind_ok (get_apply s)]
    refine (keeps_answer _).then_ends (fun asked => ?_) fun _ => hs.running.stopped
    refine Ends.bind (promptForcedL_ends hs asked.1) fun _ u hu => ?_
    refine Ends.bind (updateEvaluatorInfoL_ends hu.1 hu.2) fun _ v hv => ?_
    split
    · exact gateKeeperL_ends hv.1.running hv.1.checks
    · rename_i hnot
      have hund := hv.2 (Bool.eq_false_iff.mpr hnot)
      refine respondL_ends hund.running.stopped _ fun r hr => ?_
      rw [← Option.some.inj hr]
      exact hund.running.2.not_outstanding hund.free

section

variable (h : Running x m)
include h

theorem lookupFingerprintsL_ends (hin : ¬InDialog (m.authoriser x).iState) :
    EndsWell x (lookupFingerprintsL x a m) := by
  unfold lookupFingerprintsL
  refine Ends.bind (Q := fun _ => LooksUp x) ?_ fun _ t ht => ?_
  · refine ⟨⟨h.1.set (fun _ => rfl) (fun _ => rfl) ?_, h.2.set (fun _ => rfl) (fun _ => rfl) fun _ => rfl⟩, by simp⟩
    simp [InDialog] at hin ⊢
    exact hin
  · refine (keeps_answer _).then_ends (fun _ => ?_) fun _ => ht.running.stopped
    refine (keeps_getDecisionL a _).then_ends (fun found => ?_) fun _ => ht.running.stopped
    cases found with
    | some found => exact matchedRecordL_ends ht found
    | none => exact gateKeeperL_ends ht.running ht.checks

theorem executeDialogL_ends (hprepares : (m.authoriser x).iState = .EPreparingDialog) :
    EndsWell x (executeDialogL x m) := by
  have hset : Running x (m.setAuthoriser x ({ · with iState := .EExecutingDialog })) :=
    ⟨h.1.set (fun _ => rfl) (fun _ => rfl) (by simp [InDialog, hprepares]), h.2.set (fun _ => rfl) (fun _ => rfl) fun _ => rfl⟩
  exact setActive_ends hset

theorem removeForcedRecordL_ends :
    Ends (fun _ => Stopped x) (fun _ => Stopped x) (removeForcedRecordL x a m) := by
  unfold removeForcedRecordL
  rw [bind_ok (get_apply m)]
  split
  · rename_i hforced
    refine (keeps_answer _).then_ends (fun _ => ?_) fun _ => h.stopped
    refine (keeps_trapd (keeps_answer _)).then_ends (fun err => ?_) fun _ => h.stopped
    refine (keeps_checkDbErrorL a err).then_ends (fun _ => ?_) fun _ => h.stopped
    have hmem := h.2.complete x _ ⟨h.1.live, hforced, rfl⟩ (by simp)
    have hstate : ((do
        update x ({ · with iPromptForced := false })
        unDisputeRecordIdL (m.authoriser x).iPromptForcedRecordId) : Server Unit) m =
        (.ok (), m.undispute x) := by
      simp [update, unDisputeRecordIdL, leaveIf, undispute, hforced, hmem, setAuthoriser]
    rw [hstate]
    exact ⟨h.1.congr sameQueues_undispute, h.2.hold.undispute h.1.live⟩
  · exact h.stopped

theorem processDialogResultL_ends : EndsWell x (processDialogResultL x a m) := by
  unfold processDialogResultL
  refine Ends.bind (removeForcedRecordL_ends h) fun _ t ht => ?_
  rw [bind_ok (get_apply t)]
  refine (keeps_saveDecisionL a _).then_ends (fun _ => ?_) fun _ => ht
  exact respondL_ends ht _ nofun

theorem processInternalRequestL_ends : EndsWell x (processInternalRequestL x a m) := by
  unfold processInternalRequestL
  rw [bind_ok (get_apply m)]
  cases hstate : (m.authoriser x).iState with
  | ECheckPolicy => exact lookupPolicyL_ends h hstate
  | ECreatingFingerprints => exact lookupFingerprintsL_ends h (by simp [InDialog, hstate])
  | ECheckDatabase => exact lookupFingerprintsL_ends h (by simp [InDialog, hstate])
  | EPreparingDialog => exact executeDialogL_ends h hstate
  | EExecutingDialog => exact processDialogResultL_ends h

end

theorem runL_ends {iStatus : Int} (hqueues : Queued (some x) m) (h : Running x m.wakeNext) :
    EndsWell x (runL x a iStatus m) := by
  unfold runL
  rw [bind_ok (wakeupNextPendingL_eq hqueues)]
  have hset : Running x (m.wakeNext.setAuthoriser x ({ · with iPriority := .EPriorityStandard })) :=
    ⟨h.1.set (fun _ => rfl) (fun _ => rfl) Iff.rfl, h.2.set (fun _ => rfl) (fun _ => rfl) fun _ => rfl⟩
  refine Ends.bind (Q := fun _ => Running x) hset fun _ t ht => ?_
  refine (keeps_leaveIf _ _).then_ends (fun _ => ?_) fun _ => ht.stopped
  exact processInternalRequestL_ends ht

/-! ### What an event needs and does -/

/-- The ways an event may end: settled, or with the thread. -/
abbrev Handled (calm : Prop) {α : Type} (r : Except Exit α × CUpsServer) : Prop :=
  Ends (fun _ => Good calm) (fun e t => ∀ aError, e = .leave aError → Good calm t) r

/-- An authoriser that was woken, or one that runs while nobody is. -/
theorem schedule_handled (h : Good False m) (hlive : m.Live x)
    (hactive : (m.authoriser x).request ≠ .idle) (hfirst : m.Woken x ∨ ∀ y, ¬m.Woken y) :
    Handled False (CAuthoriser.schedule x a m) := by
  have hcalm : False ∨ m.iCurrentDialog = some x → m.Calm := by
    intro hc
    have hcurrent := h.1.queues.current x (hc.resolve_left id) (by simp)
    rcases hfirst with hwoken | hnone
    · have hpending := hcurrent.2.2
      rw [hwoken.2.1] at hpending
      cases hpending
    · refine Or.inl (by_contra fun hne => ?_)
      obtain ⟨j, hj, -⟩ := h.1.chained hne
      exact hnone j hj
  have hclaims : Claims none (m.setAuthoriser x ({ · with request := .idle })) :=
    h.2.set (fun _ => rfl) (fun _ => rfl) fun _ => rfl
  have hrunning : Running x (m.setAuthoriser x ({ · with request := .idle })).wakeNext :=
    ⟨h.1.queues.begin hlive hactive hcalm, hclaims.wakeNext⟩
  have hqueues : Queued (some x) (m.setAuthoriser x ({ · with request := .idle })) :=
    (h.1.queues.hold hactive).setHeld fun _ => rfl
  unfold CAuthoriser.schedule
  rw [bind_ok (get_apply m)]
  refine Ends.tryCatch (runL_ends hqueues hrunning) fun e t ht => ?_
  cases e with
  | leave aError =>
      have hleavable : Leavable False x t := Or.inl ht.1
      obtain ⟨s, hdone, hgood, -⟩ :=
        completeAndMarkForDeletion_good hleavable ht.1.live ht.2 aError
      change Handled False (completeAndMarkForDeletion x aError t)
      rw [hdone]
      exact hgood
  | panic => exact nofun
  | undefined => exact nofun

theorem sameQueues_removeCompletedRequests : SameQueues m m.removeCompletedRequests := by
  refine ⟨fun j => ?_, fun _ => rfl, fun _ => rfl, fun _ => rfl, rfl, rfl, rfl⟩
  simp only [Live, removeCompletedRequests, mem_filter, Option.isSome_iff_ne_none]
  exact ⟨fun h => ⟨h.1.1, h.2⟩, fun h => ⟨h, h.2⟩⟩

theorem Good.removeCompletedRequests (h : Good calm m) : Good calm m.removeCompletedRequests := by
  have hs := sameQueues_removeCompletedRequests (m := m)
  refine ⟨h.1.congr hs, h.2.congr rfl rfl fun j r => ?_⟩
  unfold Disputes
  rw [hs.live]
  rfl

/-- An object that the framework did not hold, and that is new if it holds it now. -/
theorem Good.enter (h : Good calm m) (hx : x ∉ m.iAsyncRequests)
    (hlist : ∀ j, j ≠ x → (j ∈ t.iAsyncRequests ↔ j ∈ m.iAsyncRequests))
    (hother : ∀ j, j ≠ x → t.authoriser j = m.authoriser j)
    (hnew : t.Live x → (t.authoriser x).request = .completed ∧
      (t.authoriser x).iState = .ECheckPolicy ∧ (t.authoriser x).iPromptForced = false)
    (hcurrent : t.iCurrentDialog = m.iCurrentDialog) (hqueue : t.iFlurryQueue = m.iFlurryQueue)
    (hprocessed : t.iFlurryQueueBeingProcessed = m.iFlurryQueueBeingProcessed)
    (hdisputed : t.iDisputed = m.iDisputed) (hlog : t.log = m.log) : Good calm t := by
  have hlive {j : Nat} (hj : j ≠ x) : t.Live j ↔ m.Live j := by
    unfold Live
    rw [hlist j hj, hother j hj]
  have hne {j : Nat} (hj : m.Live j) : j ≠ x := fun hc => hx (hc ▸ hj.1)
  have hqueued : t.queued = m.queued := by
    unfold queued
    rw [hqueue, hprocessed]
  refine ⟨⟨⟨hqueued ▸ h.1.queues.once, ?_, ?_, ?_, ?_, ?_⟩, ?_, ?_⟩,
    h.2.congr hdisputed hlog fun j r => ?_⟩
  · intro j hj
    have hw := h.1.queues.waits j (hqueued ▸ hj)
    rw [hlive (hne hw.1), hother j (hne hw.1)]
    exact hw
  · intro j hj hidle hheld
    by_cases hjx : j = x
    · subst hjx
      rw [(hnew hj).1] at hidle
      cases hidle
    · rw [hother j hjx] at hidle
      rw [hqueued]
      exact h.1.queues.waiting j ((hlive hjx).mp hj) hidle hheld
  · intro j hj hin hheld
    by_cases hjx : j = x
    · subst hjx
      simp [InDialog, (hnew hj).2.1] at hin
    · rw [hother j hjx] at hin
      rw [hcurrent]
      exact h.1.queues.dialog j ((hlive hjx).mp hj) hin hheld
  · intro j hj hheld
    have hc := h.1.queues.current j (hcurrent ▸ hj) hheld
    rw [hlive (hne hc.1), hother j (hne hc.1)]
    exact hc
  · intro hc
    rw [hqueue]
    exact h.1.queues.still (hcurrent ▸ hc)
  · intro hc
    obtain ⟨j, hwoken, hheld⟩ := h.1.chained (hprocessed ▸ hc)
    refine ⟨j, ?_, hheld⟩
    unfold Woken
    rw [hlive (hne hwoken.1), hother j (hne hwoken.1)]
    exact hwoken
  · intro hc
    unfold Calm
    rw [hqueue, hprocessed]
    exact h.1.calm hc
  · by_cases hjx : j = x
    · subst hjx
      constructor
      · intro hd
        have hforced := hd.2.1
        rw [(hnew hd.1).2.2] at hforced
        cases hforced
      · exact fun hd => absurd hd.1.1 hx
    · unfold Disputes
      rw [hlive hjx, hother j hjx]

theorem addAsyncRequestL_ends (append : Leaving Unit) :
    Ends (fun _ t => t = { m with iAsyncRequests := m.iAsyncRequests ++ [x] })
      (fun _ t => t = m) (addAsyncRequestL x append m) := by
  unfold addAsyncRequestL
  rw [bind_ok (get_apply m)]
  refine (keeps_leaveIf _ _).then_ends (fun _ => ?_) fun _ => rfl
  exact (keeps_answer _).then_ends (fun _ => rfl) fun _ => rfl

theorem executePromptL_handled {aSubsession : Nat} {construct append : Leaving Unit}
    (h : Good calm m) (hx : x ∉ m.iAsyncRequests) :
    Handled calm (executePromptL x aSession aSubsession construct append m) := by
  unfold executePromptL
  refine (keeps_answer _).then_ends (fun _ => ?_) fun _ _ _ => h
  let new : CAuthoriser :=
    { iSession := some aSession, iSubsession := aSubsession, iFunction := KExecutePrompt }
  have hother (j : Nat) (hj : j ≠ x) : (m.setAuthoriser x fun _ => new).authoriser j =
      m.authoriser j := setAuthoriser_other hj
  refine Ends.bind (Q := fun _ t => t = m.setAuthoriser x fun _ => new) rfl fun _ t ht => ?_
  rw [ht]
  refine Ends.bind ((addAsyncRequestL_ends append).mono (fun _ _ h => h) ?_) ?_
  · intro e s hs _ _
    rw [hs]
    exact h.enter hx (fun _ _ => Iff.rfl) hother (fun hlive => absurd hlive.1 hx) rfl rfl rfl rfl rfl
  · intro _ s hs
    rw [wakeup_eq (by rw [hs]; simp [new]) (by rw [hs]; simp [new]), hs]
    refine h.enter hx (fun j hj => ?_) (fun j hj => ?_) (fun _ => ?_) rfl rfl rfl rfl rfl
    · simp [hj]
    · rw [setAuthoriser_other hj]
      exact hother j hj
    · simp [new]

theorem cancelAsyncRequest_handled {aSubsession : Nat} {aFunction : Int} (h : Good True m) :
    Handled True (cancelAsyncRequest aSession aSubsession aFunction m) := by
  unfold cancelAsyncRequest
  rw [bind_ok (get_apply m)]
  cases hfind : m.findAsyncRequest aSession aSubsession aFunction with
  | none => exact h
  | some x =>
    have hmem := mem_of_find?_eq_some hfind
    have hmatch := find?_some hfind
    simp only [decide_eq_true_eq, mem_reverse] at hmatch hmem
    have hlive : m.Live x := ⟨hmem, by rw [hmatch.1]; simp⟩
    obtain ⟨t, hdone, hgood, -⟩ := completeAndMarkForDeletion_good
      (Or.inr (Or.inl ⟨trivial, h.1⟩)) hlive h.2.hold KErrCancel
    change Handled True (completeAndMarkForDeletion x KErrCancel m)
    rw [hdone]
    exact hgood

theorem cancelOutstandingRequest_good (aSession : Nat) (aSubsession : Option Nat)
    (aCompleteClientRequests : Bool) (h : Good True m) (hx : x ∈ m.iAsyncRequests) :
    ∃ t, cancelOutstandingRequest aSession aSubsession aCompleteClientRequests x m =
      (.ok (), t) ∧ Good True t ∧ t.iAsyncRequests = m.iAsyncRequests := by
  unfold cancelOutstandingRequest
  rw [bind_ok (get_apply m)]
  split
  · rename_i hmatch
    have hlive : m.Live x := ⟨hx, by rw [hmatch.1]; simp⟩
    have hleavable : Leavable True x m := Or.inr (Or.inl ⟨trivial, h.1⟩)
    split
    · exact completeAndMarkForDeletion_good hleavable hlive h.2.hold KErrCancel
    · obtain ⟨u, hdone, hcleaned⟩ := doCleanup_cleaned hleavable hlive h.2.hold
      have hdropped : Dropped True x (u.wrote (.ended x none)) :=
        hcleaned.dropped.congr (sameQueues_wrote _)
      obtain ⟨t, hmark, hgood, hlist⟩ := markForDeletion_good (Or.inr (Or.inr hdropped))
        hcleaned.live (hcleaned.claims.note nofun nofun)
        fun r => not_outstanding_ended none r u.log
      refine ⟨t, ?_, hgood, hlist.trans hcleaned.requests⟩
      rw [bind_ok hdone]
      exact hmark
  · exact ⟨m, rfl, h, rfl⟩

theorem cancelOutstandingRequests_good {aSubsession : Option Nat} {aCompleteClientRequests : Bool}
    (requests : List Nat) (h : Good True m) (hmem : ∀ x ∈ requests, x ∈ m.iAsyncRequests) :
    Handled True (cancelOutstandingRequests aSession aSubsession aCompleteClientRequests
      requests m) := by
  induction requests generalizing m with
  | nil => exact h
  | cons x rest ih =>
      obtain ⟨t, hdone, hgood, hlist⟩ := cancelOutstandingRequest_good aSession aSubsession
        aCompleteClientRequests h (hmem x (by simp))
      unfold cancelOutstandingRequests
      rw [bind_ok hdone]
      refine ih hgood fun y hy => ?_
      rw [hlist]
      exact hmem y (by simp [hy])

theorem Good.calm_of_none (h : Good False m) (hnone : ∀ y, ¬m.Woken y) : Good True m := by
  refine ⟨⟨h.1.queues, h.1.chained, fun _ => Or.inl (by_contra fun hne => ?_)⟩, h.2⟩
  obtain ⟨j, hj, -⟩ := h.1.chained hne
  exact hnone j hj

theorem Handled.weaken {calm : Prop} {α : Type} {r : Except Exit α × CUpsServer}
    (h : Handled calm r) : Handled False r := by
  have hgood {t : CUpsServer} (ht : Good calm t) : Good False t :=
    ⟨⟨ht.1.queues, ht.1.chained, False.elim⟩, ht.2⟩
  exact h.mono (fun _ _ ht => hgood ht) fun _ _ ht aError he => hgood (ht aError he)

theorem none_woken (h : ∀ y ∈ m.iAsyncRequests, ¬m.Woken y) (y : Nat) : ¬m.Woken y :=
  fun hy => h y hy.1.1 hy

theorem cancelAll_handled {aSubsession : Option Nat} {aCompleteClientRequests : Bool}
    (h : Good False m) (hnone : ∀ y ∈ m.iAsyncRequests, ¬m.Woken y) :
    Handled False (cancelOutstandingRequests aSession aSubsession aCompleteClientRequests
      m.iAsyncRequests.reverse m) :=
  (cancelOutstandingRequests_good _ (h.calm_of_none (none_woken hnone)) fun _ =>
    mem_reverse.mp).weaken

theorem handle_handled {event : Event} (h : Good False m) (henabled : m.enabled event = true) :
    Handled False (handle event m) := by
  cases event with
  | executePrompt x aSession aSubsession construct append =>
      simp only [enabled, decide_eq_true_eq] at henabled
      exact executePromptL_handled h henabled.1
  | schedule x a =>
      simp only [enabled, decide_eq_true_eq] at henabled
      obtain ⟨hlive, hactive, hfirst⟩ := henabled
      exact schedule_handled h hlive hactive (hfirst.imp_right none_woken)
  | cancel aSession aSubsession aFunction =>
      simp only [enabled, decide_eq_true_eq] at henabled
      exact (cancelAsyncRequest_handled (h.calm_of_none (none_woken henabled))).weaken
  | closeSubsession aSession aSubsession =>
      simp only [enabled, decide_eq_true_eq] at henabled
      exact cancelAll_handled h henabled
  | preCloseSession aSession =>
      simp only [enabled, decide_eq_true_eq] at henabled
      exact cancelAll_handled h henabled
  | deleteSession aSession =>
      simp only [enabled, decide_eq_true_eq] at henabled
      exact cancelAll_handled h henabled

/-- **One event keeps the queues and the claims.** -/
theorem step_good {event : Event} (h : Good False m) (hstep : step m event = some t) :
    Good False t := by
  unfold step at hstep
  split at hstep
  · rename_i henabled
    have hhandled := handle_handled h henabled
    rcases hend : handle event m with ⟨r, s⟩
    rw [hend] at hstep hhandled
    cases r with
    | ok u =>
      cases hstep
      exact Good.removeCompletedRequests hhandled
    | error e =>
      cases e with
      | leave aError =>
        cases hstep
        exact Good.removeCompletedRequests (hhandled aError rfl)
      | panic => cases hstep
      | undefined => cases hstep
  · cases hstep

theorem started_good (h : started m) : Good False m := by
  cases h
  refine ⟨⟨⟨nodup_nil, nofun, ?_, ?_, nofun, fun _ => rfl⟩, fun hne => absurd rfl hne,
    False.elim⟩, ⟨nodup_nil, nofun, ?_, ?_, ?_, unserved_nil⟩⟩
  · exact fun j hlive => nomatch hlive.1
  · exact fun j hlive => nomatch hlive.1
  · exact fun j r hj => nomatch hj.1.1
  · exact fun j k r hj => nomatch hj.1.1
  · exact fun j r hj => absurd hj outstanding_nil

theorem reachable_good (h : Reachable started step Anything m) : Good False m :=
  h.invariant (fun _ => started_good) fun _ _ _ hgood _ => step_good hgood

/-! ### Runs -/

/-- A request that waits for its turn to show a dialog. -/
def Waiting (m : CUpsServer) (x : Nat) : Prop :=
  m.Live x ∧ (m.authoriser x).request = .idle

/-- **The gate keeper loses no request.** -/
theorem gateKeeper_loses_none (h : Reachable started step Anything m) :
    (∀ x y, m.Live x → InDialog (m.authoriser x).iState → m.Live y →
      InDialog (m.authoriser y).iState → x = y) ∧
    (∀ x, m.Waiting x →
      m.iFlurryQueue.count x + m.iFlurryQueueBeingProcessed.count x = 1) ∧
    (m.iCurrentDialog = none → (∀ x, ¬m.Woken x) →
      m.iFlurryQueue = [] ∧ m.iFlurryQueueBeingProcessed = []) := by
  obtain ⟨⟨hqueues, hchained, -⟩, -⟩ := reachable_good h
  refine ⟨?_, ?_, ?_⟩
  · intro x y hx hinx hy hiny
    have hcurrent := hqueues.dialog x hx hinx (by simp)
    rw [hqueues.dialog y hy hiny (by simp)] at hcurrent
    exact (Option.some.inj hcurrent).symm
  · intro x hx
    have hmem := hqueues.waiting x hx.1 hx.2 (by simp)
    rw [← count_append]
    exact count_eq_one_of_mem hqueues.once hmem
  · intro hcurrent hnone
    refine ⟨hqueues.still hcurrent, by_contra fun hne => ?_⟩
    obtain ⟨j, hj, -⟩ := hchained hne
    exact hnone j hj

/-- Everything is granted, no record is found, and the user says yes this once. -/
def willing : Answers where
  iStatus := KErrNone
  matchL := .ok ⟨CPolicy.EYes ||| CPolicy.ENo⟩
  writeL := .ok ()
  createEvaluatorL := .ok ()
  newFilter := .ok ()
  lookups := []
  deleteDatabaseL := .ok ()
  forcePromptL found _ := .ok (true, found.iEvaluatorInfo)
  insertDisputed := .ok ()
  updateDecisionL := .ok ()
  pushL := .ok ()
  createDialogCreatorL := .ok ()
  removeDecisionsL := .ok ()
  iDialogSelectedOption := CPolicy.EYes
  iDialogFingerprint := true
  newRecord := .ok ()
  createDecisionL := .ok ()
  newUpdateFilter := .ok ()

/-- The first fingerprint matches a record, over which the evaluator wants a prompt. -/
def finding (aRecordId : UInt32) : Answers :=
  { willing with lookups := [(.ok (), .ok (some ⟨aRecordId, 1, 0⟩))] }

/-- A request, up to where its fingerprints are known. -/
def asks (x : Nat) : List Event :=
  [.executePrompt x 0 x (.ok ()) (.ok ()), .schedule x willing]

theorem gateKeeper_loses_none_waiting :
    ∃ m, Reachable started step Anything m ∧ m.Waiting 1 ∧ m.iCurrentDialog = some 0 ∧
      m.iFlurryQueue.count 1 + m.iFlurryQueueBeingProcessed.count 1 = 1 := by
  have hrun : (run step {} (asks 0 ++ [Event.schedule 0 willing] ++ asks 1 ++
      [Event.schedule 1 willing])).map (fun m => (decide (m.Live 1), (m.authoriser 1).request,
        m.iCurrentDialog)) = some (true, .idle, some 0) := rfl
  obtain ⟨m, hm, hobs⟩ := Option.map_eq_some_iff.mp hrun
  simp only [Prod.mk.injEq, decide_eq_true_eq] at hobs
  have hreach : Reachable started step Anything m := Reachable.run (.start rfl) hm
  exact ⟨m, hreach, ⟨hobs.1, hobs.2.1⟩, hobs.2.2,
    (gateKeeper_loses_none hreach).2.1 1 ⟨hobs.1, hobs.2.1⟩⟩

/-- **Disputes are what the live authorisers have forced, and hold until they are given up.** -/
theorem disputes_kept (h : Reachable started step Anything m) :
    (∀ r, r ∈ m.iDisputed ↔ ∃ x, m.Disputes x r) ∧ m.iDisputed.Nodup ∧
    (∀ x y r, m.Disputes x r → m.Disputes y r → x = y) ∧
    ∀ x y r d later between earlier,
      m.log = later ++ Action.answered y (some r) d :: (between ++ Action.forced x r :: earlier) →
        (∃ e, Action.ended x e ∈ between) ∨ Action.matchedAnother x r ∈ between := by
  obtain ⟨-, hclaims⟩ := reachable_good h
  refine ⟨fun r => ⟨hclaims.sound r, ?_⟩, hclaims.nodup, hclaims.unique, ?_⟩
  · intro hr
    obtain ⟨x, hx⟩ := hr
    exact hclaims.complete x r hx (by simp)
  · intro x y r d later between earlier hlog
    by_contra hnot
    simp only [not_or, not_exists] at hnot
    exact hclaims.unserved later y r d _ hlog x ⟨between, earlier, rfl, hnot.1, hnot.2⟩

/-- The dialog of 0 lets 1 wait with record 7 disputed; woken, 1 finds record 8 instead and
shows its dialog; and 2 is answered from record 7. -/
def overtaken : List Event :=
  asks 0 ++ [Event.schedule 0 willing] ++ asks 1 ++ [Event.schedule 1 (finding 7)] ++
    [Event.schedule 0 willing, Event.schedule 0 willing, Event.schedule 1 (finding 8)] ++ asks 2 ++
    [Event.schedule 2
      { finding 7 with forcePromptL := fun found _ => .ok (false, found.iEvaluatorInfo) }]

/-- A request is answered from a record over which another, still live, has forced a prompt. -/
theorem forced_record_served :
    ∃ m, Reachable started step Anything m ∧ m.Live 1 ∧
      ∃ later between earlier d,
        m.log = later ++ Action.answered 2 (some 7) d :: (between ++ Action.forced 1 7 :: earlier) ∧
          ∀ e, Action.ended 1 e ∉ between := by
  have hrun : (run step {} overtaken).map (fun m => (decide (m.Live 1), m.log)) = some (true,
      [.ended 2 (some KErrNone), .answered 2 (some 7) .EUpsDecYes, .forced 1 8,
        .matchedAnother 1 7, .ended 0 (some KErrNone), .answered 0 none .EUpsDecYes,
        .forced 1 7]) := rfl
  obtain ⟨m, hm, hobs⟩ := Option.map_eq_some_iff.mp hrun
  simp only [Prod.mk.injEq, decide_eq_true_eq] at hobs
  refine ⟨m, Reachable.run (.start rfl) hm, hobs.1, [.ended 2 (some KErrNone)],
    [.forced 1 8, .matchedAnother 1 7, .ended 0 (some KErrNone), .answered 0 none .EUpsDecYes],
    [], .EUpsDecYes, hobs.2, ?_⟩
  intro e he
  simp at he

theorem disputes_kept_overtaken :
    ∃ m, Reachable started step Anything m ∧ m.Disputes 1 8 ∧ 8 ∈ m.iDisputed := by
  have hrun : (run step {} overtaken).map (fun m => (decide (m.Live 1),
      (m.authoriser 1).iPromptForced, (m.authoriser 1).iPromptForcedRecordId)) =
      some (true, true, 8) := rfl
  obtain ⟨m, hm, hobs⟩ := Option.map_eq_some_iff.mp hrun
  simp only [Prod.mk.injEq, decide_eq_true_eq] at hobs
  have hreach : Reachable started step Anything m := Reachable.run (.start rfl) hm
  exact ⟨m, hreach, hobs, ((disputes_kept hreach).1 8).mpr ⟨1, hobs⟩⟩

end OsSecurity.CUpsServer

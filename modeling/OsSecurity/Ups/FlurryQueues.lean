/-
The two flurry queues, and what each move of the gate keeper does to them.

An authoriser with no request outstanding waits in one of the queues, and one with a dialog is
the current one.  While an authoriser runs or is being cancelled it is neither, so `Queued`
leaves one authoriser out, the one that is held.  `Chained` is what wakes the rest of the
queue being processed: while there is a rest, somebody is woken who will take its next.

What goes wrong without it is a dialog that ends while the queue being processed still has
members and `iFlurryQueue` has others: they are not swapped, and nothing would swap them later.
`Calm` says that this does not happen where it matters.
-/
import OsSecurity.Ups.GateKeeper

namespace OsSecurity.CUpsServer

open CAuthoriser Commands List

variable {m : CUpsServer} {x y : Nat} {f : CAuthoriser → CAuthoriser}

section Fields

@[simp] theorem setAuthoriser_self : (m.setAuthoriser x f).authoriser x = f (m.authoriser x) := by
  simp [setAuthoriser]

theorem setAuthoriser_other (h : y ≠ x) : (m.setAuthoriser x f).authoriser y = m.authoriser y := by
  simp [setAuthoriser, h]

@[simp] theorem setAuthoriser_setAuthoriser {g : CAuthoriser → CAuthoriser} :
    (m.setAuthoriser x f).setAuthoriser x g = m.setAuthoriser x fun a => g (f a) := by
  unfold setAuthoriser
  congr 1
  funext y
  by_cases hy : y = x
  · simp [hy]
  · simp [hy]

theorem setAuthoriser_same (h : f (m.authoriser x) = m.authoriser x) : m.setAuthoriser x f = m := by
  have hself (y : Nat) : (if y = x then f (m.authoriser x) else m.authoriser y) =
      m.authoriser y := by
    by_cases hy : y = x
    · rw [if_pos hy, hy, h]
    · rw [if_neg hy]
  simp [setAuthoriser, hself]

@[simp] theorem setAuthoriser_iAsyncRequests :
    (m.setAuthoriser x f).iAsyncRequests = m.iAsyncRequests := rfl

@[simp] theorem setAuthoriser_iCurrentDialog :
    (m.setAuthoriser x f).iCurrentDialog = m.iCurrentDialog := rfl

@[simp] theorem setAuthoriser_iDisputed :
    (m.setAuthoriser x f).iDisputed = m.iDisputed := rfl

@[simp] theorem setAuthoriser_log : (m.setAuthoriser x f).log = m.log := rfl

end Fields

/-- The states in which an authoriser has the dialog. -/
def InDialog (aState : TAuthoriserState) : Prop :=
  aState = .EPreparingDialog ∨ aState = .EExecutingDialog

def queued (m : CUpsServer) : List Nat := m.iFlurryQueue ++ m.iFlurryQueueBeingProcessed

/-- What holds of the queues, but for the authoriser `held` that runs or is being cancelled. -/
structure Queued (held : Option Nat) (m : CUpsServer) : Prop where
  once : m.queued.Nodup
  waits : ∀ j ∈ m.queued, m.Live j ∧ (m.authoriser j).request = .idle ∧
    (m.authoriser j).iState = .ECheckDatabase ∧ held ≠ some j
  waiting : ∀ j, m.Live j → (m.authoriser j).request = .idle → held ≠ some j → j ∈ m.queued
  dialog : ∀ j, m.Live j → InDialog (m.authoriser j).iState → held ≠ some j →
    m.iCurrentDialog = some j
  current : ∀ j, m.iCurrentDialog = some j → held ≠ some j →
    m.Live j ∧ InDialog (m.authoriser j).iState ∧ (m.authoriser j).request = .pending
  still : m.iCurrentDialog = none → m.iFlurryQueue = []

/-- Somebody is woken who will take the next of the queue being processed. -/
def Chained (held : Option Nat) (m : CUpsServer) : Prop :=
  m.iFlurryQueueBeingProcessed ≠ [] → ∃ j, m.Woken j ∧ held ≠ some j

def Calm (m : CUpsServer) : Prop :=
  m.iFlurryQueueBeingProcessed = [] ∨ m.iFlurryQueue = []

/-- The authoriser `x` has its turn, or is being cancelled and is in no queue any more. -/
structure Held (calm : Prop) (x : Nat) (m : CUpsServer) : Prop where
  queues : Queued (some x) m
  chained : Chained (some x) m
  live : m.Live x
  idle : (m.authoriser x).request = .idle
  dialog : m.iCurrentDialog = some x ↔ InDialog (m.authoriser x).iState
  calm : calm ∨ m.iCurrentDialog = some x → m.Calm

/-- Between events. -/
structure Settled (calm : Prop) (m : CUpsServer) : Prop where
  queues : Queued none m
  chained : Chained none m
  calm : calm → m.Calm

/-! ### Changes to the authoriser that is held -/

theorem live_setAuthoriser (hf : ∀ a, (f a).iSession = a.iSession) (j : Nat) :
    (m.setAuthoriser x f).Live j ↔ m.Live j := by
  unfold Live
  by_cases hj : j = x
  · rw [hj, setAuthoriser_self, hf, setAuthoriser_iAsyncRequests]
  · rw [setAuthoriser_other hj, setAuthoriser_iAsyncRequests]

theorem Live.set {j : Nat} (h : m.Live j) (hf : ∀ a, (f a).iSession = a.iSession) :
    (m.setAuthoriser x f).Live j :=
  (live_setAuthoriser hf j).mpr h

theorem woken_setAuthoriser (hf : ∀ a, (f a).iSession = a.iSession) {j : Nat} (hj : j ≠ x) :
    (m.setAuthoriser x f).Woken j ↔ m.Woken j := by
  unfold Woken
  rw [live_setAuthoriser hf, setAuthoriser_other hj]

theorem Chained.setHeld (h : Chained (some x) m) (hf : ∀ a, (f a).iSession = a.iSession) :
    Chained (some x) (m.setAuthoriser x f) := by
  intro hne
  obtain ⟨j, hwoken, hj⟩ := h hne
  have hjx : j ≠ x := fun hc => hj (by rw [hc])
  exact ⟨j, (woken_setAuthoriser hf hjx).mpr hwoken, hj⟩

theorem Queued.setHeld (h : Queued (some x) m) (hf : ∀ a, (f a).iSession = a.iSession) :
    Queued (some x) (m.setAuthoriser x f) := by
  have hother {j : Nat} (hj : some x ≠ some j) :
      (m.setAuthoriser x f).authoriser j = m.authoriser j :=
    setAuthoriser_other fun hc => hj (by rw [hc])
  refine ⟨h.once, ?_, ?_, ?_, ?_, h.still⟩
  · intro j hj
    obtain ⟨hlive, hidle, hchecks, hne⟩ := h.waits j hj
    rw [hother hne]
    exact ⟨hlive.set hf, hidle, hchecks, hne⟩
  · intro j hlive hidle hne
    rw [hother hne] at hidle
    exact h.waiting j ((live_setAuthoriser hf j).mp hlive) hidle hne
  · intro j hlive hin hne
    rw [hother hne] at hin
    exact h.dialog j ((live_setAuthoriser hf j).mp hlive) hin hne
  · intro j hj hne
    rw [hother hne, live_setAuthoriser hf]
    exact h.current j hj hne

theorem Held.set {calm : Prop} (h : Held calm x m) (hf : ∀ a, (f a).iSession = a.iSession)
    (hidle : ∀ a, (f a).request = a.request)
    (hdialog : InDialog (f (m.authoriser x)).iState ↔ InDialog (m.authoriser x).iState) :
    Held calm x (m.setAuthoriser x f) where
  queues := h.queues.setHeld hf
  chained := h.chained.setHeld hf
  live := h.live.set hf
  idle := by rw [setAuthoriser_self, hidle, h.idle]
  dialog := by rw [setAuthoriser_self, hdialog, ← h.dialog, setAuthoriser_iCurrentDialog]
  calm := h.calm

/-- An authoriser whose request is outstanding may be taken. -/
theorem Queued.hold (h : Queued none m) (hx : (m.authoriser x).request ≠ .idle) :
    Queued (some x) m where
  once := h.once
  waits j hj := by
    obtain ⟨hlive, hidle, hchecks, -⟩ := h.waits j hj
    refine ⟨hlive, hidle, hchecks, fun hc => hx ?_⟩
    rw [Option.some.inj hc, hidle]
  waiting j hlive hidle _ := h.waiting j hlive hidle (by simp)
  dialog j hlive hin _ := h.dialog j hlive hin (by simp)
  current j hj _ := h.current j hj (by simp)
  still := h.still

/-! ### Changes that the queues do not see -/

structure SameQueues (m t : CUpsServer) : Prop where
  live : ∀ j, t.Live j ↔ m.Live j
  request : ∀ j, (t.authoriser j).request = (m.authoriser j).request
  iState : ∀ j, (t.authoriser j).iState = (m.authoriser j).iState
  iPriority : ∀ j, (t.authoriser j).iPriority = (m.authoriser j).iPriority
  iCurrentDialog : t.iCurrentDialog = m.iCurrentDialog
  iFlurryQueue : t.iFlurryQueue = m.iFlurryQueue
  iFlurryQueueBeingProcessed : t.iFlurryQueueBeingProcessed = m.iFlurryQueueBeingProcessed

theorem sameQueues_set (hsession : ∀ a, (f a).iSession = a.iSession)
    (hrequest : ∀ a, (f a).request = a.request) (hstate : ∀ a, (f a).iState = a.iState)
    (hpriority : ∀ a, (f a).iPriority = a.iPriority) :
    SameQueues m (m.setAuthoriser x f) := by
  refine ⟨live_setAuthoriser hsession, ?_, ?_, ?_, rfl, rfl, rfl⟩
  · intro j
    by_cases hj : j = x
    · rw [hj, setAuthoriser_self, hrequest]
    · rw [setAuthoriser_other hj]
  · intro j
    by_cases hj : j = x
    · rw [hj, setAuthoriser_self, hstate]
    · rw [setAuthoriser_other hj]
  · intro j
    by_cases hj : j = x
    · rw [hj, setAuthoriser_self, hpriority]
    · rw [setAuthoriser_other hj]

section Same

variable {t : CUpsServer} {held : Option Nat} {calm : Prop}

theorem SameQueues.queued (h : SameQueues m t) : t.queued = m.queued := by
  unfold CUpsServer.queued
  rw [h.iFlurryQueue, h.iFlurryQueueBeingProcessed]

theorem Queued.congr (h : Queued held m) (hs : SameQueues m t) : Queued held t := by
  refine ⟨hs.queued ▸ h.once, ?_, ?_, ?_, ?_, ?_⟩
  · intro j hj
    rw [hs.live, hs.request, hs.iState]
    exact h.waits j (hs.queued ▸ hj)
  · intro j hlive hidle hne
    rw [hs.request] at hidle
    rw [hs.queued]
    exact h.waiting j ((hs.live j).mp hlive) hidle hne
  · intro j hlive hin hne
    rw [hs.iState] at hin
    rw [hs.iCurrentDialog]
    exact h.dialog j ((hs.live j).mp hlive) hin hne
  · intro j hj hne
    rw [hs.live, hs.iState, hs.request]
    exact h.current j (hs.iCurrentDialog ▸ hj) hne
  · intro hc
    rw [hs.iFlurryQueue]
    exact h.still (hs.iCurrentDialog ▸ hc)

theorem Chained.congr (h : Chained held m) (hs : SameQueues m t) : Chained held t := by
  intro hne
  obtain ⟨j, ⟨hlive, hrequest, hraised⟩, hj⟩ := h (hs.iFlurryQueueBeingProcessed ▸ hne)
  refine ⟨j, ⟨(hs.live j).mpr hlive, ?_, ?_⟩, hj⟩
  · rw [hs.request, hrequest]
  · rw [hs.iPriority, hraised]

theorem Calm.congr (h : m.Calm) (hs : SameQueues m t) : t.Calm := by
  unfold Calm
  rw [hs.iFlurryQueue, hs.iFlurryQueueBeingProcessed]
  exact h

theorem Held.congr (h : Held calm x m) (hs : SameQueues m t) : Held calm x t where
  queues := h.queues.congr hs
  chained := h.chained.congr hs
  live := (hs.live x).mpr h.live
  idle := by rw [hs.request, h.idle]
  dialog := by rw [hs.iCurrentDialog, hs.iState, h.dialog]
  calm hc := (h.calm (hs.iCurrentDialog ▸ hc)).congr hs

theorem Settled.congr (h : Settled calm m) (hs : SameQueues m t) : Settled calm t where
  queues := h.queues.congr hs
  chained := h.chained.congr hs
  calm hc := (h.calm hc).congr hs

end Same

/-! ### Waking the next -/

/-- The state `WakeupNextPendingL` leaves behind. -/
def wakeNext (m : CUpsServer) : CUpsServer :=
  match m.iFlurryQueueBeingProcessed with
  | [] => m
  | y :: rest =>
      { m with iFlurryQueueBeingProcessed := rest }.setAuthoriser y
        ({ · with iPriority := .raised, request := .completed })

theorem wakeup_eq (hidle : (m.authoriser y).request = .idle)
    (hstate : (m.authoriser y).iState = .ECheckPolicy ∨
      (m.authoriser y).iState = .ECheckDatabase) :
    wakeup y m = (.ok (), m.setAuthoriser y ({ · with request := .completed })) := by
  rcases hstate with hstate | hstate
  · simp [wakeup, CAuthoriser.setActive, assertAlways, completeSelf, update, hidle, hstate]
  · simp [wakeup, CAuthoriser.setActive, assertAlways, completeSelf, update, hidle, hstate]

theorem wakeupNextPendingL_eq {held : Option Nat} (h : Queued held m) :
    wakeupNextPendingL m = (.ok (), m.wakeNext) := by
  unfold wakeupNextPendingL wakeNext
  cases hnext : m.iFlurryQueueBeingProcessed with
  | nil => simp [hnext]
  | cons y rest =>
      have hy : y ∈ m.queued := by simp [queued, hnext]
      obtain ⟨-, hidle, hchecks, -⟩ := h.waits y hy
      have hwake := wakeup_eq (m := { m with iFlurryQueueBeingProcessed := rest }.setAuthoriser y
        ({ · with iPriority := .raised })) (y := y) (by simpa using hidle)
        (Or.inr (by simpa using hchecks))
      simp [hnext, update, hwake]

/-- The first of the queue being processed, taken out of it and woken. -/
theorem wakeNext_cons {held : Option Nat} {rest : List Nat} (h : Queued held m)
    (hnext : m.iFlurryQueueBeingProcessed = y :: rest) :
    m.queued.Perm (y :: m.wakeNext.queued) ∧ m.Live y ∧ held ≠ some y ∧
      (m.wakeNext.authoriser y).request = .completed ∧
      (m.wakeNext.authoriser y).iPriority = .raised ∧
      (m.wakeNext.authoriser y).iState = .ECheckDatabase ∧
      ∀ j, j ≠ y → m.wakeNext.authoriser j = m.authoriser j := by
  have hperm : m.queued.Perm (y :: (m.iFlurryQueue ++ rest)) := by
    simp [queued, hnext, perm_middle]
  obtain ⟨hlive, -, hchecks, hne⟩ := h.waits y (hperm.mem_iff.mpr (by simp))
  unfold wakeNext
  simp only [hnext]
  refine ⟨hperm, hlive, hne, by simp, by simp, by simpa using hchecks, fun j hj => ?_⟩
  rw [setAuthoriser_other hj]

@[simp] theorem wakeNext_iCurrentDialog : m.wakeNext.iCurrentDialog = m.iCurrentDialog := by
  unfold wakeNext
  split
  · rfl
  · rfl

@[simp] theorem wakeNext_iAsyncRequests : m.wakeNext.iAsyncRequests = m.iAsyncRequests := by
  unfold wakeNext
  split
  · rfl
  · rfl

@[simp] theorem wakeNext_log : m.wakeNext.log = m.log := by
  unfold wakeNext
  split
  · rfl
  · rfl

@[simp] theorem wakeNext_iFlurryQueue : m.wakeNext.iFlurryQueue = m.iFlurryQueue := by
  unfold wakeNext
  split
  · rfl
  · rfl

theorem wakeNext_iFlurryQueueBeingProcessed :
    m.wakeNext.iFlurryQueueBeingProcessed = m.iFlurryQueueBeingProcessed.tail := by
  unfold wakeNext
  split
  · rename_i hnil
    rw [hnil, tail_nil]
  · rename_i y rest hnext
    rw [hnext]
    rfl

theorem live_wakeNext (j : Nat) : m.wakeNext.Live j ↔ m.Live j := by
  unfold wakeNext
  split
  · rfl
  · exact (live_setAuthoriser (by intro a; rfl) j).trans Iff.rfl

theorem wakeNext_nil (hnext : m.iFlurryQueueBeingProcessed = []) : m.wakeNext = m := by
  simp [wakeNext, hnext]

theorem Queued.wakeNext {held : Option Nat} (h : Queued held m) : Queued held m.wakeNext := by
  cases hnext : m.iFlurryQueueBeingProcessed with
  | nil => rwa [wakeNext_nil hnext]
  | cons y rest =>
      obtain ⟨hperm, -, -, hrequest, -, hchecks, hother⟩ := wakeNext_cons h hnext
      have honce := hperm.nodup_iff.mp h.once
      refine ⟨honce.of_cons, ?_, ?_, ?_, ?_, ?_⟩
      · intro j hj
        have hjy : j ≠ y := fun hc => (nodup_cons.mp honce).1 (hc ▸ hj)
        rw [live_wakeNext, hother j hjy]
        exact h.waits j (hperm.mem_iff.mpr (mem_cons_of_mem _ hj))
      · intro j hlive hidle hne
        have hjy : j ≠ y := by
          intro hc
          rw [hc, hrequest] at hidle
          cases hidle
        rw [hother j hjy] at hidle
        have hmem := h.waiting j ((live_wakeNext j).mp hlive) hidle hne
        exact (mem_cons.mp (hperm.mem_iff.mp hmem)).resolve_left hjy
      · intro j hlive hin hne
        have hjy : j ≠ y := by
          intro hc
          simp [InDialog, hc, hchecks] at hin
        rw [hother j hjy] at hin
        rw [wakeNext_iCurrentDialog]
        exact h.dialog j ((live_wakeNext j).mp hlive) hin hne
      · intro j hj hne
        rw [wakeNext_iCurrentDialog] at hj
        obtain ⟨hlive, hin, hpending⟩ := h.current j hj hne
        have hjy : j ≠ y := by
          intro hc
          have hy := (h.waits y (hperm.mem_iff.mpr (by simp))).2.1
          rw [hc, hy] at hpending
          cases hpending
        rw [live_wakeNext, hother j hjy]
        exact ⟨hlive, hin, hpending⟩
      · intro hcurrent
        rw [wakeNext_iFlurryQueue]
        exact h.still (by simpa using hcurrent)

theorem Queued.chained_wakeNext {held : Option Nat} (h : Queued held m) :
    Chained held m.wakeNext := by
  intro hne
  cases hnext : m.iFlurryQueueBeingProcessed with
  | nil =>
      rw [wakeNext_iFlurryQueueBeingProcessed, hnext] at hne
      exact absurd rfl hne
  | cons y rest =>
      obtain ⟨-, hlive, hheld, hrequest, hraised, -⟩ := wakeNext_cons h hnext
      exact ⟨y, ⟨(live_wakeNext y).mpr hlive, hrequest, hraised⟩, hheld⟩

theorem Calm.wakeNext (h : m.Calm) : m.wakeNext.Calm := by
  unfold Calm at *
  rw [wakeNext_iFlurryQueueBeingProcessed, wakeNext_iFlurryQueue]
  rcases h with hnil | hnil
  · exact Or.inl (by rw [hnil, tail_nil])
  · exact Or.inr hnil

theorem Queued.wakeNext_held (h : Queued (some x) m) :
    m.wakeNext.authoriser x = m.authoriser x := by
  cases hnext : m.iFlurryQueueBeingProcessed with
  | nil => rw [wakeNext_nil hnext]
  | cons y rest =>
      obtain ⟨-, -, hne, -, -, -, hother⟩ := wakeNext_cons h hnext
      exact hother x fun hc => hne (by rw [hc])

/-! ### The moves of an authoriser that has its turn -/

section Moves

variable {calm : Prop}

/-- It starts to run. -/
theorem Queued.begin (h : Queued none m) (hlive : m.Live x)
    (hx : (m.authoriser x).request ≠ .idle) (hcalm : calm ∨ m.iCurrentDialog = some x → m.Calm) :
    Held calm x (m.setAuthoriser x ({ · with request := .idle })).wakeNext := by
  have hq : Queued (some x) (m.setAuthoriser x ({ · with request := .idle })) :=
    (h.hold hx).setHeld fun _ => rfl
  have hlive' : (m.setAuthoriser x ({ · with request := .idle })).Live x :=
    hlive.set fun _ => rfl
  refine ⟨hq.wakeNext, hq.chained_wakeNext, (live_wakeNext x).mpr hlive', ?_, ?_, ?_⟩
  · rw [hq.wakeNext_held, setAuthoriser_self]
  · rw [hq.wakeNext_held, wakeNext_iCurrentDialog, setAuthoriser_self]
    constructor
    · intro hcurrent
      exact (h.current x hcurrent (by simp)).2.1
    · intro hin
      exact h.dialog x hlive hin (by simp)
  · intro hc
    refine Calm.wakeNext (hcalm ?_)
    simpa using hc

/-- A plug-in works for it. -/
theorem Held.pending (h : Held calm x m) :
    Settled calm (m.setAuthoriser x ({ · with request := .pending })) := by
  have hq := h.queues.setHeld (f := ({ · with request := .pending })) fun _ => rfl
  have hself : ((m.setAuthoriser x ({ · with request := .pending })).authoriser x).request =
      .pending := by simp
  refine ⟨⟨hq.once, ?_, ?_, ?_, ?_, hq.still⟩, ?_, fun hc => h.calm (Or.inl hc)⟩
  · intro j hj
    obtain ⟨hlive, hidle, hchecks, -⟩ := hq.waits j hj
    exact ⟨hlive, hidle, hchecks, by simp⟩
  · intro j hlive hidle _
    refine hq.waiting j hlive hidle fun hc => ?_
    rw [← Option.some.inj hc, hself] at hidle
    cases hidle
  · intro j hlive hin _
    by_cases hj : x = j
    · subst hj
      rw [setAuthoriser_self] at hin
      exact h.dialog.mpr hin
    · exact hq.dialog j hlive hin (by simpa using hj)
  · intro j hj _
    by_cases hjx : x = j
    · subst hjx
      refine ⟨h.live.set fun _ => rfl, ?_, hself⟩
      rw [setAuthoriser_self]
      exact h.dialog.mp hj
    · exact hq.current j hj (by simpa using hjx)
  · intro hne
    obtain ⟨j, hwoken, -⟩ := h.chained.setHeld (f := ({ · with request := .pending }))
      (fun _ => rfl) hne
    exact ⟨j, hwoken, by simp⟩

/-- It waits for the dialog that is shown. -/
theorem Held.wait (h : Held calm x m) (hchecks : (m.authoriser x).iState = .ECheckDatabase)
    (hcurrent : m.iCurrentDialog ≠ none) :
    Settled False { m with iFlurryQueue := m.iFlurryQueue ++ [x] } := by
  have hperm : (m.iFlurryQueue ++ [x] ++ m.iFlurryQueueBeingProcessed).Perm (x :: m.queued) := by
    simp [queued, perm_middle]
  have hx : x ∉ m.queued := fun hmem => (h.queues.waits x hmem).2.2.2 rfl
  refine ⟨⟨?_, ?_, ?_, ?_, ?_, fun hc => absurd hc hcurrent⟩, ?_, False.elim⟩
  · exact hperm.nodup_iff.mpr (nodup_cons.mpr ⟨hx, h.queues.once⟩)
  · intro j hj
    rcases mem_cons.mp (hperm.mem_iff.mp hj) with hjx | hjm
    · rw [hjx]
      exact ⟨h.live, h.idle, hchecks, by simp⟩
    · obtain ⟨hlive, hidle, hchecks', -⟩ := h.queues.waits j hjm
      exact ⟨hlive, hidle, hchecks', by simp⟩
  · intro j hlive hidle _
    refine hperm.mem_iff.mpr (mem_cons.mpr ?_)
    by_cases hj : j = x
    · exact Or.inl hj
    · exact Or.inr (h.queues.waiting j hlive hidle fun hc => hj (Option.some.inj hc).symm)
  · intro j hlive hin _
    refine h.queues.dialog j hlive hin fun hc => ?_
    rw [← Option.some.inj hc] at hin
    simp [InDialog, hchecks] at hin
  · intro j hj _
    refine h.queues.current j hj fun hc => ?_
    have hin := h.dialog.mp (hj.trans hc.symm)
    simp [InDialog, hchecks] at hin
  · intro hne
    obtain ⟨j, hwoken, -⟩ := h.chained hne
    exact ⟨j, hwoken, by simp⟩

/-- It gets the dialog. -/
theorem Held.open (h : Held calm x m) (hcurrent : m.iCurrentDialog = none) :
    Held calm x ({ m with iCurrentDialog := some x }.setAuthoriser x
      ({ · with iState := .EPreparingDialog })) := by
  have hq : Queued (some x) { m with iCurrentDialog := some x } := by
    refine ⟨h.queues.once, h.queues.waits, h.queues.waiting, ?_, ?_, nofun⟩
    · intro j hlive hin hne
      have hj := h.queues.dialog j hlive hin hne
      rw [hcurrent] at hj
      cases hj
    · intro j hj hne
      exact absurd hj hne
  have hc : Chained (some x) { m with iCurrentDialog := some x } := h.chained
  have hlive : { m with iCurrentDialog := some x }.Live x := h.live
  refine ⟨hq.setHeld fun _ => rfl, hc.setHeld fun _ => rfl, hlive.set fun _ => rfl, ?_, ?_, ?_⟩
  · rw [setAuthoriser_self]
    exact h.idle
  · simp [InDialog]
  · exact fun _ => Or.inr (h.queues.still hcurrent)

/-- Its request is cancelled. -/
theorem Settled.cancel (h : Settled calm m) (hcalm : calm) (hlive : m.Live x)
    (hx : (m.authoriser x).request ≠ .idle) :
    Held calm x (m.wakeNext.setAuthoriser x ({ · with request := .idle })) := by
  have hq : Queued (some x) m.wakeNext := (h.queues.hold hx).wakeNext
  have hself := (h.queues.hold hx).wakeNext_held
  have hlive' : m.wakeNext.Live x := (live_wakeNext x).mpr hlive
  refine ⟨hq.setHeld fun _ => rfl, (h.queues.hold hx).chained_wakeNext.setHeld fun _ => rfl,
    hlive'.set fun _ => rfl, by simp, ?_, fun _ => (h.calm hcalm).wakeNext⟩
  rw [setAuthoriser_self, setAuthoriser_iCurrentDialog, wakeNext_iCurrentDialog, hself]
  constructor
  · intro hcurrent
    exact (h.queues.current x hcurrent (by simp)).2.1
  · intro hin
    exact h.queues.dialog x hlive hin (by simp)

/-- It is taken out of the queue it waits in. -/
theorem Settled.remove (h : Settled calm m) (hcalm : calm) (hlive : m.Live x)
    (hx : (m.authoriser x).request = .idle) : Held calm x (m.removeFromQueues x) := by
  have hcurrent : m.iCurrentDialog ≠ some x := by
    intro hc
    have hpending := (h.queues.current x hc (by simp)).2.2
    rw [hx] at hpending
    cases hpending
  have hin : ¬InDialog (m.authoriser x).iState :=
    fun hin => hcurrent (h.queues.dialog x hlive hin (by simp))
  have hsplit : (m.removeFromQueues x).queued = m.queued.erase x := by
    unfold queued removeFromQueues
    by_cases hmem : x ∈ m.iFlurryQueue
    · have hnot : x ∉ m.iFlurryQueueBeingProcessed :=
        disjoint_of_nodup_append h.queues.once hmem
      rw [erase_append_left _ hmem, erase_of_not_mem hnot]
    · rw [erase_append_right _ hmem, erase_of_not_mem hmem]
  have hmem {j : Nat} : j ∈ (m.removeFromQueues x).queued ↔ j ≠ x ∧ j ∈ m.queued := by
    rw [hsplit, h.queues.once.mem_erase_iff]
  have hnil {q : List Nat} (hq : q = []) : q.erase x = [] := by rw [hq, erase_nil]
  refine ⟨⟨?_, ?_, ?_, ?_, ?_, ?_⟩, ?_, hlive, hx, ?_, ?_⟩
  · rw [hsplit]
    exact h.queues.once.erase x
  · intro j hj
    obtain ⟨hjx, hjm⟩ := hmem.mp hj
    obtain ⟨hlive, hidle, hchecks, -⟩ := h.queues.waits j hjm
    exact ⟨hlive, hidle, hchecks, fun hc => hjx (Option.some.inj hc).symm⟩
  · intro j hlive hidle hne
    exact hmem.mpr ⟨fun hc => hne (by rw [hc]), h.queues.waiting j hlive hidle (by simp)⟩
  · intro j hlive hin _
    exact h.queues.dialog j hlive hin (by simp)
  · intro j hj _
    exact h.queues.current j hj (by simp)
  · intro hc
    exact hnil (h.queues.still hc)
  · intro hne
    obtain ⟨j, hwoken, -⟩ := h.chained fun hc => hne (hnil hc)
    refine ⟨j, hwoken, fun hc => ?_⟩
    have hrequest := hwoken.2.1
    rw [← Option.some.inj hc] at hrequest
    change (m.authoriser x).request = .completed at hrequest
    rw [hx] at hrequest
    cases hrequest
  · exact ⟨fun hc => absurd hc hcurrent, fun hc => absurd hc hin⟩
  · exact fun _ => (h.calm hcalm).imp hnil hnil

theorem Held.remove (h : Held calm x m) : m.removeFromQueues x = m := by
  have hx : x ∉ m.queued := fun hmem => (h.queues.waits x hmem).2.2.2 rfl
  simp only [queued, mem_append, not_or] at hx
  simp only [removeFromQueues, erase_of_not_mem hx.1, erase_of_not_mem hx.2]

/-! ### The end of an authoriser -/

/-- The rest of `AuthoriserDoneL`, once the authoriser is in no queue. -/
def dropDialog (m : CUpsServer) (x : Nat) : CUpsServer :=
  if m.iCurrentDialog = some x then
    (if m.iFlurryQueueBeingProcessed = [] then { m with iCurrentDialog := none }.swapQueues
      else { m with iCurrentDialog := none }).wakeNext
  else m

theorem live_dropDialog (j : Nat) : (m.dropDialog x).Live j ↔ m.Live j := by
  unfold dropDialog
  split
  · rw [live_wakeNext]
    split
    · rfl
    · rfl
  · rfl

@[simp] theorem dropDialog_iAsyncRequests : (m.dropDialog x).iAsyncRequests = m.iAsyncRequests := by
  unfold dropDialog
  split
  · rw [wakeNext_iAsyncRequests]
    split
    · rfl
    · rfl
  · rfl

@[simp] theorem dropDialog_log : (m.dropDialog x).log = m.log := by
  unfold dropDialog
  split
  · rw [wakeNext_log]
    split
    · rfl
    · rfl
  · rfl

/-- Its request and its dialog are gone; only its session is still set. -/
structure Dropped (calm : Prop) (x : Nat) (m : CUpsServer) : Prop where
  queues : Queued (some x) m
  chained : Chained (some x) m
  idle : (m.authoriser x).request = .idle
  current : m.iCurrentDialog ≠ some x
  calm : calm → m.Calm

theorem Held.queued_dropped (h : Held calm x m) (hcurrent : m.iCurrentDialog = some x) :
    Queued (some x) (if m.iFlurryQueueBeingProcessed = [] then
      { m with iCurrentDialog := none }.swapQueues else { m with iCurrentDialog := none }) := by
  have hdialog (j : Nat) (hlive : m.Live j) (hin : InDialog (m.authoriser j).iState)
      (hne : some x ≠ some j) : none = some j := by
    have hj := h.queues.dialog j hlive hin hne
    exact absurd (hcurrent.symm.trans hj) hne
  split
  · rename_i hnil
    have hperm : { m with iCurrentDialog := none }.swapQueues.queued.Perm m.queued :=
      perm_append_comm
    refine ⟨hperm.nodup_iff.mpr h.queues.once, fun j hj => h.queues.waits j (hperm.mem_iff.mp hj),
      fun j hlive hidle hne => hperm.mem_iff.mpr (h.queues.waiting j hlive hidle hne), hdialog,
      nofun, fun _ => hnil⟩
  · rename_i hne
    refine ⟨h.queues.once, h.queues.waits, h.queues.waiting, hdialog, nofun, fun _ => ?_⟩
    exact (h.calm (Or.inr hcurrent)).resolve_left hne

theorem Held.dropDialog_self (h : Held calm x m) :
    (m.dropDialog x).authoriser x = m.authoriser x := by
  unfold CUpsServer.dropDialog
  split
  · rename_i hcurrent
    rw [(h.queued_dropped hcurrent).wakeNext_held]
    split
    · rfl
    · rfl
  · rfl

theorem Held.dropDialog (h : Held calm x m) : Dropped calm x (m.dropDialog x) := by
  unfold CUpsServer.dropDialog
  split
  · rename_i hcurrent
    have hq := h.queued_dropped hcurrent
    refine ⟨hq.wakeNext, hq.chained_wakeNext, ?_, ?_, ?_⟩
    · rw [hq.wakeNext_held]
      split
      · exact h.idle
      · exact h.idle
    · rw [wakeNext_iCurrentDialog]
      split
      · exact nofun
      · exact nofun
    · intro _
      refine Calm.wakeNext ?_
      split
      · rename_i hnil
        exact Or.inr hnil
      · exact h.calm (Or.inr hcurrent)
  · rename_i hcurrent
    exact ⟨h.queues, h.chained, h.idle, hcurrent, fun hc => h.calm (Or.inl hc)⟩

theorem Dropped.congr {t : CUpsServer} (h : Dropped calm x m) (hs : SameQueues m t) :
    Dropped calm x t where
  queues := h.queues.congr hs
  chained := h.chained.congr hs
  idle := by rw [hs.request, h.idle]
  current := by rw [hs.iCurrentDialog]; exact h.current
  calm hc := (h.calm hc).congr hs

/-- It leaves the framework. -/
theorem Dropped.retire (h : Dropped calm x m) :
    Settled calm (m.setAuthoriser x ({ · with iSession := none })) := by
  have hlive {j : Nat} : (m.setAuthoriser x ({ · with iSession := none })).Live j →
      j ≠ x ∧ m.Live j := by
    intro hlive
    have hjx : j ≠ x := by
      intro hc
      subst hc
      simp [Live] at hlive
    unfold Live at hlive
    rw [setAuthoriser_other hjx] at hlive
    exact ⟨hjx, hlive⟩
  have hback {j : Nat} (hne : some x ≠ some j) (hj : m.Live j) :
      (m.setAuthoriser x ({ · with iSession := none })).Live j := by
    unfold Live
    rw [setAuthoriser_other fun hc => hne (by rw [hc])]
    exact hj
  have hother {j : Nat} (hne : some x ≠ some j) :
      (m.setAuthoriser x ({ · with iSession := none })).authoriser j = m.authoriser j :=
    setAuthoriser_other fun hc => hne (by rw [hc])
  have hsome {j : Nat} (hjx : j ≠ x) : some x ≠ some j := fun hc => hjx (Option.some.inj hc).symm
  refine ⟨⟨h.queues.once, ?_, ?_, ?_, ?_, h.queues.still⟩, ?_, h.calm⟩
  · intro j hj
    obtain ⟨hj, hidle, hchecks, hne⟩ := h.queues.waits j hj
    rw [hother hne]
    exact ⟨hback hne hj, hidle, hchecks, by simp⟩
  · intro j hj hidle _
    obtain ⟨hjx, hj⟩ := hlive hj
    rw [hother (hsome hjx)] at hidle
    exact h.queues.waiting j hj hidle (hsome hjx)
  · intro j hj hin _
    obtain ⟨hjx, hj⟩ := hlive hj
    rw [hother (hsome hjx)] at hin
    exact h.queues.dialog j hj hin (hsome hjx)
  · intro j hj _
    have hne : some x ≠ some j := fun hc => h.current (hj.trans hc.symm)
    rw [hother hne]
    obtain ⟨hj', hin, hpending⟩ := h.queues.current j hj hne
    exact ⟨hback hne hj', hin, hpending⟩
  · intro hne
    obtain ⟨j, hwoken, hj⟩ := h.chained hne
    refine ⟨j, ?_, by simp⟩
    unfold Woken
    rw [hother hj]
    exact ⟨hback hj hwoken.1, hwoken.2⟩

end Moves

/-! ### What cancelling and the end of an authoriser come to -/

section Commands

variable {calm : Prop}

theorem cancel_idle (h : (m.authoriser x).request = .idle) : cancel x m = (.ok (), m) := by
  simp [cancel, h]

theorem trapd_ok {f : Server Unit} {t : CUpsServer} (h : f m = (.ok (), t)) :
    trapd f m = (.ok KErrNone, t) := by
  refine tryCatch_ok ?_
  rw [bind_ok h]
  rfl

theorem trapIgnore_ok {f : Server Unit} {t : CUpsServer} (h : f m = (.ok (), t)) :
    trapIgnore f m = (.ok (), t) := by
  unfold trapIgnore
  rw [bind_ok (trapd_ok h)]
  rfl

theorem trapIgnore_leave {f : Server Unit} {t : CUpsServer} {aError : Int}
    (h : f m = (.error (.leave aError), t)) : trapIgnore f m = (.ok (), t) := by
  have hf : (do f; pure KErrNone : Server Int) m = (.error (.leave aError), t) := by
    rw [bind_apply, h]
  have htrap : trapd f m = (.ok aError, t) := (tryCatch_error hf).trans rfl
  unfold trapIgnore
  rw [bind_ok htrap]
  rfl

/-- What is cancelled is complete, so that `Cancel` does not wait. -/
theorem processCancelL_eq (h : (m.authoriser x).request ≠ .idle) :
    processCancelL x m = (.ok (), m.setAuthoriser x ({ · with request := .completed })) := by
  have hself : completeSelf x m =
        (.ok (), m.setAuthoriser x ({ · with request := .completed })) ∨
      ((m.authoriser x).iState ≠ .ECheckPolicy ∧ (m.authoriser x).iState ≠ .ECheckDatabase) := by
    cases hr : (m.authoriser x).request with
    | idle => exact absurd hr h
    | pending => cases hs : (m.authoriser x).iState <;> simp [completeSelf, update, hr, hs]
    | completed =>
      have hsame := setAuthoriser_same (m := m) (x := x) (f := ({ · with request := .completed }))
        (by rw [← hr])
      cases hs : (m.authoriser x).iState <;> simp [completeSelf, hr, hs, hsame]
  rcases hself with hself | ⟨hpolicy, hdatabase⟩
  · cases hs : (m.authoriser x).iState <;> simp [processCancelL, update, hs, hself]
  · cases hs : (m.authoriser x).iState <;> simp_all [processCancelL, update]

theorem cancel_active (h : Settled calm m) (hx : (m.authoriser x).request ≠ .idle) :
    cancel x m = (.ok (), m.wakeNext.setAuthoriser x ({ · with request := .idle })) := by
  have hself := (h.queues.hold hx).wakeNext_held
  have hwake := wakeupNextPendingL_eq h.queues
  have hcancel := processCancelL_eq (m := m.wakeNext) (x := x) (by rwa [hself])
  have hdo : doCancel x m =
      (.ok (), m.wakeNext.setAuthoriser x ({ · with request := .completed })) :=
    trapIgnore_ok (by simp [hwake, hcancel])
  simp [cancel, hx, hdo, assertAlways, update]

theorem authoriserDoneL_eq (h : Held calm x (m.removeFromQueues x)) :
    authoriserDoneL x m = (.ok (), (m.removeFromQueues x).dropDialog x) := by
  unfold authoriserDoneL CUpsServer.dropDialog
  by_cases hcurrent : (m.removeFromQueues x).iCurrentDialog = some x
  · have hwake := wakeupNextPendingL_eq (h.queued_dropped hcurrent)
    by_cases hnil : (m.removeFromQueues x).iFlurryQueueBeingProcessed = []
    · rw [if_pos hnil] at hwake
      simpa [hcurrent, hnil] using hwake
    · rw [if_neg hnil] at hwake
      simp [hcurrent, hnil, hwake]
  · simp [hcurrent]

theorem authoriserDoneL_dropped (h : Dropped calm x m) : authoriserDoneL x m = (.ok (), m) := by
  have hx : x ∉ m.queued := fun hmem => (h.queues.waits x hmem).2.2.2 rfl
  simp only [queued, mem_append, not_or] at hx
  have hremove : m.removeFromQueues x = m := by
    simp only [removeFromQueues, erase_of_not_mem hx.1, erase_of_not_mem hx.2]
  simp [authoriserDoneL, hremove, h.current]

end Commands

end OsSecurity.CUpsServer

/-
The subsession handles of a session (`CScsSession`), over whole runs.

The containers are made for the first subsession and dropped with the last one, or when a first
create fails.  A handle is looked up in them without a look whether they are there: a message
that names a handle while no subsession is open follows a null pointer.  And a create gives out
its handle before the reply is written; where that fails and another subsession is open, the
handle stays.  Runs without these two keep the index and the client's handles together.

What a client holds is read off the log alone, as the creates and closes that succeeded.
-/
import OsSecurity.Scs.Server

namespace OsSecurity.Scs

open Commands List TScsFunction Transitions

/-- A create that succeeded has returned the handle on the session, and no close since. -/
def ClientHolds : List Action → Nat → Int → Prop
  | [], _, _ => False
  | .created s' h' :: log, s, h => (s' = s ∧ h' = h) ∨ ClientHolds log s h
  | .closed s' h' :: log, s, h => ¬ (s' = s ∧ h' = h) ∧ ClientHolds log s h
  | .accepted _ _ :: log, s, h => ClientHolds log s h
  | .completed _ _ :: log, s, h => ClientHolds log s h
  | .deleted _ :: log, s, h => ClientHolds log s h
  | .destroyed _ :: log, s, h => ClientHolds log s h

def CScsSession.handles (x : CScsSession) : List Int := (x.iSsHandles.getD []).map Prod.fst

def CScsSession.containers (x : CScsSession) : Option (List Nat) × Option (List (Int × Nat)) :=
  (x.iSsObjects, x.iSsHandles)

def CScsServer.usable (m : CScsServer) (s : Nat) : List Int :=
  ((m.session s).map CScsSession.handles).getD []

/-- The message names a handle. -/
def TScsFunction.NamesHandle (f : Option TScsFunction) : Prop :=
  f = some .ECloseSubsession ∨ f = some .ECallSubsessionFunc ∨ f = some .ECancelSubsessionFunc

/-- Handles are named only while a subsession is open, and no reply is lost then. -/
def WellUsed (m : CScsServer) : Event → Prop
  | .message s aFunction _ a =>
      (TScsFunction.NamesHandle (TScsFunction.ofCode aFunction) → m.usable s ≠ []) ∧
        (TScsFunction.ofCode aFunction = some .ECreateSubsession → m.usable s ≠ [] →
          0 ≤ a.write)
  | _ => True

instance (f : Option TScsFunction) : Decidable (TScsFunction.NamesHandle f) := by
  unfold TScsFunction.NamesHandle
  infer_instance

instance (m : CScsServer) (e : Event) : Decidable (WellUsed m e) := by
  cases e <;> (unfold WellUsed; infer_instance)

/-! ### Functions that leave the handles alone -/

structure SameHandles (m t : CScsServer) : Prop where
  session : t.session = m.session
  nextSession : t.nextSession = m.nextSession
  nextSubsession : t.nextSubsession = m.nextSubsession
  crashed : t.crashed = m.crashed
  holds : ∀ s h, ClientHolds t.log s h ↔ ClientHolds m.log s h

theorem SameHandles.refl (m : CScsServer) : SameHandles m m :=
  ⟨rfl, rfl, rfl, rfl, fun _ _ => Iff.rfl⟩

theorem SameHandles.trans {m t u : CScsServer} (h : SameHandles m t) (h' : SameHandles t u) :
    SameHandles m u where
  session := h'.session.trans h.session
  nextSession := h'.nextSession.trans h.nextSession
  nextSubsession := h'.nextSubsession.trans h.nextSubsession
  crashed := h'.crashed.trans h.crashed
  holds s x := (h'.holds s x).trans (h.holds s x)

theorem SameHandles.completed (m : CScsServer) (x : Nat) (c : Completion) :
    SameHandles m (m.wrote (.completed x c)) := ⟨rfl, rfl, rfl, rfl, fun _ _ => Iff.rfl⟩

theorem clientHolds_append {l log : List Action} {s : Nat} {h : Int}
    (hl : ∀ act ∈ l, ∃ x c, act = .completed x c) :
    ClientHolds (l ++ log) s h ↔ ClientHolds log s h := by
  induction l with
  | nil => exact Iff.rfl
  | cons act l ih =>
      obtain ⟨x, c, rfl⟩ := hl act (by simp)
      exact ih fun act hact => hl act (by simp [hact])

theorem CScsServer.Moves.sameHandles {busy : List Nat} {m t : CScsServer}
    (h : m.Moves busy t) : SameHandles m t where
  session := h.session
  nextSession := h.nextSession
  nextSubsession := h.nextSubsession
  crashed := h.crashed
  holds s x := by
    obtain ⟨l, hl, hc⟩ := h.log
    rw [hl]
    exact clientHolds_append hc

/-- However it ends, the handles are what they were, and no null pointer was followed. -/
def KeepsHandles {α : Type} (m : CScsServer) (r : Except Halt α × CScsServer) : Prop :=
  Ends (fun _ t => SameHandles m t) (fun e t => e ≠ .undefined ∧ SameHandles m t) r

namespace KeepsHandles

variable {α β : Type} {m : CScsServer} {f : Server α} {g : α → Server β}

theorem bind (hf : KeepsHandles m (f m)) (hg : ∀ a t, SameHandles m t → KeepsHandles t (g a t)) :
    KeepsHandles m ((f >>= g) m) := by
  refine Ends.bind hf fun a t ht => ?_
  exact (hg a t ht).mono (fun _ _ h => ht.trans h) (fun _ _ h => ⟨h.1, ht.trans h.2⟩)

theorem of_moving {busy : List Nat} (hf : Moving busy f) : KeepsHandles m (f m) :=
  (hf m).mono (fun _ _ h => h.sameHandles) (fun _ _ h => ⟨by simp [h.1], h.2.sameHandles⟩)

theorem answers (x : Except Int α) : KeepsHandles m (answer x m) := by
  cases x with
  | ok a => exact SameHandles.refl m
  | error e => exact ⟨by simp, SameHandles.refl m⟩

theorem addAsyncRequestL (x : Nat) (r : CAsyncRequest) (s : Nat) (appendL : Except Int Unit) :
    KeepsHandles m (CScsServer.addAsyncRequestL x r s appendL m) := by
  refine Ends.then_get ?_
  cases m.findAsyncRequest s r.iSubsession r.iFunction with
  | some _ => exact ⟨by simp, SameHandles.refl m⟩
  | none =>
      refine bind (answers appendL) fun _ t _ => ?_
      exact ⟨rfl, rfl, rfl, rfl, fun _ _ => Iff.rfl⟩

theorem doServiceL (ss : Option Nat) (msg : RMessage2) (a : Answers) :
    KeepsHandles m (CScsSession.doServiceL ss msg a m) := by
  refine bind (of_moving Moving.work) fun _ t _ => ?_
  cases a.doServiceL with
  | served => exact SameHandles.refl t
  | leaves aError => exact ⟨by simp, SameHandles.refl t⟩
  | asynchronous appendL start =>
      refine bind (addAsyncRequestL _ _ _ _) fun _ u _ => ?_
      exact bind (of_moving Moving.work) fun _ v _ => SameHandles.refl v

end KeepsHandles

/-! ### Looking a handle up -/

namespace CScsSession

variable {m : CScsServer} {x : CScsSession} {hs : List (Int × Nat)} {msg : RMessage2}
  {a : Answers}

theorem thisSession_apply {s : Nat} (hx : m.session s = some x) :
    thisSession s m = (.ok x, m) := by simp [thisSession, deref, hx]

theorem atL_known {h : Int} (hin : h ∈ hs.map Prod.fst) : ∃ ss, (h, ss) ∈ hs ∧
    atL hs h m = (.ok ss, m) := by
  obtain ⟨entry, hentry, rfl⟩ := mem_map.mp hin
  have hsome : (hs.find? (fun e => e.1 = entry.1)).isSome := by
    rw [find?_isSome]
    exact ⟨entry, hentry, by simp⟩
  obtain ⟨found, hfound⟩ := Option.isSome_iff_exists.mp hsome
  have heq : found.1 = entry.1 := by simpa using find?_some hfound
  refine ⟨found.2, ?_, by simp [atL, hfound]⟩
  rw [← heq]
  exact mem_of_find?_eq_some hfound

theorem atL_unknown {h : Int} (hnot : h ∉ hs.map Prod.fst) :
    atL hs h m = (.error (.leave KErrBadHandle), m) := by
  have hnone : hs.find? (fun e => e.1 = h) = none := by
    rw [find?_eq_none]
    intro e he heq
    exact hnot (mem_map.mpr ⟨e, he, by simpa using heq⟩)
  simp [atL, hnone]

theorem getSubsessionL_apply (hx : m.session msg.iSession = some x)
    (hhs : x.iSsHandles = some hs) : getSubsessionL msg m = atL hs msg.int3 m := by
  simp [getSubsessionL, thisSession_apply hx, deref, hhs]

/-- A handle that is not in the index. -/
theorem delegateL_bad_handle (hf : NamesHandle msg.scsFunction)
    (hx : m.session msg.iSession = some x) (hhs : x.iSsHandles = some hs)
    (hnot : msg.int3 ∉ hs.map Prod.fst) :
    delegateL msg a m = (.error (.leave KErrBadHandle), m) := by
  have hget := getSubsessionL_apply hx hhs
  rw [atL_unknown hnot] at hget
  rcases hf with hf | hf | hf
  · simp [delegateL, hf, closeSubsessionL, hget]
  · simp [delegateL, hf, callSubsessionFunctionL, hget]
  · simp [delegateL, hf, cancelAsyncSubsessionRequestL, hget]

end CScsSession

/-! ### Functions that change one session -/

theorem CScsServer.setSession_session (m : CScsServer) (s y : Nat) (f : CScsSession → CScsSession) :
    (m.setSession s f).session y = if y = s then (m.session s).map f else m.session y := rfl

/-- Nothing but the session `s` and what its client holds has changed. -/
structure Touches (s : Nat) (m t : CScsServer) : Prop where
  others : ∀ y, y ≠ s → t.session y = m.session y
  nextSession : t.nextSession = m.nextSession
  nextSubsession : m.nextSubsession ≤ t.nextSubsession
  crashed : t.crashed = m.crashed
  holds : ∀ y, y ≠ s → ∀ h, ClientHolds t.log y h ↔ ClientHolds m.log y h

namespace Touches

variable {s : Nat} {m t u : CScsServer}

theorem trans (h : Touches s m t) (h' : Touches s t u) : Touches s m u where
  others y hy := (h'.others y hy).trans (h.others y hy)
  nextSession := h'.nextSession.trans h.nextSession
  nextSubsession := Nat.le_trans h.nextSubsession h'.nextSubsession
  crashed := h'.crashed.trans h.crashed
  holds y hy k := (h'.holds y hy k).trans (h.holds y hy k)

theorem setSession (f : CScsSession → CScsSession) : Touches s m (m.setSession s f) where
  others y hy := by rw [CScsServer.setSession_session, if_neg hy]
  nextSession := rfl
  nextSubsession := Nat.le_refl _
  crashed := rfl
  holds _ _ _ := Iff.rfl

end Touches

theorem SameHandles.touches {m t : CScsServer} (h : SameHandles m t) (s : Nat) :
    Touches s m t where
  others y _ := by rw [h.session]
  nextSession := h.nextSession
  nextSubsession := by rw [h.nextSubsession]
  crashed := h.crashed
  holds y _ := h.holds y

/-- The containers of a session between two messages. -/
structure Contained (nextSubsession : Nat) (x : CScsSession) : Prop where
  both : x.iSsObjects = none ↔ x.iSsHandles = none
  nonempty : x.iSsHandles ≠ some []
  below : ∀ os, x.iSsObjects = some os → ∀ ss ∈ os, ss < nextSubsession

/-- The invariant: every session has the handles that its client holds. -/
structure Handled (m : CScsServer) : Prop where
  contained : ∀ s x, m.session s = some x → Contained m.nextSubsession x
  holds : ∀ s x, m.session s = some x → ∀ h, ClientHolds m.log s h ↔ h ∈ x.handles
  fresh : ∀ s, m.nextSession ≤ s → m.session s = none ∧ ∀ h, ¬ ClientHolds m.log s h
  crashed : m.crashed = false

theorem Contained.mono {n k : Nat} {x : CScsSession} (h : Contained n x) (hle : n ≤ k) :
    Contained k x :=
  { h with below := fun os hos ss hss => Nat.lt_of_lt_of_le (h.below os hos ss hss) hle }

theorem Contained.handles_eq_nil {n : Nat} {x : CScsSession} (h : Contained n x) :
    x.handles = [] ↔ x.iSsHandles = none := by
  unfold CScsSession.handles
  cases hh : x.iSsHandles with
  | none => simp
  | some hs =>
      have hne : hs ≠ [] := fun heq => h.nonempty (by rw [hh, heq])
      simpa using hne

theorem Handled.touched {s : Nat} {m t : CScsServer} {z : CScsSession} (h : Handled m)
    (hs : m.session s ≠ none) (ht : Touches s m t) (hz : t.session s = some z)
    (hcz : Contained t.nextSubsession z) (hhz : ∀ k, ClientHolds t.log s k ↔ k ∈ z.handles) :
    Handled t where
  contained y x hx := by
    by_cases hy : y = s
    · rw [hy, hz] at hx
      cases hx
      exact hcz
    · rw [ht.others y hy] at hx
      exact (h.contained y x hx).mono ht.nextSubsession
  holds y x hx k := by
    by_cases hy : y = s
    · rw [hy, hz] at hx
      cases hx
      rw [hy]
      exact hhz k
    · rw [ht.others y hy] at hx
      exact (ht.holds y hy k).trans (h.holds y x hx k)
  fresh y hy := by
    rw [ht.nextSession] at hy
    have hne : y ≠ s := fun heq => hs (heq ▸ (h.fresh y hy).1)
    rw [ht.others y hne]
    exact ⟨(h.fresh y hy).1, fun k hk => (h.fresh y hy).2 k ((ht.holds y hne k).mp hk)⟩
  crashed := ht.crashed.trans h.crashed

theorem Handled.same {m t : CScsServer} (h : Handled m) (ht : SameHandles m t) : Handled t where
  contained s x hx := by
    rw [ht.nextSubsession]
    exact h.contained s x (ht.session ▸ hx)
  holds s x hx k := (ht.holds s k).trans (h.holds s x (ht.session ▸ hx) k)
  fresh s hs := by
    rw [ht.nextSession] at hs
    rw [ht.session]
    exact ⟨(h.fresh s hs).1, fun k hk => (h.fresh s hs).2 k ((ht.holds s k).mp hk)⟩
  crashed := ht.crashed.trans h.crashed

/-! ### Creating a subsession -/

/-- The session has a new handle, and its client has it too. -/
structure Gains (s : Nat) (os : List Nat) (hs : List (Int × Nat)) (m t : CScsServer) :
    Prop where
  touches : Touches s m t
  handle : ∃ h ss z, t.session s = some z ∧ z.iSsObjects = some (os ++ [ss]) ∧
    z.iSsHandles = some (hs ++ [(h, ss)]) ∧ ss < t.nextSubsession ∧
    ∀ k, ClientHolds t.log s k ↔ k = h ∨ ClientHolds m.log s k

/-- The create was given up: the client has no new handle, and the containers of the session,
which was `x`, stay where `keeps` says so. -/
structure GivesUp (s : Nat) (x : CScsSession) (keeps : Prop) (m t : CScsServer) : Prop where
  touches : Touches s m t
  holds : ∀ k, ClientHolds t.log s k ↔ ClientHolds m.log s k
  left : ∃ z, t.session s = some z ∧
    z.iPreCreateSubsessionCount = x.iPreCreateSubsessionCount ∧
    (keeps → z.containers = x.containers)

namespace CScsSession

variable {s : Nat} {m : CScsServer} {x : CScsSession} {os : List Nat} {hs : List (Int × Nat)}
  {a : Answers}

theorem onSession_apply (f : CScsSession → CScsSession) :
    onSession s f m = (.ok ⟨⟩, m.setSession s f) := rfl

section

variable (hx : m.session s = some x)
include hx

theorem addHandleL_ends {ss : Nat} (hhs : x.iSsHandles = some hs) :
    Ends (fun h t => h ∉ hs.map Prod.fst ∧
        t = m.setSession s ({ · with iSsHandles := some (hs ++ [(h, ss)]) }))
      (fun e t => e ≠ .undefined ∧ (e ≠ .contract →
        t = m.setSession s fun y => { y with iSsObjects := y.iSsObjects.map (·.erase ss) }))
      (addHandleL s ss a m) := by
  have hstart : addHandleL s ss a m = giveHandle s ss hs a.handlesAddL m := by
    simp [addHandleL, thisSession_apply hx, deref, hhs]
  rw [hstart]
  cases a.handlesAddL with
  | error aError => exact ⟨by simp, fun _ => rfl⟩
  | ok h =>
      by_cases hc : ∀ entry ∈ hs, entry.1 ≠ h
      · have hnot : h ∉ hs.map Prod.fst := by
          intro hin
          obtain ⟨entry, hentry, heq⟩ := mem_map.mp hin
          exact hc entry hentry heq
        have hok : contract (∀ entry ∈ hs, entry.1 ≠ h) m = (.ok (), m) := by
          simp only [contract, if_pos hc]
          rfl
        rw [giveHandle, bind_ok hok]
        exact ⟨hnot, rfl⟩
      · have herr : contract (∀ entry ∈ hs, entry.1 ≠ h) m = (.error .contract, m) := by
          simp only [contract, if_neg hc]
          rfl
        rw [giveHandle, bind_apply, herr]
        exact ⟨by simp, fun hne => absurd rfl hne⟩

theorem registerL_ends {ss : Nat} (hos : x.iSsObjects = some os) (hhs : x.iSsHandles = some hs)
    (hss : ss ∉ os) (hlt : ss < m.nextSubsession) :
    Ends (fun _ t => Gains s os hs m t)
      (fun e t => e ≠ .undefined ∧ (e ≠ .contract →
        GivesUp s x (0 ≤ a.write) m t)) (registerL s ss a m) := by
  have hstart : registerL s ss a m = (do
      answer a.objectsAddL
      onSession s ({ · with iSsObjects := some (os ++ [ss]) })
      let handle ← addHandleL s ss a
      answer (if a.write < 0 then .error a.write else .ok ())
      note (.created s handle) : Server Unit) m := by
    have hobjects : deref x.iSsObjects m = (.ok os, m) := by simp [deref, hos]
    rw [registerL, bind_ok (thisSession_apply hx), bind_ok hobjects]
  rw [hstart]
  refine Ends.bind (Q := fun _ t => t = m) ?_ fun _ t ht => ?_
  · cases a.objectsAddL with
    | ok _ => rfl
    | error e =>
      exact ⟨by simp, fun _ => ⟨(SameHandles.refl m).touches s, fun _ => Iff.rfl, x, hx, rfl,
        fun _ => rfl⟩⟩
  rw [ht, bind_ok (onSession_apply _)]
  set objectsAdded := m.setSession s ({ · with iSsObjects := some (os ++ [ss]) }) with hadded
  have hadd : objectsAdded.session s = some { x with iSsObjects := some (os ++ [ss]) } := by
    simp [hadded, CScsServer.setSession_session, hx]
  have ht1 : Touches s m objectsAdded := .setSession _
  refine Ends.bind ((addHandleL_ends hadd hhs).mono (fun _ _ h => h) ?_) ?_
  · -- the object is closed again
    rintro e u ⟨hne, hu⟩
    refine ⟨hne, fun hcon => ?_⟩
    rw [hu hcon]
    refine ⟨ht1.trans (.setSession _), fun _ => Iff.rfl,
      { x with iSsObjects := some ((os ++ [ss]).erase ss) }, ?_, rfl, fun _ => ?_⟩
    · simp [CScsServer.setSession_session, hadd]
    · simp [CScsSession.containers, hos, erase_append_right _ hss]
  rintro h u ⟨hnot, hu⟩
  have hsession : u.session s = some { x with
      iSsObjects := some (os ++ [ss]), iSsHandles := some (hs ++ [(h, ss)]) } := by
    rw [hu]
    simp [CScsServer.setSession_session, hadd]
  have ht2 : Touches s m u := by
    rw [hu]
    exact ht1.trans (.setSession _)
  have hlog : u.log = m.log := by
    rw [hu]
    rfl
  by_cases hw : a.write < 0
  · refine Ends.bind (Q := fun _ _ => False) ?_ fun _ _ hf => hf.elim
    simp only [if_pos hw]
    refine ⟨by simp, fun _ => ⟨ht2, fun k => by rw [hlog], _, hsession, rfl, fun hle => ?_⟩⟩
    exact absurd hw (Int.not_lt.mpr hle)
  · refine Ends.bind (Q := fun _ v => v = u) ?_ fun _ v hv => ?_
    · simp only [if_neg hw]
      rfl
    rw [hv]
    have hholds : ∀ y k, ClientHolds (u.wrote (.created s h)).log y k ↔
        (s = y ∧ h = k) ∨ ClientHolds m.log y k := by
      intro y k
      rw [← hlog]
      exact Iff.rfl
    refine ⟨⟨ht2.others, ht2.nextSession, ht2.nextSubsession, ht2.crashed, ?_⟩, h, ss, _,
      hsession, rfl, rfl, Nat.lt_of_lt_of_le hlt ht2.nextSubsession, ?_⟩
    · intro y hy k
      exact (hholds y k).trans (or_iff_right fun hc => hy hc.1.symm)
    · intro k
      refine (hholds s k).trans (or_congr ?_ Iff.rfl)
      simp [eq_comm]

theorem addSubsessionL_ends (hos : x.iSsObjects = some os) (hhs : x.iSsHandles = some hs)
    (hbelow : ∀ ss ∈ os, ss < m.nextSubsession) :
    Ends (fun _ t => Gains s os hs m t)
      (fun e t => e ≠ .undefined ∧ (e ≠ .contract →
        GivesUp s x (0 ≤ a.write) m t)) (addSubsessionL s a m) := by
  have hgive : ∀ {t : CScsServer}, SameHandles m t →
      GivesUp s x (0 ≤ a.write) m t := fun ht =>
    ⟨ht.touches s, ht.holds s, x, ht.session ▸ hx, rfl, fun _ => rfl⟩
  refine Ends.bind (Q := fun _ t => SameHandles m t) ?_ fun _ t ht => ?_
  · exact (Moving.work m).mono (fun _ _ h => h.sameHandles)
      (fun _ _ h => ⟨by simp [h.1], fun _ => hgive h.2.sameHandles⟩)
  refine Ends.bind (Q := fun _ u => u = t) ?_ fun _ u hu => ?_
  · cases a.doCreateSubsessionL with
    | ok _ => rfl
    | error e => exact ⟨by simp, fun _ => hgive ht⟩
  rw [hu]
  have hxt : t.session s = some x := ht.session ▸ hx
  have hnew : t.nextSubsession ∉ os := fun hin =>
    Nat.lt_irrefl _ (ht.nextSubsession ▸ hbelow _ hin)
  -- the new subsession is the next one
  have hnext : Touches s m { t with nextSubsession := t.nextSubsession + 1 } :=
    (ht.touches s).trans ⟨fun _ _ => rfl, rfl, Nat.le_succ _, rfl, fun _ _ _ => Iff.rfl⟩
  have hreg := registerL_ends (m := { t with nextSubsession := t.nextSubsession + 1 }) (a := a)
    hxt hos hhs hnew (Nat.lt_succ_self _)
  refine hreg.mono ?_ ?_
  · intro _ u hu
    obtain ⟨h, ss, z, hz, hzo, hzh, hlt, hk⟩ := hu.handle
    exact ⟨hnext.trans hu.touches, h, ss, z, hz, hzo, hzh, hlt, fun k => by
      rw [hk k]
      exact or_congr Iff.rfl (ht.holds s k)⟩
  · intro e u hu
    refine ⟨hu.1, fun hne => ?_⟩
    have hg := hu.2 hne
    exact ⟨hnext.trans hg.touches, fun k => (hg.holds k).trans (ht.holds s k), hg.left⟩

theorem createContainersL_ends {n : Nat} (hc : Contained n x) :
    Ends (fun _ t => Touches s m t ∧ (∀ k, ClientHolds t.log s k ↔ ClientHolds m.log s k) ∧
        t.session s = some { x with
          iSsObjects := some (x.iSsObjects.getD []), iSsHandles := some (x.iSsHandles.getD []) })
      (fun e t => e ≠ .undefined ∧ (e ≠ .contract → GivesUp s x (x.iSsHandles ≠ none) m t))
      (createContainersL s a m) := by
  have hstart : createContainersL s a m = doIf (x.iSsObjects = none) (do
      answer a.createL
      onSession s ({ · with iSsObjects := some [] })
      answer a.newL
      onSession s ({ · with iSsHandles := some [] })) m := by
    rw [createContainersL, bind_ok (thisSession_apply hx)]
  rw [hstart]
  cases hos : x.iSsObjects with
  | some os =>
      have hsome : x.iSsHandles ≠ none := fun hnone => by simp [hc.both.mpr hnone] at hos
      obtain ⟨hs, hhs⟩ := Option.ne_none_iff_exists'.mp hsome
      refine ⟨(SameHandles.refl m).touches s, fun _ => Iff.rfl, ?_⟩
      rw [hx]
      rcases x with ⟨count, objects, handles⟩
      simp_all
  | none =>
      have hhs : x.iSsHandles = none := hc.both.mp hos
      simp only [doIf, if_true]
      cases a.createL with
      | error e =>
        exact ⟨by simp, fun _ => ⟨(SameHandles.refl m).touches s, fun _ => Iff.rfl, x, hx, rfl,
          fun _ => rfl⟩⟩
      | ok _ =>
        rw [answer, bind_ok (pure_apply _ _), bind_ok (onSession_apply _)]
        cases a.newL with
        | error e =>
          refine ⟨by simp, fun _ => ⟨.setSession _, fun _ => Iff.rfl,
            { x with iSsObjects := some [] }, ?_, rfl, ?_⟩⟩
          · rw [CScsServer.setSession_session, if_pos rfl, hx]
            rfl
          · exact fun hkeeps => absurd hhs hkeeps
        | ok _ =>
          rw [answer, bind_ok (pure_apply _ _), onSession_apply]
          refine ⟨.trans (.setSession _) (.setSession _), fun _ => Iff.rfl, ?_⟩
          simp [CScsServer.setSession_session, hx, hhs]

end

theorem createSubsessionL_ends {msg : RMessage2} (hx : m.session msg.iSession = some x)
    (hc : Contained m.nextSubsession x) :
    Ends (fun _ t => Gains msg.iSession (x.iSsObjects.getD []) (x.iSsHandles.getD []) m t)
      (fun e t => e ≠ .undefined ∧ (e ≠ .contract →
        GivesUp msg.iSession x (x.iSsHandles ≠ none ∧ 0 ≤ a.write) m t))
      (createSubsessionL msg a m) := by
  refine Ends.bind ((createContainersL_ends hx hc).mono (fun _ _ h => h) ?_) ?_
  · rintro e t ⟨hne, hgive⟩
    refine ⟨hne, fun hcon => ?_⟩
    obtain ⟨ht, hh, z, hz, hpre, hkeeps⟩ := hgive hcon
    exact ⟨ht, hh, z, hz, hpre, fun h => hkeeps h.1⟩
  rintro _ t ⟨ht, hh, hz⟩
  have hbelow : ∀ ss ∈ x.iSsObjects.getD [], ss < t.nextSubsession := by
    intro ss hss
    cases hos : x.iSsObjects with
    | none => simp [hos] at hss
    | some os =>
      have hlt := hc.below os hos ss (by simpa [hos] using hss)
      exact Nat.lt_of_lt_of_le hlt ht.nextSubsession
  refine (addSubsessionL_ends hz rfl rfl hbelow).mono ?_ ?_
  · intro _ u hu
    obtain ⟨h, ss, z, hz, hzo, hzh, hlt, hk⟩ := hu.handle
    exact ⟨ht.trans hu.touches, h, ss, z, hz, hzo, hzh, hlt, fun k => by
      rw [hk k]
      exact or_congr Iff.rfl (hh k)⟩
  · rintro e u ⟨hne, hgive⟩
    refine ⟨hne, fun hcon => ?_⟩
    obtain ⟨htu, hhu, z, hz, hpre, hkeeps⟩ := hgive hcon
    refine ⟨ht.trans htu, fun k => (hhu k).trans (hh k), z, hz, hpre, ?_⟩
    rintro ⟨hsome, hwrite⟩
    obtain ⟨hs, hhs⟩ := Option.ne_none_iff_exists'.mp hsome
    obtain ⟨os, hos⟩ := Option.ne_none_iff_exists'.mp fun hnone => hsome (hc.both.mp hnone)
    rw [hkeeps hwrite]
    simp [containers, hhs, hos]

/-! ### Closing one -/

/-- The handle is gone, from the session and from its client. -/
structure Loses (s : Nat) (x : CScsSession) (h : Int) (m t : CScsServer) : Prop where
  touches : Touches s m t
  left : ∃ z, t.session s = some z ∧ Contained t.nextSubsession z ∧
    ∀ k, k ∈ z.handles ↔ k ≠ h ∧ k ∈ x.handles
  holds : ∀ k, ClientHolds t.log s k ↔ k ≠ h ∧ ClientHolds m.log s k

theorem mem_handles (hhs : x.iSsHandles = some hs) (h : Int) :
    h ∈ x.handles ↔ h ∈ hs.map Prod.fst := by simp [handles, hhs]

theorem removeHandle_ends {h : Int} (hx : m.session s = some x)
    (hc : Contained m.nextSubsession x) (hin : h ∈ x.handles) :
    Ends (fun _ t => Touches s m t ∧ t.log = m.log ∧
        ∃ z, t.session s = some z ∧ Contained t.nextSubsession z ∧
          ∀ k, k ∈ z.handles ↔ k ≠ h ∧ k ∈ x.handles) (fun _ _ => False) (removeHandle s h m) := by
  have hsome : x.iSsHandles ≠ none := fun hnone => by simp [handles, hnone] at hin
  obtain ⟨hs, hhs⟩ := Option.ne_none_iff_exists'.mp hsome
  obtain ⟨os, hos⟩ := Option.ne_none_iff_exists'.mp fun hnone => hsome (hc.both.mp hnone)
  have hmem : ∀ k, k ∈ (hs.filter (fun entry => entry.1 ≠ h)).map Prod.fst ↔
      k ≠ h ∧ k ∈ x.handles := by
    intro k
    rw [mem_handles hhs]
    simp only [mem_map, mem_filter, decide_eq_true_eq]
    constructor
    · rintro ⟨entry, ⟨hentry, hne⟩, rfl⟩
      exact ⟨hne, entry, hentry, rfl⟩
    · rintro ⟨hne, entry, hentry, rfl⟩
      exact ⟨entry, ⟨hentry, hne⟩, rfl⟩
  obtain ⟨ss, -, hat⟩ := atL_known (m := m) ((mem_handles hhs h).mp hin)
  have hderef : deref x.iSsHandles m = (.ok hs, m) := by simp [deref, hhs]
  rw [removeHandle, bind_ok (thisSession_apply hx), bind_ok hderef, bind_ok hat,
    bind_ok (onSession_apply _), closeObject, bind_ok (onSession_apply _)]
  by_cases hlast : hs.filter (fun entry => entry.1 ≠ h) = []
  · -- the containers go with the last subsession
    rw [doIf, if_pos hlast]
    refine ⟨.trans (.setSession _) (.trans (.setSession _) (.setSession _)), rfl,
      { x with iSsObjects := none, iSsHandles := none }, ?_, ⟨by simp, by simp, by simp⟩, ?_⟩
    · simp [CScsServer.setSession_session, hx]
    · intro k
      rw [← hmem k, hlast]
      simp [handles]
  · rw [doIf, if_neg hlast]
    refine ⟨.trans (.setSession _) (.setSession _), rfl,
      { x with
        iSsObjects := some (os.erase ss)
        iSsHandles := some (hs.filter (fun entry => entry.1 ≠ h)) }, ?_, ⟨by simp, ?_, ?_⟩,
      fun k => ?_⟩
    · simp [CScsServer.setSession_session, hx, hos]
    · simpa using hlast
    · intro os' heq x' hx'
      cases heq
      exact hc.below os hos x' (mem_of_mem_erase hx')
    · rw [← hmem k]
      rfl

theorem closeSubsessionL_ends {msg : RMessage2} (hx : m.session msg.iSession = some x)
    (hc : Contained m.nextSubsession x) (hin : msg.int3 ∈ x.handles) :
    Ends (fun _ t => Loses msg.iSession x msg.int3 m t) (fun e _ => e = .contract)
      (closeSubsessionL msg a m) := by
  have hsome : x.iSsHandles ≠ none := fun hnone => by simp [handles, hnone] at hin
  obtain ⟨hs, hhs⟩ := Option.ne_none_iff_exists'.mp hsome
  obtain ⟨ss, -, hat⟩ := atL_known (m := m) ((mem_handles hhs _).mp hin)
  have hget : getSubsessionL msg m = (.ok ss, m) := (getSubsessionL_apply hx hhs).trans hat
  rw [closeSubsessionL, bind_ok hget]
  refine Ends.bind (Q := fun _ t => SameHandles m t) ?_ fun _ t ht => ?_
  · exact (Moving.cancelOutstandingRequests _ _ _ _ m).mono (fun _ _ h => h.sameHandles)
      (fun _ _ h => h.1)
  have hremove := removeHandle_ends (m := t) (s := msg.iSession) (h := msg.int3)
    (ht.session ▸ hx) (ht.nextSubsession ▸ hc) hin
  refine Ends.bind (hremove.mono (fun _ _ h => h) (fun _ _ h => h.elim)) ?_
  rintro _ u ⟨htu, hlog, hleft⟩
  have hholds : ∀ y k, ClientHolds (u.wrote (.closed msg.iSession msg.int3)).log y k ↔
      ¬ (msg.iSession = y ∧ msg.int3 = k) ∧ ClientHolds m.log y k := by
    intro y k
    refine Iff.trans (b := ¬ (msg.iSession = y ∧ msg.int3 = k) ∧ ClientHolds u.log y k)
      Iff.rfl (and_congr_right fun _ => ?_)
    rw [hlog]
    exact ht.holds y k
  have htouch : Touches msg.iSession m u := (ht.touches _).trans htu
  refine ⟨⟨htouch.others, htouch.nextSession, htouch.nextSubsession, htouch.crashed, ?_⟩, hleft, ?_⟩
  · intro y hy k
    exact (hholds y k).trans (and_iff_right fun hc => hy hc.1.symm)
  · intro k
    refine (hholds _ k).trans (and_congr_left fun _ => ?_)
    simp [eq_comm]

/-! ### Serving a message -/

theorem completeError_apply (msg : RMessage2) (aError : Int) (m : CScsServer) :
    ∃ c, completeError msg aError m = (.ok ⟨⟩, m.wrote (.completed msg.iHandle c)) := by
  unfold completeError
  repeat' split
  all_goals exact ⟨_, rfl⟩

section

variable {msg : RMessage2} (hx : m.session msg.iSession = some x)
include hx

/-- After the leave of a message that was no create. -/
theorem serviceError_keeps {aError : Int} (hf : msg.scsFunction ≠ some .ECreateSubsession) :
    Ends (fun _ t => SameHandles m t) (fun _ _ => False) (serviceError msg aError m) := by
  have hstart : serviceError msg aError m = (completeError msg aError) m := by
    rw [serviceError, bind_ok (thisSession_apply hx), doIf, if_neg fun h => hf h.1]
    rfl
  obtain ⟨c, hc⟩ := completeError_apply msg aError m
  rw [hstart, hc]
  exact SameHandles.completed m _ _

theorem getSubsessionL_keeps (hhs : x.iSsHandles = some hs) :
    KeepsHandles m (getSubsessionL msg m) := by
  rw [getSubsessionL_apply hx hhs]
  unfold atL
  cases hs.find? (fun entry => entry.1 = msg.int3) with
  | some entry => exact SameHandles.refl m
  | none => exact ⟨by simp, SameHandles.refl m⟩

/-- A message that neither creates nor closes a subsession. -/
theorem delegateL_keeps (hopen : NamesHandle msg.scsFunction → x.iSsHandles ≠ none)
    (hcreate : msg.scsFunction ≠ some .ECreateSubsession)
    (hclose : msg.scsFunction ≠ some .ECloseSubsession) : KeepsHandles m (delegateL msg a m) := by
  have hget : NamesHandle msg.scsFunction → KeepsHandles m (getSubsessionL msg m) := by
    intro hf
    obtain ⟨hs, hhs⟩ := Option.ne_none_iff_exists'.mp (hopen hf)
    exact getSubsessionL_keeps hx hhs
  have htrue : ∀ t, KeepsHandles t ((pure true : Server Bool) t) := fun t => SameHandles.refl t
  unfold delegateL
  cases hf : msg.scsFunction with
  | none => exact ⟨by simp, SameHandles.refl m⟩
  | some f =>
      cases f with
      | ECallSessionFunc => exact .doServiceL none msg a
      | ECallSubsessionFunc =>
        exact .bind (hget (.inr (.inl hf))) fun ss t _ => .doServiceL (some ss) msg a
      | EPreCloseSession =>
        exact .bind (.of_moving (.cancelOutstandingRequests _ _ _ _)) fun _ t _ => htrue t
      | ECancelSessionFunc =>
        exact .bind (.of_moving (.cancelAsyncRequest _ _ _ _)) fun _ t _ => htrue t
      | ECreateSubsession => exact absurd hf hcreate
      | ECloseSubsession => exact absurd hf hclose
      | ECancelSubsessionFunc =>
        refine .bind (.bind (hget (.inr (.inr hf))) fun ss t _ => ?_) fun _ t _ => htrue t
        exact .of_moving (.cancelAsyncRequest _ _ _ _)
      | EUHeapSetFail => exact htrue m
      | EUHeapResetFail => exact htrue m
      | EGetServerPid => exact .bind (.answers _) fun _ t _ => htrue t
      | EShutdownAsap =>
        refine .bind (f := get) (SameHandles.refl m) fun _ t _ => ?_
        exact .bind (.answers _) fun _ u _ => htrue u

end

theorem serviceL_ends {msg : RMessage2} {Q : CScsServer → Prop} {E : Halt → CScsServer → Prop}
    (hd : Ends (fun _ t => Q t) E (delegateL msg a m))
    (hQ : ∀ t, Q t → Q (t.wrote (.completed msg.iHandle (.complete KErrNone)))) :
    Ends (fun _ t => Q t) E (serviceL msg a m) := by
  refine Ends.bind hd fun b t ht => ?_
  cases b with
  | false => exact ht
  | true => exact hQ t ht

/-- Such a message leaves the handles alone, however it is answered. -/
theorem service_keeps {msg : RMessage2} (hx : m.session msg.iSession = some x)
    (hcreate : msg.scsFunction ≠ some .ECreateSubsession)
    (hd : KeepsHandles m (delegateL msg a m)) :
    Ends (fun _ t => SameHandles m t) (fun e _ => e = .contract) (service msg a m) := by
  have hserve : KeepsHandles m (serviceL msg a m) :=
    serviceL_ends hd fun t ht => ht.trans (.completed t _ _)
  refine Ends.tryCatch hserve fun e t ht => ?_
  cases e with
  | leave aError =>
      refine (serviceError_keeps (ht.2.session ▸ hx) hcreate).mono ?_ (fun _ _ h => h.elim)
      exact fun _ _ h => ht.2.trans h
  | undefined => exact absurd rfl ht.1
  | contract => rfl

theorem service_close {msg : RMessage2} (hx : m.session msg.iSession = some x)
    (hc : Contained m.nextSubsession x) (hf : msg.scsFunction = some .ECloseSubsession)
    (hin : msg.int3 ∈ x.handles) :
    Ends (fun _ t => Loses msg.iSession x msg.int3 m t) (fun e _ => e = .contract)
      (service msg a m) := by
  have hd : Ends (fun _ t => Loses msg.iSession x msg.int3 m t) (fun e _ => e = .contract)
      (delegateL msg a m) := by
    simp only [delegateL, hf]
    exact Ends.bind (closeSubsessionL_ends hx hc hin) fun _ _ ht => ht
  have hserve : Ends (fun _ t => Loses msg.iSession x msg.int3 m t) (fun e _ => e = .contract)
      (serviceL msg a m) :=
    serviceL_ends hd fun t ht =>
      ⟨ht.touches.trans ((SameHandles.completed t _ _).touches _), ht.left, ht.holds⟩
  refine Ends.tryCatch hserve fun e t he => ?_
  rw [he]
  rfl

/-- A create that fails leaves the containers as they were. -/
structure Restores (s : Nat) (x : CScsSession) (m t : CScsServer) : Prop where
  touches : Touches s m t
  holds : ∀ k, ClientHolds t.log s k ↔ ClientHolds m.log s k
  left : ∃ z, t.session s = some z ∧ z.containers = x.containers

theorem serviceError_create {msg : RMessage2} {n : CScsServer} {aError : Int}
    (hc : Contained m.nextSubsession x) (hf : msg.scsFunction = some .ECreateSubsession)
    (hg : GivesUp msg.iSession
      { x with iPreCreateSubsessionCount := (x.iSsHandles.getD []).length }
      (x.iSsHandles ≠ none) m n) :
    Ends (fun _ t => Restores msg.iSession x m t) (fun _ _ => False)
      (serviceError msg aError n) := by
  obtain ⟨ht, hh, z, hz, hpre, hkeeps⟩ := hg
  rw [serviceError, bind_ok (thisSession_apply hz)]
  have hdone : ∀ {u : CScsServer}, Restores msg.iSession x m u →
      Ends (fun _ t => Restores msg.iSession x m t) (fun _ _ => False)
        (completeError msg aError u) := by
    intro u hu
    obtain ⟨c, hcomplete⟩ := completeError_apply msg aError u
    rw [hcomplete]
    exact ⟨hu.touches.trans ((SameHandles.completed u _ _).touches _), hu.holds, hu.left⟩
  by_cases hfirst : x.iSsHandles = none
  · -- the first subsession: the containers are deleted again
    have hzero : z.iPreCreateSubsessionCount = 0 := by simp [hpre, hfirst]
    rw [doIf, if_pos ⟨hf, hzero⟩]
    refine hdone ⟨ht.trans (.setSession _), hh, { z with iSsHandles := none, iSsObjects := none },
      ?_, ?_⟩
    · rw [CScsServer.setSession_session, if_pos rfl, hz]
      rfl
    · simp [containers, hfirst, hc.both.mpr hfirst]
  · obtain ⟨hs, hhs⟩ := Option.ne_none_iff_exists'.mp hfirst
    have hne : hs ≠ [] := fun heq => hc.nonempty (by rw [hhs, heq])
    have hpos : z.iPreCreateSubsessionCount ≠ 0 := by simp [hpre, hhs, hne]
    rw [doIf, if_neg fun h => hpos h.2]
    exact hdone ⟨ht, hh, z, hz, hkeeps hfirst⟩

theorem service_create {msg : RMessage2} (hx : m.session msg.iSession = some x)
    (hc : Contained m.nextSubsession x) (hf : msg.scsFunction = some .ECreateSubsession)
    (hwrite : x.iSsHandles ≠ none → 0 ≤ a.write) :
    Ends (fun _ t => Gains msg.iSession (x.iSsObjects.getD []) (x.iSsHandles.getD []) m t ∧
          t.log.head? = some (.completed msg.iHandle (.complete KErrNone)) ∨
        Restores msg.iSession x m t) (fun e _ => e = .contract) (service msg a m) := by
  let y : CScsSession := { x with iPreCreateSubsessionCount := (x.iSsHandles.getD []).length }
  let n := m.setSession msg.iSession fun y =>
    { y with iPreCreateSubsessionCount := (y.iSsHandles.getD []).length }
  have hn : Touches msg.iSession m n := .setSession _
  have hy : n.session msg.iSession = some y := by
    rw [CScsServer.setSession_session, if_pos rfl, hx]
    rfl
  have hcy : Contained n.nextSubsession y := ⟨hc.both, hc.nonempty, hc.below⟩
  have hstart : delegateL msg a m = (do createSubsessionL msg a; pure true : Server Bool) n := by
    simp only [delegateL, hf]
    rfl
  have hcreate : Ends
      (fun _ t => Gains msg.iSession (x.iSsObjects.getD []) (x.iSsHandles.getD []) n t)
      (fun e t => e ≠ .undefined ∧ (e ≠ .contract →
        GivesUp msg.iSession y (x.iSsHandles ≠ none) m t)) (createSubsessionL msg a n) := by
    refine (createSubsessionL_ends (a := a) hy hcy).mono (fun _ _ h => h) ?_
    rintro e t ⟨hne, hg⟩
    refine ⟨hne, fun hcon => ?_⟩
    obtain ⟨ht, hh, z, hz, hpre, hkeeps⟩ := hg hcon
    exact ⟨hn.trans ht, hh, z, hz, hpre, fun hsome => hkeeps ⟨hsome, hwrite hsome⟩⟩
  have hserve : Ends
      (fun _ t => Gains msg.iSession (x.iSsObjects.getD []) (x.iSsHandles.getD []) m t ∧
        t.log.head? = some (.completed msg.iHandle (.complete KErrNone)))
      (fun e t => e ≠ .undefined ∧ (e ≠ .contract →
        GivesUp msg.iSession y (x.iSsHandles ≠ none) m t)) (serviceL msg a m) := by
    refine Ends.bind (Q := fun b t => b = true ∧
      Gains msg.iSession (x.iSsObjects.getD []) (x.iSsHandles.getD []) n t) ?_ ?_
    · rw [hstart]
      exact Ends.bind hcreate fun _ _ h => ⟨rfl, h⟩
    · rintro b t ⟨rfl, ht, h, ss, z, hz, hzo, hzh, hlt, hk⟩
      refine ⟨⟨(hn.trans ht).trans ((SameHandles.completed t _ _).touches _), h, ss, z, hz, hzo,
        hzh, hlt, hk⟩, rfl⟩
  refine Ends.tryCatch (hserve.mono (fun _ _ h => .inl h) (fun _ _ h => h)) fun e t ht => ?_
  cases e with
  | leave aError =>
      exact (serviceError_create hc hf (ht.2 (by simp))).mono (fun _ _ h => .inr h)
        (fun _ _ h => h.elim)
  | undefined => exact absurd rfl ht.1
  | contract => rfl

end CScsSession

/-! ### Whole runs -/

open CScsServer CScsSession

theorem Gains.handled {s : Nat} {m t : CScsServer} {x : CScsSession} (h : Handled m)
    (hx : m.session s = some x)
    (hg : Gains s (x.iSsObjects.getD []) (x.iSsHandles.getD []) m t) : Handled t := by
  obtain ⟨k, ss, z, hz, hos, hhs, hlt, hk⟩ := hg.handle
  refine h.touched (by simp [hx]) hg.touches hz ⟨by simp [hos, hhs], by simp [hhs], ?_⟩ ?_
  · intro os heq y hy
    rw [hos] at heq
    cases heq
    rcases mem_append.mp hy with hold | hnew
    · cases hobjects : x.iSsObjects with
      | none => simp [hobjects] at hold
      | some os =>
        have hbelow := (h.contained s x hx).below os hobjects y (by simpa [hobjects] using hold)
        exact Nat.lt_of_lt_of_le hbelow hg.touches.nextSubsession
    · rw [mem_singleton.mp hnew]
      exact hlt
  · intro k'
    rw [hk k', h.holds s x hx, mem_handles hhs]
    simp [handles, or_comm]

theorem CScsSession.Restores.handled {s : Nat} {m t : CScsServer} {x : CScsSession} (h : Handled m)
    (hx : m.session s = some x) (hr : Restores s x m t) : Handled t := by
  obtain ⟨z, hz, hcontainers⟩ := hr.left
  have hc := h.contained s x hx
  obtain ⟨hos, hhs⟩ := Prod.mk.inj hcontainers
  refine h.touched (by simp [hx]) hr.touches hz
    ⟨by rw [hos, hhs]; exact hc.both, by rw [hhs]; exact hc.nonempty, ?_⟩ ?_
  · intro os heq y hy
    exact Nat.lt_of_lt_of_le (hc.below os (hos ▸ heq) y hy) hr.touches.nextSubsession
  · intro k
    rw [hr.holds k, h.holds s x hx]
    simp [handles, hhs]

theorem CScsSession.Loses.handled {s : Nat} {m t : CScsServer} {x : CScsSession} {k : Int}
    (h : Handled m) (hx : m.session s = some x) (hl : Loses s x k m t) : Handled t := by
  obtain ⟨z, hz, hc, hmem⟩ := hl.left
  refine h.touched (by simp [hx]) hl.touches hz hc fun k' => ?_
  rw [hl.holds k', hmem k', h.holds s x hx]

/-- A message that meets the condition keeps the invariant and does not crash the server. -/
theorem Handled.service {m : CScsServer} {x : CScsSession} {msg : RMessage2} {a : Answers}
    (h : Handled m) (hx : m.session msg.iSession = some x)
    (hopen : NamesHandle msg.scsFunction → x.handles ≠ [])
    (hwrite : msg.scsFunction = some .ECreateSubsession → x.handles ≠ [] → 0 ≤ a.write) :
    Ends (fun _ t => Handled t) (fun e _ => e = .contract) (CScsSession.service msg a m) := by
  have hc := h.contained _ x hx
  have hsome : NamesHandle msg.scsFunction → x.iSsHandles ≠ none := fun hf hnone =>
    hopen hf (hc.handles_eq_nil.mpr hnone)
  by_cases hcreate : msg.scsFunction = some .ECreateSubsession
  · have hreply : x.iSsHandles ≠ none → 0 ≤ a.write := fun hne =>
      hwrite hcreate fun hnil => hne (hc.handles_eq_nil.mp hnil)
    refine (service_create hx hc hcreate hreply).mono ?_ (fun _ _ he => he)
    rintro _ t (⟨hg, -⟩ | hr)
    · exact hg.handled h hx
    · exact hr.handled h hx
  by_cases hclose : msg.scsFunction = some .ECloseSubsession
  · by_cases hin : msg.int3 ∈ x.handles
    · exact (service_close hx hc hclose hin).mono (fun _ _ hl => hl.handled h hx)
        (fun _ _ he => he)
    · obtain ⟨hs, hhs⟩ := Option.ne_none_iff_exists'.mp (hsome (.inl hclose))
      have hbad : KeepsHandles m (delegateL msg a m) := by
        rw [delegateL_bad_handle (.inl hclose) hx hhs fun hmem =>
          hin ((mem_handles hhs _).mpr hmem)]
        exact ⟨by simp, .refl m⟩
      exact (service_keeps hx hcreate hbad).mono (fun _ _ ht => h.same ht) (fun _ _ he => he)
  · exact (service_keeps hx hcreate (delegateL_keeps hx hsome hcreate hclose)).mono
      (fun _ _ ht => h.same ht) (fun _ _ he => he)

theorem arrived_sameHandles (m : CScsServer) : SameHandles m m.arrived :=
  ⟨rfl, rfl, rfl, rfl, fun _ _ => Iff.rfl⟩

theorem removeIfCompleted_ends {i req : Nat} {m : CScsServer} (hi : i < m.iAsyncRequests.length) :
    Ends (fun _ t => SameHandles m t ∧ i ≤ t.iAsyncRequests.length) (fun _ _ => False)
      (removeIfCompleted i req m) := by
  change Ends _ _ (doIf ((m.request req).iSession = none) _ m)
  by_cases hnone : (m.request req).iSession = none
  · rw [doIf, if_pos hnone]
    refine ⟨⟨rfl, rfl, rfl, rfl, fun _ _ => Iff.rfl⟩, ?_⟩
    have hlen := length_eraseIdx_of_lt hi
    change i ≤ (m.iAsyncRequests.eraseIdx i).length
    omega
  · rw [doIf, if_neg hnone]
    exact ⟨.refl m, Nat.le_of_lt hi⟩

theorem removeCompletedBelow_ends {i : Nat} {m : CScsServer} (hi : i ≤ m.iAsyncRequests.length) :
    Ends (fun _ t => SameHandles m t) (fun _ _ => False) (removeCompletedBelow i m) := by
  induction i generalizing m with
  | zero => exact SameHandles.refl m
  | succ i ih =>
      rw [removeCompletedBelow_succ hi]
      refine Ends.bind (removeIfCompleted_ends hi) ?_
      rintro _ t ⟨ht, hle⟩
      exact (ih hle).mono (fun _ _ h => ht.trans h) (fun _ _ h => h)

theorem outcome_handled {m t : CScsServer} {f : Server Unit}
    (hf : Ends (fun _ t => Handled t) (fun e _ => e = .contract) (f m))
    (h : outcome (f m) = some t) : Handled t := by
  rcases hfm : f m with ⟨r, u⟩
  rw [hfm] at hf h
  cases r with
  | ok _ =>
      cases h
      exact hf
  | error e =>
      cases hf
      cases h

section

variable {m : CScsServer} (h : Handled m)
include h

theorem Handled.moved {f : Server Unit} (hf : Moving [] f) :
    Ends (fun _ t => Handled t) (fun e _ => e = .contract) (f m) :=
  (hf m).mono (fun _ _ ht => h.same ht.sameHandles) (fun _ _ ht => ht.1)

theorem Handled.connected :
    Handled { m with
      session := fun y => if y = m.nextSession then some {} else m.session y
      nextSession := m.nextSession + 1 } where
  contained s x hx := by
    simp only at hx
    split at hx
    · cases hx
      exact ⟨by simp, by simp, by simp⟩
    · exact h.contained s x hx
  holds s x hx k := by
    simp only at hx
    split at hx
    · rename_i heq
      cases hx
      rw [heq]
      simpa [handles] using (h.fresh m.nextSession (Nat.le_refl _)).2 k
    · exact h.holds s x hx k
  fresh s hs := by
    simp only at hs
    have hne : s ≠ m.nextSession := by omega
    simp only [if_neg hne]
    exact h.fresh s (by omega)
  crashed := h.crashed

/-- A session that is gone needs no handles. -/
theorem Handled.forgotten (s : Nat) :
    Handled { m with session := fun y => if y = s then none else m.session y } where
  contained y x hx := by
    simp only at hx
    split at hx
    · cases hx
    · exact h.contained y x hx
  holds y x hx := by
    simp only at hx
    split at hx
    · cases hx
    · exact h.holds y x hx
  fresh y hy := by
    refine ⟨?_, (h.fresh y hy).2⟩
    simp only
    split
    · rfl
    · exact (h.fresh y hy).1
  crashed := h.crashed

theorem Handled.destroyed {s : Nat} {c : Cleanups} :
    Ends (fun _ t => Handled t) (fun e _ => e = .contract) (destroy s c m) := by
  refine Ends.bind (h.moved (.cancelOutstandingRequests _ _ _ _)) fun _ t ht => ?_
  have hgone := ht.forgotten s
  have heq : { t with session := fun y => if y = s then none else t.session y } =
      { t.setSession s ({ · with iSsHandles := none, iSsObjects := none }) with
        session := fun y => if y = s then none else
          (t.setSession s ({ · with iSsHandles := none, iSsObjects := none })).session y } := by
    simp only [CScsServer.setSession, CScsServer.mk.injEq, and_true]
    funext y
    split <;> rfl
  rw [heq] at hgone
  exact hgone.same ⟨rfl, rfl, rfl, rfl, fun _ _ => Iff.rfl⟩

end

theorem Handled.stepped {m t : CScsServer} {e : Event} (h : Handled m) (hok : WellUsed m e)
    (hstep : m.step e = some t) : Handled t := by
  obtain ⟨f, hf, hout⟩ := step_handler hstep
  refine outcome_handled ?_ hout
  cases e with
  | connects =>
      cases hf
      exact h.connected
  | message s aFunction int3 a =>
      obtain ⟨hs, hf⟩ := Option.ite_none_right_eq_some.mp hf
      cases hf
      obtain ⟨x, hx⟩ := Option.ne_none_iff_exists'.mp hs
      have husable : m.usable s = x.handles := by simp [usable, hx]
      have harr := h.same (arrived_sameHandles m)
      have hxa : m.arrived.session (m.arriving s aFunction int3).iSession = some x := hx
      exact harr.service hxa (fun hn => husable ▸ hok.1 hn) (fun hc hne => hok.2 hc (husable ▸ hne))
  | runs x r =>
      obtain ⟨-, hf⟩ := Option.ite_none_right_eq_some.mp hf
      cases hf
      exact h.moved (.runL x r)
  | calls w =>
      cases hf
      exact h.moved .work
  | disconnects s c =>
      obtain ⟨-, hf⟩ := Option.ite_none_right_eq_some.mp hf
      cases hf
      exact h.destroyed
  | asyncCleanup =>
      obtain ⟨-, hf⟩ := Option.ite_none_right_eq_some.mp hf
      cases hf
      have hdue : SameHandles m { m with iAsyncCleanup := false } :=
        ⟨rfl, rfl, rfl, rfl, fun _ _ => Iff.rfl⟩
      have hrem := removeCompletedBelow_ends (m := { m with iAsyncCleanup := false })
        (Nat.le_refl m.iAsyncRequests.length)
      exact hrem.mono (fun _ _ ht => h.same (hdue.trans ht)) (fun _ _ hf => hf.elim)

theorem Handled.reachable {m : CScsServer} (h : Reachable Started step WellUsed m) : Handled m := by
  refine h.invariant ?_ (fun _ _ _ hs hok hst => hs.stepped hok hst)
  rintro _ ⟨b, rfl⟩
  exact ⟨by simp, by simp, by simp [ClientHolds], rfl⟩

end OsSecurity.Scs

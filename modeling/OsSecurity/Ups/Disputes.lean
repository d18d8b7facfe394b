/-
Which records are disputed, by whom, and what the log has to do with it.

A record is disputed from the moment the evaluator asks for a prompt although it matched, until
its authoriser ends or finds another record.  `Claims` ties three things together: the server's
list, the authorisers' `iPromptForced` members and the log.  The authoriser `held` is left out
where its own member and the list change one after the other.
-/
import OsSecurity.Ups.FlurryQueues

namespace OsSecurity.CUpsServer

open Commands CAuthoriser

variable {m t : CUpsServer} {x y : Nat} {f : CAuthoriser → CAuthoriser} {held : Option Nat}
  {r : UInt32} {log : List Action} {act : Action}

/-! ### What the log says -/

/-- The evaluator asked for a prompt over the record, and the authoriser has neither ended nor
matched another record since. -/
def Outstanding (log : List Action) (x : Nat) (r : UInt32) : Prop :=
  ∃ later earlier, log = later ++ Action.forced x r :: earlier ∧
    (∀ e, Action.ended x e ∉ later) ∧ Action.matchedAnother x r ∉ later

/-- No request was answered from a record over which a prompt was outstanding. -/
def Unserved (log : List Action) : Prop :=
  ∀ later y r d earlier, log = later ++ Action.answered y (some r) d :: earlier →
    ∀ x, ¬Outstanding earlier x r

theorem outstanding_nil : ¬Outstanding [] x r := by
  intro h
  obtain ⟨later, earlier, hlog, -⟩ := h
  simp at hlog

theorem outstanding_cons : Outstanding (act :: log) x r ↔ act = .forced x r ∨
    (Outstanding log x r ∧ (∀ e, act ≠ .ended x e) ∧ act ≠ .matchedAnother x r) := by
  constructor
  · intro h
    obtain ⟨later, earlier, hlog, hended, hmatched⟩ := h
    cases later with
    | nil => exact Or.inl (List.cons.inj hlog).1
    | cons a later =>
      obtain ⟨ha, hrest⟩ := List.cons.inj hlog
      subst ha
      simp only [List.mem_cons, not_or] at hended hmatched
      exact Or.inr ⟨⟨later, earlier, hrest, fun e => (hended e).2, hmatched.2⟩,
        fun e hc => (hended e).1 hc.symm, fun hc => hmatched.1 hc.symm⟩
  · intro h
    rcases h with hact | ⟨⟨later, earlier, hlog, hended, hmatched⟩, hnot, hnot'⟩
    · exact ⟨[], log, by rw [hact, List.nil_append], by simp, by simp⟩
    · refine ⟨act :: later, earlier, by rw [hlog, List.cons_append], ?_, ?_⟩
      · intro e hc
        rcases List.mem_cons.mp hc with hc | hc
        · exact hnot e hc.symm
        · exact hended e hc
      · intro hc
        rcases List.mem_cons.mp hc with hc | hc
        · exact hnot' hc.symm
        · exact hmatched hc

theorem unserved_nil : Unserved [] := by
  intro later y r d earlier hlog
  simp at hlog

theorem Unserved.cons (h : Unserved log)
    (hact : ∀ y r d, act = .answered y (some r) d → ∀ x, ¬Outstanding log x r) :
    Unserved (act :: log) := by
  intro later y r d earlier hlog
  cases later with
  | nil =>
      obtain ⟨ha, hrest⟩ := List.cons.inj hlog
      rw [← hrest]
      exact hact y r d ha
  | cons a later => exact h later y r d earlier (List.cons.inj hlog).2

/-! ### Who disputes what -/

def Disputes (m : CUpsServer) (x : Nat) (r : UInt32) : Prop :=
  m.Live x ∧ (m.authoriser x).iPromptForced = true ∧ (m.authoriser x).iPromptForcedRecordId = r

structure Claims (held : Option Nat) (m : CUpsServer) : Prop where
  nodup : m.iDisputed.Nodup
  sound : ∀ r ∈ m.iDisputed, ∃ j, m.Disputes j r
  complete : ∀ j r, m.Disputes j r → held ≠ some j → r ∈ m.iDisputed
  unique : ∀ j k r, m.Disputes j r → m.Disputes k r → j = k
  linked : ∀ j r, Outstanding m.log j r → held ≠ some j → m.Disputes j r
  unserved : Unserved m.log

theorem Claims.hold (h : Claims none m) : Claims held m where
  nodup := h.nodup
  sound := h.sound
  complete j r hj _ := h.complete j r hj (by simp)
  unique := h.unique
  linked j r hj _ := h.linked j r hj (by simp)
  unserved := h.unserved

theorem Claims.congr (h : Claims held m) (hdisputed : t.iDisputed = m.iDisputed)
    (hlog : t.log = m.log) (hdisputes : ∀ j r, t.Disputes j r ↔ m.Disputes j r) :
    Claims held t where
  nodup := hdisputed ▸ h.nodup
  sound r hr := by
    obtain ⟨j, hj⟩ := h.sound r (hdisputed ▸ hr)
    exact ⟨j, (hdisputes j r).mpr hj⟩
  complete j r hj hne := hdisputed ▸ h.complete j r ((hdisputes j r).mp hj) hne
  unique j k r hj hk := h.unique j k r ((hdisputes j r).mp hj) ((hdisputes k r).mp hk)
  linked j r hj hne := (hdisputes j r).mpr (h.linked j r (hlog ▸ hj) hne)
  unserved := hlog ▸ h.unserved

/-! ### Changes that leave the claims alone -/

theorem disputes_set (hsession : ∀ a, (f a).iSession = a.iSession)
    (hforced : ∀ a, (f a).iPromptForced = a.iPromptForced)
    (hid : ∀ a, (f a).iPromptForcedRecordId = a.iPromptForcedRecordId) (j : Nat) (r : UInt32) :
    (m.setAuthoriser x f).Disputes j r ↔ m.Disputes j r := by
  unfold Disputes
  rw [live_setAuthoriser hsession]
  by_cases hj : j = x
  · rw [hj, setAuthoriser_self, hforced, hid]
  · rw [setAuthoriser_other hj]

theorem Claims.set (h : Claims held m) (hsession : ∀ a, (f a).iSession = a.iSession)
    (hforced : ∀ a, (f a).iPromptForced = a.iPromptForced)
    (hid : ∀ a, (f a).iPromptForcedRecordId = a.iPromptForcedRecordId) :
    Claims held (m.setAuthoriser x f) :=
  h.congr rfl rfl (disputes_set hsession hforced hid)

theorem Claims.wakeNext (h : Claims held m) : Claims held m.wakeNext := by
  unfold CUpsServer.wakeNext
  split
  · exact h
  · rename_i y rest hnext
    have h' : Claims held { m with iFlurryQueueBeingProcessed := rest } :=
      h.congr rfl rfl fun _ _ => Iff.rfl
    exact h'.set (fun _ => rfl) (fun _ => rfl) fun _ => rfl

theorem Claims.dropDialog (h : Claims held m) : Claims held (m.dropDialog x) := by
  unfold CUpsServer.dropDialog
  split
  · refine Claims.wakeNext ?_
    split
    · exact h.congr rfl rfl fun _ _ => Iff.rfl
    · exact h.congr rfl rfl fun _ _ => Iff.rfl
  · exact h

/-- Entries that neither force a prompt nor answer from a record. -/
theorem Claims.note (h : Claims held m) (hforced : ∀ y r, act ≠ .forced y r)
    (hanswered : ∀ y r d, act = .answered y (some r) d → ∀ x, ¬Outstanding m.log x r) :
    Claims held (m.wrote act) where
  nodup := h.nodup
  sound := h.sound
  complete := h.complete
  unique := h.unique
  linked j r hj hne := by
    rcases outstanding_cons.mp hj with hc | ⟨hj, -⟩
    · exact absurd hc (hforced j r)
    · exact h.linked j r hj hne
  unserved := h.unserved.cons hanswered

/-- A record nobody disputes has no prompt outstanding. -/
theorem Claims.not_outstanding (h : Claims none m) (hr : r ∉ m.iDisputed) (x : Nat) :
    ¬Outstanding m.log x r :=
  fun hx => hr (h.complete x r (h.linked x r hx (by simp)) (by simp))

/-! ### Changes to what is disputed -/

/-- `x` gives up its dispute, where it has one. -/
def undispute (m : CUpsServer) (x : Nat) : CUpsServer :=
  if (m.authoriser x).iPromptForced then
    { m with iDisputed := m.iDisputed.erase (m.authoriser x).iPromptForcedRecordId }.setAuthoriser x
      ({ · with iPromptForced := false })
  else m

theorem live_undispute (j : Nat) : (m.undispute x).Live j ↔ m.Live j := by
  unfold undispute
  split
  · exact (live_setAuthoriser (by intro a; rfl) j).trans Iff.rfl
  · rfl

theorem undispute_forced : ((m.undispute x).authoriser x).iPromptForced = false := by
  unfold undispute
  split
  · rw [setAuthoriser_self]
  · rename_i h
    exact Bool.eq_false_iff.mpr h

theorem sameQueues_undispute : SameQueues m (m.undispute x) := by
  unfold undispute
  split
  · generalize m.iDisputed.erase _ = disputed
    have h : SameQueues { m with iDisputed := disputed }
        ({ m with iDisputed := disputed }.setAuthoriser x ({ · with iPromptForced := false })) :=
      sameQueues_set (fun _ => rfl) (fun _ => rfl) (fun _ => rfl) fun _ => rfl
    exact ⟨h.live, h.request, h.iState, h.iPriority, rfl, rfl, rfl⟩
  · exact ⟨fun _ => Iff.rfl, fun _ => rfl, fun _ => rfl, fun _ => rfl, rfl, rfl, rfl⟩

@[simp] theorem undispute_log : (m.undispute x).log = m.log := by
  unfold undispute
  split
  · rfl
  · rfl

@[simp] theorem undispute_iAsyncRequests : (m.undispute x).iAsyncRequests = m.iAsyncRequests := by
  unfold undispute
  split
  · rfl
  · rfl

theorem disputes_undispute (j : Nat) (r : UInt32) :
    (m.undispute x).Disputes j r ↔ j ≠ x ∧ m.Disputes j r := by
  by_cases hj : j = x
  · subst hj
    simp [Disputes, undispute_forced]
  · have hother : (m.undispute x).authoriser j = m.authoriser j := by
      unfold undispute
      split
      · rw [setAuthoriser_other hj]
      · rfl
    unfold Disputes
    rw [live_undispute, hother]
    simp [hj]

theorem mem_undispute (h : Claims held m) (hx : m.Live x) :
    r ∈ (m.undispute x).iDisputed ↔ r ∈ m.iDisputed ∧ ¬m.Disputes x r := by
  unfold undispute
  split
  · rename_i hforced
    rw [setAuthoriser_iDisputed, h.nodup.mem_erase_iff]
    simp [Disputes, hx, hforced, eq_comm, and_comm]
  · rename_i hforced
    simp [Disputes, hforced]

/-- The list and the members agree again, but the log may still hold against `x`. -/
theorem Claims.undispute (h : Claims (some x) m) (hx : m.Live x) :
    Claims (some x) (m.undispute x) where
  nodup := by
    unfold CUpsServer.undispute
    split
    · exact h.nodup.erase _
    · exact h.nodup
  sound r hr := by
    obtain ⟨hmem, hnot⟩ := (mem_undispute h hx).mp hr
    obtain ⟨j, hj⟩ := h.sound r hmem
    exact ⟨j, (disputes_undispute j r).mpr ⟨fun hc => hnot (hc ▸ hj), hj⟩⟩
  complete j r hj hne := by
    obtain ⟨hjx, hj⟩ := (disputes_undispute j r).mp hj
    exact (mem_undispute h hx).mpr
      ⟨h.complete j r hj hne, fun hc => hjx (h.unique j x r hj hc)⟩
  unique j k r hj hk := h.unique j k r ((disputes_undispute j r).mp hj).2
    ((disputes_undispute k r).mp hk).2
  linked j r hj hne := (disputes_undispute j r).mpr
    ⟨fun hc => hne (by rw [hc]), h.linked j r (undispute_log ▸ hj) hne⟩
  unserved := by
    rw [undispute_log]
    exact h.unserved

/-- With nothing outstanding in the log, `x` need not be left out any more. -/
theorem Claims.release (h : Claims (some x) m)
    (hforced : (m.authoriser x).iPromptForced = false) (hlog : ∀ r, ¬Outstanding m.log x r) :
    Claims none m where
  nodup := h.nodup
  sound := h.sound
  complete j r hj _ := by
    refine h.complete j r hj fun hc => ?_
    have hj := hj.2.1
    rw [← Option.some.inj hc, hforced] at hj
    cases hj
  unique := h.unique
  linked j r hj _ := h.linked j r hj fun hc => hlog r (Option.some.inj hc ▸ hj)
  unserved := h.unserved

/-- `x` leaves the framework. -/
theorem Claims.retire (h : Claims (some x) m)
    (hforced : (m.authoriser x).iPromptForced = false) (hlog : ∀ r, ¬Outstanding m.log x r) :
    Claims none (m.setAuthoriser x ({ · with iSession := none })) := by
  refine (h.release hforced hlog).congr rfl rfl fun j r => ?_
  by_cases hj : j = x
  · subst hj
    simp [Disputes, hforced]
  · unfold Disputes Live
    rw [setAuthoriser_other hj, setAuthoriser_iAsyncRequests]

/-- `x` found another record than the one it disputes. -/
theorem Claims.leaveRecord (h : Claims none m) (hx : m.Live x) :
    Claims none ((m.wrote (.matchedAnother x (m.authoriser x).iPromptForcedRecordId)).undispute x) := by
  have hnote : Claims none (m.wrote (.matchedAnother x (m.authoriser x).iPromptForcedRecordId)) :=
    h.note nofun nofun
  refine (hnote.hold.undispute hx).release undispute_forced fun r hr => ?_
  rw [undispute_log] at hr
  rcases outstanding_cons.mp hr with hc | ⟨hr, -, hne⟩
  · cases hc
  · have hid := (h.linked x r hr (by simp)).2.2
    exact hne (by rw [hid])

/-- The state once a prompt was forced, before the record is marked. -/
def forcedBy (m : CUpsServer) (x : Nat) (r : UInt32) : CUpsServer :=
  (m.wrote (.forced x r)).setAuthoriser x
    ({ · with iPromptForced := true, iPromptForcedRecordId := r })

theorem disputes_forcedBy (hx : m.Live x) (hforced : (m.authoriser x).iPromptForced = false)
    (j : Nat) (s : UInt32) : (m.forcedBy x r).Disputes j s ↔ (j = x ∧ s = r) ∨ m.Disputes j s := by
  by_cases hj : j = x
  · subst hj
    have hlive : (m.forcedBy j r).Live j := Live.set (m := m.wrote (.forced j r)) hx fun _ => rfl
    constructor
    · intro hd
      refine Or.inl ⟨rfl, ?_⟩
      rw [← hd.2.2]
      simp [forcedBy]
    · intro hd
      rcases hd with ⟨-, hs⟩ | hd
      · exact ⟨hlive, by simp [forcedBy], by simp [forcedBy, hs]⟩
      · rw [hd.2.1] at hforced
        cases hforced
  · unfold Disputes Live forcedBy
    rw [setAuthoriser_other hj]
    simp [hj, wrote]

theorem Claims.force (h : Claims none m) (hx : m.Live x)
    (hforced : (m.authoriser x).iPromptForced = false) (hr : r ∉ m.iDisputed) :
    Claims (some x) (m.forcedBy x r) ∧
      Claims none { m.forcedBy x r with
        iDisputed := (m.forcedBy x r).iDisputed.orderedInsert (· ≤ ·) r } := by
  have hd := disputes_forcedBy (r := r) hx hforced
  have hnew {j : Nat} : ¬m.Disputes j r := fun hj => hr (h.complete j r hj (by simp))
  have hunique (j k : Nat) (s : UInt32) (hj : (m.forcedBy x r).Disputes j s)
      (hk : (m.forcedBy x r).Disputes k s) : j = k := by
    rcases (hd j s).mp hj with ⟨hjx, hs⟩ | hj
    · rcases (hd k s).mp hk with ⟨hkx, -⟩ | hk
      · rw [hjx, hkx]
      · exact absurd (hs ▸ hk) hnew
    · rcases (hd k s).mp hk with ⟨-, hs⟩ | hk
      · exact absurd (hs ▸ hj) hnew
      · exact h.unique j k s hj hk
  have hlinked (j : Nat) (s : UInt32) (hj : Outstanding (m.forcedBy x r).log j s) :
      (m.forcedBy x r).Disputes j s := by
    rcases outstanding_cons.mp hj with hc | ⟨hj, -⟩
    · cases hc
      exact (hd x r).mpr (Or.inl ⟨rfl, rfl⟩)
    · exact (hd j s).mpr (Or.inr (h.linked j s hj (by simp)))
  have hunserved : Unserved (m.forcedBy x r).log := h.unserved.cons nofun
  constructor
  · refine ⟨h.nodup, ?_, ?_, hunique, fun j s hj _ => hlinked j s hj, hunserved⟩
    · intro s hs
      obtain ⟨j, hj⟩ := h.sound s hs
      exact ⟨j, (hd j s).mpr (Or.inr hj)⟩
    · intro j s hj hne
      rcases (hd j s).mp hj with ⟨hjx, -⟩ | hj
      · exact absurd (by rw [hjx]) hne
      · exact h.complete j s hj (by simp)
  · have hmem {s : UInt32} : s ∈ m.iDisputed.orderedInsert (· ≤ ·) r ↔ s = r ∨ s ∈ m.iDisputed :=
      List.mem_orderedInsert _
    refine ⟨?_, ?_, ?_, hunique, fun j s hj _ => hlinked j s hj, hunserved⟩
    · exact (List.perm_orderedInsert (· ≤ ·) r m.iDisputed).nodup_iff.mpr
        (List.nodup_cons.mpr ⟨hr, h.nodup⟩)
    · intro s hs
      rcases hmem.mp hs with hs | hs
      · exact ⟨x, (hd x s).mpr (Or.inl ⟨rfl, hs⟩)⟩
      · obtain ⟨j, hj⟩ := h.sound s hs
        exact ⟨j, (hd j s).mpr (Or.inr hj)⟩
    · intro j s hj _
      rcases (hd j s).mp hj with ⟨-, hs⟩ | hj
      · exact hmem.mpr (Or.inl hs)
      · exact hmem.mpr (Or.inr (h.complete j s hj (by simp)))

end OsSecurity.CUpsServer

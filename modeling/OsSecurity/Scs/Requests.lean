/-
Every asynchronous request is completed once (`CAsyncRequest`, `CScsServer`), over whole runs.

A request that the framework has accepted is outstanding until it is marked for deletion.  What
marks it completes it first, but for the destructor of its session, which marks without
completing.  So the invariant counts: an outstanding request has not been completed, one that is
no longer outstanding has been completed once or has lost its session.

While a request is being finished the server's own cleanup code runs in the middle, and may
finish other requests.  The invariant therefore has two more parameters: the requests that are
being cleaned up just now, and the session that is being destroyed.  The last one is the first
message that has not been answered yet.
-/
import OsSecurity.Scs.Server

namespace OsSecurity.Scs

open Commands List Transitions

variable {ss : Option Nat} {aFunction : UInt32} {req i : Nat}

/-- No request is completed before it is accepted or after its session was destroyed, and none
is deleted before it was completed or its session destroyed. -/
def Ordered : List Action → Prop
  | [] => True
  | .accepted x _ :: log => (∀ c, .completed x c ∉ log) ∧ Ordered log
  | .completed x _ :: log => (∀ s, .accepted x s ∈ log → .destroyed s ∉ log) ∧ Ordered log
  | .deleted x :: log =>
      (∀ s, .accepted x s ∈ log → (∃ c, .completed x c ∈ log) ∨ .destroyed s ∈ log) ∧ Ordered log
  | .destroyed _ :: log => Ordered log
  | .created _ _ :: log => Ordered log
  | .closed _ _ :: log => Ordered log

/-- The invariant. -/
structure Accounted (busy : List Nat) (dying : Option Nat) (n : Nat) (m : CScsServer) : Prop where
  nodup : m.iAsyncRequests.Nodup
  waiting : ∀ x, m.Outstanding x → x ∉ busy → m.completions x = 0
  ended : ∀ x s, .accepted x s ∈ m.log → ¬ m.Outstanding x →
    m.completions x = 1 ∨ .destroyed s ∈ m.log ∨ dying = some s
  once : ∀ x, m.completions x ≤ 1
  owner : ∀ x s, x ∈ m.iAsyncRequests → (m.request x).iSession = some s →
    m.session s ≠ none ∧ .accepted x s ∈ m.log
  single : ∀ x s s', .accepted x s ∈ m.log → .accepted x s' ∈ m.log → s = s'
  active : ∀ x ∈ m.iAsyncRequests, (m.request x).iActive → m.Outstanding x ∧ x ∉ busy
  keys : ∀ x y, m.Outstanding x → m.Outstanding y →
    (m.request x).iSession = (m.request y).iSession →
    (m.request x).iSubsession = (m.request y).iSubsession →
    (m.request x).iFunction = (m.request y).iFunction → x = y
  fresh : ∀ x, n ≤ x → m.completions x = 0 ∧ (∀ s, .accepted x s ∉ m.log) ∧
    x ∉ m.iAsyncRequests
  gone : ∀ s, .destroyed s ∈ m.log → m.session s = none ∧ s < m.nextSession
  alive : ∀ s, m.session s ≠ none → s < m.nextSession
  ordered : Ordered m.log

namespace Accounted

variable {busy : List Nat} {dying : Option Nat} {n x : Nat} {m t : CScsServer}

theorem mono {k : Nat} (h : Accounted busy dying n m) (hle : n ≤ k) : Accounted busy dying k m :=
  { h with fresh := fun x hx => h.fresh x (Nat.le_trans hle hx) }

/-- The session of an outstanding request has not been destroyed. -/
theorem not_destroyed {s : Nat} (h : Accounted busy dying n m) (hx : m.Outstanding x)
    (hs : .accepted x s ∈ m.log) : .destroyed s ∉ m.log := by
  obtain ⟨s', hs'⟩ := Option.ne_none_iff_exists'.mp hx.2
  obtain ⟨halive, hacc⟩ := h.owner x s' hx.1 hs'
  rw [h.single x s s' hs hacc]
  exact fun hd => halive (h.gone s' hd).1

/-! ### The steps of cleaning up -/

theorem completed {c : Completion} (h : Accounted busy dying n m) (hx : m.Outstanding x)
    (hbusy : x ∉ busy) (hidle : (m.request x).iActive = false) :
    Accounted (x :: busy) dying n (m.wrote (.completed x c)) where
  nodup := h.nodup
  waiting y hy hnot := by
    have hne : x ≠ y := fun heq => hnot (by simp [heq])
    rw [CScsServer.completions_wrote_completed, if_neg hne]
    exact h.waiting y hy fun hin => hnot (by simp [hin])
  ended y s hs hnot := by
    have hs' : .accepted y s ∈ m.log := by simpa [CScsServer.wrote] using hs
    have hne : x ≠ y := fun heq => hnot (heq ▸ hx)
    rw [CScsServer.completions_wrote_completed, if_neg hne]
    simpa [CScsServer.wrote] using h.ended y s hs' hnot
  once y := by
    rw [CScsServer.completions_wrote_completed]
    split
    · rename_i heq
      rw [← heq, h.waiting x hx hbusy]
    · exact h.once y
  owner y s hy hs := by simpa [CScsServer.wrote] using h.owner y s hy hs
  single y s s' hs hs' := h.single y s s' (by simpa [CScsServer.wrote] using hs)
    (by simpa [CScsServer.wrote] using hs')
  active y hy hact := by
    refine ⟨(h.active y hy hact).1, ?_⟩
    rintro (_ | ⟨_, hin⟩)
    · simp_all [CScsServer.wrote]
    · exact (h.active y hy hact).2 hin
  keys := h.keys
  fresh y hy := by
    have hne : x ≠ y := fun heq => (h.fresh y hy).2.2 (heq ▸ hx.1)
    rw [CScsServer.completions_wrote_completed, if_neg hne]
    simpa [CScsServer.wrote] using h.fresh y hy
  gone s hs := h.gone s (by simpa [CScsServer.wrote] using hs)
  alive := h.alive
  ordered := ⟨fun _ hs => h.not_destroyed hx hs, h.ordered⟩

/-- What is being cleaned up has been completed, or not. -/
theorem enters (h : Accounted busy dying n m) (hidle : (m.request x).iActive = false) :
    Accounted (x :: busy) dying n m :=
  { h with
    waiting := fun y hy hnot => h.waiting y hy fun hin => hnot (by simp [hin])
    active := by
      intro y hy hact
      refine ⟨(h.active y hy hact).1, ?_⟩
      rintro (_ | ⟨_, hin⟩)
      · simp_all
      · exact (h.active y hy hact).2 hin }

theorem leaves (h : Accounted (x :: busy) dying n m) (hx : m.completions x = 0) :
    Accounted busy dying n m :=
  { h with
    waiting := by
      intro y hy hnot
      by_cases heq : y = x
      · rw [heq]
        exact hx
      · exact h.waiting y hy (by simp [heq, hnot])
    active := fun y hy hact =>
      ⟨(h.active y hy hact).1, fun hin => (h.active y hy hact).2 (by simp [hin])⟩ }

theorem due (h : Accounted busy dying n m) (b : Bool) :
    Accounted busy dying n { m with iAsyncCleanup := b } :=
  ⟨h.nodup, h.waiting, h.ended, h.once, h.owner, h.single, h.active, h.keys, h.fresh, h.gone,
    h.alive, h.ordered⟩

theorem crash (h : Accounted busy dying n m) : Accounted busy dying n { m with crashed := true } :=
  ⟨h.nodup, h.waiting, h.ended, h.once, h.owner, h.single, h.active, h.keys, h.fresh, h.gone,
    h.alive, h.ordered⟩

/-- The active object of a request is started or stopped. -/
theorem switched (h : Accounted busy dying n m) (b : Bool)
    (hb : b = true → m.Outstanding x ∧ x ∉ busy) :
    Accounted busy dying n (m.setRequest x ({ · with iActive := b })) := by
  have hsame : ∀ y, ((m.setRequest x ({ · with iActive := b })).request y).iSession =
      (m.request y).iSession ∧
      ((m.setRequest x ({ · with iActive := b })).request y).iSubsession =
        (m.request y).iSubsession ∧
      ((m.setRequest x ({ · with iActive := b })).request y).iFunction =
        (m.request y).iFunction := by
    intro y
    rw [CScsServer.setRequest_request]
    split
    · rename_i heq
      rw [heq]
      exact ⟨rfl, rfl, rfl⟩
    · exact ⟨rfl, rfl, rfl⟩
  have hout : ∀ y, (m.setRequest x ({ · with iActive := b })).Outstanding y ↔
      m.Outstanding y := by
    intro y
    unfold CScsServer.Outstanding
    rw [(hsame y).1]
    exact Iff.rfl
  refine ⟨h.nodup, fun y hy => h.waiting y ((hout y).mp hy), fun y s hs hy => ?_, h.once,
    fun y s hy hs => ?_, h.single, fun y hy hact => ?_, fun y z hy hz h1 h2 h3 => ?_, h.fresh,
    h.gone, h.alive, h.ordered⟩
  · exact h.ended y s hs fun hc => hy ((hout y).mpr hc)
  · rw [(hsame y).1] at hs
    exact h.owner y s hy hs
  · rw [hout y]
    rw [CScsServer.setRequest_request] at hact
    split at hact
    · rename_i heq
      rw [heq]
      exact hb hact
    · exact h.active y hy hact
  · rw [(hsame y).1, (hsame z).1] at h1
    rw [(hsame y).2.1, (hsame z).2.1] at h2
    rw [(hsame y).2.2, (hsame z).2.2] at h3
    exact h.keys y z ((hout y).mp hy) ((hout z).mp hz) h1 h2 h3

/-- The end of `MarkForDeletion`, for a request that was completed or dies with its session. -/
theorem marked (h : Accounted (x :: busy) dying n m)
    (hdone : m.completions x = 1 ∨ ∀ s, .accepted x s ∈ m.log → dying = some s) :
    Accounted busy dying n (m.setRequest x ({ · with iSession := none })) := by
  have hother : ∀ y, y ≠ x →
      (m.setRequest x ({ · with iSession := none })).request y = m.request y := fun y hy => by
    rw [CScsServer.setRequest_request, if_neg hy]
  have hself : ¬ (m.setRequest x ({ · with iSession := none })).Outstanding x := fun hc =>
    hc.2 (by rw [CScsServer.setRequest_request_self])
  have hout : ∀ y, (m.setRequest x ({ · with iSession := none })).Outstanding y →
      y ≠ x ∧ m.Outstanding y := by
    intro y hy
    have hne : y ≠ x := fun heq => hself (heq ▸ hy)
    exact ⟨hne, hy.1, hother y hne ▸ hy.2⟩
  refine ⟨h.nodup, fun y hy hnot => ?_, fun y s hs hy => ?_, h.once, fun y s hy hs => ?_,
    h.single, fun y hy hact => ?_, fun y z hy hz h1 h2 h3 => ?_, h.fresh, h.gone, h.alive,
    h.ordered⟩
  · obtain ⟨hne, hy⟩ := hout y hy
    exact h.waiting y hy (by simp [hne, hnot])
  · by_cases hne : y = x
    · subst hne
      rcases hdone with hone | hdying
      · exact .inl hone
      · exact .inr (.inr (hdying s hs))
    · refine h.ended y s hs fun hc => hy ⟨hc.1, ?_⟩
      rw [hother y hne]
      exact hc.2
  · have hne : y ≠ x := by
      rintro rfl
      rw [CScsServer.setRequest_request_self] at hs
      cases hs
    exact h.owner y s hy (hother y hne ▸ hs)
  · have hne : y ≠ x := by
      rintro rfl
      rw [CScsServer.setRequest_request_self] at hact
      exact (h.active y hy hact).2 mem_cons_self
    rw [hother y hne] at hact
    obtain ⟨hy', hnot⟩ := h.active y hy hact
    refine ⟨⟨hy'.1, ?_⟩, fun hin => hnot (by simp [hin])⟩
    rw [hother y hne]
    exact hy'.2
  · obtain ⟨hny, hy⟩ := hout y hy
    obtain ⟨hnz, hz⟩ := hout z hz
    rw [hother y hny, hother z hnz] at h1 h2 h3
    exact h.keys y z hy hz h1 h2 h3

/-- The end of a session for which nothing is outstanding any more. -/
theorem destroyed {s : Nat} (h : Accounted [] (some s) n m) (hs : s < m.nextSession)
    (hother : ∀ x y, x ∈ m.iAsyncRequests → (m.request x).iSession = some y → y ≠ s) :
    Accounted [] none n (({ m with
      session := fun y => if y = s then none else
        (m.setSession s ({ · with iSsHandles := none, iSsObjects := none })).session y } :
      CScsServer).wrote (.destroyed s)) := by
  have hmem : ∀ act, act ∈ (.destroyed s :: m.log : List Action) ↔
      act = .destroyed s ∨ act ∈ m.log := fun act => mem_cons
  have hsession : ∀ y, (if y = s then none else
      (m.setSession s ({ · with iSsHandles := none, iSsObjects := none })).session y) =
        if y = s then none else m.session y := by
    intro y
    split
    · rfl
    · rename_i hne
      exact if_neg hne
  refine ⟨h.nodup, h.waiting, fun x y hacc hx => ?_, h.once, fun x y hx hy => ?_,
    fun x y y' hacc hacc' => ?_, h.active, h.keys, fun x hx => ?_, fun y hy => ?_,
    fun y hy => ?_, h.ordered⟩
  · rcases h.ended x y (by simpa [CScsServer.wrote] using hacc) hx with hone | hd | hdying
    · exact .inl hone
    · exact .inr (.inl (mem_cons_of_mem _ hd))
    · cases hdying
      exact .inr (.inl mem_cons_self)
  · have hne := hother x y hx hy
    refine ⟨?_, mem_cons_of_mem _ (h.owner x y hx hy).2⟩
    change (if y = s then none else _) ≠ none
    rw [hsession, if_neg hne]
    exact (h.owner x y hx hy).1
  · exact h.single x y y' (by simpa [CScsServer.wrote] using hacc)
      (by simpa [CScsServer.wrote] using hacc')
  · obtain ⟨hx0, hxnew, hxnot⟩ := h.fresh x hx
    exact ⟨hx0, fun y hy => hxnew y (by simpa [CScsServer.wrote] using hy), hxnot⟩
  · change (if y = s then none else _) = none ∧ y < m.nextSession
    rw [hsession]
    rcases (hmem _).mp hy with heq | hold
    · cases heq
      exact ⟨if_pos rfl, hs⟩
    · refine ⟨?_, (h.gone y hold).2⟩
      split
      · rfl
      · exact (h.gone y hold).1
  · refine h.alive y fun hnone => hy ?_
    change (if y = s then none else _) = none
    rw [hsession]
    split
    · rfl
    · exact hnone

/-- A request that has been marked is deleted. -/
theorem removed (h : Accounted [] none n m) (hi : i < m.iAsyncRequests.length)
    (hnone : (m.request m.iAsyncRequests[i]).iSession = none) :
    Accounted [] none n { m.wrote (.deleted m.iAsyncRequests[i]) with
      iAsyncRequests := m.iAsyncRequests.eraseIdx i } := by
  have hnot : ¬ m.Outstanding m.iAsyncRequests[i] := fun hc => hc.2 hnone
  have hsub : ∀ x, x ∈ m.iAsyncRequests.eraseIdx i → x ∈ m.iAsyncRequests := fun x hx =>
    (eraseIdx_sublist _ i).mem hx
  have hkeep : ∀ x, x ∈ m.iAsyncRequests → x ≠ m.iAsyncRequests[i] →
      x ∈ m.iAsyncRequests.eraseIdx i := by
    intro x hx hne
    rw [← h.nodup.erase_getElem i hi]
    exact (mem_erase_of_ne hne).mpr hx
  have hmem : ∀ act, (∀ x, act ≠ .deleted x) →
      (act ∈ (.deleted m.iAsyncRequests[i] :: m.log : List Action) ↔ act ∈ m.log) := by
    intro act hact
    refine ⟨fun hin => ?_, mem_cons_of_mem _⟩
    rcases mem_cons.mp hin with heq | hold
    · exact absurd heq (hact _)
    · exact hold
  refine ⟨h.nodup.eraseIdx i, fun x hx hn => h.waiting x ⟨hsub x hx.1, hx.2⟩ hn,
    fun x s hacc hx => ?_, h.once, fun x s hx hs => ?_, fun x s s' hs hs' => ?_,
    fun x hx hact => ?_, fun x y hx hy => h.keys x y ⟨hsub x hx.1, hx.2⟩ ⟨hsub y hy.1, hy.2⟩,
    fun x hx => ?_, fun s hs => h.gone s ((hmem _ (by simp)).mp hs), h.alive, ?_, h.ordered⟩
  · have hended : ¬ m.Outstanding x := by
      intro hc
      have hne : x ≠ m.iAsyncRequests[i] := fun heq => hnot (heq ▸ hc)
      exact hx ⟨hkeep x hc.1 hne, hc.2⟩
    rcases h.ended x s ((hmem _ (by simp)).mp hacc) hended with hone | hd | hdying
    · exact .inl hone
    · exact .inr (.inl ((hmem _ (by simp)).mpr hd))
    · exact .inr (.inr hdying)
  · exact ⟨(h.owner x s (hsub x hx) hs).1, (hmem _ (by simp)).mpr (h.owner x s (hsub x hx) hs).2⟩
  · exact h.single x s s' ((hmem _ (by simp)).mp hs) ((hmem _ (by simp)).mp hs')
  · obtain ⟨hout, hbusy⟩ := h.active x (hsub x hx) hact
    have hne : x ≠ m.iAsyncRequests[i] := fun heq => hnot (heq ▸ hout)
    exact ⟨⟨hkeep x hout.1 hne, hout.2⟩, hbusy⟩
  · obtain ⟨hx0, hxnew, hxnot⟩ := h.fresh x hx
    exact ⟨hx0, fun s hs => hxnew s ((hmem _ (by simp)).mp hs), fun hc => hxnot (hsub x hc)⟩
  · -- what is deleted has been completed, or has lost its session
    intro s hs
    rcases h.ended _ s hs hnot with hone | hd | hdying
    · refine .inl ?_
      have hpos : 0 < m.completions m.iAsyncRequests[i] := by omega
      obtain ⟨act, hact, hc⟩ := countP_pos_iff.mp hpos
      cases act with
      | completed x c =>
        have heq : x = m.iAsyncRequests[i] := by simpa using hc
        exact ⟨c, heq ▸ hact⟩
      | _ => simp at hc
    · exact .inr hd
    · cases hdying

end Accounted

/-! ### Functions that clean up -/

namespace CAsyncRequest

open CScsServer

variable {busy : List Nat} {dying : Option Nat} {n x : Nat} {m : CScsServer}

theorem completeClient_apply (x : Nat) (aError : Int) (m : CScsServer) :
    ∃ c, completeClient x aError m = (.ok ⟨⟩, m.wrote (.completed x c)) := by
  unfold completeClient
  split <;> exact ⟨_, rfl⟩

theorem cancel_apply (x : Nat) (m : CScsServer) :
    cancel x m = (.ok ⟨⟩, m.setRequest x ({ · with iActive := false })) := rfl

theorem mark_apply (x : Nat) (m : CScsServer) :
    mark x m = (.ok ⟨⟩, ({ m with iAsyncCleanup := true } : CScsServer).setRequest x
      ({ · with iSession := none })) := rfl

theorem contract_ends {c : Prop} [Decidable c] (m : CScsServer) :
    Ends (fun _ t => c ∧ t = m) (fun e _ => e = .contract) (contract c m) := by
  unfold contract
  split
  · exact ⟨‹c›, rfl⟩
  · rfl

/-- From its completion on, the request is being cleaned up. -/
theorem begins {c : Completion} (h : Accounted busy dying n m) (hx : m.Outstanding x)
    (hbusy : x ∉ busy) :
    Accounted (x :: busy) dying n
        ((m.wrote (.completed x c)).setRequest x ({ · with iActive := false })) ∧
      ((m.wrote (.completed x c)).setRequest x ({ · with iActive := false })).completions x =
        1 := by
  have hstopped := h.switched (x := x) false (by simp)
  have hidle : ((m.setRequest x ({ · with iActive := false })).request x).iActive = false := by
    rw [setRequest_request_self]
  have hout : (m.setRequest x ({ · with iActive := false })).Outstanding x := by
    refine ⟨hx.1, ?_⟩
    rw [setRequest_request_self]
    exact hx.2
  refine ⟨hstopped.completed hout hbusy hidle, ?_⟩
  change (m.wrote (.completed x c)).completions x = 1
  rw [completions_wrote_completed, if_pos rfl, h.waiting x hx hbusy]

/-- The cleanup of a request that has been completed, up to its mark. -/
theorem cleanup_accounts {w : Work} (hone : m.completions x = 1)
    (hw : Ends (fun _ t => Accounted (x :: busy) dying n t) (fun e _ => e = .contract)
      (work (x :: busy) w m)) :
    Ends (fun _ t => Accounted busy dying n t ∧ (t.request x).iSession = none)
      (fun e _ => e = .contract) ((do work (x :: busy) w; mark x : Server Unit) m) := by
  refine Ends.bind ((hw.and (Moving.work m)).mono (fun _ _ h => h) (fun _ _ h => h.1)) ?_
  rintro _ t ⟨ht, hmoves⟩
  have hone' : t.completions x = 1 := (hmoves.busy_completions x (by simp)).trans hone
  rw [mark_apply]
  refine ⟨(ht.due true).marked (.inl hone'), ?_⟩
  rw [setRequest_request_self]

theorem work_accounts {w : Work} (h : Accounted busy dying n m) :
    Ends (fun _ t => Accounted busy dying n t) (fun e _ => e = .contract) (work busy w m) := by
  induction w generalizing busy m with
  | returns => exact h
  | setActive x rest ih =>
      rw [work, bind_ok (get_apply m)]
      refine Ends.bind (contract_ends m) ?_
      rintro _ t ⟨hc, ht⟩
      rw [ht]
      exact ih (h.switched true fun _ => hc)
  | finishes x aError cleanup rest ihc ih =>
      rw [work, bind_ok (get_apply m)]
      refine Ends.bind (contract_ends m) ?_
      rintro _ t ⟨⟨hx, hbusy⟩, ht⟩
      rw [ht]
      obtain ⟨c, hcomplete⟩ := completeClient_apply x aError m
      rw [bind_ok hcomplete, bind_ok (cancel_apply x _), ← bind_assoc]
      obtain ⟨hbegun, hone⟩ := begins (c := c) h hx hbusy
      refine Ends.bind (cleanup_accounts hone (ihc hbegun)) ?_
      rintro _ t ⟨ht, -⟩
      exact ih ht

theorem completeAndMarkForDeletion_accounts {aError : Int} {w : Work}
    (h : Accounted [] dying n m) (hx : m.Outstanding x) :
    Ends (fun _ t => Accounted [] dying n t ∧ (t.request x).iSession = none)
      (fun e _ => e = .contract) (completeAndMarkForDeletion x aError w m) := by
  obtain ⟨c, hcomplete⟩ := completeClient_apply x aError m
  have hstart : completeAndMarkForDeletion x aError w m = (do work [x] w; mark x : Server Unit)
      ((m.wrote (.completed x c)).setRequest x ({ · with iActive := false })) := by
    rw [completeAndMarkForDeletion, bind_ok hcomplete, markForDeletion, doCleanup, bind_assoc,
      bind_ok (cancel_apply x _)]
  rw [hstart]
  obtain ⟨hbegun, hone⟩ := begins (c := c) h hx (by simp)
  exact cleanup_accounts hone (work_accounts hbegun)

/-- A cleanup of a request that has not been completed. -/
theorem doCleanup_accounts {w : Work} (h : Accounted [] dying n m) (hx : m.Outstanding x) :
    Ends (fun _ t => Accounted [x] dying n t ∧ t.completions x = 0 ∧ t.Outstanding x ∧
        (t.request x).iSession = (m.request x).iSession)
      (fun e _ => e = .contract) (doCleanup x w m) := by
  have hstopped := h.switched (x := x) false (by simp)
  have hidle : ((m.setRequest x ({ · with iActive := false })).request x).iActive = false := by
    rw [setRequest_request_self]
  rw [doCleanup, bind_ok (cancel_apply x m)]
  have hends := (work_accounts (w := w) (hstopped.enters hidle)).and (Moving.work _)
  refine hends.mono ?_ (fun _ _ he => he.1)
  rintro _ t ⟨ht, hmoves⟩
  have hsession : (t.request x).iSession = (m.request x).iSession := by
    rw [hmoves.busy_request x (by simp), setRequest_request_self]
  refine ⟨ht, ?_, ⟨?_, ?_⟩, hsession⟩
  · exact (hmoves.busy_completions x (by simp)).trans (h.waiting x hx (by simp))
  · rw [hmoves.iAsyncRequests]
    exact hx.1
  · rw [hsession]
    exact hx.2

/-- The two cleanups of a request whose session is being destroyed. -/
theorem drops {s : Nat} {w w' : Work} (h : Accounted [] (some s) n m) (hx : m.Outstanding x)
    (hs : (m.request x).iSession = some s) :
    Ends (fun _ t => Accounted [] (some s) n t ∧ (t.request x).iSession = none)
      (fun e _ => e = .contract) ((do doCleanup x w; markForDeletion x w' : Server Unit) m) := by
  refine Ends.bind (doCleanup_accounts h hx) ?_
  rintro _ t ⟨ht, hzero, hout, hsession⟩
  refine Ends.bind (doCleanup_accounts (ht.leaves hzero) hout) ?_
  rintro _ u ⟨hu, -, hout', hsession'⟩
  have hsu : (u.request x).iSession = some s := hsession'.trans (hsession.trans hs)
  rw [mark_apply]
  refine ⟨(hu.due true).marked (.inr fun s' hacc => ?_), ?_⟩
  · rw [hu.single x s' s hacc (hu.owner x s hout'.1 hsu).2]
  · rw [setRequest_request_self]

/-- A `RunL` that completes the request, or leaves. -/
theorem runL_ends {r : RunL} (h : Accounted [] dying n m) (hx : m.Outstanding x)
    (hr : ∀ calls, r ≠ .overridden calls none) :
    Ends (fun _ t => Accounted [] dying n t ∧ (t.request x).iSession = none)
      (fun e _ => e = .contract) (runL x r m) := by
  have hstopped := h.switched (x := x) false (by simp)
  have hout : (m.setRequest x ({ · with iActive := false })).Outstanding x := by
    refine ⟨hx.1, ?_⟩
    rw [setRequest_request_self]
    exact hx.2
  cases r with
  | ofFramework iStatus w =>
      rw [runL, bind_ok (cancel_apply x m)]
      exact completeAndMarkForDeletion_accounts hstopped hout
  | overridden calls left =>
      cases left with
      | none => exact absurd rfl (hr calls)
      | some left =>
        rw [runL, bind_ok (cancel_apply x m)]
        refine Ends.bind (work_accounts hstopped) fun _ t ht => ?_
        rw [bind_ok (get_apply t)]
        refine Ends.bind (contract_ends t) ?_
        rintro _ u ⟨hc, hu⟩
        rw [hu]
        exact completeAndMarkForDeletion_accounts ht hc

theorem runL_accounts {r : RunL} (h : Accounted [] dying n m) (hx : m.Outstanding x) :
    Ends (fun _ t => Accounted [] dying n t) (fun e _ => e = .contract) (runL x r m) := by
  by_cases hr : ∀ calls, r ≠ .overridden calls none
  · exact (runL_ends h hx hr).mono (fun _ _ ht => ht.1) (fun _ _ he => he)
  · push Not at hr
    obtain ⟨calls, rfl⟩ := hr
    rw [runL, bind_ok (cancel_apply x m)]
    exact work_accounts (h.switched false (by simp))

end CAsyncRequest

namespace CScsServer

open CAsyncRequest

variable {dying : Option Nat} {n : Nat} {m : CScsServer} {s : Nat} {w : SubsessionMatch}
  {b : Bool} {c : Cleanups}

theorem Matches.outstanding (h : m.Matches s w req) (hin : req ∈ m.iAsyncRequests) :
    m.Outstanding req := ⟨hin, by simp [h.1]⟩

/-- A request that does not match is not made to match. -/
theorem Moves.not_matches {busy : List Nat} {t : CScsServer} (h : m.Moves busy t)
    (hnot : ¬ m.Matches s w req) : ¬ t.Matches s w req := by
  rintro ⟨hsession, hsub⟩
  have hages := h.ages req
  rcases hages.iSession with heq | hnone
  · refine hnot ⟨heq ▸ hsession, ?_⟩
    rw [← hages.iSubsession]
    exact hsub
  · rw [hnone] at hsession
    cases hsession

section

variable (h : Accounted [] dying n m)
include h

section

variable (hb : b = false → dying = some s)
include hb

theorem cancelMatching_accounts (hin : req ∈ m.iAsyncRequests) (hm : m.Matches s w req) :
    Ends (fun _ t => Accounted [] dying n t ∧ (t.request req).iSession = none)
      (fun e _ => e = .contract) (cancelMatching b c req m) := by
  cases b with
  | true => exact completeAndMarkForDeletion_accounts h (hm.outstanding hin)
  | false =>
      have hdying := hb rfl
      subst hdying
      exact drops h (hm.outstanding hin) hm.1

theorem cancelOutstanding_accounts (hin : req ∈ m.iAsyncRequests) :
    Ends (fun _ t => Accounted [] dying n t ∧ ¬ t.Matches s w req)
      (fun e _ => e = .contract) (cancelOutstanding s w b c req m) := by
  rw [cancelOutstanding, bind_ok (get_apply m)]
  by_cases hm : m.Matches s w req
  · rw [doIf, if_pos hm]
    refine (cancelMatching_accounts h hb hin hm).mono ?_ (fun _ _ he => he)
    rintro _ t ⟨ht, hnone⟩
    refine ⟨ht, fun hc => ?_⟩
    rw [hc.1] at hnone
    cases hnone
  · rw [doIf, if_neg hm]
    exact ⟨h, hm⟩

/-- Once the loop has passed a request, the request does not match any more. -/
theorem cancelRequestsBelow_accounts (hi : i ≤ m.iAsyncRequests.length) :
    Ends (fun _ t => Accounted [] dying n t ∧
        ∀ req ∈ m.iAsyncRequests.take i, ¬ t.Matches s w req)
      (fun e _ => e = .contract) (cancelRequestsBelow s w b c i m) := by
  induction i generalizing m with
  | zero => exact ⟨h, by simp⟩
  | succ i ih =>
      rw [cancelRequestsBelow_succ hi]
      have hturn := (cancelOutstanding_accounts (w := w) (c := c) h hb
        (getElem_mem hi)).and (Moving.cancelOutstanding s w b c _ m)
      refine Ends.bind (hturn.mono (fun _ _ ht => ht) (fun _ _ he => he.1)) ?_
      rintro _ t ⟨⟨ht, hnot⟩, hmoves⟩
      have hle : i ≤ t.iAsyncRequests.length := by
        rw [hmoves.iAsyncRequests]
        omega
      have hrest := (ih ht hle).and (cancelRequestsBelow_moves (s := s) (w := w) (b := b)
        (c := c) hle)
      refine hrest.mono ?_ (fun _ _ he => he.1)
      rintro _ u ⟨⟨hu, hpassed⟩, hmoves'⟩
      refine ⟨hu, fun req hreq => ?_⟩
      rw [take_succ_eq_append_getElem hi] at hreq
      rcases mem_append.mp hreq with hold | hnew
      · exact hpassed req (hmoves.iAsyncRequests ▸ hold)
      · rw [mem_singleton.mp hnew]
        exact hmoves'.not_matches hnot

theorem cancelOutstandingRequests_accounts :
    Ends (fun _ t => Accounted [] dying n t ∧ ∀ req ∈ m.iAsyncRequests, ¬ t.Matches s w req)
      (fun e _ => e = .contract) (cancelOutstandingRequests s w b c m) := by
  have hends := cancelRequestsBelow_accounts (w := w) (c := c) h hb (Nat.le_refl _)
  rw [take_length] at hends
  exact hends

end

end

theorem findAsyncRequest_some (h : m.findAsyncRequest s ss aFunction = some req) :
    req ∈ m.iAsyncRequests ∧ (m.request req).iSession = some s ∧
      (m.request req).iSubsession = ss ∧ (m.request req).iFunction = aFunction := by
  have hin := mem_of_find?_eq_some h
  have hprop := find?_some h
  simp only [decide_eq_true_eq] at hprop
  exact ⟨by simpa using hin, hprop⟩

theorem findAsyncRequest_none (h : m.findAsyncRequest s ss aFunction = none)
    (hin : req ∈ m.iAsyncRequests) :
    ¬ ((m.request req).iSession = some s ∧ (m.request req).iSubsession = ss ∧
      (m.request req).iFunction = aFunction) := by
  have hnone := find?_eq_none.mp h req (by simpa using hin)
  simpa using hnone

/-- The request with the key is ended, if there is one. -/
theorem cancelAsyncRequest_accounts (h : Accounted [] dying n m) :
    Ends (fun _ t => Accounted [] dying n t ∧
        ∀ req, m.findAsyncRequest s ss aFunction = some req → (t.request req).iSession = none)
      (fun e _ => e = .contract) (cancelAsyncRequest s ss aFunction c m) := by
  rw [cancelAsyncRequest, bind_ok (get_apply m)]
  cases hfind : m.findAsyncRequest s ss aFunction with
  | none => exact ⟨h, by simp⟩
  | some req =>
      obtain ⟨hin, hs, -, -⟩ := findAsyncRequest_some hfind
      refine (completeAndMarkForDeletion_accounts h ⟨hin, by simp [hs]⟩).mono ?_
        (fun _ _ he => he)
      rintro _ t ⟨ht, hnone⟩
      refine ⟨ht, fun req' heq => ?_⟩
      cases heq
      exact hnone

end CScsServer

/-! ### Serving a message -/

/-- The invariant with `n` is kept, and no message arrives. -/
structure Kept (n : Nat) (m t : CScsServer) : Prop where
  accounted : Accounted [] none n t
  nextMessage : t.nextMessage = m.nextMessage

theorem Kept.refl {n : Nat} {m : CScsServer} (h : Accounted [] none n m) : Kept n m m := ⟨h, rfl⟩

theorem Kept.trans {n k : Nat} {m t u : CScsServer} (h : Kept n m t) (h' : Kept k t u) :
    Kept k m u := ⟨h'.accounted, h'.nextMessage.trans h.nextMessage⟩

/-- The invariant is kept by a function, unless it breaks the contract. -/
def Keeping {α : Type} (n : Nat) (f : Server α) : Prop :=
  ∀ m, Accounted [] none n m →
    Ends (fun _ t => Kept n m t) (fun e t => e ≠ .contract → Kept n m t) (f m)

namespace Keeping

open CScsServer CScsSession CAsyncRequest

variable {α β : Type} {n : Nat} {f : Server α}

theorem bind {g : α → Server β} (hf : Keeping n f) (hg : ∀ a, Keeping n (g a)) :
    Keeping n (f >>= g) := by
  intro m h
  refine Ends.bind (hf m h) fun a t ht => ?_
  exact (hg a t ht.accounted).mono (fun _ _ hu => ht.trans hu)
    (fun _ _ hu hne => ht.trans (hu hne))

theorem then_get {g : CScsServer → Server β} (hg : ∀ m, Keeping n (g m)) :
    Keeping n (get >>= g) := fun m h => hg m m h

theorem of_moving {Q : CScsServer → CScsServer → Prop} (hm : Moving [] f)
    (hf : ∀ m, Accounted [] none n m →
      Ends (fun _ t => Accounted [] none n t ∧ Q m t) (fun e _ => e = .contract) (f m)) :
    Keeping n f := fun m h =>
  ((hf m h).and (hm m)).mono (fun _ _ ht => ⟨ht.1.1, ht.2.nextMessage⟩)
    (fun _ _ he hne => absurd he.1 hne)

theorem returns (a : α) : Keeping n (pure a) := fun _ h => .refl h

theorem throws (e : Halt) : Keeping n (throw e : Server α) := fun _ h _ => .refl h

theorem answers (x : Except Int α) : Keeping n (answer x) := by
  cases x with
  | ok a => exact returns a
  | error e => exact throws _

theorem deref (p : Option α) : Keeping n (deref p) := by
  cases p with
  | some a => exact returns a
  | none => exact throws _

theorem doIf {c : Prop} [Decidable c] {f : Server Unit} (hf : Keeping n f) :
    Keeping n (doIf c f) := by
  unfold Scs.doIf
  split
  · exact hf
  · exact returns _

theorem work (w : Work) : Keeping n (CAsyncRequest.work [] w) :=
  of_moving (Q := fun _ _ => True) .work fun _ h =>
    (work_accounts h).mono (fun _ _ ht => ⟨ht, trivial⟩) (fun _ _ he => he)

theorem contract (c : Prop) [Decidable c] : Keeping n (contract c) := by
  intro m h
  refine (contract_ends m).mono ?_ (fun _ _ he hne => absurd he hne)
  rintro _ t ⟨-, rfl⟩
  exact .refl h

theorem thisSession (s : Nat) : Keeping n (thisSession s) := then_get fun _ => deref _

/-- A session that is changed is still there. -/
theorem onSession (s : Nat) (g : CScsSession → CScsSession) : Keeping n (onSession s g) := by
  intro m h
  have halive : ∀ y, (m.setSession s g).session y = none ↔ m.session y = none := by
    intro y
    change (if y = s then (m.session s).map g else m.session y) = none ↔ _
    split
    · rename_i heq
      rw [heq]
      simp
    · exact Iff.rfl
  refine ⟨⟨h.nodup, h.waiting, h.ended, h.once, fun x y hx hy => ?_, h.single, h.active, h.keys,
    h.fresh, fun y hy => ⟨(halive y).mpr (h.gone y hy).1, (h.gone y hy).2⟩,
    fun y hy => h.alive y fun hnone => hy ((halive y).mpr hnone), h.ordered⟩, rfl⟩
  exact ⟨fun hnone => (h.owner x y hx hy).1 ((halive y).mp hnone), (h.owner x y hx hy).2⟩

/-- What is noted of handles does not count. -/
theorem note_handle {act : Action} (hact : (∃ s k, act = .created s k) ∨ ∃ s k, act = .closed s k) :
    Keeping n (note act) := by
  intro m h
  have hcount : ∀ x, (m.wrote act).completions x = m.completions x := by
    intro x
    rcases hact with ⟨s, k, rfl⟩ | ⟨s, k, rfl⟩
    · simp [CScsServer.completions, CScsServer.wrote]
    · simp [CScsServer.completions, CScsServer.wrote]
  have hmem : ∀ a, (∀ s k, a ≠ .created s k ∧ a ≠ .closed s k) →
      (a ∈ (m.wrote act).log ↔ a ∈ m.log) := by
    intro a ha
    refine ⟨fun hin => ?_, fun hin => mem_cons_of_mem _ hin⟩
    rcases mem_cons.mp hin with heq | hold
    · rcases hact with ⟨s, k, rfl⟩ | ⟨s, k, rfl⟩
      · exact absurd heq (ha s k).1
      · exact absurd heq (ha s k).2
    · exact hold
  have hordered : Ordered (m.wrote act).log := by
    rcases hact with ⟨s, k, rfl⟩ | ⟨s, k, rfl⟩
    · exact h.ordered
    · exact h.ordered
  refine ⟨⟨h.nodup, fun x hx hn => (hcount x).trans (h.waiting x hx hn), fun x s hs hx => ?_,
    fun x => (hcount x).symm ▸ h.once x, fun x s hx hs => ?_, fun x s s' hs hs' => ?_, h.active,
    h.keys, fun x hx => ⟨(hcount x).trans (h.fresh x hx).1, fun s hs => ?_, (h.fresh x hx).2.2⟩,
    fun s hs => h.gone s ((hmem _ (by simp)).mp hs), h.alive, hordered⟩, rfl⟩
  · have hended := h.ended x s ((hmem _ (by simp)).mp hs) hx
    rw [hcount, hmem _ (by simp)]
    exact hended
  · exact ⟨(h.owner x s hx hs).1, (hmem _ (by simp)).mpr (h.owner x s hx hs).2⟩
  · exact h.single x s s' ((hmem _ (by simp)).mp hs) ((hmem _ (by simp)).mp hs')
  · exact (h.fresh x hx).2.1 s ((hmem _ (by simp)).mp hs)

theorem atL (handles : List (Int × Nat)) (k : Int) : Keeping n (atL handles k) := by
  unfold CScsSession.atL
  split
  · exact returns _
  · exact throws _

theorem getSubsessionL (msg : RMessage2) : Keeping n (getSubsessionL msg) :=
  bind (thisSession _) fun _ => bind (deref _) fun _ => atL _ _

theorem createContainersL (s : Nat) (a : Answers) : Keeping n (createContainersL s a) := by
  refine bind (thisSession _) fun _ => doIf ?_
  refine bind (answers _) fun _ => bind (onSession _ _) fun _ => ?_
  exact bind (answers _) fun _ => onSession _ _

theorem giveHandle (s ss : Nat) (handles : List (Int × Nat)) (r : Except Int Int) :
    Keeping n (giveHandle s ss handles r) := by
  cases r with
  | error e => exact bind (onSession _ _) fun _ => throws _
  | ok k => exact bind (contract _) fun _ => bind (onSession _ _) fun _ => returns _

theorem registerL (s ss : Nat) (a : Answers) : Keeping n (registerL s ss a) := by
  refine bind (thisSession _) fun _ => bind (deref _) fun _ => bind (answers _) fun _ => ?_
  refine bind (onSession _ _) fun _ => bind ?_ fun k => bind (answers _) fun _ => ?_
  · exact bind (thisSession _) fun _ => bind (deref _) fun _ => giveHandle _ _ _ _
  · exact note_handle (.inl ⟨s, k, rfl⟩)

theorem createSubsessionL (msg : RMessage2) (a : Answers) :
    Keeping n (createSubsessionL msg a) := by
  refine bind (createContainersL _ a) fun _ => bind (work _) fun _ => bind (answers _) fun _ => ?_
  refine then_get fun m => bind (fun t ht => ?_) fun _ => registerL _ _ a
  exact ⟨⟨ht.nodup, ht.waiting, ht.ended, ht.once, ht.owner, ht.single, ht.active, ht.keys,
    ht.fresh, ht.gone, ht.alive, ht.ordered⟩, rfl⟩

theorem cancelOutstandingRequests (s : Nat) (w : SubsessionMatch) (c : Cleanups) :
    Keeping n (cancelOutstandingRequests s w true c) :=
  of_moving (Q := fun m t => ∀ req ∈ m.iAsyncRequests, ¬ t.Matches s w req)
    (.cancelOutstandingRequests s w true c) fun _ h =>
      cancelOutstandingRequests_accounts h (by simp)

theorem cancelAsyncRequest (s : Nat) (ss : Option Nat) (aFunction : UInt32) (c : Cleanups) :
    Keeping n (cancelAsyncRequest s ss aFunction c) :=
  of_moving (Q := fun m t => ∀ req, m.findAsyncRequest s ss aFunction = some req →
    (t.request req).iSession = none) (.cancelAsyncRequest s ss aFunction c) fun _ h =>
      cancelAsyncRequest_accounts h

theorem removeHandle (s : Nat) (k : Int) : Keeping n (removeHandle s k) := by
  refine bind (thisSession _) fun _ => bind (deref _) fun _ => bind (atL _ _) fun _ => ?_
  exact bind (onSession _ _) fun _ => bind (onSession _ _) fun _ => doIf (onSession _ _)

theorem closeSubsessionL (msg : RMessage2) (a : Answers) : Keeping n (closeSubsessionL msg a) := by
  refine bind (getSubsessionL msg) fun _ => bind (cancelOutstandingRequests _ _ _) fun _ => ?_
  exact bind (removeHandle _ _) fun _ => note_handle (.inr ⟨_, _, rfl⟩)

end Keeping

namespace CScsSession

open CScsServer CAsyncRequest

variable {n : Nat} {m : CScsServer} {msg : RMessage2} {a : Answers}

/-- A message that is answered: its number is used. -/
theorem answered {c : Completion} (h : Accounted [] none n m) :
    Accounted [] none (n + 1) (m.wrote (.completed n c)) := by
  obtain ⟨hzero, hnew, hnotin⟩ := h.fresh n (Nat.le_refl n)
  have hother : ∀ x, x ≠ n → (m.wrote (.completed n c)).completions x = m.completions x := by
    intro x hne
    rw [completions_wrote_completed, if_neg (Ne.symm hne), Nat.add_zero]
  have hmem : ∀ act, (∀ x c', act ≠ .completed x c') →
      (act ∈ (m.wrote (.completed n c)).log ↔ act ∈ m.log) := by
    intro act hact
    refine ⟨fun hin => ?_, mem_cons_of_mem _⟩
    rcases mem_cons.mp hin with heq | hold
    · exact absurd heq (hact n c)
    · exact hold
  refine ⟨h.nodup, fun x hx hn => ?_, fun x s hs hx => ?_, fun x => ?_, fun x s hx hs => ?_,
    fun x s s' hs hs' => ?_, h.active, h.keys, fun x hx => ?_,
    fun s hs => h.gone s ((hmem _ (by simp)).mp hs), h.alive,
    ⟨fun s hs => absurd hs (hnew s), h.ordered⟩⟩
  · rw [hother x fun heq => hnotin (heq ▸ hx.1)]
    exact h.waiting x hx hn
  · have hacc := (hmem _ (by simp)).mp hs
    rw [hother x fun heq => hnew s (heq ▸ hacc), hmem _ (by simp)]
    exact h.ended x s hacc hx
  · by_cases heq : x = n
    · rw [heq, completions_wrote_completed, if_pos rfl, hzero]
    · rw [hother x heq]
      exact h.once x
  · exact ⟨(h.owner x s hx hs).1, (hmem _ (by simp)).mpr (h.owner x s hx hs).2⟩
  · exact h.single x s s' ((hmem _ (by simp)).mp hs) ((hmem _ (by simp)).mp hs')
  · obtain ⟨hx0, hxnew, hxnot⟩ := h.fresh x (Nat.le_of_succ_le hx)
    refine ⟨?_, fun s hs => hxnew s ((hmem _ (by simp)).mp hs), hxnot⟩
    rw [hother x (by omega)]
    exact hx0

/-- The server after a request has been appended. -/
def appended (m : CScsServer) (n s : Nat) (r : CAsyncRequest) : CScsServer :=
  (({ m with iAsyncRequests := m.iAsyncRequests ++ [n] } : CScsServer).setRequest n
    fun _ => r).wrote (.accepted n s)

/-- A request that is accepted: its key is free, and its number is used. -/
theorem accepted {r : CAsyncRequest} {s : Nat} (h : Accounted [] none n m)
    (hr : r.iSession = some s) (hidle : r.iActive = false) (hs : m.session s ≠ none)
    (hfree : m.findAsyncRequest s r.iSubsession r.iFunction = none) :
    Accounted [] none (n + 1) (appended m n s r) := by
  obtain ⟨hzero, hnew, hnotin⟩ := h.fresh n (Nat.le_refl n)
  have hself : (appended m n s r).request n = r := if_pos rfl
  have hother : ∀ x, x ≠ n → (appended m n s r).request x = m.request x := fun x hne =>
    if_neg hne
  have hcount : ∀ x, (appended m n s r).completions x = m.completions x := by
    intro x
    simp [appended, CScsServer.completions, CScsServer.wrote, CScsServer.setRequest]
  have hin : ∀ x, x ∈ (appended m n s r).iAsyncRequests ↔ x ∈ m.iAsyncRequests ∨ x = n := by
    intro x
    simp [appended, CScsServer.wrote, CScsServer.setRequest]
  have hout : ∀ x, x ≠ n → ((appended m n s r).Outstanding x ↔ m.Outstanding x) := by
    intro x hne
    unfold Outstanding
    rw [hin, hother x hne]
    simp [hne]
  have hmem : ∀ act, act ∈ (appended m n s r).log ↔ act = .accepted n s ∨ act ∈ m.log :=
    fun act => mem_cons
  have hnokey : ∀ x, x ≠ n → (appended m n s r).Outstanding x →
      (m.request x).iSession = r.iSession → (m.request x).iSubsession = r.iSubsession →
      (m.request x).iFunction = r.iFunction → False := by
    intro x hne hx h1 h2 h3
    exact findAsyncRequest_none hfree ((hout x hne).mp hx).1 ⟨h1.trans hr, h2, h3⟩
  refine ⟨?_, fun x hx hn => ?_, fun x s' hacc hx => ?_, fun x => (hcount x).symm ▸ h.once x,
    fun x s' hx hs' => ?_, fun x s' s'' hs' hs'' => ?_, fun x hx hact => ?_,
    fun x y hx hy h1 h2 h3 => ?_, fun x hx => ?_, fun s' hs' => ?_, h.alive, ?_⟩
  · exact nodup_append.mpr ⟨h.nodup, by simp, by
      intro x hx y hy heq
      rw [mem_singleton.mp hy] at heq
      exact hnotin (heq ▸ hx)⟩
  · rw [hcount]
    by_cases heq : x = n
    · rw [heq]
      exact hzero
    · exact h.waiting x ((hout x heq).mp hx) hn
  · have hne : x ≠ n := by
      rintro rfl
      exact hx ⟨(hin x).mpr (.inr rfl), by simp [hself, hr]⟩
    have hold : .accepted x s' ∈ m.log := by simpa [hmem, hne] using hacc
    have hended := h.ended x s' hold fun hc => hx ((hout x hne).mpr hc)
    rw [hcount, hmem]
    simpa using hended
  · rw [hmem]
    by_cases heq : x = n
    · subst heq
      rw [hself, hr] at hs'
      cases hs'
      exact ⟨hs, .inl rfl⟩
    · have hxin : x ∈ m.iAsyncRequests := by simpa [hin, heq] using hx
      rw [hother x heq] at hs'
      exact ⟨(h.owner x s' hxin hs').1, .inr (h.owner x s' hxin hs').2⟩
  · rw [hmem] at hs' hs''
    rcases hs' with heq | hs'
    · cases heq
      rcases hs'' with heq | hs''
      · cases heq
        rfl
      · exact absurd hs'' (hnew s'')
    · rcases hs'' with heq | hs''
      · cases heq
        exact absurd hs' (hnew s')
      · exact h.single x s' s'' hs' hs''
  · have hne : x ≠ n := by
      rintro rfl
      rw [hself, hidle] at hact
      cases hact
    rw [hother x hne] at hact
    have hxin : x ∈ m.iAsyncRequests := by simpa [hin, hne] using hx
    exact ⟨(hout x hne).mpr (h.active x hxin hact).1, by simp⟩
  · by_cases hxn : x = n
    · by_cases hyn : y = n
      · rw [hxn, hyn]
      · subst hxn
        rw [hself, hother y hyn] at h1 h2 h3
        exact (hnokey y hyn hy h1.symm h2.symm h3.symm).elim
    · by_cases hyn : y = n
      · subst hyn
        rw [hself, hother x hxn] at h1 h2 h3
        exact (hnokey x hxn hx h1 h2 h3).elim
      · rw [hother x hxn, hother y hyn] at h1 h2 h3
        exact h.keys x y ((hout x hxn).mp hx) ((hout y hyn).mp hy) h1 h2 h3
  · obtain ⟨hx0, hxnew, hxnot⟩ := h.fresh x (Nat.le_of_succ_le hx)
    have hne : x ≠ n := by omega
    refine ⟨(hcount x).trans hx0, fun s' hs' => hxnew s' ?_, fun hc => ?_⟩
    · simpa [hmem, hne] using hs'
    · rcases (hin x).mp hc with hold | heq
      · exact hxnot hold
      · exact hne heq
  · exact h.gone s' (by simpa [hmem] using hs')
  · refine ⟨fun c hc => ?_, h.ordered⟩
    have hpos : 0 < m.completions n := by
      unfold completions
      rw [countP_pos_iff]
      exact ⟨_, hc, by simp⟩
    omega

theorem addAsyncRequestL_accounts {r : CAsyncRequest} {s : Nat} {appendL : Except Int Unit}
    (h : Accounted [] none n m) (hr : r.iSession = some s) (hidle : r.iActive = false)
    (hs : m.session s ≠ none) :
    Ends (fun _ t => Kept (n + 1) m t) (fun _ t => Kept n m t)
      (addAsyncRequestL n r s appendL m) := by
  rw [addAsyncRequestL, bind_ok (get_apply m)]
  cases hfind : m.findAsyncRequest s r.iSubsession r.iFunction with
  | some req => exact .refl h
  | none =>
      cases appendL with
      | error e => exact .refl h
      | ok _ => exact ⟨accepted h hr hidle hs hfind, rfl⟩

/-- The message is still to be answered if `b` says so, and else handed to a request. -/
def Served (n : Nat) (m : CScsServer) (b : Bool) (t : CScsServer) : Prop :=
  Kept (if b then n else n + 1) m t

theorem doServiceL_accounts (h : Accounted [] none n m) (hn : msg.iHandle = n)
    (hs : m.session msg.iSession ≠ none) :
    Ends (Served n m) (fun e t => e ≠ .contract → Kept n m t) (doServiceL ss msg a m) := by
  have hcalls := (Keeping.work a.calls m h).and ((Moving.work : Moving [] _) m)
  refine Ends.bind (hcalls.mono (fun _ _ ht => ht) (fun _ _ he => he.1)) ?_
  rintro _ t ⟨ht, hmoves⟩
  cases a.doServiceL with
  | served => exact ht
  | leaves aError => exact fun _ => ht
  | asynchronous appendL start =>
      subst hn
      have halive : t.session msg.iSession ≠ none := by
        rw [hmoves.session]
        exact hs
      refine Ends.bind ((addAsyncRequestL_accounts ht.accounted rfl rfl halive).mono
        (fun _ _ hu => ht.trans hu) (fun _ _ hu _ => ht.trans hu)) fun _ u hu => ?_
      have hstart := (work_accounts (w := start) hu.accounted).and ((Moving.work : Moving [] _) u)
      refine Ends.bind (hstart.mono ?_ (fun _ _ he hne => absurd he.1 hne)) fun _ v hv => hv
      exact fun _ v hv => hu.trans ⟨hv.1, hv.2.nextMessage⟩

theorem deref_same {α : Type} (p : Option α) : Keeps (deref p) := by
  cases p with
  | some a => exact .returns a
  | none => exact .throws _

theorem thisSession_same {s : Nat} : Keeps (thisSession s) := fun t => deref_same _ t

theorem atL_same (handles : List (Int × Nat)) (k : Int) : Keeps (atL handles k) := by
  unfold atL
  split
  · exact .returns _
  · exact .throws _

theorem getSubsessionL_same : Keeps (getSubsessionL msg) :=
  .bind thisSession_same fun _ => .bind (deref_same _) fun _ => atL_same _ _

theorem served_of_keeping {f : Server Unit} (hf : Keeping n f) (h : Accounted [] none n m) :
    Ends (Served n m) (fun e t => e ≠ .contract → Kept n m t) ((do f; pure true : Server Bool) m) :=
  Ends.bind (hf m h) fun _ _ ht => ht

section

variable (h : Accounted [] none n m)
include h

theorem delegateL_accounts (hn : msg.iHandle = n) (hs : m.session msg.iSession ≠ none) :
    Ends (Served n m) (fun e t => e ≠ .contract → Kept n m t) (delegateL msg a m) := by
  unfold delegateL
  cases msg.scsFunction with
  | none => exact fun _ => .refl h
  | some f =>
      cases f with
      | ECallSessionFunc => exact doServiceL_accounts h hn hs
      | ECallSubsessionFunc =>
        refine Ends.bind ((getSubsessionL_same m).mono (fun _ _ ht => ht) ?_) ?_
        · rintro e t rfl _
          exact .refl h
        · rintro ss t rfl
          exact doServiceL_accounts h hn hs
      | EPreCloseSession => exact served_of_keeping (.cancelOutstandingRequests _ _ _) h
      | ECancelSessionFunc => exact served_of_keeping (.cancelAsyncRequest _ _ _ _) h
      | ECreateSubsession =>
        have hcreate : Keeping n (do savePreCreateCount msg.iSession; createSubsessionL msg a) :=
          .bind (.onSession _ _) fun _ => .createSubsessionL msg a
        have hends := served_of_keeping hcreate h
        rw [bind_assoc] at hends
        exact hends
      | ECloseSubsession => exact served_of_keeping (.closeSubsessionL msg a) h
      | ECancelSubsessionFunc =>
        refine served_of_keeping (.bind (.getSubsessionL msg) fun _ => ?_) h
        exact .cancelAsyncRequest _ _ _ _
      | EUHeapSetFail => exact .refl h
      | EUHeapResetFail => exact .refl h
      | EGetServerPid => exact served_of_keeping (.answers _) h
      | EShutdownAsap =>
        refine Ends.bind (Q := fun _ t => t = m) rfl fun _ t ht => ?_
        rw [ht]
        exact served_of_keeping (.answers _) h

theorem completeError_answers {aError : Int} (hn : msg.iHandle = n) :
    Ends (fun _ t => Kept (n + 1) m t) (fun _ _ => False) (completeError msg aError m) := by
  subst hn
  unfold completeError
  repeat' split
  all_goals exact ⟨answered h, rfl⟩

theorem service_accounts (hn : msg.iHandle = n) (hs : m.session msg.iSession ≠ none) :
    Ends (fun _ t => Kept (n + 1) m t) (fun e t => e ≠ .contract → Kept (n + 1) m t)
      (service msg a m) := by
  have hserve : Ends (fun _ t => Kept (n + 1) m t) (fun e t => e ≠ .contract → Kept n m t)
      (serviceL msg a m) := by
    refine Ends.bind (delegateL_accounts h hn hs) fun b t ht => ?_
    cases b with
    | false => exact ht
    | true =>
      subst hn
      exact ⟨answered ht.accounted, ht.nextMessage⟩
  have hmono : ∀ {u}, Kept n m u → Kept (n + 1) m u := fun hu =>
    ⟨hu.accounted.mono (Nat.le_succ n), hu.nextMessage⟩
  refine Ends.tryCatch hserve fun e t ht => ?_
  cases e with
  | contract => exact fun hne => absurd rfl hne
  | undefined => exact fun _ => hmono (ht (by simp))
  | leave aError =>
      have ht' := ht (by simp)
      refine Ends.bind (Q := fun _ u => Kept n m u) ?_ fun x u hu => ?_
      · exact (Keeping.thisSession msg.iSession t ht'.accounted).mono
          (fun _ _ hu => ht'.trans hu) (fun e u hu hne => hmono (ht'.trans (hu hne)))
      refine Ends.bind (Q := fun _ v => Kept n m v) ?_ fun _ v hv => ?_
      · exact (Keeping.doIf (Keeping.onSession _ _) u hu.accounted).mono
          (fun _ _ hv => hu.trans hv) (fun e v hv hne => hmono (hu.trans (hv hne)))
      exact (completeError_answers hv.accounted hn).mono (fun _ _ hw => hv.trans hw)
        (fun _ _ hf => hf.elim)

/-- `~CScsSession`: whatever is outstanding for the session is dropped. -/
theorem destroy_accounts {s : Nat} {c : Cleanups} (hs : m.session s ≠ none) :
    Ends (fun _ t => Kept n m t) (fun e _ => e = .contract) (destroy s c m) := by
  have hdying : Accounted [] (some s) n m :=
    { h with
      ended := fun x y hacc hx => by
        rcases h.ended x y hacc hx with hone | hd | hdying
        · exact .inl hone
        · exact .inr (.inl hd)
        · cases hdying }
  have hcancel := (cancelOutstandingRequests_accounts (w := .KWildSubsession) (b := false) (c := c)
    hdying (fun _ => rfl)).and (Moving.cancelOutstandingRequests s _ false c m)
  refine Ends.bind (hcancel.mono (fun _ _ ht => ht) (fun _ _ he => he.1)) ?_
  rintro _ t ⟨⟨ht, hnone⟩, hmoves⟩
  have hlt : s < t.nextSession := by
    rw [hmoves.nextSession]
    exact h.alive s hs
  have hother : ∀ x y, x ∈ t.iAsyncRequests → (t.request x).iSession = some y → y ≠ s := by
    rintro x y hx hy rfl
    exact hnone x (hmoves.iAsyncRequests ▸ hx) ⟨hy, rfl⟩
  exact ⟨ht.destroyed hlt hother, hmoves.nextMessage⟩

end

end CScsSession

/-! ### Whole runs -/

namespace CScsServer

open CScsSession CAsyncRequest

variable {n : Nat} {m t : CScsServer}

theorem removeIfCompleted_accounts (h : Accounted [] none n m) (hi : i < m.iAsyncRequests.length) :
    Ends (fun _ t => Kept n m t ∧ i ≤ t.iAsyncRequests.length) (fun _ _ => False)
      (removeIfCompleted i m.iAsyncRequests[i] m) := by
  rw [removeIfCompleted, bind_ok (get_apply m)]
  by_cases hnone : (m.request m.iAsyncRequests[i]).iSession = none
  · rw [doIf, if_pos hnone]
    refine ⟨⟨h.removed hi hnone, rfl⟩, ?_⟩
    have hlen := length_eraseIdx_of_lt hi
    change i ≤ (m.iAsyncRequests.eraseIdx i).length
    omega
  · rw [doIf, if_neg hnone]
    exact ⟨.refl h, Nat.le_of_lt hi⟩

theorem removeCompletedBelow_accounts (h : Accounted [] none n m)
    (hi : i ≤ m.iAsyncRequests.length) :
    Ends (fun _ t => Kept n m t) (fun _ _ => False) (removeCompletedBelow i m) := by
  induction i generalizing m with
  | zero => exact .refl h
  | succ i ih =>
      rw [removeCompletedBelow_succ hi]
      refine Ends.bind (removeIfCompleted_accounts h hi) ?_
      rintro _ u ⟨hu, hle⟩
      exact (ih hu.accounted hle).mono (fun _ _ hv => hu.trans hv) (fun _ _ hf => hf)

/-- The invariant between two events. -/
def Settled (m : CScsServer) : Prop := Accounted [] none m.nextMessage m

theorem Settled.outcome {f : Server Unit}
    (hf : Ends (fun _ u => u.Settled) (fun e u => e ≠ .contract → u.Settled) (f m))
    (h : outcome (f m) = some t) : t.Settled := by
  rcases hfm : f m with ⟨r, u⟩
  rw [hfm] at hf h
  cases r with
  | ok _ =>
      cases h
      exact hf
  | error e =>
      cases e with
      | leave _ => cases h
      | contract => cases h
      | undefined =>
        cases h
        exact (hf (by simp)).crash

theorem Settled.moved {f : Server Unit} (hm : Moving [] f)
    (hf : Ends (fun _ u => Accounted [] none m.nextMessage u) (fun e _ => e = .contract) (f m)) :
    Ends (fun _ u => u.Settled) (fun e u => e ≠ .contract → u.Settled) (f m) := by
  refine (hf.and (hm m)).mono ?_ (fun _ _ he hne => absurd he.1 hne)
  rintro _ u ⟨hu, hmoves⟩
  unfold Settled
  rw [hmoves.nextMessage]
  exact hu

theorem Settled.connected (h : m.Settled) : CScsServer.Settled { m with
    session := fun y => if y = m.nextSession then some {} else m.session y
    nextSession := m.nextSession + 1 } := by
  have halive : ∀ y, m.session y ≠ none →
      (if y = m.nextSession then some {} else m.session y) ≠ none := by
    intro y hy
    split
    · simp
    · exact hy
  refine ⟨h.nodup, h.waiting, h.ended, h.once, fun x y hx hy => ?_, h.single, h.active, h.keys,
    h.fresh, fun y hy => ?_, fun y hy => ?_, h.ordered⟩
  · exact ⟨halive y (h.owner x y hx hy).1, (h.owner x y hx hy).2⟩
  · obtain ⟨hnone, hlt⟩ := h.gone y hy
    have hne : y ≠ m.nextSession := Nat.ne_of_lt hlt
    exact ⟨by simp [hne, hnone], Nat.lt_succ_of_lt hlt⟩
  · by_cases heq : y = m.nextSession
    · rw [heq]
      exact Nat.lt_succ_self _
    · exact Nat.lt_succ_of_lt (h.alive y (by simpa [heq] using hy))

theorem Settled.arrive (h : m.Settled) : Accounted [] none m.nextMessage m.arrived :=
  ⟨h.nodup, h.waiting, h.ended, h.once, h.owner, h.single, h.active, h.keys, h.fresh, h.gone,
    h.alive, h.ordered⟩

theorem Settled.step {e : Event} (h : m.Settled) (hstep : m.step e = some t) : t.Settled := by
  obtain ⟨f, hf, hout⟩ := step_handler hstep
  refine Settled.outcome ?_ hout
  cases e with
  | connects =>
      cases hf
      exact h.connected
  | message s aFunction int3 a =>
      obtain ⟨hs, hf⟩ := Option.ite_none_right_eq_some.mp hf
      cases hf
      have hsession : m.arrived.session (m.arriving s aFunction int3).iSession ≠ none := hs
      have hserved := service_accounts (a := a) h.arrive rfl hsession
      have hsettled : ∀ u, Kept (m.nextMessage + 1) m.arrived u → u.Settled := by
        intro u hu
        unfold Settled
        rw [hu.nextMessage]
        exact hu.accounted
      exact hserved.mono (fun _ u hu => hsettled u hu) (fun _ u hu hne => hsettled u (hu hne))
  | runs x r =>
      obtain ⟨⟨hin, hact⟩, hf⟩ := Option.ite_none_right_eq_some.mp hf
      cases hf
      exact Settled.moved (.runL x r) (runL_accounts h (h.active x hin hact).1)
  | calls w =>
      cases hf
      exact Settled.moved .work (work_accounts h)
  | disconnects s c =>
      obtain ⟨hs, hf⟩ := Option.ite_none_right_eq_some.mp hf
      cases hf
      refine (destroy_accounts h hs).mono ?_ (fun _ _ he hne => absurd he hne)
      rintro _ u ⟨hu, hnext⟩
      unfold Settled
      rw [hnext]
      exact hu
  | asyncCleanup =>
      obtain ⟨-, hf⟩ := Option.ite_none_right_eq_some.mp hf
      cases hf
      have hrem := removeCompletedBelow_accounts (m := { m with iAsyncCleanup := false })
        (h.due false) (Nat.le_refl _)
      refine hrem.mono ?_ (fun _ _ hf => hf.elim)
      rintro _ u ⟨hu, hnext⟩
      unfold Settled
      rw [hnext]
      exact hu

theorem Settled.reachable (h : Reachable Started CScsServer.step Anything m) : m.Settled := by
  refine h.invariant ?_ fun _ _ _ hs _ hst => hs.step hst
  rintro _ ⟨b, rfl⟩
  exact ⟨by simp, by simp [completions], by simp, by simp [completions], by simp, by simp,
    by simp, by simp [Outstanding], by simp [completions], by simp, by simp, trivial⟩

/-! ### What ends a request -/

/-- The message is about to close the request's session, cancels its function or closes its
subsession. -/
def FinishedBy (m : CScsServer) (x : Nat) (msg : RMessage2) : Prop :=
  (m.request x).iSession = some msg.iSession ∧
    (msg.scsFunction = some .EPreCloseSession ∨
      msg.scsFunction = some .ECancelSessionFunc ∧ (m.request x).iSubsession = none ∧
        (m.request x).iFunction = msg.implFunction ∨
      ∃ ss, getSubsessionL msg m = (.ok ss, m) ∧ (m.request x).iSubsession = some ss ∧
        (msg.scsFunction = some .ECloseSubsession ∨
          msg.scsFunction = some .ECancelSubsessionFunc ∧
            (m.request x).iFunction = msg.implFunction))

/-- An event that ends the request: such a message, or a `RunL` that completes it or leaves. -/
def Finishes (m : CScsServer) (x : Nat) : Event → Prop
  | .message s aFunction int3 _ => FinishedBy m.arrived x (m.arriving s aFunction int3)
  | .runs y r => y = x ∧ ∀ calls, r ≠ .overridden calls none
  | _ => False

/-- A request that cleaning up has ended was completed. -/
theorem ended_once {x : Nat} {u : CScsServer} (h : Accounted [] none n m) (hx : m.Outstanding x)
    (hu : Accounted [] none n u) (hmoves : m.Moves [] u) (hnot : ¬ u.Outstanding x) :
    u.completions x = 1 := by
  obtain ⟨s, hs⟩ := Option.ne_none_iff_exists'.mp hx.2
  have hacc := (h.owner x s hx.1 hs).2
  obtain ⟨l, hl, hc⟩ := hmoves.log
  rcases hu.ended x s (by simp [hl, hacc]) hnot with hone | hd | hdying
  · exact hone
  · rw [hl] at hd
    rcases mem_append.mp hd with hnew | hold
    · obtain ⟨y, c, heq⟩ := hc _ hnew
      cases heq
    · exact absurd hold (h.not_destroyed hx hacc)
  · cases hdying

/-- After `f` the request has been completed, unless the contract was broken. -/
def Completes {α : Type} (x : Nat) (r : Except Halt α × CScsServer) : Prop :=
  Ends (fun _ t => 1 ≤ t.completions x) (fun e t => e ≠ .contract → 1 ≤ t.completions x) r

theorem Completes.of_ends {α : Type} {x : Nat} {f : Server α} (h : Accounted [] none n m)
    (hx : m.Outstanding x) (hm : Moving [] f)
    (hf : Ends (fun _ u => Accounted [] none n u ∧ ¬ u.Outstanding x) (fun e _ => e = .contract)
      (f m)) : Completes x (f m) := by
  refine (hf.and (hm m)).mono ?_ (fun _ _ he hne => absurd he.1 hne)
  rintro _ u ⟨⟨hu, hnot⟩, hmoves⟩
  exact Nat.le_of_eq (ended_once h hx hu hmoves hnot).symm

theorem Completes.bind {α β : Type} {x : Nat} {f : Server α} {g : α → Server β}
    (hf : Completes x (f m)) (hg : ∀ a u, 1 ≤ u.completions x → Completes x (g a u)) :
    Completes x ((f >>= g) m) := Ends.bind hf hg

theorem Completes.of_keeps {α : Type} {x : Nat} {f : Server α} (hf : Keeps f)
    (h : 1 ≤ m.completions x) : Completes x (f m) := by
  refine (hf m).mono ?_ ?_
  · rintro _ _ rfl
    exact h
  · rintro _ _ rfl _
    exact h

theorem completions_le_wrote (m : CScsServer) (act : Action) (x : Nat) :
    m.completions x ≤ (m.wrote act).completions x := by
  simp only [completions, wrote, countP_cons]
  omega

theorem completeError_completes {x : Nat} {msg : RMessage2} {aError : Int}
    (h : 1 ≤ m.completions x) :
    Ends (fun _ t => 1 ≤ t.completions x) (fun _ _ => False) (completeError msg aError m) := by
  unfold completeError
  repeat' split
  all_goals exact Nat.le_trans h (completions_le_wrote m _ x)

/-- What comes after the delegate only adds to the log. -/
theorem service_completes {x : Nat} {msg : RMessage2} {a : Answers}
    (hd : Completes x (delegateL msg a m)) : Completes x (service msg a m) := by
  have hserve : Completes x (serviceL msg a m) := by
    refine hd.bind fun b u hu => ?_
    cases b with
    | false => exact hu
    | true => exact Nat.le_trans hu (completions_le_wrote u _ x)
  refine Ends.tryCatch hserve fun e u hu => ?_
  cases e with
  | contract => exact hu
  | undefined => exact hu
  | leave aError =>
      have hu' := hu (by simp)
      change Completes x (serviceError msg aError u)
      rw [serviceError]
      refine Completes.bind (Completes.of_keeps thisSession_same hu') fun y v hv => ?_
      refine Completes.bind (f := doIf _ _) ?_ fun _ w hw => ?_
      · unfold doIf
        split
        · exact hv
        · exact hv
      · exact (completeError_completes hw).mono (fun _ _ hz => hz) (fun _ _ hz => hz.elim)

theorem removeHandle_completes {x s : Nat} {k : Int} (h : 1 ≤ m.completions x) :
    Completes x (removeHandle s k m) := by
  have honSession : ∀ g (u : CScsServer), 1 ≤ u.completions x →
      Completes x (onSession s g u) := fun _ _ hu => hu
  rw [removeHandle]
  refine Completes.bind (Completes.of_keeps thisSession_same h) fun y u hu => ?_
  refine Completes.bind (Completes.of_keeps (deref_same _) hu) fun hs v hv => ?_
  refine Completes.bind (Completes.of_keeps (atL_same _ _) hv) fun ss w hw => ?_
  refine Completes.bind (honSession _ w hw) fun _ w hw => ?_
  refine Completes.bind (honSession _ w hw) fun _ w hw => ?_
  unfold doIf
  split
  · exact honSession _ w hw
  · exact hw

section

variable (h : Accounted [] none n m)
include h

/-- The request that has the key is the one that is found. -/
theorem findAsyncRequest_eq {x s : Nat} (hx : m.Outstanding x)
    (hs : (m.request x).iSession = some s) (hss : (m.request x).iSubsession = ss)
    (hf : (m.request x).iFunction = aFunction) : m.findAsyncRequest s ss aFunction = some x := by
  cases hfind : m.findAsyncRequest s ss aFunction with
  | none => exact absurd ⟨hs, hss, hf⟩ (findAsyncRequest_none hfind hx.1)
  | some y =>
      obtain ⟨hy, hys, hyss, hyf⟩ := findAsyncRequest_some hfind
      rw [h.keys y x ⟨hy, by simp [hys]⟩ hx (hys.trans hs.symm) (hyss.trans hss.symm)
        (hyf.trans hf.symm)]

theorem cancelAsyncRequest_completes {x s : Nat} {c : Cleanups} (hx : m.Outstanding x)
    (hs : (m.request x).iSession = some s) (hss : (m.request x).iSubsession = ss)
    (hf : (m.request x).iFunction = aFunction) :
    Completes x (cancelAsyncRequest s ss aFunction c m) := by
  refine Completes.of_ends h hx (.cancelAsyncRequest s ss aFunction c) ?_
  refine (cancelAsyncRequest_accounts (c := c) h).mono ?_ (fun _ _ he => he)
  rintro _ u ⟨hu, hnone⟩
  exact ⟨hu, fun hc => hc.2 (hnone x (findAsyncRequest_eq h hx hs hss hf))⟩

theorem cancelOutstandingRequests_completes {x s : Nat} {w : SubsessionMatch} {c : Cleanups}
    (hx : m.Outstanding x) (hmatch : m.Matches s w x) :
    Completes x (cancelOutstandingRequests s w true c m) := by
  have hm := Moving.cancelOutstandingRequests s w true c
  have hends := (cancelOutstandingRequests_accounts (w := w) (c := c) (b := true) (s := s) h
    (by simp)).and (hm m)
  refine Completes.of_ends h hx hm (hends.mono ?_ (fun _ _ he => he.1))
  rintro _ u ⟨⟨hu, hnone⟩, hmoves⟩
  refine ⟨hu, fun hc => hnone x hx.1 ⟨?_, ?_⟩⟩
  · rcases (hmoves.ages x).iSession with heq | hnull
    · exact heq.trans hmatch.1
    · exact absurd hnull hc.2
  · rw [(hmoves.ages x).iSubsession]
    exact hmatch.2

theorem delegateL_completes {x : Nat} {msg : RMessage2} {a : Answers} (hx : m.Outstanding x)
    (hf : FinishedBy m x msg) : Completes x (delegateL msg a m) := by
  have htrue : ∀ u : CScsServer, 1 ≤ u.completions x →
      Completes x ((pure true : Server Bool) u) := fun _ hu => hu
  obtain ⟨hs, hclose | ⟨hcancel, hss, hfun⟩ | ⟨ss, hget, hss, hclose | ⟨hcancel, hfun⟩⟩⟩ := hf
  · simp only [delegateL, hclose]
    exact (cancelOutstandingRequests_completes (w := .KWildSubsession) h hx ⟨hs, rfl⟩).bind
      fun _ u hu => htrue u hu
  · simp only [delegateL, hcancel]
    exact (cancelAsyncRequest_completes h hx hs hss hfun).bind fun _ u hu => htrue u hu
  · simp only [delegateL, hclose]
    refine Completes.bind ?_ fun _ u hu => htrue u hu
    rw [closeSubsessionL, bind_ok hget]
    have hmatch : m.Matches msg.iSession (.subsession (some ss)) x :=
      ⟨hs, by simp [SubsessionMatch.matches, hss]⟩
    refine (cancelOutstandingRequests_completes h hx hmatch).bind fun _ u hu => ?_
    refine (removeHandle_completes hu).bind fun _ v hv => ?_
    exact Nat.le_trans hv (completions_le_wrote v _ x)
  · simp only [delegateL, hcancel]
    refine Completes.bind ?_ fun _ u hu => htrue u hu
    rw [cancelAsyncSubsessionRequestL, bind_ok hget]
    exact cancelAsyncRequest_completes h hx hs hss hfun

theorem runL_completes {x : Nat} {r : RunL} (hx : m.Outstanding x)
    (hr : ∀ calls, r ≠ .overridden calls none) : Completes x (runL x r m) := by
  refine Completes.of_ends h hx (.runL x r) ?_
  refine (runL_ends h hx hr).mono ?_ (fun _ _ he => he)
  rintro _ u ⟨hu, hnone⟩
  exact ⟨hu, fun hc => hc.2 hnone⟩

end

/-- Whatever ends a request completes it. -/
theorem Settled.finishes {x : Nat} {e : Event} (h : m.Settled) (hx : m.Outstanding x)
    (hf : Finishes m x e) (hstep : m.step e = some t) : t.completions x = 1 := by
  have hsettled := h.step hstep
  refine Nat.le_antisymm (hsettled.once x) ?_
  obtain ⟨f, hhandler, hout⟩ := step_handler hstep
  have hdone : Completes x (f m) := by
    cases e with
    | message s aFunction int3 a =>
      obtain ⟨-, hhandler⟩ := Option.ite_none_right_eq_some.mp hhandler
      cases hhandler
      exact service_completes (delegateL_completes h.arrive hx hf)
    | runs y r =>
      obtain ⟨-, hhandler⟩ := Option.ite_none_right_eq_some.mp hhandler
      cases hhandler
      obtain ⟨rfl, hr⟩ := hf
      exact runL_completes h hx hr
    | connects => exact hf.elim
    | calls w => exact hf.elim
    | disconnects s c => exact hf.elim
    | asyncCleanup => exact hf.elim
  rcases hfm : f m with ⟨r, u⟩
  rw [hfm] at hdone hout
  cases r with
  | ok _ =>
      cases hout
      exact hdone
  | error e =>
      cases e with
      | leave _ => cases hout
      | contract => cases hout
      | undefined =>
        cases hout
        exact hdone (by simp)

/-- **Requests are completed once.**  An accepted request is completed at most once; until it is
completed it is outstanding, unless its session was destroyed before, and then it never is.  No
two outstanding requests share session, subsession and function, nothing is deleted too early,
and each event that ends a request completes it. -/
theorem completed_once (h : Reachable Started CScsServer.step Anything m) :
    (∀ x s, .accepted x s ∈ m.log →
      m.completions x ≤ 1 ∧
      (m.Outstanding x ↔ m.completions x = 0 ∧ .destroyed s ∉ m.log)) ∧
    (∀ x y, m.Outstanding x → m.Outstanding y →
      (m.request x).iSession = (m.request y).iSession →
      (m.request x).iSubsession = (m.request y).iSubsession →
      (m.request x).iFunction = (m.request y).iFunction → x = y) ∧
    Ordered m.log ∧
    ∀ x e t, m.Outstanding x → Finishes m x e → m.step e = some t → t.completions x = 1 := by
  have hm := Settled.reachable h
  refine ⟨fun x s hacc => ⟨hm.once x, fun hx => ?_, fun hx => ?_⟩, hm.keys, hm.ordered,
    fun x e t hx hf hstep => hm.finishes hx hf hstep⟩
  · exact ⟨hm.waiting x hx (by simp), hm.not_destroyed hx hacc⟩
  · by_contra hnot
    rcases hm.ended x s hacc hnot with hone | hd | hdying
    · omega
    · exact hx.2 hd
    · cases hdying

/-- Two requests, of which the first is cancelled and the second is still outstanding. -/
theorem completed_once_two_requests :
    ∃ m, Reachable Started CScsServer.step Anything m ∧ m.completions 0 ≤ 1 ∧
      ¬ m.Outstanding 0 ∧ (m.Outstanding 1 ↔ m.completions 1 = 0 ∧ .destroyed 0 ∉ m.log) := by
  have hrun : (run CScsServer.step {}
      [.connects,
        .message 0 0x01000005 0 { doServiceL := .asynchronous (.ok ()) (.setActive 0 .returns) },
        .message 0 0x01000006 0 { doServiceL := .asynchronous (.ok ()) (.setActive 1 .returns) },
        .message 0 0x04000005 0 {}]).map
      (fun m => decide (.accepted 0 0 ∈ m.log ∧ .accepted 1 0 ∈ m.log ∧ ¬ m.Outstanding 0)) =
      some true := rfl
  obtain ⟨m, hm, hobs⟩ := Option.map_eq_some_iff.mp hrun
  obtain ⟨hfirst, hsecond, hnot⟩ := of_decide_eq_true hobs
  have hreach : Reachable Started CScsServer.step Anything m :=
    (Reachable.start ⟨false, rfl⟩).run hm
  obtain ⟨haccepted, -⟩ := completed_once hreach
  exact ⟨m, hreach, (haccepted 0 0 hfirst).1, hnot, (haccepted 1 0 hsecond).2⟩

/-- **No request outlives its session.**  A request that still has its session pointer was
accepted for that session, which is there and was not destroyed, and has not been completed; and
only such a request is active. -/
theorem pointers_valid (h : Reachable Started CScsServer.step Anything m) :
    ∀ x ∈ m.iAsyncRequests,
      (∀ s, (m.request x).iSession = some s → m.session s ≠ none ∧ .destroyed s ∉ m.log ∧
        .accepted x s ∈ m.log ∧ m.completions x = 0) ∧
      ((m.request x).iActive → (m.request x).iSession ≠ none) := by
  have hm := Settled.reachable h
  refine fun x hx => ⟨fun s hs => ?_, fun hactive => (hm.active x hx hactive).1.2⟩
  obtain ⟨halive, haccepted⟩ := hm.owner x s hx hs
  have hout : m.Outstanding x := ⟨hx, by simp [hs]⟩
  exact ⟨halive, hm.not_destroyed hout haccepted, haccepted, hm.waiting x hout (by simp)⟩

/-- A session with a request that is active. -/
theorem pointers_valid_active : ∃ m : CScsServer, 0 ∈ m.iAsyncRequests ∧
    (m.request 0).iActive ∧ (m.request 0).iSession ≠ none := by
  have hrun : (run CScsServer.step {}
      [.connects,
        .message 0 0x01000005 0 { doServiceL := .asynchronous (.ok ()) (.setActive 0 .returns) }]).map
      (fun m => decide (0 ∈ m.iAsyncRequests ∧ (m.request 0).iActive)) = some true := rfl
  obtain ⟨m, hm, hobs⟩ := Option.map_eq_some_iff.mp hrun
  obtain ⟨hx, hactive⟩ := of_decide_eq_true hobs
  exact ⟨m, hx, hactive,
    (pointers_valid ((Reachable.start ⟨false, rfl⟩).run hm) 0 hx).2 hactive⟩

end CScsServer

end OsSecurity.Scs

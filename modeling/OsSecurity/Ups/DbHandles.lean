/-
The handles of the decision database, and who hears that it is about to be deleted.

The master's `Close` walks the list of the slave handles in use, calls each one's client and
goes on along the link it finds in the handle afterwards.  A slave's `Close` clears that link.
So a client that closes its own handle, as the update evaluator does, ends the walk, and the
handles behind its own hear nothing; one that closes a handle that is still waiting takes it out
of the walk.  `Spared` says that no client does either.  Then every handle in use hears once,
before the database goes, whatever else the clients do with the handles; and where clients do
nothing but close handles, it is so only then.
-/
import OsSecurity.Library.Fuel
import OsSecurity.Library.LinkedLists
import Mathlib.Data.List.Count
import Mathlib.Data.List.Perm.Subperm

namespace OsSecurity

open Fuel Function LinkedLists List

variable {α : Type*} [DecidableEq α]

/-- What happens while the master is closed. -/
inductive DbHandleEvent (α : Type*)
  /-- `DbHandleAboutToBeDeleted` is called for the handle. -/
  | aboutToBeDeleted (aClient : α)
  /-- The database is deleted. -/
  | deleted
  deriving DecidableEq

/-- What the code of a client can do with the handles. -/
inductive DbHandleCall (α : Type*)
  /-- The `->` of a slave. -/
  | use (aClient : α)
  | close (aClient : α)
  | closeMaster (aClient : α)
  deriving DecidableEq

/-- `RUpsDbHandleMaster`, with the fields of its slaves. -/
structure RUpsDbHandleMaster (α : Type*) where
  /-- The database is open. -/
  iDatabase : Bool
  iClientListHead : Option α
  iClientListNext : α → Option α
  iInUse : α → Bool
  events : List (DbHandleEvent α)

/-- What the clients do, by what has happened so far. -/
abbrev DbHandleClients (α : Type*) := List (DbHandleEvent α) → α → List (DbHandleCall α)

namespace RUpsDbHandleMaster

/-! ### The list of the clients -/

def register (aClient : α) (s : RUpsDbHandleMaster α) : RUpsDbHandleMaster α :=
  { s with
    iClientListNext := Function.update s.iClientListNext aClient s.iClientListHead
    iClientListHead := some aClient }

/-- `*pp`, where `pp` is at the head or at the link of a handle. -/
def target (s : RUpsDbHandleMaster α) : Option α → Option α
  | none => s.iClientListHead
  | some h => s.iClientListNext h

/-- `*pp = aClient` -/
def setTarget (s : RUpsDbHandleMaster α) : Option α → Option α → RUpsDbHandleMaster α
  | none, aClient => { s with iClientListHead := aClient }
  | some h, aClient =>
      { s with iClientListNext := Function.update s.iClientListNext h aClient }

/-- The handle is taken out, and its own link is cleared. -/
def unlink (pp : Option α) (aClient : α) (s : RUpsDbHandleMaster α) : RUpsDbHandleMaster α :=
  (s.setTarget pp (s.iClientListNext aClient)).setTarget (some aClient) none

/-- The loop of `UnRegister`.  The fuel bounds its turns. -/
def unRegisterFrom (aClient : α) (s : RUpsDbHandleMaster α) :
    Nat → Option α → Option (RUpsDbHandleMaster α)
  | 0, _ => none
  | fuel + 1, pp =>
      match s.target pp with
      | none => some s
      | some h => if h = aClient then some (s.unlink pp aClient)
          else unRegisterFrom aClient s fuel (some h)

def unRegister (fuel : Nat) (aClient : α) (s : RUpsDbHandleMaster α) :
    Option (RUpsDbHandleMaster α) :=
  unRegisterFrom aClient s fuel none

/-- `RUpsDbHandleSlave::Close` -/
def closeSlave (fuel : Nat) (aClient : α) (s : RUpsDbHandleMaster α) :
    Option (RUpsDbHandleMaster α) :=
  if s.iInUse aClient then
    (s.unRegister fuel aClient).map fun t =>
      { t with iInUse := Function.update t.iInUse aClient false }
  else some s

/-- A slave that is not in use registers. -/
def registerUnused (aClient : α) (s : RUpsDbHandleMaster α) : RUpsDbHandleMaster α :=
  if s.iInUse aClient then s
  else { s.register aClient with iInUse := Function.update s.iInUse aClient true }

/-- The `->` of a slave: it registers, and the master opens the database. -/
def use (aClient : α) (s : RUpsDbHandleMaster α) : RUpsDbHandleMaster α :=
  { s.registerUnused aClient with iDatabase := true }

/-! ### Closing the master -/

def log (e : DbHandleEvent α) (s : RUpsDbHandleMaster α) : RUpsDbHandleMaster α :=
  { s with events := s.events ++ [e] }

def deleteDatabase (s : RUpsDbHandleMaster α) : RUpsDbHandleMaster α :=
  if s.iDatabase then { s.log .deleted with iDatabase := false } else s

mutual

/-- What a client does when it is called. -/
def perform (clients : DbHandleClients α) :
    Nat → List (DbHandleCall α) → RUpsDbHandleMaster α → Option (RUpsDbHandleMaster α)
  | 0, _, _ => none
  | _ + 1, [], s => some s
  | fuel + 1, .use h :: calls, s => perform clients fuel calls (s.use h)
  | fuel + 1, .close h :: calls, s =>
      (s.closeSlave fuel h).bind fun t => perform clients fuel calls t
  | fuel + 1, .closeMaster h :: calls, s =>
      (s.closeSlave fuel h).bind fun t => (notifyFrom clients fuel t.iClientListHead t).bind
        fun u => perform clients fuel calls u.deleteDatabase

/-- The loop of `Close`: the client of `p` is called, and the link it leaves is followed. -/
def notifyFrom (clients : DbHandleClients α) :
    Nat → Option α → RUpsDbHandleMaster α → Option (RUpsDbHandleMaster α)
  | 0, _, _ => none
  | _ + 1, none, s => some s
  | fuel + 1, some p, s =>
      (perform clients fuel (clients (s.log (.aboutToBeDeleted p)).events p)
        (s.log (.aboutToBeDeleted p))).bind fun t =>
          notifyFrom clients fuel (t.iClientListNext p) t

end

def close (clients : DbHandleClients α) (fuel : Nat) (s : RUpsDbHandleMaster α) :
    Option (RUpsDbHandleMaster α) :=
  (notifyFrom clients fuel s.iClientListHead s).map deleteDatabase

/-! ### The handles in the list -/

/-- The links lead through the handles in use, and no other handle has a link. -/
structure Listed (s : RUpsDbHandleMaster α) (l : List α) : Prop where
  chain : Chain s.iClientListNext s.iClientListHead l
  nodup : l.Nodup
  inUse : ∀ h, s.iInUse h = true ↔ h ∈ l
  idle : ∀ h, h ∉ l → s.iClientListNext h = none

variable {s : RUpsDbHandleMaster α} {l : List α} {h : α}

theorem unRegisterFrom_ends {back : List α} :
    ∀ (rest done : List α),
      s.target done.getLast? = (rest ++ h :: back).head? →
      Chain s.iClientListNext s.iClientListHead (done ++ rest ++ h :: back) → h ∉ rest →
      Enough (fun fuel => s.unRegisterFrom h fuel done.getLast?)
        (s.unlink (done ++ rest).getLast? h)
  | [], done, htarget, _, _ => by
      refine Enough.step (g := fun _ => some (s.unlink done.getLast? h)) ?_ ?_
      · intro fuel
        simp only [nil_append, head?_cons] at htarget
        simp only [unRegisterFrom, htarget, if_true]
      · rw [append_nil]
        exact Enough.of_forall fun _ => rfl
  | b :: rest, done, htarget, hchain, hh => by
      have hne : b ≠ h := fun e => hh (e ▸ mem_cons_self)
      have hmove : done ++ b :: rest = done ++ [b] ++ rest := by simp
      have hlast : (done ++ [b]).getLast? = some b := by simp
      rw [hmove] at hchain ⊢
      have hlink : s.target (some b) = (rest ++ h :: back).head? := by
        simp only [List.append_assoc] at hchain
        exact hchain.link
      have hrest := unRegisterFrom_ends rest (done ++ [b])
        (by rw [hlast]; exact hlink) hchain fun hmem => hh (mem_cons_of_mem b hmem)
      refine Enough.step (fun fuel => ?_) hrest
      simp only [cons_append, head?_cons] at htarget
      simp only [unRegisterFrom, htarget, if_neg hne, hlast]

theorem unlink_chain {front back : List α}
    (hchain : Chain s.iClientListNext s.iClientListHead (front ++ h :: back))
    (hnodup : (front ++ h :: back).Nodup) :
    Chain (s.unlink front.getLast? h).iClientListNext (s.unlink front.getLast? h).iClientListHead
      (front ++ back) := by
  have hout : h ∉ front ++ back := by
    intro hmem
    have hperm : (front ++ h :: back).Perm (h :: (front ++ back)) := perm_middle
    exact (nodup_cons.mp (hperm.nodup_iff.mp hnodup)).1 hmem
  rcases eq_nil_or_concat front with rfl | ⟨front, b, rfl⟩
  · exact hchain.2.update hout
  · have hlast : (front.concat b).getLast? = some b := by simp
    rw [hlast]
    simp only [concat_eq_append, List.append_assoc, singleton_append] at hchain hnodup
    have hunlinked := hchain.unlink hnodup
    have hlist : front.concat b ++ back = front ++ b :: back := by simp
    rw [hlist] at hout ⊢
    exact hunlinked.update hout

theorem unlink_iInUse (pp : Option α) : (s.unlink pp h).iInUse = s.iInUse := by
  cases pp <;> rfl

theorem unlink_events (pp : Option α) : (s.unlink pp h).events = s.events := by
  cases pp <;> rfl

theorem unlink_idle {pp : Option α} {k : α} (hk : k ≠ h) (hpp : pp ≠ some k) :
    (s.unlink pp h).iClientListNext k = s.iClientListNext k := by
  cases pp with
  | none => exact update_of_ne hk _ _
  | some b =>
      have hb : k ≠ b := fun e => hpp (e ▸ rfl)
      exact (update_of_ne hk _ _).trans (update_of_ne hb _ _)

theorem unlink_self (pp : Option α) : (s.unlink pp h).iClientListNext h = none := by
  cases pp <;> exact update_self _ _ _

/-- A slave that closes is out of the list. -/
theorem closeSlave_ends (hs : Listed s l) (h : α) :
    ∃ t, Enough (fun fuel => s.closeSlave fuel h) t ∧ Listed t (l.erase h) ∧
      t.events = s.events := by
  by_cases hmem : h ∈ l
  · obtain ⟨front, back, rfl⟩ := append_of_mem hmem
    have hfront : h ∉ front := by
      intro hin
      exact (nodup_append.mp hs.nodup).2.2 h hin h mem_cons_self rfl
    have hends : Enough (fun fuel => s.unRegister fuel h) (s.unlink front.getLast? h) := by
      have hhead : s.target ([] : List α).getLast? = (front ++ h :: back).head? := hs.chain.head
      have hfrom := unRegisterFrom_ends front [] hhead hs.chain hfront
      exact hfrom
    have hlisted : front ++ back = (front ++ h :: back).erase h := by
      rw [erase_append_right _ hfront, erase_cons_head]
    refine ⟨{ s.unlink front.getLast? h with
      iInUse := Function.update (s.unlink front.getLast? h).iInUse h false }, ?_, ?_,
      unlink_events _⟩
    · simp only [closeSlave, (hs.inUse h).mpr hmem, if_true]
      exact hends.map
    · refine ⟨?_, hs.nodup.erase h, fun k => ?_, fun k hk => ?_⟩
      · rw [← hlisted]
        exact unlink_chain hs.chain hs.nodup
      · rw [hs.nodup.mem_erase_iff]
        by_cases hkh : k = h
        · simp [hkh]
        · simp [hkh, update_of_ne, unlink_iInUse, hs.inUse]
      · rw [hs.nodup.mem_erase_iff] at hk
        by_cases hkh : k = h
        · rw [hkh]
          exact unlink_self _
        · have hkl : k ∉ front ++ h :: back := fun hin => hk ⟨hkh, hin⟩
          have hpp : front.getLast? ≠ some k := by
            intro e
            exact hkl (mem_append_left _ (mem_of_getLast? e))
          exact (unlink_idle hkh hpp).trans (hs.idle k hkl)
  · refine ⟨s, Enough.of_forall fun fuel => ?_, ?_, rfl⟩
    · have hunused : ¬s.iInUse h = true := fun e => hmem ((hs.inUse h).mp e)
      simp only [closeSlave, if_neg hunused]
    · rw [erase_of_not_mem hmem]
      exact hs

theorem use_listed (hs : Listed s l) (h : α) :
    Listed (s.use h) (if h ∈ l then l else h :: l) ∧ (s.use h).events = s.events := by
  by_cases hmem : h ∈ l
  · have hused : s.use h = { s with iDatabase := true } := by
      simp only [use, registerUnused, (hs.inUse h).mpr hmem, if_true]
    rw [if_pos hmem, hused]
    exact ⟨⟨hs.chain, hs.nodup, hs.inUse, hs.idle⟩, rfl⟩
  · have hunused : ¬s.iInUse h = true := fun e => hmem ((hs.inUse h).mp e)
    have hused : s.use h = { s.register h with
        iInUse := Function.update s.iInUse h true
        iDatabase := true } := by
      simp only [use, registerUnused, if_neg hunused]
    rw [if_neg hmem, hused]
    refine ⟨⟨hs.chain.push hmem, nodup_cons.mpr ⟨hmem, hs.nodup⟩, fun k => ?_,
      fun k hk => ?_⟩, rfl⟩
    · by_cases hkh : k = h
      · simp [hkh]
      · simp [hkh, update_of_ne, hs.inUse]
    · have hkh : k ≠ h := fun e => hk (e ▸ mem_cons_self)
      exact (update_of_ne hkh _ _).trans
        (hs.idle k fun hin => hk (mem_cons_of_mem h hin))

omit [DecidableEq α] in
/-- No handle in use. -/
theorem listed_nil (iDatabase : Bool) (events : List (DbHandleEvent α)) :
    Listed ⟨iDatabase, none, fun _ => none, fun _ => false, events⟩ ([] : List α) :=
  ⟨rfl, nodup_nil, fun _ => by simp, fun _ _ => rfl⟩

end RUpsDbHandleMaster

/-- What a call makes of the list, the master's apart. -/
def DbHandleCall.effect (l : List α) : DbHandleCall α → List α
  | .use h => if h ∈ l then l else h :: l
  | .close h => l.erase h
  | .closeMaster h => l.erase h

theorem foldl_effect_append {calls : List (DbHandleCall α)} {back : List α} (front : List α)
    (hback : ∀ h ∈ back, .close h ∉ calls) (hmaster : ∀ h, .closeMaster h ∉ calls) :
    ∃ front', calls.foldl DbHandleCall.effect (front ++ back) = front' ++ back := by
  induction calls generalizing front with
  | nil => exact ⟨front, rfl⟩
  | cons call calls ih =>
      have hrest : ∀ h ∈ back, .close h ∉ calls := fun h hh hmem =>
        hback h hh (mem_cons_of_mem call hmem)
      have hmaster' : ∀ h, .closeMaster h ∉ calls := fun h hmem =>
        hmaster h (mem_cons_of_mem call hmem)
      cases call with
      | use h =>
        by_cases hmem : h ∈ front ++ back
        · simpa only [foldl_cons, DbHandleCall.effect, if_pos hmem] using
            ih front hrest hmaster'
        · simpa only [foldl_cons, DbHandleCall.effect, if_neg hmem, cons_append] using
            ih (h :: front) hrest hmaster'
      | close h =>
        have hh : h ∉ back := fun hin => hback h hin mem_cons_self
        have herase : (front ++ back).erase h = front.erase h ++ back := by
          by_cases hmem : h ∈ front
          · exact erase_append_left back hmem
          · rw [erase_append_right back hmem, erase_of_not_mem hmem, erase_of_not_mem hh]
        simpa only [foldl_cons, DbHandleCall.effect, herase] using
          ih (front.erase h) hrest hmaster'
      | closeMaster h => exact absurd mem_cons_self (hmaster h)

theorem mem_of_mem_effect {call : DbHandleCall α} {l : List α} {p : α}
    (huse : call ≠ .use p) (h : p ∈ call.effect l) : p ∈ l := by
  cases call with
  | use h' =>
      have hne : p ≠ h' := fun e => huse (e ▸ rfl)
      simp only [DbHandleCall.effect] at h
      by_cases hmem : h' ∈ l
      · rwa [if_pos hmem] at h
      · rw [if_neg hmem] at h
        exact (mem_cons.mp h).resolve_left hne
  | close h' => exact mem_of_mem_erase h
  | closeMaster h' => exact mem_of_mem_erase h

theorem mem_of_mem_foldl_effect {calls : List (DbHandleCall α)} {l : List α} {p : α}
    (huse : .use p ∉ calls) (h : p ∈ calls.foldl DbHandleCall.effect l) : p ∈ l := by
  induction calls generalizing l with
  | nil => exact h
  | cons call calls ih =>
      have hin := ih (fun hmem => huse (mem_cons_of_mem call hmem)) h
      exact mem_of_mem_effect (fun e => huse (e ▸ mem_cons_self)) hin

theorem nodup_effect {l : List α} (hl : l.Nodup) (call : DbHandleCall α) :
    (call.effect l).Nodup := by
  cases call with
  | use h =>
      by_cases hmem : h ∈ l
      · simpa only [DbHandleCall.effect, if_pos hmem] using hl
      · simpa only [DbHandleCall.effect, if_neg hmem] using nodup_cons.mpr ⟨hmem, hl⟩
  | close h => exact hl.erase h
  | closeMaster h => exact hl.erase h

theorem not_mem_foldl_effect {calls : List (DbHandleCall α)} {l : List α} {p : α}
    (hl : l.Nodup) (huse : .use p ∉ calls) (hclose : .close p ∈ calls) :
    p ∉ calls.foldl DbHandleCall.effect l := by
  induction calls generalizing l with
  | nil => exact absurd hclose not_mem_nil
  | cons call calls ih =>
      have huse' : .use p ∉ calls := fun hmem => huse (mem_cons_of_mem call hmem)
      rcases mem_cons.mp hclose with rfl | hclose
      · intro h
        have hmem := mem_of_mem_foldl_effect huse' h
        exact (hl.mem_erase_iff.mp hmem).1 rfl
      · exact ih (nodup_effect hl call) huse' hclose

/-- The handles that the calls do not close. -/
def stillListed (calls : List (DbHandleCall α)) (l : List α) : List α :=
  l.filter fun h => .close h ∉ calls

theorem foldl_effect_closing {calls : List (DbHandleCall α)} {l : List α} (hl : l.Nodup)
    (hclosing : ∀ call ∈ calls, ∃ h, call = .close h) :
    calls.foldl DbHandleCall.effect l = stillListed calls l := by
  induction calls generalizing l with
  | nil => simp [stillListed]
  | cons call calls ih =>
      obtain ⟨h, rfl⟩ := hclosing call mem_cons_self
      have hrest := ih (hl.erase h) fun c hc => hclosing c (mem_cons_of_mem _ hc)
      simp only [foldl_cons, DbHandleCall.effect, hrest, stillListed]
      rw [hl.erase_eq_filter, filter_filter]
      refine filter_congr fun k _ => ?_
      by_cases hk : k = h
      · simp [hk]
      · simp [hk]

/-! ### Closing the master -/

/-- The calls leave the walk as it is at the handle `p`, with the handles `waiting` behind it. -/
structure Spares (calls : List (DbHandleCall α)) (p : α) (waiting : List α) : Prop where
  behind : ∀ h ∈ waiting, .close h ∉ calls
  own : .close p ∈ calls → waiting = [] ∧ .use p ∉ calls
  master : ∀ h, .closeMaster h ∉ calls

/-- No client closes a handle that waits, nor its own before handles that wait. -/
def Spared (clients : DbHandleClients α) : List (DbHandleEvent α) → List α → Prop
  | _, [] => True
  | events, p :: waiting =>
      Spares (clients (events ++ [.aboutToBeDeleted p]) p) p waiting ∧
        Spared clients (events ++ [DbHandleEvent.aboutToBeDeleted p]) waiting

/-- The clients do nothing but close handles. -/
def OnlyClose (clients : DbHandleClients α) : Prop :=
  ∀ events p, ∀ call ∈ clients events p, ∃ h, call = .close h

namespace RUpsDbHandleMaster

variable {s : RUpsDbHandleMaster α} {l : List α} {clients : DbHandleClients α}

theorem perform_ends (clients : DbHandleClients α) {calls : List (DbHandleCall α)} (hs : Listed s l)
    (hmaster : ∀ h, .closeMaster h ∉ calls) :
    ∃ t, Enough (fun fuel => perform clients fuel calls s) t ∧
      Listed t (calls.foldl DbHandleCall.effect l) ∧ t.events = s.events := by
  induction calls generalizing s l with
  | nil =>
      refine ⟨s, Enough.step (g := fun _ => some s) (fun fuel => ?_) ?_, hs, rfl⟩
      · rw [perform]
      · exact Enough.of_forall fun _ => rfl
  | cons call calls ih =>
      have hrest : ∀ h, .closeMaster h ∉ calls := fun h hmem =>
        hmaster h (mem_cons_of_mem call hmem)
      cases call with
      | use h =>
        obtain ⟨hused, hevents⟩ := use_listed hs h
        obtain ⟨t, hends, hlisted, hlog⟩ := ih hused hrest
        refine ⟨t, Enough.step (fun fuel => ?_) hends, hlisted, hlog.trans hevents⟩
        rw [perform]
      | close h =>
        obtain ⟨u, hclosed, hu, hevents⟩ := closeSlave_ends hs h
        obtain ⟨t, hends, hlisted, hlog⟩ := ih hu hrest
        refine ⟨t, Enough.step (fun fuel => ?_) (hclosed.bind hends), hlisted, hlog.trans hevents⟩
        rw [perform]
      | closeMaster h => exact absurd mem_cons_self (hmaster h)

/-- One turn of the loop. -/
theorem notifyFrom_ends {p : α} {t u : RUpsDbHandleMaster α}
    (hcalled : Enough (fun fuel => perform clients fuel
      (clients (s.events ++ [DbHandleEvent.aboutToBeDeleted p]) p) (s.log (.aboutToBeDeleted p))) t)
    (hrest : Enough (fun fuel => notifyFrom clients fuel (t.iClientListNext p) t) u) :
    Enough (fun fuel => notifyFrom clients fuel (some p) s) u := by
  have hturn := hcalled.bind (g := fun fuel t => notifyFrom clients fuel (t.iClientListNext p) t)
    hrest
  refine Enough.step (fun fuel => ?_) hturn
  rw [notifyFrom]
  rfl

theorem notifyFrom_none : Enough (fun fuel => notifyFrom clients fuel none s) s := by
  refine Enough.step (g := fun _ => some s) (fun fuel => ?_) ?_
  · rw [notifyFrom]
  · exact Enough.of_forall fun _ => rfl

omit [DecidableEq α] in
theorem Listed.log (hs : Listed s l) (e : DbHandleEvent α) : Listed (s.log e) l :=
  ⟨hs.chain, hs.nodup, hs.inUse, hs.idle⟩

theorem notifyFrom_spared {waiting : List α} (passed : List α) (hs : Listed s (passed ++ waiting))
    (hspared : Spared clients s.events waiting) :
    ∃ t, Enough (fun fuel => notifyFrom clients fuel waiting.head? s) t ∧
      t.events = s.events ++ waiting.map .aboutToBeDeleted := by
  induction waiting generalizing passed s with
  | nil => exact ⟨s, notifyFrom_none, by simp⟩
  | cons p waiting ih =>
      obtain ⟨hspares, hrest⟩ := hspared
      obtain ⟨t, hcalled, ht, hevents⟩ := perform_ends clients (hs.log (.aboutToBeDeleted p))
        hspares.master
      have hlog : t.events = s.events ++ [DbHandleEvent.aboutToBeDeleted p] := hevents
      -- where the link of `p` leads, and what is listed up to there
      have hnext : ∃ passed', Listed t (passed' ++ waiting) ∧
          t.iClientListNext p = waiting.head? := by
        by_cases hown : .close p ∈ clients (s.events ++ [.aboutToBeDeleted p]) p
        · obtain ⟨rfl, huse⟩ := hspares.own hown
          have hlist := (append_nil
            ((clients (s.events ++ [DbHandleEvent.aboutToBeDeleted p]) p).foldl
              DbHandleCall.effect (passed ++ [p]))).symm
          refine ⟨_, hlist ▸ ht, ht.idle p ?_⟩
          exact not_mem_foldl_effect hs.nodup huse hown
        · have hback : ∀ h ∈ p :: waiting,
              .close h ∉ clients (s.events ++ [DbHandleEvent.aboutToBeDeleted p]) p := by
            intro h hh
            rcases mem_cons.mp hh with rfl | hh
            · exact hown
            · exact hspares.behind h hh
          obtain ⟨passed', hlist⟩ := foldl_effect_append passed hback hspares.master
          have ht' : Listed t (passed' ++ p :: waiting) := hlist ▸ ht
          refine ⟨passed' ++ [p], ?_, ht'.chain.link⟩
          rw [List.append_assoc]
          exact ht'
      obtain ⟨passed', ht', hlink⟩ := hnext
      obtain ⟨u, hends, hu⟩ := ih passed' ht' (hlog ▸ hrest)
      refine ⟨u, notifyFrom_ends hcalled (hlink ▸ hends), ?_⟩
      rw [hu, hlog]
      simp

theorem notifyFrom_closing (hclosing : OnlyClose clients) :
    ∀ (n : Nat) (passed : List α) {waiting : List α} {s : RUpsDbHandleMaster α},
      waiting.length ≤ n →
      Listed s (passed ++ waiting) → ∃ called t,
        Enough (fun fuel => notifyFrom clients fuel waiting.head? s) t ∧
        t.events = s.events ++ called.map .aboutToBeDeleted ∧ called.Sublist waiting ∧
        (called = waiting → Spared clients s.events waiting)
  | _, _, [], s, _, _ => ⟨[], s, notifyFrom_none, by simp, Sublist.refl [], fun _ => trivial⟩
  | 0, _, _ :: _, _, hn, _ => absurd hn (Nat.not_succ_le_zero _)
  | n + 1, passed, p :: waiting, s, hn, hs => by
      obtain ⟨calls, hcalls⟩ : ∃ calls,
          clients (s.events ++ [DbHandleEvent.aboutToBeDeleted p]) p = calls := ⟨_, rfl⟩
      have honly : ∀ call ∈ calls, ∃ h, call = .close h := hcalls ▸ hclosing _ p
      have hmaster : ∀ h, .closeMaster h ∉ calls := by
        intro h hmem
        obtain ⟨k, hk⟩ := honly _ hmem
        cases hk
      obtain ⟨t, hcalled, ht, hevents⟩ := perform_ends clients
        (hs.log (.aboutToBeDeleted p)) hmaster
      have hlog : t.events = s.events ++ [DbHandleEvent.aboutToBeDeleted p] := hevents
      have hturn := fun u => notifyFrom_ends (u := u) (hcalls ▸ hcalled)
      rw [foldl_effect_closing hs.nodup honly] at ht
      by_cases hown : .close p ∈ calls
      · -- the walk ends here
        have hlink : t.iClientListNext p = none := by
          refine ht.idle p fun hmem => ?_
          simp [stillListed, hown] at hmem
        refine ⟨[p], t, hturn t (hlink ▸ notifyFrom_none), hlog, by simp, fun hall => ?_⟩
        obtain rfl : [] = waiting := (List.cons.inj hall).2
        refine ⟨⟨fun h hh => absurd hh not_mem_nil, fun _ => ⟨rfl, fun hmem => ?_⟩, ?_⟩,
          trivial⟩
        · obtain ⟨k, hk⟩ := hclosing _ _ _ hmem
          cases hk
        · exact hcalls ▸ hmaster
      · -- the walk goes on with the handles that are still listed behind `p`
        have hsplit : stillListed calls (passed ++ p :: waiting) =
            stillListed calls passed ++ p :: stillListed calls waiting := by
          simp [stillListed, hown]
        rw [hsplit] at ht
        have hlink := ht.chain.link
        rw [append_cons] at ht
        have hshorter : (stillListed calls waiting).length ≤ n :=
          Nat.le_trans (length_filter_le _ waiting) (Nat.le_of_succ_le_succ hn)
        obtain ⟨called, u, hends, hu, hsub, hall⟩ := notifyFrom_closing hclosing n _ hshorter ht
        refine ⟨p :: called, u, hturn u (hlink ▸ hends), ?_,
          (hsub.trans filter_sublist).cons_cons p, fun heq => ?_⟩
        · rw [hu, hlog]
          simp
        · obtain rfl : called = waiting := (List.cons.inj heq).2
          have hkept := hsub.antisymm filter_sublist
          have hrest := hall hkept
          rw [← hkept, hlog] at hrest
          refine ⟨⟨fun h hh => ?_, fun h => absurd (hcalls ▸ h) hown, hcalls ▸ hmaster⟩, hrest⟩
          rw [hcalls]
          simpa using filter_eq_self.mp hkept.symm h hh

/-! ### Who hears -/

/-- The call comes back, and meanwhile every handle of the list is called once, before the
database is deleted. -/
def NotifiesOnce (clients : DbHandleClients α) (s : RUpsDbHandleMaster α) (l : List α) : Prop :=
  ∃ t events, Enough (fun fuel => close clients fuel s) t ∧ t.events = s.events ++ events ∧
    ∀ h ∈ l, events.count (DbHandleEvent.aboutToBeDeleted h) = 1 ∧
      ∃ before after, events = before ++ DbHandleEvent.aboutToBeDeleted h :: after ∧ .deleted ∉ before

omit [DecidableEq α] in
theorem deleteDatabase_events (s : RUpsDbHandleMaster α) :
    ∃ last, s.deleteDatabase.events = s.events ++ last ∧
      ∀ h, .aboutToBeDeleted h ∉ last := by
  by_cases hopen : s.iDatabase = true
  · exact ⟨[.deleted], by simp [deleteDatabase, hopen, log], fun h => by simp⟩
  · exact ⟨[], by simp [deleteDatabase, hopen], fun h => by simp⟩

theorem count_called (called : List α) {last : List (DbHandleEvent α)} {h : α}
    (hlast : .aboutToBeDeleted h ∉ last) :
    (called.map DbHandleEvent.aboutToBeDeleted ++ last).count (.aboutToBeDeleted h) =
      called.count h := by
  have hinj : Injective (DbHandleEvent.aboutToBeDeleted (α := α)) := by
    intro a b hab
    cases hab
    rfl
  rw [count_append, count_eq_zero_of_not_mem hlast, Nat.add_zero,
    count_map_of_injective called _ hinj]

theorem notifiesOnce_of_spared (hs : Listed s l) (hspared : Spared clients s.events l) :
    NotifiesOnce clients s l := by
  obtain ⟨t, hends, ht⟩ := notifyFrom_spared [] hs hspared
  obtain ⟨last, hdeleted, hlast⟩ := deleteDatabase_events t
  refine ⟨t.deleteDatabase, l.map .aboutToBeDeleted ++ last, ?_, ?_, fun h hh => ⟨?_, ?_⟩⟩
  · rw [← hs.chain.head] at hends
    exact hends.map
  · rw [hdeleted, ht, List.append_assoc]
  · rw [count_called l (hlast h)]
    exact count_eq_one_of_mem hs.nodup hh
  · obtain ⟨front, back, rfl⟩ := append_of_mem hh
    exact ⟨front.map .aboutToBeDeleted, back.map .aboutToBeDeleted ++ last, by simp, by simp⟩

theorem spared_of_notifiesOnce (hs : Listed s l) (hclosing : OnlyClose clients)
    (h : NotifiesOnce clients s l) : Spared clients s.events l := by
  obtain ⟨called, t, hends, ht, hsub, hall⟩ :=
    notifyFrom_closing hclosing l.length [] (Nat.le_refl _) hs
  obtain ⟨last, hdeleted, hlast⟩ := deleteDatabase_events t
  obtain ⟨u, events, hclosed, hu, honce⟩ := h
  rw [← hs.chain.head] at hends
  obtain rfl := hclosed.unique hends.map
  rw [hdeleted, ht, List.append_assoc, append_cancel_left_eq] at hu
  have hmem : ∀ k ∈ l, k ∈ called := by
    intro k hk
    have hcount := (honce k hk).1
    rw [← hu, count_called called (hlast k)] at hcount
    refine count_pos_iff.mp ?_
    rw [hcount]
    exact Nat.one_pos
  exact hall (hsub.eq_of_length_le (hs.nodup.subperm hmem).length_le)

/-- **Every handle in use hears once before the database is deleted** if no client closes a
handle that waits, nor its own before handles that wait.  Where the clients only close handles,
it is so exactly then. -/
theorem close_notifies (hs : Listed s l) :
    (Spared clients s.events l → NotifiesOnce clients s l) ∧
      (OnlyClose clients → (NotifiesOnce clients s l ↔ Spared clients s.events l)) := by
  refine ⟨notifiesOnce_of_spared hs, fun hclosing => ⟨?_, notifiesOnce_of_spared hs⟩⟩
  exact spared_of_notifiesOnce hs hclosing

/-- Two handles in use, the second registered first. -/
def twoInUse : RUpsDbHandleMaster Nat :=
  (use 0 (use 1 ⟨false, none, fun _ => none, fun _ => false, []⟩))

theorem twoInUse_listed : Listed twoInUse [0, 1] :=
  (use_listed (use_listed (listed_nil false []) 1).1 0).1

/-- The second client closes its own handle, as the update evaluator does. -/
theorem close_notifies_twoInUse :
    NotifiesOnce (fun _ h => if h = 1 then [.close h] else []) twoInUse [0, 1] := by
  refine (close_notifies twoInUse_listed).1 ⟨⟨?_, ?_, ?_⟩, ⟨?_, ?_, ?_⟩, trivial⟩
  all_goals simp

/-- Where the first client closes its own handle, the second hears nothing. -/
theorem close_skips_second : Listed twoInUse [0, 1] ∧
    (close (fun _ h => [.close h]) 9 twoInUse).map (·.events) =
      some [.aboutToBeDeleted 0, .deleted] ∧
    ¬NotifiesOnce (fun _ h => [.close h]) twoInUse [0, 1] := by
  refine ⟨twoInUse_listed, rfl, fun h => ?_⟩
  have hclosing : OnlyClose fun (_ : List (DbHandleEvent Nat)) h => [.close h] := by
    intro events p call hcall
    exact ⟨p, mem_singleton.mp hcall⟩
  have hspares := (spared_of_notifiesOnce twoInUse_listed hclosing h).1
  have hnone : [1] = [] := (hspares.own mem_cons_self).1
  cases hnone

end RUpsDbHandleMaster

end OsSecurity

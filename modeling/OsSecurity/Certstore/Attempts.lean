/-
What an `Initialize` that failed or was cancelled leaves behind.

However an attempt ends, `Complete` releases the stores it had listed and forgets the token type,
the token and the interface it was at, so the store is `Clean` for the next attempt.  Interface
objects are numbered as they are handed out, and every number in use is below the next one.
-/
import OsSecurity.Certstore.UnifiedStore

namespace OsSecurity

open Commands List Maintains Transitions

variable {m : CUnifiedCertStore}

namespace Certstore

/-! ### Steps of any function -/

section Steps

variable {α : Type} {s : CUnifiedCertStore} {Q : α → CUnifiedCertStore → Prop}
  {E : Exit → CUnifiedCertStore → Prop}

theorem assert_ends {c : Prop} [Decidable c] {f : Unit → Unified α} (hf : c → Ends Q E (f () s))
    (hE : E .panic s) : Ends Q E ((assert c >>= f) s) := by
  unfold assert
  split
  · rename_i hc
    exact hf hc
  · exact hE

theorem leaveIfError_ends {σ : Type} {s : σ} {Q : α → σ → Prop} {E : Exit → σ → Prop} {e : Int}
    {f : Unit → Command σ Exit α} (hf : ¬ e < 0 → Ends Q E (f () s))
    (hE : e < 0 → E (.leave e) s) : Ends Q E ((leaveIfError e >>= f) s) := by
  unfold leaveIfError
  split
  · rename_i he
    exact hE he
  · rename_i he
    exact hf he

theorem leaveIf_ends {c : Prop} [Decidable c] {e : Int} {f : Unit → Unified α}
    (hf : ¬ c → Ends Q E (f () s)) (hE : c → E (.leave e) s) :
    Ends Q E ((leaveIf c e >>= f) s) := by
  unfold leaveIf
  split
  · rename_i hc
    exact hE hc
  · rename_i hc
    exact hf hc

theorem member_ends {β : Type} {v : CUnifiedCertStore → Option β} {f : β → Unified α}
    (hf : ∀ b, v s = some b → Ends Q E (f b s)) (hE : E .panic s) :
    Ends Q E ((member v >>= f) s) := by
  unfold member
  rw [bind_apply, bind_ok (get_apply s)]
  cases hv : v s with
  | some b => exact hf b hv
  | none => exact hE

end Steps

/-! ### What every step of every attempt keeps -/

structure Numbered (m : CUnifiedCertStore) : Prop where
  released : ∀ i ∈ m.released, i < m.nextInterface
  listed : ∀ c ∈ m.listed, c.iCertStore.id < m.nextInterface
  interface : ∀ i, m.iTokenInterface = some i → i.id < m.nextInterface

/-- While an operation is under way. -/
structure UnderWay (m : CUnifiedCertStore) : Prop extends Numbered m where
  state : m.iState ≠ .EIdle

section Keeps

variable {α : Type} {I : CUnifiedCertStore → Prop}

@[grind ←] theorem maintains_assert (c : Prop) [Decidable c] : Maintains I (assert c) := by
  unfold assert
  grind

@[grind ←] theorem maintains_leaveIfError (e : Int) : Maintains I (leaveIfError e) := by
  unfold leaveIfError
  grind

@[grind ←] theorem maintains_leaveIf (c : Prop) [Decidable c] (e : Int) :
    Maintains I (leaveIf c e) := by
  unfold leaveIf
  grind

@[grind ←] theorem maintains_doIf (c : Prop) [Decidable c] {f : Unified Unit}
    (hf : Maintains I f) : Maintains I (doIf c f) := by
  unfold doIf
  grind

@[grind ←] theorem maintains_member (v : CUnifiedCertStore → Option α) :
    Maintains I (member v) := by
  unfold member
  grind

end Keeps

/-- What the numbers of the interface objects depend on. -/
theorem UnderWay.same {n : CUnifiedCertStore} (h : UnderWay m)
    (hreleased : n.released = m.released) (hlisted : n.listed = m.listed)
    (hinterface : n.iTokenInterface = m.iTokenInterface)
    (hnext : n.nextInterface = m.nextInterface) (hstate : n.iState ≠ .EIdle) : UnderWay n := by
  refine ⟨⟨?_, ?_, ?_⟩, hstate⟩
  · rw [hreleased, hnext]
    exact h.released
  · rw [hlisted, hnext]
    exact h.listed
  · rw [hinterface, hnext]
    exact h.interface

namespace CUnifiedCertStore

@[grind .] theorem maintains_selfComplete : Maintains UnderWay selfComplete :=
  modifies fun _ h => h.same rfl rfl rfl rfl h.state

@[grind ←] theorem maintains_setIndex (i : Int) : Maintains UnderWay (setIndex i) :=
  Maintains.bind (maintains_member _) fun _ =>
    modifies fun _ h => h.same rfl rfl rfl rfl h.state

theorem maintains_noteHardwareTypesL (types : List CCTTokenTypeInfo) :
    Maintains UnderWay (noteHardwareTypesL types) := by
  induction types with
  | nil => exact returns _
  | cons t ts ih =>
      have hnote : Maintains UnderWay (noteTypeL t) :=
        Maintains.bind (maintains_leaveIfError _) fun _ =>
          modifies fun _ h => h.same rfl rfl rfl rfl h.state
      exact Maintains.bind (maintains_doIf _ hnote) fun _ => ih

theorem maintains_readOnlyTypesL (writable types : List CCTTokenTypeInfo) :
    Maintains UnderWay (readOnlyTypesL writable types) := by
  induction types with
  | nil => exact returns _
  | cons t ts ih =>
      unfold readOnlyTypesL
      split
      · exact ih
      · exact Maintains.bind (maintains_leaveIfError _) fun _ =>
          Maintains.bind ih fun _ => returns _

theorem maintains_initializeL (p : Platform) : Maintains UnderWay (initializeL p) := by
  unfold initializeL
  refine Maintains.bind (maintains_leaveIfError _) fun _ => ?_
  refine Maintains.bind (maintains_leaveIfError _) fun _ => ?_
  refine Maintains.bind (maintains_leaveIfError _) fun _ => ?_
  refine Maintains.bind gets fun m => ?_
  refine Maintains.bind (maintains_leaveIf _ _) fun _ => ?_
  refine Maintains.bind (maintains_noteHardwareTypesL _) fun _ => ?_
  refine Maintains.bind (maintains_readOnlyTypesL _ _) fun _ => ?_
  exact modifies fun _ h => h.same rfl rfl rfl rfl h.state

@[grind ←] theorem maintains_tryTokenTypeL (t : CCTTokenTypeInfo) :
    Maintains UnderWay (tryTokenTypeL t) := by
  have hlist : Maintains UnderWay (modify fun m : CUnifiedCertStore =>
      { m with
        iTokenType := some t
        iStatus := .KRequestPending (.list t)
        iIndexTokens := -1
        iState := .EInitializeGetToken } : Unified Unit) :=
    modifies fun _ h => h.same rfl rfl rfl rfl (by simp)
  unfold tryTokenTypeL
  grind

@[grind .] theorem maintains_endPass : Maintains UnderWay endPass := by
  have hfinish : Maintains UnderWay (modify fun m : CUnifiedCertStore =>
      { m with iState := .EInitializeFinished } : Unified Unit) :=
    modifies fun _ h => h.same rfl rfl rfl rfl (by simp)
  have hpass : Maintains UnderWay (modify fun m : CUnifiedCertStore =>
      { m with iCurrentlyDoingReadOnly := true } : Unified Unit) :=
    modifies fun _ h => h.same rfl rfl rfl rfl h.state
  unfold endPass
  grind

theorem maintains_runGetTokenList : Maintains UnderWay runGetTokenList := by
  unfold runGetTokenList
  grind

@[grind .] theorem maintains_countToken : Maintains UnderWay countToken :=
  modifies fun _ h => h.same rfl rfl rfl rfl h.state

@[grind ←] theorem maintains_openToken (t : Token) : Maintains UnderWay (openToken t) := by
  unfold openToken
  refine Maintains.bind gets fun _ => Maintains.bind (maintains_assert _) fun _ => ?_
  refine Maintains.bind (maintains_member _) fun _ => ?_
  refine modifies fun m h => h.same rfl rfl rfl rfl ?_
  dsimp only
  split
  · simp
  · simp

@[grind .] theorem maintains_nextTokenType : Maintains UnderWay nextTokenType := by
  unfold nextTokenType
  refine Maintains.bind (maintains_member _) fun _ => Maintains.bind ?_ fun _ =>
    maintains_selfComplete
  exact modifies fun _ h => h.same rfl rfl rfl rfl (by simp)

theorem maintains_runGetToken : Maintains UnderWay runGetToken := by
  unfold runGetToken
  grind

theorem maintains_getInterface (aWritable : Bool) {aNext : TState} (hnext : aNext ≠ .EIdle) :
    Maintains UnderWay (getInterface aWritable aNext) := by
  unfold getInterface
  refine Maintains.bind (maintains_member _) fun _ => Maintains.bind gets fun _ => ?_
  refine Maintains.bind (maintains_assert _) fun _ => ?_
  exact modifies fun _ h => h.same rfl rfl rfl rfl hnext

theorem maintains_runGetWritableInterface : Maintains UnderWay runGetWritableInterface :=
  Maintains.bind gets fun _ => Maintains.bind (maintains_leaveIfError _) fun _ =>
    maintains_getInterface true (by simp)

@[grind .] theorem maintains_nextToken : Maintains UnderWay nextToken := by
  have htoken : Maintains UnderWay (modify fun m : CUnifiedCertStore =>
      { m with iToken := none, iState := .EInitializeGetToken } : Unified Unit) :=
    modifies fun _ h => h.same rfl rfl rfl rfl (by simp)
  unfold nextToken
  grind

/-- A released interface that was handed out before. -/
theorem underWay_release {c : CCheckedCertStore} (h : UnderWay m)
    (hc : c.iCertStore.id < m.nextInterface) : UnderWay (releaseStores [c] m) := by
  refine ⟨⟨fun i hi => ?_, h.listed, h.interface⟩, h.state⟩
  cases mem_cons.mp hi with
  | inl heq =>
      rw [heq]
      exact hc
  | inr hi => exact h.released i hi

/-- One more store in one of the lists. -/
structure Adds (add : CCheckedCertStore → CUnifiedCertStore → CUnifiedCertStore) : Prop where
  underWay : ∀ c m, UnderWay m → c.iCertStore.id < m.nextInterface → UnderWay (add c m)
  next : ∀ c m, (add c m).nextInterface = m.nextInterface

theorem underWay_listed {n : CUnifiedCertStore} {c : CCheckedCertStore} (h : UnderWay m)
    (hc : c.iCertStore.id < m.nextInterface) (hreleased : n.released = m.released)
    (hlisted : ∀ x ∈ n.listed, x ∈ m.listed ∨ x = c)
    (hinterface : n.iTokenInterface = m.iTokenInterface)
    (hnext : n.nextInterface = m.nextInterface) (hstate : n.iState = m.iState) : UnderWay n := by
  refine ⟨⟨?_, fun x hx => ?_, ?_⟩, ?_⟩
  · rw [hreleased, hnext]
    exact h.released
  · rw [hnext]
    cases hlisted x hx with
    | inl hx => exact h.listed x hx
    | inr heq =>
      rw [heq]
      exact hc
  · rw [hinterface, hnext]
    exact h.interface
  · rw [hstate]
    exact h.state

theorem adds_addWritable : Adds addWritable where
  underWay c m h hc := by
    refine underWay_listed h hc rfl (fun x hx => ?_) rfl rfl rfl
    simp only [listed, addWritable, mem_append, mem_singleton] at hx ⊢
    grind
  next _ _ := rfl

theorem adds_addReadOnly : Adds addReadOnly where
  underWay c m h hc := by
    refine underWay_listed h hc rfl (fun x hx => ?_) rfl rfl rfl
    simp only [listed, addReadOnly, mem_append, mem_singleton] at hx ⊢
    grind
  next _ _ := rfl

/-- After `addStoreL`. -/
def stored (add : CCheckedCertStore → CUnifiedCertStore → CUnifiedCertStore)
    (i : MCTTokenInterface) (m : CUnifiedCertStore) : CUnifiedCertStore :=
  let added := add { iCertStore := i } { m with iTokenInterface := none }
  { added with iCertStores := added.iCertStores ++ [{ iCertStore := i }] }

/-- An operation that is left is completed with an error. -/
def Failed (e : Exit) : Prop := e ≠ .leave KErrNone

theorem failed_of_negative {e : Int} (he : e < 0) : Failed (.leave e) := by
  simp only [Failed, KErrNone, ne_eq, Exit.leave.injEq]
  omega

theorem failed_panic : Failed .panic := by simp [Failed]

section

variable {add : CCheckedCertStore → CUnifiedCertStore → CUnifiedCertStore} (hadd : Adds add)
include hadd

theorem addStoreL_ends {s : CUnifiedCertStore} {i : MCTTokenInterface}
    (hi : s.iTokenInterface = some i) :
    Ends (fun _ t => t = stored add i s ∧ (UnderWay s → UnderWay t))
      (fun e t => Failed e ∧ (UnderWay s → UnderWay t)) (addStoreL add s) := by
  have hid : UnderWay s → i.id < s.nextInterface := fun h => h.interface i hi
  have hnone : UnderWay s → UnderWay { s with iTokenInterface := none } := fun h =>
    ⟨⟨h.released, h.listed, by simp⟩, h.state⟩
  have hadded : UnderWay s →
      UnderWay (add { iCertStore := i } { s with iTokenInterface := none }) := fun h =>
    hadd.underWay _ _ (hnone h) (hid h)
  refine member_ends (fun j hj => ?_) ⟨failed_panic, id⟩
  obtain rfl : i = j := Option.some.inj (hi.symm.trans hj)
  have hnew : Ends (fun c t => c = { iCertStore := i } ∧ t = s)
      (fun e t => Failed e ∧ (UnderWay s → UnderWay t)) (newCheckedL i s) := by
    refine leaveIfError_ends (fun _ => ?_) fun he => ⟨failed_of_negative he, id⟩
    split
    · rename_i he
      exact ⟨failed_of_negative he, fun h => underWay_release h (hid h)⟩
    · exact ⟨rfl, rfl⟩
  refine Ends.bind hnew fun c t ht => ?_
  obtain ⟨rfl, rfl⟩ := ht
  have happend : Ends (fun _ u => u = add { iCertStore := i } { t with iTokenInterface := none })
      (fun e u => Failed e ∧ (UnderWay t → UnderWay u))
      (appendL add { iCertStore := i } { t with iTokenInterface := none }) := by
    unfold appendL
    split
    · rename_i he
      exact ⟨failed_of_negative he, fun h => underWay_release (hnone h) (hid h)⟩
    · rfl
  refine Ends.then_modify ?_
  refine Ends.bind happend fun _ u hu => ?_
  rw [hu]
  refine leaveIfError_ends (fun _ => ?_) fun he => ⟨failed_of_negative he, hadded⟩
  refine ⟨rfl, fun h => ?_⟩
  have hlt : i.id < (add { iCertStore := i } { t with iTokenInterface := none }).nextInterface := by
    rw [hadd.next]
    exact hid h
  refine underWay_listed (c := { iCertStore := i }) (hadded h) hlt rfl (fun x hx => ?_) rfl rfl rfl
  simp only [listed, mem_append, mem_singleton] at hx ⊢
  grind

theorem maintains_addStoreL : Maintains UnderWay (addStoreL add) := by
  intro s hs
  cases hi : s.iTokenInterface with
  | some i => exact (addStoreL_ends hadd hi).mono (fun _ _ h => h.2 hs) (fun _ _ h => h.2 hs)
  | none => exact member_ends (fun i hsome => absurd (hi.symm.trans hsome) (by simp)) hs

end

theorem maintains_runGetReadableInterface : Maintains UnderWay runGetReadableInterface := by
  have hadd := maintains_addStoreL adds_addWritable
  have hget : Maintains UnderWay (getInterface false .EInitializeGetReadableInterfaceFinished) :=
    maintains_getInterface false (by simp)
  unfold runGetReadableInterface
  grind

theorem maintains_runGetReadableInterfaceFinished :
    Maintains UnderWay runGetReadableInterfaceFinished := by
  have hadd := maintains_addStoreL adds_addReadOnly
  unfold runGetReadableInterfaceFinished
  grind

/-! ### Between two attempts -/

/-- What `DestroyTemporaryMembers` makes of a store that is not initialised. -/
structure Clean (m : CUnifiedCertStore) : Prop where
  readOnlyCertStores : m.iReadOnlyCertStores = []
  writableCertStores : m.iWritableCertStores = []
  certStores : m.iCertStores = []
  tokenType : m.iTokenType = none
  token : m.iToken = none
  tokenInterface : m.iTokenInterface = none
  tokens : m.iTokens = []

structure Rested (m : CUnifiedCertStore) : Prop extends Numbered m where
  clean : m.iState = .EIdle → m.iIsInitialized = false → Clean m

theorem rested_of_underWay (h : UnderWay m) : Rested m :=
  ⟨h.toNumbered, fun hidle => absurd hidle h.state⟩

theorem numbered_dropStores (h : Numbered m) : Numbered (dropStores m) := by
  unfold dropStores
  split
  · exact h
  · refine ⟨fun i hi => ?_, by simp [listed], h.interface⟩
    have hlisted : ∀ c, c ∈ m.iReadOnlyCertStores ∨ c ∈ m.iWritableCertStores →
        c.iCertStore.id < m.nextInterface := fun c hc =>
      h.listed c (mem_append.mpr (.inl (mem_append.mpr hc)))
    change i ∈ m.iWritableCertStores.map _ ++ (m.iReadOnlyCertStores.map _ ++ m.released) at hi
    simp only [mem_append, mem_map] at hi
    obtain ⟨c, hc, rfl⟩ | ⟨c, hc, rfl⟩ | hi := hi
    · exact hlisted c (.inr hc)
    · exact hlisted c (.inl hc)
    · exact h.released i hi

theorem numbered_dropInterface (h : Numbered m) : Numbered (dropInterface m) := by
  refine ⟨fun i hi => ?_, h.listed, by simp [dropInterface]⟩
  change i ∈ (m.iTokenInterface.map (·.id)).toList ++ m.released at hi
  simp only [mem_append, Option.mem_toList, Option.map_eq_some_iff] at hi
  obtain ⟨j, hj, rfl⟩ | hi := hi
  · exact h.interface j hj
  · exact h.released i hi

theorem rested_complete (h : Numbered m) (aError : Int) : Rested (complete aError m) := by
  have hstores : Numbered
      (dropStores { m with answered := some aError, iClientStatus := false }) :=
    numbered_dropStores ⟨h.released, h.listed, h.interface⟩
  have hinterface := numbered_dropInterface (m := { dropStores
    { m with answered := some aError, iClientStatus := false } with
      iTokenType := none, iToken := none }) ⟨hstores.released, hstores.listed, hstores.interface⟩
  refine ⟨⟨hinterface.released, hinterface.listed, hinterface.interface⟩, fun _ hinit => ?_⟩
  have hnot : m.iIsInitialized = false := by
    revert hinit
    simp only [complete, destroyTemporaryMembers, dropInterface, dropStores]
    split
    · exact id
    · exact id
  have hdrop : dropStores { m with answered := some aError, iClientStatus := false } =
      { releaseStores m.iWritableCertStores (releaseStores m.iReadOnlyCertStores
          { m with answered := some aError, iClientStatus := false }) with
        iReadOnlyCertStores := []
        iWritableCertStores := []
        iCertStores := [] } := by
    unfold dropStores
    simp [hnot]
  unfold complete destroyTemporaryMembers
  rw [hdrop]
  exact ⟨rfl, rfl, rfl, rfl, rfl, rfl, rfl⟩

theorem completeClient_ends {s : CUnifiedCertStore} (aError : Int)
    {E : Exit → CUnifiedCertStore → Prop} (hE : E .panic s) :
    Ends (fun _ t => t = complete aError s) E (completeClient aError s) :=
  Ends.then_get (assert_ends (fun _ => rfl) hE)

theorem trapped_rested {f : Unified Unit} {s : CUnifiedCertStore}
    (hf : Ends (fun _ t => Rested t) (fun _ t => UnderWay t) (f s)) :
    Ends (fun _ t => Rested t) (fun _ _ => True) (trapped f s) := by
  refine Ends.tryCatch hf fun e t ht => ?_
  cases e with
  | leave aError =>
      refine (completeClient_ends (E := fun _ _ => True) aError trivial).mono (fun _ u hu => ?_)
        fun _ _ _ => trivial
      rw [hu]
      exact rested_complete ht.toNumbered aError
  | panic => trivial
  | undefined => trivial

section

variable {s : CUnifiedCertStore} (h : UnderWay s)
include h

theorem runInitializeFinished_rested :
    Ends (fun _ t => Rested t) (fun _ t => UnderWay t) (runInitializeFinished s) := by
  refine Ends.then_get (leaveIfError_ends (fun _ => ?_) fun _ => h)
  refine assert_ends (fun _ => Ends.then_modify ?_) h
  have hinit : UnderWay { s with iIsInitialized := true } := h.same rfl rfl rfl rfl h.state
  refine (completeClient_ends (E := fun _ t => UnderWay t) _ hinit).mono (fun _ t ht => ?_)
    fun _ _ he => he
  rw [ht]
  exact rested_complete hinit.toNumbered _

theorem runL_rested : Ends (fun _ t => Rested t) (fun _ t => UnderWay t) (runL s) := by
  have hrest : ∀ {f : Unified Unit}, Maintains UnderWay f →
      Ends (fun _ t => Rested t) (fun _ t => UnderWay t) (f s) := fun hf =>
    (hf s h).mono (fun _ _ ht => rested_of_underWay ht) fun _ _ he => he
  refine Ends.then_get ?_
  generalize s.iState = state
  cases state with
  | EIdle => exact h
  | EInitializeGetTokenList =>
      exact hrest (Maintains.bind (maintains_leaveIfError _) fun _ => maintains_runGetTokenList)
  | EInitializeGetToken => exact hrest maintains_runGetToken
  | EInitializeGetWritableInterface => exact hrest maintains_runGetWritableInterface
  | EInitializeGetReadableInterface => exact hrest maintains_runGetReadableInterface
  | EInitializeGetReadableInterfaceFinished => exact hrest maintains_runGetReadableInterfaceFinished
  | EInitializeFinished => exact runInitializeFinished_rested h

theorem doCancel_rested : Ends (fun _ t => Rested t) (fun _ _ => True) (doCancel s) := by
  refine Ends.then_get ?_
  split
  · exact trapped_rested (runL_rested h)
  · have hcancel : UnderWay { s with iStatus := .complete KErrCancel } :=
      h.same rfl rfl rfl rfl h.state
    refine Ends.then_modify ((completeClient_ends (E := fun _ _ => True) _ trivial).mono
      (fun _ t ht => ?_) fun _ _ _ => trivial)
    rw [ht]
    exact rested_complete hcancel.toNumbered _

end

theorem beginAsyncOp_ends {s : CUnifiedCertStore} (aState : TState)
    {E : Exit → CUnifiedCertStore → Prop} (hE : E .panic s) :
    Ends (fun _ t => s.iState = .EIdle ∧
      t = { s with iClientStatus := true, answered := none, iState := aState })
      E (beginAsyncOp aState s) :=
  Ends.then_get (assert_ends (fun hidle => assert_ends (fun _ => ⟨hidle, rfl⟩) hE) hE)

theorem Initialize_rested {s : CUnifiedCertStore} (h : Rested s) (p : Platform) :
    Ends (fun _ t => Rested t) (fun _ _ => True) (Initialize p s) := by
  refine Ends.bind (beginAsyncOp_ends (E := fun _ _ => True) _ trivial) fun _ t ht => ?_
  have hbegun : UnderWay t := by
    rw [ht.2]
    exact ⟨⟨h.released, h.listed, h.interface⟩, by simp⟩
  exact trapped_rested ((maintains_initializeL p t hbegun).mono
    (fun _ _ hu => rested_of_underWay hu) fun _ _ he => he)

theorem numbered_deliver (h : Numbered m) (r : Request) : Numbered (deliver m r) := by
  cases r with
  | list t => exact ⟨h.released, h.listed, h.interface⟩
  | openToken t => exact ⟨h.released, h.listed, h.interface⟩
  | getInterface t aWritable =>
      simp only [deliver]
      split
      · refine ⟨fun i hi => Nat.lt_succ_of_lt (h.released i hi),
          fun c hc => Nat.lt_succ_of_lt (h.listed c hc), fun i hi => ?_⟩
        obtain rfl := Option.some.inj hi
        exact Nat.lt_succ_self _
      · exact ⟨h.released, h.listed, h.interface⟩

@[simp] theorem deliver_iState (m : CUnifiedCertStore) (r : Request) :
    (deliver m r).iState = m.iState := by
  cases r with
  | list t => rfl
  | openToken t => rfl
  | getInterface t aWritable =>
      simp only [deliver]
      split
      · rfl
      · rfl

theorem outcome_ends {r : Except Exit Unit × CUnifiedCertStore} {t : CUnifiedCertStore}
    {Q : CUnifiedCertStore → Prop} {E : Exit → CUnifiedCertStore → Prop}
    (hr : Ends (fun _ => Q) E r) (h : outcome r = some t) : Q t := by
  rcases r with ⟨r, u⟩
  cases r with
  | ok a =>
      cases h
      exact hr
  | error e => cases h

theorem rested_step {s t : CUnifiedCertStore} {a : Act} (h : Rested s)
    (hstep : step s a = some t) : Rested t := by
  have hway : s.iState ≠ .EIdle → UnderWay s := fun hstate => ⟨h.toNumbered, hstate⟩
  cases a with
  | Initialize p => exact outcome_ends (Initialize_rested h p) hstep
  | answer =>
      simp only [step] at hstep
      split at hstep
      · rename_i r hr
        split at hstep
        · cases hstep
        · rename_i hstate
          cases hstep
          refine ⟨numbered_deliver h.toNumbered r, fun hidle => ?_⟩
          rw [deliver_iState] at hidle
          exact absurd hidle hstate
      · cases hstep
  | run =>
      simp only [step] at hstep
      split at hstep
      · cases hstep
      · split at hstep
        · cases hstep
        · rename_i hstate
          exact outcome_ends (trapped_rested (runL_rested (hway hstate))) hstep
  | cancelInitialize =>
      simp only [step] at hstep
      split at hstep
      · cases hstep
        exact h
      · rename_i hstate
        exact outcome_ends (doCancel_rested (hway hstate)) hstep

theorem rested_of_reachable {s : CUnifiedCertStore} (h : Reachable New step Anything s) :
    Rested s := by
  refine h.invariant (fun s hnew => ?_) fun s a t hs _ hstep => rested_step hs hstep
  rw [hnew]
  exact ⟨⟨by simp, by simp [listed], by simp⟩, fun _ _ => ⟨rfl, rfl, rfl, rfl, rfl, rfl, rfl⟩⟩

end CUnifiedCertStore

end Certstore

end OsSecurity

/-
What an `Initialize` that succeeds leaves in the lists of stores.

An attempt that failed or was cancelled leaves the store clean but for one member: nothing sets
`iCurrentlyDoingReadOnly` back.  So an attempt that got as far as the second pass makes every
later one skip the first.

While an attempt is under way, the stores in `iCertStores` and the stores that the tokens ahead
will give make up the same list throughout.  `Stage` says what is ahead, from the members that
the state in `iState` reads, and `Books` adds the two up.
-/
import OsSecurity.Certstore.Attempts
import OsSecurity.Library.IndexedLists

namespace OsSecurity

open Commands Ends IndexedLists List Transitions

variable {w : CUnifiedCertStoreWorkingVars} {x : Token}

namespace Certstore

/-! ### What a first `Initialize` finds -/

/-- What a token gives in a pass that asks for a writable interface first, or does not. -/
def Token.stores (aForWrite : Bool) (t : Token) : List FoundStore :=
  if aForWrite ∧ t.writable = KErrNone then [{ token := t.token, isWritable := true }]
  else if t.readable = KErrNone then [{ token := t.token, isWritable := false }]
  else []

/-- The tokens that are opened.  When the hardware is not there, the first one is passed over. -/
def CCTTokenTypeInfo.tokensToOpen (t : CCTTokenTypeInfo) : List Token :=
  if t.listed = KErrHardwareNotAvailable then t.tokens.drop 1 else t.tokens

def CCTTokenTypeInfo.stores (aForWrite : Bool) (t : CCTTokenTypeInfo) : List FoundStore :=
  if t.created = KErrNone then t.tokensToOpen.flatMap (Token.stores aForWrite) else []

namespace Platform

variable (iOpenedForWrite : Bool) (iOrderAttributes : List Int) (p : Platform)

def writable : List CCTTokenTypeInfo := CUnifiedCertStore.ordered iOrderAttributes p.writableTypes

def readOnly : List CCTTokenTypeInfo :=
  (CUnifiedCertStore.ordered iOrderAttributes p.readableTypes).filter fun t =>
    !(p.writable iOrderAttributes).any fun w => w.type = t.type

/-- The stores of the first pass. -/
def writablePass : List FoundStore :=
  (p.writable iOrderAttributes).flatMap (CCTTokenTypeInfo.stores iOpenedForWrite)

/-- The stores of the second pass. -/
def readOnlyPass : List FoundStore :=
  (p.readOnly iOrderAttributes).flatMap (CCTTokenTypeInfo.stores false)

/-- One store for each token that opens. -/
def stores : List FoundStore :=
  p.writablePass iOpenedForWrite iOrderAttributes ++ p.readOnlyPass iOrderAttributes

end Platform

namespace CUnifiedCertStore

/-- Whether the pass asks for a writable interface first. -/
def forWrite (m : CUnifiedCertStore) : Bool := m.iOpenedForWrite && !m.iCurrentlyDoingReadOnly

def tokensLeft (m : CUnifiedCertStore) (i : Int) : List FoundStore :=
  (m.iTokens.drop i.toNat).flatMap (Token.stores m.forWrite)

def typesLeft (m : CUnifiedCertStore) (w : CUnifiedCertStoreWorkingVars) : List FoundStore :=
  ((passTypes m w).drop (w.iIndex + 1).toNat).flatMap (CCTTokenTypeInfo.stores m.forWrite) ++
    if m.iCurrentlyDoingReadOnly then []
    else w.iReadOnlyTokenTypes.flatMap (CCTTokenTypeInfo.stores false)

/-- What is ahead once the current token is done. -/
def restLeft (m : CUnifiedCertStore) (w : CUnifiedCertStoreWorkingVars) : List FoundStore :=
  tokensLeft m (m.iIndexTokens + 1) ++ typesLeft m w

/-- An interface object that this attempt was given. -/
def HandedOut (n : Nat) (t : Token) (aWritable : Bool) (m : CUnifiedCertStore) : Prop :=
  ∃ i, m.iTokenInterface = some i ∧ i.token = t ∧ i.isWritable = aWritable ∧ n ≤ i.id

/-- In the middle of the token types. -/
structure Walking (m : CUnifiedCertStore) (w : CUnifiedCertStoreWorkingVars) : Prop where
  vars : m.iWorkingVars = some w
  index : -1 ≤ w.iIndex

/-- In the middle of the tokens of a token type. -/
structure AtTokens (m : CUnifiedCertStore) (w : CUnifiedCertStoreWorkingVars) : Prop
    extends Walking m w where
  first : -1 ≤ m.iIndexTokens

/-- At a token that was opened, if `iToken` is set. -/
structure AtToken (m : CUnifiedCertStore) (w : CUnifiedCertStoreWorkingVars) (t : Token) : Prop
    extends AtTokens m w where
  token : ∀ x, m.iToken = some x → x = t

/-- Where an attempt is, and what is ahead of it. -/
inductive Stage (n : Nat) (m : CUnifiedCertStore) : List FoundStore → Prop
  | tokenList {w : CUnifiedCertStoreWorkingVars} (hat : Walking m w)
      (hstate : m.iState = .EInitializeGetTokenList)
      (hstatus : m.iStatus = .complete KErrNone) : Stage n m (typesLeft m w)
  | listing {w : CUnifiedCertStoreWorkingVars} {t : CCTTokenTypeInfo} (hat : Walking m w)
      (hstate : m.iState = .EInitializeGetToken) (hstatus : m.iStatus = .KRequestPending (.list t))
      (htokens : m.iTokens = []) (hfirst : m.iIndexTokens = -1) :
      Stage n m (t.tokensToOpen.flatMap (Token.stores m.forWrite) ++ typesLeft m w)
  | tokens {w : CUnifiedCertStoreWorkingVars} {k : Int} (hat : AtTokens m w)
      (hstate : m.iState = .EInitializeGetToken) (hstatus : m.iStatus = .complete k) :
      Stage n m (tokensLeft m
        (m.iIndexTokens + 1 + if k = KErrHardwareNotAvailable then 1 else 0) ++ typesLeft m w)
  | opening {w : CUnifiedCertStoreWorkingVars} {t : Token} (hat : AtTokens m w)
      (hstate : m.iState = if m.forWrite then .EInitializeGetWritableInterface
        else .EInitializeGetReadableInterface)
      (hstatus : m.iStatus = .KRequestPending (.openToken t)) :
      Stage n m (t.stores m.forWrite ++ restLeft m w)
  | opened {w : CUnifiedCertStoreWorkingVars} {t : Token} (hat : AtToken m w t)
      (hstate : m.iState = if m.forWrite then .EInitializeGetWritableInterface
        else .EInitializeGetReadableInterface)
      (hstatus : m.iStatus = .complete t.opened) : Stage n m (t.stores m.forWrite ++ restLeft m w)
  | askingWritable {w : CUnifiedCertStoreWorkingVars} {t : Token} (hat : AtToken m w t)
      (hstate : m.iState = .EInitializeGetReadableInterface)
      (hstatus : m.iStatus = .KRequestPending (.getInterface t true))
      (hpass : m.forWrite = true) : Stage n m (t.stores true ++ restLeft m w)
  | writable {w : CUnifiedCertStoreWorkingVars} {t : Token} (hat : AtToken m w t)
      (hstate : m.iState = .EInitializeGetReadableInterface)
      (hstatus : m.iStatus = .complete t.writable) (hpass : m.forWrite = true)
      (hinterface : t.writable = KErrNone → HandedOut n t true m) :
      Stage n m (t.stores true ++ restLeft m w)
  | askingReadable {w : CUnifiedCertStoreWorkingVars} {t : Token} (hat : AtTokens m w)
      (hstate : m.iState = .EInitializeGetReadableInterfaceFinished)
      (hstatus : m.iStatus = .KRequestPending (.getInterface t false)) :
      Stage n m (t.stores false ++ restLeft m w)
  | readable {w : CUnifiedCertStoreWorkingVars} {t : Token} (hat : AtTokens m w)
      (hstate : m.iState = .EInitializeGetReadableInterfaceFinished)
      (hstatus : m.iStatus = .complete t.readable)
      (hinterface : t.readable = KErrNone → HandedOut n t false m) :
      Stage n m (t.stores false ++ restLeft m w)
  | finished (hstate : m.iState = .EInitializeFinished)
      (hstatus : m.iStatus = .complete KErrNone) : Stage n m []

theorem Stage.active {n : Nat} {m : CUnifiedCertStore} {ahead : List FoundStore}
    (h : Stage n m ahead) : m.iState ≠ .EIdle := by
  intro hidle
  cases h with
  | opening _ hstate => grind
  | opened _ hstate => grind
  | _ => simp_all

theorem Stage.finished_status {n : Nat} {m : CUnifiedCertStore} {ahead : List FoundStore}
    (h : Stage n m ahead) (hfinished : m.iState = .EInitializeFinished) :
    m.iStatus = .complete KErrNone := by
  cases h with
  | finished _ hstatus => exact hstatus
  | opening _ hstate => grind
  | opened _ hstate => grind
  | _ => simp_all

/-- The stores listed and the stores ahead are `total`, and the ones listed are new. -/
structure Books (n : Nat) (total ahead : List FoundStore) (m : CUnifiedCertStore) : Prop where
  account : m.iCertStores.map CCheckedCertStore.found ++ ahead = total
  writable : m.iWritableCertStores = m.iCertStores.filter fun c => c.iCertStore.isWritable
  readOnly : m.iReadOnlyCertStores = m.iCertStores.filter fun c => !c.iCertStore.isWritable
  new : ∀ c ∈ m.iCertStores, n ≤ c.iCertStore.id
  old : ∀ i ∈ m.released, i < n
  next : n ≤ m.nextInterface

def OnTrack (n : Nat) (total : List FoundStore) (m : CUnifiedCertStore) : Prop :=
  ∃ ahead, Stage n m ahead ∧ Books n total ahead m

variable {n : Nat} {total ahead : List FoundStore} {s t : CUnifiedCertStore}

theorem Books.same (h : Books n total ahead s) (hall : t.iCertStores = s.iCertStores)
    (hwritable : t.iWritableCertStores = s.iWritableCertStores)
    (hreadOnly : t.iReadOnlyCertStores = s.iReadOnlyCertStores)
    (hreleased : t.released = s.released) (hnext : s.nextInterface ≤ t.nextInterface) :
    Books n total ahead t := by
  refine ⟨?_, ?_, ?_, ?_, ?_, h.next.trans hnext⟩
  · rw [hall]
    exact h.account
  · rw [hwritable, hall]
    exact h.writable
  · rw [hreadOnly, hall]
    exact h.readOnly
  · rw [hall]
    exact h.new
  · rw [hreleased]
    exact h.old

/-- A step that lists no store, on the way to the next stage. -/
theorem OnTrack.of {after : List FoundStore} (hbooks : Books n total ahead s)
    (hstage : Stage n t after) (hafter : after = ahead) (hall : t.iCertStores = s.iCertStores)
    (hwritable : t.iWritableCertStores = s.iWritableCertStores)
    (hreadOnly : t.iReadOnlyCertStores = s.iReadOnlyCertStores)
    (hreleased : t.released = s.released) (hnext : s.nextInterface ≤ t.nextInterface) :
    OnTrack n total t := by
  rw [hafter] at hstage
  exact ⟨ahead, hstage, hbooks.same hall hwritable hreadOnly hreleased hnext⟩

/-! ### The platform's answers -/

theorem stores_interfaceCode {t : Token} (aForWrite : Bool)
    (ht : aForWrite = true → t.writable ≠ KErrNone) : t.stores aForWrite = t.stores false := by
  cases aForWrite with
  | false => rfl
  | true => simp [Token.stores, ht rfl]

theorem handedOut_deliver (h : n ≤ s.nextInterface) (x : Token) (aWritable : Bool)
    (hx : x.interfaceCode aWritable = KErrNone) :
    HandedOut n x aWritable (deliver s (.getInterface x aWritable)) := by
  unfold deliver
  simp only [hx, if_true]
  exact ⟨_, rfl, rfl, rfl, h⟩

/-- What the answer about an interface leaves as it was. -/
theorem deliver_interface (x : Token) (aWritable : Bool) :
    ∃ i k, deliver s (.getInterface x aWritable) =
      { s with
        iTokenInterface := i
        nextInterface := k
        iStatus := .complete (x.interfaceCode aWritable) } ∧ s.nextInterface ≤ k := by
  by_cases hx : x.interfaceCode aWritable = KErrNone
  · refine ⟨some { id := s.nextInterface, token := x, isWritable := aWritable },
      s.nextInterface + 1, ?_, Nat.le_succ _⟩
    simp only [deliver, hx, if_true]
  · refine ⟨s.iTokenInterface, s.nextInterface, ?_, le_refl _⟩
    simp only [deliver, hx, if_false]

theorem onTrack_deliver {r : Request} (h : OnTrack n total s)
    (hr : s.iStatus = .KRequestPending r) : OnTrack n total (deliver s r) := by
  obtain ⟨ahead, hstage, hbooks⟩ := h
  cases hstage with
  | tokenList hat hstate hstatus => cases hstatus.symm.trans hr
  | tokens hat hstate hstatus => cases hstatus.symm.trans hr
  | opened hat hstate hstatus => cases hstatus.symm.trans hr
  | writable hat hstate hstatus => cases hstatus.symm.trans hr
  | readable hat hstate hstatus => cases hstatus.symm.trans hr
  | finished hstate hstatus => cases hstatus.symm.trans hr
  | @listing w x hat hstate hstatus htokens hfirst =>
      cases hstatus.symm.trans hr
      refine .of hbooks (.tokens (w := w) (k := x.listed) ⟨⟨hat.vars, hat.index⟩, hfirst.ge⟩
        hstate rfl) ?_ rfl rfl rfl rfl (le_refl _)
      congr 1
      change ((s.iTokens ++ x.tokens).drop (s.iIndexTokens + 1 + _).toNat).flatMap _ = _
      rw [htokens, hfirst]
      unfold CCTTokenTypeInfo.tokensToOpen
      split
      · rfl
      · rfl
  | @opening w x hat hstate hstatus =>
      cases hstatus.symm.trans hr
      refine .of hbooks (.opened (w := w) (t := x) ⟨⟨⟨hat.vars, hat.index⟩, hat.first⟩, ?_⟩
        hstate rfl) rfl rfl rfl rfl rfl (le_refl _)
      intro y hy
      change (if x.opened = KErrNone then some x else none) = some y at hy
      grind
  | @askingWritable w x hat hstate hstatus hpass =>
      cases hstatus.symm.trans hr
      have hout : x.writable = KErrNone → HandedOut n x true (deliver s (.getInterface x true)) :=
        handedOut_deliver hbooks.next x true
      obtain ⟨i, k, hd, hk⟩ := deliver_interface (s := s) x true
      rw [hd] at hout ⊢
      exact .of hbooks (.writable (w := w) (t := x) ⟨⟨⟨hat.vars, hat.index⟩, hat.first⟩, hat.token⟩
        hstate rfl hpass hout) rfl rfl rfl rfl rfl hk
  | @askingReadable w x hat hstate hstatus =>
      cases hstatus.symm.trans hr
      have hout : x.readable = KErrNone → HandedOut n x false (deliver s (.getInterface x false)) :=
        handedOut_deliver hbooks.next x false
      obtain ⟨i, k, hd, hk⟩ := deliver_interface (s := s) x false
      rw [hd] at hout ⊢
      exact .of hbooks (.readable (w := w) (t := x) ⟨⟨hat.vars, hat.index⟩, hat.first⟩
        hstate rfl hout) rfl rfl rfl rfl rfl hk

/-! ### What one `RunL` does -/

/-- A function on the way: a return goes on, a leave is an error. -/
def Proceeds (n : Nat) (total : List FoundStore) (r : Except Exit Unit × CUnifiedCertStore) :
    Prop :=
  Ends (fun _ t => OnTrack n total t) (fun e _ => Failed e) r

theorem leave_proceeds {e : Int} {f : Unit → Unified Unit}
    (hf : ¬ e < 0 → Proceeds n total (f () s)) : Proceeds n total ((leaveIfError e >>= f) s) :=
  leaveIfError_ends hf failed_of_negative

theorem member_proceeds {β : Type} {v : CUnifiedCertStore → Option β} {f : β → Unified Unit}
    (hf : ∀ b, v s = some b → Proceeds n total (f b s)) : Proceeds n total ((member v >>= f) s) :=
  member_ends hf failed_panic

theorem assert_proceeds {c : Prop} [Decidable c] {f : Unit → Unified Unit}
    (hf : c → Proceeds n total (f () s)) : Proceeds n total ((assert c >>= f) s) :=
  assert_ends hf failed_panic

theorem setIndex_ends (hw : s.iWorkingVars = some w) (i : Int) :
    Ends (fun _ t => t = { s with iWorkingVars := some { w with iIndex := i } })
      (fun e _ => Failed e) (setIndex i s) := by
  refine member_ends (fun v hv => ?_) failed_panic
  obtain rfl : w = v := Option.some.inj (hw.symm.trans hv)
  rfl

theorem tryTokenTypeL_proceeds {x : CCTTokenTypeInfo} (hat : Walking s w)
    (hstate : s.iState = .EInitializeGetTokenList)
    (hbooks : Books n total (x.stores s.forWrite ++ typesLeft s w) s) :
    Proceeds n total (tryTokenTypeL x s) := by
  refine then_get (assert_proceeds fun _ => ?_)
  refine leaveIf_ends (fun _ => ?_) fun _ => failed_of_negative (by decide)
  split
  · rename_i hcreated
    refine .of hbooks (.tokenList (w := w) ⟨hat.vars, hat.index⟩ hstate rfl) ?_ rfl rfl rfl rfl
      (le_refl _)
    have hnone : x.stores s.forWrite = [] := by
      unfold CCTTokenTypeInfo.stores
      rw [if_neg hcreated]
    rw [hnone]
    rfl
  · rename_i hcreated
    refine assert_proceeds fun htokens => ?_
    refine .of hbooks (.listing (w := w) (t := x) ⟨hat.vars, hat.index⟩ rfl rfl htokens rfl) ?_
      rfl rfl rfl rfl (le_refl _)
    have hlisted : x.stores s.forWrite = x.tokensToOpen.flatMap (Token.stores s.forWrite) := by
      unfold CCTTokenTypeInfo.stores
      rw [if_pos (not_not.mp hcreated)]
    rw [hlisted]
    rfl

theorem endPass_proceeds (hat : Walking s w) (hstate : s.iState = .EInitializeGetTokenList)
    (hbooks : Books n total (if s.iCurrentlyDoingReadOnly then [] else w.iReadOnlyTokenTypes.flatMap (CCTTokenTypeInfo.stores false)) s) :
    Proceeds n total (endPass s) := by
  refine then_get ?_
  split
  · rename_i hpass
    rw [if_pos hpass] at hbooks
    exact .of hbooks (.finished rfl rfl) rfl rfl rfl rfl rfl (le_refl _)
  · rename_i hpass
    rw [if_neg hpass] at hbooks
    refine then_modify (Ends.bind (setIndex_ends (w := w)
      (s := { s with iCurrentlyDoingReadOnly := true }) hat.vars (-1)) fun _ t ht => ?_)
    rw [ht]
    refine .of hbooks (.tokenList (w := { w with iIndex := -1 }) ⟨rfl, le_refl _⟩ hstate rfl) ?_
      rfl rfl rfl rfl (le_refl _)
    simp [typesLeft, passTypes, forWrite]

theorem runGetTokenList_proceeds (hat : Walking s w)
    (hstate : s.iState = .EInitializeGetTokenList) (hbooks : Books n total (typesLeft s w) s) :
    Proceeds n total (runGetTokenList s) := by
  refine member_proceeds fun v hv => ?_
  obtain rfl : w = v := Option.some.inj (hat.vars.symm.trans hv)
  refine Ends.bind (setIndex_ends hv (w.iIndex + 1)) fun _ t ht => then_get ?_
  rw [ht]
  have hindex := hat.index
  have hwalking : Walking { s with iWorkingVars := some { w with iIndex := w.iIndex + 1 } }
      { w with iIndex := w.iIndex + 1 } := ⟨rfl, by dsimp only; omega⟩
  rw [show passTypes { s with iWorkingVars := some { w with iIndex := w.iIndex + 1 } } w =
    passTypes s w from rfl]
  cases hx : (passTypes s w)[(w.iIndex + 1).toNat]? with
  | some x =>
      have hbooks' : Books n total (x.stores s.forWrite ++ typesLeft
          { s with iWorkingVars := some { w with iIndex := w.iIndex + 1 } }
          { w with iIndex := w.iIndex + 1 }) s := by
        have hnext : (w.iIndex + 1 + 1).toNat = (w.iIndex + 1).toNat + 1 := by omega
        have hstep : typesLeft s w = x.stores s.forWrite ++ typesLeft
            { s with iWorkingVars := some { w with iIndex := w.iIndex + 1 } }
            { w with iIndex := w.iIndex + 1 } := by
          unfold typesLeft
          rw [flatMap_drop_some _ hx, List.append_assoc]
          dsimp only
          rw [hnext]
          rfl
        rw [← hstep]
        exact hbooks
      exact tryTokenTypeL_proceeds hwalking hstate (hbooks'.same rfl rfl rfl rfl (le_refl _))
  | none =>
      refine endPass_proceeds hwalking hstate ?_
      have hleft : typesLeft s w = if s.iCurrentlyDoingReadOnly then []
          else w.iReadOnlyTokenTypes.flatMap (CCTTokenTypeInfo.stores false) := by
        unfold typesLeft
        rw [flatMap_drop_none _ hx, nil_append]
      rw [hleft] at hbooks
      exact hbooks.same rfl rfl rfl rfl (le_refl _)

theorem openToken_proceeds (hat : AtTokens s w)
    (hbooks : Books n total (x.stores s.forWrite ++ restLeft s w) s) :
    Proceeds n total (openToken x s) := by
  refine then_get (assert_proceeds fun _ => member_proceeds fun _ _ => ?_)
  refine .of hbooks (.opening (w := w) (t := x) ⟨⟨hat.vars, hat.index⟩, hat.first⟩ ?_ rfl) rfl
    rfl rfl rfl rfl (le_refl _)
  simp [forWrite]

theorem nextTokenType_proceeds (hat : Walking s w) (hbooks : Books n total (typesLeft s w) s) :
    Proceeds n total (nextTokenType s) := by
  refine member_proceeds fun _ _ => ?_
  exact .of hbooks (.tokenList (w := w) ⟨hat.vars, hat.index⟩ rfl rfl) rfl rfl rfl rfl rfl
    (le_refl _)

theorem runGetToken_proceeds {aCode : Int} (hat : AtTokens s w)
    (hstate : s.iState = .EInitializeGetToken) (hstatus : s.iStatus = .complete aCode)
    (hbooks : Books n total (tokensLeft s (s.iIndexTokens + 1 + if aCode = KErrHardwareNotAvailable then 1 else 0) ++ typesLeft s w) s) :
    Proceeds n total (runGetToken s) := by
  have hfirst := hat.first
  have hcounted : AtTokens { s with iIndexTokens := s.iIndexTokens + 1 } w :=
    ⟨⟨hat.vars, hat.index⟩, by dsimp only; omega⟩
  refine then_get ?_
  rw [hstatus]
  split
  · rename_i hcode
    change aCode = _ at hcode
    refine .of hbooks (.tokens (w := w) (k := KErrNone)
      ⟨⟨hat.vars, hat.index⟩, hcounted.first⟩ hstate rfl) ?_ rfl rfl rfl rfl (le_refl _)
    rw [if_pos hcode, if_neg (by decide), add_zero]
    rfl
  · rename_i hcode
    change ¬ aCode = _ at hcode
    rw [if_neg hcode, add_zero] at hbooks
    refine leave_proceeds fun _ => then_modify (then_get ?_)
    dsimp only
    cases hx : s.iTokens[(s.iIndexTokens + 1).toNat]? with
    | some x =>
      refine openToken_proceeds hcounted ?_
      have hnext : (s.iIndexTokens + 1 + 1).toNat = (s.iIndexTokens + 1).toNat + 1 := by omega
      have hstep : tokensLeft s (s.iIndexTokens + 1) =
          x.stores s.forWrite ++ tokensLeft s (s.iIndexTokens + 1 + 1) := by
        unfold tokensLeft
        rw [flatMap_drop_some _ hx, hnext]
      rw [hstep, List.append_assoc] at hbooks
      exact hbooks.same rfl rfl rfl rfl (le_refl _)
    | none =>
      refine nextTokenType_proceeds hcounted.toWalking ?_
      have hleft : tokensLeft s (s.iIndexTokens + 1) = [] := flatMap_drop_none _ hx
      rw [hleft, nil_append] at hbooks
      exact hbooks.same rfl rfl rfl rfl (le_refl _)

theorem getInterface_writable (hat : AtToken s w x) (hpass : s.forWrite = true)
    (hbooks : Books n total (x.stores true ++ restLeft s w) s) :
    Proceeds n total (getInterface true .EInitializeGetReadableInterface s) := by
  refine member_proceeds fun y hy => then_get (assert_proceeds fun _ => ?_)
  rw [hat.token y hy]
  exact .of hbooks (.askingWritable (w := w) (t := x)
    ⟨⟨⟨hat.vars, hat.index⟩, hat.first⟩, hat.token⟩ rfl rfl hpass) rfl rfl rfl rfl rfl (le_refl _)

theorem getInterface_readable (hat : AtToken s w x)
    (hbooks : Books n total (x.stores false ++ restLeft s w) s) :
    Proceeds n total (getInterface false .EInitializeGetReadableInterfaceFinished s) := by
  refine member_proceeds fun y hy => then_get (assert_proceeds fun _ => ?_)
  rw [hat.token y hy]
  exact .of hbooks (.askingReadable (w := w) (t := x) ⟨⟨hat.vars, hat.index⟩, hat.first⟩ rfl rfl)
    rfl rfl rfl rfl rfl (le_refl _)

theorem nextToken_proceeds (hat : AtTokens s w) (hbooks : Books n total (restLeft s w) s) :
    Proceeds n total (nextToken s) := by
  refine member_proceeds fun _ _ => ?_
  refine .of hbooks (.tokens (w := w) (k := KErrNone) ⟨⟨hat.vars, hat.index⟩, hat.first⟩ rfl
    rfl) ?_ rfl rfl rfl rfl (le_refl _)
  rw [if_neg (by decide), add_zero]
  rfl

/-- The store that has just been listed was the next one. -/
theorem books_stored {add : CCheckedCertStore → CUnifiedCertStore → CUnifiedCertStore}
    {i : MCTTokenInterface}
    (hadd : add = addWritable ∧ i.isWritable = true ∨ add = addReadOnly ∧ i.isWritable = false)
    (hi : n ≤ i.id)
    (hbooks : Books n total ({ token := i.token.token, isWritable := i.isWritable } :: ahead) s) :
    Books n total ahead (stored add i s) := by
  have hall : (stored add i s).iCertStores = s.iCertStores ++ [{ iCertStore := i }] := by
    rcases hadd with ⟨rfl, -⟩ | ⟨rfl, -⟩
    · rfl
    · rfl
  have hreleased : (stored add i s).released = s.released := by
    rcases hadd with ⟨rfl, -⟩ | ⟨rfl, -⟩
    · rfl
    · rfl
  have hnext : (stored add i s).nextInterface = s.nextInterface := by
    rcases hadd with ⟨rfl, -⟩ | ⟨rfl, -⟩
    · rfl
    · rfl
  refine ⟨?_, ?_, ?_, fun c hc => ?_, ?_, ?_⟩
  · rw [hall, map_append, List.append_assoc]
    exact hbooks.account
  · rw [hall, filter_append]
    rcases hadd with ⟨rfl, hw⟩ | ⟨rfl, hw⟩
    · simp [stored, addWritable, hbooks.writable, hw]
    · simp [stored, addReadOnly, hbooks.writable, hw]
  · rw [hall, filter_append]
    rcases hadd with ⟨rfl, hw⟩ | ⟨rfl, hw⟩
    · simp [stored, addWritable, hbooks.readOnly, hw]
    · simp [stored, addReadOnly, hbooks.readOnly, hw]
  · rw [hall] at hc
    cases mem_append.mp hc with
    | inl hc => exact hbooks.new c hc
    | inr hc =>
      rw [mem_singleton.mp hc]
      exact hi
  · rw [hreleased]
    exact hbooks.old
  · rw [hnext]
    exact hbooks.next

theorem adds_of {add : CCheckedCertStore → CUnifiedCertStore → CUnifiedCertStore} {b : Bool}
    (hadd : add = addWritable ∧ b = true ∨ add = addReadOnly ∧ b = false) : Adds add := by
  rcases hadd with ⟨rfl, -⟩ | ⟨rfl, -⟩
  · exact adds_addWritable
  · exact adds_addReadOnly

theorem addStoreL_proceeds {aWritable : Bool}
    {add : CCheckedCertStore → CUnifiedCertStore → CUnifiedCertStore}
    (hadd : add = addWritable ∧ aWritable = true ∨ add = addReadOnly ∧ aWritable = false)
    (hat : AtTokens s w) (hout : HandedOut n x aWritable s)
    (hbooks : Books n total ({ token := x.token, isWritable := aWritable } :: restLeft s w) s) :
    Proceeds n total ((addStoreL add >>= fun _ => nextToken) s) := by
  obtain ⟨i, hi, rfl, rfl, hn⟩ := hout
  refine Ends.bind ((addStoreL_ends (adds_of hadd) hi).mono (fun _ _ ht => ht.1)
    fun _ _ he => he.1) fun _ t ht => ?_
  rw [ht]
  have hkept : ∀ {P : CUnifiedCertStore → Prop},
      P (stored addWritable i s) → P (stored addReadOnly i s) → P (stored add i s) := by
    intro P hw hr
    rcases hadd with ⟨rfl, -⟩ | ⟨rfl, -⟩
    · exact hw
    · exact hr
  refine nextToken_proceeds (w := w) ?_ ?_
  · exact hkept (P := fun t => AtTokens t w) ⟨⟨hat.vars, hat.index⟩, hat.first⟩
      ⟨⟨hat.vars, hat.index⟩, hat.first⟩
  · have hrest : restLeft (stored add i s) w = restLeft s w :=
      hkept (P := fun t => restLeft t w = restLeft s w) rfl rfl
    rw [hrest]
    exact books_stored hadd hn hbooks

theorem runGetWritableInterface_proceeds (hat : AtToken s w x) (hpass : s.forWrite = true)
    (hbooks : Books n total (x.stores true ++ restLeft s w) s) :
    Proceeds n total (runGetWritableInterface s) :=
  then_get (leave_proceeds fun _ => getInterface_writable hat hpass hbooks)

/-- The answer to the request for a writable interface. -/
theorem runGetReadableInterface_writable (hat : AtToken s w x)
    (hstatus : s.iStatus = .complete x.writable) (hpass : s.forWrite = true)
    (hout : x.writable = KErrNone → HandedOut n x true s)
    (hbooks : Books n total (x.stores true ++ restLeft s w) s) :
    Proceeds n total (runGetReadableInterface s) := by
  have hwrite : s.iOpenedForWrite = true ∧ s.iCurrentlyDoingReadOnly = false := by
    simpa [forWrite] using hpass
  refine then_get (leaveIf_ends (fun _ => ?_) fun _ => failed_of_negative (by decide))
  rw [hstatus]
  split
  · rename_i hok
    have hx : x.writable = KErrNone := hok.2.2
    refine addStoreL_proceeds (.inl ⟨rfl, rfl⟩) hat.toAtTokens (hout hx) ?_
    have hstores : x.stores true = [{ token := x.token, isWritable := true }] := by
      simp [Token.stores, hx]
    rw [hstores] at hbooks
    exact hbooks
  · rename_i hok
    have hx : x.writable ≠ KErrNone := fun hx => hok ⟨by simp [hwrite.2], hwrite.1, hx⟩
    rw [stores_interfaceCode true fun _ => hx] at hbooks
    refine leaveIf_ends (fun _ => getInterface_readable hat hbooks) fun hleft => ?_
    simp [hwrite] at hleft

/-- The answer to `OpenToken`, in a pass that does not ask for a writable interface. -/
theorem runGetReadableInterface_opened (hat : AtToken s w x) (hpass : s.forWrite = false)
    (hbooks : Books n total (x.stores false ++ restLeft s w) s) :
    Proceeds n total (runGetReadableInterface s) := by
  have hread : s.iOpenedForWrite = true → s.iCurrentlyDoingReadOnly = true := by
    simpa [forWrite] using hpass
  refine then_get (leaveIf_ends (fun _ => ?_) fun _ => failed_of_negative (by decide))
  split
  · rename_i hok
    exact absurd (hread hok.2.1) hok.1
  · refine leaveIf_ends (fun _ => getInterface_readable hat hbooks) fun hleft => ?_
    simp only [Failed, ne_eq, Exit.leave.injEq]
    exact hleft.2

theorem runGetReadableInterfaceFinished_proceeds (hat : AtTokens s w)
    (hstatus : s.iStatus = .complete x.readable)
    (hout : x.readable = KErrNone → HandedOut n x false s)
    (hbooks : Books n total (x.stores false ++ restLeft s w) s) :
    Proceeds n total (runGetReadableInterfaceFinished s) := by
  refine then_get (leaveIf_ends (fun _ => ?_) fun _ => failed_of_negative (by decide))
  rw [hstatus]
  unfold doIf
  split
  · rename_i hx
    have hx : x.readable = KErrNone := hx
    refine addStoreL_proceeds (.inr ⟨rfl, rfl⟩) hat (hout hx) ?_
    have hstores : x.stores false = [{ token := x.token, isWritable := false }] := by
      simp [Token.stores, hx]
    rw [hstores] at hbooks
    exact hbooks
  · rename_i hx
    have hx : x.readable ≠ KErrNone := hx
    have hstores : x.stores false = [] := by simp [Token.stores, hx]
    rw [hstores, nil_append] at hbooks
    exact nextToken_proceeds hat hbooks

/-! ### How an attempt ends -/

/-- An attempt that is over.  If it succeeded, everything found is listed. -/
structure Over (n : Nat) (total : List FoundStore) (m : CUnifiedCertStore) : Prop where
  idle : m.iState = .EIdle
  books : m.answered = some KErrNone → Books n total [] m

theorem runInitializeFinished_over (hbooks : Books n total [] s) :
    Ends (fun _ t => Over n total t) (fun e _ => Failed e) (runInitializeFinished s) := by
  refine then_get (leaveIfError_ends (fun _ => ?_) failed_of_negative)
  refine assert_ends (fun hnone => then_modify ?_) failed_panic
  refine (completeClient_ends (E := fun e _ => Failed e) _ failed_panic).mono (fun _ t ht => ?_)
    fun _ _ he => he
  rw [ht]
  refine ⟨rfl, fun _ => ?_⟩
  refine hbooks.same rfl rfl rfl ?_ (le_refl _)
  simp [complete, destroyTemporaryMembers, dropInterface, dropStores, hnone.2.2]

theorem over_complete {aError : Int} (h : Failed (.leave aError)) :
    Over n total (complete aError s) := by
  refine ⟨rfl, fun hok => ?_⟩
  have hanswered : (complete aError s).answered = some aError := by
    simp only [complete, destroyTemporaryMembers, dropInterface, dropStores]
    split
    · rfl
    · rfl
  rw [hanswered] at hok
  exact absurd (congrArg Exit.leave (Option.some.inj hok)) h

/-- What an attempt is at any time. -/
def Attempt (n : Nat) (total : List FoundStore) (m : CUnifiedCertStore) : Prop :=
  OnTrack n total m ∨ Over n total m

theorem trapped_attempt {f : Unified Unit}
    (hf : Ends (fun _ t => Attempt n total t) (fun e _ => Failed e) (f s)) :
    Ends (fun _ t => Attempt n total t) (fun _ _ => True) (trapped f s) := by
  refine tryCatch hf fun e t he => ?_
  cases e with
  | leave aError =>
      refine (completeClient_ends (E := fun _ _ => True) aError trivial).mono (fun _ u hu => ?_)
        fun _ _ _ => trivial
      rw [hu]
      exact .inr (over_complete he)
  | panic => trivial
  | undefined => trivial

theorem runL_attempt (h : OnTrack n total s) {aCode : Int} (hstatus : s.iStatus = .complete aCode) :
    Ends (fun _ t => Attempt n total t) (fun e _ => Failed e) (runL s) := by
  have hgoes : ∀ {r}, Proceeds n total r →
      Ends (fun _ t => Attempt n total t) (fun e _ => Failed e) r := fun hr =>
    hr.mono (fun _ _ ht => .inl ht) fun _ _ he => he
  obtain ⟨ahead, hstage, hbooks⟩ := h
  refine then_get ?_
  cases hstage with
  | listing _ _ hpending => cases hpending.symm.trans hstatus
  | opening _ _ hpending => cases hpending.symm.trans hstatus
  | askingWritable _ _ hpending => cases hpending.symm.trans hstatus
  | askingReadable _ _ hpending => cases hpending.symm.trans hstatus
  | tokenList hat hstate =>
      rw [hstate]
      exact hgoes (leave_proceeds fun _ => runGetTokenList_proceeds hat hstate hbooks)
  | tokens hat hstate hcode =>
      rw [hstate]
      exact hgoes (runGetToken_proceeds hat hstate hcode hbooks)
  | opened hat hstate hcode =>
      rw [hstate]
      cases hpass : s.forWrite with
      | true =>
        rw [hpass] at hbooks
        exact hgoes (runGetWritableInterface_proceeds hat hpass hbooks)
      | false =>
        rw [hpass] at hbooks
        exact hgoes (runGetReadableInterface_opened hat hpass hbooks)
  | writable hat hstate hcode hpass hout =>
      rw [hstate]
      exact hgoes (runGetReadableInterface_writable hat hcode hpass hout hbooks)
  | readable hat hstate hcode hout =>
      rw [hstate]
      exact hgoes (runGetReadableInterfaceFinished_proceeds hat hcode hout hbooks)
  | finished hstate =>
      rw [hstate]
      exact (runInitializeFinished_over hbooks).mono (fun _ _ ht => .inr ht)
        fun _ _ he => he

theorem doCancel_attempt (h : OnTrack n total s) :
    Ends (fun _ t => Attempt n total t) (fun _ _ => True) (doCancel s) := by
  refine then_get ?_
  split
  · rename_i hfinished
    obtain ⟨ahead, hstage, hbooks⟩ := h
    exact trapped_attempt (runL_attempt ⟨ahead, hstage, hbooks⟩ (hstage.finished_status hfinished))
  · refine then_modify ((completeClient_ends (E := fun _ _ => True) _ trivial).mono
      (fun _ t ht => ?_) fun _ _ _ => trivial)
    rw [ht]
    exact .inr (over_complete (failed_of_negative (by decide)))

/-- A step of the attempt that is under way. -/
def Act.continues : Act → Bool
  | .Initialize _ => false
  | _ => true

theorem attempt_step {a : Act} (h : Attempt n total s) (ha : a.continues = true)
    (hstep : step s a = some t) : Attempt n total t := by
  cases h with
  | inr h =>
      cases a with
      | Initialize p => cases ha
      | answer =>
        simp only [step, h.idle, if_true] at hstep
        split at hstep
        · cases hstep
        · cases hstep
      | run =>
        simp only [step, h.idle, if_true] at hstep
        split at hstep
        · cases hstep
        · cases hstep
      | cancelInitialize =>
        simp only [step, h.idle, if_true] at hstep
        cases hstep
        exact .inr h
  | inl h =>
      cases a with
      | Initialize p => cases ha
      | answer =>
        simp only [step] at hstep
        split at hstep
        · rename_i r hr
          obtain ⟨-, hstep⟩ := Option.ite_none_left_eq_some.mp hstep
          cases hstep
          exact .inl (onTrack_deliver h hr)
        · cases hstep
      | run =>
        simp only [step] at hstep
        split at hstep
        · cases hstep
        · rename_i aCode hcode
          obtain ⟨-, hstep⟩ := Option.ite_none_left_eq_some.mp hstep
          exact outcome_ends (trapped_attempt (runL_attempt h hcode)) hstep
      | cancelInitialize =>
        simp only [step] at hstep
        split at hstep
        · cases hstep
          exact .inl h
        · exact outcome_ends (doCancel_attempt h) hstep

theorem attempt_run {acts : List Act} (hacts : ∀ a ∈ acts, a.continues = true)
    (h : Attempt n total s) (hrun : run step s acts = some t) : Attempt n total t := by
  induction acts generalizing s with
  | nil =>
      cases hrun
      exact h
  | cons a acts ih =>
      obtain ⟨u, hu, hrest⟩ := Option.bind_eq_some_iff.mp hrun
      exact ih (fun b hb => hacts b (mem_cons_of_mem _ hb))
        (attempt_step h (hacts a mem_cons_self) hu) hrest

/-! ### How an attempt starts -/

theorem noteHardwareTypesL_ends (types : List CCTTokenTypeInfo) (s : CUnifiedCertStore) :
    Ends (fun _ t => ∃ uids, t = { s with iHardwareTypeUids := uids }) (fun e _ => Failed e)
      (noteHardwareTypesL types s) := by
  induction types generalizing s with
  | nil => exact ⟨s.iHardwareTypeUids, rfl⟩
  | cons x types ih =>
      have hnote : Ends (fun _ t => ∃ uids, t = { s with iHardwareTypeUids := uids })
          (fun e _ => Failed e) (doIf (isHardware x) (noteTypeL x) s) := by
        unfold doIf
        split
        · exact leaveIfError_ends (fun _ => ⟨_, rfl⟩) failed_of_negative
        · exact ⟨s.iHardwareTypeUids, rfl⟩
      refine Ends.bind hnote fun _ t ht => ?_
      obtain ⟨uids, rfl⟩ := ht
      exact ih _

theorem readOnlyTypesL_ends (writable types : List CCTTokenTypeInfo) (s : CUnifiedCertStore) :
    Ends (fun found t => found = types.filter (fun x => !writable.any fun w => w.type = x.type) ∧
      t = s) (fun e _ => Failed e) (readOnlyTypesL writable types s) := by
  induction types with
  | nil => exact ⟨rfl, rfl⟩
  | cons x types ih =>
      unfold readOnlyTypesL
      split
      · rename_i hx
        rw [filter_cons_of_neg (by simp [hx])]
        exact ih
      · rename_i hx
        rw [filter_cons_of_pos (by simp [hx])]
        refine leaveIfError_ends (fun _ => Ends.bind ih fun found t ht => ?_) failed_of_negative
        obtain ⟨rfl, rfl⟩ := ht
        exact ⟨rfl, rfl⟩

/-- What an attempt finds.  It skips the first pass when the flag is up. -/
def found (m : CUnifiedCertStore) (p : Platform) : List FoundStore :=
  (if m.iCurrentlyDoingReadOnly then []
    else p.writablePass m.iOpenedForWrite m.iOrderAttributes) ++ p.readOnlyPass m.iOrderAttributes

theorem initializeL_onTrack (hclean : Clean s) (hnumbered : Numbered s)
    (hstate : s.iState = .EInitializeGetTokenList) (p : Platform) :
    Ends (fun _ t => OnTrack s.nextInterface (found s p) t) (fun e _ => Failed e)
      (initializeL p s) := by
  refine leaveIfError_ends (fun _ => ?_) failed_of_negative
  refine leaveIfError_ends (fun _ => ?_) failed_of_negative
  refine leaveIfError_ends (fun _ => then_get ?_) failed_of_negative
  refine leaveIf_ends (fun _ => ?_) fun hordered => failed_of_negative hordered.2
  refine Ends.bind (noteHardwareTypesL_ends _ s) fun _ t ht => ?_
  obtain ⟨uids, rfl⟩ := ht
  refine Ends.bind (readOnlyTypesL_ends _ _ _) fun readOnly t ht => ?_
  obtain ⟨rfl, rfl⟩ := ht
  refine ⟨_, .tokenList (w :=
    { iWritableTokenTypes := p.writable s.iOrderAttributes
      iReadOnlyTokenTypes := p.readOnly s.iOrderAttributes
      iIndex := -1 }) ⟨rfl, le_refl _⟩ hstate rfl, ?_⟩
  refine ⟨?_, ?_, ?_, ?_, hnumbered.released, le_refl _⟩
  · have hleft : ∀ b, s.iCurrentlyDoingReadOnly = b →
        (if b then p.readOnly s.iOrderAttributes else p.writable s.iOrderAttributes).flatMap
            (CCTTokenTypeInfo.stores (s.iOpenedForWrite && !b)) ++
          (if b then []
            else (p.readOnly s.iOrderAttributes).flatMap (CCTTokenTypeInfo.stores false)) =
        found s p := by
      intro b hb
      unfold found
      rw [hb]
      cases b with
      | true => simp [Platform.readOnlyPass]
      | false => simp [Platform.readOnlyPass, Platform.writablePass]
    change s.iCertStores.map _ ++ _ = _
    rw [hclean.certStores]
    exact hleft _ rfl
  · change s.iWritableCertStores = s.iCertStores.filter _
    rw [hclean.writableCertStores, hclean.certStores]
    rfl
  · change s.iReadOnlyCertStores = s.iCertStores.filter _
    rw [hclean.readOnlyCertStores, hclean.certStores]
    rfl
  · intro c hc
    change c ∈ s.iCertStores at hc
    rw [hclean.certStores] at hc
    cases hc

theorem Initialize_attempt (h : Rested s) (hfailed : s.iIsInitialized = false) (p : Platform) :
    Ends (fun _ t => Attempt s.nextInterface (found s p) t) (fun _ _ => True) (Initialize p s) := by
  refine Ends.bind (beginAsyncOp_ends (E := fun _ _ => True) _ trivial) fun _ t ht => ?_
  obtain ⟨hidle, rfl⟩ := ht
  have hclean := h.clean hidle hfailed
  refine trapped_attempt ?_
  refine (initializeL_onTrack (s := { s with
    iClientStatus := true, answered := none, iState := .EInitializeGetTokenList })
    ⟨hclean.readOnlyCertStores, hclean.writableCertStores, hclean.certStores, hclean.tokenType,
      hclean.token, hclean.tokenInterface, hclean.tokens⟩
    ⟨h.released, h.listed, h.interface⟩ rfl p).mono (fun _ _ ht => .inl ht) fun _ _ he => he

/-- What an attempt that succeeds leaves in the lists. -/
theorem succeeded {p : Platform} {acts : List Act} (hs : Reachable New step Anything s)
    (hfailed : s.iIsInitialized = false) (hacts : ∀ a ∈ acts, a.continues = true)
    (hrun : run step s (.Initialize p :: acts) = some t) (hidle : t.iState = .EIdle)
    (hok : t.answered = some KErrNone) : Books s.nextInterface (found s p) [] t := by
  obtain ⟨u, hu, hrest⟩ := Option.bind_eq_some_iff.mp hrun
  have hstarted := outcome_ends (Initialize_attempt (rested_of_reachable hs) hfailed p) hu
  cases attempt_run hacts hstarted hrest with
  | inr hover => exact hover.books hok
  | inl h =>
      obtain ⟨ahead, hstage, -⟩ := h
      exact absurd hidle hstage.active

/-! ### The lists -/

/-- The lists hold `found`, each store in the list of its kind. -/
structure Lists (found : List FoundStore) (m : CUnifiedCertStore) : Prop where
  readable : m.iCertStores.map CCheckedCertStore.found = found
  writable : m.iWritableCertStores.map CCheckedCertStore.found = found.filter (·.isWritable)
  readOnly : m.iReadOnlyCertStores.map CCheckedCertStore.found = found.filter (!·.isWritable)

def NoneReleased (m : CUnifiedCertStore) : Prop :=
  ∀ c ∈ m.listed, c.iCertStore.id ∉ m.released

theorem Books.lists (h : Books n total [] s) : Lists total s := by
  have hall : s.iCertStores.map CCheckedCertStore.found = total := by
    have haccount := h.account
    rwa [append_nil] at haccount
  refine ⟨hall, ?_, ?_⟩
  · rw [← hall, h.writable, filter_map]
    rfl
  · rw [← hall, h.readOnly, filter_map]
    rfl

theorem Books.noneReleased (h : Books n total [] s) : NoneReleased s := by
  intro c hc hreleased
  have hmem : c ∈ s.iCertStores := by
    simp only [listed, h.writable, h.readOnly, mem_append, mem_filter] at hc
    obtain (hc | hc) | hc := hc
    · exact hc.1
    · exact hc.1
    · exact hc
  exact absurd (h.old _ hreleased) (Nat.not_lt.mpr (h.new c hmem))

/-- **After attempts that failed or were cancelled, an `Initialize` that succeeds lists what a
first one lists exactly when none of them had got to the second pass, or the first pass has
nothing to list.** -/
theorem same_lists_as_first {s t : CUnifiedCertStore} {p : Platform} {acts : List Act}
    (hs : Reachable New step Anything s) (hfailed : s.iIsInitialized = false)
    (hacts : ∀ a ∈ acts, a.continues = true)
    (hrun : run step s (.Initialize p :: acts) = some t) (hidle : t.iState = .EIdle)
    (hok : t.answered = some KErrNone) :
    (Lists (p.stores s.iOpenedForWrite s.iOrderAttributes) t ∧ NoneReleased t) ↔
      s.iCurrentlyDoingReadOnly = false ∨
        p.writablePass s.iOpenedForWrite s.iOrderAttributes = [] := by
  have hbooks := succeeded hs hfailed hacts hrun hidle hok
  have hlists := hbooks.lists
  constructor
  · intro h
    cases hflag : s.iCurrentlyDoingReadOnly with
    | false => exact .inl rfl
    | true =>
      right
      have hsame : found s p = p.stores s.iOpenedForWrite s.iOrderAttributes :=
        hlists.readable.symm.trans h.1.readable
      have hlength := congrArg List.length hsame
      simp only [found, hflag, if_true, Platform.stores, length_append, length_nil]
        at hlength
      exact length_eq_zero_iff.mp (by omega)
  · intro h
    have hsame : found s p = p.stores s.iOpenedForWrite s.iOrderAttributes := by
      cases h with
      | inl hflag => simp [found, Platform.stores, hflag]
      | inr hnone => simp [found, Platform.stores, hnone]
    rw [hsame] at hlists
    exact ⟨hlists, hbooks.noneReleased⟩

/-- One writable token type with one token. -/
def onePlatform (aOpened : Int) : Platform :=
  let type : CCTTokenTypeInfo :=
    { type := 7
      attributes := []
      tokens := [{ token := { handle := { iTokenTypeId := 7, iTokenId := 1 }, tokenType := 7 }
                   opened := aOpened }] }
  { writableTypes := [type], readableTypes := [type] }

/-- The steps of an attempt that finds the one store. -/
def oneStoreActs : List Act :=
  [.run, .answer, .run, .answer, .run, .answer, .run, .run, .run, .run, .run]

/-- The token cannot be opened the first time. -/
theorem same_lists_as_first_after_failure :
    ∃ s t : CUnifiedCertStore,
      s.answered = some KErrNotFound ∧ t.iWritableCertStores.length = 1 ∧
        ((Lists ((onePlatform KErrNone).stores true []) t ∧ NoneReleased t) ↔
          s.iCurrentlyDoingReadOnly = false ∨
            (onePlatform KErrNone).writablePass true [] = []) := by
  have hnew : Reachable New step Anything { iOpenedForWrite := true } := .start rfl
  have hfirst := hnew.run (show run step _ [.Initialize (onePlatform KErrNotFound), .run, .answer,
    .run, .answer, .run] = some _ from rfl)
  have hrun := same_lists_as_first hfirst rfl (by decide)
    (show run step _ (.Initialize (onePlatform KErrNone) :: oneStoreActs) = some _ from rfl)
    rfl rfl
  exact ⟨_, _, rfl, rfl, hrun⟩

/-- Cancelled when the second pass has just begun, the store never gets its writable token
back. -/
theorem lists_not_as_first :
    ¬ ∀ (s t : CUnifiedCertStore) (p : Platform) (acts : List Act),
      Reachable New step Anything s → s.iIsInitialized = false →
        (∀ a ∈ acts, a.continues = true) → run step s (.Initialize p :: acts) = some t →
          t.iState = .EIdle → t.answered = some KErrNone →
            Lists (p.stores s.iOpenedForWrite s.iOrderAttributes) t ∧ NoneReleased t := by
  intro h
  have hnew : Reachable New step Anything { iOpenedForWrite := true } := .start rfl
  have hcancelled := hnew.run (show run step _
    [.Initialize { writableTypes := [], readableTypes := [] }, .run, .cancelInitialize] = some _
    from rfl)
  have hlists := (h _ _ (onePlatform KErrNone) [.run, .run] hcancelled rfl (by decide) rfl rfl
    rfl).1.readable
  exact absurd hlists (by decide)

end CUnifiedCertStore

end Certstore

end OsSecurity

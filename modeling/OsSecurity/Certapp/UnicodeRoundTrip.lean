/-
What the compressor writes, the expander reads back.

The compressor's state and the expander's are the same type, and each turn of `writeRunL` leaves
them equal: it writes octets that take the expander from the state before it to the state after
it, through the characters that have left the input buffer.  Two things are needed of the
compressor's state for that.  Its active window is the one with its index, and every window
lies above the 128 characters that need none.  The output buffer is empty between turns, and a turn
puts three octets there for a character at most.
-/
import OsSecurity.Certapp.UnicodeExpansion
import Mathlib.Data.List.TakeWhile

namespace OsSecurity

open Function List Nat TUnicodeCompressionState TUnicodeExpander UInt8

variable {c : TUnicodeCompressor} {us done waiting : Text} {aCode : Nat}

/-! ### Treatments -/

/-- A window that does not reach below 128 or beyond 16 bits. -/
def IsBase (base : Nat) : Prop := 0x80 ≤ base ∧ base + 0x80 ≤ 0x10000

theorem dynamicWindowOffsetIndex_base {n : Nat} (hcode : aCode < 0x10000)
    (h : dynamicWindowOffsetIndex aCode = some n) :
    n < 256 ∧ inWindow (dynamicWindowBase n) aCode = true ∧ IsBase (dynamicWindowBase n) := by
  unfold dynamicWindowOffsetIndex at h
  by_cases hlow : aCode < 0x80
  · rw [if_pos hlow] at h
    exact absurd h (by simp)
  by_cases hmid : 0x3400 ≤ aCode ∧ aCode ≤ 0xDFFF
  · rw [if_neg hlow, if_pos hmid] at h
    exact absurd h (by simp)
  rw [if_neg hlow, if_neg hmid] at h
  cases hspecial : iSpecialBase.findIdx? (inWindow · aCode) with
  | some i =>
      rw [hspecial, Option.some.injEq] at h
      obtain ⟨hi, hin, -⟩ := findIdx?_eq_some_iff_getElem.mp hspecial
      have hbase : dynamicWindowBase n = iSpecialBase[i] := by
        have hi' : i < 7 := hi
        rw [← h, dynamicWindowBase, if_pos (by omega)]
        simp [hi]
      rw [hbase]
      refine ⟨by have : i < 7 := hi; omega, hin, ?_⟩
      have hall : ∀ base ∈ iSpecialBase, 0x80 ≤ base ∧ base + 0x80 ≤ 0x10000 := by decide
      exact hall _ (getElem_mem hi)
  | none =>
      rw [hspecial, Option.some.injEq] at h
      unfold dynamicWindowBase IsBase inWindow
      simp only [decide_eq_true_eq]
      by_cases hhigh : 0xE000 ≤ aCode
      · rw [if_pos hhigh] at h
        rw [if_neg (by omega), if_neg (by omega), if_pos (by omega)]
        omega
      · rw [if_neg hhigh] at h
        rw [if_neg (by omega), if_pos (by omega)]
        omega

/-- What the treatment of a character says about it. -/
theorem ofCode_cases (hcode : aCode < 0x10000) :
    (encodeAsIs aCode = true ∧ (TAction.ofCode aCode).iTreatment = .plainASCII) ∨
    (aCode < 0x80 ∧ (TAction.ofCode aCode).iTreatment = .static 0) ∨
    (∃ n, dynamicWindowOffsetIndex aCode = some n ∧
      (TAction.ofCode aCode).iTreatment = .dynamic n) ∨
    (0x3400 ≤ aCode ∧ aCode ≤ 0xDFFF ∧ (TAction.ofCode aCode).iTreatment = .plainUnicode) := by
  unfold TAction.ofCode
  by_cases hasIs : encodeAsIs aCode = true
  · rw [if_pos hasIs]
    exact .inl ⟨hasIs, rfl⟩
  rw [if_neg hasIs]
  cases hdynamic : dynamicWindowOffsetIndex aCode with
  | some n => exact .inr (.inr (.inl ⟨n, rfl, rfl⟩))
  | none =>
      by_cases hlow : aCode < 0x80
      · have hstatic : staticWindowIndex aCode = some 0 := by
          have hin : inWindow 0x0000 aCode = true := by
            simp only [inWindow, decide_eq_true_eq]
            omega
          unfold staticWindowIndex iStaticWindow
          rw [findIdx?_cons, if_pos hin]
        rw [hstatic]
        exact .inr (.inl ⟨hlow, rfl⟩)
      · have hmid : 0x3400 ≤ aCode ∧ aCode ≤ 0xDFFF := by
          by_contra hmid
          unfold dynamicWindowOffsetIndex at hdynamic
          rw [if_neg hlow, if_neg hmid] at hdynamic
          cases hspecial : iSpecialBase.findIdx? (inWindow · aCode) with
          | some i => rw [hspecial] at hdynamic; exact absurd hdynamic (by simp)
          | none => rw [hspecial] at hdynamic; exact absurd hdynamic (by simp)
        have hstatic : staticWindowIndex aCode = none := by
          have hall : ∀ base ∈ iStaticWindow, base + 128 ≤ 0x3400 := by decide
          refine findIdx?_eq_none_iff.mpr fun base hbase => ?_
          have hend := hall base hbase
          simp only [inWindow, decide_eq_false_iff_not]
          omega
        rw [hstatic]
        exact .inr (.inr (.inr ⟨hmid.1, hmid.2, rfl⟩))

/-! ### The octets of a character -/

namespace TUnicodeCompressor

/-- Octets behind those in the output buffer. -/
def put (octets : Bytes) (c : TUnicodeCompressor) : TUnicodeCompressor :=
  { c with iOutputBuffer := c.iOutputBuffer ++ octets }

theorem put_put (octets more : Bytes) (c : TUnicodeCompressor) :
    (c.put octets).put more = c.put (octets ++ more) := by
  simp [put]

theorem writeByte_put (aByte : Nat) (hroom : c.iOutputBuffer.length + 1 ≤ EMaxOutputBufferSize) :
    c.writeByte aByte = .ok (c.put [ofNat aByte]) := by
  unfold writeByte
  rw [if_neg (by omega)]
  rfl

theorem writeByte_then (aByte : Nat) (next : TUnicodeCompressor → TUnicodeCompressor)
    (hroom : c.iOutputBuffer.length + 1 ≤ EMaxOutputBufferSize) :
    (c.writeByte aByte >>= fun c => pure (next c)) = .ok (next (c.put [ofNat aByte])) := by
  rw [writeByte_put aByte hroom]
  rfl

theorem writeByte_pair (first second : Nat)
    (hroom : c.iOutputBuffer.length + 2 ≤ EMaxOutputBufferSize) :
    (c.writeByte first >>= fun c => c.writeByte second) =
      .ok (c.put [ofNat first, ofNat second]) := by
  rw [writeByte_put first (by omega)]
  have hroom' : (c.put [ofNat first]).iOutputBuffer.length + 1 ≤ EMaxOutputBufferSize := by
    simp only [put, length_append, length_singleton]
    omega
  show (c.put [ofNat first]).writeByte second = _
  rw [writeByte_put second hroom', put_put]
  rfl

theorem writeByte_halves (tag aCode : Nat)
    (hroom : c.iOutputBuffer.length + 3 ≤ EMaxOutputBufferSize) :
    (do
      let c ← c.writeByte tag
      let c ← c.writeByte ((aCode >>> 8) &&& 0xFF)
      c.writeByte (aCode &&& 0xFF)) = .ok (c.put (ofNat tag :: halves aCode)) := by
  rw [writeByte_put tag (by omega)]
  have hroom' : (c.put [ofNat tag]).iOutputBuffer.length + 2 ≤ EMaxOutputBufferSize := by
    simp only [put, length_append, length_singleton]
    omega
  have hpair := writeByte_pair ((aCode >>> 8) &&& 0xFF) (aCode &&& 0xFF) hroom'
  rw [put_put] at hpair
  exact hpair

def unicodeOctets (aCode : Nat) : Bytes :=
  if 0xE000 ≤ aCode ∧ aCode ≤ 0xF2FF then ofNat UQU :: halves aCode else halves aCode

def singleOctets (c : TUnicodeCompressor) (aAction : TAction) : Bytes :=
  match aAction.iTreatment with
  | .plainASCII => [ofNat aAction.iCode]
  | .static window => [ofNat (SQ0 + window), ofNat aAction.iCode]
  | _ =>
    if inWindow c.state.iActiveWindowBase aAction.iCode then
      [ofNat (aAction.iCode - c.state.iActiveWindowBase + 0x80)]
    else
      match c.windowOf aAction.iCode with
      | some i =>
        [ofNat (SQ0 + i), ofNat (aAction.iCode - c.state.iDynamicWindow i + 0x80)]
      | none => ofNat SQU :: halves aAction.iCode

/-- What `writeCharacter` writes. -/
def octetsOf (c : TUnicodeCompressor) (aAction : TAction) : Bytes :=
  if c.state.iUnicodeMode then unicodeOctets aAction.iCode else c.singleOctets aAction

theorem writeUCharacter_put
    (hroom : c.iOutputBuffer.length + (unicodeOctets aCode).length ≤ EMaxOutputBufferSize) :
    c.writeUCharacter aCode = .ok (c.put (unicodeOctets aCode)) := by
  unfold writeUCharacter unicodeOctets
  unfold unicodeOctets at hroom
  by_cases htag : 0xE000 ≤ aCode ∧ aCode ≤ 0xF2FF
  · rw [if_pos htag] at hroom ⊢
    rw [if_pos htag]
    exact writeByte_halves UQU aCode hroom
  · rw [if_neg htag] at hroom ⊢
    rw [if_neg htag]
    exact writeByte_pair _ _ hroom

theorem writeSCharacter_put {aAction : TAction}
    (hroom : c.iOutputBuffer.length + (c.singleOctets aAction).length ≤ EMaxOutputBufferSize) :
    c.writeSCharacter aAction = .ok (c.put (c.singleOctets aAction)) := by
  unfold writeSCharacter singleOctets
  unfold singleOctets at hroom
  cases htreatment : aAction.iTreatment with
  | plainASCII =>
      rw [htreatment] at hroom
      exact writeByte_put _ hroom
  | static window =>
      rw [htreatment] at hroom
      exact writeByte_pair _ _ hroom
  | plainUnicode | dynamic =>
      rw [htreatment] at hroom
      dsimp only at hroom ⊢
      by_cases hactive : inWindow c.state.iActiveWindowBase aAction.iCode = true
      · rw [if_pos hactive] at hroom ⊢
        rw [if_pos hactive]
        exact writeByte_put _ hroom
      rw [if_neg hactive] at hroom ⊢
      rw [if_neg hactive]
      cases hwindow : c.windowOf aAction.iCode with
      | some i =>
        rw [hwindow] at hroom
        exact writeByte_pair _ _ hroom
      | none =>
        rw [hwindow] at hroom
        exact writeByte_halves SQU aAction.iCode hroom

theorem writeCharacter_put {aAction : TAction}
    (hroom : c.iOutputBuffer.length + (c.octetsOf aAction).length ≤ EMaxOutputBufferSize) :
    c.writeCharacter aAction = .ok (c.put (c.octetsOf aAction)) := by
  unfold writeCharacter octetsOf
  unfold octetsOf at hroom
  by_cases hmode : c.state.iUnicodeMode = true
  · rw [if_pos hmode] at hroom ⊢
    rw [if_pos hmode]
    exact writeUCharacter_put hroom
  · rw [if_neg hmode] at hroom ⊢
    rw [if_neg hmode]
    exact writeSCharacter_put hroom

/-- The action of a character. -/
abbrev actionOf (u : UInt16) : TAction := TAction.ofCode u.toNat

theorem halves_ne_nil (aCode : Nat) : halves aCode ≠ [] := cons_ne_nil _ _

theorem unicodeOctets_expands {s : TUnicodeCompressionState} (hmode : s.iUnicodeMode = true)
    (u : UInt16) : Expands s (unicodeOctets u.toNat) s [u] := by
  unfold unicodeOctets
  by_cases htag : 0xE000 ≤ u.toNat ∧ u.toNat ≤ 0xF2FF
  · rw [if_pos htag]
    exact .character (cons_ne_nil _ _) (unicode_quote hmode u)
  · rw [if_neg htag]
    exact .character (halves_ne_nil _) (unicode_plain hmode htag)

theorem windowOf_inWindow {i : Fin 8} (h : c.windowOf aCode = some i) :
    inWindow (c.state.iDynamicWindow i) aCode = true := by
  unfold windowOf at h
  have hfound := find?_some h
  exact hfound

theorem singleOctets_expands (hmode : c.state.iUnicodeMode = false) (u : UInt16) :
    Expands c.state (c.singleOctets (actionOf u)) c.state [u] := by
  have hwindows : Expands c.state
      (if inWindow c.state.iActiveWindowBase u.toNat then
        [ofNat (u.toNat - c.state.iActiveWindowBase + 0x80)]
      else
        match c.windowOf u.toNat with
        | some i =>
          [ofNat (SQ0 + i), ofNat (u.toNat - c.state.iDynamicWindow i + 0x80)]
        | none => ofNat SQU :: halves u.toNat) c.state [u] := by
    by_cases hactive : inWindow c.state.iActiveWindowBase u.toNat = true
    · rw [if_pos hactive]
      exact .character (cons_ne_nil _ _) (single_active hmode hactive)
    rw [if_neg hactive]
    cases hwindow : c.windowOf u.toNat with
    | some i =>
      exact .character (cons_ne_nil _ _)
        (single_window hmode i (windowOf_inWindow hwindow))
    | none => exact .character (cons_ne_nil _ _) (single_quote hmode u)
  unfold singleOctets
  rcases ofCode_cases u.toNat_lt with ⟨hasIs, htreatment⟩ | ⟨hlow, htreatment⟩ |
    ⟨n, -, htreatment⟩ | ⟨-, -, htreatment⟩
  · rw [htreatment]
    exact .character (cons_ne_nil _ _) (single_asIs hmode hasIs)
  · rw [htreatment]
    exact .character (cons_ne_nil _ _) (single_static hmode hlow)
  · rw [htreatment]
    exact hwindows
  · rw [htreatment]
    exact hwindows

theorem octetsOf_expands (c : TUnicodeCompressor) (u : UInt16) :
    Expands c.state (c.octetsOf (actionOf u)) c.state [u] := by
  unfold octetsOf
  by_cases hmode : c.state.iUnicodeMode = true
  · rw [if_pos hmode]
    exact unicodeOctets_expands hmode u
  · rw [if_neg hmode]
    exact singleOctets_expands (Bool.eq_false_iff.mpr hmode) u

/-! ### How many octets -/

theorem unicodeOctets_length (aCode : Nat) : (unicodeOctets aCode).length ≤ 3 := by
  unfold unicodeOctets
  by_cases htag : 0xE000 ≤ aCode ∧ aCode ≤ 0xF2FF
  · rw [if_pos htag]
    exact Nat.le_refl 3
  · rw [if_neg htag]
    exact le_succ 2

theorem singleOctets_length (c : TUnicodeCompressor) (aAction : TAction) :
    (c.singleOctets aAction).length ≤ 3 := by
  unfold singleOctets
  cases aAction.iTreatment with
  | plainASCII => exact Nat.le_add_left 1 2
  | static => exact le_succ 2
  | plainUnicode | dynamic =>
      dsimp only
      by_cases hactive : inWindow c.state.iActiveWindowBase aAction.iCode = true
      · rw [if_pos hactive]
        exact Nat.le_add_left 1 2
      rw [if_neg hactive]
      cases c.windowOf aAction.iCode with
      | some i => exact le_succ 2
      | none => exact Nat.le_refl 3

theorem octetsOf_length (c : TUnicodeCompressor) (aAction : TAction) :
    (c.octetsOf aAction).length ≤ 3 := by
  unfold octetsOf
  by_cases hmode : c.state.iUnicodeMode = true
  · rw [if_pos hmode]
    exact unicodeOctets_length _
  · rw [if_neg hmode]
    exact singleOctets_length c aAction

/-- The active window is the one with its index, and no window has the first 128 characters. -/
structure Coherent (c : TUnicodeCompressor) : Prop where
  active : c.state.iActiveWindowBase = c.state.iDynamicWindow c.iDynamicWindowIndex
  windows : ∀ i, IsBase (c.state.iDynamicWindow i)

theorem octetsOf_active (hc : c.Coherent) (hmode : c.state.iUnicodeMode = false) {u : UInt16}
    (hactive : inWindow c.state.iActiveWindowBase u.toNat = true) :
    (c.octetsOf (actionOf u)).length = 1 := by
  have hbase := (hc.windows c.iDynamicWindowIndex).1
  rw [← hc.active] at hbase
  have hcode : c.state.iActiveWindowBase ≤ u.toNat := by
    simp only [inWindow, decide_eq_true_eq] at hactive
    exact hactive.1
  have hpair : (if inWindow c.state.iActiveWindowBase u.toNat = true then
        [ofNat (u.toNat - c.state.iActiveWindowBase + 0x80)]
      else
        match c.windowOf u.toNat with
        | some i =>
          [ofNat (SQ0 + i), ofNat (u.toNat - c.state.iDynamicWindow i + 0x80)]
        | none => ofNat SQU :: halves u.toNat).length = 1 := by
    rw [if_pos hactive]
    rfl
  unfold octetsOf
  rw [hmode, if_neg Bool.false_ne_true]
  unfold singleOctets
  rcases ofCode_cases u.toNat_lt with ⟨hasIs, -⟩ | ⟨hlow, -⟩ | ⟨n, -, htreatment⟩ |
    ⟨-, -, htreatment⟩
  · simp only [encodeAsIs, decide_eq_true_eq] at hasIs
    omega
  · omega
  · rw [htreatment]
    exact hpair
  · rw [htreatment]
    exact hpair

theorem octetsOf_plainASCII (hmode : c.state.iUnicodeMode = false) {aAction : TAction}
    (h : aAction.iTreatment = .plainASCII) : (c.octetsOf aAction).length = 1 := by
  unfold octetsOf singleOctets
  rw [hmode, if_neg Bool.false_ne_true, h]
  rfl

/-- A state in which a treatment has been selected. -/
def Selected (treatment : Treatment) (s : TUnicodeCompressionState) : Prop :=
  match treatment with
  | .plainUnicode => s.iUnicodeMode = true
  | .plainASCII => s.iUnicodeMode = false
  | .dynamic n => s.iUnicodeMode = false ∧ s.iActiveWindowBase = dynamicWindowBase n
  | .static _ => True

theorem unicodeOctets_plain (h : aCode < 0xE000) : (unicodeOctets aCode).length = 2 := by
  unfold unicodeOctets
  rw [if_neg (by omega)]
  rfl

/-- A character of a treatment that has been selected takes two octets at most. -/
theorem octetsOf_selected (hc : c.Coherent) {u : UInt16}
    (h : Selected (actionOf u).iTreatment c.state) : (c.octetsOf (actionOf u)).length ≤ 2 := by
  rcases ofCode_cases u.toNat_lt with ⟨-, htreatment⟩ | ⟨hlow, htreatment⟩ |
    ⟨n, hn, htreatment⟩ | ⟨-, hhigh, htreatment⟩
  · rw [htreatment] at h
    rw [octetsOf_plainASCII h htreatment]
    exact le_succ 1
  · unfold octetsOf
    by_cases hmode : c.state.iUnicodeMode = true
    · rw [if_pos hmode, show (actionOf u).iCode = u.toNat from rfl, unicodeOctets_plain (by omega)]
    · rw [if_neg hmode]
      unfold singleOctets
      rw [htreatment]
      exact Nat.le_refl 2
  · rw [htreatment] at h
    have hactive := (dynamicWindowOffsetIndex_base u.toNat_lt hn).2.1
    rw [← h.2] at hactive
    rw [octetsOf_active hc h.1 hactive]
    exact le_succ 1
  · rw [htreatment] at h
    have hmode : c.state.iUnicodeMode = true := h
    unfold octetsOf
    rw [if_pos hmode, show (actionOf u).iCode = u.toNat from rfl, unicodeOctets_plain (by omega)]

/-! ### Choosing a treatment -/

/-- Tags: no characters of their own, and a state for the characters to come. -/
def Leads (s : TUnicodeCompressionState) (octets : Bytes) (s' : TUnicodeCompressionState) :
    Prop :=
  ∀ (b : Bytes) (s'' : TUnicodeCompressionState) (us : Text), us ≠ [] →
    Expands s' b s'' us → Expands s (octets ++ b) s'' us

/-- A compressor that has written octets and is coherent. -/
structure Wrote (c : TUnicodeCompressor) (octets : Bytes) (c' : TUnicodeCompressor) : Prop where
  output : c'.iOutputBuffer = c.iOutputBuffer ++ octets
  stream : c'.stream = c.stream
  coherent : c'.Coherent

theorem Wrote.trans {c' c'' : TUnicodeCompressor} {octets more : Bytes} (h : Wrote c octets c')
    (h' : Wrote c' more c'') : Wrote c (octets ++ more) c'' where
  output := by rw [h'.output, h.output, List.append_assoc]
  stream := h'.stream.trans h.stream
  coherent := h'.coherent

theorem Wrote.refl (hc : c.Coherent) : Wrote c [] c :=
  ⟨(append_nil _).symm, rfl, hc⟩

theorem wrote_put (hc : c.Coherent) (octets : Bytes) : Wrote c octets (c.put octets) :=
  ⟨rfl, rfl, hc.active, hc.windows⟩

theorem wrote_activate (hc : c.Coherent) (octets : Bytes) (i : Fin 8) {base : Nat}
    (hbase : IsBase base) : Wrote c octets ((c.put octets).activate i base) := by
  refine ⟨rfl, rfl, ?_, fun j => ?_⟩
  · show base = Function.update c.state.iDynamicWindow i base i
    rw [update_self]
  · show IsBase (Function.update c.state.iDynamicWindow i base j)
    by_cases hj : j = i
    · rw [hj, update_self]
      exact hbase
    · rw [update_of_ne hj]
      exact hc.windows j

theorem wrote_setUnicodeMode (hc : c.Coherent) (octets : Bytes) (mode : Bool) :
    Wrote c octets ((c.put octets).setUnicodeMode mode) :=
  ⟨rfl, rfl, hc.active, hc.windows⟩

/-- A window that is there already, in the state in which it is active. -/
theorem activate_found {i : Fin 8} {base : Nat} (h : base = c.state.iDynamicWindow i)
    (octets : Bytes) :
    ((c.put octets).activate i base).state =
      { c.state with
        iUnicodeMode := false
        iActiveWindowBase := c.state.iDynamicWindow i } := by
  show TUnicodeCompressionState.mk false base (Function.update c.state.iDynamicWindow i base) = _
  rw [h, update_eq_self]

/-- A treatment has been chosen, with two octets at most. -/
structure Chose (treatment : Treatment) (c : TUnicodeCompressor) (octets : Bytes)
    (c' : TUnicodeCompressor) : Prop where
  wrote : Wrote c octets c'
  few : octets.length ≤ 2
  selected : Selected treatment c'.state
  leads : Leads c.state octets c'.state

theorem leads_nil {s : TUnicodeCompressionState} : Leads s [] s := fun _ _ _ _ h => h

theorem leads_tag {s s' : TUnicodeCompressionState} {octets : Bytes} (hb : octets ≠ [])
    (hread : ReadsBack (handleByteL s) octets (s', [])) : Leads s octets s' :=
  fun _ _ _ hus hrest => .tag hb hread hus hrest

theorem selectDynamic_chose (hc : c.Coherent)
    (hroom : c.iOutputBuffer.length + 2 ≤ EMaxOutputBufferSize) {n : Nat} (hn : n < 256)
    (hbase : IsBase (dynamicWindowBase n)) :
    ∃ octets c', c.selectDynamic n = .ok c' ∧ Chose (.dynamic n) c octets c' := by
  unfold selectDynamic
  cases hfind : (finRange 8).find? fun i =>
      dynamicWindowBase n = c.state.iDynamicWindow i with
  | some i =>
      have hi : dynamicWindowBase n = c.state.iDynamicWindow i := by
        have hfound := find?_some hfind
        exact of_decide_eq_true hfound
      dsimp only
      rw [hfind]
      dsimp only
      by_cases hmode : c.state.iUnicodeMode = true
      · rw [if_pos hmode, writeByte_then _ _ (by omega)]
        refine ⟨_, _, rfl, wrote_activate hc _ i hbase, le_succ 1, ⟨rfl, rfl⟩, ?_⟩
        rw [activate_found hi]
        exact leads_tag (cons_ne_nil _ _) (unicode_change hmode i)
      have hsingle := Bool.eq_false_iff.mpr hmode
      rw [if_neg hmode]
      by_cases hindex : i = c.iDynamicWindowIndex
      · rw [if_neg (not_not.mpr hindex)]
        have hput : c.put [] = c := by
          simp [put]
        have hwrote := wrote_activate hc [] i hbase
        have hsame := activate_found hi []
        rw [hput] at hwrote hsame
        refine ⟨_, _, rfl, hwrote, Nat.zero_le 2, ⟨rfl, rfl⟩, ?_⟩
        rw [hsame, hindex, ← hc.active, ← hsingle]
        exact leads_nil
      · rw [if_pos hindex, writeByte_then _ _ (by omega)]
        refine ⟨_, _, rfl, wrote_activate hc _ i hbase, le_succ 1, ⟨rfl, rfl⟩, ?_⟩
        rw [activate_found hi, ← hsingle]
        exact leads_tag (cons_ne_nil _ _) (single_change hsingle i)
  | none =>
      dsimp only
      rw [hfind]
      dsimp only
      by_cases hmode : c.state.iUnicodeMode = true
      · rw [if_pos hmode, ← bind_assoc, writeByte_pair _ _ hroom]
        refine ⟨_, _, rfl, wrote_activate hc _ 4 hbase, Nat.le_refl 2, ⟨rfl, rfl⟩, ?_⟩
        exact leads_tag (cons_ne_nil _ _) (unicode_define hmode hn)
      · rw [if_neg hmode, ← bind_assoc, writeByte_pair _ _ hroom]
        refine ⟨_, _, rfl, wrote_activate hc _ 4 hbase, Nat.le_refl 2, ⟨rfl, rfl⟩, ?_⟩
        exact leads_tag (cons_ne_nil _ _) (single_define (Bool.eq_false_iff.mpr hmode) hn)

theorem selectTreatment_chose (hc : c.Coherent)
    (hroom : c.iOutputBuffer.length + 2 ≤ EMaxOutputBufferSize) (u : UInt16) :
    ∃ octets c', c.selectTreatment (actionOf u).iTreatment = .ok c' ∧
      Chose (actionOf u).iTreatment c octets c' := by
  unfold selectTreatment
  rcases ofCode_cases u.toNat_lt with ⟨-, htreatment⟩ | ⟨-, htreatment⟩ |
    ⟨n, hn, htreatment⟩ | ⟨-, -, htreatment⟩
  · rw [htreatment]
    dsimp only
    by_cases hmode : c.state.iUnicodeMode = true
    · rw [if_pos hmode, writeByte_then _ _ (by omega)]
      refine ⟨_, _, rfl, wrote_setUnicodeMode hc _ false, le_succ 1, rfl, ?_⟩
      have hread := unicode_change hmode c.iDynamicWindowIndex
      rw [← hc.active] at hread
      exact leads_tag (cons_ne_nil _ _) hread
    · rw [if_neg hmode]
      exact ⟨_, _, rfl, .refl hc, Nat.zero_le 2, Bool.eq_false_iff.mpr hmode, leads_nil⟩
  · rw [htreatment]
    exact ⟨_, _, rfl, .refl hc, Nat.zero_le 2, trivial, leads_nil⟩
  · rw [htreatment]
    obtain ⟨hlt, -, hbase⟩ := dynamicWindowOffsetIndex_base u.toNat_lt hn
    exact selectDynamic_chose hc hroom hlt hbase
  · rw [htreatment]
    dsimp only
    by_cases hmode : c.state.iUnicodeMode = true
    · rw [if_pos hmode]
      exact ⟨_, _, rfl, .refl hc, Nat.zero_le 2, hmode, leads_nil⟩
    · rw [if_neg hmode, writeByte_then _ _ (by omega)]
      refine ⟨_, _, rfl, wrote_setUnicodeMode hc _ true, le_succ 1, rfl, ?_⟩
      exact leads_tag (cons_ne_nil _ _)
        (single_unicodeMode (Bool.eq_false_iff.mpr hmode))

/-! ### A turn of `writeRunL` -/

/-- The octets of characters that are written as they are. -/
def octetsOfAll (c : TUnicodeCompressor) (us : Text) : Bytes :=
  us.flatMap fun u => c.octetsOf (actionOf u)

theorem octetsOfAll_length {most : Nat} (h : ∀ u ∈ us, (c.octetsOf (actionOf u)).length ≤ most) :
    (c.octetsOfAll us).length ≤ us.length * most := by
  induction us with
  | nil => exact Nat.zero_le _
  | cons u us ih =>
      have hu := h u mem_cons_self
      have hus := ih fun v hv => h v (mem_cons_of_mem u hv)
      unfold octetsOfAll at hus ⊢
      rw [flatMap_cons, length_append, length_cons, succ_mul]
      omega

theorem octetsOfAll_expands (c : TUnicodeCompressor) (us : Text) :
    Expands c.state (c.octetsOfAll us) c.state us := by
  induction us with
  | nil => exact .nil
  | cons u us ih => exact (octetsOf_expands c u).append ih

theorem writeCharacters_put
    (hroom : c.iOutputBuffer.length + (c.octetsOfAll us).length ≤ EMaxOutputBufferSize) :
    writeCharacters (us.map actionOf) c = .ok (c.put (c.octetsOfAll us)) := by
  induction us generalizing c with
  | nil => simp [writeCharacters, octetsOfAll, put]
  | cons u us ih =>
      have hall : c.octetsOfAll (u :: us) = c.octetsOf (actionOf u) ++ c.octetsOfAll us := rfl
      rw [hall, length_append] at hroom
      rw [map_cons, writeCharacters, writeCharacter_put (by omega), hall, ← put_put]
      refine ih (c := c.put (c.octetsOf (actionOf u))) ?_
      show (c.iOutputBuffer ++ c.octetsOf (actionOf u)).length + (c.octetsOfAll us).length ≤ _
      rw [length_append]
      omega

/-- The characters that pass, and those that are left. -/
theorem passThrough_put (hroom : c.iOutputBuffer.length + us.length * 3 ≤ EMaxOutputBufferSize) :
    ∃ done rest, us = done ++ rest ∧
      passThrough (us.map actionOf) c =
        .ok ((c.put (c.octetsOfAll done)).setInput (rest.map actionOf)) := by
  induction us generalizing c with
  | nil => exact ⟨[], [], rfl, by simp [passThrough, octetsOfAll, put]⟩
  | cons u us ih =>
      rw [map_cons, passThrough]
      by_cases hpasses : c.passes (actionOf u) = true
      · have hoctets := octetsOf_length c (actionOf u)
        rw [length_cons, succ_mul] at hroom
        have hroom' : (c.put (c.octetsOf (actionOf u))).iOutputBuffer.length + us.length * 3 ≤
            EMaxOutputBufferSize := by
          show (c.iOutputBuffer ++ c.octetsOf (actionOf u)).length + us.length * 3 ≤ _
          rw [length_append]
          omega
        obtain ⟨done, rest, hus, hdone⟩ := ih hroom'
        refine ⟨u :: done, rest, by rw [hus, cons_append], ?_⟩
        rw [if_pos hpasses, writeCharacter_put (by omega)]
        rw [put_put] at hdone
        exact hdone
      · refine ⟨[], u :: us, rfl, ?_⟩
        rw [if_neg hpasses]
        simp [octetsOfAll, put]

theorem runBehind_split (treatment : Treatment) (us : Text) :
    ∃ run rest, us = run ++ rest ∧
      runBehind treatment (us.map actionOf) = run.map actionOf ∧
      ∀ u ∈ run, (actionOf u).iTreatment = treatment := by
  refine ⟨us.takeWhile fun u => (actionOf u).iTreatment = treatment,
    us.dropWhile fun u => (actionOf u).iTreatment = treatment,
    (takeWhile_append_dropWhile ..).symm, ?_, ?_⟩
  · unfold runBehind
    rw [takeWhile_map]
    rfl
  · intro u hu
    have htaken := mem_takeWhile_imp hu
    exact of_decide_eq_true htaken

/-- A run takes its characters out of the buffer, with three octets for each of them at most. -/
theorem writeRun_spec (hc : c.Coherent) (u : UInt16) (us : Text)
    (hroom : c.iOutputBuffer.length + (us.length + 1) * 3 ≤ EMaxOutputBufferSize) :
    ∃ run rest octets c', us = run ++ rest ∧
      c.writeRun (actionOf u) (us.map actionOf) = .ok c' ∧
      Wrote c octets c' ∧ octets.length ≤ (run.length + 1) * 3 ∧
      c'.iInputBuffer = rest.map actionOf ∧ Expands c.state octets c'.state (u :: run) := by
  obtain ⟨run, rest, rfl, hrun, hsame⟩ := runBehind_split (actionOf u).iTreatment us
  have hrest : ((run ++ rest).map actionOf).drop (run.map actionOf).length =
      rest.map actionOf := by
    rw [map_append, drop_left' rfl]
  rw [length_append] at hroom
  unfold writeRun
  dsimp only
  rw [hrun, hrest, ← map_cons]
  by_cases hnil : run = []
  · subst hnil
    have hoctets : (c.octetsOfAll [u]).length ≤ [u].length * 3 :=
      octetsOfAll_length fun v _ => octetsOf_length c (actionOf v)
    rw [length_singleton] at hoctets
    have hwrite : writeCharacters ([u].map actionOf) c = .ok (c.put (c.octetsOfAll [u])) :=
      writeCharacters_put (by omega)
    refine ⟨[], rest, c.octetsOfAll [u], (c.put (c.octetsOfAll [u])).setInput (rest.map actionOf),
      rfl, ?_, ⟨rfl, rfl, hc.active, hc.windows⟩, by simpa using hoctets, rfl,
      octetsOfAll_expands c [u]⟩
    rw [if_pos (map_nil)]
    show (writeCharacters ([u].map actionOf) c >>= _) = _
    rw [hwrite]
    rfl
  · have hpos := length_pos_iff.mpr hnil
    obtain ⟨tag, chosen, hchoose, hchose⟩ := selectTreatment_chose hc (by omega) u
    have hall : ∀ v ∈ u :: run, (actionOf v).iTreatment = (actionOf u).iTreatment := by
      intro v hv
      rcases mem_cons.mp hv with hvu | hvrun
      · rw [hvu]
      · exact hsame v hvrun
    have hoctets : (chosen.octetsOfAll (u :: run)).length ≤ (u :: run).length * 2 :=
      octetsOfAll_length fun v hv => octetsOf_selected hchose.wrote.coherent
        (by rw [hall v hv]; exact hchose.selected)
    rw [length_cons] at hoctets
    have hfew := hchose.few
    have hbuffer : chosen.iOutputBuffer.length = c.iOutputBuffer.length + tag.length := by
      rw [hchose.wrote.output, length_append]
    have hwrite : writeCharacters ((u :: run).map actionOf) chosen =
        .ok (chosen.put (chosen.octetsOfAll (u :: run))) :=
      writeCharacters_put (by omega)
    have hput := wrote_put hchose.wrote.coherent (chosen.octetsOfAll (u :: run))
    refine ⟨run, rest, tag ++ chosen.octetsOfAll (u :: run),
      (chosen.put (chosen.octetsOfAll (u :: run))).setInput (rest.map actionOf), rfl, ?_, ?_, ?_,
      rfl, hchose.leads _ _ _ (cons_ne_nil u run) (octetsOfAll_expands chosen (u :: run))⟩
    · rw [if_neg (by simpa using hnil), hchoose]
      show (writeCharacters ((u :: run).map actionOf) chosen >>= _) = _
      rw [hwrite]
      rfl
    · have hwrote := hchose.wrote.trans hput
      exact ⟨hwrote.output, hwrote.stream, hwrote.coherent.active, hwrote.coherent.windows⟩
    · rw [length_append]
      omega

/-- What is left after the characters that pass. -/
theorem writeRest_spec (hc : c.Coherent) (hinput : c.iInputBuffer = us.map actionOf)
    (hroom : c.iOutputBuffer.length + us.length * 3 ≤ EMaxOutputBufferSize) :
    ∃ run rest octets c', us = run ++ rest ∧ (us ≠ [] → run ≠ []) ∧ c.writeRest = .ok c' ∧
      Wrote c octets c' ∧ octets.length ≤ run.length * 3 ∧
      c'.iInputBuffer = rest.map actionOf ∧ Expands c.state octets c'.state run := by
  unfold writeRest
  rw [hinput]
  cases us with
  | nil =>
      exact ⟨[], [], [], c, rfl, fun h => h, rfl, .refl hc, Nat.le_refl 0, hinput, .nil⟩
  | cons u us =>
      obtain ⟨run, rest, octets, c', rfl, hwrite, hwrote, hlength, hleft, hexpands⟩ :=
        writeRun_spec hc u us hroom
      exact ⟨u :: run, rest, octets, c', rfl, fun _ => cons_ne_nil u run, hwrite, hwrote,
        hlength, hleft, hexpands⟩

/-- A turn with an empty output buffer behind it and before it. -/
structure Turn (c : TUnicodeCompressor) (us : Text) (octets : Bytes) (c' : TUnicodeCompressor) :
    Prop where
  coherent : c'.Coherent
  empty : c'.iOutputBuffer = []
  stream : c'.stream = c.stream ++ octets
  few : octets.length ≤ us.length * 3
  expands : Expands c.state octets c'.state us

/-- A turn takes one character out of the buffer at least. -/
theorem writeRunL_turn (hc : c.Coherent) (hempty : c.iOutputBuffer = [])
    (hinput : c.iInputBuffer = us.map actionOf) (hus : us ≠ [])
    (hfour : us.length ≤ EMaxInputBufferSize) :
    ∃ done rest octets c', us = done ++ rest ∧ done ≠ [] ∧ c.writeRunL = .ok c' ∧
      c'.iInputBuffer = rest.map actionOf ∧ Turn c done octets c' := by
  have hroom : c.iOutputBuffer.length + us.length * 3 ≤ EMaxOutputBufferSize := by
    rw [hempty, length_nil, Nat.zero_add]
    exact Nat.mul_le_mul_right 3 hfour
  unfold writeRunL
  by_cases hmode : c.state.iUnicodeMode = true
  · obtain ⟨run, rest, octets, c', hsplit, hrun, hwrite, hwrote, hlength, hleft, hexpands⟩ :=
      writeRest_spec hc hinput hroom
    refine ⟨run, rest, octets, c'.flushOutputBufferL, hsplit, hrun hus, ?_, hleft, ?_⟩
    · rw [if_pos hmode]
      show (c.writeRest >>= fun c => pure c.flushOutputBufferL) = _
      rw [hwrite]
      rfl
    · refine ⟨⟨hwrote.coherent.active, hwrote.coherent.windows⟩, rfl, ?_, hlength, hexpands⟩
      show c'.stream ++ c'.iOutputBuffer = _
      rw [hwrote.stream, hwrote.output, hempty, nil_append]
  · obtain ⟨passed, left, rfl, hpass⟩ := passThrough_put hroom
    have hpassed : (c.octetsOfAll passed).length ≤ passed.length * 3 :=
      octetsOfAll_length fun v _ => octetsOf_length c (actionOf v)
    have hmiddle : ((c.put (c.octetsOfAll passed)).setInput (left.map actionOf)).Coherent :=
      ⟨hc.active, hc.windows⟩
    have hbuffer : ((c.put (c.octetsOfAll passed)).setInput
        (left.map actionOf)).iOutputBuffer = c.octetsOfAll passed := by
      show c.iOutputBuffer ++ c.octetsOfAll passed = _
      rw [hempty, nil_append]
    rw [length_append, hempty, length_nil] at hroom
    have hleftRoom : ((c.put (c.octetsOfAll passed)).setInput
        (left.map actionOf)).iOutputBuffer.length + left.length * 3 ≤ EMaxOutputBufferSize := by
      rw [hbuffer]
      omega
    obtain ⟨run, rest, octets, c', hsplit, hrun, hwrite, hwrote, hlength, hleft, hexpands⟩ :=
      writeRest_spec hmiddle rfl hleftRoom
    refine ⟨passed ++ run, rest, c.octetsOfAll passed ++ octets, c'.flushOutputBufferL,
      by rw [hsplit, List.append_assoc], ?_, ?_, hleft, ?_⟩
    · intro hnil
      obtain ⟨hpassedNil, hrunNil⟩ := append_eq_nil_iff.mp hnil
      rw [hpassedNil, nil_append] at hus
      exact hrun hus hrunNil
    · rw [if_neg hmode, hinput]
      show (passThrough _ c >>= fun c => c.writeRest >>= fun c => pure c.flushOutputBufferL) = _
      rw [hpass]
      show (((c.put (c.octetsOfAll passed)).setInput (left.map actionOf)).writeRest >>= _) = _
      rw [hwrite]
      rfl
    · refine ⟨⟨hwrote.coherent.active, hwrote.coherent.windows⟩, rfl, ?_, ?_,
        (octetsOfAll_expands c passed).append hexpands⟩
      · show c'.stream ++ c'.iOutputBuffer = _
        rw [hwrote.stream, hwrote.output, hbuffer]
        rfl
      · rw [length_append, length_append]
        omega

/-! ### The whole input -/

/-- A compressor that has read characters: some of them are in the stream, and fewer than four
wait. -/
structure HasRead (c : TUnicodeCompressor) (done waiting : Text) : Prop where
  coherent : c.Coherent
  empty : c.iOutputBuffer = []
  input : c.iInputBuffer = waiting.map actionOf
  few : c.stream.length ≤ done.length * 3
  expands : Expands TUnicodeCompressionState.initial c.stream c.state done

theorem initial_hasRead : HasRead initial [] [] where
  coherent := by
    refine ⟨rfl, ?_⟩
    have hall : ∀ i : Fin 8, 0x80 ≤ iDynamicWindowDefault.getD i 0 ∧
        iDynamicWindowDefault.getD i 0 + 0x80 ≤ 0x10000 := by decide
    exact hall
  empty := rfl
  input := rfl
  few := Nat.le_refl 0
  expands := .nil

theorem HasRead.turn {c' : TUnicodeCompressor} {before rest : Text} {octets : Bytes}
    (h : c.HasRead before waiting) (hturn : Turn c done octets c')
    (hinput : c'.iInputBuffer = rest.map actionOf) : c'.HasRead (before ++ done) rest where
  coherent := hturn.coherent
  empty := hturn.empty
  input := hinput
  few := by
    have hbefore := h.few
    have hdone := hturn.few
    rw [hturn.stream, length_append, length_append]
    omega
  expands := by
    rw [hturn.stream]
    exact h.expands.append hturn.expands

/-- Another character goes into the buffer, and when that is full some leave it. -/
theorem readAction_hasRead (h : c.HasRead done waiting)
    (hfew : waiting.length < EMaxInputBufferSize) (u : UInt16) :
    ∃ done' waiting' c', done ++ waiting ++ [u] = done' ++ waiting' ∧
      waiting'.length < EMaxInputBufferSize ∧
      (if (c.readAction u).iInputBuffer.length = EMaxInputBufferSize then
        (c.readAction u).writeRunL
      else .ok (c.readAction u)) = .ok c' ∧ c'.HasRead done' waiting' := by
  have hinput : (c.readAction u).iInputBuffer = (waiting ++ [u]).map actionOf := by
    show c.iInputBuffer ++ [TAction.ofCode u.toNat] = _
    rw [h.input, map_append]
    rfl
  have hread : (c.readAction u).HasRead done (waiting ++ [u]) :=
    ⟨⟨h.coherent.active, h.coherent.windows⟩, h.empty, hinput, h.few, h.expands⟩
  have hlength : (c.readAction u).iInputBuffer.length = waiting.length + 1 := by
    rw [hinput, length_map, length_append, length_singleton]
  rw [hlength]
  by_cases hfull : waiting.length + 1 = EMaxInputBufferSize
  · rw [if_pos hfull]
    obtain ⟨left, rest, octets, c', hsplit, hleft, hwrite, hrest, hturn⟩ :=
      writeRunL_turn hread.coherent hread.empty hinput (by simp)
        (by rw [length_append, length_singleton, hfull])
    have hpos := length_pos_iff.mpr hleft
    have hall := congrArg List.length hsplit
    rw [length_append, length_append, length_singleton] at hall
    refine ⟨done ++ left, rest, c', by rw [List.append_assoc, hsplit, List.append_assoc],
      by omega, hwrite, hread.turn hturn hrest⟩
  · rw [if_neg hfull]
    refine ⟨done, waiting ++ [u], _, by rw [List.append_assoc], ?_, rfl, hread⟩
    rw [length_append, length_singleton]
    omega

theorem compressInput_hasRead (h : c.HasRead done waiting)
    (hfew : waiting.length < EMaxInputBufferSize) :
    ∃ done' waiting' c', done ++ waiting ++ us = done' ++ waiting' ∧
      waiting'.length < EMaxInputBufferSize ∧ compressInput us c = .ok c' ∧
      c'.HasRead done' waiting' := by
  induction us generalizing c done waiting with
  | nil => exact ⟨done, waiting, c, append_nil _, hfew, rfl, h⟩
  | cons u us ih =>
      obtain ⟨done₁, waiting₁, c₁, hall₁, hfew₁, hread₁, h₁⟩ := readAction_hasRead h hfew u
      obtain ⟨done₂, waiting₂, c₂, hall₂, hfew₂, hread₂, h₂⟩ := ih h₁ hfew₁
      refine ⟨done₂, waiting₂, c₂, ?_, hfew₂, ?_, h₂⟩
      · rw [← hall₂, ← hall₁]
        simp
      · rw [compressInput]
        dsimp only
        by_cases hfull : (c.readAction u).iInputBuffer.length = EMaxInputBufferSize
        · rw [if_pos hfull] at hread₁ ⊢
          rw [hread₁]
          exact hread₂
        · rw [if_neg hfull] at hread₁ ⊢
          rw [Except.ok.inj hread₁]
          exact hread₂

/-- The characters that wait go to the stream. -/
theorem flushInputBufferL_hasRead {turns : Nat} (h : c.HasRead done waiting)
    (hturns : waiting.length ≤ turns) (hfew : waiting.length ≤ EMaxInputBufferSize) :
    ∃ c', flushInputBufferL turns c = .ok c' ∧ c'.HasRead (done ++ waiting) [] := by
  induction turns generalizing c done waiting with
  | zero =>
      have hnil := length_eq_zero_iff.mp (le_zero.mp hturns)
      subst hnil
      refine ⟨c, rfl, ?_⟩
      rw [append_nil]
      exact h
  | succ turns ih =>
      rw [flushInputBufferL, h.input]
      by_cases hnil : waiting = []
      · subst hnil
        refine ⟨c, if_pos map_nil, ?_⟩
        rw [append_nil]
        exact h
      · obtain ⟨left, rest, octets, c₁, rfl, hleft, hwrite, hrest, hturn⟩ :=
          writeRunL_turn h.coherent h.empty h.input hnil hfew
        have hpos := length_pos_iff.mpr hleft
        rw [length_append] at hturns hfew
        obtain ⟨c₂, hflush, h₂⟩ := ih (h.turn hturn hrest) (by omega) (by omega)
        refine ⟨c₂, ?_, by rw [← List.append_assoc]; exact h₂⟩
        rw [if_neg (by simpa using hnil), hwrite]
        exact hflush

/-- The compressor ends, with three octets a character at most, and the expander that is asked
for so many characters reads them and nothing more. -/
theorem compressL_back (aInput : Text) :
    ∃ octets, compressL aInput = .ok octets ∧ octets.length ≤ aInput.length * 3 ∧
      ReadsBack (expandL aInput.length) octets aInput := by
  obtain ⟨done, waiting, c, hall, hfew, hcompress, h⟩ :=
    compressInput_hasRead initial_hasRead (zero_lt_succ 3)
  have hall : aInput = done ++ waiting := hall
  obtain ⟨c', hflush, h'⟩ := flushInputBufferL_hasRead h (Nat.le_of_lt hfew) (Nat.le_of_lt hfew)
  rw [← hall] at h'
  refine ⟨c'.stream, ?_, h'.few, fun rest => ?_⟩
  · unfold compressL
    rw [hcompress]
    show (flushInputBufferL EMaxInputBufferSize c >>= fun c => pure c.stream) = _
    rw [hflush]
    rfl
  · have hloop := h'.expands.loop
      (show c'.stream.length < (c'.stream ++ rest).length + 1 by
        rw [length_append]; omega) []
    rw [length_nil, Nat.zero_add, nil_append] at hloop
    exact hloop rest

end TUnicodeCompressor

end OsSecurity

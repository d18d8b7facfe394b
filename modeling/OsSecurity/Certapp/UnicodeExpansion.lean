/-
The expander of the Standard Compression Scheme for Unicode, `us_ucmp.cpp`.

`handleByteL` reads an octet and what belongs to it, and has a character, two, or none for a
tag.  The loop stops at the number of characters it is asked for, not at the end of the octets.
`Expands` is a number of turns of the loop: octets, the characters they stand for, and the
windows and the mode afterwards.  Before each of the turns there is a character still to come,
so that the loop takes them all and no more.
-/
import OsSecurity.Certapp.UnicodeCompression
import Mathlib.Tactic.FinCases

namespace OsSecurity

open List Nat TUnicodeCompressionState UInt8

variable {u : UInt16}

namespace TUnicodeExpander

open RReadStream

/-- A character and more of it than 16 bits hold. -/
def writeChar32 (aChar : Nat) : Leaving Text :=
  if aChar ≤ 0xFFFF then .ok [UInt16.ofNat aChar]
  else if aChar ≤ 0x10FFFF then
    .ok [UInt16.ofNat (0xD800 + ((aChar - 0x10000) >>> 10)),
      UInt16.ofNat (0xDC00 + ((aChar - 0x10000) &&& 0x03FF))]
  else panic

/-- What a turn has made of the state, and its characters. -/
abbrev Handled := TUnicodeCompressionState × Text

def quoteUnicodeL (s : TUnicodeCompressionState) : RReadStream Handled := do
  let hi ← readUint8L
  let lo ← readUint8L
  return (s, [UInt16.ofNat ((hi.toNat <<< 8) ||| lo.toNat)])

/-- Single-byte mode, with the window active. -/
def activate (aIndex : Fin 8) (base : Nat) (s : TUnicodeCompressionState) :
    TUnicodeCompressionState where
  iUnicodeMode := false
  iActiveWindowBase := base
  iDynamicWindow := Function.update s.iDynamicWindow aIndex base

def defineWindowL (aIndex : Fin 8) (s : TUnicodeCompressionState) : RReadStream Handled := do
  let window ← readUint8L
  return (activate aIndex (dynamicWindowBase window.toNat) s, [])

def defineExpansionWindowL (s : TUnicodeCompressionState) : RReadStream Handled := do
  let hi ← readUint8L
  let lo ← readUint8L
  let base := 0x10000 + 0x80 * ((hi.toNat &&& 0x1F) * 0x100 + lo.toNat)
  return (activate (Fin.ofNat 8 (hi.toNat >>> 5)) base s, [])

/-- Quote from a window. -/
def quoteFromWindowL (window : Fin 8) (s : TUnicodeCompressionState) : RReadStream Handled := do
  let byte ← readUint8L
  let units ← liftM (writeChar32
    (if byte.toNat ≤ 0x7F then byte.toNat + iStaticWindow.getD window 0
      else byte.toNat + s.iDynamicWindow window - 0x80))
  return (s, units)

def handleSByteL (aByte : Nat) (s : TUnicodeCompressionState) : RReadStream Handled :=
  if encodeAsIs aByte then return (s, [UInt16.ofNat aByte])
  else if 0x80 ≤ aByte then do
    let units ← liftM (writeChar32 (s.iActiveWindowBase + aByte - 0x80))
    return (s, units)
  else if aByte = SQU then quoteUnicodeL s
  else if aByte = SCU then return ({ s with iUnicodeMode := true }, [])
  else if SQ0 ≤ aByte ∧ aByte ≤ SQ0 + 7 then quoteFromWindowL (Fin.ofNat 8 (aByte - SQ0)) s
  else if SC0 ≤ aByte ∧ aByte ≤ SC0 + 7 then
    return ({ s with iActiveWindowBase := s.iDynamicWindow (Fin.ofNat 8 (aByte - SC0)) }, [])
  else if SD0 ≤ aByte ∧ aByte ≤ SD0 + 7 then defineWindowL (Fin.ofNat 8 (aByte - SD0)) s
  else if aByte = SDX then defineExpansionWindowL s
  else leaves KErrCorrupt

def handleUByteL (aByte : Nat) (s : TUnicodeCompressionState) : RReadStream Handled :=
  if aByte ≤ 0xDF ∨ 0xF3 ≤ aByte then do
    let lo ← readUint8L
    return (s, [UInt16.ofNat ((aByte <<< 8) ||| lo.toNat)])
  else if aByte = UQU then quoteUnicodeL s
  else if UC0 ≤ aByte ∧ aByte ≤ UC0 + 7 then
    return ({ s with
      iUnicodeMode := false
      iActiveWindowBase := s.iDynamicWindow (Fin.ofNat 8 (aByte - UC0)) }, [])
  else if UD0 ≤ aByte ∧ aByte ≤ UD0 + 7 then defineWindowL (Fin.ofNat 8 (aByte - UD0)) s
  else if aByte = UDX then defineExpansionWindowL s
  else leaves KErrCorrupt

def handleByteL (s : TUnicodeCompressionState) : RReadStream Handled := do
  let byte ← readUint8L
  if s.iUnicodeMode then handleUByteL byte.toNat s else handleSByteL byte.toNat s

def EMaxExpanderOutput : Nat := 2

/-- The expander: its state, the characters not yet in the sink, and those in it. -/
structure Expander where
  state : TUnicodeCompressionState
  iOutputBuffer : Text
  sink : Text

/-- Characters go to the sink while there are fewer in it than asked for. -/
def flushOutputBufferL (iMaxUnicodeWords : Nat) (e : Expander) : Expander :=
  let room := iMaxUnicodeWords - e.sink.length
  { e with
    iOutputBuffer := e.iOutputBuffer.drop room
    sink := e.sink ++ e.iOutputBuffer.take room }

/-- More characters than the buffer has room for would be a panic. -/
def bufferOutput (e : Expander) (handled : Handled) : Leaving Expander :=
  if EMaxExpanderOutput < (e.iOutputBuffer ++ handled.2).length then panic
  else .ok { e with
    state := handled.1
    iOutputBuffer := e.iOutputBuffer ++ handled.2 }

/-- A turn of the loop. -/
def turn (iMaxUnicodeWords : Nat) (e : Expander) : RReadStream Expander := do
  let handled ← handleByteL e.state
  let e ← liftM (bufferOutput e handled)
  return flushOutputBufferL iMaxUnicodeWords e

/-- The loop.  Each turn takes an octet, so the fuel is more than there are octets. -/
def expandLoop (iMaxUnicodeWords : Nat) : Nat → Expander → RReadStream Text
  | 0, _ => fun _ => .error .undefined
  | fuel + 1, e =>
    if e.sink.length + e.iOutputBuffer.length < iMaxUnicodeWords then do
      let e ← turn iMaxUnicodeWords e
      expandLoop iMaxUnicodeWords fuel e
    else return e.sink

/-- `ExpandL` from a stream, for so many characters. -/
def expandL (aMaxOutputWords : Nat) : RReadStream Text := fun input =>
  expandLoop aMaxOutputWords (input.length + 1) ⟨TUnicodeCompressionState.initial, [], []⟩ input

/-! ### What a turn reads -/

variable {s s' s'' : TUnicodeCompressionState} {b b' : Bytes} {us us' : Text}

theorem handleByteL_single {byte : UInt8} {handled : Handled} (hmode : s.iUnicodeMode = false)
    (h : ReadsBack (handleSByteL byte.toNat s) b handled) :
    ReadsBack (handleByteL s) (byte :: b) handled := by
  refine (readUint8L_back byte).bind ?_
  rw [hmode, if_neg Bool.false_ne_true]
  exact h

theorem handleByteL_unicode {byte : UInt8} {handled : Handled} (hmode : s.iUnicodeMode = true)
    (h : ReadsBack (handleUByteL byte.toNat s) b handled) :
    ReadsBack (handleByteL s) (byte :: b) handled := by
  refine (readUint8L_back byte).bind ?_
  rw [hmode, if_pos rfl]
  exact h

theorem writeChar32_unit (u : UInt16) : writeChar32 u.toNat = .ok [u] := by
  have hlt := u.toNat_lt
  unfold writeChar32
  rw [if_pos (by omega), UInt16.ofNat_toNat]

/-- Both halves of a character. -/
theorem join_halves {aCode : Nat} (h : aCode < 0x10000) :
    (((ofNat ((aCode >>> 8) &&& 0xFF)).toNat <<< 8) |||
      (ofNat (aCode &&& 0xFF)).toNat) = aCode := by
  have hhi : (ofNat ((aCode >>> 8) &&& 0xFF)).toNat = aCode / 256 := by
    rw [and_two_pow_sub_one_eq_mod _ 8, shiftRight_eq_div_pow, toNat_ofNat']
    omega
  have hlo : (ofNat (aCode &&& 0xFF)).toNat = aCode % 256 := by
    rw [and_two_pow_sub_one_eq_mod _ 8, toNat_ofNat']
    omega
  rw [hhi, hlo, shiftLeft_eq, Nat.mul_comm, ← two_pow_add_eq_or_of_lt (by omega)]
  omega

/-- A character, high half first. -/
def halves (aCode : Nat) : Bytes :=
  [ofNat ((aCode >>> 8) &&& 0xFF), ofNat (aCode &&& 0xFF)]

theorem quoteUnicodeL_back (u : UInt16) :
    ReadsBack (quoteUnicodeL s) (halves u.toNat) (s, [u]) := by
  refine (readUint8L_back _).bind ((readUint8L_back _).map ?_)
  rw [join_halves u.toNat_lt, UInt16.ofNat_toNat]

theorem defineWindowL_back (i : Fin 8) {aOffsetIndex : Nat} (h : aOffsetIndex < 256) :
    ReadsBack (defineWindowL i s) [ofNat aOffsetIndex]
      (activate i (dynamicWindowBase aOffsetIndex) s, []) := by
  refine (readUint8L_back _).map ?_
  rw [toNat_ofNat', mod_eq_of_lt h]

theorem writeChar32_back (u : UInt16) :
    ReadsBack (do
      let units ← (liftM (writeChar32 u.toNat) : RReadStream Text)
      return (s, units)) [] (s, [u]) :=
  (ReadsBack.lift (writeChar32_unit u)).map rfl

theorem handleSByteL_quoteFromWindow (i : Fin 8) :
    handleSByteL (ofNat (SQ0 + i)).toNat s = quoteFromWindowL i s := by
  fin_cases i <;> rfl

theorem handleSByteL_change (i : Fin 8) :
    handleSByteL (ofNat (SC0 + i)).toNat s =
      return ({ s with iActiveWindowBase := s.iDynamicWindow i }, []) := by
  fin_cases i <;> rfl

theorem handleUByteL_change (i : Fin 8) :
    handleUByteL (ofNat (UC0 + i)).toNat s =
      return ({ s with
        iUnicodeMode := false
        iActiveWindowBase := s.iDynamicWindow i }, []) := by
  fin_cases i <;> rfl

section SingleByteMode

variable (hmode : s.iUnicodeMode = false)
include hmode

theorem single_asIs (h : encodeAsIs u.toNat = true) :
    ReadsBack (handleByteL s) [ofNat u.toNat] (s, [u]) := by
  apply handleByteL_single hmode
  have hbyte : (ofNat u.toNat).toNat = u.toNat := by
    simp only [encodeAsIs, decide_eq_true_eq] at h
    rw [toNat_ofNat']
    omega
  rw [hbyte]
  unfold handleSByteL
  rw [if_pos h, UInt16.ofNat_toNat]
  exact ReadsBack.pure _

theorem single_active (h : inWindow s.iActiveWindowBase u.toNat = true) :
    ReadsBack (handleByteL s) [ofNat (u.toNat - s.iActiveWindowBase + 0x80)] (s, [u]) := by
  apply handleByteL_single hmode
  simp only [inWindow, decide_eq_true_eq] at h
  have hbyte : (ofNat (u.toNat - s.iActiveWindowBase + 0x80)).toNat =
      u.toNat - s.iActiveWindowBase + 0x80 := by
    rw [toNat_ofNat']
    omega
  have hasIs : ¬encodeAsIs (u.toNat - s.iActiveWindowBase + 0x80) = true := by
    simp only [encodeAsIs, decide_eq_true_eq]
    omega
  have hcode : s.iActiveWindowBase + (u.toNat - s.iActiveWindowBase + 0x80) - 0x80 =
      u.toNat := by omega
  unfold handleSByteL
  rw [hbyte, if_neg hasIs, if_pos (by omega), hcode]
  exact writeChar32_back u

theorem single_quote (u : UInt16) :
    ReadsBack (handleByteL s) (ofNat SQU :: halves u.toNat) (s, [u]) :=
  handleByteL_single hmode (quoteUnicodeL_back u)

theorem single_unicodeMode :
    ReadsBack (handleByteL s) [ofNat SCU] ({ s with iUnicodeMode := true }, []) :=
  handleByteL_single hmode (ReadsBack.pure _)

theorem single_window (i : Fin 8) (h : inWindow (s.iDynamicWindow i) u.toNat = true) :
    ReadsBack (handleByteL s)
      [ofNat (SQ0 + i), ofNat (u.toNat - s.iDynamicWindow i + 0x80)] (s, [u]) := by
  apply handleByteL_single hmode
  rw [handleSByteL_quoteFromWindow]
  refine (readUint8L_back _).bind ?_
  simp only [inWindow, decide_eq_true_eq] at h
  have hbyte : (ofNat (u.toNat - s.iDynamicWindow i + 0x80)).toNat =
      u.toNat - s.iDynamicWindow i + 0x80 := by
    rw [toNat_ofNat']
    omega
  have hcode : u.toNat - s.iDynamicWindow i + 0x80 + s.iDynamicWindow i - 0x80 = u.toNat := by
    omega
  rw [hbyte, if_neg (by omega), hcode]
  exact writeChar32_back u

/-- The first of the static windows. -/
theorem single_static (h : u.toNat < 0x80) :
    ReadsBack (handleByteL s) [ofNat (SQ0 + 0), ofNat u.toNat] (s, [u]) := by
  apply handleByteL_single hmode
  refine (readUint8L_back _).bind ?_
  have hbyte : (ofNat u.toNat).toNat = u.toNat := by
    rw [toNat_ofNat']
    omega
  rw [hbyte, if_pos (by omega)]
  exact writeChar32_back u

theorem single_change (i : Fin 8) :
    ReadsBack (handleByteL s) [ofNat (SC0 + i)]
      ({ s with iActiveWindowBase := s.iDynamicWindow i }, []) := by
  apply handleByteL_single hmode
  rw [handleSByteL_change]
  exact ReadsBack.pure _

theorem single_define {aOffsetIndex : Nat} (h : aOffsetIndex < 256) :
    ReadsBack (handleByteL s) [ofNat (SD0 + 4), ofNat aOffsetIndex]
      (activate 4 (dynamicWindowBase aOffsetIndex) s, []) :=
  handleByteL_single hmode (defineWindowL_back 4 h)

end SingleByteMode

section UnicodeMode

variable (hmode : s.iUnicodeMode = true)
include hmode

theorem unicode_plain (h : ¬(0xE000 ≤ u.toNat ∧ u.toNat ≤ 0xF2FF)) :
    ReadsBack (handleByteL s) (halves u.toNat) (s, [u]) := by
  apply handleByteL_unicode hmode
  have hlt := u.toNat_lt
  have hhi : (ofNat ((u.toNat >>> 8) &&& 0xFF)).toNat = u.toNat / 256 := by
    rw [and_two_pow_sub_one_eq_mod _ 8, shiftRight_eq_div_pow, toNat_ofNat']
    omega
  unfold handleUByteL
  rw [if_pos (by omega)]
  refine (readUint8L_back _).map ?_
  rw [join_halves hlt, UInt16.ofNat_toNat]

theorem unicode_quote (u : UInt16) :
    ReadsBack (handleByteL s) (ofNat UQU :: halves u.toNat) (s, [u]) :=
  handleByteL_unicode hmode (quoteUnicodeL_back u)

theorem unicode_change (i : Fin 8) :
    ReadsBack (handleByteL s) [ofNat (UC0 + i)]
      ({ s with
        iUnicodeMode := false
        iActiveWindowBase := s.iDynamicWindow i }, []) := by
  apply handleByteL_unicode hmode
  rw [handleUByteL_change]
  exact ReadsBack.pure _

theorem unicode_define {aOffsetIndex : Nat} (h : aOffsetIndex < 256) :
    ReadsBack (handleByteL s) [ofNat (UD0 + 4), ofNat aOffsetIndex]
      (activate 4 (dynamicWindowBase aOffsetIndex) s, []) :=
  handleByteL_unicode hmode (defineWindowL_back 4 h)

end UnicodeMode

/-! ### Turns of the loop -/

/-- Octets that the loop takes, before each of which it has a character to come. -/
inductive Expands : TUnicodeCompressionState → Bytes → TUnicodeCompressionState → Text → Prop where
  | nil {s : TUnicodeCompressionState} : Expands s [] s []
  | step {s s' s'' : TUnicodeCompressionState} {b bs : Bytes} {units us : Text} (hb : b ≠ [])
      (hunits : units.length ≤ EMaxExpanderOutput) (hmore : units ++ us ≠ [])
      (hread : ReadsBack (handleByteL s) b (s', units)) (hrest : Expands s' bs s'' us) :
      Expands s (b ++ bs) s'' (units ++ us)

theorem Expands.character (hb : b ≠ []) (hread : ReadsBack (handleByteL s) b (s, [u])) :
    Expands s b s [u] := by
  have h := Expands.step hb (show [u].length ≤ EMaxExpanderOutput from le_succ 1)
    (show [u] ++ [] ≠ [] by simp) hread .nil
  rwa [append_nil, append_nil] at h

theorem Expands.tag (hb : b ≠ []) (hread : ReadsBack (handleByteL s) b (s', []))
    (hus : us ≠ []) (hrest : Expands s' b' s'' us) : Expands s (b ++ b') s'' us :=
  .step hb (Nat.zero_le _) (show [] ++ us ≠ [] from hus) hread hrest

theorem Expands.append (h : Expands s b s' us) (h' : Expands s' b' s'' us') :
    Expands s (b ++ b') s'' (us ++ us') := by
  induction h with
  | nil => exact h'
  | @step s s' s₁ b bs units us hb hunits hmore hread _ ih =>
      rw [List.append_assoc, List.append_assoc]
      refine .step hb hunits (fun hnil => hmore ?_) hread (ih h')
      rw [← List.append_assoc] at hnil
      exact (append_eq_nil_iff.mp hnil).1

/-- A turn that has room for its characters. -/
theorem turn_readsBack {units : Text} (hread : ReadsBack (handleByteL s) b (s', units))
    (hunits : units.length ≤ EMaxExpanderOutput) {max : Nat} (sink : Text)
    (hroom : sink.length + units.length ≤ max) :
    ReadsBack (turn max ⟨s, [], sink⟩) b ⟨s', [], sink ++ units⟩ := by
  have hbuffer : bufferOutput ⟨s, [], sink⟩ (s', units) = .ok ⟨s', units, sink⟩ := by
    unfold bufferOutput
    rw [nil_append, if_neg (Nat.not_lt.mpr hunits)]
  have hflush : flushOutputBufferL max ⟨s', units, sink⟩ = ⟨s', [], sink ++ units⟩ := by
    have hall : units.length ≤ max - sink.length := by omega
    simp only [flushOutputBufferL, drop_of_length_le hall, take_of_length_le hall]
  have hrest : ReadsBack (do
      let e ← (liftM (bufferOutput ⟨s, [], sink⟩ (s', units)) : RReadStream Expander)
      return flushOutputBufferL max e) [] ⟨s', [], sink ++ units⟩ := by
    exact (ReadsBack.lift hbuffer).map hflush
  have hturn : ReadsBack (turn max ⟨s, [], sink⟩) (b ++ []) _ := hread.bind hrest
  rw [append_nil] at hturn
  exact hturn

/-- The loop takes the octets and has the characters. -/
theorem Expands.loop (h : Expands s b s' us) {fuel : Nat} (hfuel : b.length < fuel)
    (sink : Text) : ReadsBack
      (expandLoop (sink.length + us.length) fuel ⟨s, [], sink⟩) b (sink ++ us) := by
  induction h generalizing fuel sink with
  | nil =>
      obtain ⟨fuel, rfl⟩ := Nat.exists_eq_add_of_le' (show 1 ≤ fuel from hfuel)
      rw [expandLoop, append_nil]
      rw [if_neg (by simp)]
      exact ReadsBack.pure sink
  | @step s s' s₁ b bs units us hb hunits hmore hread _ ih =>
      have hpos := length_pos_iff.mpr hb
      rw [length_append] at hfuel
      obtain ⟨fuel, rfl⟩ := Nat.exists_eq_add_of_le' (show 1 ≤ fuel by omega)
      have hcome := length_pos_iff.mpr hmore
      have hturn := turn_readsBack hread hunits sink
        (show sink.length + units.length ≤ sink.length + (units ++ us).length by
          rw [length_append]; omega)
      have hloop := ih (show bs.length < fuel by omega) (sink ++ units)
      rw [length_append, Nat.add_assoc, ← length_append, List.append_assoc] at hloop
      rw [expandLoop]
      rw [if_pos (by simpa using hcome)]
      exact hturn.bind hloop

/-! ### What a turn leaves -/

theorem writeChar32_defined (aChar : Nat) : writeChar32 aChar ≠ .error .undefined := by
  unfold writeChar32
  by_cases hunit : aChar ≤ 0xFFFF
  · rw [if_pos hunit]
    exact nofun
  rw [if_neg hunit]
  by_cases hpair : aChar ≤ 0x10FFFF
  · rw [if_pos hpair]
    exact nofun
  · rw [if_neg hpair]
    exact nofun

theorem quoteUnicodeL_orderly : Orderly Exit.undefined (quoteUnicodeL s) :=
  readUint8L_orderly.bind fun _ => readUint8L_orderly.bind fun _ => .pure _

theorem defineWindowL_orderly (i : Fin 8) : Orderly Exit.undefined (defineWindowL i s) :=
  readUint8L_orderly.bind fun _ => .pure _

theorem defineExpansionWindowL_orderly : Orderly Exit.undefined (defineExpansionWindowL s) :=
  readUint8L_orderly.bind fun _ => readUint8L_orderly.bind fun _ => .pure _

theorem quoteFromWindowL_orderly (i : Fin 8) : Orderly Exit.undefined (quoteFromWindowL i s) :=
  readUint8L_orderly.bind fun _ => (Orderly.lift (writeChar32_defined _)).bind fun _ => .pure _

theorem handleSByteL_orderly (aByte : Nat) : Orderly Exit.undefined (handleSByteL aByte s) := by
  unfold handleSByteL
  split
  · exact .pure _
  split
  · exact (Orderly.lift (writeChar32_defined _)).bind fun _ => .pure _
  split
  · exact quoteUnicodeL_orderly
  split
  · exact .pure _
  split
  · exact quoteFromWindowL_orderly _
  split
  · exact .pure _
  split
  · exact defineWindowL_orderly _
  split
  · exact defineExpansionWindowL_orderly
  · exact leaves_orderly KErrCorrupt

theorem handleUByteL_orderly (aByte : Nat) : Orderly Exit.undefined (handleUByteL aByte s) := by
  unfold handleUByteL
  split
  · exact readUint8L_orderly.bind fun _ => .pure _
  split
  · exact quoteUnicodeL_orderly
  split
  · exact .pure _
  split
  · exact defineWindowL_orderly _
  split
  · exact defineExpansionWindowL_orderly
  · exact leaves_orderly KErrCorrupt

/-- What follows the first octet of a turn. -/
theorem behindByte_orderly (byte : UInt8) : Orderly Exit.undefined
    (if s.iUnicodeMode then handleUByteL byte.toNat s else handleSByteL byte.toNat s) := by
  by_cases hmode : s.iUnicodeMode = true
  · rw [if_pos hmode]
    exact handleUByteL_orderly _
  · rw [if_neg hmode]
    exact handleSByteL_orderly _

theorem bufferOutput_defined (e : Expander) (handled : Handled) :
    bufferOutput e handled ≠ .error .undefined := by
  unfold bufferOutput
  split
  · exact nofun
  · exact nofun

theorem flushOutputBufferL_length {most : Nat} {e : Expander} (h : e.sink.length ≤ most) :
    (flushOutputBufferL most e).sink.length ≤ most := by
  show (e.sink ++ e.iOutputBuffer.take (most - e.sink.length)).length ≤ most
  rw [length_append, length_take]
  omega

theorem turn_orderly (most : Nat) (e : Expander) : Orderly Exit.undefined (turn most e) :=
  (readUint8L_orderly.bind behindByte_orderly).bind fun handled =>
    (Orderly.lift (bufferOutput_defined e handled)).bind fun _ => .pure _

/-- A turn takes an octet at least. -/
theorem turn_length {most : Nat} {e e' : Expander} {input rest : Bytes}
    (h : turn most e input = .ok (e', rest)) : rest.length < input.length := by
  have hassoc : turn most e = readUint8L >>= fun byte =>
      (if e.state.iUnicodeMode then handleUByteL byte.toNat e.state
        else handleSByteL byte.toNat e.state) >>= fun handled =>
      liftM (bufferOutput e handled) >>= fun e => pure (flushOutputBufferL most e) := by
    unfold turn handleByteL
    rw [bind_assoc]
  rw [hassoc] at h
  exact readUint8L_bind_lt (fun byte => (behindByte_orderly byte).bind fun handled =>
    (Orderly.lift (bufferOutput_defined e handled)).bind fun _ => .pure _) h

/-- A turn writes no more characters than were asked for. -/
theorem turn_sink {most : Nat} {e e' : Expander} (hsink : e.sink.length ≤ most)
    {input rest : Bytes} (h : turn most e input = .ok (e', rest)) : e'.sink.length ≤ most := by
  obtain ⟨handled, middle, -, hnext⟩ := Reader.bind_ok h
  obtain ⟨buffered, middle', hbuffer, hflush⟩ := Reader.bind_ok hnext
  have hbuffered : buffered.sink = e.sink := by
    have hok := Reader.lift_ok hbuffer
    unfold bufferOutput at hok
    split at hok
    · exact absurd hok nofun
    · rw [← Except.ok.inj hok]
  have he' : flushOutputBufferL most buffered = e' := congrArg Prod.fst (Except.ok.inj hflush)
  rw [← he']
  exact flushOutputBufferL_length (by rw [hbuffered]; exact hsink)

end TUnicodeExpander

end OsSecurity

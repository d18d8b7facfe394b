/-
The compressor of the Standard Compression Scheme for Unicode, `us_ucmp.cpp`.

Characters wait in a buffer of four, so that a run of them can be seen before a window or a mode
is chosen for it.  What a turn writes goes to a buffer of twelve octets first, and a thirteenth
would be a panic.  A circular buffer is the list of what is in it, and a treatment code is a
constructor.  The number of octets is not limited here, as in the calls that write to a stream.
-/
import OsSecurity.Streams
import Mathlib.Logic.Function.Basic

namespace OsSecurity

def SQ0 : Nat := 0x01
def SDX : Nat := 0x0B
def SQU : Nat := 0x0E
def SCU : Nat := 0x0F
def SC0 : Nat := 0x10
def SD0 : Nat := 0x18
def UC0 : Nat := 0xE0
def UD0 : Nat := 0xE8
def UQU : Nat := 0xF0
def UDX : Nat := 0xF1

instance neZero_windows : NeZero 8 := ⟨by decide⟩

/-- What the compressor and the expander must agree on. -/
structure TUnicodeCompressionState where
  iUnicodeMode : Bool
  iActiveWindowBase : Nat
  iDynamicWindow : Fin 8 → Nat

namespace TUnicodeCompressionState

def iStaticWindow : List Nat :=
  [0x0000, 0x0080, 0x0100, 0x0300, 0x2000, 0x2080, 0x2100, 0x3000]

def iDynamicWindowDefault : List Nat :=
  [0x0080, 0x00C0, 0x0400, 0x0600, 0x0900, 0x3040, 0x30A0, 0xFF00]

def iSpecialBase : List Nat := [0x00C0, 0x0250, 0x0370, 0x0530, 0x3040, 0x30A0, 0xFF60]

/-- `Reset` -/
def initial : TUnicodeCompressionState where
  iUnicodeMode := false
  iActiveWindowBase := 0x0080
  iDynamicWindow i := iDynamicWindowDefault.getD i 0

/-- The 128 characters from a base on. -/
def inWindow (base aCode : Nat) : Bool := base ≤ aCode ∧ aCode < base + 128

def staticWindowIndex (aCode : Nat) : Option Nat := iStaticWindow.findIdx? (inWindow · aCode)

/-- `KErrNotFound` is none. -/
def dynamicWindowOffsetIndex (aCode : Nat) : Option Nat :=
  if aCode < 0x0080 then none
  else if 0x3400 ≤ aCode ∧ aCode ≤ 0xDFFF then none
  else
    match iSpecialBase.findIdx? (inWindow · aCode) with
    | some i => some (0xF9 + i)
    | none => some ((if 0xE000 ≤ aCode then aCode - 0xAC00 else aCode) / 0x80)

def dynamicWindowBase (aOffsetIndex : Nat) : Nat :=
  if 0xF9 ≤ aOffsetIndex ∧ aOffsetIndex ≤ 0xFF then iSpecialBase.getD (aOffsetIndex - 0xF9) 0
  else if 0x01 ≤ aOffsetIndex ∧ aOffsetIndex ≤ 0x67 then aOffsetIndex * 0x80
  else if 0x68 ≤ aOffsetIndex ∧ aOffsetIndex ≤ 0xA7 then aOffsetIndex * 0x80 + 0xAC00
  else 0

def encodeAsIs (aCode : Nat) : Bool :=
  aCode = 0x0000 ∨ aCode = 0x0009 ∨ aCode = 0x000A ∨ aCode = 0x000D ∨
    0x0020 ≤ aCode ∧ aCode ≤ 0x007F

end TUnicodeCompressionState

open TUnicodeCompressionState

/-- `iTreatment` -/
inductive Treatment where
  | plainUnicode
  | plainASCII
  | dynamic (n : Nat)
  | static (n : Nat)
  deriving DecidableEq

structure TAction where
  iCode : Nat
  iTreatment : Treatment

def TAction.ofCode (aCode : Nat) : TAction where
  iCode := aCode
  iTreatment :=
    if encodeAsIs aCode then .plainASCII
    else
      match dynamicWindowOffsetIndex aCode with
      | some n => .dynamic n
      | none =>
        match staticWindowIndex aCode with
        | some n => .static n
        | none => .plainUnicode

def EMaxInputBufferSize : Nat := 4
def EMaxOutputBufferSize : Nat := EMaxInputBufferSize * 3

structure TUnicodeCompressor where
  state : TUnicodeCompressionState
  iDynamicWindowIndex : Fin 8
  iInputBuffer : List TAction
  iOutputBuffer : Bytes
  /-- What is in the stream. -/
  stream : Bytes

namespace TUnicodeCompressor

def initial : TUnicodeCompressor := ⟨TUnicodeCompressionState.initial, 0, [], [], []⟩

def writeByte (aByte : Nat) (c : TUnicodeCompressor) : Leaving TUnicodeCompressor :=
  if EMaxOutputBufferSize ≤ c.iOutputBuffer.length then panic
  else .ok { c with iOutputBuffer := c.iOutputBuffer ++ [UInt8.ofNat aByte] }

def writeUCharacter (aCode : Nat) (c : TUnicodeCompressor) : Leaving TUnicodeCompressor := do
  let c ← if 0xE000 ≤ aCode ∧ aCode ≤ 0xF2FF then c.writeByte UQU else .ok c
  let c ← c.writeByte ((aCode >>> 8) &&& 0xFF)
  c.writeByte (aCode &&& 0xFF)

/-- The first dynamic window that the character is in. -/
def windowOf (c : TUnicodeCompressor) (aCode : Nat) : Option (Fin 8) :=
  (List.finRange 8).find? fun i => inWindow (c.state.iDynamicWindow i) aCode

def writeSCharacter (aAction : TAction) (c : TUnicodeCompressor) :
    Leaving TUnicodeCompressor :=
  match aAction.iTreatment with
  | .plainASCII => c.writeByte aAction.iCode
  | .static window => do
    let c ← c.writeByte (SQ0 + window)
    c.writeByte aAction.iCode
  | _ =>
    if inWindow c.state.iActiveWindowBase aAction.iCode then
      c.writeByte (aAction.iCode - c.state.iActiveWindowBase + 0x80)
    else
      match c.windowOf aAction.iCode with
      | some i => do
        let c' ← c.writeByte (SQ0 + i)
        c'.writeByte (aAction.iCode - c.state.iDynamicWindow i + 0x80)
      | none => do
        let c ← c.writeByte SQU
        let c ← c.writeByte ((aAction.iCode >>> 8) &&& 0xFF)
        c.writeByte (aAction.iCode &&& 0xFF)

def writeCharacter (aAction : TAction) (c : TUnicodeCompressor) : Leaving TUnicodeCompressor :=
  if c.state.iUnicodeMode then c.writeUCharacter aAction.iCode else c.writeSCharacter aAction

def setUnicodeMode (iUnicodeMode : Bool) (c : TUnicodeCompressor) : TUnicodeCompressor :=
  { c with state := { c.state with iUnicodeMode := iUnicodeMode } }

/-- Single-byte mode, with the window active. -/
def activate (i : Fin 8) (base : Nat) (c : TUnicodeCompressor) : TUnicodeCompressor :=
  { c with
    state :=
      { iUnicodeMode := false
        iActiveWindowBase := base
        iDynamicWindow := Function.update c.state.iDynamicWindow i base }
    iDynamicWindowIndex := i }

/-- A window that is there is chosen, and otherwise window 4 is defined anew. -/
def selectDynamic (aTreatment : Nat) (c : TUnicodeCompressor) : Leaving TUnicodeCompressor :=
  let base := dynamicWindowBase aTreatment
  match (List.finRange 8).find? fun i => base = c.state.iDynamicWindow i with
  | some i =>
    if c.state.iUnicodeMode then do
      let c ← c.writeByte (UC0 + i)
      return c.activate i base
    else if i ≠ c.iDynamicWindowIndex then do
      let c ← c.writeByte (SC0 + i)
      return c.activate i base
    else return c.activate i base
  | none => do
    let c ← c.writeByte (if c.state.iUnicodeMode then UD0 + 4 else SD0 + 4)
    let c ← c.writeByte aTreatment
    return c.activate 4 base

def selectTreatment (aTreatment : Treatment) (c : TUnicodeCompressor) :
    Leaving TUnicodeCompressor :=
  match aTreatment with
  | .plainUnicode =>
    if c.state.iUnicodeMode then .ok c
    else do
      let c ← c.writeByte SCU
      return c.setUnicodeMode true
  | .plainASCII =>
    if c.state.iUnicodeMode then do
      let c ← c.writeByte (UC0 + c.iDynamicWindowIndex)
      return c.setUnicodeMode false
    else .ok c
  | .dynamic n => c.selectDynamic n
  | .static _ => .ok c

/-- A character that can be passed through in single-byte mode. -/
def passes (c : TUnicodeCompressor) (action : TAction) : Bool :=
  action.iTreatment = .plainASCII ∨ inWindow c.state.iActiveWindowBase action.iCode

def setInput (actions : List TAction) (c : TUnicodeCompressor) : TUnicodeCompressor :=
  { c with iInputBuffer := actions }

/-- The loop over the leading characters that can be passed through. -/
def passThrough : List TAction → TUnicodeCompressor → Leaving TUnicodeCompressor
  | [], c => .ok (c.setInput [])
  | action :: actions, c =>
    if c.passes action then do
      let c ← c.writeCharacter action
      passThrough actions c
    else .ok (c.setInput (action :: actions))

/-- The characters of a run, one after the other. -/
def writeCharacters : List TAction → TUnicodeCompressor → Leaving TUnicodeCompressor
  | [], c => .ok c
  | action :: actions, c => do
    let c ← c.writeCharacter action
    writeCharacters actions c

def flushOutputBufferL (c : TUnicodeCompressor) : TUnicodeCompressor :=
  { c with
    iOutputBuffer := []
    stream := c.stream ++ c.iOutputBuffer }

/-- The characters behind one with the treatment that have it too. -/
def runBehind (treatment : Treatment) (actions : List TAction) : List TAction :=
  actions.takeWhile fun action => action.iTreatment = treatment

/-- A run of characters that cannot be passed through.  A run of one is written as it is. -/
def writeRun (action : TAction) (actions : List TAction) (c : TUnicodeCompressor) :
    Leaving TUnicodeCompressor := do
  let run := runBehind action.iTreatment actions
  let c ← if run = [] then .ok c else c.selectTreatment action.iTreatment
  let c ← c.writeCharacters (action :: run)
  return c.setInput (actions.drop run.length)

/-- What is left after the leading characters is a run. -/
def writeRest (c : TUnicodeCompressor) : Leaving TUnicodeCompressor :=
  match c.iInputBuffer with
  | [] => .ok c
  | action :: actions => c.writeRun action actions

def writeRunL (c : TUnicodeCompressor) : Leaving TUnicodeCompressor := do
  let c ← if c.state.iUnicodeMode then .ok c else passThrough c.iInputBuffer c
  let c ← c.writeRest
  return c.flushOutputBufferL

def readAction (x : UInt16) (c : TUnicodeCompressor) : TUnicodeCompressor :=
  c.setInput (c.iInputBuffer ++ [TAction.ofCode x.toNat])

/-- The loop over the input. -/
def compressInput : Text → TUnicodeCompressor → Leaving TUnicodeCompressor
  | [], c => .ok c
  | x :: input, c => do
    let c := c.readAction x
    let c ← if c.iInputBuffer.length = EMaxInputBufferSize then c.writeRunL else .ok c
    compressInput input c

/-- The loop goes on while there is input in the buffer; a turn takes one character at least. -/
def flushInputBufferL : Nat → TUnicodeCompressor → Leaving TUnicodeCompressor
  | 0, c => .ok c
  | turns + 1, c =>
    if c.iInputBuffer = [] then .ok c
    else do
      let c ← c.writeRunL
      flushInputBufferL turns c

/-- `CompressL` to a stream. -/
def compressL (aInput : Text) : Leaving Bytes := do
  let c ← compressInput aInput initial
  let c ← flushInputBufferL EMaxInputBufferSize c
  return c.stream

end TUnicodeCompressor

end OsSecurity

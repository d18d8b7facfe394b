/-
What the calls of a block cipher driver leave behind, however they end.

`SymmetricCipher` says what a call gives when it returns.  A call that leaves can have changed
the cipher and written to its output by then: `SetIvL` empties `iIv` before it looks at the
length, and `DoProcessFinalEncryptL` has processed the whole blocks and emptied its store when
it finds out that the last block is not full.  `Ended` keeps the cipher and the output with the
exit, and `outputs` is what a client sees of a row of calls, some of which may leave; a panic
is the end of it.

Behind their checks `ProcessCtrL` and the branch for whole blocks do not leave at all, so
`ended` has nothing to keep there.
-/
import OsSecurity.Crypto.CtrMode
import OsSecurity.Crypto.PaddingSchemes

namespace OsSecurity

/-- `UnPadL`, with what is in `aOutput` afterwards however it ends. -/
def CPadding.unPad (self : CPadding) (aInput : Bytes) (aOutput : TDes8) : TDes8 × Leaving Unit :=
  if self = .PKCS7 then CPaddingPKCS7.unPad aInput aOutput
  else
    match self.unPadL aInput aOutput with
    | .ok aOutput => (aOutput, .ok ())
    | .error e => (aOutput, .error e)

namespace CSymmetricBlockCipherImpl

/-- The cipher and the output when a call has ended. -/
structure Ended where
  cipher : CSymmetricBlockCipherImpl
  aOutput : TDes8
  exit : Leaving Unit

/-- The end of what does not leave. -/
def ended (self : CSymmetricBlockCipherImpl) (aOutput : TDes8)
    (r : Leaving (CSymmetricBlockCipherImpl × TDes8)) : Ended :=
  match r with
  | .ok (next, aOutput) => ⟨next, aOutput, .ok ()⟩
  | .error e => ⟨self, aOutput, .error e⟩

/-! ### The calls -/

/-- `SetIvL`.  `DoSetIvL` allocates `iIv` and empties it first. -/
def setIvCall (self : CSymmetricBlockCipherImpl) (aIv : Bytes) (aOutput : TDes8) : Ended :=
  if self.iOperationMode ≠ .KOperationModeCBC ∧ self.iOperationMode ≠ .KOperationModeCTR then
    ⟨self, aOutput, leave KErrNotSupported⟩
  else if aIv.length ≠ self.iBlockBytes then
    ⟨{ self with iIv := some [] }, aOutput, leave KErrArgument⟩
  else ⟨reset { self with iIv := some aIv, iRegister := aIv }, aOutput, .ok ()⟩

/-- `Reset`, which reads `iIv[0]` of a vector that has been allocated. -/
def resetCall (self : CSymmetricBlockCipherImpl) (aOutput : TDes8) : Ended :=
  if self.iOperationMode = .KOperationModeCBC ∧ self.iIv = some [] then ⟨self, aOutput, panic⟩
  else ⟨reset self, aOutput, .ok ()⟩

def processCall (prim : BlockPrimitive) (self : CSymmetricBlockCipherImpl) (aInput : Bytes)
    (aOutput : TDes8) : Ended :=
  if (self.iOperationMode = .KOperationModeCBC ∨ self.iOperationMode = .KOperationModeCTR) ∧
      self.iIv = none then ⟨self, aOutput, leave KErrNotSupported⟩
  else if self.maxOutputLength aInput.length > aOutput.maxLength then
    ⟨self, aOutput, leave KErrOverflow⟩
  else if self.iOperationMode = .KOperationModeCTR then
    ended self aOutput (self.processCtrL prim aInput aOutput)
  else ended self aOutput (self.processBufferedL prim aInput aOutput)

/-- The block that the padding has made, if it has made one.  The store is empty by then. -/
def appendPaddingCall (prim : BlockPrimitive) (self : CSymmetricBlockCipherImpl) (aOutput : TDes8)
    (iPaddingBlock : Bytes) (outputStartIndex : Nat) : Ended :=
  if iPaddingBlock.length > 0 then
    if (aOutput.length - outputStartIndex + iPaddingBlock.length) % self.iBlockBytes ≠ 0 then
      ⟨{ self with iInputStore := [], iPaddingBlock := iPaddingBlock }, aOutput,
        leave KErrInvalidPadding⟩
    else ended self aOutput (self.appendPaddingL prim aOutput iPaddingBlock outputStartIndex)
  else ⟨{ self with iPaddingBlock := iPaddingBlock }, aOutput, .ok ()⟩

def finalEncryptCall (prim : BlockPrimitive) (self : CSymmetricBlockCipherImpl) (aInput : Bytes)
    (aOutput : TDes8) : Ended :=
  if self.maxFinalOutputLength aInput.length > (aOutput.maxLength : Int) - aOutput.length then
    ⟨self, aOutput, leave KErrOverflow⟩
  else
    let processed := self.processCall prim aInput aOutput
    match processed.exit with
    | .error _ => processed
    | .ok _ =>
      match processed.cipher.iPadding.padL processed.cipher.iBlockBytes
        processed.cipher.iInputStore
        ⟨processed.cipher.iPaddingBlock, processed.cipher.iBlockBytes⟩ with
      | .error e => ⟨processed.cipher, processed.aOutput, .error e⟩
      | .ok iPaddingBlock =>
        processed.cipher.appendPaddingCall prim processed.aOutput iPaddingBlock.data
          aOutput.length

/-- What has been decrypted loses its padding, and the cipher its store. -/
def unPadCall (self : CSymmetricBlockCipherImpl) (decrypted : Bytes) (aOutput : TDes8) : Ended :=
  let unPadded := self.iPadding.unPad decrypted aOutput
  match unPadded.2 with
  | .error e => ⟨self, unPadded.1, .error e⟩
  | .ok _ => ⟨{ self with iPaddingBlock := [], iInputStore := [] }, unPadded.1, .ok ()⟩

def finalDecryptCall (prim : BlockPrimitive) (self : CSymmetricBlockCipherImpl) (aInput : Bytes)
    (aOutput : TDes8) : Ended :=
  if self.maxFinalOutputLength aInput.length > (aOutput.maxLength : Int) - aOutput.length then
    ⟨self, aOutput, leave KErrOverflow⟩
  else if (aInput.length + self.iInputStore.length) &&& (self.iBlockBytes - 1) ≠ 0 then
    ⟨self, aOutput, leave KErrArgument⟩
  else if aInput.length > self.iBlockBytes then
    let processed := self.processCall prim aInput
      ⟨[], TDes8.heapCapacity (self.maxFinalOutputLength aInput.length).toNat⟩
    match processed.exit with
    | .error e => ⟨processed.cipher, aOutput, .error e⟩
    | .ok _ => processed.cipher.unPadCall processed.aOutput.data aOutput
  else
    match (⟨self.iInputStore, self.iBlockBytes⟩ : TDes8).append aInput with
    | .error e => ⟨self, aOutput, .error e⟩
    | .ok iInputStore =>
      let (next, data) :=
        self.transformAt (modeDecrypt prim self.iOperationMode) iInputStore.data 0 1
      let decrypted := data.take iInputStore.length
      { next with iInputStore := decrypted }.unPadCall decrypted aOutput

def processFinalCall (prim : BlockPrimitive) (self : CSymmetricBlockCipherImpl) (aInput : Bytes)
    (aOutput : TDes8) : Ended :=
  if self.iOperationMode = .KOperationModeCTR then self.processCall prim aInput aOutput
  else if self.iOperationMode = .KOperationModeCBC ∧ self.iIv = none then
    ⟨self, aOutput, leave KErrNotSupported⟩
  else
    match self.iCryptoMode with
    | .KCryptoModeEncrypt => self.finalEncryptCall prim aInput aOutput
    | .KCryptoModeDecrypt => self.finalDecryptCall prim aInput aOutput

theorem unPad_result (self : CPadding) (aInput : Bytes) (aOutput : TDes8) :
    (self.unPad aInput aOutput).2.map (fun _ => (self.unPad aInput aOutput).1) =
      self.unPadL aInput aOutput := by
  unfold CPadding.unPad
  by_cases hself : self = .PKCS7
  · rw [if_pos hself, hself, CPaddingPKCS7.unPad_eq]
  · rw [if_neg hself]
    cases self.unPadL aInput aOutput <;> rfl

/-! ### Rows of calls -/

inductive Operation where
  | setIv (aIv : Bytes)
  | reset
  | process (call : Call)
  | processFinal (call : Call)

def perform (prim : BlockPrimitive) (self : CSymmetricBlockCipherImpl) : Operation → Ended
  | .setIv aIv => self.setIvCall aIv ⟨[], 0⟩
  | .reset => self.resetCall ⟨[], 0⟩
  | .process call => self.processCall prim call.aInput call.aOutput
  | .processFinal call => self.processFinalCall prim call.aInput call.aOutput

/-- What a client sees of operations: the outputs, and how they end. -/
def outputs (prim : BlockPrimitive) :
    CSymmetricBlockCipherImpl → List Operation → List (TDes8 × Leaving Unit)
  | _, [] => []
  | self, op :: ops =>
    let r := self.perform prim op
    (r.aOutput, r.exit) ::
      match r.exit with
      | .error .panic => []
      | _ => outputs prim r.cipher ops

/-- The cipher after operations, unless one panics. -/
def after (prim : BlockPrimitive) :
    CSymmetricBlockCipherImpl → List Operation → Option CSymmetricBlockCipherImpl
  | self, [] => some self
  | self, op :: ops =>
    let r := self.perform prim op
    match r.exit with
    | .error .panic => none
    | _ => after prim r.cipher ops

end CSymmetricBlockCipherImpl

end OsSecurity

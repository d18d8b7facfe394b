/-
The block cipher driver: `softwarecrypto/symmetriccipherimpl.cpp`.

A block cipher hands its driver one function, the transformation of a block under the key,
and the driver makes a mode of operation of it.  In ECB and CBC mode `ProcessL` works on
whole blocks: what does not fill one is kept in `iInputStore` until the next call, and
`ProcessFinalL` pads it, or takes the padding off what has been decrypted.  In CTR mode the
cipher makes key stream, of which `iCtrUnusedKeystream` keeps what the last call has left.

`iRegister` is the block that a mode carries from one block to the next: the last
ciphertext, or the counter.

A descriptor on the heap, such as the buffer for decrypted text, can hold what its cell can;
`TDes8.heapCapacity` says how cells are sized.  The stores of the driver itself are allocated
for one block exactly.
-/
import OsSecurity.Crypto.Padding
import OsSecurity.Library.Blockwise

namespace OsSecurity

inductive CryptoMode where
  | KCryptoModeEncrypt
  | KCryptoModeDecrypt
  deriving DecidableEq

inductive OperationMode where
  | KOperationModeNone
  | KOperationModeECB
  | KOperationModeCBC
  | KOperationModeCTR
  deriving DecidableEq

/-- A block cipher under its key. -/
structure BlockPrimitive where
  encrypt : Bytes → Bytes
  decrypt : Bytes → Bytes

def cryptoLog2 (aNum : Nat) : Nat :=
  match aNum with
  | 1 => 0
  | 2 => 1
  | 4 => 2
  | 8 => 3
  | 16 => 4
  | 32 => 5
  | 64 => 6
  | 128 => 7
  | _ => 0

def xorBytes (a b : Bytes) : Bytes := List.zipWith (· ^^^ ·) a b

/-- The counter, least significant octet first. -/
def incrementLittle : Bytes → Bytes
  | [] => []
  | b :: bs => if b + 1 ≠ 0 then (b + 1) :: bs else 0 :: incrementLittle bs

/-- `++` on the big-endian counter, from its last octet on. -/
def incrementCounter (iRegister : Bytes) : Bytes := (incrementLittle iRegister.reverse).reverse

structure CSymmetricBlockCipherImpl where
  iBlockBytes : Nat
  iCryptoMode : CryptoMode
  iOperationMode : OperationMode
  iPadding : CPadding
  /-- `none` while `iIv.MaxLength()` is zero -/
  iIv : Option Bytes
  iInputStore : Bytes
  iPaddingBlock : Bytes
  iRegister : Bytes
  iCtrUnusedKeystream : Bytes

namespace CSymmetricBlockCipherImpl

/-! ### Setting up -/

/-- After `ConstructL`, with whatever `iRegister` is allocated over. -/
def constructL (aBlockBytes : Nat) (aCryptoMode : CryptoMode) (aOperationMode : OperationMode)
    (aPadding : CPadding) (memory : Bytes) : CSymmetricBlockCipherImpl :=
  { iBlockBytes := aBlockBytes
    iCryptoMode := if aOperationMode = .KOperationModeCTR then .KCryptoModeEncrypt else aCryptoMode
    iOperationMode := aOperationMode
    iPadding := aPadding
    iIv := none
    iInputStore := []
    iPaddingBlock := []
    iRegister := memory
    iCtrUnusedKeystream := [] }

def reset (self : CSymmetricBlockCipherImpl) : CSymmetricBlockCipherImpl :=
  { self with
    iInputStore := []
    iPaddingBlock := []
    iCtrUnusedKeystream := []
    iRegister :=
      if self.iOperationMode = .KOperationModeCBC then self.iIv.getD self.iRegister
      else self.iRegister }

/-- In CTR mode the cipher only encrypts. -/
def setCryptoModeL (self : CSymmetricBlockCipherImpl) (aCryptoMode : CryptoMode) :
    CSymmetricBlockCipherImpl :=
  if aCryptoMode = .KCryptoModeDecrypt ∧ self.iOperationMode = .KOperationModeCTR then reset self
  else reset { self with iCryptoMode := aCryptoMode }

def setOperationModeL (self : CSymmetricBlockCipherImpl) (aOperationMode : OperationMode) :
    CSymmetricBlockCipherImpl :=
  let self := if aOperationMode = .KOperationModeCTR then setCryptoModeL self .KCryptoModeEncrypt
    else self
  reset { self with iOperationMode := aOperationMode }

def setIvL (self : CSymmetricBlockCipherImpl) (aIv : Bytes) : Leaving CSymmetricBlockCipherImpl :=
  if self.iOperationMode ≠ .KOperationModeCBC ∧ self.iOperationMode ≠ .KOperationModeCTR then
    leave KErrNotSupported
  else if aIv.length ≠ self.iBlockBytes then leave KErrArgument
  else .ok (reset { self with iIv := some aIv, iRegister := aIv })

/-! ### Blocks -/

/-- One block of `TransformEncrypt`, between `ModeEncryptStart` and `ModeEncryptEnd`. -/
def modeEncrypt (prim : BlockPrimitive) (mode : OperationMode) (iRegister aBuffer : Bytes) :
    Bytes × Bytes :=
  match mode with
  | .KOperationModeCBC =>
    let ciphertext := prim.encrypt (xorBytes aBuffer iRegister)
    (ciphertext, ciphertext)
  | .KOperationModeCTR =>
    (incrementCounter iRegister, xorBytes (prim.encrypt iRegister) aBuffer)
  | _ => (iRegister, prim.encrypt aBuffer)

/-- One block of `TransformDecrypt`, between `ModeDecryptStart` and `ModeDecryptEnd`. -/
def modeDecrypt (prim : BlockPrimitive) (mode : OperationMode) (iRegister aBuffer : Bytes) :
    Bytes × Bytes :=
  match mode with
  | .KOperationModeCBC => (aBuffer, xorBytes (prim.decrypt aBuffer) iRegister)
  | _ => (iRegister, prim.decrypt aBuffer)

/-- One block of `Transform`. -/
def modeTransform (prim : BlockPrimitive) (self : CSymmetricBlockCipherImpl) :
    Bytes → Bytes → Bytes × Bytes :=
  match self.iCryptoMode with
  | .KCryptoModeEncrypt => modeEncrypt prim self.iOperationMode
  | .KCryptoModeDecrypt => modeDecrypt prim self.iOperationMode

/-- `aNumBlocks` blocks of a descriptor are transformed in place, from `aStart` on. -/
def transformAt (step : Bytes → Bytes → Bytes × Bytes) (self : CSymmetricBlockCipherImpl)
    (aBuffer : Bytes) (aStart aNumBlocks : Nat) : CSymmetricBlockCipherImpl × Bytes :=
  let transformed := Blockwise.run step self.iBlockBytes aNumBlocks self.iRegister
    (aBuffer.drop aStart)
  ({ self with iRegister := transformed.1 },
    aBuffer.take aStart ++ transformed.2 ++ aBuffer.drop (aStart + aNumBlocks * self.iBlockBytes))

/-! ### Lengths -/

def maxOutputLength (self : CSymmetricBlockCipherImpl) (aInputLength : Nat) : Nat :=
  if self.iOperationMode = .KOperationModeCTR then aInputLength
  else
    let rem := (aInputLength + self.iInputStore.length) &&& (self.iBlockBytes - 1)
    aInputLength + self.iInputStore.length - rem

def maxFinalOutputLength (self : CSymmetricBlockCipherImpl) (aInputLength : Nat) : Int :=
  if self.iOperationMode = .KOperationModeCTR then aInputLength
  else
    match self.iCryptoMode with
    | .KCryptoModeEncrypt =>
      self.iPadding.maxPaddedLength self.iBlockBytes (self.iInputStore.length + aInputLength)
    | .KCryptoModeDecrypt =>
      self.iPadding.maxUnPaddedLength (aInputLength + self.iInputStore.length)

/-! ### Processing -/

/-- The key stream left over from the last call, on as much of the input as it reaches. -/
def applyUnusedKeystream (self : CSymmetricBlockCipherImpl) (aInput : Bytes) (aOutput : TDes8) :
    Leaving (CSymmetricBlockCipherImpl × TDes8) :=
  let amountToXor := min self.iCtrUnusedKeystream.length aInput.length
  if amountToXor > 0 then do
    let aOutput ← aOutput.append
      (xorBytes (aInput.take amountToXor) (self.iCtrUnusedKeystream.take amountToXor))
    return ({ self with iCtrUnusedKeystream := self.iCtrUnusedKeystream.drop amountToXor }, aOutput)
  else .ok (self, aOutput)

/-- The last block of the input, filled up with zeros, which leave the key stream. -/
def makeKeystream (prim : BlockPrimitive) (self : CSymmetricBlockCipherImpl) (remaining : Bytes) :
    CSymmetricBlockCipherImpl × Bytes :=
  let block := remaining ++ List.replicate (self.iBlockBytes - remaining.length) 0
  let (self, block) := self.transformAt (self.modeTransform prim) block 0 1
  ({ self with iCtrUnusedKeystream := block.drop remaining.length }, block.take remaining.length)

/-- Input that the left over key stream does not reach. -/
def encodeCtrL (prim : BlockPrimitive) (self : CSymmetricBlockCipherImpl) (aInput : Bytes)
    (aOutput : TDes8) (amountToXor : Nat) : Leaving (CSymmetricBlockCipherImpl × TDes8) := do
  let amountToEncode := aInput.length - amountToXor
  let wholeBlocks := amountToEncode / self.iBlockBytes
  let wholeBlocksSize := wholeBlocks * self.iBlockBytes
  let outputLength := aOutput.length
  let aOutput ← aOutput.append ((aInput.drop amountToXor).take wholeBlocksSize)
  let (self, data) := self.transformAt (self.modeTransform prim) aOutput.data outputLength
    wholeBlocks
  let (self, encoded) := self.makeKeystream prim
    (aInput.drop (aInput.length - (amountToEncode - wholeBlocksSize)))
  let aOutput ← ({ aOutput with data := data } : TDes8).append encoded
  return (self, aOutput)

def processCtrL (prim : BlockPrimitive) (self : CSymmetricBlockCipherImpl) (aInput : Bytes)
    (aOutput : TDes8) : Leaving (CSymmetricBlockCipherImpl × TDes8) := do
  let amountToXor := min self.iCtrUnusedKeystream.length aInput.length
  let (self, aOutput) ← self.applyUnusedKeystream aInput aOutput
  if self.iCtrUnusedKeystream.length = 0 ∧ aInput.length - amountToXor > 0 then
    self.encodeCtrL prim aInput aOutput amountToXor
  else return (self, aOutput)

/-- The whole blocks of the stored input and the input, where there are any. -/
def processBlocksL (prim : BlockPrimitive) (self : CSymmetricBlockCipherImpl) (aInput : Bytes)
    (aOutput : TDes8) (wholeBlocks wholeBlocksSize : Nat) :
    Leaving (CSymmetricBlockCipherImpl × TDes8) :=
  if wholeBlocks ≠ 0 then do
    let outputLength := aOutput.length
    let aOutput ← aOutput.append self.iInputStore
    let aOutput ← aOutput.append (← TDes.left aInput (wholeBlocksSize - self.iInputStore.length))
    let (self, data) := transformAt (self.modeTransform prim) { self with iInputStore := [] }
      aOutput.data outputLength wholeBlocks
    return (self, { aOutput with data := data })
  else .ok (self, aOutput)

/-- The input that does not fill a block. -/
def storeRemainingL (self : CSymmetricBlockCipherImpl) (aInput : Bytes) (remainingBytes : Nat) :
    Leaving CSymmetricBlockCipherImpl :=
  if remainingBytes > 0 then do
    let iInputStore ← (⟨self.iInputStore, self.iBlockBytes⟩ : TDes8).append
      (← TDes.right aInput remainingBytes)
    return { self with iInputStore := iInputStore.data }
  else .ok self

/-- Input in whole blocks, outside CTR mode. -/
def processBufferedL (prim : BlockPrimitive) (self : CSymmetricBlockCipherImpl) (aInput : Bytes)
    (aOutput : TDes8) : Leaving (CSymmetricBlockCipherImpl × TDes8) := do
  let blockSizeLog := cryptoLog2 self.iBlockBytes
  let wholeBlocks := (aInput.length + self.iInputStore.length) >>> blockSizeLog
  let wholeBlocksSize := wholeBlocks <<< blockSizeLog
  let remainingBytes := aInput.length + self.iInputStore.length - wholeBlocksSize
  let (self, aOutput) ← self.processBlocksL prim aInput aOutput wholeBlocks wholeBlocksSize
  let self ← self.storeRemainingL aInput remainingBytes
  return (self, aOutput)

def processL (prim : BlockPrimitive) (self : CSymmetricBlockCipherImpl) (aInput : Bytes)
    (aOutput : TDes8) : Leaving (CSymmetricBlockCipherImpl × TDes8) :=
  if (self.iOperationMode = .KOperationModeCBC ∨ self.iOperationMode = .KOperationModeCTR) ∧
      self.iIv = none then leave KErrNotSupported
  else if self.maxOutputLength aInput.length > aOutput.maxLength then leave KErrOverflow
  else if self.iOperationMode = .KOperationModeCTR then self.processCtrL prim aInput aOutput
  else self.processBufferedL prim aInput aOutput

/-- The block that the padding has made, if it has made one. -/
def appendPaddingL (prim : BlockPrimitive) (self : CSymmetricBlockCipherImpl) (aOutput : TDes8)
    (iPaddingBlock : Bytes) (outputStartIndex : Nat) :
    Leaving (CSymmetricBlockCipherImpl × TDes8) :=
  if iPaddingBlock.length > 0 then
    if (aOutput.length - outputStartIndex + iPaddingBlock.length) % self.iBlockBytes ≠ 0 then
      leave KErrInvalidPadding
    else do
      let outputStartIndex := aOutput.length
      let aOutput ← aOutput.append iPaddingBlock
      let (self, data) := transformAt (modeEncrypt prim self.iOperationMode)
        { self with iInputStore := [], iPaddingBlock := [] } aOutput.data outputStartIndex 1
      return (self, { aOutput with data := data })
  else .ok ({ self with iPaddingBlock := iPaddingBlock }, aOutput)

def doProcessFinalEncryptL (prim : BlockPrimitive) (self : CSymmetricBlockCipherImpl)
    (aInput : Bytes) (aOutput : TDes8) : Leaving (CSymmetricBlockCipherImpl × TDes8) :=
  if self.maxFinalOutputLength aInput.length > (aOutput.maxLength : Int) - aOutput.length then
    leave KErrOverflow
  else do
    let outputStartIndex := aOutput.length
    let (self, aOutput) ← self.processL prim aInput aOutput
    let iPaddingBlock ← self.iPadding.padL self.iBlockBytes self.iInputStore
      ⟨self.iPaddingBlock, self.iBlockBytes⟩
    self.appendPaddingL prim aOutput iPaddingBlock.data outputStartIndex

/-- The last blocks decrypted, into a buffer of their own or in the store. -/
def decryptLastL (prim : BlockPrimitive) (self : CSymmetricBlockCipherImpl) (aInput : Bytes) :
    Leaving (CSymmetricBlockCipherImpl × Bytes) :=
  if aInput.length > self.iBlockBytes then do
    let processBuf : TDes8 :=
      ⟨[], TDes8.heapCapacity (self.maxFinalOutputLength aInput.length).toNat⟩
    let (self, processPtr) ← self.processL prim aInput processBuf
    return (self, processPtr.data)
  else do
    let iInputStore ← (⟨self.iInputStore, self.iBlockBytes⟩ : TDes8).append aInput
    let (self, data) := self.transformAt (modeDecrypt prim self.iOperationMode) iInputStore.data 0 1
    return (self, data.take iInputStore.length)

def doProcessFinalDecryptL (prim : BlockPrimitive) (self : CSymmetricBlockCipherImpl)
    (aInput : Bytes) (aOutput : TDes8) : Leaving (CSymmetricBlockCipherImpl × TDes8) :=
  if self.maxFinalOutputLength aInput.length > (aOutput.maxLength : Int) - aOutput.length then
    leave KErrOverflow
  else if (aInput.length + self.iInputStore.length) &&& (self.iBlockBytes - 1) ≠ 0 then
    leave KErrArgument
  else do
    let (self, decrypted) ← self.decryptLastL prim aInput
    let aOutput ← self.iPadding.unPadL decrypted aOutput
    return ({ self with iPaddingBlock := [], iInputStore := [] }, aOutput)

def processFinalL (prim : BlockPrimitive) (self : CSymmetricBlockCipherImpl) (aInput : Bytes)
    (aOutput : TDes8) : Leaving (CSymmetricBlockCipherImpl × TDes8) :=
  if self.iOperationMode = .KOperationModeCTR then self.processL prim aInput aOutput
  else if self.iOperationMode = .KOperationModeCBC ∧ self.iIv = none then leave KErrNotSupported
  else
    match self.iCryptoMode with
    | .KCryptoModeEncrypt => self.doProcessFinalEncryptL prim aInput aOutput
    | .KCryptoModeDecrypt => self.doProcessFinalDecryptL prim aInput aOutput

/-! ### Messages in pieces -/

/-- A call of `ProcessL` or `ProcessFinalL`. -/
structure Call where
  aInput : Bytes
  aOutput : TDes8

/-- What the calls are given, one after the other. -/
def message (calls : List Call) : Bytes := calls.flatMap Call.aInput

/-- Calls of `ProcessL`, and all that they append to their outputs. -/
def processAllL (prim : BlockPrimitive) :
    CSymmetricBlockCipherImpl → List Call → Leaving (CSymmetricBlockCipherImpl × Bytes)
  | self, [] => .ok (self, [])
  | self, call :: calls => do
    let (next, aOutput) ← self.processL prim call.aInput call.aOutput
    let (last, data) ← processAllL prim next calls
    return (last, aOutput.data.drop call.aOutput.length ++ data)

/-- The same with a call of `ProcessFinalL` in the end. -/
def processMessageL (prim : BlockPrimitive) (self : CSymmetricBlockCipherImpl) (calls : List Call)
    (final : Call) : Leaving (CSymmetricBlockCipherImpl × Bytes) := do
  let (next, data) ← processAllL prim self calls
  let (last, aOutput) ← next.processFinalL prim final.aInput final.aOutput
  return (last, data ++ aOutput.data.drop final.aOutput.length)

/-- Every call leaves as much room in its output as `MaxOutputLength` says, and the last one as
much as `MaxFinalOutputLength` says. -/
def HasRoom (prim : BlockPrimitive) (final : Call) : CSymmetricBlockCipherImpl → List Call → Prop
  | self, [] =>
    self.maxFinalOutputLength final.aInput.length ≤
      (final.aOutput.maxLength : Int) - final.aOutput.length
  | self, call :: calls =>
    call.aOutput.length + self.maxOutputLength call.aInput.length ≤ call.aOutput.maxLength ∧
      ∀ next aOutput, self.processL prim call.aInput call.aOutput = .ok (next, aOutput) →
        HasRoom prim final next calls

@[simp] theorem message_nil : message [] = [] := rfl

@[simp] theorem message_cons (call : Call) (calls : List Call) :
    message (call :: calls) = call.aInput ++ message calls := rfl

end CSymmetricBlockCipherImpl

end OsSecurity

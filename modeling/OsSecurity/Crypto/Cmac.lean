/-
The keyed hash of `cmacimpl.cpp`: AES-XCBC-MAC-96, and AES-XCBC-PRF-128 for keys of any length.

The blocks of a message go through AES in CBC mode, and the last of them is treated
differently; as nobody knows which one is the last before there is no more to come, a full block
stays in `iData` until the next octet or the end.  `iE` is what CBC mode carries behind the
blocks that have gone through: the vector that the cipher is set to behind a code.

`Reset` cannot leave.  When `SetIvL` does, for want of memory, `iDelayedReset` keeps the error,
and it is for the next call to set the vector.  `MacL` does that; `UpdateL` and `FinalL` set it
only when there has been no error.
-/
import OsSecurity.Crypto.SymmetricCipher

namespace OsSecurity

def KMacBlockSize : Nat := 16

def KAesXcbcMac96Size : Nat := 12

def K1Constant : Bytes := List.replicate KMacBlockSize 0x01

def K2Constant : Bytes := List.replicate KMacBlockSize 0x02

def K3Constant : Bytes := List.replicate KMacBlockSize 0x03

/-- AES: blocks under a key. -/
structure Aes where
  encrypt : Bytes → Bytes → Bytes
  decrypt : Bytes → Bytes → Bytes
  /-- it makes a block of a block -/
  length_encrypt : ∀ key block : Bytes, block.length = KMacBlockSize →
    (encrypt key block).length = KMacBlockSize

/-- `CRijndaelImpl::IsValidKeyLength` -/
def isValidKeyLength (aKeyBytes : Nat) : Prop := aKeyBytes = 16 ∨ aKeyBytes = 24 ∨ aKeyBytes = 32

instance (aKeyBytes : Nat) : Decidable (isValidKeyLength aKeyBytes) := by
  unfold isValidKeyLength
  infer_instance

/-- An AES cipher: its driver and its key. -/
structure CSymmetricCipher where
  impl : CSymmetricBlockCipherImpl
  iKey : Bytes

namespace CSymmetricCipher

variable (aes : Aes)

def prim (self : CSymmetricCipher) : BlockPrimitive :=
  ⟨aes.encrypt self.iKey, aes.decrypt self.iKey⟩

def setKeyL (self : CSymmetricCipher) (aKey : Bytes) : Leaving CSymmetricCipher :=
  if isValidKeyLength aKey.length then .ok ⟨self.impl.reset, aKey⟩ else leave KErrNotSupported

/-- `CreateSymmetricCipherL` for AES that encrypts in CBC mode without padding, over whatever
its register is allocated. -/
def createL (aKey memory : Bytes) : Leaving CSymmetricCipher :=
  if isValidKeyLength aKey.length then
    .ok ⟨.constructL 16 .KCryptoModeEncrypt .KOperationModeCBC .none memory, aKey⟩
  else leave KErrNotSupported

def setIvL (self : CSymmetricCipher) (aIv : Bytes) : Leaving CSymmetricCipher := do
  let impl ← self.impl.setIvL aIv
  return { self with impl := impl }

def processL (self : CSymmetricCipher) (aInput : Bytes) (aOutput : TDes8) :
    Leaving (CSymmetricCipher × TDes8) := do
  let (impl, aOutput) ← self.impl.processL (self.prim aes) aInput aOutput
  return ({ self with impl := impl }, aOutput)

def processFinalL (self : CSymmetricCipher) (aInput : Bytes) (aOutput : TDes8) :
    Leaving (CSymmetricCipher × TDes8) := do
  let (impl, aOutput) ← self.impl.processFinalL (self.prim aes) aInput aOutput
  return ({ self with impl := impl }, aOutput)

end CSymmetricCipher

inductive MacAlgorithm where
  | KAlgorithmCipherAesXcbcMac96
  | KAlgorithmCipherAesXcbcPrf128
  deriving DecidableEq

structure CCMacImpl where
  iImplementationUid : MacAlgorithm
  iKey : Bytes
  iCipherImpl : CSymmetricCipher
  iKey1 : Bytes
  iKey2 : Bytes
  iKey3 : Bytes
  iE : Bytes
  iData : Bytes
  iCurrentTotalLength : Nat
  iDelayedReset : Int

namespace CCMacImpl

variable (aes : Aes)

/-- A block's output, into a buffer that is empty. -/
def emptyBlock : TDes8 := ⟨[], KMacBlockSize⟩

def xorKeyWithData (o : CCMacImpl) (aKey : Bytes) : Bytes := xorBytes o.iData aKey

def padMessage (o : CCMacImpl) : CCMacImpl :=
  { o with
    iData :=
      if o.iCurrentTotalLength < KMacBlockSize then
        o.iData.take o.iCurrentTotalLength ++ 0x80 ::
          List.replicate (KMacBlockSize - o.iCurrentTotalLength - 1) 0
      else o.iData }

def setIvL (o : CCMacImpl) : Leaving CCMacImpl := do
  let iCipherImpl ← o.iCipherImpl.setIvL o.iE
  return { o with iCipherImpl := iCipherImpl }

/-- `Reset`; without `memory`, `SetIvL` leaves where it allocates. -/
def reset (o : CCMacImpl) (memory : Bool) : Leaving CCMacImpl :=
  let o := { o with iE := List.replicate KMacBlockSize 0, iCurrentTotalLength := 0 }
  match if memory then o.setIvL else leave KErrNoMemory with
  | .ok o => .ok { o with iDelayedReset := KErrNone }
  | .error (.leave aError) => .ok { o with iDelayedReset := aError }
  | .error e => .error e

def processBlockL (o : CCMacImpl) : Leaving CCMacImpl := do
  let (iCipherImpl, intermediateCipher) ← o.iCipherImpl.processL aes o.iData emptyBlock
  return { o with
    iCipherImpl := iCipherImpl
    iE := intermediateCipher.data
    iCurrentTotalLength := 0 }

/-- Octets that there is room for in the block. -/
def copyData (o : CCMacImpl) (message : Bytes) : CCMacImpl :=
  { o with
    iData := o.iData.take o.iCurrentTotalLength ++ message ++
      o.iData.drop (o.iCurrentTotalLength + message.length)
    iCurrentTotalLength := o.iCurrentTotalLength + message.length }

/-- A block that is full is processed. -/
def processFullL (o : CCMacImpl) : Leaving CCMacImpl :=
  if o.iCurrentTotalLength = KMacBlockSize then o.processBlockL aes else .ok o

/-- What goes into the block in one turn of the loop. -/
def copyLength (o : CCMacImpl) (curLength : Nat) : Nat :=
  min curLength (KMacBlockSize - o.iCurrentTotalLength)

/-- A message that no turn of the loop takes anything of would keep it going for ever; there is
room in the block in every turn. -/
def doUpdateL (o : CCMacImpl) (aMessage : Bytes) : Leaving CCMacImpl :=
  if _ : aMessage ≠ [] then do
    let o ← o.processFullL aes
    let length := o.copyLength aMessage.length
    if _ : 0 < length then
      doUpdateL (o.copyData (aMessage.take length)) (aMessage.drop length)
    else .error .undefined
  else .ok o
termination_by aMessage.length
decreasing_by
  rw [List.length_drop]
  have := List.length_pos_iff.mpr ‹aMessage ≠ []›
  omega

def doFinalL (o : CCMacImpl) : Leaving (CCMacImpl × Bytes) := do
  let padded := o.padMessage
  let finalBlock :=
    if o.iCurrentTotalLength < KMacBlockSize then padded.xorKeyWithData o.iKey3
    else o.xorKeyWithData o.iKey2
  let (iCipherImpl, iMacValue) ← o.iCipherImpl.processFinalL aes finalBlock emptyBlock
  return ({ padded with iCipherImpl := iCipherImpl },
    if o.iImplementationUid = .KAlgorithmCipherAesXcbcMac96 then
      iMacValue.data.take KAesXcbcMac96Size
    else iMacValue.data)

/-- A message that is not empty. -/
def updateMessageL (o : CCMacImpl) (aMessage : Bytes) : Leaving CCMacImpl :=
  if aMessage ≠ [] then o.doUpdateL aes aMessage else .ok o

/-- What `MacL` begins with. -/
def delayedResetL (o : CCMacImpl) : Leaving CCMacImpl :=
  if o.iDelayedReset ≠ KErrNone then do
    let o ← o.setIvL
    return { o with iDelayedReset := KErrNone }
  else .ok o

/-- What `UpdateL` and `FinalL` begin with: the test is the other way round. -/
def undelayedResetL (o : CCMacImpl) : Leaving CCMacImpl :=
  if o.iDelayedReset = KErrNone then do
    let o ← o.setIvL
    return { o with iDelayedReset := KErrNone }
  else .ok o

def macL (o : CCMacImpl) (aMessage : Bytes) : Leaving (CCMacImpl × Bytes) := do
  let o ← o.delayedResetL
  let o ← o.updateMessageL aes aMessage
  let (o, mac) ← o.doFinalL aes
  let o ← o.setIvL
  return (o, mac)

def finalL (o : CCMacImpl) (aMessage : Bytes) (memory : Bool) :
    Leaving (CCMacImpl × Bytes) := do
  let o ← o.undelayedResetL
  let o ← o.updateMessageL aes aMessage
  let (o, mac) ← o.doFinalL aes
  let o ← o.reset memory
  return (o, mac)

def updateL (o : CCMacImpl) (aMessage : Bytes) : Leaving CCMacImpl := do
  let o ← o.undelayedResetL
  o.updateMessageL aes aMessage

/-! ### Keys -/

/-- A constant under the key. -/
def encryptConstantL (iCipherImpl : CSymmetricCipher) (constant : Bytes) :
    Leaving (CSymmetricCipher × Bytes) := do
  let (iCipherImpl, iKeyN) ← iCipherImpl.processFinalL aes constant emptyBlock
  return (iCipherImpl, iKeyN.data)

/-- `SetKeyL`, with the key that the cipher is given first. -/
def setCipherKeyL (o : CCMacImpl) (key : Bytes) : Leaving CCMacImpl := do
  let iCipherImpl ← o.iCipherImpl.setKeyL key
  let impl := (iCipherImpl.impl.setCryptoModeL .KCryptoModeEncrypt).setOperationModeL
    .KOperationModeNone
  let (iCipherImpl, iKey1) ← encryptConstantL aes { iCipherImpl with impl := impl } K1Constant
  let (iCipherImpl, iKey2) ← encryptConstantL aes iCipherImpl K2Constant
  let (iCipherImpl, iKey3) ← encryptConstantL aes iCipherImpl K3Constant
  let iCipherImpl ← iCipherImpl.setKeyL iKey1
  let impl := iCipherImpl.impl.setOperationModeL .KOperationModeCBC
  CCMacImpl.setIvL { o with
    iKey := iKey1
    iCipherImpl := { iCipherImpl with impl := impl }
    iKey1 := iKey1
    iKey2 := iKey2
    iKey3 := iKey3
    iE := List.replicate KMacBlockSize 0 }

/-- A longer key is reduced under a key of zeros, which `SetKeyL` takes as it is, and a shorter
one filled up with zeros. -/
def create128bitKeyL (o : CCMacImpl) (aKey : Bytes) (memory : Bool) :
    Leaving (CCMacImpl × Bytes) :=
  if aKey.length > KMacBlockSize then do
    let o ← o.setCipherKeyL aes (List.replicate KMacBlockSize 0)
    o.finalL aes aKey memory
  else .ok (o, aKey ++ List.replicate (KMacBlockSize - aKey.length) 0)

def setKeyL (o : CCMacImpl) (aKey : Bytes) (memory : Bool) : Leaving CCMacImpl :=
  match o.iImplementationUid with
  | .KAlgorithmCipherAesXcbcPrf128 => do
    let (o, key) ← o.create128bitKeyL aes aKey memory
    o.setCipherKeyL aes key
  | .KAlgorithmCipherAesXcbcMac96 => o.setCipherKeyL aes aKey

/-- `NewL`, with the cipher that `CMacImpl::ConstructL` has made: under the key itself, or for
AES-XCBC-PRF-128 under whatever `tempKey` holds. -/
def newL (aAlgorithmUid : MacAlgorithm) (aKey : Bytes) (tempKey : Vector UInt8 16)
    (memoryRegister : Bytes) (memory : Bool) : Leaving CCMacImpl := do
  let iCipherImpl ← CSymmetricCipher.createL
    (if aAlgorithmUid = .KAlgorithmCipherAesXcbcPrf128 then tempKey.toList else aKey)
    memoryRegister
  setKeyL aes
    { iImplementationUid := aAlgorithmUid
      iKey := []
      iCipherImpl := iCipherImpl
      iKey1 := []
      iKey2 := []
      iKey3 := []
      iE := List.replicate KMacBlockSize 0
      iData := List.replicate KMacBlockSize 0
      iCurrentTotalLength := 0
      iDelayedReset := KErrNone } aKey memory

/-- `ReInitialiseAndSetKeyL`; there are two calls of `Reset` in it. -/
def reInitialiseAndSetKeyL (o : CCMacImpl) (aKey : Bytes) (memory memoryKey : Bool) :
    Leaving CCMacImpl := do
  let o ← o.reset memory
  o.setKeyL aes aKey memoryKey

def copyL (o : CCMacImpl) (memoryRegister : Bytes) : Leaving CCMacImpl := do
  let iCipherImpl ← CSymmetricCipher.createL o.iKey memoryRegister
  CCMacImpl.setIvL { o with iCipherImpl := iCipherImpl, iDelayedReset := KErrNone }

def replicateL (o : CCMacImpl) (memoryRegister : Bytes) (memory : Bool) : Leaving CCMacImpl := do
  let replica ← o.copyL memoryRegister
  replica.reset memory

end CCMacImpl

/-! ### Several of them -/

/-- A call to one of those there are; a copy or a replica becomes the last of them.  What the
calls are given besides is what `Reset` gets no memory for, and what a register is allocated
over. -/
inductive CmacCall where
  | updateL (index : Nat) (aMessage : Bytes)
  | macL (index : Nat) (aMessage : Bytes)
  | finalL (index : Nat) (aMessage : Bytes) (memory : Bool)
  | reset (index : Nat) (memory : Bool)
  | reInitialiseAndSetKeyL (index : Nat) (aKey : Bytes) (memory memoryKey : Bool)
  | copyL (index : Nat) (memoryRegister : Bytes)
  | replicateL (index : Nat) (memoryRegister : Bytes) (memory : Bool)

namespace CCMacImpl

variable (aes : Aes)

/-- A call to one of them, which it changes, and the value that it returns. -/
def callOneL (o : CCMacImpl) : CmacCall → Leaving (CCMacImpl × List Bytes)
  | .updateL _ aMessage => do
    let o ← o.updateL aes aMessage
    return (o, [])
  | .macL _ aMessage => do
    let (o, mac) ← o.macL aes aMessage
    return (o, [mac])
  | .finalL _ aMessage memory => do
    let (o, mac) ← o.finalL aes aMessage memory
    return (o, [mac])
  | .reset _ memory => do
    let o ← o.reset memory
    return (o, [])
  | .reInitialiseAndSetKeyL _ aKey memory memoryKey => do
    let o ← o.reInitialiseAndSetKeyL aes aKey memory memoryKey
    return (o, [])
  | .copyL _ memoryRegister => do
    let o ← o.copyL memoryRegister
    return (o, [])
  | .replicateL _ memoryRegister memory => do
    let o ← o.replicateL memoryRegister memory
    return (o, [])

end CCMacImpl

namespace CmacCall

/-- The one that is called. -/
def index : CmacCall → Nat
  | updateL index _ => index
  | macL index _ => index
  | finalL index _ _ => index
  | reset index _ => index
  | reInitialiseAndSetKeyL index _ _ _ => index
  | copyL index _ => index
  | replicateL index _ _ => index

/-- Whether the call makes a new one, and leaves the one that is called as it is. -/
def isCopy : CmacCall → Bool
  | copyL _ _ => true
  | replicateL _ _ _ => true
  | _ => false

/-- What a call makes of one is put in its place, or behind all of them. -/
def place {α : Type} (call : CmacCall) (all : List α) (made : α) : List α :=
  if call.isCopy then all ++ [made] else all.set call.index made

end CmacCall

namespace CCMacImpl

variable (aes : Aes)

/-- One call, with the value that it returns.  There is nothing to call where there is none. -/
def callL (macs : List CCMacImpl) (call : CmacCall) : Leaving (List CCMacImpl × List Bytes) :=
  match macs[call.index]? with
  | some o => do
    let (o, mac) ← o.callOneL aes call
    return (call.place macs o, mac)
  | none => .ok (macs, [])

/-- Calls one after the other, and all values. -/
def callsL (macs : List CCMacImpl) : List CmacCall → Leaving (List CCMacImpl × List Bytes)
  | [] => .ok (macs, [])
  | call :: calls => do
    let (macs, mac) ← callL aes macs call
    let (macs, rest) ← callsL macs calls
    return (macs, mac ++ rest)

end CCMacImpl

/-! ### What it is to compute -/

namespace Xcbc

/-- One block in CBC mode. -/
def step (E : Bytes → Bytes) (e block : Bytes) : Bytes × Bytes := (E (xorBytes block e), [])

/-- The first `n` blocks of a message. -/
def chain (E : Bytes → Bytes) (n : Nat) (msg : Bytes) : Bytes :=
  (Blockwise.run (step E) KMacBlockSize n (List.replicate KMacBlockSize 0) msg).1

/-- The blocks before the last one: an empty message has one that is not full. -/
def before (length : Nat) : Nat := (length - 1) / KMacBlockSize

/-- The last block: as it is with the second key, or filled up with the third. -/
def lastBlock (key2 key3 last : Bytes) : Bytes × Bytes :=
  if last.length = KMacBlockSize then (last, key2)
  else (last ++ 0x80 :: List.replicate (KMacBlockSize - last.length - 1) 0, key3)

/-- The code of a message under the three keys. -/
def mac (E : Bytes → Bytes) (key2 key3 msg : Bytes) : Bytes :=
  let n := before msg.length
  let last := lastBlock key2 key3 (msg.drop (n * KMacBlockSize))
  E (xorBytes (xorBytes last.1 (chain E n msg)) last.2)

/-- The code under a key of AES. -/
def code (aes : Aes) (key msg : Bytes) : Bytes :=
  mac (aes.encrypt (aes.encrypt key K1Constant)) (aes.encrypt key K2Constant)
    (aes.encrypt key K3Constant) msg

/-- The key for a key of any length. -/
def prfKey (aes : Aes) (key : Bytes) : Bytes :=
  if key.length > KMacBlockSize then code aes (List.replicate KMacBlockSize 0) key
  else key ++ List.replicate (KMacBlockSize - key.length) 0

/-- The key of AES that an algorithm makes of a key. -/
def cipherKey (aes : Aes) : MacAlgorithm → Bytes → Bytes
  | .KAlgorithmCipherAesXcbcMac96, key => key
  | .KAlgorithmCipherAesXcbcPrf128, key => prfKey aes key

/-- The value of an algorithm. -/
def value (aes : Aes) (algorithm : MacAlgorithm) (key msg : Bytes) : Bytes :=
  match algorithm with
  | .KAlgorithmCipherAesXcbcMac96 => 
    (code aes (cipherKey aes algorithm key) msg).take KAesXcbcMac96Size
  | .KAlgorithmCipherAesXcbcPrf128 => code aes (cipherKey aes algorithm key) msg

end Xcbc

/-- A key, what has been fed since the last reset, and whether that could not set the vector. -/
structure CmacData where
  key : Bytes
  msg : Bytes
  pending : Bool

namespace CmacCall

/-- What a call makes of the data of one. -/
def leaves (d : CmacData) : CmacCall → CmacData
  | updateL _ aMessage => { d with msg := d.msg ++ aMessage }
  | macL _ aMessage => { d with msg := d.msg ++ aMessage, pending := false }
  | finalL _ _ memory => { d with msg := [], pending := !memory }
  | reset _ memory => { d with msg := [], pending := !memory }
  | reInitialiseAndSetKeyL _ aKey _ _ => ⟨aKey, [], false⟩
  | copyL _ _ => { d with pending := false }
  | replicateL _ _ memory => { d with msg := [], pending := !memory }

/-- What a call returns the value of. -/
def coded (d : CmacData) : CmacCall → List CmacData
  | macL _ aMessage => [{ d with msg := d.msg ++ aMessage }]
  | finalL _ aMessage _ => [{ d with msg := d.msg ++ aMessage }]
  | _ => []

/-- A run over the data alone: what the values are of. -/
def codes (all : List CmacData) : List CmacCall → List CmacData
  | [] => []
  | call :: calls =>
    match all[call.index]? with
    | some d => call.coded d ++ codes (call.place all (call.leaves d)) calls
    | none => codes all calls

/-- A condition on every call of a run, with the data that it is made on. -/
def Along (P : CmacData → CmacCall → Prop) (all : List CmacData) : List CmacCall → Prop
  | [] => True
  | call :: calls =>
    match all[call.index]? with
    | some d => P d call ∧ Along P (call.place all (call.leaves d)) calls
    | none => Along P all calls

end CmacCall

end OsSecurity

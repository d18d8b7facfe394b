/-
Password-based encryption of a set of data: `pbe/pbencryptorset.cpp` and
`pbe/pbesymmetricfactory.cpp`.

`CPBEncryptorSet` draws an initialization vector and sends it before the first octets of its
ciphertext.  `CPBDecryptorSet` does not know the vector when it is made: it collects the first
octets it gets in `iIVBuf`, and sets the vector in the mode below its cipher when it has them all.
Both announce what a call is going to append by what their ciphers announce, for a block more or a
block less while the vector has not been sent.

The block ciphers and ARC4 are parameters.  Lengths are those of descriptors, below 2^28, where
the unsigned subtraction in `MaxOutputLength`, read as a signed number, is the subtraction of
integers.
-/
import OsSecurity.Crypto.BufferedTransformation

namespace OsSecurity

/-! ### Ciphers -/

inductive TPBECipher where
  | ECipherAES_CBC_128
  | ECipherAES_CBC_192
  | ECipherAES_CBC_256
  | ECipherDES_CBC
  | ECipher3DES_CBC
  | ECipherRC2_CBC_40
  | ECipherRC2_CBC_128
  | ECipherRC2_CBC_40_16
  | ECipherRC2_CBC_128_16
  | ECipherARC4_128
  | ECipherARC4_40
  | ECipher2Key3DES_CBC
  | ECipherRC2_CBC_40_5
  deriving DecidableEq

def KAESBlockBytes : Nat := 16
def KDESBlockBytes : Nat := 8
def KDESKeyBytes : Nat := 8
def K3DESKeyBytes : Nat := 24
def KRC2BlockBytes : Nat := 8

def KSSLCompatibilityBits : Nat := 1024
def KPkcs8CompatibilityBits : Nat := 128
def KPkcs12CompatibilityBits : Nat := 40

/-- A stream cipher with its key, and the octets it has gone through. -/
structure CARC4 where
  keyStream : Nat → UInt8
  position : Nat

namespace CARC4

def process (self : CARC4) (aInput : Bytes) : CARC4 × Bytes :=
  ({ self with position := self.position + aInput.length },
    xorBytes aInput ((List.range aInput.length).map fun i => self.keyStream (self.position + i)))

end CARC4

/-- The ciphers themselves, under their keys. -/
structure Primitives where
  aes : Bytes → BlockPrimitive
  des : Bytes → BlockPrimitive
  tripleDes : Bytes → BlockPrimitive
  rc2 : Bytes → Nat → BlockPrimitive
  arc4 : Bytes → Nat → UInt8

namespace PBE

def getBlockBytes : TPBECipher → Nat
  | .ECipherAES_CBC_128 | .ECipherAES_CBC_192 | .ECipherAES_CBC_256 => KAESBlockBytes
  | .ECipherDES_CBC | .ECipher3DES_CBC | .ECipher2Key3DES_CBC => KDESBlockBytes
  | .ECipherRC2_CBC_128_16 | .ECipherRC2_CBC_40_16 | .ECipherRC2_CBC_128 | .ECipherRC2_CBC_40
  | .ECipherRC2_CBC_40_5 => KRC2BlockBytes
  | .ECipherARC4_128 | .ECipherARC4_40 => 1

inductive CSymmetricCipher where
  | buffered (self : CBufferedTransformation)
  | arc4 (self : CARC4)

/-- Three keys of two: the first is the third one too.  `encryptKey` holds three, and the first is
read whether the key has it or not. -/
def encryptKey (aKey : Bytes) : Leaving Bytes :=
  if aKey.length < KDESKeyBytes then .error .undefined
  else if K3DESKeyBytes < aKey.length + KDESKeyBytes then panic
  else .ok (aKey ++ aKey.take KDESKeyBytes)

/-- The switch of `MakeEncryptorL` and `MakeDecryptorL`.  They differ in the direction of what they
make: `encrypt` or `decrypt` of the block transformation. -/
def makeCipherL (prims : Primitives) (aCipher : TPBECipher) (aKey aIV : Bytes) :
    Leaving CSymmetricCipher :=
  let cbc (block : BlockPrimitive) : CSymmetricCipher :=
    .buffered (.constructL (.constructL block (getBlockBytes aCipher) aIV))
  match aCipher with
  | .ECipherARC4_40 | .ECipherARC4_128 => .ok (.arc4 ⟨prims.arc4 aKey, 0⟩)
  | .ECipherAES_CBC_128 | .ECipherAES_CBC_192 | .ECipherAES_CBC_256 => .ok (cbc (prims.aes aKey))
  | .ECipherDES_CBC => .ok (cbc (prims.des aKey))
  | .ECipher3DES_CBC => .ok (cbc (prims.tripleDes aKey))
  | .ECipher2Key3DES_CBC => do return cbc (prims.tripleDes (← encryptKey aKey))
  | .ECipherRC2_CBC_40 | .ECipherRC2_CBC_128 => .ok (cbc (prims.rc2 aKey KSSLCompatibilityBits))
  | .ECipherRC2_CBC_40_16 | .ECipherRC2_CBC_128_16 =>
    .ok (cbc (prims.rc2 aKey KPkcs8CompatibilityBits))
  | .ECipherRC2_CBC_40_5 => .ok (cbc (prims.rc2 aKey KPkcs12CompatibilityBits))

namespace CSymmetricCipher

def blockSize : CSymmetricCipher → Nat
  | buffered self => self.blockSize
  | arc4 _ => 1

/-- `Process`, with the `Transform` of a block cipher's mode. -/
def process (transform : CBlockChainingMode → Bytes → CBlockChainingMode × Bytes) :
    CSymmetricCipher → Bytes → CSymmetricCipher × Bytes
  | buffered self, aInput =>
    (.buffered (self.process transform aInput).1, (self.process transform aInput).2)
  | arc4 self, aInput => (.arc4 (self.process aInput).1, (self.process aInput).2)

@[simp] theorem process_buffered
    (transform : CBlockChainingMode → Bytes → CBlockChainingMode × Bytes)
    (cipher : CBufferedTransformation) (aInput : Bytes) :
    (buffered cipher).process transform aInput =
      (buffered (cipher.process transform aInput).1, (cipher.process transform aInput).2) := rfl

def maxOutputLength : CSymmetricCipher → Int → Int
  | buffered self, aInputLength => self.maxOutputLength aInputLength
  | arc4 _, aInputLength => aInputLength

end CSymmetricCipher

end PBE

/-! ### Encryption -/

structure CPBEncryptorSet where
  iIV : Bytes
  iCipher : PBE.CSymmetricCipher
  iIVSent : Bool

namespace CPBEncryptorSet

/-- `ConstructL`, with what `TRandom::RandomL` has filled the vector with. -/
def constructL (prims : Primitives) (aCipher : TPBECipher) (aKey iv : Bytes) :
    Leaving CPBEncryptorSet := do
  return ⟨iv, ← PBE.makeCipherL prims aCipher aKey iv, false⟩

def process (self : CPBEncryptorSet) (aInput : Bytes) : Leaving (CPBEncryptorSet × Bytes) :=
  let sent := if self.iIVSent then [] else self.iIV
  let (iCipher, out) := self.iCipher.process CBlockChainingMode.encryptorTransform aInput
  .ok ({ self with iCipher, iIVSent := true }, sent ++ out)

def cipherFinalL : PBE.CSymmetricCipher → Bytes → Leaving (PBE.CSymmetricCipher × Bytes)
  | .buffered cipher, aInput => do
    let (cipher, out) ← CBufferedEncryptor.processFinalL .SSLv3 cipher aInput
    return (.buffered cipher, out)
  | .arc4 cipher, aInput => .ok (.arc4 (cipher.process aInput).1, (cipher.process aInput).2)

def processFinalL (self : CPBEncryptorSet) (aInput : Bytes) :
    Leaving (CPBEncryptorSet × Bytes) := do
  let sent := if self.iIVSent then [] else self.iIV
  let (iCipher, out) ← cipherFinalL self.iCipher aInput
  return ({ self with iCipher, iIVSent := true }, sent ++ out)

def maxOutputLength (self : CPBEncryptorSet) (aMaxInputLength : Nat) : Int :=
  if self.iIVSent then self.iCipher.maxOutputLength aMaxInputLength
  else self.iCipher.maxOutputLength (aMaxInputLength + self.iCipher.blockSize : Nat)

def cipherMaxFinal : PBE.CSymmetricCipher → Nat → Int
  | .buffered cipher, n => CBufferedEncryptor.maxFinalOutputLength .SSLv3 cipher n
  | .arc4 _, n => n

def maxFinalOutputLength (self : CPBEncryptorSet) (aMaxInputLength : Nat) : Int :=
  if self.iIVSent then cipherMaxFinal self.iCipher aMaxInputLength
  else cipherMaxFinal self.iCipher (aMaxInputLength + self.iCipher.blockSize)

end CPBEncryptorSet

/-! ### Decryption -/

structure CPBDecryptorSet where
  iIVBuf : Bytes
  iCipher : PBE.CSymmetricCipher
  iIVSent : Bool

namespace CPBDecryptorSet

def constructL (prims : Primitives) (aCipher : TPBECipher) (aKey fakeIV : Bytes) :
    Leaving CPBDecryptorSet := do
  return ⟨[], ← PBE.makeCipherL prims aCipher aKey fakeIV, false⟩

/-- `BlockTransformer()->SetIV(iv)` on the cipher, which is taken for a `CBufferedDecryptor`
whatever it is. -/
def setIV (iv : Bytes) : PBE.CSymmetricCipher → Leaving PBE.CSymmetricCipher
  | .buffered cipher => .ok (.buffered { cipher with iBT := cipher.iBT.setIV iv })
  | .arc4 _ => .error .undefined

/-- `ProcessIV`: what is left of the input for the cipher. -/
def processIV (self : CPBDecryptorSet) (aInput : Bytes) : Leaving (CPBDecryptorSet × Bytes) :=
  if self.iIVSent then .ok (self, aInput)
  else if aInput.length + self.iIVBuf.length < self.iCipher.blockSize then
    .ok ({ self with iIVBuf := self.iIVBuf ++ aInput }, [])
  else do
    let rem := self.iCipher.blockSize - self.iIVBuf.length
    let iIVBuf := self.iIVBuf ++ aInput.take rem
    let iCipher ← setIV iIVBuf self.iCipher
    return (⟨iIVBuf, iCipher, true⟩, aInput.drop rem)

def process (self : CPBDecryptorSet) (aInput : Bytes) : Leaving (CPBDecryptorSet × Bytes) := do
  let (self, input) ← self.processIV aInput
  let (iCipher, out) := self.iCipher.process CBlockChainingMode.decryptorTransform input
  return ({ self with iCipher }, out)

def cipherFinalL : PBE.CSymmetricCipher → Bytes → Leaving (PBE.CSymmetricCipher × Bytes)
  | .buffered cipher, aInput => do
    let (cipher, out) ← CBufferedDecryptor.processFinalL .SSLv3 cipher aInput
    return (.buffered cipher, out)
  | .arc4 cipher, aInput => .ok (.arc4 (cipher.process aInput).1, (cipher.process aInput).2)

def processFinalL (self : CPBDecryptorSet) (aInput : Bytes) :
    Leaving (CPBDecryptorSet × Bytes) := do
  let (self, input) ← self.processIV aInput
  let (iCipher, out) ← cipherFinalL self.iCipher input
  return ({ self with iCipher }, out)

def maxOutputLength (self : CPBDecryptorSet) (aMaxInputLength : Nat) : Int :=
  if self.iIVSent then self.iCipher.maxOutputLength aMaxInputLength
  else self.iCipher.maxOutputLength ((aMaxInputLength : Int) - self.iCipher.blockSize)

def cipherMaxFinal : PBE.CSymmetricCipher → Int → Int
  | .buffered cipher, n => CBufferedDecryptor.maxFinalOutputLength .SSLv3 cipher n
  | .arc4 _, n => n

def maxFinalOutputLength (self : CPBDecryptorSet) (aMaxInputLength : Nat) : Int :=
  if self.iIVSent then cipherMaxFinal self.iCipher aMaxInputLength
  else cipherMaxFinal self.iCipher ((aMaxInputLength : Int) - self.iCipher.blockSize)

end CPBDecryptorSet

/-! ### Messages -/

/-- What both kinds of sets offer. -/
structure PbeInterface (σ : Type) where
  process : σ → Bytes → Leaving (σ × Bytes)
  processFinalL : σ → Bytes → Leaving (σ × Bytes)
  maxOutputLength : σ → Nat → Int
  maxFinalOutputLength : σ → Nat → Int

def CPBEncryptorSet.interface : PbeInterface CPBEncryptorSet :=
  ⟨process, processFinalL, maxOutputLength, maxFinalOutputLength⟩

def CPBDecryptorSet.interface : PbeInterface CPBDecryptorSet :=
  ⟨process, processFinalL, maxOutputLength, maxFinalOutputLength⟩

/-- A call's answer: what was announced for it right before, and what it has appended. -/
structure PbeAnswer where
  announced : Int
  appended : Bytes
  deriving DecidableEq

namespace PbeInterface

variable {σ : Type}

/-- A message in pieces, the last one with `ProcessFinalL`. -/
def run (set : PbeInterface σ) : σ → List Bytes → Bytes → Leaving (List PbeAnswer)
  | self, [], aInput => do
    let (_, out) ← set.processFinalL self aInput
    return [⟨set.maxFinalOutputLength self aInput.length, out⟩]
  | self, x :: pieces, aInput => do
    let (next, out) ← set.process self x
    let answers ← run set next pieces aInput
    return ⟨set.maxOutputLength self x.length, out⟩ :: answers

variable {self next : σ} {x out final : Bytes}

theorem run_nil (set : PbeInterface σ) (h : set.processFinalL self x = .ok (next, out)) :
    set.run self [] x = .ok [⟨set.maxFinalOutputLength self x.length, out⟩] := by
  unfold run
  rw [h]
  rfl

theorem run_cons (set : PbeInterface σ) {pieces : List Bytes} {answers : List PbeAnswer}
    (h : set.process self x = .ok (next, out)) (hrest : set.run next pieces final = .ok answers) :
    set.run self (x :: pieces) final =
      .ok (⟨set.maxOutputLength self x.length, out⟩ :: answers) := by
  unfold run
  rw [h, ok_bind]
  simp only [hrest, ok_bind]
  rfl

end PbeInterface

def pbeOutput (answers : List PbeAnswer) : Bytes := (answers.map (·.appended)).flatten

/-- No call has appended more than was announced. -/
def WithinAnnounced (answers : List PbeAnswer) : Prop :=
  ∀ answer ∈ answers, (answer.appended.length : Int) ≤ answer.announced

end OsSecurity

/-
The hashes of `softwarecrypto`: `sha1impl.cpp`, `sha224and256impl.cpp`,
`sha384and512impl.cpp`, `sha2impl.cpp` and `md5impl.cpp`.

All of them gather octets in the words of `iData`, compress sixteen words as soon as they are
there, and put the padding and the length behind the last ones in `Final`.  They are the same
program but for what is in `HashImpl`: the size of a word and the place of an octet in it,
whether whole words of the input are taken at once, how the length is counted, and a few
details of the copies and the zeros.

`Block` reads and leaves the first sixteen words of `iData`; the words behind them are its
scratch, and its function on the hash value, `compress`, is a parameter.  Words are natural
numbers, with `%` where the arithmetic of the code can run over.
-/
import OsSecurity.E32
import OsSecurity.Library.Packing

namespace OsSecurity

open Packing

/-- What the implementations differ in. -/
structure HashImpl where
  /-- the octets of a word of `iData` -/
  wordSize : Nat
  /-- how far the octet of an index is shifted in its word -/
  shift : Nat → Nat
  /-- whether `Update` has a loop for whole words -/
  wordPath : Bool
  /-- the padding octet is put into its word -/
  addPadding : Nat → Nat → Nat
  /-- the word of `iData` that the zeros of the padding end at -/
  filled : Nat
  /-- the words of `iData` that the copy constructor copies -/
  copied : Nat
  /-- the length of what has been compressed -/
  Length : Type
  zero : Length
  /-- `AddLength`, of a number of octets -/
  addLength : Length → Nat → Leaving Length
  /-- the last two words of the padding -/
  lengthWords : Length → Nat × Nat
  /-- `iA` and the following after `Reset` -/
  initial : List Nat
  /-- a word of the hash value in `iHash` -/
  wordOctets : Nat → Bytes
  hashSize : Nat

/-! ### The implementations -/

def CSHA1Impl : HashImpl where
  wordSize := 4
  shift := bigEndian 4
  wordPath := true
  addPadding := fun word octet => (word + octet) % 2 ^ 32
  filled := 14
  copied := 20
  Length := Nat
  zero := 0
  addLength := fun iNh aLength => .ok ((iNh + aLength) % 2 ^ 32)
  lengthWords := fun iNh => (0, (iNh <<< 3) % 2 ^ 32)
  initial := [0x67452301, 0xefcdab89, 0x98badcfe, 0x10325476, 0xc3d2e1f0]
  wordOctets := Der.fixed 4
  hashSize := 20

def CMD5Impl : HashImpl where
  wordSize := 4
  shift := littleEndian
  wordPath := false
  addPadding := fun word octet => (word + octet) % 2 ^ 32
  filled := 14
  copied := 16
  Length := Nat
  zero := 0
  addLength := fun iNh aLength => .ok ((iNh + aLength) % 2 ^ 32)
  lengthWords := fun iNh => ((iNh <<< 3) % 2 ^ 32, 0)
  initial := [0x67452301, 0xefcdab89, 0x98badcfe, 0x10325476]
  wordOctets := fun word => (Der.fixed 4 word).reverse
  hashSize := 16

/-- `CSHA224And256Impl::AddLength`: a length in bits, in 64 of them. -/
def addLength256 (iNh aLength : Nat) : Leaving Nat :=
  let sum := (iNh + (aLength <<< 3) % 2 ^ 32) % 2 ^ 64
  if iNh ≤ sum then .ok sum else panic

def CSHA224And256Impl (iInitValues : List Nat) (iHashSize : Nat) : HashImpl where
  wordSize := 4
  shift := bigEndian 4
  wordPath := true
  addPadding := fun word octet => word ||| octet
  filled := 16
  copied := 64
  Length := Nat
  zero := 0
  addLength := addLength256
  lengthWords := fun iNh => (iNh >>> 32, iNh &&& 0xFFFFFFFF)
  initial := iInitValues
  wordOctets := Der.fixed 4
  hashSize := iHashSize

/-- `CSHA384And512Impl::AddLength`: the higher and the lower word. -/
def addLength512 (iLength : Nat × Nat) (aLength : Nat) : Leaving (Nat × Nat) :=
  let iNl := (iLength.2 + (aLength <<< 3) % 2 ^ 64) % 2 ^ 64
  if iLength.1 ≠ 2 ^ 64 - 1 ∨ iLength.2 ≤ iNl then
    .ok ((iLength.1 + if iLength.2 > iNl then 1 else 0) % 2 ^ 64, iNl)
  else panic

def CSHA384And512Impl (iInitValues : List Nat) (iHashSize : Nat) : HashImpl where
  wordSize := 8
  shift := bigEndian 8
  wordPath := true
  addPadding := fun word octet => word ||| octet
  filled := 16
  copied := 128
  Length := Nat × Nat
  zero := (0, 0)
  addLength := addLength512
  lengthWords := fun iLength => iLength
  initial := iInitValues
  wordOctets := Der.fixed 8
  hashSize := iHashSize

def SHA224InitVals : List Nat :=
  [0xc1059ed8, 0x367cd507, 0x3070dd17, 0xf70e5939, 0xffc00b31, 0x68581511, 0x64f98fa7, 0xbefa4fa4]

def SHA256InitVals : List Nat :=
  [0x6a09e667, 0xbb67ae85, 0x3c6ef372, 0xa54ff53a, 0x510e527f, 0x9b05688c, 0x1f83d9ab, 0x5be0cd19]

def SHA384InitVals : List Nat :=
  [0xcbbb9d5dc1059ed8, 0x629a292a367cd507, 0x9159015a3070dd17, 0x152fecd8f70e5939,
    0x67332667ffc00b31, 0x8eb44a8768581511, 0xdb0c2e0d64f98fa7, 0x47b5481dbefa4fa4]

def SHA512InitVals : List Nat :=
  [0x6a09e667f3bcc908, 0xbb67ae8584caa73b, 0x3c6ef372fe94f82b, 0xa54ff53a5f1d36f1,
    0x510e527fade682d1, 0x9b05688c2b3e6c1f, 0x1f83d9abfb41bd6b, 0x5be0cd19137e2179]

/-! ### One hash -/

/-- The fields that `StoreState` keeps. -/
structure HashFields (impl : HashImpl) where
  /-- `iA` and the following -/
  iWords : List Nat
  iData : Nat → Nat
  /-- the octets in `iData`, which is `iBlockIndex` in `CSHA384And512Impl` -/
  iNl : Nat
  iLength : impl.Length

/-- A hash, with the copy of its fields that `StoreState` makes. -/
structure HashObject (impl : HashImpl) where
  fields : HashFields impl
  copy : HashFields impl

namespace HashImpl

variable (impl : HashImpl) (compress : List Nat → List Nat → List Nat)

def blockSize : Nat := 16 * impl.wordSize

def block (s : HashFields impl) : HashFields impl :=
  { s with iWords := compress s.iWords ((List.range 16).map s.iData) }

/-- `Block` as soon as `iData` is full. -/
def blockIfFull (s : HashFields impl) : Leaving (HashFields impl) :=
  if s.iNl = impl.blockSize then do
    let iLength ← impl.addLength s.iLength impl.blockSize
    return { impl.block compress s with iNl := 0, iLength := iLength }
  else .ok s

def putWord (s : HashFields impl) (aData : Bytes) : Leaving (HashFields impl) :=
  impl.blockIfFull compress
    { s with
      iData := Function.update s.iData (s.iNl / impl.wordSize)
        (pack impl.shift 0 (aData.take impl.wordSize))
      iNl := s.iNl + impl.wordSize }

/-- The word that an octet goes into.  It is stale when the octet is its first. -/
def openWord (s : HashFields impl) : Nat :=
  if s.iNl % impl.wordSize = 0 then 0 else s.iData (s.iNl / impl.wordSize)

def putOctet (s : HashFields impl) (octet : UInt8) : Leaving (HashFields impl) :=
  impl.blockIfFull compress
    { s with
      iData := Function.update s.iData (s.iNl / impl.wordSize)
        (impl.openWord s ||| octet.toNat <<< impl.shift (s.iNl % impl.wordSize))
      iNl := s.iNl + 1 }

/-- The loop over whole words, and what it leaves of the input. -/
def putWords (s : HashFields impl) (aData : Bytes) : Leaving (HashFields impl × Bytes) :=
  if _ : 0 < impl.wordSize ∧ impl.wordSize ≤ aData.length ∧ s.iNl % impl.wordSize = 0 then do
    let s ← impl.putWord compress s aData
    putWords s (aData.drop impl.wordSize)
  else .ok (s, aData)
termination_by aData.length
decreasing_by
  rw [List.length_drop]
  omega

/-- `DoUpdate`, or `Update` of the two implementations of SHA-2. -/
def update (s : HashFields impl) (aData : Bytes) : Leaving (HashFields impl) :=
  if impl.wordPath then do
    let (s, aData) ← impl.putWords compress s aData
    aData.foldlM (impl.putOctet compress) s
  else aData.foldlM (impl.putOctet compress) s

/-- `Mem::FillZ` of the words from `first` to `last`. -/
def fillZ (iData : Nat → Nat) (first last : Nat) : Nat → Nat :=
  fun i => if first ≤ i ∧ i < last then 0 else iData i

/-- `iData` with the octet that starts the padding. -/
def startPadding (s : HashFields impl) : Nat → Nat :=
  Function.update s.iData (s.iNl / impl.wordSize)
    (impl.addPadding (impl.openWord s) (128 <<< impl.shift (s.iNl % impl.wordSize)))

/-- The zeros, with a `Block` in between if the length does not fit in behind them. -/
def fillPadding (s : HashFields impl) : HashFields impl :=
  if s.iNl ≥ impl.blockSize - 2 * impl.wordSize then
    let iData :=
      if s.iNl < impl.blockSize - impl.wordSize then Function.update (impl.startPadding s) 15 0
      else impl.startPadding s
    let s := impl.block compress { s with iData := iData }
    { s with iData := fillZ s.iData 0 impl.filled }
  else
    { s with
      iData := fillZ (impl.startPadding s) ((s.iNl + impl.wordSize) / impl.wordSize)
        impl.filled }

/-- `PadMessage`, which is a part of `DoFinal` elsewhere. -/
def padMessage (s : HashFields impl) : HashFields impl :=
  { impl.fillPadding compress s with
    iData := Function.update
      (Function.update (impl.fillPadding compress s).iData 14 (impl.lengthWords s.iLength).1) 15
      (impl.lengthWords s.iLength).2 }

/-- `iHash` -/
def hashValue (iWords : List Nat) : Bytes :=
  (iWords.flatMap impl.wordOctets).take impl.hashSize

/-- `DoFinal`, or `Final` of the two implementations of SHA-2. -/
def final (s : HashFields impl) : Leaving (HashFields impl × Bytes) := do
  let iLength ← impl.addLength s.iLength s.iNl
  let s := impl.block compress (impl.padMessage compress { s with iLength := iLength })
  return (s, impl.hashValue s.iWords)

def reset (s : HashFields impl) : HashFields impl :=
  { s with iWords := impl.initial, iNl := 0, iLength := impl.zero }

/-! ### The interface -/

/-- `NewL`, over whatever the memory holds. -/
def newL (memory : HashFields impl) : HashObject impl := ⟨impl.reset memory, memory⟩

/-- `Update` -/
def updateObject (o : HashObject impl) (aMessage : Bytes) : Leaving (HashObject impl) := do
  let fields ← impl.update compress o.fields aMessage
  return { o with fields := fields }

/-- `Hash`: the state is stored, and restored behind `DoFinal`. -/
def hashObject (o : HashObject impl) (aMessage : Bytes) :
    Leaving (HashObject impl × Bytes) := do
  let fields ← impl.update compress o.fields aMessage
  let copy := fields
  let (_, iHash) ← impl.final compress fields
  return ({ fields := copy, copy := copy }, iHash)

/-- The last part of a message, which may be empty. -/
def updateLast (s : HashFields impl) (aMessage : Bytes) : Leaving (HashFields impl) :=
  if aMessage ≠ [] then impl.update compress s aMessage else .ok s

/-- `Final` -/
def finalObject (o : HashObject impl) (aMessage : Bytes) :
    Leaving (HashObject impl × Bytes) := do
  let fields ← impl.updateLast compress o.fields aMessage
  let (fields, iHash) ← impl.final compress fields
  return ({ o with fields := impl.reset fields }, iHash)

/-- `CopyL`, over whatever the memory of the new object holds. -/
def copyL (o : HashObject impl) (memory : HashFields impl) : HashObject impl :=
  { fields :=
      { o.fields with
        iData := fun i => if i < impl.copied then o.fields.iData i else memory.iData i }
    copy := memory }

end HashImpl

/-! ### Several hashes -/

/-- A call to one of the hashes there are; a copy becomes the last of them. -/
inductive HashCall (impl : HashImpl) where
  | update (index : Nat) (aMessage : Bytes)
  | hash (index : Nat) (aMessage : Bytes)
  | copyL (index : Nat) (memory : HashFields impl)
  | final (index : Nat) (aMessage : Bytes)

namespace HashImpl

variable (impl : HashImpl) (compress : List Nat → List Nat → List Nat)

/-- One call, with the digest that it returns.  There is nothing to call where there is no
hash. -/
def callL (hashes : List (HashObject impl)) :
    HashCall impl → Leaving (List (HashObject impl) × List Bytes)
  | .update index aMessage =>
    match hashes[index]? with
    | some o => do
      let o ← impl.updateObject compress o aMessage
      return (hashes.set index o, [])
    | none => .ok (hashes, [])
  | .hash index aMessage =>
    match hashes[index]? with
    | some o => do
      let (o, iHash) ← impl.hashObject compress o aMessage
      return (hashes.set index o, [iHash])
    | none => .ok (hashes, [])
  | .copyL index memory =>
    match hashes[index]? with
    | some o => .ok (hashes ++ [impl.copyL o memory], [])
    | none => .ok (hashes, [])
  | .final index aMessage =>
    match hashes[index]? with
    | some o => do
      let (o, iHash) ← impl.finalObject compress o aMessage
      return (hashes.set index o, [iHash])
    | none => .ok (hashes, [])

/-- Calls one after the other, and all digests. -/
def callsL (hashes : List (HashObject impl)) :
    List (HashCall impl) → Leaving (List (HashObject impl) × List Bytes)
  | [] => .ok (hashes, [])
  | call :: calls => do
    let (hashes, iHash) ← impl.callL compress hashes call
    let (hashes, rest) ← callsL hashes calls
    return (hashes, iHash ++ rest)

end HashImpl

end OsSecurity

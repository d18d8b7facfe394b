/-
The DER encoders: `asn1/baseenc.cpp` and the classes over it.

An encoder is a tree.  Every node keeps how many octets its tag, its length and its contents
take, computed when it is constructed and again when a child is added, and `WriteDERL` cuts
the buffer up by these numbers before it writes anything.  `AddChildL` therefore has the
numbers of every node above computed again.  `SetTag` does not: it computes the number for
the tag of the node itself and leaves the nodes above as they are.

A leaf is one of the primitive encoders, or the wrapper for something that is encoded
already.  Positions and lengths are natural numbers here; the source has them in a `TUint`.
-/
import OsSecurity.Asn1.Time

namespace OsSecurity

/-! ### Numbers as octets -/

/-- `while (working >>= aShift) ++count`: a `TUint` is zero after 32 turns at most. -/
def countShifts (aShift : Nat) : Nat → Nat → Nat
  | 0, _ => 0
  | turns + 1, working =>
    if working >>> aShift = 0 then 0 else countShifts aShift turns (working >>> aShift) + 1

/-- The low `octets` octets of `working`, most significant first. -/
def base256 : Nat → Nat → Bytes
  | 0, _ => []
  | octets + 1, working => base256 octets (working >>> 8) ++ [working.toUInt8]

namespace TASN1EncBase128DER

/-- `CalculateLengthDER` -/
def lengthDER (iInt : UInt32) : Nat := 1 + countShifts 7 32 iInt.toNat

/-- The octets before the last: the top bit is set in each. -/
def leading : Nat → Nat → Bytes
  | 0, _ => []
  | octets + 1, working => leading octets (working >>> 7) ++ [working.toUInt8 ||| 0x80]

def writeDERL (iInt : UInt32) : Bytes :=
  leading (lengthDER iInt - 1) (iInt.toNat >>> 7) ++ [(iInt.toNat.toUInt8 ||| 0x80) &&& 0x7f]

end TASN1EncBase128DER

/-! ### Leaves -/

/-- The classes without children, with what they keep. -/
inductive CASN1EncLeaf where
  | null
  | boolean (iBool : Bool)
  /-- `CASN1EncInt`; a `TInt` as the word it is -/
  | int (iInt : UInt32)
  | bigInt (iWriteContents : Bytes)
  | octetString (iContents : Bytes)
  | printableString (iContents : Bytes)
  | bitString (iContents : Bytes) (iPadding : UInt8)
  | objectIdentifier (iFirstOctet : UInt8) (iData : List UInt32)
  | generalizedTime (iDateTime : TDateTime)
  /-- `CASN1EncEncoding`: contents that are encoded already, tag and class included -/
  | encoding (iContents : Bytes)

namespace CASN1EncLeaf

/-- The tag a leaf is constructed with; `CASN1EncEncoding` is given its own afterwards. -/
def type : CASN1EncLeaf → UInt32
  | null => EASN1Null
  | boolean _ => EASN1Boolean
  | int _ => EASN1Integer
  | bigInt _ => EASN1Integer
  | octetString _ => EASN1OctetString
  | printableString _ => EASN1PrintableString
  | bitString _ _ => EASN1BitString
  | objectIdentifier _ _ => EASN1ObjectIdentifier
  | generalizedTime _ => EASN1GeneralizedTime
  | encoding _ => 0

def isConstructed : CASN1EncLeaf → Bool
  | encoding _ => true
  | _ => false

/-- The last non-zero octet of a word, with the number of octets above the first. -/
def lastOctet : Nat → Nat → Nat × Nat
  | 0, last => (last, 0)
  | turns + 1, last =>
    if last >>> 8 = 0 then (last, 0)
    else ((lastOctet turns (last >>> 8)).1, (lastOctet turns (last >>> 8)).2 + 1)

/-- `CASN1EncInt::CalculateContentsLengthDER` -/
def intLength (iInt : UInt32) : Nat :=
  let working := if iInt < 0x80000000 then iInt else ~~~iInt
  let (last, more) := lastOctet 4 working.toNat
  1 + more + if last &&& 0x80 ≠ 0 then 1 else 0

/-- `AppendNumFixedWidth(aVal, EDecimal, aWidth)` -/
def appendNumFixedWidth (aVal : Nat) : Nat → Bytes
  | 0 => []
  | aWidth + 1 => appendNumFixedWidth (aVal / 10) aWidth ++ [0x30 + (aVal % 10).toUInt8]

/-- A field of a `TDateTime`, which is passed on as a `TUint`. -/
def appendField (aVal : Int) (aWidth : Nat) : Bytes :=
  appendNumFixedWidth (aVal % 4294967296).toNat aWidth

def calculateContentsLengthDER : CASN1EncLeaf → Nat
  | null => 0
  | boolean _ => 1
  | int iInt => intLength iInt
  | bigInt iWriteContents => iWriteContents.length
  | octetString iContents => iContents.length
  | printableString iContents => iContents.length
  | bitString iContents _ => if iContents.length > 0 then iContents.length + 1 else 0
  | objectIdentifier _ iData => 1 + (iData.map TASN1EncBase128DER.lengthDER).sum
  | generalizedTime iDateTime => if iDateTime.iSecond ≠ 0 then 15 else 13
  | encoding iContents => iContents.length

def writeContentsDERL : CASN1EncLeaf → Bytes
  | null => []
  | boolean iBool => [if iBool then 0xff else 0]
  | int iInt => base256 (intLength iInt) iInt.toNat
  | bigInt iWriteContents => iWriteContents
  | octetString iContents => iContents
  | printableString iContents => iContents
  | bitString iContents iPadding => if iContents.length > 0 then iPadding :: iContents else []
  | objectIdentifier iFirstOctet iData =>
    iFirstOctet :: iData.flatMap TASN1EncBase128DER.writeDERL
  | generalizedTime t =>
    appendField t.iYear 4 ++ appendField (t.iMonth + 1) 2 ++ appendField (t.iDay + 1) 2 ++
      appendField t.iHour 2 ++ appendField t.iMinute 2 ++
      (if t.iSecond ≠ 0 then appendField t.iSecond 2 else []) ++ [0x5a]
  | encoding iContents => iContents

end CASN1EncLeaf

/-! ### The base class -/

/-- The data members of `CASN1EncBase`. -/
structure CASN1EncData where
  iType : UInt32
  iClass : TASN1Class
  iTagLengthDER : Nat
  iLengthLengthDER : Nat
  iContentsLengthDER : Nat

def KMaxLowNumberFormTag : UInt32 := 30
def KMaxShortFormLength : Nat := 127

def calculateTagLengthDER (iType : UInt32) : Nat :=
  if iType ≤ KMaxLowNumberFormTag then 1 else TASN1EncBase128DER.lengthDER iType + 1

def calculateLengthLengthDER (iContentsLengthDER : Nat) : Nat :=
  if iContentsLengthDER > KMaxShortFormLength then 2 + countShifts 8 32 iContentsLengthDER else 1

namespace CASN1EncData

def lengthDER (d : CASN1EncData) : Nat :=
  d.iTagLengthDER + d.iLengthLengthDER + d.iContentsLengthDER

def setTag (d : CASN1EncData) (aType : UInt32) (aClass : TASN1Class) : CASN1EncData :=
  { d with iType := aType, iClass := aClass, iTagLengthDER := calculateTagLengthDER aType }

/-- `ContentsLengthChanged` on one node, the contents taking `aLength` octets. -/
def contentsLengthChanged (d : CASN1EncData) (aLength : Nat) : CASN1EncData :=
  { d with
    iContentsLengthDER := aLength
    iLengthLengthDER := calculateLengthLengthDER aLength }

/-- The constructor and `ConstructL`. -/
def construct (aType : UInt32) (aClass : TASN1Class) (aLength : Nat) : CASN1EncData :=
  { iType := aType
    iClass := aClass
    iTagLengthDER := calculateTagLengthDER aType
    iLengthLengthDER := calculateLengthLengthDER aLength
    iContentsLengthDER := aLength }

/-- `iClass << 6`, and the bit of a constructed encoding. -/
def identifier (d : CASN1EncData) (isConstructed : Bool) : UInt8 :=
  (match d.iClass with
    | .EUniversal => 0
    | .EApplicationSpecific => 0x40
    | .EContextSpecific => 0x80
    | .EPrivate => 0xc0) ||| if isConstructed then 0x20 else 0

def writeTagDERL (d : CASN1EncData) (isConstructed : Bool) : Bytes :=
  if d.iType ≤ KMaxLowNumberFormTag then [d.identifier isConstructed ||| d.iType.toUInt8]
  else (d.identifier isConstructed ||| 0x1f) :: TASN1EncBase128DER.writeDERL d.iType

def writeLengthDER (d : CASN1EncData) : Bytes :=
  if d.iContentsLengthDER > KMaxShortFormLength then
    ((d.iLengthLengthDER - 1).toUInt8 ||| 0x80) ::
      base256 (d.iLengthLengthDER - 1) d.iContentsLengthDER
  else [d.iContentsLengthDER.toUInt8]

end CASN1EncData

/-! ### Trees -/

/-- An encoder.  A sequence and a set are containers, an explicit tag is constructed and
nothing can be added to it. -/
inductive CASN1EncBase where
  | leaf (data : CASN1EncData) (contents : CASN1EncLeaf)
  | constructed (data : CASN1EncData) (isContainer : Bool) (iChildren : List CASN1EncBase)

namespace CASN1EncBase

def data : CASN1EncBase → CASN1EncData
  | leaf d _ => d
  | constructed d _ _ => d

def lengthDER (self : CASN1EncBase) : Nat := self.data.lengthDER

def isConstructed : CASN1EncBase → Bool
  | leaf _ contents => contents.isConstructed
  | constructed _ _ _ => true

/-- `CASN1EncConstructed::CalculateContentsLengthDER` -/
def sumLengths (iChildren : List CASN1EncBase) : Nat := (iChildren.map lengthDER).sum

def setTag (aType : UInt32) (aClass : TASN1Class) : CASN1EncBase → CASN1EncBase
  | leaf d contents => leaf (d.setTag aType aClass) contents
  | constructed d isContainer iChildren =>
    constructed (d.setTag aType aClass) isContainer iChildren

/-- `ContentsLengthChanged`, without its call to the parent. -/
def contentsLengthChanged : CASN1EncBase → CASN1EncBase
  | leaf d contents => leaf (d.contentsLengthChanged contents.calculateContentsLengthDER) contents
  | constructed d isContainer iChildren =>
    constructed (d.contentsLengthChanged (sumLengths iChildren)) isContainer iChildren

def addChildL (aChild : CASN1EncBase) : CASN1EncBase → Option CASN1EncBase
  | constructed d true iChildren =>
    some (contentsLengthChanged (constructed d true (iChildren ++ [aChild])))
  | _ => none

/-- What `f` does to the node at a path.  With `notify` the nodes above it are told that
the length of their contents has changed. -/
def update (notify : Bool) (f : CASN1EncBase → Option CASN1EncBase) :
    List Nat → CASN1EncBase → Option CASN1EncBase
  | [], self => f self
  | i :: path, constructed d isContainer iChildren => do
    let child ← update notify f path (← iChildren[i]?)
    let self := constructed d isContainer (iChildren.set i child)
    return if notify then self.contentsLengthChanged else self
  | _ :: _, leaf _ _ => none

/-- The trees that the interface can build. -/
inductive Built : CASN1EncBase → Prop
  | leaf (contents : CASN1EncLeaf) :
      Built (leaf (.construct contents.type .EUniversal contents.calculateContentsLengthDER)
        contents)
  /-- `CASN1EncEncoding`, after its `SetTag` -/
  | encoding {aEncoding body : Bytes} {decoder : TASN1DecGeneric}
      (hinit : TASN1DecGeneric.initL aEncoding = .ok decoder)
      (hcontent : decoder.getContentDER = .ok body) :
      Built (leaf (.construct decoder.tag decoder.cls body.length) (.encoding body))
  | sequence : Built (constructed (.construct EASN1Sequence .EUniversal 0) true [])
  | set : Built (constructed (.construct EASN1Set .EUniversal 0) true [])
  | explicitTag {aEncoder : CASN1EncBase} (aType : UInt32) (aClass : TASN1Class)
      (h : Built aEncoder) :
      Built (constructed (.construct aType aClass aEncoder.lengthDER) false [aEncoder])
  | addChildL {self aChild self' : CASN1EncBase} (path : List Nat) (h : Built self)
      (hchild : Built aChild) (hadd : update true (addChildL aChild) path self = some self') :
      Built self'
  | setTag {self self' : CASN1EncBase} (path : List Nat) (aType : UInt32) (aClass : TASN1Class)
      (h : Built self) (hset : update false (fun n => some (n.setTag aType aClass)) path self
        = some self') : Built self'

/-! ### Writing -/

/-- `WriteHelperL`: the part of the buffer that is meant for a section is replaced by what
`aWriteFunc` makes of it. -/
def writeHelperL (aBuf : Bytes) (aPos aLength : Nat) (aWriteFunc : Bytes → Leaving Bytes) :
    Leaving (Bytes × Nat) :=
  if aLength = 0 then .ok (aBuf, aPos)
  else if aBuf.length ≤ aPos then panic
  else do
    let ptr ← aWriteFunc ((aBuf.drop aPos).take aLength)
    return (aBuf.take aPos ++ ptr ++ aBuf.drop (aPos + aLength), aPos + aLength)

/-- `CASN1EncBase::WriteDERL`, the virtual functions given. -/
def writeSectionsDERL (d : CASN1EncData) (isConstructed : Bool)
    (writeContentsDERL : Bytes → Leaving Bytes) (aBuf : Bytes) (aPos : Nat) :
    Leaving (Bytes × Nat) := do
  if (aBuf.length : Int) - aPos < d.lengthDER then
    panic
  let (aBuf, aPos) ← writeHelperL aBuf aPos d.iTagLengthDER fun _ =>
    .ok (d.writeTagDERL isConstructed)
  let (aBuf, aPos) ← writeHelperL aBuf aPos d.iLengthLengthDER fun _ => .ok d.writeLengthDER
  writeHelperL aBuf aPos d.iContentsLengthDER writeContentsDERL

mutual

def writeDERL : CASN1EncBase → Bytes → Nat → Leaving (Bytes × Nat)
  | leaf d contents, aBuf, aPos =>
    writeSectionsDERL d contents.isConstructed (fun _ => .ok contents.writeContentsDERL) aBuf aPos
  | constructed d _ iChildren, aBuf, aPos =>
    writeSectionsDERL d true (fun ptr => do return (← writeChildrenDERL iChildren ptr 0).1) aBuf aPos

/-- `CASN1EncConstructed::WriteContentsDERL` -/
def writeChildrenDERL : List CASN1EncBase → Bytes → Nat → Leaving (Bytes × Nat)
  | [], aBuf, pos => .ok (aBuf, pos)
  | child :: iChildren, aBuf, pos => do
    let (aBuf, pos) ← writeDERL child aBuf pos
    writeChildrenDERL iChildren aBuf pos

end

end CASN1EncBase

end OsSecurity

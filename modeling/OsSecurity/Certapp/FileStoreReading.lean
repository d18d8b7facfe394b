/-
`CPermanentFileStore::ReadInData`: a store that is opened from a file.

The octets of a number that a raw read does not get keep the value that the variable has.
-/
import OsSecurity.Certapp.FileStore

namespace OsSecurity

namespace Certapp

open RReadStream

namespace TCheckedUid

/-- `InternalizeL`: a UID whose check is another is all zeroes. -/
def internalizeL : RReadStream TCheckedUid := do
  let uid1 ← readUint32L
  let uid2 ← readUint32L
  let uid3 ← readUint32L
  let iCheck ← readUint32L
  let iType : TUidType := { uid1 := uid1, uid2 := uid2, uid3 := uid3 }
  return if iCheck = check iType then { iType := iType, iCheck := iCheck }
    else { iType := { uid1 := 0, uid2 := 0, uid3 := 0 }, iCheck := 0 }

end TCheckedUid

namespace TPermanentStoreHeader

def internalizeL : RReadStream TPermanentStoreHeader := do
  let iBackup ← readUint32L
  let iHandle ← readUint32L
  let iRef ← readUint32L
  let iCrc ← readUint16L
  return { iBackup := iBackup, iHandle := iHandle, iRef := iRef, iCrc := iCrc }

/-- The reference to the table of contents that is used.  A reference that is not backed up is
validated as if it was. -/
def toc (header : TPermanentStoreHeader) : Leaving UInt32 :=
  if header.isDirty then
    if header.isValid then .ok header.backupToc else fatalError
  else
    let handle := header.iHandle
    let ref := header.iRef
    let notBackedUp := handle = 0 ∧ header.backupToc ≠ ref
    let toc := if notBackedUp then ref else header.backupToc
    let header := if notBackedUp then header.setBackupToc ref else header
    if ¬ header.isValid then fatalError
    else if tint toc < 0 ∨ (handle &&& ~~~0x0fffffff ≠ 0 ∧ handle ≠ 0x40000000) ∨ tint ref < 0 ∨
        (handle ≠ 0 ∧ tint toc - 12 ≤ tint ref) then fatalError
    else if ¬ header.isValid then fatalError
    else .ok toc

end TPermanentStoreHeader

def TocHeader.internalizeL : RReadStream TocHeader := do
  let iPrimary ← readUint32L
  let iAvail ← readUint32L
  let iCount ← readUint32L
  return { iPrimary := iPrimary, iAvail := iAvail, iCount := iCount }

namespace STocEntry

def internalizeL : RReadStream STocEntry := do
  let handle ← readUint8L
  let ref ← readUint32L
  return { handle := handle.toUInt32 <<< 24, ref := ref }

/-- What is made of an entry: whether its stream is there. -/
def isThere (e : STocEntry) : Leaving Bool :=
  if e.handle &&& 0x30000000 ≠ 0 ∨ (0 ≤ tint e.handle ∧ tint e.ref < -1) ∨
      (tint e.handle < 0 ∧ (0 < tint e.ref ∨ e.ref &&& 0x30000000 ≠ 0)) then fatalError
  else if e.handle &&& 0x80000000 ≠ 0 then .ok false
  else if e.handle &&& 0xf0000000 ≠ 0 ∨ tint e.ref < 0 then fatalError
  else .ok true

end STocEntry

namespace CPermanentFileStore

open FileStreamBuf Packing

/-- A little-endian number over what a variable held. -/
def readOver (held octets : Bytes) : UInt32 :=
  UInt32.ofNat (pack littleEndian 0 (octets ++ held.drop octets.length))

/-- `ReadStreamData` from its first frame on.  Each turn reads the two octets of a frame, so
that there are no more turns than octets. -/
def readFrames : Nat → Bool → FileStreamBuf → Bytes → Leaving (Bytes × FileStreamBuf)
  | 0, _, _, _ => fatalError
  | fuel + 1, isFirst, iFileIn, iData => do
    let (octets, iFileIn) ← iFileIn.doReadL 2
    let fileOffset ← iFileIn.tellL
    let frame := UInt16.ofNat (pack littleEndian 0 octets)
    let frameType := frame &&& KMaskFrameType16
    if frameType = EFrameFree16 then fatalError
    else if frameType = EFrameData16 ∧ ¬ isFirst then fatalError
    else if frameType = EFrameDescriptive16 then fatalError
    else if frameType = EFrameContinuation16 ∧ isFirst then fatalError
    else if frame &&& KMaskFrameLength16 = 0 then do
      let len := 0x4000 - file2Frame (UInt32.ofNat fileOffset)
      let (iData, iFileIn) ← appendFromFile len.toNat iFileIn iData
      readFrames fuel false iFileIn iData
    else appendFromFile (frame &&& KMaskFrameLength16).toNat iFileIn iData

/-- What has been read of a store: the file, and the streams. -/
structure Opening where
  iFileIn : FileStreamBuf
  iStreams : List (UInt32 × Bytes)
  /-- the identifiers of the streams, without their generations -/
  idsRead : List UInt32

def readStreamData (aStreamId aFrameOffset : UInt32) (o : Opening) : Leaving Opening := do
  let iFileIn ← o.iFileIn.seekL (tint (frame2File aFrameOffset - 2))
  let (iData, iFileIn) ← readFrames iFileIn.iFile.length true iFileIn []
  let iStreams ← insertStream aStreamId iData o.iStreams
  return { o with iFileIn := iFileIn, iStreams := iStreams }

/-- The entries of a delta, each with a whole handle. -/
def readDeltaEntries : Nat → Opening → Leaving Opening
  | 0, o => .ok o
  | n + 1, o => do
    let (octets, iFileIn) ← o.iFileIn.doReadL 8
    let e : STocEntry :=
      { handle := readOver [0, 0, 0, 0] (octets.take 4)
        ref := readOver [0, 0, 0, 0] (octets.drop 4) }
    let isThere ← e.isThere
    if isThere then do
      let o ←
        if e.handle &&& ~~~0xff000000 ∈ o.idsRead then fatalError
        else .ok { o with
          iFileIn := iFileIn
          idsRead := o.idsRead ++ [e.handle &&& ~~~0xff000000] }
      let here ← iFileIn.tellL
      let o ← readStreamData e.handle e.ref o
      let iFileIn ← o.iFileIn.seekL (tint (UInt32.ofNat here))
      readDeltaEntries n { o with iFileIn := iFileIn }
    else readDeltaEntries n { o with iFileIn := iFileIn }

/-- A delta, before the table that it is to, and where that table is. -/
def readDelta (oldToc : UInt32) (o : Opening) : Leaving (UInt32 × Opening) := do
  let (octets, iFileIn) ← o.iFileIn.doReadL 4
  let toc := readOver (RWriteStream.writeUint32L oldToc) octets
  let tocFileOffset := frame2File (toc - 12)
  if tint tocFileOffset < 0 ∨ tint oldToc < tint tocFileOffset then fatalError
  else do
    let (_, iFileIn) ← iFileIn.doReadL 2
    let (octets, iFileIn) ← iFileIn.doReadL 1
    match octets with
    | [] => .error .undefined
    | n :: _ => do
      let o ← readDeltaEntries (if n < 0x80 then n.toNat else 0) { o with iFileIn := iFileIn }
      return (tocFileOffset, o)

/-- The entries of the table of contents from one on. -/
def readEntries (tocFileOffset : UInt32) : Nat → UInt32 → Opening → Leaving Opening
  | 0, _, o => .ok o
  | n + 1, tocIndex, o =>
    let baseStreamId := tocIndex + 1
    if baseStreamId ∈ o.idsRead then readEntries tocFileOffset n (tocIndex + 1) o
    else do
      let iFileIn ← o.iFileIn.seekL (tint (tocFileOffset + 12 + 5 * tocIndex))
      let (e, iFileIn) ← iFileIn.get STocEntry.internalizeL
      let isThere ← e.isThere
      let o : Opening := { o with iFileIn := iFileIn }
      let o ←
        if isThere then
          readStreamData (baseStreamId ||| e.handle) e.ref
            { o with idsRead := o.idsRead ++ [baseStreamId] }
        else .ok o
      readEntries tocFileOffset n (tocIndex + 1) o

/-- Where the table of contents is, behind the delta if there is one. -/
def readAnyDelta (toc : UInt32) (h : TocHeader) (o : Opening) : Leaving (UInt32 × Opening) :=
  if h.iPrimary &&& 0x80000000 ≠ 0 then readDelta toc o else .ok (frame2File (toc - 12), o)

/-- The table of contents, and the streams in it. -/
def readToc (toc : UInt32) (iFileIn : FileStreamBuf) : Leaving CPermanentFileStore := do
  let iFileIn ← iFileIn.seekL (tint (frame2File (toc - 12)))
  let (h, iFileIn) ← iFileIn.get TocHeader.internalizeL
  if h.iPrimary &&& ~~~0x8fffffff ≠ 0 ∨ 0 < tint h.iAvail ∨ h.iAvail &&& 0x30000000 ≠ 0 ∨
      h.iCount &&& ~~~0x00ffffff ≠ 0 then fatalError
  else do
    let (tocFileOffset, o) ←
      readAnyDelta toc h { iFileIn := iFileIn, iStreams := [], idsRead := [] }
    let o ← readEntries tocFileOffset h.iCount.toNat 0 o
    return {
      iWritable := false
      iRoot := h.iPrimary &&& ~~~0x80000000
      iLastStreamIdCreated := 0
      iStreams := o.iStreams }

/-- `OpenLC`, with `ReadInData` -/
def readInData (file : Bytes) : Leaving CPermanentFileStore := do
  let (id, iFileIn) ← (opened file).get TCheckedUid.internalizeL
  if id.iType ≠ KPermanentFileStoreLayoutUid then fatalError
  else do
    let (header, iFileIn) ← iFileIn.get TPermanentStoreHeader.internalizeL
    let toc ← header.toc
    readToc toc iFileIn

end CPermanentFileStore

end Certapp

end OsSecurity

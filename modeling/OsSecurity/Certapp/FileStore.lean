/-
`CPermanentFileStore` in `s32file.cpp`: how `CommitL` lays a store out in a file.

The file is a checked UID of 16 octets and a header of 14, then frames: two octets, with the type
of the frame and the length of what it holds, before that.  A frame of length 0 is open and
goes on to the next anchor.  An offset into the frames counts what they hold and leaves out
their octets, as if there were a frame to every anchor and no other.
-/
import OsSecurity.Certapp.FileStream

namespace OsSecurity

open UInt32

namespace Certapp

open RWriteStream

namespace Mem

def crcTab : List UInt32 := [
  0x0000, 0x1021, 0x2042, 0x3063, 0x4084, 0x50a5, 0x60c6, 0x70e7, 0x8108, 0x9129, 0xa14a,
  0xb16b, 0xc18c, 0xd1ad, 0xe1ce, 0xf1ef, 0x1231, 0x0210, 0x3273, 0x2252, 0x52b5, 0x4294,
  0x72f7, 0x62d6, 0x9339, 0x8318, 0xb37b, 0xa35a, 0xd3bd, 0xc39c, 0xf3ff, 0xe3de, 0x2462,
  0x3443, 0x0420, 0x1401, 0x64e6, 0x74c7, 0x44a4, 0x5485, 0xa56a, 0xb54b, 0x8528, 0x9509,
  0xe5ee, 0xf5cf, 0xc5ac, 0xd58d, 0x3653, 0x2672, 0x1611, 0x0630, 0x76d7, 0x66f6, 0x5695,
  0x46b4, 0xb75b, 0xa77a, 0x9719, 0x8738, 0xf7df, 0xe7fe, 0xd79d, 0xc7bc, 0x48c4, 0x58e5,
  0x6886, 0x78a7, 0x0840, 0x1861, 0x2802, 0x3823, 0xc9cc, 0xd9ed, 0xe98e, 0xf9af, 0x8948,
  0x9969, 0xa90a, 0xb92b, 0x5af5, 0x4ad4, 0x7ab7, 0x6a96, 0x1a71, 0x0a50, 0x3a33, 0x2a12,
  0xdbfd, 0xcbdc, 0xfbbf, 0xeb9e, 0x9b79, 0x8b58, 0xbb3b, 0xab1a, 0x6ca6, 0x7c87, 0x4ce4,
  0x5cc5, 0x2c22, 0x3c03, 0x0c60, 0x1c41, 0xedae, 0xfd8f, 0xcdec, 0xddcd, 0xad2a, 0xbd0b,
  0x8d68, 0x9d49, 0x7e97, 0x6eb6, 0x5ed5, 0x4ef4, 0x3e13, 0x2e32, 0x1e51, 0x0e70, 0xff9f,
  0xefbe, 0xdfdd, 0xcffc, 0xbf1b, 0xaf3a, 0x9f59, 0x8f78, 0x9188, 0x81a9, 0xb1ca, 0xa1eb,
  0xd10c, 0xc12d, 0xf14e, 0xe16f, 0x1080, 0x00a1, 0x30c2, 0x20e3, 0x5004, 0x4025, 0x7046,
  0x6067, 0x83b9, 0x9398, 0xa3fb, 0xb3da, 0xc33d, 0xd31c, 0xe37f, 0xf35e, 0x02b1, 0x1290,
  0x22f3, 0x32d2, 0x4235, 0x5214, 0x6277, 0x7256, 0xb5ea, 0xa5cb, 0x95a8, 0x8589, 0xf56e,
  0xe54f, 0xd52c, 0xc50d, 0x34e2, 0x24c3, 0x14a0, 0x0481, 0x7466, 0x6447, 0x5424, 0x4405,
  0xa7db, 0xb7fa, 0x8799, 0x97b8, 0xe75f, 0xf77e, 0xc71d, 0xd73c, 0x26d3, 0x36f2, 0x0691,
  0x16b0, 0x6657, 0x7676, 0x4615, 0x5634, 0xd94c, 0xc96d, 0xf90e, 0xe92f, 0x99c8, 0x89e9,
  0xb98a, 0xa9ab, 0x5844, 0x4865, 0x7806, 0x6827, 0x18c0, 0x08e1, 0x3882, 0x28a3, 0xcb7d,
  0xdb5c, 0xeb3f, 0xfb1e, 0x8bf9, 0x9bd8, 0xabbb, 0xbb9a, 0x4a75, 0x5a54, 0x6a37, 0x7a16,
  0x0af1, 0x1ad0, 0x2ab3, 0x3a92, 0xfd2e, 0xed0f, 0xdd6c, 0xcd4d, 0xbdaa, 0xad8b, 0x9de8,
  0x8dc9, 0x7c26, 0x6c07, 0x5c64, 0x4c45, 0x3ca2, 0x2c83, 0x1ce0, 0x0cc1, 0xef1f, 0xff3e,
  0xcf5d, 0xdf7c, 0xaf9b, 0xbfba, 0x8fd9, 0x9ff8, 0x6e17, 0x7e36, 0x4e55, 0x5e74, 0x2e93,
  0x3eb2, 0x0ed1, 0x1ef0]

/-- `Mem::Crc` -/
def crc (aCrc : UInt16) (aPtr : Bytes) : UInt16 :=
  (aPtr.foldl (fun (crc : UInt32) b =>
    (crc <<< 8) ^^^ crcTab.getD (((crc >>> 8) ^^^ b.toUInt32) &&& 0xff).toNat 0)
    aCrc.toUInt32).toUInt16

/-- Every other octet. -/
def everyOther : Bytes → Bytes
  | [] => []
  | [b] => [b]
  | b :: _ :: bs => b :: everyOther bs

def checkSum (aPtr : Bytes) : UInt32 := (crc 0 (everyOther aPtr)).toUInt32

end Mem

/-- A `TInt` made of 32 bits. -/
def tint (x : UInt32) : Int := TInt.wrap x.toNat

structure TUidType where
  uid1 : UInt32
  uid2 : UInt32
  uid3 : UInt32
  deriving DecidableEq

def KPermanentFileStoreLayoutUid : TUidType where
  uid1 := 268435536
  uid2 := 0
  uid3 := 0

def TUidType.octets (aUidType : TUidType) : Bytes :=
  writeUint32L aUidType.uid1 ++ writeUint32L aUidType.uid2 ++ writeUint32L aUidType.uid3

/-- `TCheckedUid` -/
structure TCheckedUid where
  iType : TUidType
  iCheck : UInt32

namespace TCheckedUid

/-- `Check` of a UID type. -/
def check (iType : TUidType) : UInt32 :=
  (Mem.checkSum (iType.octets.drop 1) <<< 16) ||| Mem.checkSum iType.octets

def ofType (aUidType : TUidType) : TCheckedUid where
  iType := aUidType
  iCheck := check aUidType

def externalizeL (aUid : TCheckedUid) : Bytes := aUid.iType.octets ++ writeUint32L aUid.iCheck

end TCheckedUid

/-! ### The two coordinates -/

/-- An offset into the frames, in the file. -/
def frame2File (anOffset : UInt32) : UInt32 := anOffset + ((anOffset >>> 14) <<< 1) + 32

/-- A place in the file, as an offset into the frames. -/
def file2Frame (aFileOffset : UInt32) : UInt32 :=
  let o := aFileOffset - 32
  o - ((o / 0x4002) <<< 1)

/-! ### The parts of the file -/

/-- `TPermanentStoreHeader` -/
structure TPermanentStoreHeader where
  iBackup : UInt32
  iHandle : UInt32
  iRef : UInt32
  iCrc : UInt16

namespace TPermanentStoreHeader

/-- What the checksum is of. -/
def octets (h : TPermanentStoreHeader) : Bytes :=
  writeUint32L h.iBackup ++ writeUint32L h.iHandle ++ writeUint32L h.iRef

def isDirty (h : TPermanentStoreHeader) : Bool := h.iBackup &&& 1 = 1

def isValid (h : TPermanentStoreHeader) : Bool := !h.isDirty && Mem.crc 0 h.octets = h.iCrc

def set (aBackupToc aHandle aReference : UInt32) : TPermanentStoreHeader :=
  let h : TPermanentStoreHeader :=
    { iBackup := aBackupToc <<< 1, iHandle := aHandle, iRef := aReference, iCrc := 0 }
  { h with iCrc := Mem.crc 0 h.octets }

def ofToc (aToc : UInt32) : TPermanentStoreHeader := set aToc 0 aToc

def setBackupToc (aBackupToc : UInt32) (h : TPermanentStoreHeader) : TPermanentStoreHeader :=
  { h with iBackup := aBackupToc <<< 1 }

def backupToc (h : TPermanentStoreHeader) : UInt32 := h.iBackup >>> 1

def externalizeL (h : TPermanentStoreHeader) : Bytes :=
  h.octets ++ writeUint16L h.iCrc.toUInt32

end TPermanentStoreHeader

/-- `TocHeader` -/
structure TocHeader where
  iPrimary : UInt32
  iAvail : UInt32
  iCount : UInt32

def TocHeader.externalizeL (h : TocHeader) : Bytes :=
  writeUint32L h.iPrimary ++ writeUint32L h.iAvail ++ writeUint32L h.iCount

/-- `STocEntry` -/
structure STocEntry where
  handle : UInt32
  ref : UInt32

/-- The highest octet of the handle, and the reference. -/
def STocEntry.externalizeL (e : STocEntry) : Bytes :=
  writeUint8L (e.handle >>> 24) ++ writeUint32L e.ref

/-! ### The store -/

/-- The streams by their identifiers, each by its data. -/
structure CPermanentFileStore where
  iWritable : Bool
  iRoot : UInt32
  iLastStreamIdCreated : UInt32
  iStreams : List (UInt32 × Bytes)

namespace CPermanentFileStore

/-- `ReplaceLC`, and `SetRootL` -/
def replaceLC (anId : UInt32) : CPermanentFileStore where
  iWritable := true
  iRoot := anId
  iLastStreamIdCreated := 0
  iStreams := []

/-- A stream behind the others, if there is none with its identifier. -/
def insertStream (id : UInt32) (iData : Bytes) (iStreams : List (UInt32 × Bytes)) :
    Leaving (List (UInt32 × Bytes)) :=
  if (iStreams.lookup id).isSome then fatalError else .ok (iStreams ++ [(id, iData)])

/-- `CreateStoreWriteStream`, and what is then written to the stream. -/
def createStoreWriteStream (iData : Bytes) (s : CPermanentFileStore) :
    Leaving CPermanentFileStore := do
  let id := s.iLastStreamIdCreated + 1
  let iStreams ← insertStream id iData s.iStreams
  return { s with iLastStreamIdCreated := id, iStreams := iStreams }

def EFrameFree16 : UInt16 := 0x0000
def EFrameData16 : UInt16 := 0x4000
def EFrameDescriptive16 : UInt16 := 0x8000
def EFrameContinuation16 : UInt16 := 0xc000
def KMaskFrameType16 : UInt16 := 0xc000
def KMaskFrameLength16 : UInt16 := 0x3fff

/-- The frames of a stream that is written from a place on.  Each turn writes an octet at
least. -/
def writeFrames : Nat → UInt16 → Nat → UInt32 → Bytes → Bytes
  | 0, _, _, _, _ => []
  | fuel + 1, currentType, tell, dataAvailable, data =>
    if dataAvailable = 0 then []
    else
      let frameOffset := file2Frame (ofNat tell + 2)
      let nextAnchor := (frameOffset + 0x4000) &&& ~~~0x3fff
      let isOpen := nextAnchor - frameOffset ≤ dataAvailable
      let toWrite :=
        if isOpen then nextAnchor - frameOffset
        else if dataAvailable < 0x3fff then dataAvailable else 0x3fff
      let frame := if isOpen then currentType else currentType ||| toWrite.toUInt16
      writeUint16L frame.toUInt32 ++ data.take toWrite.toNat ++
        writeFrames fuel EFrameContinuation16 (tell + 2 + toWrite.toNat)
          (dataAvailable - toWrite) (data.drop toWrite.toNat)

/-- The frames of one stream. -/
def writeStream (tell : Nat) (streamData : Bytes) : Bytes :=
  writeFrames streamData.length EFrameData16 tell (ofNat streamData.length) streamData

def writeStreams : Nat → List Bytes → Bytes
  | _, [] => []
  | tell, streamData :: more =>
    let frames := writeStream tell streamData
    frames ++ writeStreams (tell + frames.length) more

/-- Where in the file the first octet of each stream would be. -/
def streamOffsets : Nat → List Bytes → List UInt32
  | _, [] => []
  | tell, streamData :: more =>
    (ofNat tell + 2) ::
      streamOffsets (tell + (writeStream tell streamData).length) more

def commitL (s : CPermanentFileStore) : Leaving Bytes :=
  if ¬ s.iWritable then fatalError
  else
    let id := (TCheckedUid.ofType KPermanentFileStoreLayoutUid).externalizeL
    let tmpheader := (TPermanentStoreHeader.ofToc 0).externalizeL
    let start := (id ++ tmpheader).length
    let frames := writeStreams start (s.iStreams.map Prod.snd)
    let offsets := streamOffsets start (s.iStreams.map Prod.snd)
    let tocLength := ofNat (12 + s.iStreams.length * 5)
    if 0x3fff < tint tocLength then fatalError
    else
      let frame := writeUint16L (tocLength.toUInt16 ||| EFrameDescriptive16).toUInt32
      let tocFrameOffset := file2Frame (ofNat (start + frames.length + frame.length))
      let tocheader : TocHeader :=
        { iPrimary := s.iRoot, iAvail := 0, iCount := ofNat s.iStreams.length }
      let entries := offsets.flatMap fun o =>
        STocEntry.externalizeL { handle := 0, ref := file2Frame o }
      let realheader := (TPermanentStoreHeader.ofToc (tocFrameOffset + 12)).setBackupToc 0
      .ok (id ++ realheader.externalizeL ++ frames ++ frame ++ tocheader.externalizeL ++ entries)

end CPermanentFileStore

end Certapp

end OsSecurity

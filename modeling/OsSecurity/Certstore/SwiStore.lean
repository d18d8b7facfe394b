/-
The certificate store for software installation (`CSWICertStoreImpl`).

The certificates come from the store files in ROM, and from the newest of the store files in a
directory on the system drive, which is read again whenever a notification says that it changed.
With aggregation enabled the files in ROM make up one list, a label at a time, and a label that
the writable store has too eclipses the one in ROM.

The token is the same for all certificates, so a handle is a certificate id.  What the platform
reads of a label and of a capability set is a parameter: the text is compressed, and the length
of the set is the platform's own.  Memory does not run out.
-/
import OsSecurity.Library.Commands
import OsSecurity.Library.FirstByKey
import OsSecurity.Tokens.CertStoreServer

namespace OsSecurity

open Commands FirstByKey

namespace Swicertstore

/-! ### Entries -/

/-- A reader that can leave, and nothing worse. -/
def OnlyLeaves {α : Type} (read : RReadStream α) : Prop :=
  ∀ octets e, read octets = .error e → ∃ k, e = .leave k

/-- What the platform reads from a stream for `operator>>`. -/
structure StreamFormats where
  readLabel : RReadStream Text
  readCapabilities : RReadStream Bytes
  leaves : OnlyLeaves readLabel ∧ OnlyLeaves readCapabilities

/-- What a `CCTCertInfo` and a `CCertInfo` have in common. -/
abbrev MCertInfo := CCertInfo

structure TCertMetaInfo where
  iCapabilities : Bytes
  iIsMandatory : Bool
  iIsSystemUpgrade : Bool

structure CSWICertStoreEntry where
  iCertInfo : MCertInfo
  iCertificateApps : List UInt32
  iTrusted : Bool
  iDataStreamId : StreamId
  iCertMetaInfo : TCertMetaInfo
  iStoreIndex : Nat

abbrev CSWICertStoreEntryList := List CSWICertStoreEntry

namespace CSWICertStoreEntry

def handle (entry : CSWICertStoreEntry) : Int := entry.iCertInfo.iCertificateId

def label (entry : CSWICertStoreEntry) : Text := entry.iCertInfo.iLabel

/-- A copy of an entry.  `CCTCertInfo::NewL` checks it once more. -/
def newL (entry : CSWICertStoreEntry) : Leaving CSWICertStoreEntry :=
  if entry.iCertInfo.valid then .ok entry else leave KErrArgument

end CSWICertStoreEntry

def KReadOnlyFlagMask : UInt8 := 128
def KFormatMask : UInt8 := 127
def KMandatory : UInt8 := 0x00
def KSystemUpgrade : UInt8 := 0x01

/-- The length of a `TKeyIdentifier`. -/
def KSHA1Hash : Nat := 20

section Reading

open RReadStream

def readInt32L : RReadStream Int := do
  let n ← readUint32L
  return n.toInt32.toInt

def undefinedStream {α : Type} : RReadStream α := fun _ => .error .undefined

/-- `n` readings, one after the other. -/
def readMany {α : Type} (read : RReadStream α) : Nat → RReadStream (List α)
  | 0 => return []
  | n + 1 => do
      let a ← read
      let as ← readMany read n
      return a :: as

variable (f : StreamFormats)

/-- `MCertInfo::InternalizeL` -/
def MCertInfo.internalizeL : RReadStream MCertInfo := do
  let tmpValue ← readUint8L
  let iSize ← readInt32L
  let iLabel ← f.readLabel
  let iCertificateId ← readInt32L
  let iCertificateOwnerType ← readUint8L
  let iSubjectKeyId ← readDes8L KSHA1Hash
  let iIssuerKeyId ← readDes8L KSHA1Hash
  let info : MCertInfo := {
    iLabel := iLabel
    iCertificateId := iCertificateId
    iFormat := (tmpValue &&& KFormatMask).toNat
    iCertificateOwnerType := iCertificateOwnerType.toNat
    iSize := iSize
    iSubjectKeyId := iSubjectKeyId
    iIssuerKeyId := iIssuerKeyId
    iDeletable := tmpValue &&& KReadOnlyFlagMask = 0 }
  if info.valid then return info else leaves KErrCorrupt

/-- `CSWICertStoreEntry::InternalizeL` -/
def CSWICertStoreEntry.internalizeL (aCertIndex : Int) (aStoreIndex : Nat) :
    RReadStream CSWICertStoreEntry := do
  let iCertInfo ← MCertInfo.internalizeL f
  let count ← readInt32L
  let iCertificateApps ← readMany readUint32L count.toNat
  let trusted ← readUint8L
  let iDataStreamId ← readUint32L
  let iCapabilities ← f.readCapabilities
  let value ← readUint8L
  return {
    iCertInfo := { iCertInfo with iCertificateId := aCertIndex }
    iCertificateApps := iCertificateApps
    iTrusted := trusted ≠ 0
    iDataStreamId := iDataStreamId
    iCertMetaInfo := {
      iCapabilities := iCapabilities
      iIsMandatory := value &&& (1 <<< KMandatory) ≠ 0
      iIsSystemUpgrade := value &&& (1 <<< KSystemUpgrade) ≠ 0 }
    iStoreIndex := aStoreIndex }

/-- The loop of `CSWICertStoreEntryList::InternalizeL`, from `aCertIndex + i` on. -/
def internalizeEntriesL (aStoreIndex : Nat) : Nat → Int → RReadStream CSWICertStoreEntryList
  | 0, _ => return []
  | n + 1, aCertIndex =>
      if KMaxTInt < aCertIndex then undefinedStream
      else do
        let entry ← CSWICertStoreEntry.internalizeL f aCertIndex aStoreIndex
        let iEntries ← internalizeEntriesL aStoreIndex n (aCertIndex + 1)
        return entry :: iEntries

/-- `CSWICertStoreEntryList::NewL` -/
def CSWICertStoreEntryList.newL (aCertIndex : Int) (aStoreIndex : Nat) :
    RReadStream CSWICertStoreEntryList := do
  let count ← readInt32L
  internalizeEntriesL f aStoreIndex count.toNat aCertIndex

end Reading

namespace CSWICertStoreEntryList

def labelExists (iEntries : CSWICertStoreEntryList) (aLabel : Text) : Bool :=
  iEntries.any fun entry => entry.label = aLabel

def getByHandleL (iEntries : CSWICertStoreEntryList) (aHandle : Int) :
    Leaving CSWICertStoreEntry :=
  match iEntries.find? fun entry => aHandle = entry.handle with
  | some entry => .ok entry
  | none => leave KErrNotFound

end CSWICertStoreEntryList

/-! ### Store files -/

/-- A store file and the streams in it. -/
structure CPermanentFileStore where
  root : StreamId
  stream : StreamId → Option Bytes

/-- `RStoreReadStream::OpenLC` -/
def CPermanentFileStore.openLC (s : CPermanentFileStore) (aId : StreamId) : Leaving Bytes :=
  match s.stream aId with
  | some octets => .ok octets
  | none => leave KErrNotFound

/-- What is read from the start of a stream. -/
def readFrom {α : Type} (octets : Bytes) (read : RReadStream α) : Leaving α := do
  let (a, _) ← read octets
  return a

/-- A directory of store files, as `RFs` shows it at one time.  `GetDir` has the names in the
order that is asked for, and a file that `FromL` leaves for is `none`. -/
structure Directory where
  getDir : Except Int (List Text)
  openFile : Text → Int
  fromL : Text → Option CPermanentFileStore

/-- The stream that the root stream names has the list of entries. -/
def readEntriesL (f : StreamFormats) (s : CPermanentFileStore) (aCertIndex : Int)
    (aStoreIndex : Nat) : Leaving CSWICertStoreEntryList := do
  let root ← s.openLC s.root
  let streamId ← readFrom root RReadStream.readUint32L
  let octets ← s.openLC streamId
  readFrom octets (CSWICertStoreEntryList.newL f aCertIndex aStoreIndex)

/-! ### The store -/

structure CSWICertStoreImpl where
  /-- whether the certificates of several files are aggregated -/
  iPatchableConst : Bool
  iCEntryList : Option CSWICertStoreEntryList := none
  iZEntryList : CSWICertStoreEntryList := []
  iCStore : Option CPermanentFileStore := none
  iZStore : Option CPermanentFileStore := none
  iZArrayOfStores : List CPermanentFileStore := []
  iCertIndex : Int := 0

abbrev Impl (α : Type) := Command CSWICertStoreImpl Exit α

/-- `User::LeaveIfError` -/
def leaveIfError (aError : Int) : Impl Unit :=
  if aError < 0 then throw (.leave aError) else pure ()

/-- The rest of `f` is not done when `x` is left. -/
def may {α : Type} (x : Leaving α) : Impl α :=
  match x with
  | .ok a => pure a
  | .error e => throw e

def trapIgnore (f : Impl Unit) : Impl Unit :=
  tryCatch f fun
    | .leave _ => pure ()
    | e => throw e

namespace CSWICertStoreImpl

/-! ### `MergeCertificateEntryListsL` -/

/-- `aIsZEntryList` is false: an entry is appended to `iZEntryList` if its label is new there. -/
def mergeIntoZ (z : CSWICertStoreEntryList) (entry : CSWICertStoreEntry) :
    Leaving CSWICertStoreEntryList :=
  if z.labelExists entry.label then .ok z
  else do
    let newEntry ← entry.newL
    return z ++ [newEntry]

/-- `aIsZEntryList` is true, so `aSourceList` is `iZEntryList` itself: the count is that of the
start, and an index past the end panics. -/
def removeFromZ (c z : CSWICertStoreEntryList) : Leaving CSWICertStoreEntryList :=
  match removeAt (fun entry => c.labelExists entry.label) z.length 0 z with
  | some z => .ok z
  | none => panic

def mergeCertificateEntryListsL (aSourceList : CSWICertStoreEntryList) : Impl Unit := do
  let m ← get
  let z ← may (aSourceList.foldlM mergeIntoZ m.iZEntryList)
  modify fun m => { m with iZEntryList := z }

def mergeZEntryListL (c : CSWICertStoreEntryList) : Impl Unit := do
  let m ← get
  let z ← may (removeFromZ c m.iZEntryList)
  modify fun m => { m with iZEntryList := z }

/-- `iCertIndex += aCount` -/
def advance (aCount : Nat) : Impl Unit := do
  let m ← get
  if KMaxTInt < m.iCertIndex + aCount then throw .undefined
  else modify fun m => { m with iCertIndex := m.iCertIndex + aCount }

variable (f : StreamFormats)

/-! ### The stores in ROM -/

/-- A file that is a store.  `index` is its place in `iZArrayOfStores`. -/
def addZStoreL (store : CPermanentFileStore) (index : Nat) : Impl Unit := do
  modify fun m => { m with iZArrayOfStores := m.iZArrayOfStores ++ [store] }
  let m ← get
  match m.iZArrayOfStores[index]? with
  | none => throw .panic
  | some store => do
      let temp_list ← may (readEntriesL f store m.iCertIndex index)
      advance temp_list.length
      mergeCertificateEntryListsL temp_list

/-- The loop of `SetupCompositeROMCertStoreL`.  A file that is no store is counted. -/
def addZStoresL (d : Directory) : List Text → (i corruptCount : Nat) → Impl Unit
  | [], _, _ => pure ()
  | iName :: filenameList, i, corruptCount => do
      leaveIfError (d.openFile iName)
      match d.fromL iName with
      | none => addZStoresL d filenameList (i + 1) (corruptCount + 1)
      | some store => do
          addZStoreL f store (i - corruptCount)
          addZStoresL d filenameList (i + 1) corruptCount

/-- The names are in descending order. -/
def setupCompositeROMCertStoreL (rom : Directory) : Impl Unit :=
  match rom.getDir with
  | .error e => throw (.leave e)
  | .ok filenameList => addZStoresL f rom filenameList 0 0

/-- Without aggregation there is one file. -/
def setupROMCertStoreL (single : Except Int CPermanentFileStore) : Impl Unit :=
  match single with
  | .error e => throw (.leave e)
  | .ok store => do
      modify fun m => { m with iZStore := some store }
      let entries ← may (readEntriesL f store 0 0)
      modify fun m => { m with iZEntryList := entries, iCertIndex := entries.length }

/-! ### The writable store -/

/-- The loop of `SetupWritableCertStoreL`: the store that it ends with, if there is one.  `none`
is a loop that has not ended, and `err` is what the last file could not be opened for. -/
def newest : (err : Int) → List Directory → Option (Option CPermanentFileStore)
  | _, [] => none
  | err, d :: ds =>
      match d.getDir with
      | .error _ => if err = KErrNotFound then newest err ds else some none
      | .ok entryList =>
        match entryList.getLast? with
        | none => some none
        | some certstoreFile =>
          if d.openFile certstoreFile = KErrNotFound then newest KErrNotFound ds
          else if d.openFile certstoreFile = KErrNone then some (d.fromL certstoreFile)
          else some none

/-- What one call of `SetupWritableCertStoreL` sees of the directory, once for each turn. -/
structure Looks where
  directories : List Directory
  ends : (newest KErrNone directories).isSome

def Looks.opened (looks : Looks) : Option CPermanentFileStore :=
  (newest KErrNone looks.directories).get looks.ends

def setupWritableCertStoreL (looks : Looks) : Impl Unit := do
  modify fun m => { m with iCEntryList := none, iCStore := none }
  match looks.opened with
  | none => pure ()
  | some store => do
      modify fun m => { m with iCStore := some store }
      let m ← get
      let entries ← may (readEntriesL f store m.iCertIndex 0)
      modify fun m => { m with iCEntryList := some entries }
      advance entries.length

/-! ### Construction and notifications -/

/-- What the store is constructed from: the answer to `Attach`, the files in ROM, and the file
that is there without aggregation. -/
structure Rom where
  attached : Int
  composite : Directory
  single : Except Int CPermanentFileStore

def setupZL (rom : Rom) : Impl Unit := do
  let m ← get
  if m.iPatchableConst then setupCompositeROMCertStoreL f rom.composite
  else setupROMCertStoreL f rom.single

def eclipseZL : Impl Unit := do
  let m ← get
  match m.iCEntryList with
  | some c => if m.iPatchableConst then mergeZEntryListL c else pure ()
  | none => pure ()

def constructL (rom : Rom) (looks : Looks) : Impl Unit := do
  leaveIfError rom.attached
  setupZL f rom
  trapIgnore (setupWritableCertStoreL f looks)
  eclipseZL

/-- A notification. -/
def runL (looks : Looks) : Impl Unit := trapIgnore (setupWritableCertStoreL f looks)

/-! ### What a client sees -/

variable (m : CSWICertStoreImpl)

/-- The entry in the writable store, found or not. -/
def findInC (aHandle : Int) : Option CSWICertStoreEntry :=
  match m.iCEntryList with
  | some c => (c.getByHandleL aHandle).toOption
  | none => none

/-- The entry, and whether it is from the writable store. -/
def getCSWICertStoreEntryL (aHandle : Int) : Leaving (CSWICertStoreEntry × Bool) :=
  match m.findInC aHandle with
  | some entry => .ok (entry, true)
  | none => do
      let entry ← m.iZEntryList.getByHandleL aHandle
      return (entry, false)

/-- A pointer or an element of the array that `RetrieveL` uses. -/
def storeOf (entry : CSWICertStoreEntry) (isCEntryHandle : Bool) : Leaving CPermanentFileStore :=
  let store :=
    if m.iCEntryList.isSome ∧ isCEntryHandle then m.iCStore
    else if m.iPatchableConst then m.iZArrayOfStores[entry.iStoreIndex]?
    else m.iZStore
  match store with
  | some s => .ok s
  | none => panic

end CSWICertStoreImpl

/-- How `RetrieveL` reads the certificate of an entry from a store. -/
def CSWICertStoreEntry.retrieveFromL (entry : CSWICertStoreEntry) (s : CPermanentFileStore)
    (aMaxLength : Nat) : Leaving Bytes := do
  let octets ← s.openLC entry.iDataStreamId
  if (aMaxLength : Int) < entry.iCertInfo.iSize then leave KErrOverflow
  else readFrom octets (RReadStream.readL entry.iCertInfo.iSize.toNat)

def CSWICertStoreImpl.retrieveL (m : CSWICertStoreImpl) (aHandle : Int) (aMaxLength : Nat) :
    Leaving Bytes := do
  let (entry, isCEntryHandle) ← m.getCSWICertStoreEntryL aHandle
  let s ← m.storeOf entry isCEntryHandle
  entry.retrieveFromL s aMaxLength

end Swicertstore

end OsSecurity

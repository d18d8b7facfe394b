/-
The key data manager of the file key store (`CFileKeyDataManager`).

The manager keeps in memory the list of keys, the default passphrase id and the timeout.  The
store has them too, in an index stream and a timeout stream, with three streams for each key.
An operation on the store ends as its `Outcome` says; a write stream counts as one operation,
from `ReplaceLC` to its `CommitL`.  `RevertL` goes back to what was committed last.

Reclaiming and compaction change no stream and their errors are ignored, so they are left out,
and so is the root stream, which only leads to the index.
-/
import OsSecurity.E32
import OsSecurity.Library.TransactionalStore
import OsSecurity.Library.Transitions

namespace OsSecurity

open TransactionalStore

/-- `TStreamId` -/
abbrev StreamId := UInt32

def KNullStreamId : StreamId := 0


structure CFileKeyData where
  iObjectId : Int
  iInfoData : StreamId
  iPassphraseId : StreamId
  iPublicKeyData : StreamId
  iPrivateKeyData : StreamId
  iLabel : Text

/-- The streams of a key. -/
def CFileKeyData.streams (key : CFileKeyData) : List StreamId :=
  [key.iInfoData, key.iPublicKeyData, key.iPrivateKeyData]

inductive KeyStream where
  /-- the index: default passphrase, timeout stream, keys -/
  | index (iPassStreamId iTimeoutStreamId : StreamId) (iKeys : List CFileKeyData)
  | timeout (iTimeout : Int)
  | data (bytes : Bytes)

abbrev KeyFileStore := Store StreamId KeyStream

structure CFileKeyDataManager where
  iFileStore : KeyFileStore
  iInfoStreamId : StreamId
  iTimeoutStreamId : StreamId
  iPassStreamId : StreamId
  iTimeout : Int
  iKeys : List CFileKeyData
  iKeyIdentifier : Int

/-- `ConstructL`, once the store is open: the index, the keys and the timeout are read.  A stream
that holds something else is taken for one that is missing. -/
def CFileKeyDataManager.constructL (iFileStore : KeyFileStore) (iInfoStreamId : StreamId) :
    Leaving CFileKeyDataManager :=
  match iFileStore.working iInfoStreamId with
  | some (.index iPassStreamId iTimeoutStreamId iKeys) =>
    match iFileStore.working iTimeoutStreamId with
    | some (.timeout iTimeout) =>
      .ok {
        iFileStore
        iInfoStreamId
        iTimeoutStreamId
        iPassStreamId
        iTimeout
        iKeys
        iKeyIdentifier := iKeys.foldl (fun i keyData => max i keyData.iObjectId) 0 }
    | _ => leave KErrNotFound
  | _ => leave KErrNotFound

/-- What a call leaves behind, and how it ends. -/
abbrev KeyCallResult := CFileKeyDataManager × Leaving Unit

namespace CFileKeyDataManager

/-- An operation on the store, and then the rest. -/
def perform (m : CFileKeyDataManager) (o : Outcome) (change : KeyFileStore → KeyFileStore)
    (rest : CFileKeyDataManager → KeyCallResult) : KeyCallResult :=
  match o with
  | .done => rest { m with iFileStore := change m.iFileStore }
  | .failed aError => (m, leave aError)
  | .late aError => ({ m with iFileStore := change m.iFileStore }, leave aError)

/-- `iFileStore->CommitL()`.  A commit that fails commits nothing. -/
def commitL (m : CFileKeyDataManager) (o : Outcome) : KeyCallResult :=
  match o with
  | .done => ({ m with iFileStore := m.iFileStore.commit }, .ok ())
  | .failed aError | .late aError => (m, leave aError)

def revertStore (m : CFileKeyDataManager) : CFileKeyDataManager :=
  { m with iFileStore := m.iFileStore.revert }

/-- The cleanup item, which reverts the store on the way out. -/
def reverting : KeyCallResult → KeyCallResult
  | (m, .ok ()) => (m, .ok ())
  | (m, .error e) => (m.revertStore, .error e)

def writeKeysToStoreL (m : CFileKeyDataManager) (o : Outcome)
    (rest : CFileKeyDataManager → KeyCallResult) : KeyCallResult :=
  m.perform o
    (fun s => s.write m.iInfoStreamId (.index m.iPassStreamId m.iTimeoutStreamId m.iKeys)) rest

/-- `UpdateStoreL`: the keys are written before the cleanup item is there. -/
def updateStoreL (m : CFileKeyDataManager) (index commit : Outcome) : KeyCallResult :=
  m.writeKeysToStoreL index fun m => reverting (m.commitL commit)

/-- `AddL`.  The array may fail to grow. -/
def addL (m : CFileKeyDataManager) (append index commit : Outcome) (aKeyData : CFileKeyData) :
    KeyCallResult :=
  match append with
  | .failed aError | .late aError => (m, leave aError)
  | .done =>
    let added := { m with
      iKeys := m.iKeys ++ [aKeyData]
      iPassStreamId :=
        if (m.iKeys ++ [aKeyData]).length = 1 then aKeyData.iPassphraseId else m.iPassStreamId }
    match added.updateStoreL index commit with
    | (r, .ok ()) => (r, .ok ())
    | (r, .error e) =>
      ({ r with iKeys := r.iKeys.dropLast, iPassStreamId := m.iPassStreamId }, .error e)

/-- The outcomes of a key addition. -/
structure AddOutcomes where
  infoStream : Outcome
  publicStream : Outcome
  privateStream : Outcome
  privateData : Outcome
  publicData : Outcome
  keyInfo : Outcome
  append : Outcome
  index : Outcome
  commit : Outcome

/-- What a key addition is given: the label, the passphrase, the streams that the store hands
out, and what is written into them. -/
structure NewKey where
  aLabel : Text
  aPassStreamId : StreamId
  infoData : StreamId
  publicKeyData : StreamId
  privateKeyData : StreamId
  info : Bytes
  publicKey : Bytes
  privateKey : Bytes

def NewKey.data (k : NewKey) (objectId : Int) : CFileKeyData where
  iObjectId := objectId
  iInfoData := k.infoData
  iPassphraseId := k.aPassStreamId
  iPublicKeyData := k.publicKeyData
  iPrivateKeyData := k.privateKeyData
  iLabel := k.aLabel

def createWriteStreamL (m : CFileKeyDataManager) (o : Outcome) (id : StreamId)
    (rest : CFileKeyDataManager → KeyCallResult) : KeyCallResult :=
  m.perform o (fun s => s.write id (.data [])) fun m =>
    if id = KNullStreamId then (m, leave KErrBadHandle) else rest m

/-- `CreateKeyDataLC`, the three streams written, and `AddL`, as `DoStoreKeyL` and
`PKCS8ToKeyL` do it. -/
def storeKeyL (m : CFileKeyDataManager) (o : AddOutcomes) (k : NewKey) : KeyCallResult :=
  if KMaxTInt ≤ m.iKeyIdentifier then (m, .error .undefined)
  else
    let key := k.data (m.iKeyIdentifier + 1)
    { m with iKeyIdentifier := m.iKeyIdentifier + 1 }.createWriteStreamL o.infoStream k.infoData
      fun m => m.createWriteStreamL o.publicStream k.publicKeyData
      fun m => m.createWriteStreamL o.privateStream k.privateKeyData
      fun m => m.perform o.privateData (fun s => s.write k.privateKeyData (.data k.privateKey))
      fun m => m.perform o.publicData (fun s => s.write k.publicKeyData (.data k.publicKey))
      fun m => m.perform o.keyInfo (fun s => s.write k.infoData (.data k.info))
      fun m => m.addL o.append o.index o.commit key

/-- The outcomes of a removal. -/
structure RemoveOutcomes where
  privateData : Outcome
  publicData : Outcome
  infoData : Outcome
  passphrase : Outcome
  index : Outcome
  append : Outcome
  commit : Outcome

/-- `RemoveL` from the rewriting of the index on.  A key that could not be removed is put back
behind the others. -/
def unlistL (m : CFileKeyDataManager) (o : RemoveOutcomes) (index : Nat) (key : CFileKeyData)
    (oldPassphraseId : StreamId) : KeyCallResult :=
  let removed := { m with iKeys := m.iKeys.eraseIdx index }
  match removed.writeKeysToStoreL o.index fun m => (m, .ok ()) with
  | (r, .ok ()) => r.commitL o.commit
  | (r, .error res) =>
    let restored := { r with iPassStreamId := oldPassphraseId }
    match o.append with
    | .done => ({ restored with iKeys := restored.iKeys ++ [key] }, .error res)
    | .failed aError | .late aError => (restored, leave aError)

def removeL (m : CFileKeyDataManager) (o : RemoveOutcomes) (aObjectId : Int) : KeyCallResult :=
  let index := m.iKeys.findIdx fun key => key.iObjectId = aObjectId
  match m.iKeys[index]? with
  | none => (m, leave KErrNotFound)
  | some key =>
    reverting <|
      m.perform o.privateData (fun s => s.delete key.iPrivateKeyData)
      fun m => m.perform o.publicData (fun s => s.delete key.iPublicKeyData)
      fun m => m.perform o.infoData (fun s => s.delete key.iInfoData)
      fun m =>
        if m.iKeys.length = 1 then
          m.perform o.passphrase (fun s => s.delete m.iPassStreamId)
          fun r => { r with iPassStreamId := KNullStreamId }.unlistL o index key m.iPassStreamId
        else m.unlistL o index key m.iPassStreamId

/-- `SafeWriteKeyInfoL` for the key that is found under the handle. -/
def safeWriteKeyInfoL (m : CFileKeyDataManager) (write commit : Outcome) (aObjectId : Int)
    (aKeyInfo : Bytes) : KeyCallResult :=
  match m.iKeys.find? fun key => key.iObjectId = aObjectId with
  | none => (m, leave KErrNotFound)
  | some key =>
    reverting <| m.perform write (fun s => s.write key.iInfoData (.data aKeyInfo))
      fun m => m.commitL commit

def setPassphraseTimeoutL (m : CFileKeyDataManager) (write commit : Outcome) (aTimeout : Int) :
    KeyCallResult :=
  match { m with iTimeout := aTimeout }.perform write
      (fun s => s.write m.iTimeoutStreamId (.timeout aTimeout)) fun m => m.commitL commit with
  | (r, .ok ()) => (r, .ok ())
  | (r, .error err) => ({ r with iTimeout := m.iTimeout }.revertStore, .error err)

inductive Call where
  | storeKey (o : AddOutcomes) (k : NewKey)
  | remove (o : RemoveOutcomes) (aObjectId : Int)
  | safeWriteKeyInfo (write commit : Outcome) (aObjectId : Int) (aKeyInfo : Bytes)
  | setPassphraseTimeout (write commit : Outcome) (aTimeout : Int)

def call (m : CFileKeyDataManager) : Call → KeyCallResult
  | .storeKey o k => m.storeKeyL o k
  | .remove o aObjectId => m.removeL o aObjectId
  | .safeWriteKeyInfo write commit aObjectId aKeyInfo =>
      m.safeWriteKeyInfoL write commit aObjectId aKeyInfo
  | .setPassphraseTimeout write commit aTimeout => m.setPassphraseTimeoutL write commit aTimeout

end CFileKeyDataManager

end OsSecurity

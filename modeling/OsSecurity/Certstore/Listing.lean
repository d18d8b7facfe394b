/-
Listing certificates by issuer (`CUnifiedCertStore::List` with issuers).

Every store adds its entries to the caller's array.  Then one walk over the array removes the
entries whose issuer is not asked for, and where only the certificate itself can tell, it leaves
to retrieve that and comes back through `EList`.

A store here stands with what the platform answers for it in this listing.  Where the filter
asks for a key usage, a checked store then removes from the caller's array, all of it, the
entries without a key.  An entry that is removed is released, which nothing here depends on.

The names are hashed by one `CSHA1`, and `CMessageDigest::Hash` adds its argument to what the
object was given before, so each hash is that of all the names up to there.
-/
import OsSecurity.Certstore.UnifiedStore
import OsSecurity.Tokens.CertStoreServer
import OsSecurity.X509.Certificate

namespace OsSecurity

open Commands

namespace Certstore

def EX509UsageAll : Nat := 0xffffffff

/-- What List reads of a filter.  The stores read the rest. -/
structure CCertAttributeFilter where
  iKeyUsage : Nat := EX509UsageAll
  iOwnerTypeIsSet : Bool := false
  iOwnerType : Int := ECACertificate

structure CCTCertInfo where
  iToken : MCTToken
  iCertificateId : Int
  iCertificateFormat : Int
  iIssuerHash : Option Bytes := none
  iSubjectKeyId : Bytes := []
  iSize : Int

/-- An object in the caller's array.  One that was there before the listing is not one that a
store has added, even where they say the same. -/
structure ArrayEntry where
  info : CCTCertInfo
  wasThere : Bool

/-! ### `CCheckedCertStore::List` -/

/-- A store, and what is answered while it lists its certificates. -/
structure ListedStore where
  store : CCheckedCertStore
  /-- `MCTCertStore::List`: its code, and what it adds -/
  listed : Int := KErrNone
  entries : List CCTCertInfo
  /-- `CUnifiedKeyStore`: `NewL`, `Initialize` and `List`, and the keys it finds -/
  created : Int := KErrNone
  initialized : Int := KErrNone
  keysListed : Int := KErrNone
  keys : List Bytes := []

namespace ListedStore

/-- What a `RunL` leaves with, while the checked store is listing. -/
def fails (aCode : Int) : Prop := aCode ≠ KErrNone ∧ aCode ≠ KErrNotFound

instance (aCode : Int) : Decidable (fails aCode) := inferInstanceAs (Decidable (_ ∧ _))

def hasKey (s : ListedStore) (info : CCTCertInfo) : Bool := s.keys.any (· = info.iSubjectKeyId)

/-- `BuildCheckedCertificateListL`, which goes through the array from its end. -/
def buildCheckedCertificateList (s : ListedStore) (aCerts : List ArrayEntry) : List ArrayEntry :=
  aCerts.filter fun x => s.hasKey x.info

/-- What `MCTCertStore::List` appends. -/
def added (s : ListedStore) : List ArrayEntry :=
  s.entries.map fun info => { info, wasThere := false }

/-- `CCheckedCertStore::List`: its code, and the caller's array after it. -/
def list (aFilter : CCertAttributeFilter) (s : ListedStore) (aCerts : List ArrayEntry) :
    Int × List ArrayEntry :=
  if aFilter.iKeyUsage ≠ EX509UsageAll ∧
      (¬ aFilter.iOwnerTypeIsSet ∨ aFilter.iOwnerType ≠ EUserCertificate) then
    (KErrNotSupported, aCerts)
  else if fails s.listed then (s.listed, aCerts ++ s.added)
  else if aFilter.iKeyUsage = EX509UsageAll then (KErrNone, aCerts ++ s.added)
  else if s.created < 0 then (s.created, aCerts ++ s.added)
  else if fails s.initialized then (s.initialized, aCerts ++ s.added)
  else if fails s.keysListed then (s.keysListed, aCerts ++ s.added)
  else (KErrNone, s.buildCheckedCertificateList (aCerts ++ s.added))

end ListedStore

/-! ### The listing -/

inductive TListState where
  | EIdle
  | EList
  | ERetrieveForList

inductive ListRequest where
  | list (aStore : ListedStore)
  | retrieve (aCertInfo : CCTCertInfo)

inductive TListStatus where
  | KRequestPending (aRequest : ListRequest)
  | complete (aCode : Int)

/-- What one listing stands on. -/
structure ListPlatform where
  iCertStores : List ListedStore
  iHardwareTypeUids : List Nat
  filter : CCertAttributeFilter
  /-- the allocations of `ListL` -/
  allocated : Int := KErrNone
  /-- SHA-1 -/
  hash : Bytes → Bytes
  /-- for the parser of certificates and names -/
  pf : OsSecurity.Platform
  /-- `HBufC8::NewMaxL` for an entry's certificate -/
  allocates : CCTCertInfo → Int
  /-- `MCTCertStore::Retrieve` -/
  retrieve : CCTCertInfo → Int × Bytes

/-- The members that a listing uses, and the caller's array. -/
structure Listing where
  iCertInfos : List ArrayEntry
  iCertIndex : Nat
  iIssuerNames : List Bytes
  iParsedIssuerNames : List CX500DistinguishedName := []
  iHashedIssuerNames : List Bytes := []
  iCertDesC : Bytes := []
  iIndex : Int := -1
  iState : TListState := .EList
  iStatus : TListStatus := .complete KErrNone
  iActive : Bool := false
  /-- the caller's `TRequestStatus`, once it is completed -/
  answered : Option Int := none

abbrev Lister (α : Type) := Command Listing Exit α

inductive TCompareResults where
  | ENo
  | EYes
  | EMaybe

namespace Listing

def complete (aError : Int) (l : Listing) : Listing :=
  { l with answered := some aError, iState := .EIdle }

def liftL {α : Type} (x : Leaving α) : Lister α :=
  match x with
  | .ok a => pure a
  | .error e => throw e

section Functions

variable (p : ListPlatform)

/-- `ListL(aCertInfos, aFilter, aIssuers)` -/
def listL (aIssuers : List Bytes) : Lister Unit :=
  if aIssuers = [] then modify (complete KErrNone)
  else do
    leaveIfError p.allocated
    modify fun l =>
      { l with
        iCertIndex := l.iCertInfos.length
        iIssuerNames := aIssuers
        iIndex := -1
        iActive := true
        iStatus := .complete KErrNone }

def isHardware (info : CCTCertInfo) : Bool := p.iHardwareTypeUids.any (· = info.iToken.tokenType)

def compareCertInfoDN (l : Listing) (info : CCTCertInfo) : TCompareResults :=
  match info.iIssuerHash with
  | some aHash =>
      if info.iCertificateFormat = EX509CertificateUrl ∨ isHardware p info then
        if l.iHashedIssuerNames.any (· = aHash) then .EYes else .ENo
      else if info.iCertificateFormat ≠ EX509Certificate then .ENo
      else .EMaybe
  | none => if info.iCertificateFormat ≠ EX509Certificate then .ENo else .EMaybe

/-- `GetCertStore`, for the handle of the entry. -/
def getCertStore (info : CCTCertInfo) : Option ListedStore :=
  p.iCertStores.find? fun s => s.store.iCertStore.token.token.handle = info.iToken.handle

/-- Parses and hashes the names that are left, with a digest that was given `aFed`. -/
def parseIssuerNamesL : Bytes → List Bytes → Lister Unit
  | _, [] => pure ()
  | aFed, name :: names => do
      let dn ← liftL (CX500DistinguishedName.newL name)
      modify fun l =>
        { l with
          iParsedIssuerNames := l.iParsedIssuerNames ++ [dn]
          iHashedIssuerNames := l.iHashedIssuerNames ++ [p.hash (aFed ++ name)] }
      parseIssuerNamesL (aFed ++ name) names

/-- Where the walk stops: before `rest`, having kept `kept`. -/
structure Walked where
  kept : List ArrayEntry
  rest : List ArrayEntry

/-- The loop over the array from `iCertIndex`.  An entry that does not match is removed, and the
one at the same index is next. -/
def walk (l : Listing) (kept : List ArrayEntry) : List ArrayEntry → Walked
  | [] => { kept, rest := [] }
  | x :: rest =>
      match compareCertInfoDN p l x.info with
      | .EYes => walk l (kept ++ [x]) rest
      | .ENo => walk l kept rest
      | .EMaybe => { kept, rest := x :: rest }

/-- Load the certificate and properly compare the names. -/
def retrieveForListL (info : CCTCertInfo) : Lister Unit :=
  match getCertStore p info with
  | none => throw .panic
  | some _ => do
      leaveIfError (p.allocates info)
      modify fun l =>
        { l with
          iState := .ERetrieveForList
          iStatus := .KRequestPending (.retrieve info)
          iActive := true }

/-- The walk, and what stopped it. -/
def walkArrayL : Lister Unit := do
  let l ← get
  let w := walk p l (l.iCertInfos.take l.iCertIndex) (l.iCertInfos.drop l.iCertIndex)
  modify fun l => { l with iCertInfos := w.kept ++ w.rest, iCertIndex := w.kept.length }
  match w.rest with
  | [] => modify (complete KErrNone)
  | x :: _ => retrieveForListL p x.info

def parseOnceL (l : Listing) : Lister Unit :=
  if l.iParsedIssuerNames = [] then parseIssuerNamesL p [] l.iIssuerNames else pure ()

def filterArrayL : Lister Unit := do
  let l ← get
  if l.iIssuerNames ≠ [] then do
    parseOnceL p l
    walkArrayL p
  else modify (complete KErrNone)

def runList : Lister Unit := do
  modify fun l => { l with iIndex := l.iIndex + 1 }
  let l ← get
  match p.iCertStores[l.iIndex.toNat]? with
  | some s =>
      modify fun l =>
        { l with iStatus := .KRequestPending (.list s), iCertIndex := 0, iActive := true }
  | none => filterArrayL p

def matchL (aName : CX500DistinguishedName) : List CX500DistinguishedName → Leaving Bool
  | [] => .ok false
  | dn :: dns => do
      if ← aName.exactMatchL p.pf dn then
        return true
      else
        matchL aName dns

/-- What the certificate says about the entry at `iCertIndex`. -/
def settle (aMatches : Bool) (l : Listing) : Listing :=
  if aMatches then { l with iCertIndex := l.iCertIndex + 1 }
  else { l with iCertInfos := l.iCertInfos.eraseIdx l.iCertIndex }

@[irreducible] def runRetrieveForList : Lister Unit := do
  let l ← get
  let cert ← liftL (CX509Certificate.newL p.pf l.iCertDesC)
  let aMatches ← liftL (matchL p cert.iIssuerName l.iParsedIssuerNames)
  modify (settle aMatches)
  modify fun l =>
    { l with
      iCertDesC := []
      iState := .EList
      iStatus := .complete KErrNone
      iActive := true }

def code : TListStatus → Int
  | .complete aCode => aCode
  | .KRequestPending _ => 0

def runL : Lister Unit := do
  let l ← get
  leaveIfError (code l.iStatus)
  match l.iState with
  | .EList => runList p
  | .ERetrieveForList => runRetrieveForList p
  | .EIdle => throw .panic

/-- A `TRAP`, or the active scheduler and `RunError`.  What leaves with `KErrNone` did not leave
as far as they can tell. -/
def trapped (f : Lister Unit) : Lister Unit :=
  tryCatch f fun
    | .leave aError => if aError = KErrNone then pure () else modify (complete aError)
    | e => throw e

/-- What `CActive` does before it calls `RunL` or `DoCancel`. -/
def stopped (l : Listing) : Listing := { l with iActive := false }

def deliver (l : Listing) : ListRequest → Listing
  | .list s =>
      let r := s.list p.filter l.iCertInfos
      { l with iCertInfos := r.2, iStatus := .complete r.1 }
  | .retrieve info =>
      { l with iCertDesC := (p.retrieve info).2, iStatus := .complete (p.retrieve info).1 }

inductive Act where
  /-- the platform answers the request that is pending -/
  | answer
  | run
  | cancelList

def outcome : Except Exit Unit × Listing → Option Listing
  | (.ok _, l) => some l
  | (.error _, _) => none

def step (l : Listing) : Act → Option Listing
  | .answer =>
      match l.iStatus with
      | .KRequestPending r => if l.iActive then some (deliver p l r) else none
      | .complete _ => none
  | .run =>
      match l.iStatus with
      | .KRequestPending _ => none
      | .complete _ =>
        if l.iActive then outcome (trapped (runL p) (stopped l)) else none
  | .cancelList => if l.iActive then some (complete KErrCancel (stopped l)) else some l

/-- `List`, called with an array that holds `aCertInfos`. -/
def Started (aCertInfos : List CCTCertInfo) (aIssuers : List Bytes) (l : Listing) : Prop :=
  outcome (trapped (listL p aIssuers)
    { iCertInfos := aCertInfos.map fun info => { info, wasThere := true }
      iCertIndex := 0
      iIssuerNames := [] }) = some l

end Functions

end Listing

end Certstore

end OsSecurity

/-
What follows a change of the policy files: `CPolicyChangeEvaluator`.

The evaluator scans the decisions, keeps one entry for each server, service and version it
meets, and removes for each entry the decisions that no policy file stands behind any more.
The entries are compared by subtraction: the difference of two ids is kept in a `TInt`, so that
the comparison is no order.  Reading the view is taken not to fail.
-/
import OsSecurity.Ups.PolicyCache
import OsSecurity.Ups.RemoveDecisions

namespace OsSecurity

/-- The number in a column of 32 bits or fewer. -/
def DecisionRow.number (row : DecisionRow) (c : IntegerColumn) : UInt32 :=
  UInt32.ofNat (row (.integer c)).1

namespace CPolicyChangeEvaluator

structure TServerServicePolicyVersion where
  iServerId : UInt32
  iServiceId : Int32
  iMajorVersion : UInt16

/-- The first difference is that of two unsigned numbers, the second that of two signed ones. -/
def orderServerServicePolicyVersion (aLhs aRhs : TServerServicePolicyVersion) : Int :=
  let t := TInt.wrap (aLhs.iServerId.toNat - aRhs.iServerId.toNat)
  if t ≠ 0 then t
  else
    let t := TInt.wrap (aLhs.iServiceId.toInt - aRhs.iServiceId.toInt)
    if t ≠ 0 then t
    else aLhs.iMajorVersion.toNat - aRhs.iMajorVersion.toNat

def entry (row : DecisionRow) : TServerServicePolicyVersion where
  iServerId := row.number .serverSid
  iServiceId := (row.number .serviceId).toInt32
  iMajorVersion := (row.number .majorPolicyVersion).toUInt16

def buildServerServicePolicyVersionTable (view : List DecisionRow) :
    List TServerServicePolicyVersion :=
  (view.map entry).foldl
    (fun iSSPVarray ent =>
      OrderedInsertion.insertInOrder orderServerServicePolicyVersion ent iSSPVarray) []

/-- The filter of an entry. -/
def unneeded (serviceConfigArray : List TServiceConfig) (serverSid serviceId : UInt32) :
    CDecisionFilter :=
  let filter := (CDecisionFilter.newL.setServerSid serverSid .equal).setServiceId serviceId .equal
  match serviceConfigArray.find? fun c => c.iServiceId = serviceId with
  | some serviceConfig => filter.setMajorPolicyVersion serviceConfig.iMajorVersion .notEqual
  | none => filter

/-- Where the loop in `DeleteUnneededEntriesL` has got to. -/
structure Progress (drives : PolicyDrives) where
  iPolicyCache : CPolicyCache drives
  serverSid : UInt32
  serviceConfigArray : List TServiceConfig
  db : DecisionTable

variable {drives : PolicyDrives}

/-- The configuration is fetched anew where the server is another than that of the entry
before. -/
def configureL (s : Progress drives) (server : UInt32) : Leaving (Progress drives) :=
  if s.serverSid ≠ server then do
    let (iPolicyCache, serviceConfigArray) ← s.iPolicyCache.serviceConfigL server
    return { s with iPolicyCache, serverSid := server, serviceConfigArray }
  else .ok s

/-- `TRAP_IGNORE(iUpdateDbHandle->RemoveDecisionsL(*filter))` -/
def removeUnneeded (S : TextComparison) (calls : Nat → AttemptCalls)
    (recoveries : Nat → Recovery) (sspv : TServerServicePolicyVersion) (s : Progress drives) :
    Leaving (Progress drives) :=
  let filter := unneeded s.serviceConfigArray s.serverSid sspv.iServiceId.toUInt32
  let removed := CDecisionDbW.removeDecisionsL S calls recoveries filter s.db
  match CDecisionDbW.trap removed.2 with
  | .ok _ => .ok { s with db := removed.1 }
  | .error e => .error e

/-- The loop from the `i`th entry on. -/
def deleteEntriesL (S : TextComparison) (calls : Nat → Nat → AttemptCalls)
    (recoveries : Nat → Nat → Recovery) :
    Nat → List TServerServicePolicyVersion → Progress drives → Leaving (Progress drives)
  | _, [], s => .ok s
  | i, sspv :: entries, s => do
    let s ← configureL s sspv.iServerId
    let s ← removeUnneeded S (calls i) (recoveries i) sspv s
    deleteEntriesL S calls recoveries (i + 1) entries s

def deleteUnneededEntriesL (S : TextComparison) (calls : Nat → Nat → AttemptCalls)
    (recoveries : Nat → Nat → Recovery) (iSSPVarray : List TServerServicePolicyVersion)
    (iPolicyCache : CPolicyCache drives) (db : DecisionTable) : Leaving DecisionTable :=
  if iSSPVarray.length = 0 then .ok db
  else do
    let s ← deleteEntriesL S calls recoveries 0 iSSPVarray ⟨iPolicyCache, 0, [], db⟩
    return s.db

/-- The scan, from the view of all decisions to the completion of the request. -/
def scanDatabaseL (S : TextComparison) (calls : Nat → Nat → AttemptCalls)
    (recoveries : Nat → Nat → Recovery) (property : ErrorCode) (iPolicyCache : CPolicyCache drives)
    (db : DecisionTable) : Leaving DecisionTable := do
  let sqlStatement ← CDecisionDb.createSqlStatementLC CDecisionFilter.newL
  let iSSPVarray := buildServerServicePolicyVersionTable (sqlStatement.select S db.rows)
  CDecisionDbW.leaveIfError property.1
  deleteUnneededEntriesL S calls recoveries iSSPVarray iPolicyCache db

end CPolicyChangeEvaluator

end OsSecurity

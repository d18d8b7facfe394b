/-
What a filter selects from the decision database.

`createSqlStatementLC` turns a filter into an SQL statement: one condition for each field
that is set, in a buffer whose length was estimated from the flags.  The statement is kept
both as the text in the buffer and as the list of its conditions.  A row is a cell in each
column, as wide as the column; an empty text is stored as NULL.

How the DBMS compares texts is its own affair, so it is a parameter, of which only the
meaning of `=` is known.  Numbers it compares as numbers.
-/
import OsSecurity.Ups.FilterStream

namespace OsSecurity

def lit (s : String) : Text := s.toList.map fun c => UInt16.ofNat c.toNat

inductive IntegerColumn where
  | serverSid | serviceId | clientSid | evaluatorId | majorPolicyVersion | recordId | result
  | evaluatorInfo
  deriving DecidableEq

inductive TextColumn where
  | description | fingerprint | clientEntity
  deriving DecidableEq

inductive Column where
  | integer (c : IntegerColumn)
  | text (c : TextColumn)
  deriving DecidableEq

namespace IntegerColumn

def key : IntegerColumn → FilterKey
  | serverSid => .serverSid
  | serviceId => .serviceId
  | clientSid => .clientSid
  | evaluatorId => .evaluatorId
  | majorPolicyVersion => .majorPolicyVersion
  | recordId => .recordId
  | result => .result
  | evaluatorInfo => .evaluatorInfo

/-- `KColServerSid` and so on. -/
def name : IntegerColumn → String
  | serverSid => "ServerSid"
  | serviceId => "ServiceId"
  | clientSid => "ClientSid"
  | evaluatorId => "EvaluatorId"
  | majorPolicyVersion => "MajorPolicyVersion"
  | recordId => "RecordId"
  | result => "Result"
  | evaluatorInfo => "EvaluatorInfo"

/-- The largest number that a record has in the column. -/
def largest : IntegerColumn → Nat
  | majorPolicyVersion => 0xffff
  | result => 0xff
  | serverSid | serviceId | clientSid | evaluatorId | recordId | evaluatorInfo => 0xffffffff

end IntegerColumn

namespace TextColumn

def key : TextColumn → FilterKey
  | description => .description
  | fingerprint => .fingerprint
  | clientEntity => .clientEntity

def name : TextColumn → String
  | description => "Description"
  | fingerprint => "Fingerprint"
  | clientEntity => "ClientEntity"

/-- The texts that there is room for: the two short columns have 32 octets. -/
def Stores : TextColumn → Text → Prop
  | description, _ => True
  | fingerprint, t => t.length ≤ KUpsMaxFingerprintLength ∧ ∀ u ∈ t, u.toNat < 256
  | clientEntity, t => t.length ≤ KUpsMaxClientEntityLength ∧ ∀ u ∈ t, u.toNat < 256

theorem stores_nil (c : TextColumn) : c.Stores [] := by
  cases c <;> simp [Stores]

end TextColumn

def Column.key : Column → FilterKey
  | .integer c => c.key
  | .text c => c.key

/-- What a row has in a column. -/
def Column.Cell : Column → Type
  | .integer c => { n : Nat // n ≤ c.largest }
  | .text c => { t : Text // c.Stores t }

def Column.empty : (c : Column) → c.Cell
  | .integer _ => ⟨0, Nat.zero_le _⟩
  | .text c => ⟨[], c.stores_nil⟩

/-- A row of the decision table. -/
abbrev DecisionRow := (c : Column) → c.Cell

/-! ### Conditions -/

namespace TComparisonOp

/-- `KSQLQueryEqual` and so on. -/
def sql : TComparisonOp → String
  | equal => "="
  | notEqual => "<>"
  | lessThan => "<"
  | greaterThan => ">"
  | lessThanOrEqual => "<="
  | greaterThanOrEqual => ">="

def compare : TComparisonOp → Nat → Nat → Bool
  | equal, n, m => n = m
  | notEqual, n, m => n ≠ m
  | lessThan, n, m => n < m
  | greaterThan, n, m => m < n
  | lessThanOrEqual, n, m => n ≤ m
  | greaterThanOrEqual, n, m => m ≤ n

end TComparisonOp

/-- How the DBMS compares a text column, `none` where it is NULL, with a text. -/
structure TextComparison where
  holds : TComparisonOp → Option Text → Text → Bool
  equal_iff : ∀ stored t, holds .equal stored t = true ↔ stored = some t

/-- Texts compared unit by unit; a column that is NULL passes no comparison. -/
def TextComparison.binary : TextComparison where
  holds op stored t :=
    match stored with
    | none => false
    | some s =>
      match op with
      | .equal => decide (s = t)
      | .notEqual => decide (s ≠ t)
      | .lessThan => decide (s < t)
      | .greaterThan => decide (t < s)
      | .lessThanOrEqual => decide (s ≤ t)
      | .greaterThanOrEqual => decide (t ≤ s)
  equal_iff stored t := by
    cases stored <;> simp

/-- A condition of a statement. -/
inductive Condition where
  | integer (c : IntegerColumn) (op : TComparisonOp) (aValue : UInt32)
  | text (c : TextColumn) (op : TComparisonOp) (aValue : Text)
  | null (c : TextColumn)

/-- A text as it is stored. -/
def stored (t : Text) : Option Text := if t = [] then none else some t

namespace Condition

/-- `DoubleSingleQuotesL` -/
def doubleSingleQuotes (aSource : Text) : Text :=
  aSource.flatMap fun u => if u = 0x27 then [u, u] else [u]

/-- The condition as it stands in the statement. -/
def sql : Condition → Text
  | integer c op aValue =>
      lit c.name ++ lit op.sql ++ lit (String.ofList (Nat.toDigits 10 aValue.toNat))
  | text c op aValue =>
      lit c.name ++ lit op.sql ++ (lit "'" ++ doubleSingleQuotes aValue ++ lit "'")
  | null c => lit c.name ++ lit " IS NULL"

def holds (S : TextComparison) (row : DecisionRow) : Condition → Bool
  | integer c op aValue => op.compare (row (.integer c)).1 aValue.toNat
  | text c op aValue => S.holds op (stored (row (.text c)).1) aValue
  | null c => (row (.text c)).1.isEmpty

end Condition

/-! ### The statement -/

def KBaseSQLLength : Nat := 33
def KMaxIntCondition : Nat := 26
def KMaxStringCondition : Nat := 52

/-- The statement while it is built: its text, and the conditions in it. -/
structure SqlStatement where
  text : Text
  conditions : List Condition

namespace SqlStatement

def add (aSql : SqlStatement) (c : Condition) : SqlStatement where
  text := aSql.text ++ (if aSql.conditions = [] then [] else lit " AND ") ++ c.sql
  conditions := aSql.conditions ++ [c]

/-- A descriptor panics when it is asked to hold more than there is room for. -/
def append (maxLen : Nat) (aSql : SqlStatement) (c : Condition) : Leaving SqlStatement :=
  if (aSql.add c).text.length ≤ maxLen then .ok (aSql.add c) else panic

/-- `KSQLQueryBase` with the name of the table -/
def base : SqlStatement := ⟨lit "SELECT * FROM UPSDecisions", []⟩

/-- With `KSQLQueryWhere` -/
def baseWhere : SqlStatement := ⟨lit "SELECT * FROM UPSDecisions" ++ lit " WHERE ", []⟩

/-- The rows that the view has. -/
def select (S : TextComparison) (aSql : SqlStatement) (db : List DecisionRow) : List DecisionRow :=
  db.filter fun row => aSql.conditions.all fun c => c.holds S row

end SqlStatement

namespace CDecisionDb

/-- The flag of a filter has the operator in its upper half.  Two operators together are none
of the six. -/
def getComparisonOperator (aFlag : UInt32) : TComparisonOp :=
  let op := aFlag &&& 0xFFFF0000
  if op = TComparisonOp.equal.value then .equal
  else if op = TComparisonOp.notEqual.value then .notEqual
  else if op = TComparisonOp.lessThan.value then .lessThan
  else if op = TComparisonOp.greaterThan.value then .greaterThan
  else if op = TComparisonOp.lessThanOrEqual.value then .lessThanOrEqual
  else if op = TComparisonOp.greaterThanOrEqual.value then .greaterThanOrEqual
  else .equal

/-- `flag &= (flag-1)` takes a bit away. -/
theorem and_pred_lt {flag : UInt16} (h : flag ≠ 0) : (flag &&& (flag - 1)).toNat < flag.toNat := by
  have hpos : 1 ≤ flag.toNat := by
    have hne : flag.toNat ≠ 0 := fun hzero => h (UInt16.toNat_inj.mp hzero)
    omega
  have hone : (1 : UInt16) ≤ flag := UInt16.le_iff_toNat_le.mpr hpos
  rw [UInt16.toNat_and]
  refine Nat.lt_of_le_of_lt Nat.and_le_right ?_
  rw [UInt16.toNat_sub_of_le _ _ hone]
  show flag.toNat - 1 < flag.toNat
  omega

/-- `while(flag != 0)`: one condition's length for each bit. -/
def addLengths (aLength maxLen : Nat) (flag : UInt16) : Nat :=
  if flag = 0 then maxLen else addLengths aLength (maxLen + aLength) (flag &&& (flag - 1))
termination_by flag.toNat
decreasing_by
  exact and_pred_lt ‹_›

def combinedFlags (f : CDecisionFilter) : UInt32 :=
  FilterKey.all.foldl (fun flags key => flags ||| f.iSetFlag key) 0

/-- The estimated length of the statement. -/
def maxLen (f : CDecisionFilter) : Nat :=
  addLengths KMaxStringCondition
    (addLengths KMaxIntCondition KBaseSQLLength (combinedFlags f &&& 0x000006CF).toUInt16)
    (combinedFlags f &&& 0x00000130).toUInt16

def appendQueryInteger (maxLen : Nat) (aValue : UInt32) (aSql : SqlStatement) (aFlag : UInt32)
    (c : IntegerColumn) : Leaving SqlStatement :=
  if aFlag &&& c.key.bit ≠ 0 then
    aSql.append maxLen (.integer c (getComparisonOperator aFlag) aValue)
  else .ok aSql

def appendQueryStringL (maxLen : Nat) (aValue : Text) (aSql : SqlStatement) (aFlag : UInt32)
    (c : TextColumn) : Leaving SqlStatement :=
  if aFlag &&& c.key.bit ≠ 0 then
    if aValue.length ≠ 0 then aSql.append maxLen (.text c (getComparisonOperator aFlag) aValue)
    else aSql.append maxLen (.null c)
  else .ok aSql

end CDecisionDb

namespace CDecisionFilter

def integerValue (f : CDecisionFilter) : IntegerColumn → UInt32
  | .serverSid => f.iServerSid
  | .serviceId => f.iServiceId
  | .clientSid => f.iClientSid
  | .evaluatorId => f.iEvaluatorId
  | .majorPolicyVersion => f.iMajorPolicyVersion.toUInt32
  | .recordId => f.iRecordId
  | .result => f.iResult.toUInt32
  | .evaluatorInfo => f.iEvaluatorInfo

/-- The octets of the two short buffers are widened by `TDes16::Copy`. -/
def textValue (f : CDecisionFilter) : TextColumn → Option Text
  | .description => f.iDescription
  | .fingerprint => f.iFingerprint.map fun b => b.map UInt8.toUInt16
  | .clientEntity => f.iClientEntity.map fun b => b.map UInt8.toUInt16

end CDecisionFilter

namespace CDecisionDb

/-- The call for one column.  The description is read through its pointer even where that is
null, and only the two short buffers are tested first. -/
def appendQueryL (f : CDecisionFilter) (aSql : SqlStatement) : Column → Leaving SqlStatement
  | .integer c => appendQueryInteger (maxLen f) (f.integerValue c) aSql (f.iSetFlag c.key) c
  | .text c =>
    match f.textValue c with
    | some t => appendQueryStringL (maxLen f) t aSql (f.iSetFlag c.key) c
    | none => if c = .description ∧ f.isSet .description then .error .undefined else .ok aSql

/-- The columns in the order of the calls. -/
def columns : List Column :=
  [.integer .serverSid, .integer .serviceId, .integer .clientSid, .integer .evaluatorId,
    .integer .majorPolicyVersion, .integer .recordId, .integer .result, .integer .evaluatorInfo,
    .text .description, .text .fingerprint, .text .clientEntity]

def createSqlStatementLC (f : CDecisionFilter) : Leaving SqlStatement :=
  if maxLen f = KBaseSQLLength then .ok SqlStatement.base
  else columns.foldlM (appendQueryL f) SqlStatement.baseWhere

end CDecisionDb

end OsSecurity

/-
The decision database opened for writing, and what `RemoveDecisionsL` leaves behind.

The DBMS answers each call with an error code, and the model takes its answers as they come:
`AttemptCalls` has those of one try, with the calls of `NextL` and `DeleteL` numbered.  What a
transaction has done is among the records only after the commit, and a rollback forgets it.
A recovery mends the indexes and leaves the records alone; whether it also drops a transaction
that is still open is the DBMS's own affair.

A try whose walk over the view is cut short leaves its transaction open, and a try that finds
the database corrupt is not made again, since the counter of the loop is at its limit when the
loop tests it.  `removeDecisionsL_allOrNothing_iff` says when neither of the two matters.
-/
import OsSecurity.Ups.FilterSelection

namespace OsSecurity

/-- What the operating system answers: `KErrNone`, or an error, all of which are negative. -/
abbrev ErrorCode := { e : Int // e ≤ 0 }

namespace ErrorCode

def none : ErrorCode := ⟨0, Int.le_refl 0⟩

/-- The first error among the answers, zero where there is none. -/
def first : List ErrorCode → Int
  | [] => KErrNone
  | e :: rest => if e.1 < 0 then e.1 else first rest

theorem first_le (answers : List ErrorCode) : first answers ≤ 0 := by
  induction answers with
  | nil => exact Int.le_refl 0
  | cons e rest ih =>
      unfold first
      split
      · exact e.2
      · exact ih

theorem first_append (answers rest : List ErrorCode) :
    first (answers ++ rest) = if first answers < 0 then first answers else first rest := by
  induction answers with
  | nil => rfl
  | cons e answers ih =>
      rw [List.cons_append]
      by_cases he : e.1 < 0
      · simp [first, he]
      · simp [first, he, ih]

end ErrorCode

/-- The committed records, and what an open transaction has made of them. -/
structure DecisionTable where
  rows : List DecisionRow
  transaction : Option (List DecisionRow)

/-- The answers to the calls of one try. -/
structure AttemptCalls where
  prepare : ErrorCode
  evaluateAll : ErrorCode
  begin : ErrorCode
  nextL : Nat → ErrorCode
  deleteL : Nat → ErrorCode
  commit : ErrorCode

/-- What `RDbDatabase::Recover` answers, and what it does to an open transaction. -/
structure Recovery where
  code : ErrorCode
  abandons : Bool

def Recovery.recover (r : Recovery) (db : DecisionTable) : DecisionTable :=
  if r.abandons then { db with transaction := none } else db

namespace CDecisionFilter

/-- Every cell of the row is one that its column lets through. -/
def Matches (S : TextComparison) (f : CDecisionFilter) (row : DecisionRow) : Prop :=
  ∀ c, f.accepts S c (row c)

instance (S : TextComparison) (f : CDecisionFilter) (row : DecisionRow) :
    Decidable (f.Matches S row) := decidable_of_iff _ made_holds

end CDecisionFilter

namespace CDecisionDbW

open CDecisionDb

def selected (S : TextComparison) (aSql : SqlStatement) (row : DecisionRow) : Bool :=
  aSql.conditions.all fun c => c.holds S row

/-- `while(dbView.NextL()) dbView.DeleteL();`.  The rows in `kept` are behind the cursor and
those in `ahead` are not; `n` rows are deleted. -/
def deleteView (S : TextComparison) (aSql : SqlStatement) (calls : AttemptCalls) :
    Nat → List DecisionRow → List DecisionRow → List DecisionRow × Leaving Unit
  | n, kept, [] =>
    if (calls.nextL n).1 < 0 then (kept, leave (calls.nextL n).1) else (kept, .ok ())
  | n, kept, row :: ahead =>
    if selected S aSql row then
      if (calls.nextL n).1 < 0 then (kept ++ row :: ahead, leave (calls.nextL n).1)
      else if (calls.deleteL n).1 < 0 then (kept ++ row :: ahead, leave (calls.deleteL n).1)
      else deleteView S aSql calls (n + 1) kept ahead
    else deleteView S aSql calls n (kept ++ [row]) ahead

def doRemoveDecisionL (S : TextComparison) (calls : AttemptCalls) (aFilter : CDecisionFilter)
    (db : DecisionTable) : DecisionTable × Leaving Unit :=
  match createSqlStatementLC aFilter with
  | .error e => (db, .error e)
  | .ok sqlStatement =>
    if calls.prepare.1 < 0 then (db, leave calls.prepare.1)
    else if calls.evaluateAll.1 < 0 then (db, leave calls.evaluateAll.1)
    else if calls.begin.1 < 0 then (db, leave calls.begin.1)
    else
      match deleteView S sqlStatement calls 0 [] db.rows with
      -- the view is closed on the way out, the transaction is not
      | (rows, .error e) => ({ db with transaction := some rows }, .error e)
      | (rows, .ok ()) =>
        if calls.commit.1 ≠ KErrNone then
          ({ db with transaction := none }, leave calls.commit.1)
        else ({ rows := rows, transaction := none }, .ok ())

/-- `TRAP`, which catches no panic. -/
def trap : Leaving Unit → Leaving Int
  | .ok () => .ok KErrNone
  | .error (.leave error) => .ok error
  | .error e => .error e

/-- `User::LeaveIfError` -/
def leaveIfError (error : Int) : Leaving Unit := if error < 0 then leave error else .ok ()

/-- What follows a try: the error of the loop, after the recovery where there is one. -/
def recovered (recovery : Recovery) (error : Int) (db : DecisionTable) : DecisionTable × Int :=
  if error = KErrCorrupt then (recovery.recover db, recovery.code.1) else (db, error)

/-- The loop around `attempt`, which is given the number of the try. -/
def removeLoop (attempt : Nat → DecisionTable → DecisionTable × Leaving Unit)
    (recoveries : Nat → Recovery) (loopCount : Nat) (db : DecisionTable) :
    DecisionTable × Leaving Unit :=
  let loopCount' := loopCount + 1
  let tried := attempt loopCount' db
  match trap tried.2 with
  | .error e => (tried.1, .error e)
  | .ok error =>
    let after := recovered (recoveries loopCount') error tried.1
    if after.2 = KErrCorrupt ∧ loopCount' < 2 then removeLoop attempt recoveries loopCount' after.1
    else (after.1, leaveIfError after.2)
termination_by 2 - loopCount

def removeDecisionsL (S : TextComparison) (calls : Nat → AttemptCalls)
    (recoveries : Nat → Recovery) (aFilter : CDecisionFilter) (db : DecisionTable) :
    DecisionTable × Leaving Unit :=
  removeLoop (fun loopCount => doRemoveDecisionL S (calls loopCount) aFilter) recoveries 1 db

/-- All the records that match are gone, or none is and no transaction is open. -/
def AllOrNothing (S : TextComparison) (f : CDecisionFilter) (rows : List DecisionRow) :
    DecisionTable × Leaving Unit → Prop
  | (db, .ok ()) => db.rows = rows.filter fun row => ¬f.Matches S row
  | (db, .error (.leave _)) => db.rows = rows ∧ db.transaction = none
  | (_, .error _) => True

end CDecisionDbW

end OsSecurity

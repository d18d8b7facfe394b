/-
When `RemoveDecisionsL` is all or nothing.

The answers of the DBMS are put into one list, in the order in which a try that is not cut
short hears them: those before the transaction is begun, those of the walk over the view, and
that of the commit.  The first error in the list decides how the try ends, and where in the
list it stands decides what it leaves behind (`doRemoveDecisionL_cases`).
-/
import OsSecurity.Ups.DecisionDbW

namespace OsSecurity

namespace CDecisionDbW

open CDecisionDb

variable {S : TextComparison} {aSql : SqlStatement} {f : CDecisionFilter}

/-! ### The answers in their order -/

def opening (calls : AttemptCalls) : List ErrorCode :=
  [calls.prepare, calls.evaluateAll, calls.begin]

/-- The walk over a view of `m` rows, with `n` rows deleted before it. -/
def walk (calls : AttemptCalls) : Nat → Nat → List ErrorCode
  | n, 0 => [calls.nextL n]
  | n, m + 1 => calls.nextL n :: calls.deleteL n :: walk calls (n + 1) m

def answers (calls : AttemptCalls) (m : Nat) : List ErrorCode :=
  opening calls ++ (walk calls 0 m ++ [calls.commit])

/-- The walk is not cut short, or the recovery takes care of the transaction; and no recovery
stands in for the deletion of a record. -/
structure Undisturbed (calls : AttemptCalls) (recovery : Recovery) (m : Nat) : Prop where
  walked : ErrorCode.first (opening calls) = 0 → ErrorCode.first (walk calls 0 m) ≠ 0 →
    ErrorCode.first (walk calls 0 m) = KErrCorrupt ∧
      (recovery.code.1 = KErrNone ∨ recovery.abandons = true)
  repaired : ErrorCode.first (answers calls m) = KErrCorrupt → recovery.code.1 = KErrNone → m = 0

/-! ### The walk -/

theorem deleteView_snd (calls : AttemptCalls) (n : Nat) (kept ahead : List DecisionRow) :
    (deleteView S aSql calls n kept ahead).2 =
      leaveIfError (ErrorCode.first (walk calls n (ahead.countP (selected S aSql)))) := by
  induction ahead generalizing n kept with
  | nil =>
      by_cases hnext : (calls.nextL n).1 < 0
      · simp [deleteView, walk, ErrorCode.first, leaveIfError, hnext]
      · simp [deleteView, walk, ErrorCode.first, leaveIfError, hnext, KErrNone]
  | cons row ahead ih =>
      by_cases hrow : selected S aSql row
      · have hcount : (row :: ahead).countP (selected S aSql) =
            ahead.countP (selected S aSql) + 1 := List.countP_cons_of_pos hrow
        rw [hcount]
        by_cases hnext : (calls.nextL n).1 < 0
        · simp [deleteView, walk, ErrorCode.first, leaveIfError, hrow, hnext]
        · by_cases hdelete : (calls.deleteL n).1 < 0
          · simp [deleteView, walk, ErrorCode.first, leaveIfError, hrow, hnext, hdelete]
          · simp [deleteView, walk, ErrorCode.first, hrow, hnext, hdelete, ih]
      · have hcount : (row :: ahead).countP (selected S aSql) =
            ahead.countP (selected S aSql) := List.countP_cons_of_neg hrow
        rw [hcount]
        simp [deleteView, hrow, ih]

/-- A walk that comes to its end has deleted the rows of the view and no others. -/
theorem deleteView_fst {calls : AttemptCalls} {n : Nat} {kept ahead : List DecisionRow}
    (h : (deleteView S aSql calls n kept ahead).2 = .ok ()) :
    (deleteView S aSql calls n kept ahead).1 =
      kept ++ ahead.filter fun row => !selected S aSql row := by
  induction ahead generalizing n kept with
  | nil =>
      unfold deleteView
      split <;> simp
  | cons row ahead ih =>
      unfold deleteView at h ⊢
      by_cases hrow : selected S aSql row
      · by_cases hnext : (calls.nextL n).1 < 0
        · simp [hrow, hnext] at h
        · by_cases hdelete : (calls.deleteL n).1 < 0
          · simp [hrow, hnext, hdelete] at h
          · simp only [if_pos hrow, if_neg hnext, if_neg hdelete] at h ⊢
            rw [ih h]
            simp [hrow]
      · simp only [if_neg hrow] at h ⊢
        rw [ih h]
        simp [hrow]

/-! ### A try -/

theorem leaveIfError_neg {error : Int} (h : error < 0) : leaveIfError error = leave error :=
  if_pos h

theorem leaveIfError_zero : leaveIfError 0 = .ok () := rfl

theorem first_opening (calls : AttemptCalls) : ErrorCode.first (opening calls) =
    if calls.prepare.1 < 0 then calls.prepare.1
    else if calls.evaluateAll.1 < 0 then calls.evaluateAll.1
    else if calls.begin.1 < 0 then calls.begin.1 else 0 := rfl

/-- The four ways in which a try ends. -/
theorem doRemoveDecisionL_cases {b : SqlStatement} (hsql : createSqlStatementLC f = .ok b)
    (calls : AttemptCalls) (rows : List DecisionRow) :
    let m := rows.countP (selected S b)
    (∃ e, e < 0 ∧ ErrorCode.first (opening calls) = e ∧
      doRemoveDecisionL S calls f ⟨rows, none⟩ = (⟨rows, none⟩, leave e)) ∨
    (∃ e half, e < 0 ∧ ErrorCode.first (opening calls) = 0 ∧
      ErrorCode.first (walk calls 0 m) = e ∧
      doRemoveDecisionL S calls f ⟨rows, none⟩ = (⟨rows, some half⟩, leave e)) ∨
    (∃ e, e < 0 ∧ ErrorCode.first (opening calls) = 0 ∧ ErrorCode.first (walk calls 0 m) = 0 ∧
      calls.commit.1 = e ∧
      doRemoveDecisionL S calls f ⟨rows, none⟩ = (⟨rows, none⟩, leave e)) ∨
    (ErrorCode.first (answers calls m) = 0 ∧
      doRemoveDecisionL S calls f ⟨rows, none⟩ =
        (⟨rows.filter fun row => !selected S b row, none⟩, .ok ())) := by
  intro m
  have hopening := first_opening calls
  unfold doRemoveDecisionL
  rw [hsql]
  by_cases hprepare : calls.prepare.1 < 0
  · exact Or.inl ⟨_, hprepare, by rw [hopening, if_pos hprepare], by simp [hprepare]⟩
  by_cases hevaluate : calls.evaluateAll.1 < 0
  · exact Or.inl ⟨_, hevaluate, by rw [hopening, if_neg hprepare, if_pos hevaluate],
      by simp [hprepare, hevaluate]⟩
  by_cases hbegin : calls.begin.1 < 0
  · exact Or.inl ⟨_, hbegin, by rw [hopening, if_neg hprepare, if_neg hevaluate, if_pos hbegin],
      by simp [hprepare, hevaluate, hbegin]⟩
  rw [if_neg hprepare, if_neg hevaluate, if_neg hbegin] at hopening
  simp only [if_neg hprepare, if_neg hevaluate, if_neg hbegin]
  have hsnd := @deleteView_snd S b calls 0 [] rows
  have hfst := @deleteView_fst S b calls 0 [] rows
  generalize deleteView S b calls 0 [] rows = view at hsnd hfst ⊢
  obtain ⟨half, result⟩ := view
  have hle := ErrorCode.first_le (walk calls 0 m)
  by_cases hwalk : ErrorCode.first (walk calls 0 m) < 0
  · rw [leaveIfError_neg hwalk] at hsnd
    have hresult : result = leave (ErrorCode.first (walk calls 0 m)) := hsnd
    subst hresult
    exact Or.inr (Or.inl ⟨_, half, hwalk, hopening, rfl, rfl⟩)
  have hzero : ErrorCode.first (walk calls 0 m) = 0 := by omega
  have hdone : result = .ok () := by
    have hresult : result = leaveIfError (ErrorCode.first (walk calls 0 m)) := hsnd
    rw [hresult, hzero]
    rfl
  subst hdone
  have hhalf := hfst rfl
  by_cases hcommit : calls.commit.1 < 0
  · have hne : calls.commit.1 ≠ KErrNone := by
      show calls.commit.1 ≠ 0
      omega
    refine Or.inr (Or.inr (Or.inl ⟨_, hcommit, hopening, hzero, rfl, ?_⟩))
    simp only [if_pos hne]
  · have hnone : ¬calls.commit.1 ≠ KErrNone := by
      have hcode := calls.commit.2
      show ¬calls.commit.1 ≠ 0
      omega
    refine Or.inr (Or.inr (Or.inr ⟨?_, ?_⟩))
    · unfold answers
      rw [ErrorCode.first_append, hopening, ErrorCode.first_append, hzero]
      simp [ErrorCode.first, hcommit, KErrNone]
    · simp only [if_neg hnone]
      simp only [List.nil_append] at hhalf
      rw [hhalf]

/-! ### The loop, which goes round once -/

/-- What the loop makes of a try. -/
def conclude (recovery : Recovery) (tried : DecisionTable × Leaving Unit) :
    DecisionTable × Leaving Unit :=
  match trap tried.2 with
  | .error e => (tried.1, .error e)
  | .ok error =>
    ((recovered recovery error tried.1).1, leaveIfError (recovered recovery error tried.1).2)

theorem removeDecisionsL_eq (calls : Nat → AttemptCalls) (recoveries : Nat → Recovery)
    (db : DecisionTable) : removeDecisionsL S calls recoveries f db =
      conclude (recoveries 2) (doRemoveDecisionL S (calls 2) f db) := by
  unfold removeDecisionsL conclude
  rw [removeLoop]
  cases trap (doRemoveDecisionL S (calls 2) f db).2 with
  | error e => rfl
  | ok error =>
      have hlimit : ¬((recovered (recoveries 2) error (doRemoveDecisionL S (calls 2) f db).1).2 =
          KErrCorrupt ∧ 2 < 2) := fun h => absurd h.2 (by decide)
      exact if_neg hlimit

theorem conclude_ok (recovery : Recovery) (db : DecisionTable) :
    conclude recovery (db, .ok ()) = (db, .ok ()) := by
  have hne : KErrNone ≠ KErrCorrupt := by decide
  simp only [conclude, trap, recovered, if_neg hne]
  rfl

theorem conclude_leave (recovery : Recovery) (db : DecisionTable) {e : Int} (he : e < 0)
    (hne : e ≠ KErrCorrupt) : conclude recovery (db, leave e) = (db, leave e) := by
  simp only [conclude, leave, trap, recovered, if_neg hne]
  rw [leaveIfError_neg he]
  rfl

/-- After a try that found the database corrupt, the recovery has the last word. -/
theorem conclude_corrupt (recovery : Recovery) (db : DecisionTable) :
    conclude recovery (db, leave KErrCorrupt) =
      (recovery.recover db, leaveIfError recovery.code.1) := by
  simp only [conclude, leave, trap, recovered, if_true]

@[simp] theorem recover_rows (recovery : Recovery) (db : DecisionTable) :
    (recovery.recover db).rows = db.rows := by
  unfold Recovery.recover
  split <;> rfl

theorem recover_transaction (recovery : Recovery) (rows : List DecisionRow)
    (half : Option (List DecisionRow)) :
    (recovery.recover ⟨rows, half⟩).transaction = none ↔
      half = none ∨ recovery.abandons = true := by
  unfold Recovery.recover
  split
  next h => simp [h]
  next h => simp [h]

/-! ### The result -/

theorem selected_made (row : DecisionRow) : selected S f.made row = decide (f.Matches S row) := by
  rw [Bool.eq_iff_iff, decide_eq_true_iff]
  exact CDecisionFilter.made_holds

theorem filter_eq_self_iff (rows : List DecisionRow) :
    (rows = rows.filter fun row => ¬f.Matches S row) ↔ rows.countP (f.Matches S ·) = 0 := by
  rw [List.countP_eq_zero]
  constructor
  · intro h row hrow
    rw [h] at hrow
    simpa using (List.mem_filter.mp hrow).2
  · intro h
    refine (List.filter_eq_self.mpr ?_).symm
    intro row hrow
    simpa using h row hrow

/-- A try that leaves the committed records as they were, with a transaction open or none. -/
theorem allOrNothing_left (recovery : Recovery) (rows : List DecisionRow)
    (half : Option (List DecisionRow)) {e : Int} (he : e < 0) :
    AllOrNothing S f rows (conclude recovery (⟨rows, half⟩, leave e)) ↔
      (half ≠ none → e = KErrCorrupt ∧ (recovery.code.1 = KErrNone ∨ recovery.abandons = true)) ∧
        (e = KErrCorrupt → recovery.code.1 = KErrNone → rows.countP (f.Matches S ·) = 0) := by
  by_cases hcorrupt : e = KErrCorrupt
  · subst hcorrupt
    rw [conclude_corrupt]
    by_cases hcode : recovery.code.1 < 0
    · rw [leaveIfError_neg hcode]
      have hne : recovery.code.1 ≠ KErrNone := by
        show recovery.code.1 ≠ 0
        omega
      simp [AllOrNothing, leave, recover_transaction, hne, or_iff_not_imp_left]
    · have hzero : recovery.code.1 = 0 := by
        have hle := recovery.code.2
        omega
      rw [hzero, leaveIfError_zero]
      show (recovery.recover ⟨rows, half⟩).rows = _ ↔ _
      rw [recover_rows, filter_eq_self_iff]
      simp [KErrNone]
  · rw [conclude_leave recovery _ he hcorrupt]
    cases half <;> simp [AllOrNothing, leave, hcorrupt]

theorem appendQueryL_not_leave (f : CDecisionFilter) (aSql : SqlStatement) (c : Column)
    (error : Int) : appendQueryL f aSql c ≠ leave error := by
  have happend : ∀ x : Condition, aSql.append (maxLen f) x ≠ leave error := by
    intro x
    unfold SqlStatement.append
    split <;> simp [leave, panic]
  cases c with
  | integer c =>
      show appendQueryInteger _ _ _ _ _ ≠ _
      unfold appendQueryInteger
      split
      · exact happend _
      · simp [leave]
  | text c =>
      simp only [appendQueryL]
      cases f.textValue c with
      | some t =>
        simp only [appendQueryStringL]
        split
        · split
          · exact happend _
          · exact happend _
        · simp [leave]
      | none =>
        simp only
        split <;> simp [leave]

/-- There is no statement only where the thread panics or worse. -/
theorem createSqlStatementLC_not_leave (f : CDecisionFilter) (error : Int) :
    createSqlStatementLC f ≠ leave error := by
  have hfold : ∀ (cs : List Column) (aSql : SqlStatement),
      cs.foldlM (appendQueryL f) aSql ≠ leave error := by
    intro cs
    induction cs with
    | nil =>
      intro aSql
      simp [leave]
    | cons c cs ih =>
      intro aSql
      have hstep := appendQueryL_not_leave f aSql c error
      rw [List.foldlM_cons]
      cases hc : appendQueryL f aSql c with
      | ok b => exact ih b
      | error e =>
        rw [hc] at hstep
        exact hstep
  unfold createSqlStatementLC
  split
  · simp [leave]
  · exact hfold _ _

theorem first_answers (calls : AttemptCalls) (m : Nat) : ErrorCode.first (answers calls m) =
    if ErrorCode.first (opening calls) < 0 then ErrorCode.first (opening calls)
    else if ErrorCode.first (walk calls 0 m) < 0 then ErrorCode.first (walk calls 0 m)
    else if calls.commit.1 < 0 then calls.commit.1 else 0 := by
  unfold answers
  rw [ErrorCode.first_append, ErrorCode.first_append]
  rfl

theorem countP_selected (rows : List DecisionRow) :
    rows.countP (selected S f.made) = rows.countP (f.Matches S ·) := by
  congr 1
  funext row
  exact selected_made row

/-- No call of the try fails, however many rows the view has. -/
def Succeeds (calls : AttemptCalls) : Prop := ∀ m, ErrorCode.first (answers calls m) = 0

theorem removeDecisionsL_succeeds {calls : Nat → AttemptCalls} (hcalls : Succeeds (calls 2))
    (recoveries : Nat → Recovery) (hcrash : ¬f.Crashes) (hfits : f.StatementFits)
    (rows : List DecisionRow) : removeDecisionsL S calls recoveries f ⟨rows, none⟩ =
      (⟨rows.filter fun row => ¬f.Matches S row, none⟩, .ok ()) := by
  have hsql : createSqlStatementLC f = .ok f.made :=
    CDecisionFilter.createSqlStatementLC_ok.mpr ⟨hcrash, hfits, rfl⟩
  have hzero := hcalls (rows.countP (selected S f.made))
  have hanswers := first_answers (calls 2) (rows.countP (selected S f.made))
  rw [hzero] at hanswers
  have hrows : (rows.filter fun row => !selected S f.made row) =
      rows.filter fun row => ¬f.Matches S row := by
    congr 1
    funext row
    rw [selected_made]
    simp
  rw [removeDecisionsL_eq]
  rcases doRemoveDecisionL_cases (S := S) hsql (calls 2) rows with
    ⟨e, he, hopening, -⟩ | ⟨e, half, he, hopening, hwalk, -⟩ |
      ⟨e, he, hopening, hwalk, hcommit, -⟩ | ⟨-, htried⟩
  · rw [hopening, if_pos he] at hanswers
    omega
  · rw [hopening, if_neg (Int.lt_irrefl 0), hwalk, if_pos he] at hanswers
    omega
  · rw [hopening, if_neg (Int.lt_irrefl 0), hwalk, if_neg (Int.lt_irrefl 0), hcommit,
      if_pos he] at hanswers
    omega
  · rw [htried, conclude_ok, hrows]

/-- **All or nothing.**  A filter for which there is no statement stops the thread before the
database is touched. -/
theorem removeDecisionsL_allOrNothing_iff (S : TextComparison) (calls : Nat → AttemptCalls)
    (recoveries : Nat → Recovery) (f : CDecisionFilter) (rows : List DecisionRow) :
    AllOrNothing S f rows (removeDecisionsL S calls recoveries f ⟨rows, none⟩) ↔
      (¬f.Crashes → f.StatementFits →
        Undisturbed (calls 2) (recoveries 2) (rows.countP (f.Matches S ·))) := by
  rw [removeDecisionsL_eq]
  by_cases hmade : ¬f.Crashes ∧ f.StatementFits
  · have hsql : createSqlStatementLC f = .ok f.made :=
      CDecisionFilter.createSqlStatementLC_ok.mpr ⟨hmade.1, hmade.2, rfl⟩
    have hanswers := first_answers (calls 2) (rows.countP (f.Matches S ·))
    have hcases := doRemoveDecisionL_cases (S := S) hsql (calls 2) rows
    rw [countP_selected] at hcases
    rw [imp_iff_right hmade.1, imp_iff_right hmade.2]
    rcases hcases with ⟨e, he, hopening, htried⟩ | ⟨e, half, he, hopening, hwalk, htried⟩ |
      ⟨e, he, hopening, hwalk, hcommit, htried⟩ | ⟨hanswers', htried⟩
    · rw [hopening, if_pos he] at hanswers
      rw [htried, allOrNothing_left _ _ none he]
      refine ⟨fun h => ⟨fun hzero _ => ?_, fun hcorrupt => ?_⟩,
        fun h => ⟨fun hne => absurd rfl hne, fun hcorrupt => ?_⟩⟩
      · rw [hopening] at hzero
        omega
      · exact h.2 (hanswers.symm.trans hcorrupt)
      · exact h.repaired (hanswers.trans hcorrupt)
    · rw [hopening, if_neg (Int.lt_irrefl 0), hwalk, if_pos he] at hanswers
      rw [htried, allOrNothing_left _ _ (some _) he]
      refine ⟨fun h => ⟨fun _ _ => ?_, fun hcorrupt => ?_⟩,
        fun h => ⟨fun _ => ?_, fun hcorrupt => ?_⟩⟩
      · rw [hwalk]
        exact h.1 (Option.some_ne_none half)
      · exact h.2 (hanswers.symm.trans hcorrupt)
      · rw [← hwalk]
        exact h.walked hopening (by omega)
      · exact h.repaired (hanswers.trans hcorrupt)
    · rw [hopening, if_neg (Int.lt_irrefl 0), hwalk, if_neg (Int.lt_irrefl 0), hcommit,
        if_pos he] at hanswers
      rw [htried, allOrNothing_left _ _ none he]
      refine ⟨fun h => ⟨fun _ hne => absurd hwalk hne, fun hcorrupt => ?_⟩,
        fun h => ⟨fun hne => absurd rfl hne, fun hcorrupt => ?_⟩⟩
      · exact h.2 (hanswers.symm.trans hcorrupt)
      · exact h.repaired (hanswers.trans hcorrupt)
    · rw [htried, conclude_ok]
      have hzero : ErrorCode.first (answers (calls 2) (rows.countP (f.Matches S ·))) = 0 :=
        hanswers'
      have hrows : (rows.filter fun row => !selected S f.made row) =
          rows.filter fun row => ¬f.Matches S row := by
        congr 1
        funext row
        rw [selected_made]
        simp
      refine ⟨fun _ => ⟨fun hopening hne => ?_, fun hcorrupt => ?_⟩, fun _ => hrows⟩
      · rw [hanswers, hopening, if_neg (Int.lt_irrefl 0)] at hzero
        have hle := ErrorCode.first_le (walk (calls 2) 0 (rows.countP (f.Matches S ·)))
        have hneg : ErrorCode.first (walk (calls 2) 0 (rows.countP (f.Matches S ·))) < 0 := by
          omega
        rw [if_pos hneg] at hzero
        exact absurd hzero hne
      · rw [hzero] at hcorrupt
        exact absurd hcorrupt (by decide)
  · obtain ⟨e, hsql⟩ : ∃ e, createSqlStatementLC f = .error e := by
      cases hsql : createSqlStatementLC f with
      | error e => exact ⟨e, rfl⟩
      | ok b =>
        obtain ⟨hcrash, hfits, -⟩ := CDecisionFilter.createSqlStatementLC_ok.mp hsql
        exact absurd ⟨hcrash, hfits⟩ hmade
    have htried : doRemoveDecisionL S (calls 2) f ⟨rows, none⟩ = (⟨rows, none⟩, .error e) := by
      unfold doRemoveDecisionL
      rw [hsql]
    rw [htried]
    refine ⟨fun _ hcrash hfits => absurd ⟨hcrash, hfits⟩ hmade, fun _ => ?_⟩
    cases e with
    | leave error => exact absurd hsql (createSqlStatementLC_not_leave f error)
    | panic => exact trivial
    | undefined => exact trivial

/-- A record of zeros and empty texts. -/
def zeroRow : DecisionRow := Column.empty

/-- Calls that succeed. -/
def noFailure : AttemptCalls :=
  ⟨.none, .none, .none, fun _ => .none, fun _ => .none, .none⟩

theorem maxLen_newL : maxLen .newL = KBaseSQLLength := by
  have hnone : combinedFlags .newL = 0 := by decide
  unfold maxLen
  rw [hnone, UInt32.zero_and, UInt32.zero_and]
  rw [addLengths, if_pos (by decide), addLengths, if_pos (by decide)]

/-- A recovery that succeeds returns as if the record were deleted, and a walk that fails after
it has deleted the record leaves the transaction open. -/
theorem not_allOrNothing_zeroRow :
    ¬AllOrNothing .binary .newL [zeroRow] (removeDecisionsL .binary
      (fun _ => { noFailure with evaluateAll := ⟨KErrCorrupt, by decide⟩ })
      (fun _ => ⟨.none, true⟩) .newL ⟨[zeroRow], none⟩) ∧
    ¬AllOrNothing .binary .newL [zeroRow] (removeDecisionsL .binary
      (fun _ => { noFailure with nextL := fun n => if n = 1 then ⟨-4, by decide⟩ else .none })
      (fun _ => ⟨.none, true⟩) .newL ⟨[zeroRow], none⟩) := by
  have hsql : createSqlStatementLC .newL = .ok SqlStatement.base := if_pos maxLen_newL
  have hmatches : CDecisionFilter.newL.Matches .binary zeroRow := by
    refine CDecisionFilter.made_holds.mp ?_
    unfold CDecisionFilter.made
    rw [if_pos maxLen_newL]
    rfl
  rw [removeDecisionsL_eq, removeDecisionsL_eq]
  unfold doRemoveDecisionL
  rw [hsql]
  refine ⟨fun h => ?_, fun h => ?_⟩
  · have hrows : [zeroRow] = [zeroRow].filter fun row =>
        ¬CDecisionFilter.newL.Matches .binary row := h
    simp [hmatches] at hrows
  · have hopen : (none : Option (List DecisionRow)) = some [] := h.2.symm
    cases hopen

end CDecisionDbW

end OsSecurity

/-
When a filter means the same after IPC.

The operators do not survive the journey: at the other end every field is compared with `=`.
Nor do three of the fields: the description is a null pointer, and the result and the
evaluator info are zero.  A filter still selects the same rows exactly where `Keeps` holds of
each of its fields.  One step for each column is enough, because the sets of rows are boxes:
cells are chosen one by one.
-/
import OsSecurity.Library.Boxes
import OsSecurity.Ups.FilterSelection

namespace OsSecurity

open UInt8

variable {c : TextColumn} {b a : SqlStatement} {t : Text}

namespace CDecisionFilter

open CDecisionDb

variable {S : TextComparison} {f : CDecisionFilter}

/-- Wherever the client's filter makes a statement, the server's makes one that selects the
same rows, whatever is in the database. -/
def SelectsTheSame (S : TextComparison) (f g : CDecisionFilter) : Prop :=
  ∀ b, createSqlStatementLC f = .ok b →
    ∃ b', createSqlStatementLC g = .ok b' ∧ ∀ db, b'.select S db = b.select S db

/-- The filter arrives, and selects what it selected. -/
def Survives (S : TextComparison) (f : CDecisionFilter) : Prop :=
  ∃ g, f.receivedL = .ok g ∧ SelectsTheSame S f g

/-! ### The condition -/

/-- A comparison that only the number itself passes. -/
def KeepsInteger (op : TComparisonOp) (largest aValue : Nat) : Prop :=
  op = .equal ∨ (op = .lessThanOrEqual ∧ aValue = 0) ∨
    (op = .greaterThanOrEqual ∧ aValue = largest)

/-- A comparison that only zero passes. -/
def KeepsZero (op : TComparisonOp) (aValue : Nat) : Prop :=
  (op = .equal ∧ aValue = 0) ∨ (op = .lessThanOrEqual ∧ aValue = 0) ∨
    (op = .lessThan ∧ aValue = 1)

/-- The values that are in the stream. -/
def Carried : IntegerColumn → Prop
  | .result | .evaluatorInfo => False
  | _ => True

instance : DecidablePred Carried := fun c => by
  cases c <;> unfold Carried <;> infer_instance

/-- What a field that is set has to be like. -/
def Keeps (S : TextComparison) (f : CDecisionFilter) : Column → Prop
  | .integer c =>
    let op := getComparisonOperator (f.iSetFlag c.key)
    if Carried c then KeepsInteger op c.largest (f.integerValue c).toNat
    else KeepsZero op (f.integerValue c).toNat
  | .text .description => False
  | .text c =>
    let op := getComparisonOperator (f.iSetFlag c.key)
    ∀ t, f.textValue c = some t → t = [] ∨ op = .equal ∨
      ∀ cell : (Column.text c).Cell, S.holds op (stored cell.1) t = true ↔ stored cell.1 = some t

theorem compare_eq_iff {op : TComparisonOp} {largest aValue : Nat} (hvalue : aValue ≤ largest) :
    (∀ n ≤ largest, op.compare n aValue = true ↔ n = aValue) ↔
      KeepsInteger op largest aValue := by
  unfold KeepsInteger
  constructor
  · intro h
    have hself := h aValue hvalue
    have hzero := h 0 (Nat.zero_le _)
    have hlargest := h largest (Nat.le_refl _)
    cases op <;> simp [TComparisonOp.compare] at hself hzero hlargest ⊢ <;> omega
  · rintro (rfl | ⟨rfl, rfl⟩ | ⟨rfl, rfl⟩)
    · intro n _
      simp [TComparisonOp.compare]
    · intro n _
      simp [TComparisonOp.compare]
    · intro n hn
      simp [TComparisonOp.compare]
      omega

theorem compare_zero_iff {op : TComparisonOp} {largest aValue : Nat} (hlargest : 2 ≤ largest) :
    (∀ n ≤ largest, op.compare n aValue = true ↔ n = 0) ↔ KeepsZero op aValue := by
  unfold KeepsZero
  constructor
  · intro h
    have hzero := h 0 (Nat.zero_le _)
    have hone := h 1 (by omega)
    have htwo := h 2 hlargest
    cases op <;> simp [TComparisonOp.compare] at hzero hone htwo ⊢ <;> omega
  · rintro (⟨rfl, rfl⟩ | ⟨rfl, rfl⟩ | ⟨rfl, rfl⟩)
    · intro n _
      simp [TComparisonOp.compare]
    · intro n _
      simp [TComparisonOp.compare]
    · intro n _
      simp [TComparisonOp.compare]

/-! ### The filter at the other end -/

/-- No operator has a bit in the lower half of a flag. -/
theorem getComparisonOperator_carried (flag : UInt32) :
    getComparisonOperator flag.toUInt16.toUInt32 = .equal := by
  have hnone : flag.toUInt16.toUInt32 &&& 0xFFFF0000 = 0 := by
    rw [lower_half, UInt32.and_assoc]
    exact UInt32.and_zero
  unfold getComparisonOperator
  rw [hnone]
  rfl

theorem integerValue_carried (c : IntegerColumn) :
    f.carried.integerValue c = if Carried c then f.integerValue c else 0 := by
  cases c <;> rfl

theorem textValue_carried (hf : f.Wellformed) (hc : c ≠ .description) (hset : f.isSet c.key) :
    f.carried.textValue c = f.textValue c := by
  have hkept : ∀ {key : FilterKey} {buffer : Option Bytes}, f.isSet key → buffer.isSome →
      kept (f.iSetFlag key).toUInt16.toUInt32 key (buffer.getD []) = buffer := by
    intro key buffer hkey hsome
    obtain ⟨b, rfl⟩ := Option.isSome_iff_exists.mp hsome
    unfold kept
    rw [lower_half_and_bit, if_neg hkey]
    rfl
  cases c with
  | description => exact absurd rfl hc
  | fingerprint =>
      exact congrArg (Option.map (List.map toUInt16)) (hkept hset (hf.fingerprint hset))
  | clientEntity =>
      exact congrArg (Option.map (List.map toUInt16)) (hkept hset (hf.clientEntity hset))

theorem crashes_carried : f.carried.Crashes ↔ f.isSet .description := by
  unfold Crashes
  rw [isSet_carried]
  exact ⟨fun h => h.2, fun h => ⟨rfl, h⟩⟩

theorem not_crashes (hf : f.Wellformed) : ¬f.Crashes := by
  rintro ⟨hnone, hset⟩
  have hsome := hf.description hset
  have hnull : f.iDescription = none := hnone
  rw [hnull] at hsome
  cases hsome

/-! ### The cells that pass at the other end -/

theorem integerValue_le (f : CDecisionFilter) (c : IntegerColumn) :
    (f.integerValue c).toNat ≤ c.largest := by
  have h32 : ∀ v : UInt32, v.toNat ≤ 0xffffffff := fun v => Nat.le_of_lt_succ v.toNat_lt
  cases c with
  | majorPolicyVersion =>
      show f.iMajorPolicyVersion.toUInt32.toNat ≤ 0xffff
      rw [UInt16.toNat_toUInt32]
      exact Nat.le_of_lt_succ f.iMajorPolicyVersion.toNat_lt
  | result =>
      show f.iResult.toUInt32.toNat ≤ 0xff
      rw [toNat_toUInt32]
      exact Nat.le_of_lt_succ f.iResult.toNat_lt
  | _ => exact h32 _

/-- Octets that were widened fit where octets are stored. -/
theorem stores_textValue (hf : f.Wellformed) (c : TextColumn) :
    c.Stores ((f.textValue c).getD []) := by
  have hwidened : ∀ {limit : Nat} {buffer : Option Bytes}, Fits limit buffer →
      ((buffer.map (List.map toUInt16)).getD []).length ≤ limit ∧
        ∀ u ∈ (buffer.map (List.map toUInt16)).getD [], u.toNat < 256 := by
    intro limit buffer hfits
    cases buffer with
    | none => simp
    | some b =>
      refine ⟨by simpa using hfits b rfl, ?_⟩
      intro u hu
      obtain ⟨v, -, rfl⟩ := List.mem_map.mp hu
      rw [toNat_toUInt16]
      exact v.toNat_lt
  cases c with
  | description => trivial
  | fingerprint => exact hwidened hf.fingerprint_fits
  | clientEntity => exact hwidened hf.clientEntity_fits

/-- A row that the filter selects at the other end. -/
def sentRow (hf : f.Wellformed) : DecisionRow
  | .integer c => ⟨(f.carried.integerValue c).toNat, integerValue_le f.carried c⟩
  | .text c => ⟨(f.textValue c).getD [], stores_textValue hf c⟩

theorem accepts_carried_integer {c : IntegerColumn} (hset : f.isSet c.key)
    (cell : (Column.integer c).Cell) :
    f.carried.accepts S (.integer c) cell ↔ cell.1 = (f.carried.integerValue c).toNat := by
  show (f.carried.isSet c.key →
    (getComparisonOperator (f.iSetFlag c.key).toUInt16.toUInt32).compare cell.1
      (f.carried.integerValue c).toNat = true) ↔ _
  rw [getComparisonOperator_carried, isSet_carried]
  simp [hset, TComparisonOp.compare]

theorem accepts_carried_text (hf : f.Wellformed) (hc : c ≠ .description) (hset : f.isSet c.key)
    (ht : f.textValue c = some t) (cell : (Column.text c).Cell) :
    f.carried.accepts S (.text c) cell ↔ cell.1 = t := by
  show (∀ t, f.carried.textValue c = some t → f.carried.isSet c.key →
    if t.length ≠ 0 then S.holds (getComparisonOperator
      (f.iSetFlag c.key).toUInt16.toUInt32) (stored cell.1) t = true else cell.1 = []) ↔ _
  rw [getComparisonOperator_carried, isSet_carried, textValue_carried hf hc hset, ht]
  simp only [Option.some.injEq, forall_eq', hset, forall_true_left, S.equal_iff]
  by_cases hempty : t = []
  · simp [hempty]
  · rw [if_pos (by simpa using hempty)]
    unfold stored
    by_cases hcell : cell.1 = []
    · rw [if_pos hcell, hcell]
      simp [eq_comm, hempty]
    · rw [if_neg hcell, Option.some.injEq]

theorem accepts_of_unset {c : Column} (h : ¬f.isSet c.key) (cell : c.Cell) :
    f.accepts S c cell := by
  cases c with
  | integer c =>
      intro hset
      exact absurd hset h
  | text c =>
      intro t _ hset
      exact absurd hset h

/-- A column means the same at both ends. -/
def Agrees (S : TextComparison) (f : CDecisionFilter) (c : Column) : Prop :=
  ∀ cell, f.accepts S c cell ↔ f.carried.accepts S c cell

theorem two_le_largest (c : IntegerColumn) : 2 ≤ c.largest := by
  cases c <;> decide

theorem agrees_integer {c : IntegerColumn} (hset : f.isSet c.key) :
    Agrees S f (.integer c) ↔ f.Keeps S (.integer c) := by
  have hcells : Agrees S f (.integer c) ↔ ∀ n ≤ c.largest,
      (getComparisonOperator (f.iSetFlag c.key)).compare n (f.integerValue c).toNat = true ↔
        n = (f.carried.integerValue c).toNat := by
    have haccepts : ∀ cell : (Column.integer c).Cell, f.accepts S (.integer c) cell ↔
        (getComparisonOperator (f.iSetFlag c.key)).compare cell.1 (f.integerValue c).toNat =
          true := fun cell => ⟨fun h => h hset, fun h _ => h⟩
    constructor
    · intro h n hn
      have hcarried := accepts_carried_integer (S := S) hset ⟨n, hn⟩
      exact (haccepts ⟨n, hn⟩).symm.trans ((h ⟨n, hn⟩).trans hcarried)
    · intro h cell
      rw [accepts_carried_integer hset, haccepts]
      exact h cell.1 cell.2
  rw [hcells, integerValue_carried]
  unfold Keeps
  by_cases hcarried : Carried c
  · simp only [if_pos hcarried]
    exact compare_eq_iff (integerValue_le f c)
  · simp only [if_neg hcarried, UInt32.toNat_zero]
    exact compare_zero_iff (two_le_largest c)

theorem accepts_text (hset : f.isSet c.key) (ht : f.textValue c = some t)
    (cell : (Column.text c).Cell) :
    f.accepts S (.text c) cell ↔
      if t.length ≠ 0 then
        S.holds (getComparisonOperator (f.iSetFlag c.key)) (stored cell.1) t = true
      else cell.1 = [] := by
  show (∀ t, f.textValue c = some t → f.isSet c.key → _) ↔ _
  rw [ht]
  simp only [Option.some.injEq, forall_eq', hset, forall_true_left]

theorem keeps_text (hc : c ≠ .description) (ht : f.textValue c = some t) : f.Keeps S (.text c) ↔
      t = [] ∨ getComparisonOperator (f.iSetFlag c.key) = .equal ∨
        ∀ cell : (Column.text c).Cell,
          S.holds (getComparisonOperator (f.iSetFlag c.key)) (stored cell.1) t = true ↔
            stored cell.1 = some t := by
  have hkeeps : f.Keeps S (.text c) ↔ ∀ t, f.textValue c = some t →
      t = [] ∨ getComparisonOperator (f.iSetFlag c.key) = .equal ∨
        ∀ cell : (Column.text c).Cell,
          S.holds (getComparisonOperator (f.iSetFlag c.key)) (stored cell.1) t = true ↔
            stored cell.1 = some t := by
    cases c with
    | description => exact absurd rfl hc
    | fingerprint => exact Iff.rfl
    | clientEntity => exact Iff.rfl
  rw [hkeeps, ht]
  simp only [Option.some.injEq, forall_eq']

theorem stored_eq_some {s : Text} (ht : t ≠ []) : stored s = some t ↔ s = t := by
  unfold stored
  split
  next hs =>
    rw [hs]
    simp [eq_comm, ht]
  next => rw [Option.some.injEq]

theorem agrees_text (hf : f.Wellformed) (hc : c ≠ .description) (hset : f.isSet c.key)
    (ht : f.textValue c = some t) : Agrees S f (.text c) ↔ f.Keeps S (.text c) := by
  unfold Agrees
  simp only [accepts_text hset ht, accepts_carried_text hf hc hset ht]
  rw [keeps_text hc ht]
  by_cases hempty : t = []
  · simp [hempty]
  · have hlength : t.length ≠ 0 := by simpa using hempty
    simp only [if_pos hlength, hempty, false_or]
    constructor
    · intro h
      right
      intro cell
      rw [stored_eq_some hempty]
      exact h cell
    · rintro (hequal | h)
      · intro cell
        rw [hequal, S.equal_iff, stored_eq_some hempty]
      · intro cell
        rw [h cell, stored_eq_some hempty]

/-- A field that is set means the same at both ends exactly where its condition holds. -/
theorem agrees_iff (hf : f.Wellformed) (hno : ¬f.isSet .description) (c : Column) :
    Agrees S f c ↔ (f.isSet c.key → f.Keeps S c) := by
  by_cases hset : f.isSet c.key
  · simp only [hset, forall_true_left]
    cases c with
    | integer c => exact agrees_integer hset
    | text c =>
      have hc : c ≠ .description := by
        rintro rfl
        exact hno hset
      have hsome : (f.textValue c).isSome := by
        cases c with
        | description => exact absurd rfl hc
        | fingerprint =>
          show (f.iFingerprint.map _).isSome
          rw [Option.isSome_map]
          exact hf.fingerprint hset
        | clientEntity =>
          show (f.iClientEntity.map _).isSome
          rw [Option.isSome_map]
          exact hf.clientEntity hset
      obtain ⟨t, ht⟩ := Option.isSome_iff_exists.mp hsome
      exact agrees_text hf hc hset ht
  · have hset' : ¬f.carried.isSet c.key := by rwa [isSet_carried]
    constructor
    · intro _ h
      exact absurd h hset
    · intro _ cell
      exact ⟨fun _ => accepts_of_unset hset' cell, fun _ => accepts_of_unset hset cell⟩

/-! ### The statement at the other end -/

/-- There is a row that the other end selects. -/
theorem exists_row (hf : f.Wellformed) (hno : ¬f.isSet .description) :
    ∃ row : DecisionRow, ∀ c, f.carried.accepts S c (row c) := by
  refine ⟨sentRow hf, ?_⟩
  intro c
  by_cases hset : f.isSet c.key
  · cases c with
    | integer c => exact (accepts_carried_integer hset _).mpr rfl
    | text c =>
      have hc : c ≠ .description := by
        rintro rfl
        exact hno hset
      intro t ht hset'
      have ht' : f.textValue c = some t := by rwa [textValue_carried hf hc hset] at ht
      have hrow : (sentRow hf (.text c)).1 = t := by
        show (f.textValue c).getD [] = t
        rw [ht']
        rfl
      exact (accepts_carried_text hf hc hset ht' _).mpr hrow t ht hset'
  · exact accepts_of_unset (by rwa [isSet_carried]) _

theorem length_lit (s : String) : (lit s).length = s.toList.length := List.length_map _

/-- No operator is written shorter than `=`, and no number shorter than zero. -/
theorem length_integer_le {c : IntegerColumn} (op : TComparisonOp) {v w : UInt32}
    (h : w = v ∨ w = 0) :
    (Condition.integer c .equal w).sql.length ≤ (Condition.integer c op v).sql.length := by
  have hop : (lit TComparisonOp.equal.sql).length ≤ (lit op.sql).length := by
    rw [length_lit, length_lit]
    cases op <;> decide
  have hdigits : (Nat.toDigits 10 w.toNat).length ≤ (Nat.toDigits 10 v.toNat).length := by
    rcases h with rfl | rfl
    · exact Nat.le_refl _
    · exact Nat.length_toDigits_pos
  unfold Condition.sql
  simp only [List.length_append, length_lit, String.toList_ofList] at *
  omega

theorem length_text_le (op : TComparisonOp) (t : Text) :
    (Condition.text c .equal t).sql.length ≤ (Condition.text c op t).sql.length := by
  have hop : (lit TComparisonOp.equal.sql).length ≤ (lit op.sql).length := by
    rw [length_lit, length_lit]
    cases op <;> decide
  unfold Condition.sql
  simp only [List.length_append] at *
  omega

/-- The statement at the other end has the same columns, and no more to write about each. -/
structure Shorter (b a : SqlStatement) : Prop where
  length : b.text.length ≤ a.text.length
  first : b.conditions = [] ↔ a.conditions = []

theorem Shorter.add (h : Shorter b a) {y x : Condition} (hsql : y.sql.length ≤ x.sql.length) :
    Shorter (b.add y) (a.add x) := by
  have hlength := h.length
  refine ⟨?_, by simp [SqlStatement.add]⟩
  unfold SqlStatement.add
  simp only [List.length_append, h.first]
  omega

theorem Shorter.query (h : Shorter b a) (hf : f.Wellformed) (hno : ¬f.isSet .description)
    (c : Column) : Shorter (f.carried.query b c) (f.query a c) := by
  unfold CDecisionFilter.query
  by_cases hset : f.isSet c.key
  · have hset' : f.carried.isSet c.key := by rwa [isSet_carried]
    have hop : getComparisonOperator (f.carried.iSetFlag c.key) = .equal :=
      getComparisonOperator_carried _
    cases c with
    | integer c =>
      rw [condition_integer hset, condition_integer hset']
      apply h.add
      have hcarried := integerValue_carried (f := f) c
      change getComparisonOperator (f.carried.iSetFlag c.key) = .equal at hop
      rw [hop]
      apply length_integer_le
      split at hcarried
      · exact Or.inl hcarried
      · exact Or.inr hcarried
    | text c =>
      have hc : c ≠ .description := by
        rintro rfl
        exact hno hset
      change getComparisonOperator (f.carried.iSetFlag c.key) = .equal at hop
      cases hvalue : f.textValue c with
      | none =>
        have hvalue' : f.carried.textValue c = none := by
          rw [textValue_carried hf hc hset, hvalue]
        simpa only [condition, hvalue, hvalue'] using h
      | some t =>
        have hvalue' : f.carried.textValue c = some t := by
          rw [textValue_carried hf hc hset, hvalue]
        by_cases ht : t.length ≠ 0
        · rw [condition_text hset hvalue ht, condition_text hset' hvalue' ht, hop]
          exact h.add (length_text_le _ t)
        · rw [condition_null hset hvalue ht, condition_null hset' hvalue' ht]
          exact h.add (Nat.le_refl _)
  · have hset' : ¬f.carried.isSet c.key := by rwa [isSet_carried]
    rw [condition_none hset, condition_none hset']
    exact h

theorem Shorter.foldl (hf : f.Wellformed) (hno : ¬f.isSet .description) (cs : List Column)
    (h : Shorter b a) : Shorter (cs.foldl f.carried.query b) (cs.foldl f.query a) := by
  induction cs generalizing b a with
  | nil => exact h
  | cons c cs ih => exact ih (h.query hf hno c)

theorem statementFits_carried (hf : f.Wellformed) (hno : ¬f.isSet .description)
    (h : f.StatementFits) : f.carried.StatementFits := by
  have hshorter := Shorter.foldl hf hno columns (b := SqlStatement.baseWhere)
    ⟨Nat.le_refl _, Iff.rfl⟩
  unfold StatementFits
  rw [maxLen_carried]
  exact Nat.le_trans hshorter.length h

/-! ### The same rows -/

theorem select_eq_iff : (∀ db, b.select S db = a.select S db) ↔
    ∀ row, b.conditions.all (fun x => x.holds S row) =
      a.conditions.all (fun x => x.holds S row) := by
  constructor
  · intro h row
    have hrow := h [row]
    unfold SqlStatement.select at hrow
    rw [List.filter_singleton, List.filter_singleton] at hrow
    cases hb : b.conditions.all fun x => x.holds S row <;>
      cases ha : a.conditions.all fun x => x.holds S row <;> simp [hb, ha] at hrow ⊢
  · intro h db
    unfold SqlStatement.select
    exact List.filter_congr fun row _ => h row

/-- Both ends select the same rows exactly where they agree on each column. -/
theorem select_made_iff (hf : f.Wellformed) (hno : ¬f.isSet .description) :
    (∀ db, f.carried.made.select S db = f.made.select S db) ↔ ∀ c, Agrees S f c := by
  rw [select_eq_iff]
  have hrows := Boxes.forall_iff (P := f.accepts S) (Q := f.carried.accepts S)
    (exists_row hf hno)
  rw [← (show (∀ i a, f.accepts S i a ↔ f.carried.accepts S i a) ↔ ∀ c, Agrees S f c from Iff.rfl),
    ← hrows]
  apply forall_congr'
  intro row
  rw [← made_holds, ← made_holds, Bool.eq_iff_iff]
  exact Iff.comm

theorem selectsTheSame_iff (hf : f.Wellformed) : SelectsTheSame S f f.carried ↔
    (f.StatementFits → ∀ c : Column, f.isSet c.key → f.Keeps S c) := by
  unfold SelectsTheSame
  simp only [createSqlStatementLC_ok, crashes_carried, not_crashes hf, not_false_eq_true, true_and]
  constructor
  · intro h hfits c
    obtain ⟨_, ⟨hno, -, rfl⟩, hselect⟩ := h f.made ⟨hfits, rfl⟩
    exact (agrees_iff hf hno c).mp ((select_made_iff hf hno).mp hselect c)
  · rintro h b ⟨hfits, rfl⟩
    have hkeeps := h hfits
    have hno : ¬f.isSet .description := fun hset => hkeeps (.text .description) hset
    refine ⟨f.carried.made, ⟨hno, statementFits_carried hf hno hfits, rfl⟩, ?_⟩
    rw [select_made_iff hf hno]
    exact fun c => (agrees_iff hf hno c).mpr (hkeeps c)

theorem survives_iff_selects (hf : f.Wellformed) : Survives S f ↔ SelectsTheSame S f f.carried := by
  unfold Survives
  rw [receivedL_eq hf.toBuffered]
  simp

/-- A built filter survives IPC exactly where each of its fields keeps its meaning. -/
theorem survives_iff (S : TextComparison) {f : CDecisionFilter} (h : Built f) :
    Survives S f ↔ (f.StatementFits → ∀ c : Column, f.isSet c.key → f.Keeps S c) := by
  rw [survives_iff_selects h.wellformed, selectsTheSame_iff h.wellformed]

/-- Two fields, each compared with `=`. -/
theorem survives_two_fields :
    Survives .binary ((newL.setServiceId 5 .equal).setRecordId 9 .equal) := by
  have hbuilt : Built ((newL.setServiceId 5 .equal).setRecordId 9 .equal) := by
    have hservice : Built (newL.setServiceId 5 .equal) :=
      @Built.set _ _ (.serviceId 5 .equal) .empty rfl
    exact @Built.set _ _ (.recordId 9 .equal) hservice rfl
  refine (survives_iff .binary hbuilt).mpr fun _ c hset => ?_
  cases c with
  | integer c =>
      cases c with
      | serviceId => exact Or.inl rfl
      | recordId => exact Or.inl rfl
      | _ => exact absurd hset (by decide)
  | text c => exact absurd hset (by cases c <;> decide)

/-- All clients but one, and the server finds those of the one. -/
theorem not_survives_notEqual :
    Built (newL.setClientSid 7 .notEqual) ∧ ¬Survives .binary (newL.setClientSid 7 .notEqual) := by
  have hbuilt : Built (newL.setClientSid 7 .notEqual) :=
    @Built.set _ _ (.clientSid 7 .notEqual) .empty rfl
  refine ⟨hbuilt, ?_⟩
  rw [survives_iff_selects hbuilt.wellformed, selectsTheSame_iff hbuilt.wellformed]
  intro h
  have hfits : (newL.setClientSid 7 .notEqual).StatementFits := by
    have hlength : (newL.setClientSid 7 .notEqual).statement.text.length = 45 := by decide
    have hestimate : 59 ≤ addLengths KMaxIntCondition KBaseSQLLength
        (combinedFlags (newL.setClientSid 7 .notEqual) &&& 0x000006CF).toUInt16 := by
      rw [addLengths, if_neg (by decide)]
      exact le_addLengths _ _ _
    have hmax : 59 ≤ maxLen (newL.setClientSid 7 .notEqual) :=
      Nat.le_trans hestimate (le_addLengths _ _ _)
    unfold StatementFits
    omega
  have hkeeps := h hfits (.integer .clientSid) (by decide)
  have hno : ¬KeepsInteger .notEqual 0xffffffff 7 := by
    rintro (hop | ⟨hop, -⟩ | ⟨hop, -⟩) <;> cases hop
  exact hno hkeeps

end CDecisionFilter

end OsSecurity

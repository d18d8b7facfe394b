/-
The statement of a filter, column by column.

Each column that is set gives one `condition`, and `statement` puts them together without
looking at the room there is.  `createSqlStatementLC_ok` says when the code makes that
statement: when it fits, and the description, where it is set, is there.  A row then passes
all conditions when every cell is one that its column `accepts`.
-/
import OsSecurity.Ups.DecisionDb

namespace OsSecurity

open List

namespace CDecisionFilter

open CDecisionDb

variable {f : CDecisionFilter}

/-! ### The estimated length -/

theorem le_addLengths (aLength maxLen : Nat) (flag : UInt16) :
    maxLen ≤ addLengths aLength maxLen flag := by
  induction maxLen, flag using addLengths.induct aLength with
  | case1 maxLen =>
      rw [addLengths, if_pos rfl]
  | case2 maxLen flag hflag ih =>
      rw [addLengths, if_neg hflag]
      omega

theorem lt_addLengths {aLength : Nat} (hlength : 0 < aLength) (maxLen : Nat) {flag : UInt16}
    (hflag : flag ≠ 0) : maxLen < addLengths aLength maxLen flag := by
  rw [addLengths, if_neg hflag]
  have hle := le_addLengths aLength (maxLen + aLength) (flag &&& (flag - 1))
  omega

theorem or_and_distrib (a b mask : UInt32) : (a ||| b) &&& mask = a &&& mask ||| b &&& mask := by
  apply UInt32.toNat_inj.mp
  simp only [UInt32.toNat_and, UInt32.toNat_or]
  exact Nat.and_or_distrib_right _ _ _

/-- The combined flags, through a mask. -/
theorem foldl_or_and (flags : FilterKey → UInt32) (mask : UInt32) (keys : List FilterKey)
    (start : UInt32) :
    keys.foldl (fun acc key => acc ||| flags key) start &&& mask =
      keys.foldl (fun acc key => acc ||| flags key &&& mask) (start &&& mask) := by
  induction keys generalizing start with
  | nil => rfl
  | cons key keys ih => rw [foldl_cons, foldl_cons, ih, or_and_distrib]

theorem foldl_or_eq_zero {flags : FilterKey → UInt32} {keys : List FilterKey} {start : UInt32}
    (h : keys.foldl (fun acc key => acc ||| flags key) start = 0) :
    start = 0 ∧ ∀ key ∈ keys, flags key = 0 := by
  induction keys generalizing start with
  | nil => exact ⟨h, by simp⟩
  | cons key keys ih =>
      obtain ⟨hstart, hrest⟩ := ih h
      rw [UInt32.or_eq_zero_iff] at hstart
      refine ⟨hstart.1, ?_⟩
      intro k hk
      rcases mem_cons.mp hk with rfl | hk
      · exact hstart.2
      · exact hrest k hk

theorem mem_all (key : FilterKey) : key ∈ FilterKey.all := by
  cases key <;> decide

/-- A field that is set has its bit in the combined flags. -/
theorem combinedFlags_ne_zero {key : FilterKey} (h : f.isSet key) {mask : UInt32}
    (hmask : mask &&& key.bit = key.bit) : combinedFlags f &&& mask ≠ 0 := by
  intro hzero
  unfold combinedFlags at hzero
  rw [foldl_or_and] at hzero
  have hflag := (foldl_or_eq_zero hzero).2 key (mem_all key)
  apply h
  rw [← hmask, ← UInt32.and_assoc, hflag, UInt32.zero_and]

theorem toUInt16_ne_zero {flags mask : UInt32} (hmask : mask &&& 0xffff = mask)
    (h : flags &&& mask ≠ 0) : (flags &&& mask).toUInt16 ≠ 0 := by
  intro hzero
  have hback := lower_half (flags &&& mask)
  rw [UInt32.and_assoc, hmask, hzero] at hback
  exact h hback.symm

/-- The statement is the whole table only where nothing is set. -/
theorem maxLen_of_isSet {key : FilterKey} (h : f.isSet key) : maxLen f ≠ KBaseSQLLength := by
  have hmask : (0x000006CF : UInt32) &&& key.bit = key.bit ∨
      (0x00000130 : UInt32) &&& key.bit = key.bit := by
    cases key <;> decide
  have hle := le_addLengths KMaxIntCondition KBaseSQLLength
    (combinedFlags f &&& 0x000006CF).toUInt16
  have hle' := le_addLengths KMaxStringCondition
    (addLengths KMaxIntCondition KBaseSQLLength (combinedFlags f &&& 0x000006CF).toUInt16)
    (combinedFlags f &&& 0x00000130).toUInt16
  unfold maxLen
  rcases hmask with hmask | hmask
  · have hlt := @lt_addLengths KMaxIntCondition (by decide) KBaseSQLLength _
      (toUInt16_ne_zero (by decide) (combinedFlags_ne_zero h hmask))
    omega
  · have hlt := @lt_addLengths KMaxStringCondition (by decide)
      (addLengths KMaxIntCondition KBaseSQLLength (combinedFlags f &&& 0x000006CF).toUInt16) _
      (toUInt16_ne_zero (by decide) (combinedFlags_ne_zero h hmask))
    omega

theorem combinedFlags_carried (f : CDecisionFilter) {mask : UInt32}
    (hmask : 0xffff &&& mask = mask) :
    combinedFlags f.carried &&& mask = combinedFlags f &&& mask := by
  unfold combinedFlags
  rw [foldl_or_and, foldl_or_and]
  have hflags : ∀ key, f.carried.iSetFlag key &&& mask = f.iSetFlag key &&& mask := by
    intro key
    show (f.iSetFlag key).toUInt16.toUInt32 &&& mask = _
    rw [lower_half, UInt32.and_assoc, hmask]
  simp only [hflags]

theorem maxLen_carried (f : CDecisionFilter) : maxLen f.carried = maxLen f := by
  unfold maxLen
  rw [combinedFlags_carried f (by decide), combinedFlags_carried f (by decide)]

/-! ### The conditions -/

/-- The condition on a column, where the filter has one. -/
def condition (f : CDecisionFilter) : Column → Option Condition
  | .integer c =>
    if f.isSet c.key then
      some (.integer c (getComparisonOperator (f.iSetFlag c.key)) (f.integerValue c))
    else none
  | .text c =>
    match f.textValue c with
    | some t =>
      if f.isSet c.key then
        if t.length ≠ 0 then some (.text c (getComparisonOperator (f.iSetFlag c.key)) t)
        else some (.null c)
      else none
    | none => none

/-- The description is set, but there is none. -/
def Crashes (f : CDecisionFilter) : Prop :=
  f.textValue .description = none ∧ f.isSet .description

def query (f : CDecisionFilter) (aSql : SqlStatement) (c : Column) : SqlStatement :=
  match f.condition c with
  | some x => aSql.add x
  | none => aSql

/-- The statement without a look at the room for it. -/
def statement (f : CDecisionFilter) : SqlStatement := columns.foldl f.query SqlStatement.baseWhere

theorem append_ok {maxLen : Nat} {aSql b : SqlStatement} {c : Condition} :
    aSql.append maxLen c = .ok b ↔ b = aSql.add c ∧ b.text.length ≤ maxLen := by
  unfold SqlStatement.append
  split
  next hfits =>
    rw [Except.ok.injEq]
    constructor
    · rintro rfl
      exact ⟨rfl, hfits⟩
    · intro h
      exact h.1.symm
  next hfits =>
    constructor
    · intro h
      exact absurd h (panic_ne_ok b)
    · rintro ⟨rfl, hb⟩
      exact absurd hb hfits

theorem condition_integer {c : IntegerColumn} (h : f.isSet c.key) :
    f.condition (.integer c) =
      some (.integer c (getComparisonOperator (f.iSetFlag c.key)) (f.integerValue c)) := if_pos h

theorem condition_text {c : TextColumn} {t : Text} (h : f.isSet c.key)
    (hvalue : f.textValue c = some t) (ht : t.length ≠ 0) :
    f.condition (.text c) = some (.text c (getComparisonOperator (f.iSetFlag c.key)) t) := by
  unfold condition
  simp only [hvalue, if_pos h, if_pos ht]

theorem condition_null {c : TextColumn} {t : Text} (h : f.isSet c.key)
    (hvalue : f.textValue c = some t) (ht : ¬t.length ≠ 0) :
    f.condition (.text c) = some (.null c) := by
  unfold condition
  simp only [hvalue, if_pos h, if_neg ht]

theorem condition_none {c : Column} (h : ¬f.isSet c.key) : f.condition c = none := by
  cases c with
  | integer c => exact if_neg h
  | text c =>
      unfold condition
      cases hvalue : f.textValue c with
      | some t =>
        simp only [hvalue]
        exact if_neg h
      | none => simp only [hvalue]

/-- What a call does where the description is not missing. -/
theorem appendQueryL_eq {c : Column} (h : ¬(c = .text .description ∧ f.Crashes))
    (aSql : SqlStatement) : appendQueryL f aSql c =
      match f.condition c with
      | some x => aSql.append (maxLen f) x
      | none => .ok aSql := by
  cases c with
  | integer c =>
      by_cases hset : f.isSet c.key
      · rw [condition_integer hset]
        exact if_pos hset
      · rw [condition_none hset]
        exact if_neg hset
  | text c =>
      cases hvalue : f.textValue c with
      | some t =>
        have hcall : appendQueryL f aSql (.text c) =
            appendQueryStringL (maxLen f) t aSql (f.iSetFlag c.key) c := by
          simp only [appendQueryL, hvalue]
        rw [hcall]
        by_cases hset : f.isSet c.key
        · by_cases ht : t.length ≠ 0
          · rw [condition_text hset hvalue ht]
            exact (if_pos hset).trans (if_pos ht)
          · rw [condition_null hset hvalue ht]
            exact (if_pos hset).trans (if_neg ht)
        · rw [condition_none hset]
          exact if_neg hset
      | none =>
        have hkept : ¬(c = .description ∧ f.isSet .description) := by
          rintro ⟨rfl, hset⟩
          exact h ⟨rfl, hvalue, hset⟩
        simp only [appendQueryL, condition, hvalue]
        exact if_neg hkept

theorem appendQueryL_crash (h : f.Crashes) (aSql : SqlStatement) :
    appendQueryL f aSql (.text .description) = .error .undefined := by
  unfold appendQueryL
  simp only [h.1]
  exact if_pos ⟨trivial, h.2⟩

/-- One call puts the condition of its column into the statement. -/
theorem appendQueryL_ok {aSql b : SqlStatement} (haSql : aSql.text.length ≤ maxLen f)
    (c : Column) : appendQueryL f aSql c = .ok b ↔
      ¬(c = .text .description ∧ f.Crashes) ∧ b = f.query aSql c ∧ b.text.length ≤ maxLen f := by
  by_cases hcrash : c = .text .description ∧ f.Crashes
  · obtain ⟨rfl, hmissing⟩ := hcrash
    rw [appendQueryL_crash hmissing]
    constructor
    · intro h
      cases h
    · rintro ⟨hno, -⟩
      exact absurd ⟨rfl, hmissing⟩ hno
  · rw [appendQueryL_eq hcrash]
    unfold query
    cases f.condition c with
    | some x =>
      simp only [append_ok]
      exact ⟨fun h => ⟨hcrash, h⟩, fun h => h.2⟩
    | none =>
      simp only [Except.ok.injEq]
      constructor
      · rintro rfl
        exact ⟨hcrash, rfl, haSql⟩
      · rintro ⟨-, rfl, -⟩
        rfl

/-- A statement only grows. -/
theorem length_query_le (aSql : SqlStatement) (c : Column) :
    aSql.text.length ≤ (f.query aSql c).text.length := by
  unfold query
  cases f.condition c with
  | some x =>
      show aSql.text.length ≤ (aSql.text ++ _ ++ _).length
      simp only [length_append]
      omega
  | none => exact Nat.le_refl _

theorem length_foldl_le (cs : List Column) (aSql : SqlStatement) :
    aSql.text.length ≤ (cs.foldl f.query aSql).text.length := by
  induction cs generalizing aSql with
  | nil => exact Nat.le_refl _
  | cons c cs ih => exact Nat.le_trans (length_query_le aSql c) (ih (f.query aSql c))

theorem foldlM_ok (cs : List Column) {aSql b : SqlStatement}
    (haSql : aSql.text.length ≤ maxLen f) : cs.foldlM (appendQueryL f) aSql = .ok b ↔
      ¬(.text .description ∈ cs ∧ f.Crashes) ∧ b = cs.foldl f.query aSql ∧
        b.text.length ≤ maxLen f := by
  induction cs generalizing aSql with
  | nil =>
      show Except.ok aSql = .ok b ↔ _
      rw [Except.ok.injEq]
      constructor
      · rintro rfl
        exact ⟨by simp, rfl, haSql⟩
      · rintro ⟨-, rfl, -⟩
        rfl
  | cons c cs ih =>
      rw [foldlM_cons, bind_eq_ok, foldl_cons]
      constructor
      · rintro ⟨a, ha, hb⟩
        obtain ⟨hno, rfl, hfits⟩ := (appendQueryL_ok haSql c).mp ha
        obtain ⟨hno', hrest⟩ := (ih hfits).mp hb
        refine ⟨?_, hrest⟩
        rintro ⟨hmem, hcrash⟩
        rcases mem_cons.mp hmem with hc | hmem
        · exact hno ⟨hc.symm, hcrash⟩
        · exact hno' ⟨hmem, hcrash⟩
      · rintro ⟨hno, rfl, hfits⟩
        have hstep : (f.query aSql c).text.length ≤ maxLen f :=
          Nat.le_trans (length_foldl_le cs _) hfits
        refine ⟨f.query aSql c, (appendQueryL_ok haSql c).mpr ⟨?_, rfl, hstep⟩,
          (ih hstep).mpr ⟨?_, rfl, hfits⟩⟩
        · rintro ⟨hc, hcrash⟩
          exact hno ⟨by rw [hc]; exact mem_cons_self, hcrash⟩
        · rintro ⟨hmem, hcrash⟩
          exact hno ⟨mem_cons_of_mem c hmem, hcrash⟩

/-- The statement that the code makes where it makes one. -/
def made (f : CDecisionFilter) : SqlStatement :=
  if maxLen f = KBaseSQLLength then SqlStatement.base else f.statement

/-- The estimate is long enough for the statement. -/
def StatementFits (f : CDecisionFilter) : Prop := f.statement.text.length ≤ maxLen f

theorem statement_of_unset (h : ∀ c : Column, ¬f.isSet c.key) :
    f.statement = SqlStatement.baseWhere := by
  have hquery : ∀ (cs : List Column) (aSql : SqlStatement), cs.foldl f.query aSql = aSql := by
    intro cs
    induction cs with
    | nil => exact fun _ => rfl
    | cons c cs ih =>
      intro aSql
      have hstep : f.query aSql c = aSql := by
        unfold query
        rw [condition_none (h c)]
      rw [foldl_cons, hstep, ih]
  exact hquery columns _

theorem unset_of_maxLen (h : maxLen f = KBaseSQLLength) (key : FilterKey) : ¬f.isSet key :=
  fun hset => maxLen_of_isSet hset h

theorem baseWhere_fits (f : CDecisionFilter) : SqlStatement.baseWhere.text.length ≤ maxLen f := by
  have hlength : SqlStatement.baseWhere.text.length = KBaseSQLLength := by decide
  rw [hlength]
  exact Nat.le_trans (le_addLengths _ _ _) (le_addLengths _ _ _)

theorem createSqlStatementLC_ok {b : SqlStatement} :
    createSqlStatementLC f = .ok b ↔ ¬f.Crashes ∧ f.StatementFits ∧ b = f.made := by
  unfold createSqlStatementLC made
  split
  next hbase =>
    have hunset := unset_of_maxLen hbase
    have hfits : f.StatementFits := by
      unfold StatementFits
      rw [statement_of_unset fun c => hunset c.key]
      exact baseWhere_fits f
    rw [Except.ok.injEq]
    constructor
    · intro h
      exact ⟨fun hcrash => hunset _ hcrash.2, hfits, h.symm⟩
    · rintro ⟨-, -, rfl⟩
      rfl
  next hbase =>
    rw [foldlM_ok columns (baseWhere_fits f)]
    have hmem : Column.text .description ∈ columns := by decide
    constructor
    · rintro ⟨hno, rfl, hfits⟩
      exact ⟨fun hcrash => hno ⟨hmem, hcrash⟩, hfits, rfl⟩
    · rintro ⟨hno, hfits, rfl⟩
      exact ⟨fun h => hno h.2, rfl, hfits⟩

/-! ### The rows that pass -/

/-- The cells that the filter lets through in a column. -/
def accepts (S : TextComparison) (f : CDecisionFilter) : (c : Column) → c.Cell → Prop
  | .integer c, cell =>
    f.isSet c.key →
      (getComparisonOperator (f.iSetFlag c.key)).compare cell.1 (f.integerValue c).toNat = true
  | .text c, cell =>
    ∀ t, f.textValue c = some t → f.isSet c.key →
      if t.length ≠ 0 then
        S.holds (getComparisonOperator (f.iSetFlag c.key)) (stored cell.1) t = true
      else cell.1 = []

theorem accepts_iff {S : TextComparison} {row : DecisionRow} (c : Column) :
    f.accepts S c (row c) ↔ ∀ x, f.condition c = some x → x.holds S row = true := by
  cases c with
  | integer c =>
      show (f.isSet c.key → _) ↔ _
      by_cases hset : f.isSet c.key
      · rw [condition_integer hset]
        simp [hset, Condition.holds]
      · rw [condition_none hset]
        simp [hset]
  | text c =>
      show (∀ t, f.textValue c = some t → f.isSet c.key → _) ↔ _
      cases hvalue : f.textValue c with
      | none =>
        simp [condition, hvalue]
      | some t =>
        by_cases hset : f.isSet c.key
        · by_cases ht : t.length ≠ 0
          · rw [condition_text hset hvalue ht]
            simp only [Option.some.injEq, forall_eq', hset, forall_true_left, if_pos ht]
            rfl
          · rw [condition_null hset hvalue ht]
            simp only [Option.some.injEq, forall_eq', hset, forall_true_left, if_neg ht]
            exact List.isEmpty_iff.symm
        · rw [condition_none hset]
          simp [hset]

theorem mem_conditions {x : Condition} (cs : List Column) (aSql : SqlStatement) :
    x ∈ (cs.foldl f.query aSql).conditions ↔
      x ∈ aSql.conditions ∨ ∃ c ∈ cs, f.condition c = some x := by
  induction cs generalizing aSql with
  | nil => simp
  | cons c cs ih =>
      have hstep : x ∈ (f.query aSql c).conditions ↔
          x ∈ aSql.conditions ∨ f.condition c = some x := by
        unfold query
        cases f.condition c with
        | none => simp
        | some y => simp [SqlStatement.add, eq_comm]
      rw [foldl_cons, ih, hstep]
      simp [or_assoc]

theorem mem_columns (c : Column) : c ∈ columns := by
  cases c with
  | integer c => cases c <;> decide
  | text c => cases c <;> decide

theorem mem_made {x : Condition} : x ∈ f.made.conditions ↔ ∃ c, f.condition c = some x := by
  unfold made
  split
  next hbase =>
    constructor
    · intro h
      cases h
    · rintro ⟨c, hc⟩
      rw [condition_none (unset_of_maxLen hbase c.key)] at hc
      cases hc
  next hbase =>
    unfold statement
    rw [mem_conditions]
    constructor
    · rintro (h | ⟨c, -, hc⟩)
      · cases h
      · exact ⟨c, hc⟩
    · rintro ⟨c, hc⟩
      exact Or.inr ⟨c, mem_columns c, hc⟩

/-- A row is selected when each of its cells is accepted. -/
theorem made_holds {S : TextComparison} {row : DecisionRow} :
    f.made.conditions.all (fun x => x.holds S row) = true ↔ ∀ c, f.accepts S c (row c) := by
  rw [all_eq_true]
  constructor
  · intro h c
    exact (accepts_iff c).mpr fun x hx => h x (mem_made.mpr ⟨c, hx⟩)
  · intro h x hx
    obtain ⟨c, hc⟩ := mem_made.mp hx
    exact (accepts_iff c).mp (h c) x hc

end CDecisionFilter

end OsSecurity

/-
Reading a statement with the rules of SQL.

A name is letters, an operator is as long as it can be, a number is its digits, and a literal
ends at the first quote that no other quote follows.  `IS NULL` says that the column has no
value.  What a statement denotes is the list of the conditions that its `WHERE` joins.
-/
import OsSecurity.Ups.DecisionDb

namespace OsSecurity

open Condition List Nat

/-- What a column is compared with. -/
inductive SqlValue where
  | number (n : Nat)
  | text (t : Text)
  | null
  deriving DecidableEq

/-- A column, an operator and a value. -/
structure SqlCondition where
  column : Column
  op : TComparisonOp
  value : SqlValue
  deriving DecidableEq

def Column.name : Column → String
  | .integer c => c.name
  | .text c => c.name

namespace SqlReader

def isLetter (u : UInt16) : Bool :=
  (0x41 ≤ u.toNat && u.toNat ≤ 0x5A) || (0x61 ≤ u.toNat && u.toNat ≤ 0x7A)

def isDigit (u : UInt16) : Bool := 0x30 ≤ u.toNat && u.toNat ≤ 0x39

def quote : UInt16 := 0x27

/-- What follows a text at the front. -/
def strip (front t : Text) : Option Text :=
  if front.isPrefixOf t then some (t.drop front.length) else none

def columnOf (name : Text) : Option Column :=
  CDecisionDb.columns.find? fun c => lit c.name = name

def readOperator : Text → Option (TComparisonOp × Text)
  | 0x3C :: 0x3E :: t => some (.notEqual, t)
  | 0x3C :: 0x3D :: t => some (.lessThanOrEqual, t)
  | 0x3C :: t => some (.lessThan, t)
  | 0x3E :: 0x3D :: t => some (.greaterThanOrEqual, t)
  | 0x3E :: t => some (.greaterThan, t)
  | 0x3D :: t => some (.equal, t)
  | _ => none

/-- What is left of a literal behind its first quote. -/
def readLiteral : Text → Option (Text × Text)
  | [] => none
  | u :: t =>
    if u = quote then
      match t with
      | v :: t' => if v = quote then (readLiteral t').map fun p => (quote :: p.1, p.2)
        else some ([], v :: t')
      | [] => some ([], [])
    else (readLiteral t).map fun p => (u :: p.1, p.2)

def numberOf (digits : Text) : Nat := digits.foldl (fun n u => 10 * n + (u.toNat - 0x30)) 0

def readNumber (t : Text) : Option (SqlValue × Text) :=
  if t.takeWhile isDigit = [] then none
  else some (.number (numberOf (t.takeWhile isDigit)), t.dropWhile isDigit)

def readValue (t : Text) : Option (SqlValue × Text) :=
  match t with
  | u :: t' =>
    if u = quote then (readLiteral t').map fun p => (.text p.1, p.2) else readNumber t
  | [] => none

/-- An operator and a value, or `IS NULL`. -/
def readComparison (c : Column) (t : Text) : Option (SqlCondition × Text) :=
  match strip (lit " IS NULL") t with
  | some t => some (⟨c, .equal, .null⟩, t)
  | none => do
    let (op, t) ← readOperator t
    let (value, t) ← readValue t
    return (⟨c, op, value⟩, t)

def readCondition (t : Text) : Option (SqlCondition × Text) := do
  let c ← columnOf (t.takeWhile isLetter)
  readComparison c (t.dropWhile isLetter)

/-- Conditions with `AND` between them, to the end; a condition takes a unit at least. -/
def readConditions : Nat → Text → Option (List SqlCondition)
  | 0, _ => none
  | fuel + 1, t => do
    let (condition, t) ← readCondition t
    if t = [] then some [condition]
    else do
      let t ← strip (lit " AND ") t
      let conditions ← readConditions fuel t
      return condition :: conditions

def readStatement (t : Text) : Option (List SqlCondition) := do
  let t ← strip (lit "SELECT * FROM UPSDecisions") t
  if t = [] then some []
  else do
    let t ← strip (lit " WHERE ") t
    readConditions (t.length + 1) t

end SqlReader

/-- What a condition of the code's says. -/
def Condition.meaning : Condition → SqlCondition
  | .integer c op aValue => ⟨.integer c, op, .number aValue.toNat⟩
  | .text c op aValue => ⟨.text c, op, .text aValue⟩
  | .null c => ⟨.text c, .equal, .null⟩

namespace SqlReader

/-! ### What is written is read -/

theorem strip_append (front t : Text) : strip front (front ++ t) = some t := by
  unfold strip
  rw [if_pos (List.isPrefixOf_iff_prefix.mpr (prefix_append front t)), drop_left]

theorem takeWhile_of_all {α : Type} {p : α → Bool} {front t : List α}
    (hfront : ∀ x ∈ front, p x = true) (ht : ∀ x ∈ t.head?, p x = false) :
    (front ++ t).takeWhile p = front ∧ (front ++ t).dropWhile p = t := by
  induction front with
  | nil =>
      cases t with
      | nil => exact ⟨rfl, rfl⟩
      | cons x t =>
        have hx := ht x rfl
        simp [hx]
  | cons x front ih =>
      obtain ⟨htake, hdrop⟩ := ih fun y hy => hfront y (mem_cons_of_mem x hy)
      have hx := hfront x mem_cons_self
      simp [hx, htake, hdrop]

theorem columnOf_name (c : Column) : columnOf (lit c.name) = some c := by
  cases c with
  | integer c => cases c <;> decide
  | text c => cases c <;> decide

theorem name_letters (c : Column) : ∀ u ∈ lit c.name, isLetter u = true := by
  refine all_eq_true.mp ?_
  cases c with
  | integer c => cases c <;> decide
  | text c => cases c <;> decide

/-- A name ends where something other than a letter follows. -/
theorem readCondition_name (c : Column) {t : Text} (ht : ∀ u ∈ t.head?, isLetter u = false) :
    readCondition (lit c.name ++ t) = readComparison c t := by
  obtain ⟨htake, hdrop⟩ := takeWhile_of_all (name_letters c) ht
  unfold readCondition
  rw [htake, hdrop, columnOf_name]
  rfl

/-- An operator ends where neither `=` nor `>` follows. -/
theorem readOperator_sql (op : TComparisonOp) {u : UInt16} (t : Text) (heq : u ≠ 0x3D)
    (hgt : u ≠ 0x3E) : readOperator (lit op.sql ++ u :: t) = some (op, u :: t) := by
  cases op with
  | equal => rfl
  | notEqual => rfl
  | lessThanOrEqual => rfl
  | greaterThanOrEqual => rfl
  | lessThan =>
      show readOperator (0x3C :: u :: t) = _
      rw [readOperator.eq_def]
      split <;> simp_all
  | greaterThan =>
      show readOperator (0x3E :: u :: t) = _
      rw [readOperator.eq_def]
      split <;> simp_all

theorem readLiteral_end {t : Text} (ht : ∀ u ∈ t.head?, u ≠ quote) :
    readLiteral (quote :: t) = some ([], t) := by
  rw [readLiteral.eq_def]
  dsimp only
  rw [if_pos rfl]
  cases t with
  | nil => rfl
  | cons v t =>
      have hv := ht v rfl
      exact if_neg hv

theorem readLiteral_quotes (t : Text) :
    readLiteral (quote :: quote :: t) = (readLiteral t).map fun p => (quote :: p.1, p.2) := by
  rw [readLiteral.eq_def]
  dsimp only
  rw [if_pos rfl, if_pos rfl]

theorem readLiteral_other {u : UInt16} (hu : u ≠ quote) (t : Text) :
    readLiteral (u :: t) = (readLiteral t).map fun p => (u :: p.1, p.2) := by
  rw [readLiteral.eq_def]
  dsimp only
  rw [if_neg hu]

/-- A literal with its quotes doubled ends at its own quote. -/
theorem readLiteral_doubled (aValue : Text) {t : Text} (ht : ∀ u ∈ t.head?, u ≠ quote) :
    readLiteral (doubleSingleQuotes aValue ++ quote :: t) = some (aValue, t) := by
  induction aValue with
  | nil => exact readLiteral_end ht
  | cons u aValue ih =>
      have hdouble : doubleSingleQuotes (u :: aValue) =
          (if u = 0x27 then [u, u] else [u]) ++ doubleSingleQuotes aValue := rfl
      rw [hdouble]
      by_cases hu : u = 0x27
      · rw [if_pos hu, hu]
        show readLiteral (quote :: quote :: (doubleSingleQuotes aValue ++ quote :: t)) = _
        rw [readLiteral_quotes, ih]
        rfl
      · rw [if_neg hu]
        show readLiteral (u :: (doubleSingleQuotes aValue ++ quote :: t)) = _
        rw [readLiteral_other hu, ih]
        rfl

/-! ### Numbers -/

/-- A digit of a number, as a unit. -/
def unitOf (c : Char) : UInt16 := UInt16.ofNat c.toNat

theorem isDigit_unitOf {c : Char} (hc : c.isDigit = true) :
    isDigit (unitOf c) = true ∧ (unitOf c).toNat = c.toNat := by
  have hbounds : 48 ≤ c.toNat ∧ c.toNat ≤ 57 := by
    simpa [Char.isDigit, UInt32.le_iff_toNat_le] using hc
  have hvalue : (unitOf c).toNat = c.toNat := by
    unfold unitOf
    rw [UInt16.toNat_ofNat']
    omega
  refine ⟨?_, hvalue⟩
  unfold isDigit
  rw [hvalue]
  simpa using hbounds

theorem numberOf_digits {cs : List Char} (hcs : ∀ c ∈ cs, c.isDigit = true) (start : Nat) :
    (cs.map unitOf).foldl (fun n u => 10 * n + (u.toNat - 0x30)) start =
      ofDigitChars 10 cs start := by
  induction cs generalizing start with
  | nil => rfl
  | cons c cs ih =>
      have hvalue := (isDigit_unitOf (hcs c mem_cons_self)).2
      rw [map_cons, foldl_cons, ofDigitChars_cons, hvalue,
        ih fun d hd => hcs d (mem_cons_of_mem c hd)]
      rfl

theorem digits_isDigit {n : Nat} : ∀ c ∈ toDigits 10 n, c.isDigit = true :=
  fun _ hc => isDigit_of_mem_toDigits (by decide) (by decide) hc

theorem lit_digits (n : Nat) :
    lit (String.ofList (toDigits 10 n)) = (toDigits 10 n).map unitOf := by
  unfold lit
  rw [String.toList_ofList]
  rfl

/-- The digits of a number end where no digit follows. -/
theorem readNumber_digits (n : Nat) {t : Text} (ht : ∀ u ∈ t.head?, isDigit u = false) :
    readNumber (lit (String.ofList (toDigits 10 n)) ++ t) = some (.number n, t) := by
  have hdigits : ∀ u ∈ (toDigits 10 n).map unitOf, isDigit u = true := by
    intro u hu
    obtain ⟨c, hc, rfl⟩ := mem_map.mp hu
    exact (isDigit_unitOf (digits_isDigit c hc)).1
  obtain ⟨htake, hdrop⟩ := takeWhile_of_all hdigits ht
  have hne : (toDigits 10 n).map unitOf ≠ [] := by
    rw [Ne, map_eq_nil_iff]
    exact toDigits_ne_nil
  unfold readNumber numberOf
  rw [lit_digits, htake, hdrop, if_neg hne, numberOf_digits digits_isDigit,
    ofDigitChars_toDigits (by decide) (by decide)]

/-! ### Conditions -/

theorem strip_isNull (op : TComparisonOp) (t : Text) :
    strip (lit " IS NULL") (lit op.sql ++ t) = none := by
  cases op <;> rfl

theorem sql_head (op : TComparisonOp) (t : Text) :
    ∀ u ∈ (lit op.sql ++ t).head?, isLetter u = false := by
  intro u hu
  cases op <;> exact Option.some.inj hu ▸ rfl

theorem readComparison_value {c : Column} {op : TComparisonOp} {u : UInt16} {t rest : Text}
    {value : SqlValue} (heq : u ≠ 0x3D) (hgt : u ≠ 0x3E)
    (hvalue : readValue (u :: t) = some (value, rest)) :
    readComparison c (lit op.sql ++ u :: t) = some (⟨c, op, value⟩, rest) := by
  unfold readComparison
  rw [strip_isNull]
  dsimp only
  rw [readOperator_sql op t heq hgt]
  show (readValue (u :: t) >>= _) = _
  rw [hvalue]
  rfl

/-- A condition is read as what it says, up to the blank behind it. -/
theorem readCondition_sql (x : Condition) {t : Text} (ht : ∀ u ∈ t.head?, u = 0x20) :
    readCondition (x.sql ++ t) = some (x.meaning, t) := by
  cases x with
  | integer c op aValue =>
      have hsql : (Condition.integer c op aValue).sql ++ t = lit (Column.integer c).name ++
          (lit op.sql ++ (lit (String.ofList (toDigits 10 aValue.toNat)) ++ t)) := by
        simp only [sql, Column.name, List.append_assoc]
      have hdigit : ∀ u ∈ t.head?, isDigit u = false := by
        intro u hu
        rw [ht u hu]
        rfl
      have hnumber := readNumber_digits aValue.toNat hdigit
      rw [hsql, readCondition_name _ (sql_head op _)]
      rw [lit_digits] at hnumber ⊢
      cases hdigits : toDigits 10 aValue.toNat with
      | nil => exact absurd hdigits toDigits_ne_nil
      | cons d ds =>
        rw [hdigits] at hnumber
        have hd : isDigit (unitOf d) = true := by
          refine (isDigit_unitOf (digits_isDigit (n := aValue.toNat) d ?_)).1
          rw [hdigits]
          exact mem_cons_self
        have hother : ∀ v : UInt16, isDigit v = false → unitOf d ≠ v := by
          intro v hv heq
          rw [heq, hv] at hd
          exact Bool.false_ne_true hd
        refine readComparison_value (hother 0x3D rfl) (hother 0x3E rfl) ?_
        exact (if_neg (hother quote rfl)).trans hnumber
  | text c op aValue =>
      have hsql : (Condition.text c op aValue).sql ++ t = lit (Column.text c).name ++
          (lit op.sql ++ quote :: (doubleSingleQuotes aValue ++ quote :: t)) := by
        simp only [sql, Column.name, List.append_assoc]
        rfl
      have hquote : ∀ u ∈ t.head?, u ≠ quote := by
        intro u hu
        rw [ht u hu]
        decide
      rw [hsql, readCondition_name _ (sql_head op _)]
      refine readComparison_value (by decide) (by decide) ?_
      unfold readValue
      dsimp only
      rw [if_pos rfl, readLiteral_doubled aValue hquote]
      rfl
  | null c =>
      have hsql : (Condition.null c).sql ++ t =
          lit (Column.text c).name ++ (lit " IS NULL" ++ t) := by
        simp only [sql, Column.name, List.append_assoc]
      have hhead : ∀ u ∈ (lit " IS NULL" ++ t).head?, isLetter u = false := by
        intro u hu
        exact Option.some.inj hu ▸ rfl
      rw [hsql, readCondition_name _ hhead]
      unfold readComparison
      rw [strip_append]
      rfl

/-- Conditions with `AND` between them. -/
def joined : List Condition → Text
  | [] => []
  | [x] => x.sql
  | x :: xs => x.sql ++ lit " AND " ++ joined xs

theorem joined_cons (x y : Condition) (xs : List Condition) :
    joined (x :: y :: xs) = x.sql ++ lit " AND " ++ joined (y :: xs) := rfl

theorem joined_concat (xs : List Condition) (x : Condition) :
    joined (xs ++ [x]) = joined xs ++ (if xs = [] then [] else lit " AND ") ++ x.sql := by
  induction xs with
  | nil => rfl
  | cons y xs ih =>
      cases xs with
      | nil => simp [joined]
      | cons z xs =>
        rw [cons_append, cons_append, joined_cons, joined_cons, ← cons_append, ih,
          if_neg (cons_ne_nil z xs), if_neg (cons_ne_nil y _)]
        simp only [List.append_assoc]

/-- A list of conditions, at least one. -/
theorem readConditions_joined {x : Condition} {xs : List Condition} {fuel : Nat}
    (hfuel : (joined (x :: xs)).length < fuel) :
    readConditions fuel (joined (x :: xs)) = some ((x :: xs).map meaning) := by
  induction xs generalizing x fuel with
  | nil =>
      obtain ⟨fuel, rfl⟩ := Nat.exists_eq_add_of_le' (show 1 ≤ fuel by omega)
      have hread := readCondition_sql x (t := []) nofun
      rw [append_nil] at hread
      rw [readConditions, joined, hread]
      rfl
  | cons y xs ih =>
      obtain ⟨fuel, rfl⟩ := Nat.exists_eq_add_of_le' (show 1 ≤ fuel by omega)
      rw [joined_cons] at hfuel ⊢
      have hand : (lit " AND ").length = 5 := by decide
      rw [length_append, length_append, hand] at hfuel
      have hread : readCondition (x.sql ++ lit " AND " ++ joined (y :: xs)) =
          some (x.meaning, lit " AND " ++ joined (y :: xs)) := by
        rw [List.append_assoc]
        refine readCondition_sql x fun u hu => ?_
        exact (Option.some.inj hu).symm
      rw [readConditions, hread]
      change (if lit " AND " ++ joined (y :: xs) = [] then some [x.meaning]
        else strip (lit " AND ") (lit " AND " ++ joined (y :: xs)) >>= fun t =>
          readConditions fuel t >>= fun conditions => some (x.meaning :: conditions)) = _
      rw [if_neg nofun, strip_append]
      change (readConditions fuel (joined (y :: xs)) >>= fun conditions =>
        some (x.meaning :: conditions)) = _
      rw [ih (by omega)]
      rfl

/-- The text of a statement, and its conditions. -/
theorem readStatement_joined (xs : List Condition) :
    readStatement (if xs = [] then lit "SELECT * FROM UPSDecisions"
      else lit "SELECT * FROM UPSDecisions" ++ lit " WHERE " ++ joined xs) =
      some (xs.map meaning) := by
  cases xs with
  | nil => decide
  | cons x xs =>
      rw [if_neg (cons_ne_nil x xs), List.append_assoc]
      unfold readStatement
      rw [strip_append]
      change (if lit " WHERE " ++ joined (x :: xs) = [] then some []
        else strip (lit " WHERE ") (lit " WHERE " ++ joined (x :: xs)) >>= fun t =>
          readConditions (t.length + 1) t) = _
      rw [if_neg nofun, strip_append]
      exact readConditions_joined (lt_succ_self _)

end SqlReader

end OsSecurity

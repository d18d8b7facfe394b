/-
What is in a row after `UpdateDecisionL`.

The row that the seven keys of the filter lead to is written over by `UpdateCurrentRowL`, which
creating a decision shares.  It skips the texts that are empty: a new row has nothing there, but
a row that is updated keeps its old text.  The number of the record is never written.  So the
new record is read back exactly if it has the number of the row and is empty only where the row
was, which is `readBack_iff`.

The DBMS answers each call with an error code, as in `AttemptCalls`.
-/
import OsSecurity.Ups.PolicyChange

namespace OsSecurity

open Function List Nat

def KErrUpsMissingArgument : Int := -5709

/-- `CDecisionRecord` with all its fields.  `ValidateL` has seen the two short texts. -/
@[ext] structure DecisionRecord where
  iClientSid : UInt32
  iEvaluatorId : UInt32
  iServiceId : UInt32
  iServerSid : UInt32
  iFingerprint : Bytes
  iClientEntity : Bytes
  iDescription : Text
  iResult : UInt8
  iMajorPolicyVersion : UInt16
  iRecordId : UInt32
  iEvaluatorInfo : UInt32
  fingerprint_fits : iFingerprint.length ≤ KUpsMaxFingerprintLength
  clientEntity_fits : iClientEntity.length ≤ KUpsMaxClientEntityLength

namespace DecisionRecord

/-- What is written into a column of numbers. -/
def number (aRecord : DecisionRecord) : (c : IntegerColumn) → (Column.integer c).Cell
  | .clientSid => ⟨aRecord.iClientSid.toNat, le_of_lt_succ aRecord.iClientSid.toNat_lt⟩
  | .evaluatorId => ⟨aRecord.iEvaluatorId.toNat, le_of_lt_succ aRecord.iEvaluatorId.toNat_lt⟩
  | .serviceId => ⟨aRecord.iServiceId.toNat, le_of_lt_succ aRecord.iServiceId.toNat_lt⟩
  | .serverSid => ⟨aRecord.iServerSid.toNat, le_of_lt_succ aRecord.iServerSid.toNat_lt⟩
  | .result => ⟨aRecord.iResult.toNat, le_of_lt_succ aRecord.iResult.toNat_lt⟩
  | .majorPolicyVersion =>
      ⟨aRecord.iMajorPolicyVersion.toNat, le_of_lt_succ aRecord.iMajorPolicyVersion.toNat_lt⟩
  | .recordId => ⟨aRecord.iRecordId.toNat, le_of_lt_succ aRecord.iRecordId.toNat_lt⟩
  | .evaluatorInfo =>
      ⟨aRecord.iEvaluatorInfo.toNat, le_of_lt_succ aRecord.iEvaluatorInfo.toNat_lt⟩

theorem stores_octets {b : Bytes} {limit : Nat} (h : b.length ≤ limit) :
    (b.map UInt8.toUInt16).length ≤ limit ∧ ∀ u ∈ b.map UInt8.toUInt16, u.toNat < 256 := by
  refine ⟨by rwa [length_map], fun u hu => ?_⟩
  obtain ⟨octet, -, rfl⟩ := mem_map.mp hu
  exact octet.toNat_lt

/-- What is written into a column of text. -/
def text (aRecord : DecisionRecord) : (c : TextColumn) → (Column.text c).Cell
  | .fingerprint =>
      ⟨aRecord.iFingerprint.map UInt8.toUInt16, stores_octets aRecord.fingerprint_fits⟩
  | .clientEntity =>
      ⟨aRecord.iClientEntity.map UInt8.toUInt16, stores_octets aRecord.clientEntity_fits⟩
  | .description => ⟨aRecord.iDescription, trivial⟩

variable {a b : DecisionRecord}

theorem toUInt16_injective : Injective UInt8.toUInt16 := by
  intro x y h
  have hnat := congrArg UInt16.toNat h
  exact UInt8.toNat_inj.mp hnat

/-- The columns say everything about a record. -/
theorem ext_columns (hnumber : ∀ c, a.number c = b.number c) (htext : ∀ c, a.text c = b.text c) :
    a = b := by
  have hvalue : ∀ c, (a.number c).1 = (b.number c).1 := fun c => congrArg Subtype.val (hnumber c)
  have hunits : ∀ c, (a.text c).1 = (b.text c).1 := fun c => congrArg Subtype.val (htext c)
  have hmap := map_injective_iff.mpr toUInt16_injective
  exact DecisionRecord.ext (UInt32.toNat_inj.mp (hvalue .clientSid))
    (UInt32.toNat_inj.mp (hvalue .evaluatorId)) (UInt32.toNat_inj.mp (hvalue .serviceId))
    (UInt32.toNat_inj.mp (hvalue .serverSid)) (hmap (hunits .fingerprint))
    (hmap (hunits .clientEntity)) (hunits .description) (UInt8.toNat_inj.mp (hvalue .result))
    (UInt16.toNat_inj.mp (hvalue .majorPolicyVersion)) (UInt32.toNat_inj.mp (hvalue .recordId))
    (UInt32.toNat_inj.mp (hvalue .evaluatorInfo))

end DecisionRecord

namespace DecisionRow

def setNumber (row : DecisionRow) (aRecord : DecisionRecord) (c : IntegerColumn) : DecisionRow :=
  Function.update row (.integer c) (aRecord.number c)

/-- A text may be null: where it is empty, nothing is written. -/
def setText (row : DecisionRow) (aRecord : DecisionRecord) (c : TextColumn) : DecisionRow :=
  if (aRecord.text c).1.length ≠ 0 then Function.update row (.text c) (aRecord.text c) else row

variable {row : DecisionRow} {aRecord : DecisionRecord}

@[simp] theorem setNumber_self (c : IntegerColumn) :
    row.setNumber aRecord c (.integer c) = aRecord.number c :=
  update_self _ _ _

@[simp] theorem setNumber_of_ne {c : IntegerColumn} {d : Column} (h : d ≠ .integer c) :
    row.setNumber aRecord c d = row d :=
  update_of_ne h _ _

theorem setText_self (c : TextColumn) : row.setText aRecord c (.text c) =
    if (aRecord.text c).1 = [] then row (.text c) else aRecord.text c := by
  unfold setText
  by_cases h : (aRecord.text c).1 = []
  · simp [h]
  · have hlength : (aRecord.text c).1.length ≠ 0 := fun e => h (length_eq_zero_iff.mp e)
    rw [if_neg h, if_pos hlength]
    exact update_self _ _ _

@[simp] theorem setText_of_ne {c : TextColumn} {d : Column} (h : d ≠ .text c) :
    row.setText aRecord c d = row d := by
  unfold setText
  split
  · exact update_of_ne h _ _
  · rfl

end DecisionRow

namespace CDecisionView

/-- The record made from the columns of a row. -/
def generateRecordL (row : DecisionRow) : DecisionRecord where
  iClientSid := row.number .clientSid
  iServerSid := row.number .serverSid
  iEvaluatorId := row.number .evaluatorId
  iServiceId := row.number .serviceId
  iFingerprint := (row (.text .fingerprint)).1.map UInt16.toUInt8
  iClientEntity := (row (.text .clientEntity)).1.map UInt16.toUInt8
  iResult := (row.number .result).toUInt8
  iMajorPolicyVersion := (row.number .majorPolicyVersion).toUInt16
  iRecordId := row.number .recordId
  iEvaluatorInfo := row.number .evaluatorInfo
  iDescription := (row (.text .description)).1
  fingerprint_fits := by
    rw [length_map]
    exact (row (.text .fingerprint)).2.1
  clientEntity_fits := by
    rw [length_map]
    exact (row (.text .clientEntity)).2.1

end CDecisionView

/-- The answers of the DBMS to the calls of an update. -/
structure UpdateCalls where
  tableOpen : ErrorCode
  setIndex : ErrorCode
  seekL : ErrorCode
  getL : ErrorCode
  updateL : ErrorCode
  setColL : ErrorCode
  putL : ErrorCode

/-- `TDbSeekMultiKey`: what the columns of the index are to hold. -/
structure SeekKey where
  numbers : List (IntegerColumn × Nat)
  texts : List (TextColumn × Text)

def SeekKey.found (aSeekKey : SeekKey) (row : DecisionRow) : Bool :=
  (aSeekKey.numbers.all fun key => (row (.integer key.1)).1 = key.2) &&
    aSeekKey.texts.all fun key => (row (.text key.1)).1 = key.2

namespace CDecisionDbW

def updateCurrentRowL (aTable : DecisionRow) (aRecord : DecisionRecord) : DecisionRow :=
  let aTable := aTable.setNumber aRecord .clientSid
  let aTable := aTable.setNumber aRecord .evaluatorId
  let aTable := aTable.setNumber aRecord .serviceId
  let aTable := aTable.setNumber aRecord .serverSid
  let aTable := aTable.setText aRecord .fingerprint
  let aTable := aTable.setText aRecord .clientEntity
  let aTable := aTable.setText aRecord .description
  let aTable := aTable.setNumber aRecord .result
  let aTable := aTable.setNumber aRecord .evaluatorInfo
  aTable.setNumber aRecord .majorPolicyVersion

/-- The flags of the seven keys together. -/
def keyFlags (aFilter : CDecisionFilter) : UInt32 :=
  0x00FF &&& (aFilter.iSetFlag .clientSid ||| aFilter.iSetFlag .evaluatorId |||
    aFilter.iSetFlag .serviceId ||| aFilter.iSetFlag .serverSid |||
    aFilter.iSetFlag .fingerprint ||| aFilter.iSetFlag .clientEntity |||
    aFilter.iSetFlag .majorPolicyVersion)

def prepareForSearchL (calls : UpdateCalls) (aFilter : CDecisionFilter) : Leaving SeekKey :=
  if calls.tableOpen.1 < 0 then leave calls.tableOpen.1
  else if keyFlags aFilter &&& 0x7F ≠ 0x7F then leave KErrUpsMissingArgument
  else
    match aFilter.textValue .fingerprint, aFilter.textValue .clientEntity with
    | some fingerprint, some clientEntity =>
      if calls.setIndex.1 < 0 then leave calls.setIndex.1
      else .ok
        { numbers :=
            [(.clientSid, aFilter.iClientSid.toNat), (.evaluatorId, aFilter.iEvaluatorId.toNat),
              (.serviceId, aFilter.iServiceId.toNat), (.serverSid, aFilter.iServerSid.toNat),
              (.majorPolicyVersion, aFilter.iMajorPolicyVersion.toNat)]
          texts := [(.fingerprint, fingerprint), (.clientEntity, clientEntity)] }
    -- a null pointer is followed
    | _, _ => .error .undefined

/-- The row under the cursor is written over.  What is set on the way is in the table after
`PutL` only. -/
def updateRowL (calls : UpdateCalls) (aNewRecord : DecisionRecord) (rows : List DecisionRow)
    (i : Nat) : List DecisionRow × Leaving Bool :=
  if calls.getL.1 < 0 then (rows, leave calls.getL.1)
  else if calls.updateL.1 < 0 then (rows, leave calls.updateL.1)
  else if calls.setColL.1 < 0 then (rows, leave calls.setColL.1)
  else if calls.putL.1 < 0 then (rows, leave calls.putL.1)
  else (rows.modify i fun row => updateCurrentRowL row aNewRecord, .ok true)

def updateDecisionL (calls : UpdateCalls) (aFilter : CDecisionFilter)
    (aNewRecord : DecisionRecord) (rows : List DecisionRow) : List DecisionRow × Leaving Bool :=
  match prepareForSearchL calls aFilter with
  | .error e => (rows, .error e)
  | .ok seekKey =>
    if calls.seekL.1 < 0 then (rows, leave calls.seekL.1)
    else
      match rows.findIdx? seekKey.found with
      | some i => updateRowL calls aNewRecord rows i
      | none => (rows, .ok false)

/-! ### What is read back -/

variable (row : DecisionRow) (aRecord : DecisionRecord)

/-- All the numbers are written but that of the record. -/
theorem updateCurrentRowL_integer (c : IntegerColumn) (hc : c ≠ .recordId) :
    updateCurrentRowL row aRecord (.integer c) = aRecord.number c := by
  cases c <;> simp [updateCurrentRowL] at hc ⊢

theorem updateCurrentRowL_recordId :
    updateCurrentRowL row aRecord (.integer .recordId) = row (.integer .recordId) := by
  simp [updateCurrentRowL]

theorem updateCurrentRowL_text (c : TextColumn) : updateCurrentRowL row aRecord (.text c) =
    if (aRecord.text c).1 = [] then row (.text c) else aRecord.text c := by
  cases c <;> simp [updateCurrentRowL, DecisionRow.setText_self]

end CDecisionDbW

namespace CDecisionView

variable (row : DecisionRow)

theorem toNat_number (c : IntegerColumn) : (row.number c).toNat = (row (.integer c)).1 := by
  have hlarge := (row (.integer c)).2
  have hlargest : c.largest < 2 ^ 32 := by cases c <;> decide
  rw [DecisionRow.number, UInt32.toNat_ofNat']
  exact mod_eq_of_lt (Nat.lt_of_le_of_lt hlarge hlargest)

/-- The numbers are read as they stand. -/
theorem number_generateRecordL (c : IntegerColumn) :
    (generateRecordL row).number c = row (.integer c) := by
  have hlarge := (row (.integer c)).2
  have hvalue := toNat_number row c
  apply Subtype.ext
  rw [← hvalue] at hlarge ⊢
  cases c with
  | result => exact (UInt32.toNat_toUInt8 _).trans (mod_eq_of_lt (lt_succ_of_le hlarge))
  | majorPolicyVersion =>
      exact (UInt32.toNat_toUInt16 _).trans (mod_eq_of_lt (lt_succ_of_le hlarge))
  | _ => rfl

theorem map_octets {t : Text} (h : ∀ u ∈ t, u.toNat < 256) :
    (t.map UInt16.toUInt8).map UInt8.toUInt16 = t := by
  rw [map_map]
  refine (map_congr_left fun u hu => ?_).trans (map_id t)
  have hunit : u.toUInt8.toNat = u.toNat :=
    (UInt16.toNat_toUInt8 u).trans (mod_eq_of_lt (h u hu))
  exact UInt16.toNat_inj.mp hunit

theorem text_generateRecordL (c : TextColumn) : (generateRecordL row).text c = row (.text c) := by
  apply Subtype.ext
  cases c with
  | description => rfl
  | fingerprint => exact map_octets (row (.text .fingerprint)).2.2
  | clientEntity => exact map_octets (row (.text .clientEntity)).2.2

theorem generateRecordL_eq_iff (aRecord : DecisionRecord) : generateRecordL row = aRecord ↔
    (∀ c, row (.integer c) = aRecord.number c) ∧ ∀ c, row (.text c) = aRecord.text c := by
  constructor
  · rintro rfl
    exact ⟨fun c => (number_generateRecordL row c).symm, fun c => (text_generateRecordL row c).symm⟩
  · intro h
    refine DecisionRecord.ext_columns (fun c => ?_) fun c => ?_
    · exact (number_generateRecordL row c).trans (h.1 c)
    · exact (text_generateRecordL row c).trans (h.2 c)

end CDecisionView

namespace CDecisionDbW

/-- The record has the number of the row, and is empty only where the row is. -/
structure Overwrites (aRecord : DecisionRecord) (row : DecisionRow) : Prop where
  recordId : aRecord.iRecordId = row.number .recordId
  empty : ∀ c, (aRecord.text c).1 = [] → (row (.text c)).1 = []

theorem generateRecordL_updateCurrentRowL (row : DecisionRow) (aRecord : DecisionRecord) :
    CDecisionView.generateRecordL (updateCurrentRowL row aRecord) = aRecord ↔
      Overwrites aRecord row := by
  rw [CDecisionView.generateRecordL_eq_iff]
  have hnumber : (∀ c, updateCurrentRowL row aRecord (.integer c) = aRecord.number c) ↔
      aRecord.iRecordId = row.number .recordId := by
    constructor
    · intro h
      have hid := congrArg Subtype.val (h .recordId)
      rw [updateCurrentRowL_recordId, ← CDecisionView.toNat_number] at hid
      exact (UInt32.toNat_inj.mp hid).symm
    · intro h c
      by_cases hc : c = .recordId
      · subst hc
        rw [updateCurrentRowL_recordId]
        apply Subtype.ext
        rw [← CDecisionView.toNat_number, ← h]
        rfl
      · exact updateCurrentRowL_integer row aRecord c hc
  have htext : (∀ c, updateCurrentRowL row aRecord (.text c) = aRecord.text c) ↔
      ∀ c, (aRecord.text c).1 = [] → (row (.text c)).1 = [] := by
    refine forall_congr' fun c => ?_
    rw [updateCurrentRowL_text]
    by_cases hempty : (aRecord.text c).1 = []
    · rw [if_pos hempty, imp_iff_right hempty]
      constructor
      · intro h
        exact (congrArg Subtype.val h).trans hempty
      · intro h
        exact Subtype.ext (h.trans hempty.symm)
    · rw [if_neg hempty]
      exact iff_of_true rfl fun h => absurd h hempty
  rw [hnumber, htext]
  exact ⟨fun h => ⟨h.1, h.2⟩, fun h => ⟨h.recordId, h.empty⟩⟩

/-! ### The update -/

variable {calls : UpdateCalls} {aFilter : CDecisionFilter} {aNewRecord : DecisionRecord}
  {rows rows' : List DecisionRow}

theorem updateRowL_true {i : Nat} (h : updateRowL calls aNewRecord rows i = (rows', .ok true)) :
    rows' = rows.modify i fun row => updateCurrentRowL row aNewRecord := by
  unfold updateRowL at h
  split at h
  · cases h
  · split at h
    · cases h
    · split at h
      · cases h
      · split at h
        · cases h
        · cases h
          rfl

theorem findIdx_split {p : DecisionRow → Bool} {i : Nat} (h : rows.findIdx? p = some i)
    (f : DecisionRow → DecisionRow) : ∃ before row after, rows = before ++ row :: after ∧
      p row = true ∧ (∀ other ∈ before, p other = false) ∧
      rows.modify i f = before ++ f row :: after := by
  obtain ⟨hi, hrow, hfirst⟩ := findIdx?_eq_some_iff_getElem.mp h
  refine ⟨rows.take i, rows[i], rows.drop (i + 1), ?_, hrow, ?_, ?_⟩
  · rw [getElem_cons_drop, take_append_drop]
  · intro other hother
    obtain ⟨j, hj, rfl⟩ := mem_take_iff_getElem.mp hother
    exact Bool.eq_false_iff.mpr (hfirst j (Nat.lt_of_lt_of_le hj (Nat.min_le_left _ _)))
  · exact modify_eq_take_cons_drop hi

/-- An update that says that it found a row has written over the first row of the key. -/
theorem updateDecisionL_true
    (h : updateDecisionL calls aFilter aNewRecord rows = (rows', .ok true)) :
    ∃ seekKey before row after, prepareForSearchL calls aFilter = .ok seekKey ∧
      rows = before ++ row :: after ∧ seekKey.found row = true ∧
      (∀ other ∈ before, seekKey.found other = false) ∧
      rows' = before ++ updateCurrentRowL row aNewRecord :: after := by
  unfold updateDecisionL at h
  cases hkey : prepareForSearchL calls aFilter with
  | error e =>
      rw [hkey] at h
      cases h
  | ok seekKey =>
      simp only [hkey] at h
      split at h
      · cases h
      · cases hfound : rows.findIdx? seekKey.found with
        | none =>
          rw [hfound] at h
          cases h
        | some i =>
          rw [hfound] at h
          obtain rfl := updateRowL_true h
          obtain ⟨before, row, after, hrows⟩ :=
            findIdx_split hfound fun row => updateCurrentRowL row aNewRecord
          exact ⟨seekKey, before, row, after, rfl, hrows⟩

/-- **The new record is read back** from the row that the key leads to exactly where it has the
number of the row and is empty only where the row was. -/
theorem updateDecisionL_readBack
    (h : updateDecisionL calls aFilter aNewRecord rows = (rows', .ok true)) :
    ∃ seekKey before row after updated, prepareForSearchL calls aFilter = .ok seekKey ∧
      rows = before ++ row :: after ∧ seekKey.found row = true ∧
      (∀ other ∈ before, seekKey.found other = false) ∧
      rows' = before ++ updated :: after ∧
      (CDecisionView.generateRecordL updated = aNewRecord ↔ Overwrites aNewRecord row) := by
  obtain ⟨seekKey, before, row, after, hkey, hrows, hfound, hfirst, hrows'⟩ :=
    updateDecisionL_true h
  exact ⟨seekKey, before, row, after, updateCurrentRowL row aNewRecord, hkey, hrows, hfound,
    hfirst, hrows', generateRecordL_updateCurrentRowL row aNewRecord⟩

/-! ### A description that is taken back -/

/-- The key of a record of zeros. -/
def zeroKey : CDecisionFilter :=
  { CDecisionFilter.newL with
    iFingerprint := some []
    iClientEntity := some []
    iSetFlag := CDecisionFilter.newFlags }

/-- Zeros, with a description. -/
def zeroRecord (aDescription : Text) : DecisionRecord :=
  ⟨0, 0, 0, 0, [], [], aDescription, 0, 0, 0, 0, Nat.zero_le _, Nat.zero_le _⟩

def noUpdateFailure : UpdateCalls :=
  ⟨.none, .none, .none, .none, .none, .none, .none⟩

theorem updateDecisionL_zeroRow (aDescription : Text) :
    updateDecisionL noUpdateFailure zeroKey (zeroRecord aDescription) [zeroRow] =
      ([updateCurrentRowL zeroRow (zeroRecord aDescription)], .ok true) := rfl

/-- A description in a row that had none. -/
theorem updateDecisionL_readBack_zeroRow :
    ∃ seekKey before row after updated,
      prepareForSearchL noUpdateFailure zeroKey = .ok seekKey ∧
      [zeroRow] = before ++ row :: after ∧ seekKey.found row = true ∧
      (∀ other ∈ before, seekKey.found other = false) ∧
      [updateCurrentRowL zeroRow (zeroRecord (lit "sms"))] = before ++ updated :: after ∧
      (CDecisionView.generateRecordL updated = zeroRecord (lit "sms") ↔
        Overwrites (zeroRecord (lit "sms")) row) :=
  updateDecisionL_readBack (updateDecisionL_zeroRow (lit "sms"))

/-- An empty description leaves the old one in the row. -/
theorem updateDecisionL_keeps_description :
    ∃ old updated : DecisionRow,
      updateDecisionL noUpdateFailure zeroKey (zeroRecord []) [old] = ([updated], .ok true) ∧
      (zeroRecord []).iRecordId = old.number .recordId ∧
      (CDecisionView.generateRecordL updated).iDescription = lit "sms" ∧
      CDecisionView.generateRecordL updated ≠ zeroRecord [] := by
  refine ⟨updateCurrentRowL zeroRow (zeroRecord (lit "sms")),
    updateCurrentRowL (updateCurrentRowL zeroRow (zeroRecord (lit "sms"))) (zeroRecord []),
    rfl, rfl, rfl, fun h => ?_⟩
  have hdescription := congrArg DecisionRecord.iDescription h
  exact absurd hdescription (by decide)

end CDecisionDbW

end OsSecurity

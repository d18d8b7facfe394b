/-
Which decisions are left after a change of the policy files.

Every entry removes the decisions about its server and service that are not `Current`, and
every decision has an entry, whatever way the entries compare.  So the decisions that are left
are those with a policy file of their version.  The one exception is the server 0, which the
loop takes for a server it has fetched the configuration of.
-/
import OsSecurity.Ups.FilterSurvives
import OsSecurity.Ups.PolicyChange

namespace OsSecurity

open CDecisionDbW List SqlStatement

/-- The version in the record. -/
def DecisionRow.version (row : DecisionRow) : UInt16 := (row.number .majorPolicyVersion).toUInt16

/-- There is a policy file for the server and the service, of the version of the decision. -/
def DecisionRow.Current (drives : PolicyDrives) (row : DecisionRow) : Prop :=
  (drives.inForce ⟨row.number .serverSid, row.number .serviceId⟩).map
    TPolicyHeader.iMajorVersion = some row.version

instance (drives : PolicyDrives) (row : DecisionRow) : Decidable (row.Current drives) :=
  inferInstanceAs (Decidable (_ = _))

namespace CDecisionFilter

open CDecisionDb

/-! ### The filter of an entry -/

variable {S : TextComparison} {serverSid serviceId : UInt32} {version : UInt16}

/-- The decisions about a service. -/
def service (serverSid serviceId : UInt32) : CDecisionFilter :=
  (newL.setServerSid serverSid .equal).setServiceId serviceId .equal

/-- Those of them that are not of the version. -/
def outdated (serverSid serviceId : UInt32) (version : UInt16) : CDecisionFilter :=
  (service serverSid serviceId).setMajorPolicyVersion version .notEqual

theorem length_integer_sql (c : IntegerColumn) (op : TComparisonOp) (v : UInt32) {n : Nat}
    (hn : 0 < n) (hv : v.toNat < 10 ^ n) :
    (Condition.integer c op v).sql.length ≤ c.name.toList.length + op.sql.toList.length + n := by
  have hle := (Nat.length_toDigits_le_iff (b := 10) (by decide) hn).mpr hv
  unfold Condition.sql
  simp only [length_append, length_lit, String.toList_ofList]
  omega

theorem lt_ten_pow (v : UInt32) : v.toNat < 10 ^ 10 := by
  refine Nat.lt_of_lt_of_le v.toNat_lt ?_
  decide

theorem foldl_query_of_unset {f : CDecisionFilter} {cs : List Column}
    (h : ∀ c ∈ cs, ¬f.isSet c.key) (aSql : SqlStatement) : cs.foldl f.query aSql = aSql := by
  induction cs with
  | nil => rfl
  | cons c cs ih =>
      have hquery : f.query aSql c = aSql := by
        unfold query
        rw [condition_none (h c mem_cons_self)]
      rw [foldl_cons, hquery]
      exact ih fun d hd => h d (mem_cons_of_mem c hd)

theorem query_integer {f : CDecisionFilter} {c : IntegerColumn} {op : TComparisonOp}
    (h : f.isSet c.key) (hop : getComparisonOperator (f.iSetFlag c.key) = op)
    (aSql : SqlStatement) :
    f.query aSql (.integer c) = aSql.add (.integer c op (f.integerValue c)) := by
  unfold query
  rw [condition_integer h, hop]

/-! The flags do not depend on the ids, so the facts about them are closed. -/

theorem isSet_service (c : Column) : (service serverSid serviceId).isSet c.key ↔
    c ∈ [Column.integer .serverSid, .integer .serviceId] := by
  have hclosed : (service 0 0).isSet c.key ↔
      c ∈ [Column.integer .serverSid, .integer .serviceId] := by
    cases c with
    | integer c => cases c <;> decide
    | text c => cases c <;> decide
  exact hclosed

theorem isSet_outdated (c : Column) : (outdated serverSid serviceId version).isSet c.key ↔
    c ∈ [Column.integer .serverSid, .integer .serviceId, .integer .majorPolicyVersion] := by
  have hclosed : (outdated 0 0 0).isSet c.key ↔
      c ∈ [Column.integer .serverSid, .integer .serviceId, .integer .majorPolicyVersion] := by
    cases c with
    | integer c => cases c <;> decide
    | text c => cases c <;> decide
  exact hclosed

theorem operator_service {key : FilterKey} (h : key = .serverSid ∨ key = .serviceId) :
    getComparisonOperator ((service serverSid serviceId).iSetFlag key) = .equal := by
  have hclosed : getComparisonOperator ((service 0 0).iSetFlag key) = .equal := by
    rcases h with rfl | rfl <;> decide
  exact hclosed

theorem operator_outdated {key : FilterKey} (h : key = .serverSid ∨ key = .serviceId) :
    getComparisonOperator ((outdated serverSid serviceId version).iSetFlag key) = .equal := by
  have hclosed : getComparisonOperator ((outdated 0 0 0).iSetFlag key) = .equal := by
    rcases h with rfl | rfl <;> decide
  exact hclosed

theorem operator_version : getComparisonOperator
    ((outdated serverSid serviceId version).iSetFlag .majorPolicyVersion) = .notEqual := by
  have hclosed : getComparisonOperator ((outdated 0 0 0).iSetFlag .majorPolicyVersion) =
      .notEqual := by decide
  exact hclosed

theorem maxLen_service (serverSid serviceId : UInt32) :
    maxLen (service serverSid serviceId) = 85 := by
  have hclosed : maxLen (service 0 0) = 85 := by
    have hint : (combinedFlags (service 0 0) &&& 0x000006CF).toUInt16 = 0xC := by decide
    have hstring : (combinedFlags (service 0 0) &&& 0x00000130).toUInt16 = 0 := by decide
    unfold maxLen
    rw [hint, hstring, addLengths, if_pos rfl, addLengths, if_neg (by decide), addLengths,
      if_neg (by decide), addLengths, if_pos (by decide)]
    rfl
  exact hclosed

theorem maxLen_outdated (serverSid serviceId : UInt32) (version : UInt16) :
    maxLen (outdated serverSid serviceId version) = 111 := by
  have hclosed : maxLen (outdated 0 0 0) = 111 := by
    have hint : (combinedFlags (outdated 0 0 0) &&& 0x000006CF).toUInt16 = 0x4C := by decide
    have hstring : (combinedFlags (outdated 0 0 0) &&& 0x00000130).toUInt16 = 0 := by decide
    unfold maxLen
    rw [hint, hstring, addLengths, if_pos rfl, addLengths, if_neg (by decide), addLengths,
      if_neg (by decide), addLengths, if_neg (by decide), addLengths, if_pos (by decide)]
    rfl
  exact hclosed

theorem statement_service : (service serverSid serviceId).statement =
    (baseWhere.add (.integer .serverSid .equal serverSid)).add
      (.integer .serviceId .equal serviceId) := by
  have hsplit : columns =
      [Column.integer .serverSid, Column.integer .serviceId] ++ columns.drop 2 := rfl
  have hrest : ∀ c ∈ columns.drop 2, ¬(service serverSid serviceId).isSet c.key := by
    intro c hc
    rw [isSet_service]
    revert c
    decide
  unfold statement
  rw [hsplit, foldl_append, foldl_query_of_unset hrest, foldl_cons, foldl_cons, foldl_nil,
    @query_integer (service serverSid serviceId) .serviceId _
      ((@isSet_service serverSid serviceId (.integer .serviceId)).mpr (by decide))
      (operator_service (Or.inr rfl)), @query_integer (service serverSid serviceId) .serverSid _
      ((@isSet_service serverSid serviceId (.integer .serverSid)).mpr (by decide))
      (operator_service (Or.inl rfl))]
  rfl

theorem statement_outdated : (outdated serverSid serviceId version).statement =
    ((baseWhere.add (.integer .serverSid .equal serverSid)).add
      (.integer .serviceId .equal serviceId)).add
        (.integer .majorPolicyVersion .notEqual version.toUInt32) := by
  have hsplit : columns = [Column.integer .serverSid, Column.integer .serviceId] ++
      ([Column.integer .clientSid, Column.integer .evaluatorId] ++
        ([Column.integer .majorPolicyVersion] ++ columns.drop 5)) := rfl
  have hmiddle : ∀ c ∈ [Column.integer .clientSid, .integer .evaluatorId],
      ¬(outdated serverSid serviceId version).isSet c.key := by
    intro c hc
    rw [isSet_outdated]
    revert c
    decide
  have hrest : ∀ c ∈ columns.drop 5, ¬(outdated serverSid serviceId version).isSet c.key := by
    intro c hc
    rw [isSet_outdated]
    revert c
    decide
  unfold statement
  rw [hsplit, foldl_append, foldl_append, foldl_append, foldl_query_of_unset hrest,
    foldl_query_of_unset hmiddle]
  simp only [foldl_cons, foldl_nil]
  rw [@query_integer (outdated serverSid serviceId version) .majorPolicyVersion _
      ((@isSet_outdated serverSid serviceId version (.integer .majorPolicyVersion)).mpr (by decide))
      operator_version, @query_integer (outdated serverSid serviceId version) .serviceId _
      ((@isSet_outdated serverSid serviceId version (.integer .serviceId)).mpr (by decide))
      (operator_outdated (Or.inr rfl)),
    @query_integer (outdated serverSid serviceId version) .serverSid _
      ((@isSet_outdated serverSid serviceId version (.integer .serverSid)).mpr (by decide))
      (operator_outdated (Or.inl rfl))]
  rfl

theorem length_add_le (aSql : SqlStatement) (c : Condition) :
    (aSql.add c).text.length ≤ aSql.text.length + 5 + c.sql.length := by
  have hand : (lit " AND ").length = 5 := by decide
  unfold SqlStatement.add
  simp only [length_append]
  split
  · simp only [length_nil]
    omega
  · omega

theorem length_statement_service (serverSid serviceId : UInt32) :
    (service serverSid serviceId).statement.text.length ≤ 78 := by
  have hbase : baseWhere.text.length = 33 := by decide
  have hfirst : (baseWhere.add (.integer .serverSid .equal serverSid)).text.length =
      baseWhere.text.length +
        (Condition.integer .serverSid .equal serverSid).sql.length := by
    simp [SqlStatement.add, baseWhere]
    omega
  have hsecond := length_add_le (baseWhere.add (.integer .serverSid .equal serverSid))
    (.integer .serviceId .equal serviceId)
  have hserver := length_integer_sql .serverSid .equal serverSid (by decide) (lt_ten_pow serverSid)
  have hservice := length_integer_sql .serviceId .equal serviceId (by decide)
    (lt_ten_pow serviceId)
  have hname : IntegerColumn.serverSid.name.toList.length + TComparisonOp.equal.sql.toList.length =
      10 := by decide
  have hname' : IntegerColumn.serviceId.name.toList.length + TComparisonOp.equal.sql.toList.length =
      10 := by decide
  rw [statement_service]
  omega

theorem service_fits : (service serverSid serviceId).StatementFits := by
  have hlength := length_statement_service serverSid serviceId
  unfold StatementFits
  rw [maxLen_service]
  omega

theorem outdated_fits : (outdated serverSid serviceId version).StatementFits := by
  have hservice := length_statement_service serverSid serviceId
  have hthird := length_add_le (service serverSid serviceId).statement
    (.integer .majorPolicyVersion .notEqual version.toUInt32)
  have hlt : version.toUInt32.toNat < 10 ^ 5 := by
    have hword := version.toNat_lt
    rw [UInt16.toNat_toUInt32]
    omega
  have hversion := length_integer_sql .majorPolicyVersion .notEqual version.toUInt32 (by decide) hlt
  have hname : IntegerColumn.majorPolicyVersion.name.toList.length +
      TComparisonOp.notEqual.sql.toList.length = 20 := by decide
  unfold StatementFits
  rw [statement_outdated, ← statement_service, maxLen_outdated]
  omega

/-! ### The decisions that match -/

theorem number_eq {row : DecisionRow} {c : IntegerColumn} {v : UInt32} :
    row.number c = v ↔ (row (.integer c)).1 = v.toNat := by
  have hlarge : c.largest < 2 ^ 32 := by cases c <;> decide
  have hcell : (row (.integer c)).1 < 2 ^ 32 := Nat.lt_of_le_of_lt (row (.integer c)).2 hlarge
  unfold DecisionRow.number
  constructor
  · rintro rfl
    exact (UInt32.toNat_ofNat_of_lt' hcell).symm
  · intro h
    rw [h, UInt32.ofNat_toNat]

theorem version_eq {row : DecisionRow} {version : UInt16} :
    row.version = version ↔ (row (.integer .majorPolicyVersion)).1 = version.toUInt32.toNat := by
  rw [← number_eq]
  have hcell : (row.number .majorPolicyVersion).toNat < 65536 := by
    have hle := (row (.integer .majorPolicyVersion)).2
    have hnumber := number_eq.mp (Eq.refl (row.number .majorPolicyVersion))
    have hlarge : IntegerColumn.majorPolicyVersion.largest = 65535 := rfl
    omega
  unfold DecisionRow.version
  constructor
  · rintro rfl
    apply UInt32.toNat_inj.mp
    rw [UInt16.toNat_toUInt32, UInt32.toNat_toUInt16]
    omega
  · intro h
    rw [h, UInt16.toUInt16_toUInt32]

theorem accepts_integer {f : CDecisionFilter} {c : IntegerColumn} {op : TComparisonOp}
    (hset : f.isSet c.key) (hop : getComparisonOperator (f.iSetFlag c.key) = op)
    (cell : (Column.integer c).Cell) : f.accepts S (.integer c) cell ↔
      op.compare cell.1 (f.integerValue c).toNat = true := by
  subst hop
  exact imp_iff_right hset

/-- Only the columns that are set have a say. -/
theorem matches_iff {f : CDecisionFilter} {row : DecisionRow} {cs : List Column}
    (hset : ∀ c : Column, f.isSet c.key ↔ c ∈ cs) :
    f.Matches S row ↔ ∀ c ∈ cs, f.accepts S c (row c) := by
  constructor
  · intro h c _
    exact h c
  · intro h c
    by_cases hc : c ∈ cs
    · exact h c hc
    · exact accepts_of_unset (fun hisSet => hc ((hset c).mp hisSet)) (row c)

theorem matches_service {row : DecisionRow} : (service serverSid serviceId).Matches S row ↔
    row.number .serverSid = serverSid ∧ row.number .serviceId = serviceId := by
  rw [matches_iff isSet_service, forall_mem_cons, forall_mem_singleton,
    @accepts_integer S (service serverSid serviceId) .serverSid _
      ((@isSet_service serverSid serviceId (.integer .serverSid)).mpr (by decide))
      (operator_service (Or.inl rfl)), @accepts_integer S (service serverSid serviceId) .serviceId _
      ((@isSet_service serverSid serviceId (.integer .serviceId)).mpr (by decide))
      (operator_service (Or.inr rfl)), number_eq, number_eq]
  simp only [TComparisonOp.compare, decide_eq_true_iff]
  rfl

theorem matches_outdated {row : DecisionRow} :
    (outdated serverSid serviceId version).Matches S row ↔
      row.number .serverSid = serverSid ∧ row.number .serviceId = serviceId ∧
        row.version ≠ version := by
  rw [matches_iff isSet_outdated, forall_mem_cons, forall_mem_cons, forall_mem_singleton,
    @accepts_integer S (outdated serverSid serviceId version) .serverSid _
      ((@isSet_outdated serverSid serviceId version (.integer .serverSid)).mpr (by decide))
      (operator_outdated (Or.inl rfl)),
    @accepts_integer S (outdated serverSid serviceId version) .serviceId _
      ((@isSet_outdated serverSid serviceId version (.integer .serviceId)).mpr (by decide))
      (operator_outdated (Or.inr rfl)),
    @accepts_integer S (outdated serverSid serviceId version) .majorPolicyVersion _
      ((@isSet_outdated serverSid serviceId version (.integer .majorPolicyVersion)).mpr (by decide))
      operator_version, number_eq, number_eq, Ne, version_eq]
  simp only [TComparisonOp.compare, decide_eq_true_iff]
  rfl

end CDecisionFilter

namespace CPolicyChangeEvaluator

open CDecisionDb CDecisionFilter

variable {S : TextComparison} {drives : PolicyDrives}

/-! ### The table -/

theorem eq_zero_of_wrap {x : Int} (h : TInt.wrap x = 0) (hlo : -4294967296 < x)
    (hhi : x < 4294967296) : x = 0 := by
  have hdvd : (4294967296 : Int) ∣ x := Int.dvd_of_bmod_eq_zero h
  omega

/-- Zero means equal, whatever the signs of the differences. -/
theorem orderServerServicePolicyVersion_zero (a b : TServerServicePolicyVersion)
    (h : orderServerServicePolicyVersion a b = 0) : a = b := by
  unfold orderServerServicePolicyVersion at h
  have hserver := a.iServerId.toNat_lt
  have hserver' := b.iServerId.toNat_lt
  have hservice := a.iServiceId.toInt_lt
  have hservice' := b.iServiceId.toInt_lt
  have hle := a.iServiceId.le_toInt
  have hle' := b.iServiceId.le_toInt
  by_cases hfirst : TInt.wrap (a.iServerId.toNat - b.iServerId.toNat) ≠ 0
  · simp only [if_pos hfirst] at h
    exact absurd h hfirst
  by_cases hsecond : TInt.wrap (a.iServiceId.toInt - b.iServiceId.toInt) ≠ 0
  · simp only [if_neg hfirst, if_pos hsecond] at h
    exact absurd h hsecond
  simp only [if_neg hfirst, if_neg hsecond] at h
  have heq := eq_zero_of_wrap (not_not.mp hfirst) (by omega) (by omega)
  have heq' := eq_zero_of_wrap (not_not.mp hsecond) (by omega) (by omega)
  obtain ⟨aServer, aService, aVersion⟩ := a
  obtain ⟨bServer, bService, bVersion⟩ := b
  simp only at h heq heq'
  congr
  · exact UInt32.toNat_inj.mp (by omega)
  · exact Int32.toInt_inj.mp (by omega)
  · exact UInt16.toNat_inj.mp (by omega)

/-- Every decision has its entry. -/
theorem entry_mem (view : List DecisionRow) {row : DecisionRow} (h : row ∈ view) :
    entry row ∈ buildServerServicePolicyVersionTable view := by
  unfold buildServerServicePolicyVersionTable
  rw [OrderedInsertion.mem_foldl_insertInOrder orderServerServicePolicyVersion_zero]
  exact Or.inl (mem_map_of_mem h)

/-! ### One entry -/

/-- The entry is one for the decision's server and service. -/
def About (sspv : TServerServicePolicyVersion) (row : DecisionRow) : Prop :=
  row.number .serverSid = sspv.iServerId ∧ row.number .serviceId = sspv.iServiceId.toUInt32

instance (sspv : TServerServicePolicyVersion) (row : DecisionRow) : Decidable (About sspv row) :=
  inferInstanceAs (Decidable (row.number .serverSid = sspv.iServerId ∧
    row.number .serviceId = sspv.iServiceId.toUInt32))

theorem about_entry (row : DecisionRow) : About (entry row) row := ⟨rfl, rfl⟩

/-- The configuration is that of the server, unless the server is 0. -/
def Configured (s : Progress drives) : Prop :=
  s.serverSid ≠ 0 → ∀ service,
    (s.serviceConfigArray.find? fun c => c.iServiceId = service).map TServiceConfig.iMajorVersion =
      (drives.inForce ⟨s.serverSid, service⟩).map TPolicyHeader.iMajorVersion

theorem configureL_ok {s t : Progress drives} {server : UInt32} (hs : Configured s)
    (h : configureL s server = .ok t) : t.db = s.db ∧ t.serverSid = server ∧ Configured t := by
  unfold configureL at h
  split at h
  next hne =>
    obtain ⟨⟨cache, configs⟩, hconfig, ht⟩ := bind_eq_ok.mp h
    cases ht
    exact ⟨rfl, rfl, fun _ service => CPolicyCache.serviceConfigL_find hconfig service⟩
  next heq =>
    cases h
    exact ⟨rfl, not_not.mp heq, hs⟩

theorem unneeded_ok (configs : List TServiceConfig) (serverSid serviceId : UInt32) :
    ¬(unneeded configs serverSid serviceId).Crashes ∧
      (unneeded configs serverSid serviceId).StatementFits := by
  unfold unneeded
  cases configs.find? fun c => c.iServiceId = serviceId with
  | none =>
      refine ⟨fun h => ?_, service_fits⟩
      exact absurd ((isSet_service (.text .description)).mp h.2) (by decide)
  | some c =>
      refine ⟨fun h => ?_, outdated_fits⟩
      exact absurd ((isSet_outdated (.text .description)).mp h.2) (by decide)

theorem matches_unneeded_server {configs : List TServiceConfig} {serverSid serviceId : UInt32}
    {row : DecisionRow} (h : (unneeded configs serverSid serviceId).Matches S row) :
    row.number .serverSid = serverSid ∧ row.number .serviceId = serviceId := by
  unfold unneeded at h
  cases hfind : configs.find? fun c => c.iServiceId = serviceId with
  | none =>
      rw [hfind] at h
      exact matches_service.mp h
  | some c =>
      rw [hfind] at h
      have hmatches := matches_outdated.mp h
      exact ⟨hmatches.1, hmatches.2.1⟩

/-- With the right configuration, the filter selects the decisions that are not current. -/
theorem matches_unneeded {s : Progress drives} (hs : Configured s)
    {sspv : TServerServicePolicyVersion} (hserver : s.serverSid = sspv.iServerId)
    (hne : sspv.iServerId ≠ 0) {row : DecisionRow} :
    (unneeded s.serviceConfigArray s.serverSid sspv.iServiceId.toUInt32).Matches S row ↔
      About sspv row ∧ ¬row.Current drives := by
  have hconfig := hs (by rw [hserver]; exact hne) sspv.iServiceId.toUInt32
  unfold unneeded About DecisionRow.Current
  cases hfind : s.serviceConfigArray.find? fun c => c.iServiceId = sspv.iServiceId.toUInt32 with
  | none =>
      rw [hfind, Option.map_none] at hconfig
      rw [hserver]
      refine (@matches_service S sspv.iServerId sspv.iServiceId.toUInt32 row).trans ?_
      constructor
      · rintro ⟨hsid, hservice⟩
        rw [hsid, hservice, ← hserver, ← hconfig]
        exact ⟨⟨rfl, rfl⟩, by simp⟩
      · exact fun h => h.1
  | some c =>
      rw [hfind, Option.map_some] at hconfig
      rw [hserver]
      refine (@matches_outdated S sspv.iServerId sspv.iServiceId.toUInt32 c.iMajorVersion row).trans
        ?_
      constructor
      · rintro ⟨hsid, hservice, hversion⟩
        rw [hsid, hservice, ← hserver, ← hconfig]
        refine ⟨⟨rfl, rfl⟩, fun heq => hversion ?_⟩
        exact (Option.some.inj heq).symm
      · rintro ⟨⟨hsid, hservice⟩, hnot⟩
        refine ⟨hsid, hservice, fun hversion => hnot ?_⟩
        rw [hsid, hservice, ← hserver, ← hconfig, hversion]

/-! ### The loop -/

theorem removeUnneeded_ok {calls : Nat → AttemptCalls} (hcalls : Succeeds (calls 2))
    (recoveries : Nat → Recovery) (sspv : TServerServicePolicyVersion) {s : Progress drives}
    {rows : List DecisionRow} (hdb : s.db = ⟨rows, none⟩) :
    removeUnneeded S calls recoveries sspv s = .ok { s with
      db := ⟨rows.filter fun row => ¬(unneeded s.serviceConfigArray s.serverSid
        sspv.iServiceId.toUInt32).Matches S row, none⟩ } := by
  obtain ⟨hcrash, hfits⟩ := unneeded_ok s.serviceConfigArray s.serverSid sspv.iServiceId.toUInt32
  unfold removeUnneeded
  rw [hdb]
  simp only [removeDecisionsL_succeeds hcalls recoveries hcrash hfits rows]
  rfl

/-- The decisions of servers other than 0. -/
def ordinary (rows : List DecisionRow) : List DecisionRow :=
  rows.filter fun row => row.number .serverSid ≠ 0

/-- What one entry leaves of them. -/
theorem ordinary_filter {s : Progress drives} (hs : Configured s)
    {sspv : TServerServicePolicyVersion} (hserver : s.serverSid = sspv.iServerId)
    (rows : List DecisionRow) :
    ordinary (rows.filter fun row => ¬(unneeded s.serviceConfigArray s.serverSid
        sspv.iServiceId.toUInt32).Matches S row) =
      (ordinary rows).filter fun row => About sspv row → row.Current drives := by
  unfold ordinary
  rw [filter_filter, filter_filter]
  refine filter_congr fun row _ => ?_
  rw [Bool.eq_iff_iff]
  simp only [Bool.and_eq_true, decide_eq_true_iff]
  by_cases hne : sspv.iServerId ≠ 0
  · rw [matches_unneeded hs hserver hne]
    constructor
    · rintro ⟨hrow, hkept⟩
      exact ⟨fun habout => not_not.mp fun hnot => hkept ⟨habout, hnot⟩, hrow⟩
    · rintro ⟨hcurrent, hrow⟩
      exact ⟨hrow, fun h => h.2 (hcurrent h.1)⟩
  · have hzero : sspv.iServerId = 0 := not_not.mp hne
    constructor
    · rintro ⟨hrow, -⟩
      refine ⟨fun habout => ?_, hrow⟩
      exact absurd (habout.1.trans hzero) hrow
    · rintro ⟨-, hrow⟩
      refine ⟨hrow, fun hmatches => ?_⟩
      exact hrow ((matches_unneeded_server hmatches).1.trans (hserver.trans hzero))

theorem deleteEntriesL_ok {calls : Nat → Nat → AttemptCalls}
    (hcalls : ∀ i, Succeeds (calls i 2)) {recoveries : Nat → Nat → Recovery} {i : Nat}
    {entries : List TServerServicePolicyVersion} {s t : Progress drives} {rows : List DecisionRow}
    (hs : Configured s) (hdb : s.db = ⟨rows, none⟩)
    (h : deleteEntriesL S calls recoveries i entries s = .ok t) :
    ordinary t.db.rows = (ordinary rows).filter fun row =>
      ∀ sspv ∈ entries, About sspv row → row.Current drives := by
  induction entries generalizing i s rows with
  | nil =>
      cases h
      rw [hdb]
      simp
  | cons sspv entries ih =>
      obtain ⟨u, hconfig, hrest⟩ := bind_eq_ok.mp h
      obtain ⟨hsame, hserver, hu⟩ := configureL_ok hs hconfig
      rw [removeUnneeded_ok (hcalls i) (recoveries i) sspv (hsame.trans hdb), ok_bind] at hrest
      have hnext : Configured { u with
          db := ⟨rows.filter fun row => ¬(unneeded u.serviceConfigArray u.serverSid
            sspv.iServiceId.toUInt32).Matches S row, none⟩ } := hu
      rw [ih hnext rfl hrest, ordinary_filter hu hserver, filter_filter]
      refine filter_congr fun row _ => ?_
      rw [Bool.eq_iff_iff]
      simp only [Bool.and_eq_true, decide_eq_true_iff, forall_mem_cons]
      exact and_comm

/-- The empty filter has the statement for all decisions. -/
theorem createSqlStatementLC_newL : createSqlStatementLC .newL = .ok base :=
  if_pos maxLen_newL

/-- **The clean-up is exact.**  When the scan has come to its end, the decisions that are left
are those with a policy file of their version, but for the decisions of the server 0. -/
theorem scanDatabaseL_exact (S : TextComparison) {drives : PolicyDrives}
    {calls : Nat → Nat → AttemptCalls} (recoveries : Nat → Nat → Recovery) (property : ErrorCode)
    (iPolicyCache : CPolicyCache drives) (rows : List DecisionRow) {db : DecisionTable}
    (hcalls : ∀ i n, CDecisionDbW.Succeeds (calls i n))
    (h : scanDatabaseL S calls recoveries property iPolicyCache ⟨rows, none⟩ = .ok db) :
    ordinary db.rows = (ordinary rows).filter fun row => row.Current drives := by
  unfold scanDatabaseL at h
  rw [createSqlStatementLC_newL, ok_bind] at h
  obtain ⟨-, -, hdelete⟩ := bind_eq_ok.mp h
  have hview : SqlStatement.base.select S rows = rows := by
    unfold SqlStatement.select
    exact filter_eq_self.mpr fun row _ => rfl
  simp only [hview] at hdelete
  unfold deleteUnneededEntriesL at hdelete
  split at hdelete
  next hempty =>
    cases hdelete
    cases rows with
    | nil => rfl
    | cons row rows =>
      have hmem := entry_mem (row :: rows) mem_cons_self
      rw [length_eq_zero_iff.mp hempty] at hmem
      cases hmem
  next =>
    obtain ⟨t, hentries, ht⟩ := bind_eq_ok.mp hdelete
    cases ht
    have hstart : Configured (⟨iPolicyCache, 0, [], ⟨rows, none⟩⟩ : Progress drives) :=
      fun hne => absurd rfl hne
    rw [deleteEntriesL_ok (fun i => hcalls i 2) hstart rfl hentries]
    refine filter_congr fun row hrow => ?_
    rw [decide_eq_decide]
    constructor
    · exact fun hall => hall (entry row) (entry_mem rows (mem_filter.mp hrow).1)
        (about_entry row)
    · exact fun hcurrent _ _ _ => hcurrent

/-- A record of zeros but for the server and the service. -/
def serviceRow (server service : { n : Nat // n ≤ 0xffffffff }) : DecisionRow
  | .integer .serverSid => server
  | .integer .serviceId => service
  | c => c.empty

/-- One policy file, in ROM. -/
def oneFile (server service : UInt32) (version : UInt16) : PolicyDrives where
  zDrive := [⟨⟨server, service⟩, .ok ⟨version, 0, 0⟩⟩]
  systemDrive := []

theorem table_singleton (row : DecisionRow) :
    buildServerServicePolicyVersionTable [row] = [entry row] := by
  unfold buildServerServicePolicyVersionTable
  simp

theorem noFailure_succeeds : Succeeds noFailure := by
  intro m
  have hwalk : ∀ n, ErrorCode.first (walk noFailure n m) = 0 := by
    induction m with
    | zero => exact fun _ => rfl
    | succ m ih => exact fun n => ih (n + 1)
  rw [first_answers, hwalk 0]
  rfl

/-- A scan of one decision. -/
theorem scanDatabaseL_singleton {row : DecisionRow} {iPolicyCache : CPolicyCache drives}
    {t : Progress drives} (hconfig : configureL ⟨iPolicyCache, 0, [], ⟨[row], none⟩⟩
      (row.number .serverSid) = .ok t) (hdb : t.db = ⟨[row], none⟩) :
    scanDatabaseL .binary (fun _ _ => noFailure) (fun _ _ => ⟨.none, true⟩) .none
      iPolicyCache ⟨[row], none⟩ =
        .ok ⟨[row].filter fun r => ¬(unneeded t.serviceConfigArray t.serverSid
          (row.number .serviceId)).Matches .binary r, none⟩ := by
  have hremove := @removeUnneeded_ok .binary drives (fun _ => noFailure)
    noFailure_succeeds (fun _ => ⟨.none, true⟩) (entry row) t _ hdb
  have hview : base.select .binary [row] = [row] := rfl
  unfold scanDatabaseL
  rw [createSqlStatementLC_newL, ok_bind]
  simp only [hview, table_singleton]
  show (deleteEntriesL _ _ _ 0 [entry row] ⟨iPolicyCache, 0, [], ⟨[row], none⟩⟩ >>= _) = _
  unfold deleteEntriesL
  rw [show (entry row).iServerId = row.number .serverSid from rfl, hconfig, ok_bind,
    hremove, ok_bind]
  rfl

/-- A decision made under version 0 goes when there is a file of version 3. -/
theorem scanDatabaseL_exact_newVersion : ∃ db,
    scanDatabaseL .binary (fun _ _ => CDecisionDbW.noFailure) (fun _ _ => ⟨.none, true⟩) .none
      ([] : CPolicyCache (oneFile 7 5 3)) ⟨[serviceRow ⟨7, by decide⟩ ⟨5, by decide⟩], none⟩ =
        .ok db ∧
    ordinary db.rows = (ordinary [serviceRow ⟨7, by decide⟩ ⟨5, by decide⟩]).filter
      fun row => row.Current (oneFile 7 5 3) := by
  have hservices : CPolicyCache.findServicesL (oneFile 7 5 3) 7 = [5] := by
    unfold CPolicyCache.findServicesL
    exact OrderedInsertion.insertInOrder_nil _ _
  have hconfig : ∃ t, configureL (⟨[], 0, [], ⟨[serviceRow ⟨7, by decide⟩ ⟨5, by decide⟩], none⟩⟩ :
      Progress (oneFile 7 5 3)) 7 = .ok t ∧
      t.db = ⟨[serviceRow ⟨7, by decide⟩ ⟨5, by decide⟩], none⟩ := by
    unfold configureL CPolicyCache.serviceConfigL
    rw [if_pos (by decide), hservices]
    exact ⟨_, rfl, rfl⟩
  obtain ⟨t, hconfig, hdb⟩ := hconfig
  have hrun := scanDatabaseL_singleton hconfig hdb
  exact ⟨_, hrun, scanDatabaseL_exact .binary _ .none [] _ (fun _ _ => noFailure_succeeds) hrun⟩

/-- The decision of the server 0 goes, although there is a file of its version. -/
theorem not_scanDatabaseL_exact_zero : ∃ db,
    scanDatabaseL .binary (fun _ _ => CDecisionDbW.noFailure) (fun _ _ => ⟨.none, true⟩) .none
      ([] : CPolicyCache (oneFile 0 5 0)) ⟨[serviceRow ⟨0, by decide⟩ ⟨5, by decide⟩], none⟩ =
        .ok db ∧
    db.rows ≠ [serviceRow ⟨0, by decide⟩ ⟨5, by decide⟩].filter
      fun row => row.Current (oneFile 0 5 0) := by
  have hconfig : configureL (⟨[], 0, [], ⟨[serviceRow ⟨0, by decide⟩ ⟨5, by decide⟩], none⟩⟩ :
      Progress (oneFile 0 5 0)) 0 =
      .ok ⟨[], 0, [], ⟨[serviceRow ⟨0, by decide⟩ ⟨5, by decide⟩], none⟩⟩ := if_neg (by decide)
  refine ⟨_, scanDatabaseL_singleton hconfig rfl, ?_⟩
  have hmatches : (unneeded [] 0 5).Matches .binary (serviceRow ⟨0, by decide⟩ ⟨5, by decide⟩) :=
    matches_service.mpr ⟨by decide, by decide⟩
  have hcurrent : (serviceRow ⟨0, by decide⟩ ⟨5, by decide⟩).Current (oneFile 0 5 0) := by decide
  intro heq
  have hlength := congrArg List.length heq
  have hnumber : (serviceRow ⟨0, by decide⟩ ⟨5, by decide⟩).number .serviceId = 5 := by decide
  simp [hmatches, hcurrent, hnumber] at hlength

end CPolicyChangeEvaluator

end OsSecurity

/-
What the statement of a filter says, and what its maker asked for.

A request is what the setters of a field have been told: the value and the operator of the last
call, and every operator that has been put in the flag, where they are or-ed together.  A field
is steady where its statement says what was asked: its operators are the same, or the last is
`=`, which is also what several together are taken for; and an empty text is only asked for
with `=`.  The room for the statement is so much for each number and so much for each text, and
is enough where the conditions together are no longer than that.
-/
import OsSecurity.Ups.FilterSelection
import OsSecurity.Ups.SqlReader
import OsSecurity.Library.BitCount

namespace OsSecurity

open Condition Function List Nat SqlReader SqlStatement

variable {o : TComparisonOp} {call : Setter}

/-- An empty text stands for NULL. -/
def SqlValue.ofText (t : Text) : SqlValue := if t = [] then .null else .text t

/-- What has been asked of a field. -/
structure FieldRequest where
  value : SqlValue
  op : TComparisonOp
  /-- The operators in the flag. -/
  flagged : List TComparisonOp

/-- What has been asked, field by field. -/
abbrev FieldRequests := FilterKey → Option FieldRequest

namespace CDecisionFilter

open CDecisionDb

namespace Setter

def key : Setter → FilterKey
  | .clientSid .. => .clientSid
  | .evaluatorId .. => .evaluatorId
  | .serviceId .. => .serviceId
  | .serverSid .. => .serverSid
  | .fingerprint .. => .fingerprint
  | .clientEntity .. => .clientEntity
  | .majorPolicyVersion .. => .majorPolicyVersion
  | .recordId .. => .recordId
  | .description .. => .description
  | .result .. => .result
  | .evaluatorInfo .. => .evaluatorInfo

def op : Setter → TComparisonOp
  | .clientSid _ aOp | .evaluatorId _ aOp | .serviceId _ aOp | .serverSid _ aOp
  | .fingerprint _ aOp | .clientEntity _ aOp | .majorPolicyVersion _ aOp | .recordId _ aOp
  | .description _ aOp | .result _ aOp | .evaluatorInfo _ aOp => aOp

def value : Setter → SqlValue
  | .clientSid n _ | .evaluatorId n _ | .serviceId n _ | .serverSid n _ | .recordId n _
  | .evaluatorInfo n _ => .number n.toNat
  | .majorPolicyVersion n _ => .number n.toNat
  | .result n _ => .number n.toNat
  | .fingerprint b _ | .clientEntity b _ => .ofText (b.map UInt8.toUInt16)
  | .description t _ => .ofText t

end Setter

/-- A setter's request, after those of its field before it. -/
def FieldRequests.set (r : FieldRequests) (call : Setter) : FieldRequests :=
  Function.update r call.key
    (some ⟨call.value, call.op, call.op :: ((r call.key).map FieldRequest.flagged).getD []⟩)

/-- The requests of the second constructor.  The two texts have no operator in their flags. -/
def FieldRequests.full (aClientSid aEvaluatorId aServiceId aServerSid : UInt32)
    (aFingerprint aClientEntity : Bytes) (aVersion : UInt16) : FieldRequests := fun key =>
  match key with
  | .clientSid => some ⟨.number aClientSid.toNat, .equal, [.equal]⟩
  | .evaluatorId => some ⟨.number aEvaluatorId.toNat, .equal, [.equal]⟩
  | .serviceId => some ⟨.number aServiceId.toNat, .equal, [.equal]⟩
  | .serverSid => some ⟨.number aServerSid.toNat, .equal, [.equal]⟩
  | .majorPolicyVersion => some ⟨.number aVersion.toNat, .equal, [.equal]⟩
  | .fingerprint => some ⟨.ofText (aFingerprint.map UInt8.toUInt16), .equal, []⟩
  | .clientEntity => some ⟨.ofText (aClientEntity.map UInt8.toUInt16), .equal, []⟩
  | .recordId | .description | .result | .evaluatorInfo => none

/-- A filter, and what has been asked of it. -/
inductive BuiltFor : CDecisionFilter → FieldRequests → Prop where
  | empty : BuiltFor newL fun _ => none
  | full {aClientSid aEvaluatorId aServiceId aServerSid : UInt32}
      {aFingerprint aClientEntity : Bytes} {aVersion : UInt16} {f : CDecisionFilter}
      (h : newWithL aClientSid aEvaluatorId aServiceId aServerSid aFingerprint aClientEntity
        aVersion = .ok f) :
      BuiltFor f (FieldRequests.full aClientSid aEvaluatorId aServiceId aServerSid aFingerprint
        aClientEntity aVersion)
  | set {f g : CDecisionFilter} {r : FieldRequests} {call : Setter} (hf : BuiltFor f r)
      (h : f.set call = .ok g) : BuiltFor g (FieldRequests.set r call)

theorem BuiltFor.built {f : CDecisionFilter} {r : FieldRequests} (h : BuiltFor f r) : Built f := by
  induction h with
  | empty => exact .empty
  | full h => exact .full h
  | set _ h ih => exact .set ih h

/-! ### Flags -/

/-- Operators, or-ed together. -/
def operatorBits (ops : List TComparisonOp) : UInt32 :=
  ops.foldr (fun op bits => op.value ||| bits) 0

def flagOf (key : FilterKey) : Option FieldRequest → UInt32
  | none => 0
  | some q => key.bit ||| operatorBits q.flagged

/-- A filter whose fields are as they were asked for. -/
structure Represents (f : CDecisionFilter) (r : FieldRequests) : Prop where
  flags : ∀ key, f.iSetFlag key = flagOf key (r key)
  number : ∀ c q, r (IntegerColumn.key c) = some q → q.value = .number (f.integerValue c).toNat
  text : ∀ c q, r (TextColumn.key c) = some q →
    ∃ t, f.textValue c = some t ∧ q.value = .ofText t
  op : ∀ key q, r key = some q → q.op ∈ q.flagged ∨ q.op = .equal ∧ q.flagged = []

theorem flagOf_set (key : FilterKey) (q : Option FieldRequest) (value : SqlValue)
    (aOp : TComparisonOp) : flagOf key q ||| key.bit ||| aOp.value =
      flagOf key (some ⟨value, aOp, aOp :: (q.map FieldRequest.flagged).getD []⟩) := by
  cases q with
  | none =>
      show 0 ||| key.bit ||| aOp.value = key.bit ||| (aOp.value ||| 0)
      rw [UInt32.zero_or, UInt32.or_zero]
  | some q =>
      show key.bit ||| operatorBits q.flagged ||| key.bit ||| aOp.value =
        key.bit ||| (aOp.value ||| operatorBits q.flagged)
      rw [UInt32.or_comm (key.bit ||| operatorBits q.flagged), ← UInt32.or_assoc,
        UInt32.or_self, UInt32.or_assoc, UInt32.or_comm (operatorBits q.flagged)]

variable {f g : CDecisionFilter} {r : FieldRequests}

theorem represents_newL : Represents newL fun _ => none where
  flags _ := rfl
  number _ _ h := absurd h nofun
  text _ _ h := absurd h nofun
  op _ _ h := absurd h nofun

theorem Represents.of_flagged (h : Represents f r) (hflag : g.iSetFlag = f.flagged call.key call.op)
    (hintegers : ∀ c, IntegerColumn.key c ≠ call.key → g.integerValue c = f.integerValue c)
    (htexts : ∀ c, TextColumn.key c ≠ call.key → g.textValue c = f.textValue c)
    (hnumber : ∀ c, IntegerColumn.key c = call.key → call.value = .number (g.integerValue c).toNat)
    (htext : ∀ c, TextColumn.key c = call.key → ∃ t, g.textValue c = some t ∧ call.value = .ofText t) :
    Represents g (FieldRequests.set r call) := by
  have hself : FieldRequests.set r call call.key =
      some ⟨call.value, call.op, call.op :: ((r call.key).map FieldRequest.flagged).getD []⟩ :=
    update_self ..
  have hother : ∀ key, key ≠ call.key → FieldRequests.set r call key = r key := fun key hkey =>
    update_of_ne hkey ..
  refine ⟨fun key => ?_, fun c q hq => ?_, fun c q hq => ?_, fun key q hq => ?_⟩
  · rw [hflag]
    by_cases hkey : key = call.key
    · rw [hkey, hself, ← flagOf_set, ← h.flags]
      exact update_self ..
    · rw [hother key hkey, ← h.flags]
      exact update_of_ne hkey ..
  · by_cases hkey : c.key = call.key
    · rw [hkey, hself] at hq
      rw [← Option.some.inj hq]
      exact hnumber c hkey
    · rw [hother _ hkey] at hq
      rw [hintegers c hkey]
      exact h.number c q hq
  · by_cases hkey : c.key = call.key
    · rw [hkey, hself] at hq
      rw [← Option.some.inj hq]
      exact htext c hkey
    · rw [hother _ hkey] at hq
      rw [htexts c hkey]
      exact h.text c q hq
  · by_cases hkey : key = call.key
    · rw [hkey, hself] at hq
      rw [← Option.some.inj hq]
      exact .inl mem_cons_self
    · rw [hother key hkey] at hq
      exact h.op key q hq

theorem integer_key_injective : Injective IntegerColumn.key := by
  intro c d
  cases c <;> cases d <;> decide

theorem text_key_injective : Injective TextColumn.key := by
  intro c d
  cases c <;> cases d <;> decide

theorem text_key_ne (c : TextColumn) (d : IntegerColumn) : c.key ≠ d.key := by
  cases c <;> cases d <;> decide

/-- A setter of a number: the other fields stay. -/
theorem Represents.set_number (h : Represents f r) (column : IntegerColumn)
    (hkey : call.key = column.key) (hflag : g.iSetFlag = f.flagged call.key call.op)
    (hintegers : ∀ c, c ≠ column → g.integerValue c = f.integerValue c)
    (htexts : g.textValue = f.textValue)
    (hnumber : call.value = .number (g.integerValue column).toNat) :
    Represents g (FieldRequests.set r call) := by
  refine h.of_flagged hflag (fun c hc => hintegers c ?_) (fun c _ => congrFun htexts c)
    (fun c hc => ?_) (fun c hc => ?_)
  · intro heq
    exact hc (by rw [heq, hkey])
  · rw [integer_key_injective (hc.trans hkey)]
    exact hnumber
  · exact absurd (hc.trans hkey) (text_key_ne c column)

/-- A setter of a text: the other fields stay. -/
theorem Represents.set_text (h : Represents f r) (column : TextColumn)
    (hkey : call.key = column.key) (hflag : g.iSetFlag = f.flagged call.key call.op)
    (hintegers : g.integerValue = f.integerValue)
    (htexts : ∀ c, c ≠ column → g.textValue c = f.textValue c)
    (htext : ∃ t, g.textValue column = some t ∧ call.value = .ofText t) :
    Represents g (FieldRequests.set r call) := by
  refine h.of_flagged hflag (fun c _ => congrFun hintegers c) (fun c hc => htexts c ?_)
    (fun c hc => ?_) (fun c hc => ?_)
  · intro heq
    exact hc (by rw [heq, hkey])
  · exact absurd (hkey.symm.trans hc.symm) (text_key_ne column c)
  · rw [text_key_injective (hc.trans hkey)]
    exact htext

theorem represents_set (h : Represents f r) (hg : f.set call = .ok g) :
    Represents g (FieldRequests.set r call) := by
  cases call with
  | clientSid aSid aOp =>
      cases hg
      refine h.set_number .clientSid rfl rfl (fun c hc => ?_) rfl rfl
      cases c <;> first | rfl | exact absurd rfl hc
  | evaluatorId aUid aOp =>
      cases hg
      refine h.set_number .evaluatorId rfl rfl (fun c hc => ?_) rfl rfl
      cases c <;> first | rfl | exact absurd rfl hc
  | serviceId aUid aOp =>
      cases hg
      refine h.set_number .serviceId rfl rfl (fun c hc => ?_) rfl rfl
      cases c <;> first | rfl | exact absurd rfl hc
  | serverSid aSid aOp =>
      cases hg
      refine h.set_number .serverSid rfl rfl (fun c hc => ?_) rfl rfl
      cases c <;> first | rfl | exact absurd rfl hc
  | majorPolicyVersion aVersion aOp =>
      cases hg
      refine h.set_number .majorPolicyVersion rfl rfl (fun c hc => ?_) rfl
        (congrArg SqlValue.number (UInt16.toNat_toUInt32 aVersion).symm)
      cases c <;> first | rfl | exact absurd rfl hc
  | recordId aId aOp =>
      cases hg
      refine h.set_number .recordId rfl rfl (fun c hc => ?_) rfl rfl
      cases c <;> first | rfl | exact absurd rfl hc
  | result aResult aOp =>
      cases hg
      refine h.set_number .result rfl rfl (fun c hc => ?_) rfl
        (congrArg SqlValue.number (UInt8.toNat_toUInt32 aResult).symm)
      cases c <;> first | rfl | exact absurd rfl hc
  | evaluatorInfo aEvaluatorInfo aOp =>
      cases hg
      refine h.set_number .evaluatorInfo rfl rfl (fun c hc => ?_) rfl rfl
      cases c <;> first | rfl | exact absurd rfl hc
  | description aDescription aOp =>
      cases hg
      refine h.set_text .description rfl rfl ?_ (fun c hc => ?_) ⟨_, rfl, rfl⟩
      · funext c
        cases c <;> rfl
      · cases c <;> first | rfl | exact absurd rfl hc
  | fingerprint aFingerprint aOp =>
      change f.setFingerprintL aFingerprint aOp = .ok g at hg
      unfold setFingerprintL at hg
      split at hg
      · exact absurd hg nofun
      · cases hg
        refine h.set_text .fingerprint rfl rfl ?_ (fun c hc => ?_) ⟨_, rfl, rfl⟩
        · funext c
          cases c <;> rfl
        · cases c <;> first | rfl | exact absurd rfl hc
  | clientEntity aClientEntity aOp =>
      change f.setClientEntityL aClientEntity aOp = .ok g at hg
      unfold setClientEntityL at hg
      split at hg
      · exact absurd hg nofun
      · cases hg
        refine h.set_text .clientEntity rfl rfl ?_ (fun c hc => ?_) ⟨_, rfl, rfl⟩
        · funext c
          cases c <;> rfl
        · cases c <;> first | rfl | exact absurd rfl hc

theorem represents_full {aClientSid aEvaluatorId aServiceId aServerSid : UInt32}
    {aFingerprint aClientEntity : Bytes} {aVersion : UInt16}
    (h : newWithL aClientSid aEvaluatorId aServiceId aServerSid aFingerprint aClientEntity
      aVersion = .ok f) :
    Represents f (FieldRequests.full aClientSid aEvaluatorId aServiceId aServerSid aFingerprint
      aClientEntity aVersion) := by
  obtain ⟨_, -, hf⟩ := bind_eq_ok.mp h
  cases hf
  refine ⟨fun key => ?_, fun c q hq => ?_, fun c q hq => ?_, fun key q hq => ?_⟩
  · cases key with
    | fingerprint =>
      show newFlags .fingerprint = FilterKey.bit .fingerprint ||| 0
      decide
    | clientEntity =>
      show newFlags .clientEntity = FilterKey.bit .clientEntity ||| 0
      decide
    | _ => rfl
  · cases c with
    | majorPolicyVersion =>
      rw [← Option.some.inj hq]
      exact congrArg SqlValue.number (UInt16.toNat_toUInt32 aVersion).symm
    | recordId | result | evaluatorInfo => exact absurd hq nofun
    | _ =>
      rw [← Option.some.inj hq]
      rfl
  · cases c with
    | description => exact absurd hq nofun
    | _ =>
      rw [← Option.some.inj hq]
      exact ⟨_, rfl, rfl⟩
  · cases key with
    | recordId | description | result | evaluatorInfo => exact absurd hq nofun
    | fingerprint | clientEntity =>
      rw [← Option.some.inj hq]
      exact .inr ⟨rfl, rfl⟩
    | _ =>
      rw [← Option.some.inj hq]
      exact .inl mem_cons_self

/-- Every filter is as it was asked for. -/
theorem BuiltFor.represents (h : BuiltFor f r) : Represents f r := by
  induction h with
  | empty => exact represents_newL
  | full h => exact represents_full h
  | set _ h ih => exact represents_set ih h

/-! ### The operator of a flag -/

theorem value_and (o p : TComparisonOp) (h : o.value &&& p.value = p.value) : p = o := by
  revert h
  cases o <;> cases p <;> decide

theorem value_upper (o : TComparisonOp) : o.value &&& 0xFFFF0000 = o.value := by
  cases o <;> decide

theorem bit_upper (key : FilterKey) : key.bit &&& 0xFFFF0000 = 0 := by
  cases key <;> decide

theorem operatorBits_upper (ops : List TComparisonOp) :
    operatorBits ops &&& 0xFFFF0000 = operatorBits ops := by
  induction ops with
  | nil => rfl
  | cons o ops ih =>
      show (o.value ||| operatorBits ops) &&& 0xFFFF0000 = o.value ||| operatorBits ops
      rw [or_and_distrib, value_upper, ih]

theorem flagOf_upper (key : FilterKey) (q : FieldRequest) :
    flagOf key (some q) &&& 0xFFFF0000 = operatorBits q.flagged := by
  show (key.bit ||| operatorBits q.flagged) &&& 0xFFFF0000 = _
  rw [or_and_distrib, bit_upper, operatorBits_upper, UInt32.zero_or]

theorem operatorBits_mem {ops : List TComparisonOp} (h : o ∈ ops) :
    operatorBits ops &&& o.value = o.value := by
  induction ops with
  | nil => exact absurd h not_mem_nil
  | cons p ops ih =>
      show (p.value ||| operatorBits ops) &&& o.value = o.value
      rw [or_and_distrib]
      rcases mem_cons.mp h with hp | hops
      · rw [hp, UInt32.and_self, UInt32.or_comm]
        apply UInt32.toNat_inj.mp
        rw [UInt32.toNat_or, UInt32.toNat_and]
        apply eq_of_testBit_eq
        intro k
        rw [testBit_or, testBit_and]
        cases p.value.toNat.testBit k <;> simp
      · rw [ih hops]
        apply UInt32.toNat_inj.mp
        rw [UInt32.toNat_or, UInt32.toNat_and]
        apply eq_of_testBit_eq
        intro k
        rw [testBit_or, testBit_and]
        cases o.value.toNat.testBit k <;> simp

theorem operatorBits_same {ops : List TComparisonOp} (hne : ops ≠ []) (h : ∀ p ∈ ops, p = o) :
    operatorBits ops = o.value := by
  induction ops with
  | nil => exact absurd rfl hne
  | cons p ops ih =>
      show p.value ||| operatorBits ops = o.value
      rw [h p mem_cons_self]
      by_cases hops : ops = []
      · rw [hops]
        exact UInt32.or_zero
      · rw [ih hops fun q hq => h q (mem_cons_of_mem p hq), UInt32.or_self]

theorem getComparisonOperator_of_upper {aFlag : UInt32} (h : aFlag &&& 0xFFFF0000 = o.value) :
    getComparisonOperator aFlag = o := by
  unfold getComparisonOperator
  dsimp only
  rw [h]
  cases o <;> decide

/-- An operator other than `=` is alone in its flag. -/
theorem upper_of_getComparisonOperator {aFlag : UInt32} (ho : o ≠ .equal)
    (h : getComparisonOperator aFlag = o) : aFlag &&& 0xFFFF0000 = o.value := by
  unfold getComparisonOperator at h
  dsimp only at h
  split at h
  · exact absurd h.symm ho
  split at h
  · rwa [← h]
  split at h
  · rwa [← h]
  split at h
  · rwa [← h]
  split at h
  · rwa [← h]
  split at h
  · rwa [← h]
  · exact absurd h.symm ho

/-- The operator of the last call is in the statement where it is the only one, or `=`. -/
theorem getComparisonOperator_flagOf {key : FilterKey} {q : FieldRequest}
    (hop : q.op ∈ q.flagged ∨ q.op = .equal ∧ q.flagged = []) :
    getComparisonOperator (flagOf key (some q)) = q.op ↔
      q.op = .equal ∨ ∀ o ∈ q.flagged, o = q.op := by
  by_cases hequal : q.op = .equal
  · refine iff_of_true ?_ (.inl hequal)
    by_contra hne
    rw [hequal] at hne
    have hupper := upper_of_getComparisonOperator hne rfl
    rw [flagOf_upper] at hupper
    rcases hop with hmem | ⟨-, hnil⟩
    · have hbits := operatorBits_mem hmem
      rw [hupper] at hbits
      exact hne ((value_and _ _ hbits).symm.trans hequal)
    · rw [hnil] at hupper
      generalize getComparisonOperator (flagOf key (some q)) = o at hupper
      revert hupper
      cases o <;> decide
  · have hmem : q.op ∈ q.flagged := hop.resolve_right fun h => hequal h.1
    rw [or_iff_right hequal]
    constructor
    · intro h o ho
      have hupper := upper_of_getComparisonOperator hequal h
      rw [flagOf_upper] at hupper
      have hbits := operatorBits_mem ho
      rw [hupper] at hbits
      exact value_and _ _ hbits
    · intro h
      apply getComparisonOperator_of_upper
      rw [flagOf_upper, operatorBits_same (ne_nil_of_mem hmem) h]

/-! ### The room for the statement -/

open BitCount

theorem addLengths_eq (aLength maxLen : Nat) (flag : UInt16) :
    addLengths aLength maxLen flag = maxLen + aLength * bitCount flag.toNat := by
  induction maxLen, flag using addLengths.induct aLength with
  | case1 maxLen =>
      rw [addLengths, if_pos rfl]
      rfl
  | case2 maxLen flag hflag ih =>
      have hne : flag.toNat ≠ 0 := fun hzero => hflag (UInt16.toNat_inj.mp hzero)
      have hpred : (flag &&& (flag - 1)).toNat = flag.toNat &&& (flag.toNat - 1) := by
        have hone : (1 : UInt16) ≤ flag :=
          UInt16.le_iff_toNat_le.mpr (one_le_iff_ne_zero.mpr hne)
        rw [UInt16.toNat_and, UInt16.toNat_sub_of_le _ _ hone]
        rfl
      rw [addLengths, if_neg hflag, ih, hpred, ← bitCount_and_pred hne]
      ring

/-- Flags that have no bit in common, or-ed together. -/
theorem bitCount_foldl {flags : FilterKey → UInt32} {keys : List FilterKey} {start : UInt32}
    (hpairs : keys.Pairwise fun k l => flags k &&& flags l = 0)
    (hstart : ∀ k ∈ keys, start &&& flags k = 0) :
    bitCount (keys.foldl (fun acc key => acc ||| flags key) start).toNat =
      bitCount start.toNat + (keys.map fun key => bitCount (flags key).toNat).sum := by
  induction keys generalizing start with
  | nil => rfl
  | cons key keys ih =>
      obtain ⟨hkey, hrest⟩ := pairwise_cons.mp hpairs
      have hdisjoint : start.toNat &&& (flags key).toNat = 0 := by
        rw [← UInt32.toNat_and, hstart key mem_cons_self]
        rfl
      have hnext : ∀ k ∈ keys, (start ||| flags key) &&& flags k = 0 := by
        intro k hk
        rw [or_and_distrib, hstart k (mem_cons_of_mem key hk), hkey k hk]
        rfl
      rw [foldl_cons, ih hrest hnext, UInt32.toNat_or, bitCount_or hdisjoint,
        map_cons, sum_cons, Nat.add_assoc]

theorem operatorBits_lower (ops : List TComparisonOp) {mask : UInt32}
    (hmask : 0xFFFF0000 &&& mask = 0) : operatorBits ops &&& mask = 0 := by
  rw [← operatorBits_upper, UInt32.and_assoc, hmask, UInt32.and_zero]

/-- The bit of a field that is set, through a mask for the lower half. -/
theorem flagOf_lower (key : FilterKey) (q : Option FieldRequest) {mask : UInt32}
    (hmask : 0xFFFF0000 &&& mask = 0) :
    flagOf key q &&& mask = if q.isSome then key.bit &&& mask else 0 := by
  cases q with
  | none => exact UInt32.zero_and
  | some q =>
      show (key.bit ||| operatorBits q.flagged) &&& mask = key.bit &&& mask
      rw [or_and_distrib, operatorBits_lower q.flagged hmask, UInt32.or_zero]

/-- How many fields a mask finds set. -/
theorem bitCount_combinedFlags (h : Represents f r) {mask : UInt32}
    (hmask : 0xFFFF0000 &&& mask = 0) (hsmall : mask &&& 0xffff = mask) :
    bitCount (combinedFlags f &&& mask).toUInt16.toNat =
      (FilterKey.all.map fun key =>
        if (r key).isSome then bitCount (key.bit &&& mask).toNat else 0).sum := by
  have hnarrow : (combinedFlags f &&& mask).toUInt16.toNat = (combinedFlags f &&& mask).toNat := by
    have hback := lower_half (combinedFlags f &&& mask)
    rw [UInt32.and_assoc, hsmall] at hback
    rw [← congrArg UInt32.toNat hback, UInt16.toNat_toUInt32]
  have hlow : ∀ key, f.iSetFlag key &&& mask =
      if (r key).isSome then key.bit &&& mask else 0 := by
    intro key
    rw [h.flags, flagOf_lower key (r key) hmask]
  have hpairs : FilterKey.all.Pairwise fun k l => k.bit &&& l.bit = 0 := by decide
  rw [hnarrow]
  unfold combinedFlags
  rw [foldl_or_and, UInt32.zero_and, bitCount_foldl]
  · simp only [hlow]
    rw [show bitCount (UInt32.toNat 0) = 0 from rfl, Nat.zero_add]
    congr 1
    refine map_congr_left fun key _ => ?_
    by_cases hsome : (r key).isSome = true
    · rw [if_pos hsome, if_pos hsome]
    · rw [if_neg hsome, if_neg hsome]
      rfl
  · refine hpairs.imp fun {k l} hkl => ?_
    rw [hlow, hlow]
    split
    · split
      · rw [UInt32.and_assoc, UInt32.and_comm mask, UInt32.and_assoc, ← UInt32.and_assoc, hkl,
          UInt32.zero_and]
      · exact UInt32.and_zero
    · exact UInt32.zero_and
  · intro k _
    exact UInt32.zero_and

/-- The room for a condition on a column. -/
def roomFor : Column → Nat
  | .integer _ => KMaxIntCondition
  | .text _ => KMaxStringCondition

/-- What has been asked, as conditions. -/
def asked (r : FieldRequests) (c : Column) : Option SqlCondition :=
  (r c.key).map fun q => ⟨c, q.op, q.value⟩

def denoted (r : FieldRequests) : List SqlCondition := columns.filterMap (asked r)

theorem maxLen_eq (h : Represents f r) :
    maxLen f = KBaseSQLLength + ((denoted r).map fun x => roomFor x.column).sum := by
  have hsum : ∀ cs : List Column, ((cs.filterMap (asked r)).map fun x => roomFor x.column).sum =
      (cs.map fun c => if (r c.key).isSome then roomFor c else 0).sum := by
    intro cs
    induction cs with
    | nil => rfl
    | cons c cs ih =>
      rw [map_cons, sum_cons, ← ih]
      cases hc : r c.key with
      | none => simp [asked, hc]
      | some q => simp [asked, hc]
  unfold maxLen
  rw [addLengths_eq, addLengths_eq, bitCount_combinedFlags h (by decide) (by decide),
    bitCount_combinedFlags h (by decide) (by decide)]
  unfold denoted
  rw [hsum]
  have hcount : ∀ (key : FilterKey) (n : Nat),
      (if (r key).isSome = true then n else 0) = n * (r key).isSome.toNat := by
    intro key n
    cases (r key).isSome with
    | true => exact (Nat.mul_one n).symm
    | false => rfl
  have hnumber : ∀ key : FilterKey, bitCount (key.bit &&& 0x000006CF).toNat =
      if key ∈ [FilterKey.fingerprint, .clientEntity, .description] then 0 else 1 := by
    intro key
    cases key <;> simp [bitCount, FilterKey.bit]
  have htext : ∀ key : FilterKey, bitCount (key.bit &&& 0x00000130).toNat =
      if key ∈ [FilterKey.fingerprint, .clientEntity, .description] then 1 else 0 := by
    intro key
    cases key <;> simp [bitCount, FilterKey.bit]
  simp only [hnumber, htext, hcount _ (ite _ _ _), hcount _ (roomFor _)]
  simp only [FilterKey.all, columns, map_cons, map_nil, sum_cons, sum_nil,
    Column.key, IntegerColumn.key, TextColumn.key, roomFor, KMaxIntCondition, KMaxStringCondition]
  simp
  omega

/-! ### The conditions of the statement -/

theorem isSet_iff (h : Represents f r) (key : FilterKey) : f.isSet key ↔ (r key).isSome = true := by
  have hne : key.bit &&& key.bit ≠ 0 := by
    cases key <;> decide
  unfold isSet
  rw [h.flags, flagOf_lower key (r key) (by cases key <;> decide)]
  by_cases hsome : (r key).isSome = true
  · rw [if_pos hsome]
    exact iff_of_true hne hsome
  · rw [if_neg hsome]
    exact iff_of_false (fun hzero => hzero rfl) hsome

/-- The operator that the statement has for a field. -/
def saidOp (key : FilterKey) (q : FieldRequest) : TComparisonOp :=
  if q.value = .null then .equal else getComparisonOperator (flagOf key (some q))

theorem condition_meaning (h : Represents f r) (c : Column) :
    (f.condition c).map meaning =
      (r c.key).map fun q => ⟨c, saidOp c.key q, q.value⟩ := by
  cases hq : r c.key with
  | none =>
      have hunset : ¬f.isSet c.key := by
        rw [isSet_iff h, hq]
        exact nofun
      rw [condition_none hunset]
      rfl
  | some q =>
      have hset : f.isSet c.key := by
        rw [isSet_iff h, hq]
        rfl
      have hflag : f.iSetFlag c.key = flagOf c.key (some q) := by
        rw [h.flags, hq]
      cases c with
      | integer c =>
        change f.iSetFlag c.key = flagOf c.key (some q) at hflag
        have hvalue := h.number c q hq
        have hnull : q.value ≠ .null := by
          rw [hvalue]
          exact nofun
        rw [condition_integer hset, hflag]
        show some (SqlCondition.mk _ _ _) = some ⟨_, saidOp _ q, q.value⟩
        unfold saidOp
        rw [if_neg hnull, hvalue]
        rfl
      | text c =>
        change f.iSetFlag c.key = flagOf c.key (some q) at hflag
        obtain ⟨t, ht, hvalue⟩ := h.text c q hq
        by_cases hempty : t = []
        · have hnull : q.value = .null := by
            rw [hvalue, SqlValue.ofText, if_pos hempty]
          rw [condition_null hset ht (by rw [hempty]; simp)]
          show some (SqlCondition.mk _ _ _) = some ⟨_, saidOp _ q, q.value⟩
          unfold saidOp
          rw [if_pos hnull, hnull]
        · have htext : q.value = .text t := by
            rw [hvalue, SqlValue.ofText, if_neg hempty]
          have hnull : q.value ≠ .null := by
            rw [htext]
            exact nofun
          rw [condition_text hset ht (by simpa using hempty), hflag]
          show some (SqlCondition.mk _ _ _) = some ⟨_, saidOp _ q, q.value⟩
          unfold saidOp
          rw [if_neg hnull, htext]
          rfl

/-- The text of a statement is its conditions with `AND` between them. -/
theorem statement_eq (f : CDecisionFilter) :
    f.statement.conditions = columns.filterMap f.condition ∧
      f.statement.text = baseWhere.text ++
        joined (columns.filterMap f.condition) := by
  have hfold : ∀ (cs : List Column) (aSql : SqlStatement),
      aSql.text = baseWhere.text ++ joined aSql.conditions →
      (cs.foldl f.query aSql).conditions = aSql.conditions ++ cs.filterMap f.condition ∧
        (cs.foldl f.query aSql).text =
          baseWhere.text ++ joined (cs.foldl f.query aSql).conditions := by
    intro cs
    induction cs with
    | nil => exact fun aSql htext => ⟨(append_nil _).symm, htext⟩
    | cons c cs ih =>
      intro aSql htext
      rw [foldl_cons]
      cases hc : f.condition c with
      | none =>
        have hquery : f.query aSql c = aSql := by
          unfold query
          rw [hc]
        rw [hquery, filterMap_cons_none hc]
        exact ih aSql htext
      | some x =>
        have hquery : f.query aSql c = aSql.add x := by
          unfold query
          rw [hc]
        have hadd : (aSql.add x).text = baseWhere.text ++
            joined (aSql.add x).conditions := by
          show aSql.text ++ _ ++ x.sql = _ ++ joined (aSql.conditions ++ [x])
          rw [joined_concat, htext]
          simp only [List.append_assoc]
        obtain ⟨hconditions, hall⟩ := ih (aSql.add x) hadd
        rw [hquery, filterMap_cons_some hc, hconditions]
        refine ⟨?_, ?_⟩
        · show (aSql.conditions ++ [x]) ++ _ = _
          rw [List.append_assoc]
          rfl
        · rw [hall, hconditions]
  obtain ⟨hconditions, htext⟩ := hfold columns baseWhere (append_nil _).symm
  have hnone : baseWhere.conditions = [] := rfl
  rw [hnone, nil_append] at hconditions
  exact ⟨hconditions, by rw [← hconditions]; exact htext⟩

theorem filterMap_meaning (h : Represents f r) :
    (columns.filterMap f.condition).map meaning =
      columns.filterMap fun c => (r c.key).map fun q => ⟨c, saidOp c.key q, q.value⟩ := by
  rw [map_filterMap]
  congr 1
  funext c
  exact condition_meaning h c

/-! ### Lengths -/

/-- A condition's length. -/
def widthOf (x : SqlCondition) : Nat :=
  x.column.name.length +
    match x.value with
    | .number n => x.op.sql.length + (toDigits 10 n).length
    | .text t => x.op.sql.length + (t.length + t.count 0x27) + 2
    | .null => 8

theorem doubled_length (t : Text) : (doubleSingleQuotes t).length = t.length + t.count 0x27 := by
  induction t with
  | nil => rfl
  | cons u t ih =>
      have hdouble : doubleSingleQuotes (u :: t) =
          (if u = 0x27 then [u, u] else [u]) ++ doubleSingleQuotes t := rfl
      rw [hdouble, length_append, ih, length_cons, List.count_cons]
      by_cases hu : u = 0x27
      · rw [if_pos hu, if_pos (beq_iff_eq.mpr hu)]
        simp only [length_cons, length_nil]
        omega
      · rw [if_neg hu, if_neg (fun heq => hu (beq_iff_eq.mp heq))]
        simp only [length_cons, length_nil]
        omega

theorem sql_length (x : Condition) : x.sql.length = widthOf x.meaning := by
  have hlit : ∀ s : String, (lit s).length = s.length := fun s => length_map _
  cases x with
  | integer c op aValue =>
      simp only [sql, length_append, hlit]
      show _ = c.name.length + (op.sql.length + _)
      rw [String.length_ofList]
      omega
  | text c op aValue =>
      simp only [sql, length_append, hlit, doubled_length]
      show _ = c.name.length + (op.sql.length + _ + 2)
      have hquote : "'".length = 1 := rfl
      omega
  | null c =>
      simp only [sql, length_append, hlit]
      rfl

theorem joined_length {x : Condition} {xs : List Condition} :
    (joined (x :: xs)).length + 5 =
      (((x :: xs).map meaning).map fun y => widthOf y + 5).sum := by
  induction xs generalizing x with
  | nil =>
      show x.sql.length + 5 = _
      rw [sql_length]
      rfl
  | cons y xs ih =>
      have hand : (lit " AND ").length = 5 := by decide
      rw [joined_cons, length_append, length_append, hand, map_cons,
        map_cons, sum_cons, ← ih, sql_length]
      omega

/-! ### What the statement says -/

/-- A field whose statement says what was asked of it. -/
def Steady (q : FieldRequest) : Prop :=
  q.op = .equal ∨ q.value ≠ .null ∧ ∀ o ∈ q.flagged, o = q.op

/-- The conditions that were asked for, with `AND` between them, are no longer than the room for
them. -/
def HasRoom (r : FieldRequests) : Prop :=
  ((denoted r).map fun x => widthOf x + 5).sum ≤
    ((denoted r).map fun x => roomFor x.column).sum + 5

section

variable (h : Represents f r)
include h

theorem saidOp_iff {key : FilterKey} {q : FieldRequest} (hq : r key = some q) :
    saidOp key q = q.op ↔ Steady q := by
  unfold saidOp Steady
  by_cases hnull : q.value = .null
  · rw [if_pos hnull, eq_comm]
    exact ⟨.inl, fun hsteady => hsteady.resolve_right fun hother => hother.1 hnull⟩
  · rw [if_neg hnull, getComparisonOperator_flagOf (h.op key q hq), and_iff_right hnull]

/-- The statement says what was asked where all its fields are steady. -/
theorem said_iff :
    (columns.filterMap f.condition).map meaning = denoted r ↔
      ∀ key q, r key = some q → Steady q := by
  rw [filterMap_meaning h]
  constructor
  · intro hall key q hq
    obtain ⟨c, rfl⟩ : ∃ c : Column, c.key = key := by
      cases key with
      | clientSid => exact ⟨.integer .clientSid, rfl⟩
      | evaluatorId => exact ⟨.integer .evaluatorId, rfl⟩
      | serviceId => exact ⟨.integer .serviceId, rfl⟩
      | serverSid => exact ⟨.integer .serverSid, rfl⟩
      | fingerprint => exact ⟨.text .fingerprint, rfl⟩
      | clientEntity => exact ⟨.text .clientEntity, rfl⟩
      | majorPolicyVersion => exact ⟨.integer .majorPolicyVersion, rfl⟩
      | recordId => exact ⟨.integer .recordId, rfl⟩
      | description => exact ⟨.text .description, rfl⟩
      | result => exact ⟨.integer .result, rfl⟩
      | evaluatorInfo => exact ⟨.integer .evaluatorInfo, rfl⟩
    have hmem : (⟨c, saidOp c.key q, q.value⟩ : SqlCondition) ∈ denoted r := by
      rw [← hall]
      exact mem_filterMap.mpr ⟨c, mem_columns c, by rw [hq]; rfl⟩
    obtain ⟨d, -, hd⟩ := mem_filterMap.mp hmem
    unfold asked at hd
    obtain ⟨p, hp, heq⟩ := Option.map_eq_some_iff.mp hd
    obtain ⟨rfl, hop, -⟩ := SqlCondition.mk.inj heq
    rw [hq] at hp
    rw [← Option.some.inj hp] at hop
    exact (saidOp_iff h hq).mp hop.symm
  · intro hall
    unfold denoted
    congr 1
    funext c
    unfold asked
    cases hq : r c.key with
    | none => rfl
    | some q =>
      show some (SqlCondition.mk c (saidOp c.key q) q.value) = _
      rw [(saidOp_iff h hq).mpr (hall c.key q hq)]
      rfl

/-- The text of the statement that is made, where one is. -/
theorem made_text :
    f.made.text = if columns.filterMap f.condition = [] then lit "SELECT * FROM UPSDecisions"
      else lit "SELECT * FROM UPSDecisions" ++ lit " WHERE " ++
        joined (columns.filterMap f.condition) := by
  unfold made
  by_cases hbase : maxLen f = KBaseSQLLength
  · have hnone : columns.filterMap f.condition = [] :=
      filterMap_eq_nil_iff.mpr fun c _ => condition_none (unset_of_maxLen hbase c.key)
    rw [if_pos hbase, if_pos hnone]
    rfl
  · have hsome : columns.filterMap f.condition ≠ [] := by
      intro hnil
      apply hbase
      have hmeaning := filterMap_meaning h
      rw [hnil, map_nil, eq_comm, filterMap_eq_nil_iff] at hmeaning
      have hdenoted : denoted r = [] := by
        refine filterMap_eq_nil_iff.mpr fun c hc => ?_
        exact Option.map_eq_none_iff.mpr (Option.map_eq_none_iff.mp (hmeaning c hc))
      rw [maxLen_eq h, hdenoted]
      rfl
    rw [if_neg hbase, if_neg hsome, (statement_eq f).2]
    rfl

theorem readStatement_made :
    readStatement f.made.text =
      some ((columns.filterMap f.condition).map meaning) := by
  rw [made_text h]
  exact readStatement_joined _

theorem statementFits_iff (hsaid : (columns.filterMap f.condition).map meaning = denoted r) :
    f.StatementFits ↔ HasRoom r := by
  unfold StatementFits HasRoom
  rw [(statement_eq f).2, maxLen_eq h, length_append]
  have hbase : baseWhere.text.length = KBaseSQLLength := by decide
  rw [hbase, ← hsaid]
  cases columns.filterMap f.condition with
  | nil => exact iff_of_true (Nat.le_refl _) (Nat.zero_le _)
  | cons x xs =>
      rw [← joined_length]
      omega

end

/-- **When the statement is made and says what was asked**: when the conditions have room and
every field is steady. -/
theorem statement_denotes_iff (h : BuiltFor f r) :
    (∃ aSql, createSqlStatementLC f = .ok aSql ∧
      SqlReader.readStatement aSql.text = some (denoted r)) ↔
    HasRoom r ∧ ∀ key q, r key = some q → Steady q := by
  have hrep := h.represents
  have hwhole : ¬f.Crashes := by
    rintro ⟨hnone, hset⟩
    have hsome := h.built.wellformed.description hset
    change f.iDescription = none at hnone
    rw [hnone] at hsome
    exact Bool.false_ne_true hsome
  have hread := readStatement_made hrep
  constructor
  · rintro ⟨aSql, hmade, hdenoted⟩
    obtain ⟨-, hfits, rfl⟩ := createSqlStatementLC_ok.mp hmade
    have hsaid := Option.some.inj (hread.symm.trans hdenoted)
    exact ⟨(statementFits_iff hrep hsaid).mp hfits, (said_iff hrep).mp hsaid⟩
  · rintro ⟨hroom, hsteady⟩
    have hsaid := (said_iff hrep).mpr hsteady
    refine ⟨f.made, createSqlStatementLC_ok.mpr ⟨hwhole, ?_, rfl⟩, hread.trans ?_⟩
    · exact (statementFits_iff hrep hsaid).mpr hroom
    · rw [hsaid]

/-- A number, and a text with a quote in it. -/
theorem statement_denotes_quoted :
    ∃ aSql, createSqlStatementLC
      ((newL.setRecordId 7 .notEqual).setDescriptionL (lit "it's") .equal) = .ok aSql ∧
      SqlReader.readStatement aSql.text = some
        [⟨.integer .recordId, .notEqual, .number 7⟩,
          ⟨.text .description, .equal, .text (lit "it's")⟩] := by
  have hbuilt : BuiltFor ((newL.setRecordId 7 .notEqual).setDescriptionL (lit "it's") .equal) _ :=
    .set (.set .empty (rfl : newL.set (.recordId 7 .notEqual) = .ok _))
      (rfl : (newL.setRecordId 7 .notEqual).set (.description (lit "it's") .equal) = .ok _)
  refine (statement_denotes_iff hbuilt).mpr ⟨?_, fun key q hq => ?_⟩
  · unfold HasRoom
    decide
  · cases key with
    | recordId =>
      rw [← Option.some.inj hq]
      refine .inr ⟨nofun, fun o ho => ?_⟩
      exact mem_singleton.mp ho
    | description =>
      rw [← Option.some.inj hq]
      exact .inl rfl
    | _ => exact absurd hq nofun

/-- Two large numbers under the longest of the short names have no room together, and of two
operators for one field the second is lost. -/
theorem statement_not_denotes :
    (∀ aSql, createSqlStatementLC ((newL.setEvaluatorInfo 0xFFFFFFFF .greaterThanOrEqual)
      |>.setEvaluatorId 0xFFFFFFFF .greaterThanOrEqual) ≠ .ok aSql) ∧
    ∀ aSql, createSqlStatementLC
      ((newL.setRecordId 5 .equal).setRecordId 5 .lessThan) = .ok aSql →
      SqlReader.readStatement aSql.text ≠ some [⟨.integer .recordId, .lessThan, .number 5⟩] := by
  refine ⟨fun aSql hmade => ?_, fun aSql hmade hread => ?_⟩
  · have hbuilt : BuiltFor ((newL.setEvaluatorInfo 0xFFFFFFFF .greaterThanOrEqual)
        |>.setEvaluatorId 0xFFFFFFFF .greaterThanOrEqual) _ :=
      .set (.set .empty
        (rfl : newL.set (.evaluatorInfo 0xFFFFFFFF .greaterThanOrEqual) = .ok _))
        (rfl : (newL.setEvaluatorInfo 0xFFFFFFFF .greaterThanOrEqual).set
          (.evaluatorId 0xFFFFFFFF .greaterThanOrEqual) = .ok _)
    obtain ⟨-, hfits, -⟩ := createSqlStatementLC_ok.mp hmade
    have hsaid := (said_iff hbuilt.represents).mpr fun key q hq => by
      cases key with
      | evaluatorId | evaluatorInfo =>
        rw [← Option.some.inj hq]
        exact .inr ⟨nofun, fun o ho => mem_singleton.mp ho⟩
      | _ => exact absurd hq nofun
    have hroom := (statementFits_iff hbuilt.represents hsaid).mp hfits
    unfold HasRoom at hroom
    revert hroom
    decide
  · have hbuilt : BuiltFor ((newL.setRecordId 5 .equal).setRecordId 5 .lessThan) _ :=
      .set (.set .empty (rfl : newL.set (.recordId 5 .equal) = .ok _))
        (rfl : (newL.setRecordId 5 .equal).set (.recordId 5 .lessThan) = .ok _)
    obtain ⟨-, -, rfl⟩ := createSqlStatementLC_ok.mp hmade
    have hsaid := Option.some.inj ((readStatement_made hbuilt.represents).symm.trans hread)
    have hsteady := (said_iff hbuilt.represents).mp hsaid .recordId _ rfl
    rcases hsteady with hequal | ⟨-, hsame⟩
    · exact absurd hequal nofun
    · exact absurd (hsame .equal (by decide)) nofun

end CDecisionFilter

end OsSecurity

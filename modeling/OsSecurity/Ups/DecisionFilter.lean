/-
The filter that selects decisions of the user prompt service, and its way over IPC.

A field of a `CDecisionFilter` counts when its bit is set in the flag of the field, and the
same flag holds the comparison operator in its upper half.  `Built` is what the constructors
and the setters can make.  `externalizeL` writes the filter to a stream, `internalizeL` reads
it at the other end, and `carried` says what arrives: the lower half of each flag, and
nothing of the description, the result and the evaluator info.
-/
import Mathlib.Logic.Function.Basic
import OsSecurity.Streams

namespace OsSecurity

variable {f g : CDecisionFilter} {aOp : TComparisonOp}

def KUpsMaxFingerprintLength : Nat := 32
def KUpsMaxClientEntityLength : Nat := 32
def KErrUpsBadFingerprintLength : Int := -5703
def KErrUpsBadClientEntityLength : Int := -5710
def KMaskDesLength8 : Nat := 0x0fffffff

inductive TComparisonOp where
  | equal | notEqual | lessThan | greaterThan | lessThanOrEqual | greaterThanOrEqual
  deriving DecidableEq

def TComparisonOp.value : TComparisonOp → UInt32
  | .equal => 0x00010000
  | .notEqual => 0x00020000
  | .lessThan => 0x00040000
  | .greaterThan => 0x00080000
  | .lessThanOrEqual => 0x00100000
  | .greaterThanOrEqual => 0x00200000

/-- The fields of a filter, in the order of their flags (`KPosClientSid` and so on). -/
inductive FilterKey where
  | clientSid | evaluatorId | serviceId | serverSid | fingerprint | clientEntity
  | majorPolicyVersion | recordId | description | result | evaluatorInfo
  deriving DecidableEq

namespace FilterKey

/-- `KSetClientSid` and so on: the bit that says that the field counts. -/
def bit : FilterKey → UInt32
  | clientSid => 0x00000001
  | evaluatorId => 0x00000002
  | serviceId => 0x00000004
  | serverSid => 0x00000008
  | fingerprint => 0x00000010
  | clientEntity => 0x00000020
  | majorPolicyVersion => 0x00000040
  | recordId => 0x00000080
  | description => 0x00000100
  | result => 0x00000200
  | evaluatorInfo => 0x00000400

/-- The `KFilterKeysNumber` positions. -/
def all : List FilterKey :=
  [clientSid, evaluatorId, serviceId, serverSid, fingerprint, clientEntity, majorPolicyVersion,
    recordId, description, result, evaluatorInfo]

theorem bit_low (key : FilterKey) : 0xffff &&& key.bit = key.bit := by
  cases key <;> rfl

end FilterKey

/-- A buffer on the heap is `none` while its pointer is null.  `TUid` and `TSecureId` are
their 32 bits. -/
structure CDecisionFilter where
  iClientSid : UInt32
  iEvaluatorId : UInt32
  iServiceId : UInt32
  iServerSid : UInt32
  iFingerprint : Option Bytes
  iClientEntity : Option Bytes
  iSetFlag : FilterKey → UInt32
  iMajorPolicyVersion : UInt16
  iRecordId : UInt32
  iDescription : Option Text
  iResult : UInt8
  iEvaluatorInfo : UInt32

namespace CDecisionFilter

/-- `CDecisionFilter()`: memory of a `CBase` is zero before the constructor runs. -/
def newL : CDecisionFilter where
  iClientSid := 0
  iEvaluatorId := 0
  iServiceId := 0
  iServerSid := 0
  iFingerprint := none
  iClientEntity := none
  iSetFlag := fun _ => 0
  iMajorPolicyVersion := 0
  iRecordId := 0
  iDescription := none
  iResult := 0
  iEvaluatorInfo := 0

def isSet (f : CDecisionFilter) (key : FilterKey) : Prop := f.iSetFlag key &&& key.bit ≠ 0

instance (f : CDecisionFilter) (key : FilterKey) : Decidable (f.isSet key) :=
  inferInstanceAs (Decidable (_ ≠ _))

def validateL (f : CDecisionFilter) : Leaving Unit := do
  if f.isSet .fingerprint ∧
      (f.iFingerprint = none ∨ KUpsMaxFingerprintLength < (f.iFingerprint.getD []).length) then
    leave KErrUpsBadFingerprintLength
  if f.isSet .clientEntity ∧
      (f.iClientEntity = none ∨ KUpsMaxClientEntityLength < (f.iClientEntity.getD []).length) then
    leave KErrUpsBadClientEntityLength

/-! ### Constructors and setters -/

/-- The flags after the second constructor.  `ConstructL` does not put an operator in those of
the two buffers. -/
def newFlags : FilterKey → UInt32 := fun key =>
  match key with
  | .clientSid | .evaluatorId | .serviceId | .serverSid | .majorPolicyVersion =>
      key.bit ||| TComparisonOp.equal.value
  | .fingerprint | .clientEntity => 0 ||| key.bit
  | .recordId | .description | .result | .evaluatorInfo => 0

/-- The constructor that takes seven of the fields. -/
def newWithL (aClientSid aEvaluatorId aServiceId aServerSid : UInt32)
    (aFingerprint aClientEntity : Bytes) (aVersion : UInt16) : Leaving CDecisionFilter := do
  let f : CDecisionFilter :=
    { newL with
      iClientSid := aClientSid
      iEvaluatorId := aEvaluatorId
      iServiceId := aServiceId
      iServerSid := aServerSid
      iFingerprint := some aFingerprint
      iClientEntity := some aClientEntity
      iMajorPolicyVersion := aVersion
      iSetFlag := newFlags }
  f.validateL
  return f

/-- What every setter does to the flag of its field. -/
def flagged (f : CDecisionFilter) (key : FilterKey) (aOp : TComparisonOp) : FilterKey → UInt32 :=
  Function.update f.iSetFlag key (f.iSetFlag key ||| key.bit ||| aOp.value)

def setClientSid (f : CDecisionFilter) (aSid : UInt32) (aOp : TComparisonOp) : CDecisionFilter :=
  { f with iClientSid := aSid, iSetFlag := f.flagged .clientSid aOp }

def setEvaluatorId (f : CDecisionFilter) (aUid : UInt32) (aOp : TComparisonOp) : CDecisionFilter :=
  { f with iEvaluatorId := aUid, iSetFlag := f.flagged .evaluatorId aOp }

def setServiceId (f : CDecisionFilter) (aUid : UInt32) (aOp : TComparisonOp) : CDecisionFilter :=
  { f with iServiceId := aUid, iSetFlag := f.flagged .serviceId aOp }

def setServerSid (f : CDecisionFilter) (aSid : UInt32) (aOp : TComparisonOp) : CDecisionFilter :=
  { f with iServerSid := aSid, iSetFlag := f.flagged .serverSid aOp }

def setFingerprintL (f : CDecisionFilter) (aFingerprint : Bytes) (aOp : TComparisonOp) :
    Leaving CDecisionFilter :=
  if KUpsMaxFingerprintLength < aFingerprint.length then leave KErrUpsBadFingerprintLength
  else .ok { f with iFingerprint := some aFingerprint, iSetFlag := f.flagged .fingerprint aOp }

def setClientEntityL (f : CDecisionFilter) (aClientEntity : Bytes) (aOp : TComparisonOp) :
    Leaving CDecisionFilter :=
  if KUpsMaxClientEntityLength < aClientEntity.length then leave KErrUpsBadClientEntityLength
  else .ok { f with iClientEntity := some aClientEntity, iSetFlag := f.flagged .clientEntity aOp }

def setMajorPolicyVersion (f : CDecisionFilter) (aVersion : UInt16) (aOp : TComparisonOp) :
    CDecisionFilter :=
  { f with iMajorPolicyVersion := aVersion, iSetFlag := f.flagged .majorPolicyVersion aOp }

def setRecordId (f : CDecisionFilter) (aId : UInt32) (aOp : TComparisonOp) : CDecisionFilter :=
  { f with iRecordId := aId, iSetFlag := f.flagged .recordId aOp }

def setDescriptionL (f : CDecisionFilter) (aDescription : Text) (aOp : TComparisonOp) :
    CDecisionFilter :=
  { f with iDescription := some aDescription, iSetFlag := f.flagged .description aOp }

def setResult (f : CDecisionFilter) (aResult : UInt8) (aOp : TComparisonOp) : CDecisionFilter :=
  { f with iResult := aResult, iSetFlag := f.flagged .result aOp }

def setEvaluatorInfo (f : CDecisionFilter) (aEvaluatorInfo : UInt32) (aOp : TComparisonOp) :
    CDecisionFilter :=
  { f with iEvaluatorInfo := aEvaluatorInfo, iSetFlag := f.flagged .evaluatorInfo aOp }

/-- A call of a setter. -/
inductive Setter where
  | clientSid (aSid : UInt32) (aOp : TComparisonOp)
  | evaluatorId (aUid : UInt32) (aOp : TComparisonOp)
  | serviceId (aUid : UInt32) (aOp : TComparisonOp)
  | serverSid (aSid : UInt32) (aOp : TComparisonOp)
  | fingerprint (aFingerprint : Bytes) (aOp : TComparisonOp)
  | clientEntity (aClientEntity : Bytes) (aOp : TComparisonOp)
  | majorPolicyVersion (aVersion : UInt16) (aOp : TComparisonOp)
  | recordId (aId : UInt32) (aOp : TComparisonOp)
  | description (aDescription : Text) (aOp : TComparisonOp)
  | result (aResult : UInt8) (aOp : TComparisonOp)
  | evaluatorInfo (aEvaluatorInfo : UInt32) (aOp : TComparisonOp)

def set (f : CDecisionFilter) : Setter → Leaving CDecisionFilter
  | .clientSid aSid aOp => .ok (f.setClientSid aSid aOp)
  | .evaluatorId aUid aOp => .ok (f.setEvaluatorId aUid aOp)
  | .serviceId aUid aOp => .ok (f.setServiceId aUid aOp)
  | .serverSid aSid aOp => .ok (f.setServerSid aSid aOp)
  | .fingerprint aFingerprint aOp => f.setFingerprintL aFingerprint aOp
  | .clientEntity aClientEntity aOp => f.setClientEntityL aClientEntity aOp
  | .majorPolicyVersion aVersion aOp => .ok (f.setMajorPolicyVersion aVersion aOp)
  | .recordId aId aOp => .ok (f.setRecordId aId aOp)
  | .description aDescription aOp => .ok (f.setDescriptionL aDescription aOp)
  | .result aResult aOp => .ok (f.setResult aResult aOp)
  | .evaluatorInfo aEvaluatorInfo aOp => .ok (f.setEvaluatorInfo aEvaluatorInfo aOp)

/-- A filter made by a constructor and any calls of setters after it. -/
inductive Built : CDecisionFilter → Prop where
  | empty : Built newL
  | full {aClientSid aEvaluatorId aServiceId aServerSid : UInt32}
      {aFingerprint aClientEntity : Bytes} {aVersion : UInt16} {f : CDecisionFilter}
      (h : newWithL aClientSid aEvaluatorId aServiceId aServerSid aFingerprint aClientEntity
        aVersion = .ok f) : Built f
  | set {f g : CDecisionFilter} {call : Setter} (hf : Built f) (h : f.set call = .ok g) : Built g

/-! ### What a built filter holds -/

/-- A buffer is as long as the service allows. -/
def Fits (limit : Nat) (buffer : Option Bytes) : Prop := ∀ b ∈ buffer, b.length ≤ limit

/-- What `ValidateL` checks, and that a buffer is short enough even where it does not count. -/
structure Buffered (f : CDecisionFilter) : Prop where
  fingerprint : f.isSet .fingerprint → f.iFingerprint.isSome
  clientEntity : f.isSet .clientEntity → f.iClientEntity.isSome
  fingerprint_fits : Fits KUpsMaxFingerprintLength f.iFingerprint
  clientEntity_fits : Fits KUpsMaxClientEntityLength f.iClientEntity

/-- A field that counts has its buffer. -/
structure Wellformed (f : CDecisionFilter) : Prop extends Buffered f where
  description : f.isSet .description → f.iDescription.isSome

theorem isSet_congr {key : FilterKey} (h : g.iSetFlag key = f.iSetFlag key) :
    g.isSet key ↔ f.isSet key := by
  unfold isSet
  rw [h]

/-- A setter of a field without a buffer leaves the buffers and their flags alone. -/
theorem Wellformed.of_flagged {key : FilterKey} (hf : f.Wellformed)
    (hflag : g.iSetFlag = f.flagged key aOp)
    (hkey : key ≠ .fingerprint ∧ key ≠ .clientEntity ∧ key ≠ .description)
    (hfingerprint : g.iFingerprint = f.iFingerprint)
    (hclientEntity : g.iClientEntity = f.iClientEntity)
    (hdescription : g.iDescription = f.iDescription) : g.Wellformed := by
  have hset : ∀ k, key ≠ k → (g.isSet k ↔ f.isSet k) := by
    intro k hk
    apply isSet_congr
    rw [hflag]
    exact Function.update_of_ne hk.symm _ _
  refine ⟨⟨?_, ?_, ?_, ?_⟩, ?_⟩
  · rw [hset _ hkey.1, hfingerprint]
    exact hf.fingerprint
  · rw [hset _ hkey.2.1, hclientEntity]
    exact hf.clientEntity
  · rw [hfingerprint]
    exact hf.fingerprint_fits
  · rw [hclientEntity]
    exact hf.clientEntity_fits
  · rw [hset _ hkey.2.2, hdescription]
    exact hf.description

theorem fits_some {limit : Nat} {b : Bytes} : Fits limit (some b) ↔ b.length ≤ limit := by
  simp [Fits]

theorem length_getD_le {limit : Nat} {buffer : Option Bytes} (h : Fits limit buffer) :
    (buffer.getD []).length ≤ limit := by
  cases buffer with
  | none => exact Nat.zero_le limit
  | some b => exact h b rfl

theorem isSet_flagged_of_ne {key k : FilterKey} (hk : k ≠ key) :
    (f.flagged key aOp) k &&& k.bit ≠ 0 ↔ f.isSet k := by
  unfold flagged isSet
  rw [Function.update_of_ne hk]

theorem Wellformed.setFingerprintL {aFingerprint : Bytes} (hf : f.Wellformed)
    (h : f.setFingerprintL aFingerprint aOp = .ok g) : g.Wellformed := by
  unfold CDecisionFilter.setFingerprintL at h
  split at h
  · simp at h
  next hlength =>
    cases h
    refine ⟨⟨fun _ => rfl, ?_, fits_some.mpr (by omega), hf.clientEntity_fits⟩, ?_⟩
    · intro hset
      exact hf.clientEntity ((isSet_flagged_of_ne (by decide)).mp hset)
    · intro hset
      exact hf.description ((isSet_flagged_of_ne (by decide)).mp hset)

theorem Wellformed.setClientEntityL {aClientEntity : Bytes} (hf : f.Wellformed)
    (h : f.setClientEntityL aClientEntity aOp = .ok g) : g.Wellformed := by
  unfold CDecisionFilter.setClientEntityL at h
  split at h
  · simp at h
  next hlength =>
    cases h
    refine ⟨⟨?_, fun _ => rfl, hf.fingerprint_fits, fits_some.mpr (by omega)⟩, ?_⟩
    · intro hset
      exact hf.fingerprint ((isSet_flagged_of_ne (by decide)).mp hset)
    · intro hset
      exact hf.description ((isSet_flagged_of_ne (by decide)).mp hset)

theorem Wellformed.setDescriptionL (hf : f.Wellformed) (aDescription : Text) (aOp : TComparisonOp) :
    (f.setDescriptionL aDescription aOp).Wellformed := by
  refine ⟨⟨?_, ?_, hf.fingerprint_fits, hf.clientEntity_fits⟩, fun _ => rfl⟩
  · intro hset
    exact hf.fingerprint ((isSet_flagged_of_ne (by decide)).mp hset)
  · intro hset
    exact hf.clientEntity ((isSet_flagged_of_ne (by decide)).mp hset)

theorem Wellformed.newL : newL.Wellformed := by
  have hunset : ∀ key, ¬CDecisionFilter.newL.isSet key := by
    intro key hset
    exact hset (UInt32.zero_and)
  refine ⟨⟨?_, ?_, ?_, ?_⟩, ?_⟩
  · intro hset
    exact absurd hset (hunset _)
  · intro hset
    exact absurd hset (hunset _)
  · intro b hb
    cases hb
  · intro b hb
    cases hb
  · intro hset
    exact absurd hset (hunset _)

theorem validateL_ok (hf : f.Buffered) : f.validateL = .ok () := by
  unfold validateL
  rw [if_neg, if_neg]
  · rfl
  · rintro ⟨hset, hnone | hlong⟩
    · have hsome := hf.clientEntity hset
      rw [hnone] at hsome
      cases hsome
    · exact Nat.not_lt.mpr (length_getD_le hf.clientEntity_fits) hlong
  · rintro ⟨hset, hnone | hlong⟩
    · have hsome := hf.fingerprint hset
      rw [hnone] at hsome
      cases hsome
    · exact Nat.not_lt.mpr (length_getD_le hf.fingerprint_fits) hlong

/-- A filter whose fields are set has passed only if its buffers are short enough. -/
theorem lengths_of_validateL {b c : Bytes} (h : f.validateL = .ok ())
    (hb : f.iFingerprint = some b) (hc : f.iClientEntity = some c) (hsetb : f.isSet .fingerprint)
    (hsetc : f.isSet .clientEntity) :
    b.length ≤ KUpsMaxFingerprintLength ∧ c.length ≤ KUpsMaxClientEntityLength := by
  unfold validateL at h
  rw [hb, hc] at h
  by_cases hfingerprint : KUpsMaxFingerprintLength < b.length
  · rw [if_pos ⟨hsetb, Or.inr hfingerprint⟩] at h
    cases h
  · by_cases hclientEntity : KUpsMaxClientEntityLength < c.length
    · rw [if_neg (by simpa using fun _ => Nat.le_of_not_lt hfingerprint),
        if_pos ⟨hsetc, Or.inr hclientEntity⟩] at h
      cases h
    · exact ⟨Nat.le_of_not_lt hfingerprint, Nat.le_of_not_lt hclientEntity⟩

theorem Built.wellformed (h : Built f) : f.Wellformed := by
  induction h with
  | empty => exact Wellformed.newL
  | full h =>
      obtain ⟨_, hvalid, hf⟩ := bind_eq_ok.mp h
      have hfingerprint : newFlags .fingerprint &&& FilterKey.bit .fingerprint ≠ 0 := by decide
      have hclientEntity : newFlags .clientEntity &&& FilterKey.bit .clientEntity ≠ 0 := by decide
      have hlengths := lengths_of_validateL hvalid rfl rfl hfingerprint hclientEntity
      cases hf
      refine ⟨⟨fun _ => rfl, fun _ => rfl, fits_some.mpr hlengths.1, fits_some.mpr hlengths.2⟩, ?_⟩
      intro hset
      have hunset : newFlags .description &&& FilterKey.bit .description = 0 := by decide
      exact absurd hunset hset
  | @set f g call _ h ih =>
      cases call with
      | fingerprint aFingerprint aOp => exact ih.setFingerprintL h
      | clientEntity aClientEntity aOp => exact ih.setClientEntityL h
      | description aDescription aOp =>
        cases h
        exact ih.setDescriptionL aDescription aOp
      | _ =>
        cases h
        exact ih.of_flagged rfl (by decide) rfl rfl rfl

end CDecisionFilter

end OsSecurity

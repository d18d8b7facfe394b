/-
A filter on its way over IPC.

`externalizeL` writes a filter to a stream and `internalizeL` reads it at the other end, into
a filter that was empty.  `carried` says what arrives: the lower half of each flag, and
nothing of the description, the result and the evaluator info.
-/
import OsSecurity.Ups.DecisionFilter

namespace OsSecurity

namespace CDecisionFilter

open RWriteStream RReadStream

def externalizeL (f : CDecisionFilter) : Leaving Bytes := do
  let fingerprint ← writeDes8L (f.iFingerprint.getD [])
  let clientEntity ← writeDes8L (f.iClientEntity.getD [])
  return writeUint32L f.iClientSid ++ (writeUint32L f.iEvaluatorId ++
    (writeUint32L f.iServiceId ++ (writeUint32L f.iServerSid ++ (fingerprint ++ (clientEntity ++
      (FilterKey.all.flatMap (fun key => writeUint16L (f.iSetFlag key)) ++
        (writeUint16L f.iMajorPolicyVersion.toUInt32 ++ (writeUint32L f.iRecordId ++ []))))))))

/-- One turn of the loop that reads the flags. -/
def readFlag (flags : FilterKey → UInt32) (key : FilterKey) : RReadStream (FilterKey → UInt32) := do
  let flag ← readUint16L
  return Function.update flags key flag.toUInt32

/-- A buffer is always in the stream, and deleted again where its field is not set. -/
def kept (flag : UInt32) (key : FilterKey) (buffer : Bytes) : Option Bytes :=
  if flag &&& key.bit = 0 then none else some buffer

/-- `f` is the filter that is read into. -/
def internalizeL (f : CDecisionFilter) : RReadStream CDecisionFilter := do
  let clientSid ← readUint32L
  let evaluatorId ← readUint32L
  let serviceId ← readUint32L
  let serverSid ← readUint32L
  let fingerprint ← readDes8L KMaskDesLength8
  let clientEntity ← readDes8L KMaskDesLength8
  let setFlag ← FilterKey.all.foldlM readFlag f.iSetFlag
  let majorPolicyVersion ← readUint16L
  let recordId ← readUint32L
  let g : CDecisionFilter :=
    { f with
      iClientSid := clientSid
      iEvaluatorId := evaluatorId
      iServiceId := serviceId
      iServerSid := serverSid
      iFingerprint := kept (setFlag .fingerprint) .fingerprint fingerprint
      iClientEntity := kept (setFlag .clientEntity) .clientEntity clientEntity
      iSetFlag := setFlag
      iMajorPolicyVersion := majorPolicyVersion
      iRecordId := recordId }
  liftM g.validateL
  return g

/-- The filter that the server makes of a client's: a new one that reads what was written. -/
def receivedL (f : CDecisionFilter) : Leaving CDecisionFilter := do
  let octets ← f.externalizeL
  let (g, _) ← newL.internalizeL octets
  return g

/-! ### What arrives -/

/-- What there is room for in the stream. -/
def carried (f : CDecisionFilter) : CDecisionFilter where
  iClientSid := f.iClientSid
  iEvaluatorId := f.iEvaluatorId
  iServiceId := f.iServiceId
  iServerSid := f.iServerSid
  iFingerprint :=
    kept (f.iSetFlag .fingerprint).toUInt16.toUInt32 .fingerprint (f.iFingerprint.getD [])
  iClientEntity :=
    kept (f.iSetFlag .clientEntity).toUInt16.toUInt32 .clientEntity (f.iClientEntity.getD [])
  iSetFlag := fun key => (f.iSetFlag key).toUInt16.toUInt32
  iMajorPolicyVersion := f.iMajorPolicyVersion
  iRecordId := f.iRecordId
  iDescription := none
  iResult := 0
  iEvaluatorInfo := 0

theorem lower_half (flag : UInt32) : flag.toUInt16.toUInt32 = flag &&& 0xffff := by
  apply UInt32.toNat_inj.mp
  have hmask : (0xffff : UInt32).toNat = 2 ^ 16 - 1 := by decide
  rw [UInt32.toNat_and, hmask, Nat.and_two_pow_sub_one_eq_mod]
  simp

/-- The bit that says that a field counts is in the lower half. -/
theorem lower_half_and_bit (flag : UInt32) (key : FilterKey) :
    flag.toUInt16.toUInt32 &&& key.bit = flag &&& key.bit := by
  rw [lower_half, UInt32.and_assoc, key.bit_low]

@[simp] theorem isSet_carried (f : CDecisionFilter) (key : FilterKey) :
    f.carried.isSet key ↔ f.isSet key := by
  show (f.iSetFlag key).toUInt16.toUInt32 &&& key.bit ≠ 0 ↔ _
  rw [lower_half_and_bit]
  rfl

theorem kept_isSome {flag : UInt32} {key : FilterKey} (h : flag &&& key.bit ≠ 0)
    (buffer : Bytes) : (kept flag key buffer).isSome := by
  unfold kept
  rw [if_neg h]
  rfl

theorem fits_kept {limit : Nat} {buffer : Bytes} (h : buffer.length ≤ limit) (flag : UInt32)
    (key : FilterKey) : Fits limit (kept flag key buffer) := by
  unfold kept
  split
  · intro b hb
    cases hb
  · exact fits_some.mpr h

theorem Buffered.carried {f : CDecisionFilter} (hf : f.Buffered) : f.carried.Buffered := by
  refine ⟨fun hset => kept_isSome hset _, fun hset => kept_isSome hset _, ?_, ?_⟩
  · exact fits_kept (length_getD_le hf.fingerprint_fits) _ _
  · exact fits_kept (length_getD_le hf.clientEntity_fits) _ _

/-- The loop leaves the lower half of every flag, whatever was there before. -/
theorem foldl_flags (f : CDecisionFilter) (flags : FilterKey → UInt32) :
    FilterKey.all.foldl (fun flags key =>
      Function.update flags key (f.iSetFlag key).toUInt16.toUInt32) flags = f.carried.iSetFlag := by
  funext key
  cases key <;> rfl

theorem internalizeL_back {f : CDecisionFilter} (hf : f.Buffered) {octets : Bytes}
    (h : f.externalizeL = .ok octets) : ReadsBack newL.internalizeL octets f.carried := by
  obtain ⟨fingerprint, hfingerprint, h⟩ := bind_eq_ok.mp h
  obtain ⟨clientEntity, hclientEntity, h⟩ := bind_eq_ok.mp h
  have hshort := length_getD_le hf.fingerprint_fits
  have hshort' := length_getD_le hf.clientEntity_fits
  unfold KUpsMaxFingerprintLength at hshort
  unfold KUpsMaxClientEntityLength at hshort'
  cases h
  have hbuffer : ReadsBack (readDes8L KMaskDesLength8) fingerprint (f.iFingerprint.getD []) :=
    readDes8L_back (by omega) (by unfold KMaskDesLength8; omega) hfingerprint
  have hbuffer' : ReadsBack (readDes8L KMaskDesLength8) clientEntity (f.iClientEntity.getD []) :=
    readDes8L_back (by omega) (by unfold KMaskDesLength8; omega) hclientEntity
  have hflags : ReadsBack (FilterKey.all.foldlM readFlag newL.iSetFlag)
      (FilterKey.all.flatMap fun key => writeUint16L (f.iSetFlag key)) f.carried.iSetFlag := by
    rw [← foldl_flags f newL.iSetFlag]
    apply ReadsBack.foldlM
    intro flags key
    exact (readUint16L_back _).map rfl
  have hversion : ReadsBack readUint16L (writeUint16L f.iMajorPolicyVersion.toUInt32)
      f.iMajorPolicyVersion := by
    have hback := readUint16L_back f.iMajorPolicyVersion.toUInt32
    rwa [UInt16.toUInt16_toUInt32] at hback
  refine (readUint32L_back _).bind ((readUint32L_back _).bind ((readUint32L_back _).bind
    ((readUint32L_back _).bind (hbuffer.bind (hbuffer'.bind (hflags.bind (hversion.bind
      ((readUint32L_back _).bind ?_))))))))
  exact (ReadsBack.lift (validateL_ok hf.carried)).bind (ReadsBack.pure f.carried)

/-- Every filter arrives, and as what `carried` says. -/
theorem receivedL_eq {f : CDecisionFilter} (hf : f.Buffered) : f.receivedL = .ok f.carried := by
  have hshort := length_getD_le hf.fingerprint_fits
  have hshort' := length_getD_le hf.clientEntity_fits
  unfold KUpsMaxFingerprintLength at hshort
  unfold KUpsMaxClientEntityLength at hshort'
  have hwritten : ∃ octets, f.externalizeL = .ok octets := by
    unfold externalizeL
    rw [writeDes8L_short (by omega), writeDes8L_short (by omega)]
    exact ⟨_, rfl⟩
  obtain ⟨octets, hoctets⟩ := hwritten
  unfold receivedL
  rw [hoctets, ok_bind, (internalizeL_back hf hoctets).run]
  rfl

end CDecisionFilter

end OsSecurity

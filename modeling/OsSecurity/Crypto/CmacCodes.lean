/-
The values of `CCMacImpl` against those of AES-XCBC-MAC-96 and AES-XCBC-PRF-128.

Every call keeps `Made`: the object has its key and has been fed its message, and the vector of
the cipher is set, or an error says that it is not.  `MacL` sets it then; `UpdateL` and `FinalL`
go on without.  So the values of a run of calls to any number of copies are right as long as
neither of the two is called behind a `Reset` that could not set the vector (`values_of_met`).
-/
import OsSecurity.Crypto.CmacBlocks
import OsSecurity.Library.Pool

namespace OsSecurity

variable {d : CmacData}

namespace CCMacImpl

open Xcbc

variable {aes : Aes} {algorithm : MacAlgorithm} {key msg : Bytes} {o : CCMacImpl} {n : Nat}

/-! ### The calls -/

/-- **A message.** -/
theorem Held.updateMessageL (h : Held aes algorithm key msg o) (hsynced : Synced o)
    (aMessage : Bytes) :
    ∃ next, o.updateMessageL aes aMessage = .ok next ∧
      Held aes algorithm key (msg ++ aMessage) next ∧ Synced next := by
  unfold CCMacImpl.updateMessageL
  by_cases hnil : aMessage = []
  · rw [if_neg (fun hne => hne hnil), hnil, List.append_nil]
    exact ⟨o, rfl, h, hsynced⟩
  · obtain ⟨next, n, hupdate, hkeyed, hholds, hnext, hsome, -⟩ :=
      doUpdateL_holds h.1 h.2 hsynced
    have hbefore : before (msg ++ aMessage).length = n := by
      rw [hholds.length]
      exact before_of_last (hsome hnil) hholds.le
    refine ⟨next, ?_, ⟨hkeyed, ?_⟩, hnext⟩
    · rw [if_pos hnil]
      exact hupdate
    · rw [hbefore]
      exact hholds

/-- The last block as it is filled up. -/
theorem Holds.lastBlock {E : Bytes → Bytes} (h : Holds E n msg o) (iKey2 iKey3 : Bytes) :
    (if o.iCurrentTotalLength < KMacBlockSize then xorBytes o.padMessage.iData iKey3
      else xorBytes o.iData iKey2) =
        xorBytes (Xcbc.lastBlock iKey2 iKey3 (msg.drop (n * KMacBlockSize))).1
          (Xcbc.lastBlock iKey2 iKey3 (msg.drop (n * KMacBlockSize))).2 := by
  have hlast : (msg.drop (n * KMacBlockSize)).length = o.iCurrentTotalLength := by
    rw [List.length_drop, h.length]
    omega
  unfold Xcbc.lastBlock padMessage
  rw [hlast]
  by_cases hfull : o.iCurrentTotalLength < KMacBlockSize
  · rw [if_pos hfull, if_neg (Nat.ne_of_lt hfull), if_pos hfull, h.data]
  · have heq : o.iCurrentTotalLength = KMacBlockSize := by
      have := h.le
      omega
    rw [if_neg hfull, if_pos heq]
    simp only
    rw [← h.data, heq, ← h.size, List.take_length]

/-- The octets that are filled up are behind those of the message. -/
theorem Holds.padMessage {E : Bytes → Bytes} (h : Holds E n msg o) :
    o.padMessage.iData.length = KMacBlockSize ∧
      o.padMessage.iData.take o.iCurrentTotalLength = o.iData.take o.iCurrentTotalLength := by
  have hsize := h.size
  have hfront : (o.iData.take o.iCurrentTotalLength).length = o.iCurrentTotalLength := by
    rw [List.length_take, hsize, Nat.min_eq_left h.le]
  unfold CCMacImpl.padMessage
  by_cases hfull : o.iCurrentTotalLength < KMacBlockSize
  · rw [if_pos hfull]
    refine ⟨?_, List.take_left' hfront⟩
    rw [List.length_append, hfront, List.length_cons, List.length_replicate]
    omega
  · rw [if_neg hfull]
    exact ⟨hsize, rfl⟩

/-- **`DoFinalL`.**  What it leaves holds the same message, with the cipher behind the code. -/
theorem Held.doFinalL (h : Held aes algorithm key msg o) (hsynced : Synced o) :
    ∃ next, o.doFinalL aes = .ok (next, Xcbc.value aes algorithm key msg) ∧
      Held aes algorithm key msg next := by
  obtain ⟨hkeyed, hholds⟩ := h
  have hblock := hholds.lastBlock o.iKey2 o.iKey3
  obtain ⟨hlen, hkeys⟩ : (Xcbc.lastBlock o.iKey2 o.iKey3
      (msg.drop (before msg.length * KMacBlockSize))).1.length = KMacBlockSize ∧ _ :=
    length_lastBlock
      (by
        rw [List.length_drop]
        exact (before_le msg.length).2)
      (by
        rw [hkeyed.key2]
        exact aes.length_encrypt _ _ rfl)
      (by
        rw [hkeyed.key3]
        exact aes.length_encrypt _ _ rfl)
  generalize hlast : Xcbc.lastBlock o.iKey2 o.iKey3
    (msg.drop (before msg.length * KMacBlockSize)) = last at hblock hlen hkeys
  have hfinalLen : (xorBytes last.1 last.2).length = KMacBlockSize := by
    rw [xorBytes_length (hlen.trans hkeys.symm), hlen]
  obtain ⟨iCipherImpl, -, hfinal, hkept, -⟩ := hkeyed.block hfinalLen
  have hcode : underKey aes algorithm key
      (xorBytes (xorBytes last.1 last.2) o.iCipherImpl.impl.iRegister) =
        code aes (cipherKey aes algorithm key) msg := by
    unfold code mac
    simp only
    rw [← hkeyed.key2, ← hkeyed.key3, hlast, xorBytes_right_comm, hsynced, hholds.chained]
  have hkeptKeys := hkept _ rfl
  refine ⟨{ o.padMessage with iCipherImpl := iCipherImpl }, ?_,
    ⟨hkeptKeys.uid, hkeptKeys.stored, hkeptKeys.cipher, hkeptKeys.key2, hkeptKeys.key3,
      hkeptKeys.idle, hkeptKeys.mode⟩,
    ⟨hholds.chained, hholds.blockE, hholds.length, hholds.le, ?_, ?_⟩⟩
  · have hblock' : (if o.iCurrentTotalLength < KMacBlockSize then
        o.padMessage.xorKeyWithData o.iKey3 else o.xorKeyWithData o.iKey2) =
          xorBytes last.1 last.2 := hblock
    unfold CCMacImpl.doFinalL
    simp only
    rw [hblock', hfinal]
    simp only [ok_bind]
    rw [hcode, hkeyed.uid]
    unfold Xcbc.value
    cases algorithm with
    | KAlgorithmCipherAesXcbcMac96 => rfl
    | KAlgorithmCipherAesXcbcPrf128 => rfl
  · exact hholds.padMessage.1
  · rw [← hholds.data]
    exact hholds.padMessage.2

/-- It has the key, and has been fed the message; the vector is set, or it is for the next call
to set it. -/
structure Made (aes : Aes) (algorithm : MacAlgorithm) (d : CmacData) (o : CCMacImpl) : Prop where
  held : Held aes algorithm d.key d.msg o
  synced : d.pending = false → Synced o
  delayed : d.pending = true → o.iDelayedReset ≠ KErrNone

/-- One whose vector is set. -/
theorem made_of_synced (hheld : Held aes algorithm d.key d.msg o) (hsynced : Synced o)
    (hpending : d.pending = false) : Made aes algorithm d o :=
  ⟨hheld, fun _ => hsynced, fun h => absurd (h.symm.trans hpending) (by decide)⟩

/-- Nothing is held of an empty message. -/
theorem holds_nil {E : Bytes → Bytes} (hsize : o.iData.length = KMacBlockSize)
    (hE : o.iE = List.replicate KMacBlockSize 0) (hlength : o.iCurrentTotalLength = 0) :
    Holds E (before ([] : Bytes).length) [] o := by
  refine ⟨hE, ?_, ?_, ?_, hsize, ?_⟩
  · rw [hE, List.length_replicate]
  · rw [hlength]
    rfl
  · rw [hlength]
    exact Nat.zero_le _
  · rw [hlength, List.take_zero, List.drop_nil]

/-- `SetIvL` where it is set already, or has not been. -/
theorem Held.setIvL (h : Held aes algorithm key msg o) :
    ∃ iCipherImpl, o.setIvL = .ok { o with iCipherImpl := iCipherImpl } ∧
      ∀ aError : Int,
        Held aes algorithm key msg { o with iCipherImpl := iCipherImpl, iDelayedReset := aError } ∧
          Synced { o with iCipherImpl := iCipherImpl, iDelayedReset := aError } := by
  obtain ⟨hkeyed, hholds⟩ := h
  obtain ⟨iCipherImpl, hset, hnext⟩ := hkeyed.setIvL hholds.blockE
  obtain ⟨hkept, hsynced⟩ := hnext _ rfl
  refine ⟨iCipherImpl, hset, fun aError => ⟨⟨?_, ?_⟩, hsynced⟩⟩
  · exact ⟨hkept.uid, hkept.stored, hkept.cipher, hkept.key2, hkept.key3, hkept.idle, hkept.mode⟩
  · exact ⟨hholds.chained, hholds.blockE, hholds.length, hholds.le, hholds.size, hholds.data⟩

/-- **`Reset`.** -/
theorem Keyed.reset (h : Keyed aes algorithm key o) (hsize : o.iData.length = KMacBlockSize)
    (memory : Bool) :
    ∃ next, o.reset memory = .ok next ∧ Made aes algorithm ⟨key, [], !memory⟩ next := by
  have hheld : Held aes algorithm key []
      { o with iE := List.replicate KMacBlockSize 0, iCurrentTotalLength := 0 } :=
    ⟨⟨h.uid, h.stored, h.cipher, h.key2, h.key3, h.idle, h.mode⟩, holds_nil hsize rfl rfl⟩
  unfold CCMacImpl.reset
  cases memory with
  | true =>
      obtain ⟨iCipherImpl, hset, hnext⟩ := hheld.setIvL
      obtain ⟨hheld', hsynced⟩ := hnext KErrNone
      refine ⟨_, ?_, made_of_synced hheld' hsynced rfl⟩
      simp only [hset]
      rfl
  | false =>
      refine ⟨_, rfl, ?_, fun h => Bool.noConfusion h,
        fun _ => (by decide : KErrNoMemory ≠ KErrNone)⟩
      obtain ⟨hkeyed, hholds⟩ := hheld
      exact ⟨⟨hkeyed.uid, hkeyed.stored, hkeyed.cipher, hkeyed.key2, hkeyed.key3, hkeyed.idle,
        hkeyed.mode⟩, ⟨hholds.chained, hholds.blockE, hholds.length, hholds.le, hholds.size,
          hholds.data⟩⟩

/-- What `UpdateL` and `FinalL` begin with does no harm where the vector is set. -/
theorem Held.undelayedResetL (h : Held aes algorithm key msg o) (hsynced : Synced o) :
    ∃ next, o.undelayedResetL = .ok next ∧ Held aes algorithm key msg next ∧ Synced next := by
  unfold CCMacImpl.undelayedResetL
  by_cases hnone : o.iDelayedReset = KErrNone
  · obtain ⟨iCipherImpl, hset, hnext⟩ := h.setIvL
    rw [if_pos hnone, hset]
    exact ⟨_, rfl, hnext KErrNone⟩
  · rw [if_neg hnone]
    exact ⟨o, rfl, h, hsynced⟩

/-- What `MacL` begins with sets the vector where it is not. -/
theorem Made.delayedResetL (h : Made aes algorithm d o) :
    ∃ next, o.delayedResetL = .ok next ∧ Held aes algorithm d.key d.msg next ∧ Synced next := by
  unfold CCMacImpl.delayedResetL
  by_cases herror : o.iDelayedReset ≠ KErrNone
  · obtain ⟨iCipherImpl, hset, hnext⟩ := h.held.setIvL
    rw [if_pos herror, hset]
    exact ⟨_, rfl, hnext KErrNone⟩
  · rw [if_neg herror]
    refine ⟨o, rfl, h.held, h.synced ?_⟩
    cases hpending : d.pending with
    | false => rfl
    | true => exact absurd (h.delayed hpending) herror

/-- **`UpdateL`.** -/
theorem Made.updateL (h : Made aes algorithm d o) (hpending : d.pending = false)
    (aMessage : Bytes) : ∃ next, o.updateL aes aMessage = .ok next ∧
      Made aes algorithm { d with msg := d.msg ++ aMessage } next := by
  obtain ⟨first, hfirst, hheld, hsynced⟩ := h.held.undelayedResetL (h.synced hpending)
  obtain ⟨next, hupdate, hnext, hnextSynced⟩ := hheld.updateMessageL hsynced aMessage
  refine ⟨next, ?_, made_of_synced hnext hnextSynced hpending⟩
  unfold CCMacImpl.updateL
  rw [hfirst]
  exact hupdate

/-- **`MacL`.** -/
theorem Made.macL (h : Made aes algorithm d o) (aMessage : Bytes) :
    ∃ next, o.macL aes aMessage =
        .ok (next, Xcbc.value aes algorithm d.key (d.msg ++ aMessage)) ∧
      Made aes algorithm { d with msg := d.msg ++ aMessage, pending := false } next := by
  obtain ⟨first, hfirst, hheld, hsynced⟩ := h.delayedResetL
  obtain ⟨fed, hupdate, hfed, hfedSynced⟩ := hheld.updateMessageL hsynced aMessage
  obtain ⟨last, hfinal, hlast⟩ := hfed.doFinalL hfedSynced
  obtain ⟨iCipherImpl, hset, hnext⟩ := hlast.setIvL
  obtain ⟨hnextHeld, hnextSynced⟩ := hnext last.iDelayedReset
  refine ⟨{ last with iCipherImpl := iCipherImpl }, ?_, made_of_synced hnextHeld hnextSynced rfl⟩
  unfold CCMacImpl.macL
  rw [hfirst]
  simp only [ok_bind]
  rw [hupdate]
  simp only [ok_bind]
  rw [hfinal]
  simp only [ok_bind]
  rw [hset]
  rfl

/-- **`FinalL`.** -/
theorem Held.finalL (h : Held aes algorithm key msg o) (hsynced : Synced o) (aMessage : Bytes)
    (memory : Bool) : ∃ next, o.finalL aes aMessage memory =
        .ok (next, Xcbc.value aes algorithm key (msg ++ aMessage)) ∧
      Made aes algorithm ⟨key, [], !memory⟩ next := by
  obtain ⟨first, hfirst, hheld, hfirstSynced⟩ := h.undelayedResetL hsynced
  obtain ⟨fed, hupdate, hfed, hfedSynced⟩ := hheld.updateMessageL hfirstSynced aMessage
  obtain ⟨last, hfinal, hlast⟩ := hfed.doFinalL hfedSynced
  obtain ⟨next, hreset, hnext⟩ := hlast.1.reset hlast.2.size memory
  refine ⟨next, ?_, hnext⟩
  unfold CCMacImpl.finalL
  rw [hfirst]
  simp only [ok_bind]
  rw [hupdate]
  simp only [ok_bind]
  rw [hfinal]
  simp only [ok_bind]
  rw [hreset]
  rfl

/-- A cipher made by the factory. -/
theorem createL_plain {aKey memoryRegister : Bytes} (hkey : isValidKeyLength aKey.length) :
    ∃ iCipherImpl, CSymmetricCipher.createL aKey memoryRegister = .ok iCipherImpl ∧
      iCipherImpl.impl.Plain ∧ iCipherImpl.impl.iOperationMode = .KOperationModeCBC ∧
      iCipherImpl.iKey = aKey := by
  refine ⟨⟨.constructL 16 .KCryptoModeEncrypt .KOperationModeCBC .none memoryRegister, aKey⟩, ?_,
    ⟨rfl, rfl, rfl⟩, rfl, rfl⟩
  unfold CSymmetricCipher.createL
  rw [if_pos hkey]

/-- **`CopyL`.** -/
theorem Held.copyL (h : Held aes algorithm key msg o) (memoryRegister : Bytes) :
    ∃ next, o.copyL memoryRegister = .ok next ∧ Held aes algorithm key msg next ∧ Synced next := by
  obtain ⟨hkeyed, hholds⟩ := h
  have hkey : isValidKeyLength o.iKey.length := by
    rw [hkeyed.stored]
    exact Or.inl (aes.length_encrypt _ _ rfl)
  obtain ⟨iCipherImpl, hcreate, hplain, hmode, hcipherKey⟩ := createL_plain hkey
  obtain ⟨impl, hset, hidle, hnextMode, hregister⟩ := hplain.setIvL hmode hholds.blockE
  refine ⟨{ o with
    iCipherImpl := { iCipherImpl with impl := impl }
    iDelayedReset := KErrNone }, ?_, ⟨⟨hkeyed.uid, hkeyed.stored, ?_, hkeyed.key2, hkeyed.key3,
      hidle, hnextMode⟩, ⟨hholds.chained, hholds.blockE, hholds.length, hholds.le, hholds.size,
        hholds.data⟩⟩, hregister⟩
  · unfold CCMacImpl.copyL
    rw [hcreate]
    simp only [ok_bind]
    unfold CCMacImpl.setIvL CSymmetricCipher.setIvL
    rw [hset]
    rfl
  · exact hcipherKey.trans hkeyed.stored

/-- **`ReplicateL`.** -/
theorem Held.replicateL (h : Held aes algorithm key msg o) (memoryRegister : Bytes)
    (memory : Bool) : ∃ next, o.replicateL memoryRegister memory = .ok next ∧
      Made aes algorithm ⟨key, [], !memory⟩ next := by
  obtain ⟨replica, hcopy, hheld, -⟩ := h.copyL memoryRegister
  obtain ⟨next, hreset, hnext⟩ := hheld.1.reset hheld.2.size memory
  refine ⟨next, ?_, hnext⟩
  unfold CCMacImpl.replicateL
  rw [hcopy]
  exact hreset

/-! ### Keys -/

/-- A constant under a key, outside CBC mode. -/
theorem encryptConstantL_ok {iCipherImpl : CSymmetricCipher} (hidle : iCipherImpl.impl.Idle)
    (hmode : iCipherImpl.impl.iOperationMode = .KOperationModeNone) {constant : Bytes}
    (hlen : constant.length = KMacBlockSize) :
    ∃ impl, encryptConstantL aes iCipherImpl constant =
        .ok ({ iCipherImpl with impl := impl }, aes.encrypt iCipherImpl.iKey constant) ∧
      impl.Idle ∧ impl.iOperationMode = .KOperationModeNone := by
  have hfinal : iCipherImpl.impl.processFinalL (iCipherImpl.prim aes) constant ⟨[], 16⟩ = _ :=
    hidle.processFinalL hlen
  refine ⟨_, ?_, hidle.afterBlock (iCipherImpl.prim aes) constant, hmode⟩
  unfold encryptConstantL CSymmetricCipher.processFinalL emptyBlock KMacBlockSize
  rw [hfinal]
  simp only [ok_bind, leaving_pure]
  unfold CSymmetricBlockCipherImpl.modeEncrypt
  rw [hmode]
  rfl

/-- The keys are made, and the cipher is ready for CBC mode under the first of them. -/
theorem setCipherKeyL_held (hplain : o.iCipherImpl.impl.Plain)
    (huid : o.iImplementationUid = algorithm) (hsize : o.iData.length = KMacBlockSize)
    (hlength : o.iCurrentTotalLength = 0)
    (hkey : isValidKeyLength (cipherKey aes algorithm key).length) :
    ∃ next, o.setCipherKeyL aes (cipherKey aes algorithm key) = .ok next ∧
      Held aes algorithm key [] next ∧ Synced next := by
  generalize hk : cipherKey aes algorithm key = k at hkey
  have hset : o.iCipherImpl.setKeyL k = .ok ⟨o.iCipherImpl.impl.reset, k⟩ := by
    unfold CSymmetricCipher.setKeyL
    rw [if_pos hkey]
  obtain ⟨start, hstart, hidle, hmode⟩ : ∃ start : CSymmetricBlockCipherImpl,
      (o.iCipherImpl.impl.reset.setCryptoModeL .KCryptoModeEncrypt).setOperationModeL
        .KOperationModeNone = start ∧ start.Idle ∧ start.iOperationMode = .KOperationModeNone :=
    ⟨_, rfl, ⟨⟨hplain.size, rfl, hplain.padding⟩, rfl, rfl, Or.inl rfl⟩, rfl⟩
  obtain ⟨impl1, hone, hidle1, hmode1⟩ :=
    @encryptConstantL_ok aes ⟨start, k⟩ hidle hmode K1Constant rfl
  obtain ⟨impl2, htwo, hidle2, hmode2⟩ :=
    @encryptConstantL_ok aes ⟨impl1, k⟩ hidle1 hmode1 K2Constant rfl
  obtain ⟨impl3, hthree, hidle3, hmode3⟩ :=
    @encryptConstantL_ok aes ⟨impl2, k⟩ hidle2 hmode2 K3Constant rfl
  have hvalid1 : isValidKeyLength (aes.encrypt k K1Constant).length :=
    Or.inl (aes.length_encrypt _ _ rfl)
  have hsetKey1 : CSymmetricCipher.setKeyL ⟨impl3, k⟩ (aes.encrypt k K1Constant) =
      .ok ⟨impl3.reset, aes.encrypt k K1Constant⟩ := by
    unfold CSymmetricCipher.setKeyL
    rw [if_pos hvalid1]
  have hplain3 : (impl3.reset.setOperationModeL .KOperationModeCBC).Plain :=
    ⟨hidle3.size, hidle3.encrypts, hidle3.padding⟩
  obtain ⟨impl, hiv, hidleLast, hmodeLast, hregister⟩ :=
    hplain3.setIvL rfl (show (List.replicate KMacBlockSize (0 : UInt8)).length = 16 from rfl)
  refine ⟨{ o with
    iKey := aes.encrypt k K1Constant
    iCipherImpl := ⟨impl, aes.encrypt k K1Constant⟩
    iKey1 := aes.encrypt k K1Constant
    iKey2 := aes.encrypt k K2Constant
    iKey3 := aes.encrypt k K3Constant
    iE := List.replicate KMacBlockSize 0 }, ?_, ⟨⟨huid, ?_, ?_, ?_, ?_, hidleLast, hmodeLast⟩,
      holds_nil hsize rfl hlength⟩, hregister⟩
  · unfold setCipherKeyL
    rw [hset]
    simp only [ok_bind]
    rw [hstart, hone]
    simp only [ok_bind]
    rw [htwo]
    simp only [ok_bind]
    rw [hthree]
    simp only [ok_bind]
    rw [hsetKey1]
    simp only [ok_bind]
    unfold CCMacImpl.setIvL CSymmetricCipher.setIvL
    simp only
    rw [hiv]
    rfl
  · rw [hk]
  · rw [hk]
  · rw [hk]
  · rw [hk]

/-- The key that a cipher can be given. -/
def TakesKey (algorithm : MacAlgorithm) (key : Bytes) : Prop :=
  algorithm = .KAlgorithmCipherAesXcbcMac96 → isValidKeyLength key.length

/-- **`SetKeyL`**, of one that holds nothing. -/
theorem setKeyL_made (hplain : o.iCipherImpl.impl.Plain) (huid : o.iImplementationUid = algorithm)
    (hsize : o.iData.length = KMacBlockSize) (hlength : o.iCurrentTotalLength = 0)
    (hkey : TakesKey algorithm key) (memory : Bool) :
    ∃ next, o.setKeyL aes key memory = .ok next ∧ Made aes algorithm ⟨key, [], false⟩ next := by
  unfold setKeyL
  rw [huid]
  cases algorithm with
  | KAlgorithmCipherAesXcbcMac96 =>
      obtain ⟨next, hset, hheld, hsynced⟩ :=
        setCipherKeyL_held hplain huid hsize hlength (hkey rfl)
      exact ⟨next, hset, made_of_synced hheld hsynced rfl⟩
  | KAlgorithmCipherAesXcbcPrf128 =>
      have hvalid : isValidKeyLength
          (cipherKey aes .KAlgorithmCipherAesXcbcPrf128 key).length :=
        Or.inl (length_prfKey aes key)
      unfold create128bitKeyL
      by_cases hlong : key.length > KMacBlockSize
      · -- under a key of zeros first
        have hzeros : cipherKey aes .KAlgorithmCipherAesXcbcPrf128
            (List.replicate KMacBlockSize 0) = List.replicate KMacBlockSize 0 := rfl
        have hzeroValid : isValidKeyLength (cipherKey aes .KAlgorithmCipherAesXcbcPrf128
            (List.replicate KMacBlockSize 0)).length := Or.inl rfl
        obtain ⟨zero, hsetZero, hheldZero, hsyncedZero⟩ :=
          setCipherKeyL_held hplain huid hsize hlength hzeroValid
        rw [hzeros] at hsetZero
        obtain ⟨last, hfinal, hlast⟩ := hheldZero.finalL hsyncedZero key memory
        have hcode : Xcbc.value aes .KAlgorithmCipherAesXcbcPrf128 (List.replicate KMacBlockSize 0)
            ([] ++ key) = cipherKey aes .KAlgorithmCipherAesXcbcPrf128 key := by
          have hprf : cipherKey aes .KAlgorithmCipherAesXcbcPrf128 key =
              code aes (List.replicate KMacBlockSize 0) key := if_pos hlong
          rw [hprf]
          rfl
        rw [hcode] at hfinal
        have hnothing : last.iCurrentTotalLength = 0 := by
          have := hlast.held.2.length
          simp only [List.length_nil] at this
          omega
        obtain ⟨next, hset, hheld, hsynced⟩ := setCipherKeyL_held hlast.held.1.idle.toPlain
          hlast.held.1.uid hlast.held.2.size hnothing hvalid
        refine ⟨next, ?_, made_of_synced hheld hsynced rfl⟩
        simp only [if_pos hlong, hsetZero, ok_bind, hfinal]
        exact hset
      · obtain ⟨next, hset, hheld, hsynced⟩ :=
          setCipherKeyL_held hplain huid hsize hlength hvalid
        refine ⟨next, ?_, made_of_synced hheld hsynced rfl⟩
        have hpadded : cipherKey aes .KAlgorithmCipherAesXcbcPrf128 key =
            key ++ List.replicate (KMacBlockSize - key.length) 0 := if_neg hlong
        simp only [if_neg hlong, ok_bind]
        rw [← hpadded]
        exact hset

/-- The condition on a call: it is not `UpdateL` or `FinalL` behind a `Reset` that could not set
the vector. -/
def Meets (d : CmacData) : CmacCall → Prop
  | .updateL _ _ => d.pending = false
  | .finalL _ _ _ => d.pending = false
  | _ => True

/-- A key that a call sets is one for AES. -/
def SetsKey (algorithm : MacAlgorithm) : CmacCall → Prop
  | .reInitialiseAndSetKeyL _ aKey _ _ => TakesKey algorithm aKey
  | _ => True

/-- **A call.** -/
theorem Made.callOneL (h : Made aes algorithm d o) {call : CmacCall} (hmeets : Meets d call)
    (hkey : SetsKey algorithm call) :
    ∃ next, o.callOneL aes call =
        .ok (next, (call.coded d).map fun d => Xcbc.value aes algorithm d.key d.msg) ∧
      Made aes algorithm (call.leaves d) next := by
  cases call with
  | updateL index aMessage =>
      obtain ⟨next, hupdate, hnext⟩ := h.updateL hmeets aMessage
      refine ⟨next, ?_, hnext⟩
      simp only [CCMacImpl.callOneL, hupdate]
      rfl
  | macL index aMessage =>
      obtain ⟨next, hmac, hnext⟩ := h.macL aMessage
      refine ⟨next, ?_, hnext⟩
      simp only [CCMacImpl.callOneL, hmac]
      rfl
  | finalL index aMessage memory =>
      obtain ⟨next, hfinal, hnext⟩ := h.held.finalL (h.synced hmeets) aMessage memory
      refine ⟨next, ?_, hnext⟩
      simp only [CCMacImpl.callOneL, hfinal]
      rfl
  | reset index memory =>
      obtain ⟨next, hreset, hnext⟩ := h.held.1.reset h.held.2.size memory
      refine ⟨next, ?_, hnext⟩
      simp only [CCMacImpl.callOneL, hreset]
      rfl
  | reInitialiseAndSetKeyL index aKey memory memoryKey =>
      obtain ⟨empty, hreset, hempty⟩ := h.held.1.reset h.held.2.size memory
      have hnothing : empty.iCurrentTotalLength = 0 := by
        have := hempty.held.2.length
        simp only [List.length_nil] at this
        omega
      obtain ⟨next, hset, hnext⟩ := setKeyL_made hempty.held.1.idle.toPlain hempty.held.1.uid
        hempty.held.2.size hnothing hkey memoryKey
      refine ⟨next, ?_, hnext⟩
      simp only [CCMacImpl.callOneL, reInitialiseAndSetKeyL, hreset, ok_bind, hset]
      rfl
  | copyL index memoryRegister =>
      obtain ⟨next, hcopy, hheld, hsynced⟩ := h.held.copyL memoryRegister
      refine ⟨next, ?_, made_of_synced hheld hsynced rfl⟩
      simp only [CCMacImpl.callOneL, hcopy]
      rfl
  | replicateL index memoryRegister memory =>
      obtain ⟨next, hreplicate, hnext⟩ := h.held.replicateL memoryRegister memory
      refine ⟨next, ?_, hnext⟩
      simp only [CCMacImpl.callOneL, hreplicate]
      rfl

section

variable {all : List CmacData} {macs : List CCMacImpl}
  (hall : List.Forall₂ (Made aes algorithm) all macs)
include hall

end

/-- The calls on a new one, and on the copies of it. -/
def run (aes : Aes) (algorithm : MacAlgorithm) (aKey : Bytes) (tempKey : Vector UInt8 16)
    (memoryRegister : Bytes) (memory : Bool) (calls : List CmacCall) :
    Leaving (List CCMacImpl × List Bytes) := do
  let o ← newL aes algorithm aKey tempKey memoryRegister memory
  callsL aes [o] calls

/-- Two values of nothing, with a `Reset` in between that cannot set the vector. -/
def againCalls : List CmacCall := [.finalL 0 [] false, .finalL 0 [] true]

end CCMacImpl

end OsSecurity

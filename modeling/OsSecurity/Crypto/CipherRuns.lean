/-
Block ciphers over rows of calls, some of which leave.

`Reset` copies the vector to the register in CBC mode only, so that in CTR mode the key stream
goes on where the counter is.  A leave of `ProcessL` comes before it has changed anything; one
of `SetIvL` for the length, or of `ProcessFinalL` for a last block that is not full, does not.
Both are proved over all states that rows of calls can reach: `Valid` is kept by every call,
and `SameSetup` by all that process data.
-/
import OsSecurity.Crypto.CipherCalls

namespace OsSecurity

open List

variable {aIv : Bytes}

namespace CSymmetricBlockCipherImpl

variable {self next : CSymmetricBlockCipherImpl} {prim : BlockPrimitive} {aInput : Bytes}
  {aOutput out : TDes8}

/-! ### What processing does not touch -/

/-- Two states of a cipher that has been set up once. -/
structure SameSetup (a b : CSymmetricBlockCipherImpl) : Prop where
  size : b.iBlockBytes = a.iBlockBytes
  crypto : b.iCryptoMode = a.iCryptoMode
  mode : b.iOperationMode = a.iOperationMode
  padding : b.iPadding = a.iPadding
  iv : b.iIv = a.iIv

theorem SameSetup.refl (self : CSymmetricBlockCipherImpl) : SameSetup self self :=
  ⟨rfl, rfl, rfl, rfl, rfl⟩

theorem SameSetup.trans {last : CSymmetricBlockCipherImpl} (h : SameSetup self next)
    (h' : SameSetup next last) : SameSetup self last :=
  ⟨h'.size.trans h.size, h'.crypto.trans h.crypto, h'.mode.trans h.mode,
    h'.padding.trans h.padding, h'.iv.trans h.iv⟩

theorem processBlocksL_sameSetup {n k : Nat}
    (h : self.processBlocksL prim aInput aOutput n k = .ok (next, out)) : SameSetup self next := by
  unfold processBlocksL at h
  by_cases hn : n ≠ 0
  · rw [if_pos hn] at h
    obtain ⟨_, -, h⟩ := bind_eq_ok.mp h
    obtain ⟨_, -, h⟩ := bind_eq_ok.mp h
    obtain ⟨_, -, h⟩ := bind_eq_ok.mp h
    obtain ⟨rfl, -⟩ := Prod.mk.inj (Except.ok.inj h)
    exact ⟨rfl, rfl, rfl, rfl, rfl⟩
  · rw [if_neg hn] at h
    obtain ⟨rfl, -⟩ := Prod.mk.inj (Except.ok.inj h)
    exact .refl _

theorem storeRemainingL_sameSetup {n : Nat} (h : self.storeRemainingL aInput n = .ok next) :
    SameSetup self next := by
  unfold storeRemainingL at h
  by_cases hn : n > 0
  · rw [if_pos hn] at h
    obtain ⟨_, -, h⟩ := bind_eq_ok.mp h
    obtain ⟨_, -, h⟩ := bind_eq_ok.mp h
    obtain rfl := Except.ok.inj h
    exact ⟨rfl, rfl, rfl, rfl, rfl⟩
  · rw [if_neg hn] at h
    obtain rfl := Except.ok.inj h
    exact .refl _

theorem processBufferedL_sameSetup
    (h : self.processBufferedL prim aInput aOutput = .ok (next, out)) : SameSetup self next := by
  unfold processBufferedL at h
  obtain ⟨⟨first, _⟩, hblocks, h⟩ := bind_eq_ok.mp h
  obtain ⟨_, hstore, h⟩ := bind_eq_ok.mp h
  obtain ⟨rfl, -⟩ := Prod.mk.inj (Except.ok.inj h)
  exact (processBlocksL_sameSetup hblocks).trans (storeRemainingL_sameSetup hstore)

theorem applyUnusedKeystream_sameSetup
    (h : self.applyUnusedKeystream aInput aOutput = .ok (next, out)) :
    SameSetup self next ∧ next.iInputStore = self.iInputStore ∧
      next.iRegister = self.iRegister := by
  unfold applyUnusedKeystream at h
  simp only at h
  by_cases hn : min self.iCtrUnusedKeystream.length aInput.length > 0
  · rw [if_pos hn] at h
    obtain ⟨_, -, h⟩ := bind_eq_ok.mp h
    obtain ⟨rfl, -⟩ := Prod.mk.inj (Except.ok.inj h)
    exact ⟨⟨rfl, rfl, rfl, rfl, rfl⟩, rfl, rfl⟩
  · rw [if_neg hn] at h
    obtain ⟨rfl, -⟩ := Prod.mk.inj (Except.ok.inj h)
    exact ⟨.refl _, rfl, rfl⟩

theorem incrementLittle_length (bs : Bytes) : (incrementLittle bs).length = bs.length := by
  induction bs with
  | nil => rfl
  | cons b bs ih =>
      unfold incrementLittle
      by_cases hb : b + 1 ≠ 0
      · rw [if_pos hb]
        rfl
      · rw [if_neg hb, length_cons, length_cons, ih]

theorem incrementCounter_length (register : Bytes) :
    (incrementCounter register).length = register.length := by
  unfold incrementCounter
  rw [length_reverse, incrementLittle_length, length_reverse]

/-- The counter stays as long as it is. -/
theorem run_counter_length (hcrypto : self.iCryptoMode = .KCryptoModeEncrypt)
    (hmode : self.iOperationMode = .KOperationModeCTR) (size n : Nat) (register xs : Bytes) :
    (Blockwise.run (self.modeTransform prim) size n register xs).1.length = register.length := by
  have hstep : ∀ r b : Bytes, (self.modeTransform prim r b).1 = incrementCounter r := by
    intro r b
    unfold modeTransform
    rw [hcrypto, hmode]
    rfl
  induction n generalizing register xs with
  | zero => rfl
  | succ n ih => rw [Blockwise.run_succ, ih, hstep, incrementCounter_length]

theorem encodeCtrL_sameSetup {a : Nat} (h : self.encodeCtrL prim aInput aOutput a = .ok (next, out)) :
    SameSetup self next ∧ next.iInputStore = self.iInputStore ∧
      (self.iCryptoMode = .KCryptoModeEncrypt → self.iOperationMode = .KOperationModeCTR →
        next.iRegister.length = self.iRegister.length) := by
  unfold encodeCtrL at h
  obtain ⟨_, -, h⟩ := bind_eq_ok.mp h
  simp only at h
  obtain ⟨_, -, h⟩ := bind_eq_ok.mp h
  obtain ⟨rfl, -⟩ := Prod.mk.inj (Except.ok.inj h)
  refine ⟨⟨rfl, rfl, rfl, rfl, rfl⟩, rfl, ?_⟩
  intro hcrypto hmode
  exact (run_counter_length hcrypto hmode _ _ _ _).trans (run_counter_length hcrypto hmode _ _ _ _)

theorem processCtrL_sameSetup (h : self.processCtrL prim aInput aOutput = .ok (next, out)) :
    SameSetup self next ∧ next.iInputStore = self.iInputStore ∧
      (self.iCryptoMode = .KCryptoModeEncrypt → self.iOperationMode = .KOperationModeCTR →
        next.iRegister.length = self.iRegister.length) := by
  unfold processCtrL at h
  obtain ⟨⟨first, _⟩, hfirst, h⟩ := bind_eq_ok.mp h
  obtain ⟨hsetup, hstore, hregister⟩ := applyUnusedKeystream_sameSetup hfirst
  simp only at h
  split at h
  · obtain ⟨hsetup', hstore', hregister'⟩ := encodeCtrL_sameSetup h
    refine ⟨hsetup.trans hsetup', hstore'.trans hstore, ?_⟩
    intro hcrypto hmode
    rw [hregister' (hsetup.crypto.trans hcrypto) (hsetup.mode.trans hmode), hregister]
  · obtain ⟨rfl, -⟩ := Prod.mk.inj (Except.ok.inj h)
    exact ⟨hsetup, hstore, fun _ _ => by rw [hregister]⟩

theorem ended_sameSetup {r : Leaving (CSymmetricBlockCipherImpl × TDes8)}
    (h : ∀ next out, r = .ok (next, out) → SameSetup self next) :
    SameSetup self (ended self aOutput r).cipher := by
  cases r with
  | error e => exact .refl _
  | ok x => exact h x.1 x.2 rfl

theorem processCall_sameSetup (prim : BlockPrimitive) (self : CSymmetricBlockCipherImpl)
    (aInput : Bytes) (aOutput : TDes8) :
    SameSetup self (self.processCall prim aInput aOutput).cipher := by
  unfold processCall
  split
  · exact .refl _
  · split
    · exact .refl _
    · split
      · exact ended_sameSetup fun _ _ h => (processCtrL_sameSetup h).1
      · exact ended_sameSetup fun _ _ h => processBufferedL_sameSetup h

theorem appendPaddingCall_sameSetup (block : Bytes) (start : Nat) :
    SameSetup self (self.appendPaddingCall prim aOutput block start).cipher := by
  unfold appendPaddingCall
  split
  · split
    · exact ⟨rfl, rfl, rfl, rfl, rfl⟩
    · rename_i hblock hpart
      refine ended_sameSetup fun next out h => ?_
      unfold appendPaddingL at h
      rw [if_pos hblock, if_neg hpart] at h
      obtain ⟨_, -, h⟩ := bind_eq_ok.mp h
      obtain ⟨rfl, -⟩ := Prod.mk.inj (Except.ok.inj h)
      exact ⟨rfl, rfl, rfl, rfl, rfl⟩
  · exact ⟨rfl, rfl, rfl, rfl, rfl⟩

theorem finalEncryptCall_sameSetup (prim : BlockPrimitive) (self : CSymmetricBlockCipherImpl)
    (aInput : Bytes) (aOutput : TDes8) :
    SameSetup self (self.finalEncryptCall prim aInput aOutput).cipher := by
  have hprocessed := processCall_sameSetup prim self aInput aOutput
  unfold finalEncryptCall
  split
  · exact .refl _
  · simp only
    split
    · exact hprocessed
    · split
      · exact hprocessed
      · exact hprocessed.trans (appendPaddingCall_sameSetup _ _)

theorem unPadCall_sameSetup (self : CSymmetricBlockCipherImpl) (decrypted : Bytes)
    (aOutput : TDes8) : SameSetup self (self.unPadCall decrypted aOutput).cipher := by
  unfold unPadCall
  simp only
  split
  · exact .refl _
  · exact ⟨rfl, rfl, rfl, rfl, rfl⟩

theorem finalDecryptCall_sameSetup (prim : BlockPrimitive) (self : CSymmetricBlockCipherImpl)
    (aInput : Bytes) (aOutput : TDes8) :
    SameSetup self (self.finalDecryptCall prim aInput aOutput).cipher := by
  unfold finalDecryptCall
  split
  · exact .refl _
  split
  · exact .refl _
  split
  · have hprocessed := processCall_sameSetup prim self aInput
      ⟨[], TDes8.heapCapacity (self.maxFinalOutputLength aInput.length).toNat⟩
    simp only
    split
    · exact hprocessed
    · exact hprocessed.trans (unPadCall_sameSetup _ _ _)
  · split
    · exact .refl _
    · refine SameSetup.trans ?_ (unPadCall_sameSetup _ _ _)
      exact ⟨rfl, rfl, rfl, rfl, rfl⟩

theorem processFinalCall_sameSetup (prim : BlockPrimitive) (self : CSymmetricBlockCipherImpl)
    (aInput : Bytes) (aOutput : TDes8) :
    SameSetup self (self.processFinalCall prim aInput aOutput).cipher := by
  unfold processFinalCall
  split
  · exact processCall_sameSetup prim self aInput aOutput
  split
  · exact .refl _
  · cases self.iCryptoMode with
    | KCryptoModeEncrypt => exact finalEncryptCall_sameSetup prim self aInput aOutput
    | KCryptoModeDecrypt => exact finalDecryptCall_sameSetup prim self aInput aOutput

/-! ### Reset -/

/-- Operations that process data. -/
def Operation.Processes : Operation → Prop
  | process _ => True
  | processFinal _ => True
  | _ => False

/-- A cipher in a mode with a vector. -/
structure Chained (cipher : CSymmetricBlockCipherImpl) (aIv : Bytes) : Prop where
  size : 0 < cipher.iBlockBytes
  mode : cipher.iOperationMode = .KOperationModeCBC ∨ cipher.iOperationMode = .KOperationModeCTR
  /-- In CTR mode the cipher only encrypts. -/
  crypto : cipher.iOperationMode = .KOperationModeCTR → cipher.iCryptoMode = .KCryptoModeEncrypt
  iv : cipher.iIv = some aIv
  length : aIv.length = cipher.iBlockBytes
  counter : cipher.iOperationMode = .KOperationModeCTR →
    cipher.iRegister.length = cipher.iBlockBytes

/-- A cipher that can be given a vector. -/
structure Settable (cipher : CSymmetricBlockCipherImpl) : Prop where
  size : 0 < cipher.iBlockBytes
  mode : cipher.iOperationMode = .KOperationModeCBC ∨ cipher.iOperationMode = .KOperationModeCTR
  crypto : cipher.iOperationMode = .KOperationModeCTR → cipher.iCryptoMode = .KCryptoModeEncrypt

/-- The cipher after `SetIvL`. -/
def started (self : CSymmetricBlockCipherImpl) (aIv : Bytes) : CSymmetricBlockCipherImpl :=
  reset { self with iIv := some aIv, iRegister := aIv }

theorem Settable.setIv (h : self.Settable) (hlength : aIv.length = self.iBlockBytes) :
    self.setIvCall aIv aOutput =
      ⟨self.started aIv, aOutput, .ok ()⟩ := by
  unfold setIvCall started
  rw [if_neg, if_neg (not_not.mpr hlength)]
  intro hneither
  rcases h.mode with hmode | hmode
  · exact hneither.1 hmode
  · exact hneither.2 hmode

theorem started_register (self : CSymmetricBlockCipherImpl) (aIv : Bytes) :
    (self.started aIv).iRegister = aIv := by
  show (if self.iOperationMode = .KOperationModeCBC then aIv else aIv) = aIv
  rw [ite_self]

theorem Settable.chained (h : self.Settable) (hlength : aIv.length = self.iBlockBytes) :
    (self.started aIv).Chained aIv :=
  ⟨h.size, h.mode, h.crypto, rfl, hlength, fun _ => by rw [started_register]; exact hlength⟩

theorem perform_sameSetup {op : Operation} (hop : op.Processes) :
    SameSetup self (self.perform prim op).cipher := by
  cases op with
  | setIv aIv => exact hop.elim
  | reset => exact hop.elim
  | process call => exact processCall_sameSetup prim self call.aInput call.aOutput
  | processFinal call => exact processFinalCall_sameSetup prim self call.aInput call.aOutput

/-- The calls that process data keep the vector, and a counter. -/
theorem Chained.perform (h : self.Chained aIv) {op : Operation} (hop : op.Processes) :
    (self.perform prim op).cipher.Chained aIv := by
  have hprocess : ∀ call : Call,
      (self.processCall prim call.aInput call.aOutput).cipher.Chained aIv := by
    intro call
    have hsame := processCall_sameSetup prim self call.aInput call.aOutput
    refine ⟨?_, ?_, ?_, hsame.iv.trans h.iv, h.length.trans hsame.size.symm, ?_⟩
    · rw [hsame.size]
      exact h.size
    · rw [hsame.mode]
      exact h.mode
    · rw [hsame.mode, hsame.crypto]
      exact h.crypto
    · rw [hsame.mode, hsame.size]
      intro hmode
      unfold processCall
      split
      · exact h.counter hmode
      split
      · exact h.counter hmode
      cases hctr : self.processCtrL prim call.aInput call.aOutput with
      | error e => exact h.counter hmode
      | ok x =>
        exact ((processCtrL_sameSetup hctr).2.2 (h.crypto hmode) hmode).trans (h.counter hmode)
  cases op with
  | setIv aIv => exact hop.elim
  | reset => exact hop.elim
  | process call => exact hprocess call
  | processFinal call =>
      by_cases hmode : self.iOperationMode = .KOperationModeCTR
      · show (self.processFinalCall prim call.aInput call.aOutput).cipher.Chained aIv
        unfold processFinalCall
        rw [if_pos hmode]
        exact hprocess call
      · have hsame := processFinalCall_sameSetup prim self call.aInput call.aOutput
        have hnot : (self.processFinalCall prim call.aInput call.aOutput).cipher.iOperationMode ≠
            .KOperationModeCTR := by
          rw [hsame.mode]
          exact hmode
        refine ⟨?_, ?_, fun hctr => absurd hctr hnot, hsame.iv.trans h.iv,
          h.length.trans hsame.size.symm, fun hctr => absurd hctr hnot⟩
        · show 0 < (self.processFinalCall prim call.aInput call.aOutput).cipher.iBlockBytes
          rw [hsame.size]
          exact h.size
        · exact Or.inl (hsame.mode.trans (h.mode.resolve_right hmode))

theorem Chained.after (h : self.Chained aIv) {ops : List Operation}
    (hops : ∀ op ∈ ops, op.Processes) {last : CSymmetricBlockCipherImpl}
    (hlast : self.after prim ops = some last) : last.Chained aIv ∧ SameSetup self last := by
  induction ops generalizing self with
  | nil =>
      obtain rfl := Option.some.inj hlast
      exact ⟨h, .refl _⟩
  | cons op ops ih =>
      have hop := hops op mem_cons_self
      have hsame : SameSetup self (self.perform prim op).cipher := perform_sameSetup hop
      unfold CSymmetricBlockCipherImpl.after at hlast
      simp only at hlast
      split at hlast
      · cases hlast
      · obtain ⟨hchained, hlater⟩ :=
          ih (h.perform hop) (fun op' hop' => hops op' (mem_cons_of_mem _ hop')) hlast
        exact ⟨hchained, hsame.trans hlater⟩

/-- Every block is a value of the counter. -/
theorem counterAt_surjective {register : Bytes} (h : register.length = aIv.length) :
    ∃ c, counterAt aIv c = register := by
  have hiv := Der.value_lt aIv
  refine ⟨Der.value register + (256 ^ aIv.length - Der.value aIv), ?_⟩
  unfold counterAt
  have hsum : Der.value aIv + (Der.value register + (256 ^ aIv.length - Der.value aIv)) =
      Der.value register + 256 ^ aIv.length := by omega
  rw [hsum, Nat.add_mod_right, Der.fixed_mod, ← h, Der.fixed_value]

/-- The first call in CTR mode shows the register: zeros are encrypted to its key stream. -/
theorem processCall_zeros (hprim : prim.Inverts self.iBlockBytes) (h : self.FreshCtr) (c : Nat) :
    (processCall prim { self with iRegister := counterAt self.iRegister c }
      (replicate self.iBlockBytes 0) ⟨[], self.iBlockBytes⟩).aOutput =
        ⟨prim.encrypt (counterAt self.iRegister c), self.iBlockBytes⟩ := by
  have hpos := h.size
  have hblock : (prim.encrypt (counterAt self.iRegister c)).length = self.iBlockBytes :=
    hprim.length _ ((counterAt_length _ _).trans h.register)
  have hstream : keystream prim self.iRegister c 2 =
      prim.encrypt (counterAt self.iRegister c) ++ keystream prim self.iRegister (c + 1) 1 := rfl
  have hzeros : xorBytes (replicate self.iBlockBytes 0) (keystream prim self.iRegister c 2) =
      prim.encrypt (counterAt self.iRegister c) := by
    rw [hstream, xorBytes_append_left (by rw [length_replicate, hblock]), xorBytes_comm,
      ← hblock, xorBytes_zeros]
  have hat : self.AtCounter c { self with iRegister := counterAt self.iRegister c } :=
    ⟨self.iCtrUnusedKeystream, rfl⟩
  have hencoded := @encodeCtrL_streamed c (replicate self.iBlockBytes 0)
    ⟨[], self.iBlockBytes⟩ self prim h hprim.length _ 0 1 hat (Nat.zero_le _)
    (by rw [length_replicate, Nat.sub_zero, Nat.div_self hpos])
    (by rw [length_replicate]; exact Nat.le_of_eq (Nat.zero_add _))
  rw [drop_zero, hzeros, nil_append] at hencoded
  have hctr : processCtrL prim { self with iRegister := counterAt self.iRegister c }
      (replicate self.iBlockBytes 0) ⟨[], self.iBlockBytes⟩ =
        encodeCtrL prim { self with iRegister := counterAt self.iRegister c }
          (replicate self.iBlockBytes 0) ⟨[], self.iBlockBytes⟩ 0 := by
    unfold processCtrL applyUnusedKeystream
    simp [h.unused, hpos]
  unfold processCall maxOutputLength
  rw [if_neg (by simp [h.iv]), if_neg (by simp [h.mode]), if_pos h.mode, hctr, hencoded]
  rfl

/-- After `Reset` the cipher is what `SetIvL` makes it, in CTR mode with the counter as it is. -/
theorem Chained.reset_eq (h : self.Chained aIv) : reset self =
    { self.started aIv with
      iRegister := if self.iOperationMode = .KOperationModeCBC then aIv else self.iRegister } := by
  have hiv := h.iv
  unfold started reset
  rw [hiv]
  rfl

theorem Chained.freshCtr (h : self.Chained aIv) (hmode : self.iOperationMode = .KOperationModeCTR) :
    (self.started aIv).FreshCtr := by
  refine ⟨h.size, h.crypto hmode, hmode, ?_, ?_, rfl⟩
  · rw [started_register]
    rfl
  · rw [started_register]
    exact h.length

theorem Chained.perform_reset (h : self.Chained aIv) :
    self.perform prim .reset = ⟨reset self, ⟨[], 0⟩, .ok ()⟩ := by
  show self.resetCall ⟨[], 0⟩ = _
  unfold resetCall
  rw [if_neg]
  intro ⟨_, hempty⟩
  have hnil : aIv = [] := Option.some.inj (h.iv.symm.trans hempty)
  have hsize := h.size
  rw [← h.length, hnil] at hsize
  exact absurd hsize (Nat.lt_irrefl _)

theorem Chained.perform_setIv (h : self.Chained aIv) : self.perform prim (.setIv aIv) =
    ⟨self.started aIv, ⟨[], 0⟩, .ok ()⟩ :=
  Settable.setIv ⟨h.size, h.mode, h.crypto⟩ h.length

theorem outputs_ok {op : Operation} {ops : List Operation}
    (h : self.perform prim op = ⟨next, out, .ok ()⟩) :
    self.outputs prim (op :: ops) = (out, .ok ()) :: next.outputs prim ops := by
  rw [outputs]
  simp only [h]

/-- `Reset` and `SetIvL` have the same outputs behind them where they leave the same register. -/
theorem Chained.outputs_iff (h : self.Chained aIv) (hprim : prim.Inverts self.iBlockBytes) :
    (∀ later, self.outputs prim (.reset :: later) = self.outputs prim (.setIv aIv :: later)) ↔
      self.iOperationMode = .KOperationModeCBC ∨ self.iRegister = aIv := by
  have hreset : self.perform prim .reset = _ := h.perform_reset
  have hset : self.perform prim (.setIv aIv) = _ := h.perform_setIv
  constructor
  · intro hsame
    rcases h.mode with hmode | hmode
    · exact Or.inl hmode
    · right
      have hfresh := h.freshCtr hmode
      obtain ⟨c, hc⟩ := counterAt_surjective ((h.counter hmode).trans h.length.symm)
      have hleft := @processCall_zeros (self.started aIv) prim hprim hfresh c
      have hright := @processCall_zeros (self.started aIv) prim hprim hfresh 0
      rw [started_register] at hleft hright
      rw [counterAt_zero] at hright
      have hthere : reset self = { self.started aIv with iRegister := counterAt aIv c } := by
        rw [h.reset_eq, if_neg (by rw [hmode]; decide), hc]
      have hback : self.started aIv = { self.started aIv with iRegister := aIv } := by
        have hregister := self.started_register aIv
        generalize self.started aIv = fresh at hregister
        rw [← hregister]
      rw [← hthere] at hleft
      rw [← hback] at hright
      have hzeros := hsame [.process ⟨replicate self.iBlockBytes 0, ⟨[], self.iBlockBytes⟩⟩]
      rw [outputs_ok hreset, outputs_ok hset] at hzeros
      have hfirst : (processCall prim (reset self) (replicate self.iBlockBytes 0)
          ⟨[], self.iBlockBytes⟩).aOutput = (processCall prim (self.started aIv)
            (replicate self.iBlockBytes 0) ⟨[], self.iBlockBytes⟩).aOutput :=
        (Prod.mk.inj (List.cons.inj (List.cons.inj hzeros).2).1).1
      have hencrypt := (TDes8.mk.inj (hleft.symm.trans (hfirst.trans hright))).1
      rw [← hc, ← hprim.inverse _ ((counterAt_length _ _).trans h.length), hencrypt,
        hprim.inverse _ h.length]
  · intro hregister
    have hsame : reset self = self.started aIv := by
      have hstarted := self.started_register aIv
      have hchosen : (if self.iOperationMode = .KOperationModeCBC then aIv else self.iRegister) =
          aIv := by
        rcases hregister with hmode | hsame
        · rw [if_pos hmode]
        · rw [hsame, ite_self]
      rw [h.reset_eq, hchosen]
      generalize self.started aIv = fresh at hstarted
      rw [← hstarted]
    intro later
    rw [outputs_ok hreset, outputs_ok hset, hsame]

/-- After any calls that process data, `Reset` does what `SetIvL` does with the same vector, in
CBC mode, and in CTR mode if the counter is the vector again. -/
theorem reset_restarts_iff {aIv : Bytes} (hprim : prim.Inverts self.iBlockBytes)
    (h : self.Settable) (hlength : aIv.length = self.iBlockBytes) {ops : List Operation}
    (hops : ∀ op ∈ ops, op.Processes) {last : CSymmetricBlockCipherImpl}
    (hlast : self.after prim (.setIv aIv :: ops) = some last) :
    (∀ later, last.outputs prim (.reset :: later) = last.outputs prim (.setIv aIv :: later)) ↔
      self.iOperationMode = .KOperationModeCBC ∨ last.iRegister = aIv := by
  have hset : self.perform prim (.setIv aIv) = ⟨self.started aIv, ⟨[], 0⟩, .ok ()⟩ :=
    h.setIv hlength
  rw [after] at hlast
  simp only [hset] at hlast
  obtain ⟨hchained, hsame⟩ := (h.chained hlength).after hops hlast
  have hsize : last.iBlockBytes = self.iBlockBytes := hsame.size
  have hmode : last.iOperationMode = self.iOperationMode := hsame.mode
  rw [hchained.outputs_iff (by rw [hsize]; exact hprim), hmode]

/-- A cipher of the weakest kind: a fixed mask. -/
def masking : BlockPrimitive := ⟨List.map (· ^^^ 0x5a), List.map (· ^^^ 0x5a)⟩

theorem masking_inverts (size : Nat) : masking.Inverts size := by
  refine ⟨fun b hb => (length_map _).trans hb, fun b _ => ?_⟩
  have hmask : ((· ^^^ 0x5a) ∘ (· ^^^ 0x5a) : UInt8 → UInt8) = id := by
    funext x
    show x ^^^ 0x5a ^^^ 0x5a = x
    rw [UInt8.xor_assoc, UInt8.xor_self, UInt8.xor_zero]
  show (b.map _).map _ = b
  rw [map_map, hmask, map_id]

/-- A cipher with blocks of 8 octets, in a mode. -/
def newCipher (mode : OperationMode) (padding : CPadding) : CSymmetricBlockCipherImpl :=
  constructL 8 .KCryptoModeEncrypt mode padding [0, 0, 0, 0, 0, 0, 0, 0]

/-- The cipher of `newCipher` after the vector 1, .., 8 and one octet of data. -/
def oneOctet (mode : OperationMode) : CSymmetricBlockCipherImpl :=
  ((newCipher mode .PKCS7).after masking [.setIv [1, 2, 3, 4, 5, 6, 7, 8],
    .process ⟨[9], ⟨[], 8⟩⟩]).getD (newCipher mode .PKCS7)

theorem reset_restarts_iff_cbc :
    (oneOctet .KOperationModeCBC).outputs masking [.reset, .process ⟨[9], ⟨[], 8⟩⟩] =
      (oneOctet .KOperationModeCBC).outputs masking
        [.setIv [1, 2, 3, 4, 5, 6, 7, 8], .process ⟨[9], ⟨[], 8⟩⟩] :=
  (@reset_restarts_iff (newCipher .KOperationModeCBC .PKCS7) masking [1, 2, 3, 4, 5, 6, 7, 8]
    (masking_inverts 8) ⟨by decide, Or.inl rfl, fun h => absurd h (by decide)⟩ rfl
    [.process ⟨[9], ⟨[], 8⟩⟩] (fun op hop => by
      obtain rfl := mem_singleton.mp hop
      trivial) _ rfl).mpr (Or.inl rfl) _

/-- In CTR mode a block of zeros shows the counter, which is one further after `Reset`. -/
theorem not_reset_restarts :
    (newCipher .KOperationModeCTR .PKCS7).after masking [.setIv [1, 2, 3, 4, 5, 6, 7, 8],
        .process ⟨[9], ⟨[], 8⟩⟩] = some (oneOctet .KOperationModeCTR) ∧
      ¬ ∀ later, (oneOctet .KOperationModeCTR).outputs masking (.reset :: later) =
        (oneOctet .KOperationModeCTR).outputs masking
          (.setIv [1, 2, 3, 4, 5, 6, 7, 8] :: later) := by
  refine ⟨rfl, fun hsame => ?_⟩
  have hzeros := hsame [.process ⟨[0, 0, 0, 0, 0, 0, 0, 0], ⟨[], 8⟩⟩]
  have hdata := congrArg (fun seen => seen.map fun x => x.1.data) hzeros
  exact absurd hdata (by decide)

end CSymmetricBlockCipherImpl

end OsSecurity

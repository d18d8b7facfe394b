/-
Calls of a block cipher that leave.

The checks of `ProcessL` come before it changes anything, and behind them it can only panic.
`SetIvL` has emptied the vector when it finds that the new one has the wrong length, and
`ProcessFinalL` of a cipher without padding has processed the whole blocks, emptied the store
and filled `iPaddingBlock` when it finds that the last block is not full.  `iPaddingBlock` is
in no sight of the client, but the next `ProcessFinalL` goes on with it: `final_exit` says how
that call ends, and the proof picks one that tells the two states apart.

`Valid` holds in every state that rows of calls can reach.
-/
import OsSecurity.Crypto.CipherRuns

namespace OsSecurity

open BlockModes Blockwise List Nat

variable {e : Int} {block : Bytes}

/-- A part of a function that does not leave. -/
def Stays {α : Type} (x : Leaving α) : Prop := ∀ e, x ≠ leave e

namespace Stays

variable {α β : Type}

theorem ok (a : α) : Stays (.ok a : Leaving α) := fun e h => leave_ne_ok e a h.symm

theorem panics : Stays (panic : Leaving α) := by
  intro e h
  cases h

theorem bind {x : Leaving α} {f : α → Leaving β} (hx : Stays x) (hf : ∀ a, Stays (f a)) :
    Stays (x >>= f) := by
  cases x with
  | ok a => exact hf a
  | error e =>
      intro e' h
      exact hx e' (congrArg Except.error (Except.error.inj h))

theorem append (d : TDes8) (aDes : Bytes) : Stays (d.append aDes) := by
  unfold TDes8.append
  split
  · exact panics
  · exact ok _

theorem left (d : Bytes) (n : Int) : Stays (TDes.left d n) := by
  unfold TDes.left
  split
  · exact panics
  · exact ok _

theorem right (d : Bytes) (n : Int) : Stays (TDes.right d n) := by
  unfold TDes.right
  split
  · exact panics
  · exact ok _

end Stays

/-- A part that leaves with no other error. -/
def LeavesWith {α : Type} (error : Int) (x : Leaving α) : Prop := ∀ e, x = leave e → e = error

namespace LeavesWith

variable {α β : Type} {error : Int}

theorem stays {x : Leaving α} (h : Stays x) : LeavesWith error x := fun e he => absurd he (h e)

theorem leaves : LeavesWith error (leave error : Leaving α) := by
  intro e h
  cases h
  rfl

theorem bind {x : Leaving α} {f : α → Leaving β} (hx : LeavesWith error x)
    (hf : ∀ a, LeavesWith error (f a)) : LeavesWith error (x >>= f) := by
  cases x with
  | ok a => exact hf a
  | error e =>
      intro e' h
      exact hx e' (congrArg Except.error (Except.error.inj h))

end LeavesWith

theorem Stays.at' (d : Bytes) (n : Int) : Stays (TDes.at' d n) := by
  unfold TDes.at'
  split
  · exact panics
  · split
    · exact ok _
    · exact panics

/-- Only `KErrInvalidPadding` is left with by padding that is taken away. -/
theorem CPadding.unPadL_leaves (self : CPadding) (aInput : Bytes) (aOutput : TDes8) :
    LeavesWith KErrInvalidPadding (self.unPadL aInput aOutput) := by
  by_cases hself : self = .none
  · rw [hself]
    exact .stays (.append _ _)
  · rw [unPadL_counted hself]
    unfold unPadCountedL
    refine .bind (.stays (.at' _ _)) fun last => ?_
    simp only
    split
    · exact .leaves
    · refine .bind (.stays (.append _ _)) fun out => ?_
      split
      · exact .leaves
      · exact .stays (.ok _)

theorem CPadding.unPad_leave {self : CPadding} {aInput : Bytes} {aOutput : TDes8}
    (h : (self.unPad aInput aOutput).2 = leave e) : e = KErrInvalidPadding := by
  refine self.unPadL_leaves aInput aOutput e ?_
  rw [← CSymmetricBlockCipherImpl.unPad_result, h]
  rfl

namespace CSymmetricBlockCipherImpl

variable {self next : CSymmetricBlockCipherImpl} {prim : BlockPrimitive} {aInput : Bytes}
  {aOutput out : TDes8}

/-! ### `ProcessL` -/

theorem processBufferedL_stays : Stays (self.processBufferedL prim aInput aOutput) := by
  unfold processBufferedL processBlocksL storeRemainingL
  refine .bind ?_ fun x => .bind ?_ fun _ => .ok _
  · split
    · exact .bind (.append _ _) fun _ => .bind (.left _ _) fun _ => .bind (.append _ _) fun _ => .ok _
    · exact .ok _
  · split
    · exact .bind (.right _ _) fun _ => .bind (.append _ _) fun _ => .ok _
    · exact .ok _

theorem processCtrL_stays : Stays (self.processCtrL prim aInput aOutput) := by
  unfold processCtrL applyUnusedKeystream encodeCtrL
  refine .bind ?_ fun x => ?_
  · simp only
    split
    · exact .bind (.append _ _) fun _ => .ok _
    · exact .ok _
  · obtain ⟨first, out⟩ := x
    simp only
    split
    · exact .bind (.append _ _) fun _ => .bind (.append _ _) fun _ => .ok _
    · exact .ok _

theorem ended_leave {r : Leaving (CSymmetricBlockCipherImpl × TDes8)} (hr : Stays r) (e : Int) :
    (ended self aOutput r).exit ≠ leave e := by
  cases r with
  | ok x => exact Stays.ok () e
  | error e' =>
      intro h
      exact hr e (congrArg Except.error (Except.error.inj h))

/-- **`ProcessL` has changed nothing when it leaves.** -/
theorem processCall_leave (h : (self.processCall prim aInput aOutput).exit = leave e) :
    (self.processCall prim aInput aOutput).cipher = self := by
  unfold processCall at h ⊢
  split
  · rfl
  · rename_i hiv
    rw [if_neg hiv] at h
    split
    · rfl
    · rename_i hroom
      rw [if_neg hroom] at h
      split at h
      · exact absurd h (ended_leave processCtrL_stays e)
      · exact absurd h (ended_leave processBufferedL_stays e)

/-! ### The states that are reached -/

/-- What holds of a cipher however its calls have ended. -/
structure Valid (cipher : CSymmetricBlockCipherImpl) : Prop where
  size : SizeKnown cipher.iBlockBytes
  /-- An encrypting cipher stores less than a block. -/
  store : cipher.iCryptoMode = .KCryptoModeEncrypt →
    cipher.iInputStore.length < cipher.iBlockBytes
  register : cipher.iCryptoMode = .KCryptoModeEncrypt →
    cipher.iRegister.length = cipher.iBlockBytes
  /-- `SetIvL` empties the vector when the new one has the wrong length. -/
  iv : ∀ aIv, cipher.iIv = some aIv → aIv = [] ∨ aIv.length = cipher.iBlockBytes

theorem keeps_encrypt {size : Nat} (hprim : Blocks prim size) (mode : OperationMode) :
    Keeps (modeEncrypt prim mode) size fun register => register.length = size := by
  have hcbc : Keeps (cbcStep prim.encrypt xorBytes) size
      (fun register => register.length = size) :=
    keeps_cbcStep hprim fun _ _ => xorBytes_length
  cases mode with
  | KOperationModeNone => exact keeps_ecbStep hprim
  | KOperationModeECB => exact keeps_ecbStep hprim
  | KOperationModeCBC => exact hcbc
  | KOperationModeCTR =>
      exact ⟨fun r b hr hb => xorBytes_length (hprim r hr) hb,
        fun r b hr _ => (incrementCounter_length r).trans hr⟩

/-- What encrypting whole blocks leaves. -/
theorem Valid.done (h : self.Valid) (hprim : Blocks prim self.iBlockBytes)
    (hcrypto : self.iCryptoMode = .KCryptoModeEncrypt) (xs : Bytes) :
    (done (self.modeTransform prim) self.iBlockBytes self.iRegister xs).1.length =
        self.iBlockBytes ∧
      (done (self.modeTransform prim) self.iBlockBytes self.iRegister xs).2.length =
        xs.length / self.iBlockBytes * self.iBlockBytes := by
  have hstep : self.modeTransform prim = modeEncrypt prim self.iOperationMode := by
    unfold modeTransform
    rw [hcrypto]
  rw [hstep]
  exact (keeps_encrypt hprim _).run (div_mul_le_self _ _) (h.register hcrypto)

/-- There is room in what `ProcessL` has written to. -/
theorem processBufferedL_room (hsize : SizeKnown self.iBlockBytes)
    (hstored : self.iInputStore.length < self.iBlockBytes)
    (h : self.processBufferedL prim aInput aOutput = .ok (next, out))
    (hsome : (self.iInputStore ++ aInput).length / self.iBlockBytes ≠ 0) :
    aOutput.length + (self.iInputStore ++ aInput).length / self.iBlockBytes * self.iBlockBytes ≤
      aOutput.maxLength := by
  have htotal : (aInput.length + self.iInputStore.length) >>> cryptoLog2 self.iBlockBytes =
      (self.iInputStore ++ aInput).length / self.iBlockBytes := by
    rw [hsize.shiftRight, length_append, Nat.add_comm]
  have hwhole := div_mul_le_self (self.iInputStore ++ aInput).length self.iBlockBytes
  have hstore := Nat.le_mul_of_pos_left self.iBlockBytes (Nat.pos_of_ne_zero hsome)
  unfold processBufferedL processBlocksL at h
  simp only [htotal, hsize.shiftLeft, if_pos hsome] at h
  generalize (self.iInputStore ++ aInput).length / self.iBlockBytes = n at *
  rw [length_append] at hwhole
  obtain ⟨_, hblocks, -⟩ := bind_eq_ok.mp h
  obtain ⟨first, hfirst, hblocks⟩ := bind_eq_ok.mp hblocks
  obtain ⟨front, hfront, hblocks⟩ := bind_eq_ok.mp hblocks
  obtain ⟨second, hsecond, -⟩ := bind_eq_ok.mp hblocks
  obtain ⟨-, rfl⟩ := TDes8.append_eq_ok hfirst
  obtain ⟨hroom, -⟩ := TDes8.append_eq_ok hsecond
  unfold TDes.left at hfront
  rw [if_neg (by omega)] at hfront
  have hlength : front.length = n * self.iBlockBytes - self.iInputStore.length := by
    rw [← Except.ok.inj hfront, length_take]
    omega
  have happended : (⟨aOutput.data ++ self.iInputStore, aOutput.maxLength⟩ : TDes8).length =
      aOutput.length + self.iInputStore.length := length_append
  rw [happended, hlength] at hroom
  have hmax : aOutput.length + self.iInputStore.length +
      (n * self.iBlockBytes - self.iInputStore.length) ≤ aOutput.maxLength := hroom
  omega

/-! ### `ProcessFinalL` of an encrypting cipher -/

theorem le_maxPaddedLength (padding : CPadding) (size n : Nat) :
    n ≤ padding.maxPaddedLength size n := by
  cases padding with
  | none => exact Nat.le_refl n
  | SSLv3 => exact Nat.le_add_left _ _
  | PKCS7 => exact Nat.le_add_left _ _

/-- Less than a block is padded behind what is there already. -/
theorem padL_short (padding : CPadding) {size : Nat} {rest : Bytes} (hrest : rest.length < size) :
    padding.padL size rest ⟨block, size⟩ =
      if size < block.length + (padding.padded size rest).length then panic
      else .ok ⟨block ++ padding.padded size rest, size⟩ := by
  have hmin : padding.minPaddingLength ≤ 1 := by
    cases padding <;> decide
  have hmod : rest.length % size = rest.length := mod_eq_of_lt hrest
  have hmax : padding.maxPaddedLength size rest.length ≤ size := by
    cases padding with
    | none =>
      show rest.length ≤ size
      omega
    | SSLv3 =>
      show size - rest.length % size + rest.length ≤ size
      omega
    | PKCS7 =>
      show size - rest.length % size + rest.length ≤ size
      omega
  unfold CPadding.padL CPadding.doPadL CPadding.padded
  rw [if_neg (by omega), if_neg (Nat.not_lt.mpr hmax), length_append]
  unfold TDes8.append TDes8.length
  simp only
  by_cases hfirst : size < block.length + rest.length
  · rw [if_pos hfirst, if_pos (by omega)]
    rfl
  · rw [if_neg hfirst, ok_bind]
    simp only [length_append, List.append_assoc, Nat.add_assoc]

/-- An encrypting cipher that is asked for its last block, with the vector it needs. -/
structure Finishing (prim : BlockPrimitive) (cipher : CSymmetricBlockCipherImpl) (aInput : Bytes)
    (aOutput : TDes8) : Prop extends Valid cipher where
  blocks : Blocks prim cipher.iBlockBytes
  crypto : cipher.iCryptoMode = .KCryptoModeEncrypt
  mode : cipher.iOperationMode ≠ .KOperationModeCTR
  hasIv : ¬ (cipher.iOperationMode = .KOperationModeCBC ∧ cipher.iIv = none)
  room : cipher.maxFinalOutputLength aInput.length ≤ (aOutput.maxLength : Int) - aOutput.length

theorem Finishing.processCall (h : Finishing prim self aInput aOutput) :
    self.processCall prim aInput aOutput = ⟨fed prim self (self.iInputStore ++ aInput),
      ⟨aOutput.data ++ (done (self.modeTransform prim) self.iBlockBytes self.iRegister
        (self.iInputStore ++ aInput)).2, aOutput.maxLength⟩, .ok ()⟩ := by
  have hfinal : ((self.iInputStore ++ aInput).length : Int) ≤
      (aOutput.maxLength : Int) - aOutput.length := by
    have hroom := h.room
    unfold maxFinalOutputLength at hroom
    rw [if_neg h.mode, h.crypto] at hroom
    have := le_maxPaddedLength self.iPadding self.iBlockBytes
      (self.iInputStore.length + aInput.length)
    rw [length_append]
    have : ((self.iPadding.maxPaddedLength self.iBlockBytes
      (self.iInputStore.length + aInput.length) : Nat) : Int) ≤ _ := hroom
    omega
  have hwhole := div_mul_le_self (self.iInputStore ++ aInput).length self.iBlockBytes
  have hcall := @processBufferedL_ok aOutput self prim aInput h.size (h.store h.crypto)
    (fun _ => by omega)
  have hiv : ¬ ((self.iOperationMode = .KOperationModeCBC ∨
      self.iOperationMode = .KOperationModeCTR) ∧ self.iIv = none) := by
    intro ⟨hmode, hnone⟩
    exact h.hasIv ⟨hmode.resolve_right h.mode, hnone⟩
  have hmax : ¬ self.maxOutputLength aInput.length > aOutput.maxLength := by
    unfold maxOutputLength
    rw [if_neg h.mode]
    rw [length_append] at hfinal
    simp only
    omega
  unfold CSymmetricBlockCipherImpl.processCall
  rw [if_neg hiv, if_neg hmax, if_neg h.mode, hcall]
  rfl

/-- The whole blocks first, and then what the padding makes of the rest. -/
theorem Finishing.finalEncryptCall (h : Finishing prim self aInput aOutput) :
    self.finalEncryptCall prim aInput aOutput =
      (if self.iBlockBytes < self.iPaddingBlock.length + (self.iPadding.padded self.iBlockBytes
          (carry self.iBlockBytes (self.iInputStore ++ aInput))).length then
        ⟨fed prim self (self.iInputStore ++ aInput), ⟨aOutput.data ++ (done
          (self.modeTransform prim) self.iBlockBytes self.iRegister
            (self.iInputStore ++ aInput)).2, aOutput.maxLength⟩, panic⟩
      else (fed prim self (self.iInputStore ++ aInput)).appendPaddingCall prim
        ⟨aOutput.data ++ (done (self.modeTransform prim) self.iBlockBytes self.iRegister
          (self.iInputStore ++ aInput)).2, aOutput.maxLength⟩
        (self.iPaddingBlock ++ self.iPadding.padded self.iBlockBytes
          (carry self.iBlockBytes (self.iInputStore ++ aInput))) aOutput.length) := by
  have hcarry := carry_length_lt h.size.pos (self.iInputStore ++ aInput)
  have hpad : (fed prim self (self.iInputStore ++ aInput)).iPadding.padL
      (fed prim self (self.iInputStore ++ aInput)).iBlockBytes
      (fed prim self (self.iInputStore ++ aInput)).iInputStore
      ⟨(fed prim self (self.iInputStore ++ aInput)).iPaddingBlock,
        (fed prim self (self.iInputStore ++ aInput)).iBlockBytes⟩ = _ :=
    padL_short self.iPadding hcarry
  unfold CSymmetricBlockCipherImpl.finalEncryptCall
  rw [if_neg (by have := h.room; omega), h.processCall]
  simp only
  split_ifs with hfull
  · rw [hpad.trans (if_pos hfull)]
    rfl
  · rw [hpad.trans (if_neg hfull)]
    rfl

theorem appendPaddingL_whole {start : Nat} (hblock : 0 < block.length)
    (hwhole : (aOutput.length - start + block.length) % self.iBlockBytes = 0) :
    self.appendPaddingL prim aOutput block start = do
      let out ← aOutput.append block
      let (next, data) := transformAt (modeEncrypt prim self.iOperationMode)
        { self with iInputStore := [], iPaddingBlock := [] } out.data aOutput.length 1
      return (next, { out with data := data }) := by
  unfold appendPaddingL
  rw [if_pos hblock, if_neg (not_not.mpr hwhole)]

/-- How the padding ends. -/
theorem appendPaddingCall_leave {start : Nat}
    (h : (self.appendPaddingCall prim aOutput block start).exit = leave e) :
    (self.appendPaddingCall prim aOutput block start).cipher =
        { self with iInputStore := [], iPaddingBlock := block } ∧
      (aOutput.length - start + block.length) % self.iBlockBytes ≠ 0 := by
  unfold appendPaddingCall at h ⊢
  by_cases hblock : block.length > 0
  · rw [if_pos hblock] at h ⊢
    by_cases hpart : (aOutput.length - start + block.length) % self.iBlockBytes ≠ 0
    · rw [if_pos hpart]
      exact ⟨rfl, hpart⟩
    · rw [if_neg hpart, appendPaddingL_whole hblock (not_not.mp hpart)] at h
      exact absurd h (ended_leave (.bind (.append _ _) fun _ => .ok _) e)
  · rw [if_neg hblock] at h
    exact absurd h (Stays.ok () e)

/-- What is left behind when the last block is not full. -/
theorem Finishing.left_over (h : Finishing prim self aInput aOutput)
    (hleave : (self.finalEncryptCall prim aInput aOutput).exit = leave e) :
    (self.finalEncryptCall prim aInput aOutput).cipher =
        { fed prim self (self.iInputStore ++ aInput) with
          iInputStore := []
          iPaddingBlock := self.iPaddingBlock ++
            carry self.iBlockBytes (self.iInputStore ++ aInput) } ∧
      self.iPadding = .none ∧
      (self.iPaddingBlock ++ carry self.iBlockBytes
        (self.iInputStore ++ aInput)).length % self.iBlockBytes ≠ 0 ∧
      (self.iPaddingBlock ++ carry self.iBlockBytes
        (self.iInputStore ++ aInput)).length ≤ self.iBlockBytes := by
  have hdone := (h.toValid.done h.blocks h.crypto (self.iInputStore ++ aInput)).2
  have hcarry := carry_length_lt h.size.pos (self.iInputStore ++ aInput)
  rw [h.finalEncryptCall] at hleave ⊢
  split_ifs at hleave ⊢ with hfull
  · exact absurd hleave (Stays.panics e)
  obtain ⟨hcipher, hpart⟩ := appendPaddingCall_leave hleave
  generalize carry self.iBlockBytes (self.iInputStore ++ aInput) = rest at *
  have hlength : ∀ data : Bytes, (⟨aOutput.data ++ data, aOutput.maxLength⟩ : TDes8).length -
      aOutput.length = data.length := by
    intro data
    show (aOutput.data ++ data).length - aOutput.data.length = data.length
    rw [length_append, Nat.add_sub_cancel_left]
  replace hpart : (self.iPaddingBlock ++ self.iPadding.padded self.iBlockBytes rest).length %
      self.iBlockBytes ≠ 0 := by
    rw [hlength, hdone] at hpart
    have hsize : (fed prim self (self.iInputStore ++ aInput)).iBlockBytes = self.iBlockBytes := rfl
    rw [hsize, Nat.add_comm, add_mul_mod_self_right] at hpart
    exact hpart
  have hnone : self.iPadding = .none := by
    by_contra hsome
    have hpadded : (self.iPadding.padded self.iBlockBytes rest).length = self.iBlockBytes := by
      rw [CPadding.padded_blocks hsome h.size.pos (Nat.le_of_lt hcarry), if_neg (by omega)]
    rw [length_append, hpadded] at hpart
    have hempty : self.iPaddingBlock.length = 0 := by omega
    rw [hempty, Nat.zero_add, mod_self] at hpart
    exact hpart rfl
  have hplain : self.iPadding.padded self.iBlockBytes rest = rest := by
    rw [hnone]
    exact append_nil rest
  rw [hplain] at hpart hcipher hfull
  rw [hplain]
  rw [length_append]
  exact ⟨hcipher, hnone, by rwa [length_append] at hpart, by omega⟩

/-- How `ProcessFinalL` ends on less than a block, without padding and with an empty store: by what
`iPaddingBlock` holds. -/
theorem Finishing.exit_short (h : Finishing prim self aInput aOutput) (hnone : self.iPadding = .none)
    (hstore : self.iInputStore = []) (hshort : aInput.length < self.iBlockBytes)
    (hout : aOutput = ⟨[], self.iBlockBytes⟩) :
    (self.finalEncryptCall prim aInput aOutput).exit =
      if self.iBlockBytes < self.iPaddingBlock.length + aInput.length then panic
      else if (self.iPaddingBlock.length + aInput.length) % self.iBlockBytes ≠ 0 then
        leave KErrInvalidPadding
      else .ok () := by
  have hzero : aInput.length / self.iBlockBytes = 0 := div_eq_of_lt hshort
  have hrest : carry self.iBlockBytes (self.iInputStore ++ aInput) = aInput := by
    unfold carry
    rw [hstore, nil_append, hzero, Nat.zero_mul, drop_zero]
  have hdone : (done (self.modeTransform prim) self.iBlockBytes self.iRegister
      (self.iInputStore ++ aInput)).2 = [] := by
    unfold done
    rw [hstore, nil_append, hzero, run_zero]
  have hplain : self.iPadding.padded self.iBlockBytes aInput = aInput := by
    rw [hnone]
    exact append_nil aInput
  rw [h.finalEncryptCall, hrest, hplain, hdone, hout]
  have hlength : ∀ start, (⟨([] : Bytes) ++ [], self.iBlockBytes⟩ : TDes8).length - start +
      (self.iPaddingBlock ++ aInput).length = self.iPaddingBlock.length + aInput.length := by
    intro start
    rw [length_append]
    exact (congrArg (· + _) (Nat.zero_sub start)).trans (Nat.zero_add _)
  have hsize : (fed prim self (self.iInputStore ++ aInput)).iBlockBytes = self.iBlockBytes := rfl
  split_ifs with hfull hpart
  · rfl
  · have hpos : (self.iPaddingBlock ++ aInput).length > 0 := by
      rw [length_append]
      refine Nat.pos_of_ne_zero fun hempty => hpart ?_
      rw [hempty, zero_mod]
    unfold appendPaddingCall
    rw [if_pos hpos, if_pos (by rw [hlength, hsize]; exact hpart)]
  · unfold appendPaddingCall
    by_cases hpos : (self.iPaddingBlock ++ aInput).length > 0
    · have hroom := @TDes8.append_ok ⟨[] ++ [], self.iBlockBytes⟩ (self.iPaddingBlock ++ aInput) (by
        rw [length_append]
        show 0 + _ ≤ self.iBlockBytes
        omega)
      rw [if_pos hpos, if_neg (by rw [hlength, hsize]; exact hpart),
        appendPaddingL_whole hpos (by rw [hlength, hsize]; exact not_not.mp hpart), hroom]
      rfl
    · rw [if_neg hpos]

/-! ### `ProcessFinalL` of a decrypting cipher -/

theorem unPadCall_leave {decrypted : Bytes}
    (h : (self.unPadCall decrypted aOutput).exit = leave e) : e = KErrInvalidPadding := by
  unfold unPadCall at h
  simp only at h
  split at h
  · rename_i e' hunpad
    exact CPadding.unPad_leave (hunpad.trans (congrArg Except.error (Except.error.inj h)))
  · exact absurd h (Stays.ok () e)

/-- Its checks come first; only padding that is wrong is found out later. -/
theorem finalDecryptCall_leave (h : (self.finalDecryptCall prim aInput aOutput).exit = leave e)
    (he : e ≠ KErrInvalidPadding) : (self.finalDecryptCall prim aInput aOutput).cipher = self := by
  unfold finalDecryptCall at h ⊢
  split_ifs at h ⊢ with hroom hpart hlong
  · rfl
  · rfl
  · simp only at h ⊢
    split at h
    · rename_i e' hexit
      have hleave : (self.processCall prim aInput
          ⟨[], TDes8.heapCapacity (self.maxFinalOutputLength aInput.length).toNat⟩).exit =
            leave e := hexit.trans (congrArg Except.error (Except.error.inj h))
      exact processCall_leave hleave
    · exact absurd (unPadCall_leave h) he
  · simp only at h ⊢
    split at h
    · simp only
    · exact absurd (unPadCall_leave h) he

/-! ### What a leave changes -/

/-- The argument checks: all that leaves, but for padding that decrypts to something wrong. -/
def ByChecks (self : CSymmetricBlockCipherImpl) (e : Int) : Prop :=
  e ≠ KErrInvalidPadding ∨ self.iCryptoMode = .KCryptoModeEncrypt

/-- The vector, the register, the stored input and all later outputs are the same. -/
def Unchanged (prim : BlockPrimitive) (self next : CSymmetricBlockCipherImpl) : Prop :=
  next.iIv = self.iIv ∧ next.iRegister = self.iRegister ∧ next.iInputStore = self.iInputStore ∧
    ∀ ops, next.outputs prim ops = self.outputs prim ops

/-- Either an earlier check leaves, or there is nothing to be changed. -/
def Spares (prim : BlockPrimitive) (self : CSymmetricBlockCipherImpl) : Operation → Prop
  | .setIv _ => (self.iOperationMode ≠ .KOperationModeCBC ∧
      self.iOperationMode ≠ .KOperationModeCTR) ∨ self.iIv = some []
  | .processFinal call => self.iOperationMode = .KOperationModeCTR ∨
      (self.iOperationMode = .KOperationModeCBC ∧ self.iIv = none) ∨
      self.iCryptoMode = .KCryptoModeDecrypt ∨
      self.maxFinalOutputLength call.aInput.length >
        (call.aOutput.maxLength : Int) - call.aOutput.length ∨
      (self.iInputStore = [] ∧ self.iBlockBytes ∣ call.aInput.length ∧
        (Blockwise.done (self.modeTransform prim) self.iBlockBytes self.iRegister
          call.aInput).1 = self.iRegister)
  | _ => True

theorem Unchanged.of_eq (h : next = self) : Unchanged prim self next := by
  rw [h]
  exact ⟨rfl, rfl, rfl, fun _ => rfl⟩

theorem Finishing.perform (h : Finishing prim self aInput aOutput) :
    self.perform prim (.processFinal ⟨aInput, aOutput⟩) = self.finalEncryptCall prim aInput aOutput := by
  show self.processFinalCall prim aInput aOutput = _
  unfold processFinalCall
  rw [if_neg h.mode, if_neg h.hasIv, h.crypto]

/-- Octets in `iPaddingBlock` are seen by a later call: by one that would fill the block without
them, or by one without input. -/
theorem outputs_ne {rest : Bytes} (h : self.Valid) (hprim : Blocks prim self.iBlockBytes)
    (hcrypto : self.iCryptoMode = .KCryptoModeEncrypt)
    (hmode : self.iOperationMode ≠ .KOperationModeCTR)
    (hiv : ¬ (self.iOperationMode = .KOperationModeCBC ∧ self.iIv = none))
    (hnone : self.iPadding = .none) (hstore : self.iInputStore = []) (hrest : rest ≠ [])
    (hfits : self.iPaddingBlock.length + rest.length < self.iBlockBytes) :
    ∃ ops, outputs prim { self with iPaddingBlock := self.iPaddingBlock ++ rest } ops ≠
      outputs prim self ops := by
  have hpos := length_pos_iff.mpr hrest
  have hmissing : ((self.iBlockBytes - self.iPaddingBlock.length) % self.iBlockBytes = 0 ∧
      self.iPaddingBlock.length = 0) ∨
        ((self.iBlockBytes - self.iPaddingBlock.length) % self.iBlockBytes =
          self.iBlockBytes - self.iPaddingBlock.length ∧ 0 < self.iPaddingBlock.length) := by
    rcases Nat.eq_zero_or_pos self.iPaddingBlock.length with hempty | hsome
    · rw [hempty, Nat.sub_zero, mod_self]
      exact Or.inl ⟨rfl, rfl⟩
    · exact Or.inr ⟨mod_eq_of_lt (by omega), hsome⟩
  generalize hm : (self.iBlockBytes - self.iPaddingBlock.length) % self.iBlockBytes = m at hmissing
  have hlt : m < self.iBlockBytes := by
    rw [← hm]
    exact mod_lt _ (by omega)
  have hroom : self.maxFinalOutputLength (replicate m (0 : UInt8)).length ≤
      ((⟨[], self.iBlockBytes⟩ : TDes8).maxLength : Int) -
        (⟨[], self.iBlockBytes⟩ : TDes8).length := by
    have hmax : self.maxFinalOutputLength (replicate m (0 : UInt8)).length = (m : Int) := by
      unfold maxFinalOutputLength
      rw [if_neg hmode, hcrypto, hstore, hnone, length_replicate]
      show ((0 + m : Nat) : Int) = m
      rw [Nat.zero_add]
    rw [hmax]
    show (m : Int) ≤ self.iBlockBytes - ((0 : Nat) : Int)
    omega
  have hself : Finishing prim self (replicate m 0) ⟨[], self.iBlockBytes⟩ :=
    ⟨h, hprim, hcrypto, hmode, hiv, hroom⟩
  have hnext : Finishing prim { self with iPaddingBlock := self.iPaddingBlock ++ rest }
      (replicate m 0) ⟨[], self.iBlockBytes⟩ :=
    ⟨⟨h.size, h.store, h.register, h.iv⟩, hprim, hcrypto, hmode, hiv, hroom⟩
  refine ⟨[.processFinal ⟨replicate m 0, ⟨[], self.iBlockBytes⟩⟩], fun hsame => ?_⟩
  have hshort : (replicate m (0 : UInt8)).length < self.iBlockBytes := by
    rw [length_replicate]
    exact hlt
  have hexit := (Prod.mk.inj (List.cons.inj hsame).1).2
  rw [hnext.perform, hself.perform, hnext.exit_short hnone hstore hshort rfl,
    hself.exit_short hnone hstore hshort rfl, length_replicate] at hexit
  simp only [length_append] at hexit
  rcases hmissing with ⟨hzero, hempty⟩ | ⟨hfill, hsome⟩
  · rw [hempty, hzero, Nat.zero_add, Nat.add_zero, mod_eq_of_lt (by omega), zero_mod,
      if_neg (by omega), if_pos (by omega)] at hexit
    cases hexit
  · have hfull : self.iPaddingBlock.length + m = self.iBlockBytes := by omega
    rw [if_pos (by omega), hfull, if_neg (Nat.lt_irrefl _), mod_self] at hexit
    cases hexit

/-- A vector of the wrong length empties the one that is set. -/
theorem setIvCall_unchanged_iff {aIv : Bytes}
    (hleave : (self.setIvCall aIv aOutput).exit = leave e) :
    Unchanged prim self (self.setIvCall aIv aOutput).cipher ↔
      (self.iOperationMode ≠ .KOperationModeCBC ∧ self.iOperationMode ≠ .KOperationModeCTR) ∨
        self.iIv = some [] := by
  unfold setIvCall at hleave ⊢
  split_ifs at hleave ⊢ with hmode hlength
  · exact iff_of_true (.of_eq rfl) (Or.inl hmode)
  · constructor
    · intro h
      exact Or.inr h.1.symm
    · intro h
      have hempty := h.resolve_left hmode
      refine .of_eq ?_
      rw [← hempty]
  · exact absurd hleave (Stays.ok () e)

/-- A last block that is not full leaves its octets in `iPaddingBlock`. -/
theorem Finishing.unchanged_iff (h : Finishing prim self aInput aOutput)
    (hleave : (self.finalEncryptCall prim aInput aOutput).exit = OsSecurity.leave e) :
    Unchanged prim self (self.finalEncryptCall prim aInput aOutput).cipher ↔
      self.iInputStore = [] ∧ self.iBlockBytes ∣ aInput.length ∧
        (done (self.modeTransform prim) self.iBlockBytes self.iRegister aInput).1 =
          self.iRegister := by
  obtain ⟨hcipher, hnone, hpart, hle⟩ := h.left_over hleave
  rw [hcipher]
  constructor
  · intro ⟨_, hregister, hstore, hlater⟩
    replace hstore : self.iInputStore = [] := hstore.symm
    rw [hstore, nil_append] at hlater hregister hpart hle
    have hsame : (done (self.modeTransform prim) self.iBlockBytes self.iRegister
        aInput).1 = self.iRegister := hregister
    refine ⟨hstore, ?_, hsame⟩
    by_contra hdvd
    have hrest : carry self.iBlockBytes aInput ≠ [] := by
      intro hnil
      have hlength := @carry_length _ self.iBlockBytes aInput
      rw [hnil] at hlength
      exact hdvd (dvd_of_mod_eq_zero hlength.symm)
    have hfits : self.iPaddingBlock.length + (carry self.iBlockBytes aInput).length <
        self.iBlockBytes := by
      rw [← length_append]
      refine Nat.lt_of_le_of_ne hle fun hfull => hpart ?_
      rw [hfull, mod_self]
    obtain ⟨ops, hops⟩ := @outputs_ne self prim _ h.toValid h.blocks h.crypto h.mode h.hasIv hnone
      hstore hrest hfits
    refine hops (Eq.trans ?_ (hlater ops))
    congr 1
    unfold fed
    rw [hsame, ← hstore]
  · intro ⟨hstore, hdvd, hsame⟩
    refine .of_eq ?_
    unfold fed
    rw [hstore, nil_append, hsame, carry_eq_nil hdvd, append_nil, ← hstore]

/-- **What a call has changed when its checks make it leave.** -/
theorem unchanged_iff (h : self.Valid) (hprim : Blocks prim self.iBlockBytes) {op : Operation}
    (hleave : (self.perform prim op).exit = leave e) (hchecks : self.ByChecks e) :
    Unchanged prim self (self.perform prim op).cipher ↔ Spares prim self op := by
  cases op with
  | reset =>
      have hreset : (self.resetCall ⟨[], 0⟩).exit = leave e := hleave
      unfold resetCall at hreset
      split_ifs at hreset
      · exact absurd hreset (Stays.panics e)
      · exact absurd hreset (Stays.ok () e)
  | process call => exact iff_of_true (.of_eq (processCall_leave hleave)) trivial
  | setIv aIv => exact setIvCall_unchanged_iff hleave
  | processFinal call =>
      have hfinal : (self.processFinalCall prim call.aInput call.aOutput).exit = leave e := hleave
      show Unchanged prim self (self.processFinalCall prim call.aInput call.aOutput).cipher ↔ _
      unfold processFinalCall at hfinal ⊢
      unfold Spares
      by_cases hmode : self.iOperationMode = .KOperationModeCTR
      · rw [if_pos hmode] at hfinal ⊢
        exact iff_of_true (.of_eq (processCall_leave hfinal)) (Or.inl hmode)
      rw [if_neg hmode] at hfinal ⊢
      by_cases hiv : self.iOperationMode = .KOperationModeCBC ∧ self.iIv = none
      · rw [if_pos hiv]
        exact iff_of_true (.of_eq rfl) (Or.inr (Or.inl hiv))
      rw [if_neg hiv] at hfinal ⊢
      cases hcrypto : self.iCryptoMode with
      | KCryptoModeDecrypt =>
        rw [hcrypto] at hfinal
        have he : e ≠ KErrInvalidPadding := hchecks.resolve_right (by rw [hcrypto]; decide)
        exact iff_of_true (.of_eq (finalDecryptCall_leave hfinal he))
          (Or.inr (Or.inr (Or.inl rfl)))
      | KCryptoModeEncrypt =>
        rw [hcrypto] at hfinal
        simp only at hfinal ⊢
        by_cases hroom : self.maxFinalOutputLength call.aInput.length >
            (call.aOutput.maxLength : Int) - call.aOutput.length
        · have hsame : (self.finalEncryptCall prim call.aInput call.aOutput).cipher = self := by
            unfold finalEncryptCall
            rw [if_pos hroom]
          exact iff_of_true (.of_eq hsame) (Or.inr (Or.inr (Or.inr (Or.inl hroom))))
        · have hfinishing : Finishing prim self call.aInput call.aOutput :=
            ⟨h, hprim, hcrypto, hmode, hiv, by omega⟩
          rw [hfinishing.unchanged_iff hfinal]
          simp [hmode, hiv, hroom]

/-! ### Reached states -/

theorem valid_constructL {aBlockBytes : Nat} (hsize : SizeKnown aBlockBytes)
    (aCryptoMode : CryptoMode) (aOperationMode : OperationMode) (aPadding : CPadding)
    {memory : Bytes} (hmemory : memory.length = aBlockBytes) :
    (constructL aBlockBytes aCryptoMode aOperationMode aPadding memory).Valid :=
  ⟨hsize, fun _ => hsize.pos, fun _ => hmemory, fun _ h => absurd h (Option.some_ne_none _).symm⟩

section

variable (h : self.Valid)
include h

theorem Valid.of_sameSetup (hsame : SameSetup self next)
    (hnext : self.iCryptoMode = .KCryptoModeEncrypt → next.iInputStore.length < self.iBlockBytes ∧ next.iRegister.length = self.iBlockBytes) :
    next.Valid := by
  refine ⟨?_, ?_, ?_, ?_⟩
  · rw [hsame.size]
    exact h.size
  · rw [hsame.size, hsame.crypto]
    exact fun hcrypto => (hnext hcrypto).1
  · rw [hsame.size, hsame.crypto]
    exact fun hcrypto => (hnext hcrypto).2
  · rw [hsame.size, hsame.iv]
    exact h.iv

section

variable (hprim : Blocks prim self.iBlockBytes)
include hprim

theorem Valid.fed (hcrypto : self.iCryptoMode = .KCryptoModeEncrypt) (msg : Bytes) :
    (fed prim self msg).Valid :=
  h.of_sameSetup ⟨rfl, rfl, rfl, rfl, rfl⟩ fun _ =>
    ⟨carry_length_lt h.size.pos msg, (h.done hprim hcrypto msg).1⟩

theorem Valid.processCall : (self.processCall prim aInput aOutput).cipher.Valid := by
  refine h.of_sameSetup (processCall_sameSetup prim self aInput aOutput) fun hcrypto => ?_
  have hself : self.iInputStore.length < self.iBlockBytes ∧
      self.iRegister.length = self.iBlockBytes := ⟨h.store hcrypto, h.register hcrypto⟩
  unfold CSymmetricBlockCipherImpl.processCall
  split_ifs with hiv hroom hmode
  · exact hself
  · exact hself
  · cases hctr : self.processCtrL prim aInput aOutput with
    | error e => exact hself
    | ok x =>
      obtain ⟨-, hstore, hregister⟩ := processCtrL_sameSetup hctr
      refine ⟨?_, (hregister hcrypto hmode).trans hself.2⟩
      show x.1.iInputStore.length < self.iBlockBytes
      rw [hstore]
      exact hself.1
  · cases hbuffered : self.processBufferedL prim aInput aOutput with
    | error e => exact hself
    | ok x =>
      have hexact := @processBufferedL_ok aOutput self prim aInput h.size hself.1
        (processBufferedL_room h.size hself.1 hbuffered)
      obtain rfl := Except.ok.inj (hbuffered.symm.trans hexact)
      exact ⟨carry_length_lt h.size.pos _, (h.done hprim hcrypto _).1⟩

theorem Valid.appendPaddingCall (hcrypto : self.iCryptoMode = .KCryptoModeEncrypt) {start : Nat}
    (hblock : block.length ≤ self.iBlockBytes)
    (hwhole : self.iBlockBytes ∣ aOutput.length - start) :
    (self.appendPaddingCall prim aOutput block start).cipher.Valid := by
  refine h.of_sameSetup (appendPaddingCall_sameSetup block start) fun _ => ?_
  have hstore := h.store hcrypto
  have hregister := h.register hcrypto
  unfold CSymmetricBlockCipherImpl.appendPaddingCall
  split_ifs with hsome hpart
  · exact ⟨h.size.pos, hregister⟩
  · have hmod := not_not.mp hpart
    rw [appendPaddingL_whole hsome hmod]
    have hfull : block.length = self.iBlockBytes := by
      rw [add_mod, mod_eq_zero_of_dvd hwhole, Nat.zero_add, mod_mod] at hmod
      exact Nat.le_antisymm hblock (le_of_dvd hsome (dvd_of_mod_eq_zero hmod))
    cases happend : aOutput.append block with
    | error e => exact ⟨hstore, hregister⟩
    | ok out =>
      obtain ⟨-, rfl⟩ := TDes8.append_eq_ok happend
      refine ⟨h.size.pos, ?_⟩
      refine ((keeps_encrypt hprim self.iOperationMode).run ?_ hregister).1
      show 1 * self.iBlockBytes ≤ ((aOutput.data ++ block).drop aOutput.data.length).length
      rw [drop_left, hfull, Nat.one_mul]
  · exact ⟨hstore, hregister⟩

theorem Valid.processFinalCall : (self.processFinalCall prim aInput aOutput).cipher.Valid := by
  by_cases hcrypto : self.iCryptoMode = .KCryptoModeEncrypt
  · unfold CSymmetricBlockCipherImpl.processFinalCall
    split_ifs with hmode hiv
    · exact h.processCall hprim
    · exact h
    · rw [hcrypto]
      by_cases hroom : self.maxFinalOutputLength aInput.length >
          (aOutput.maxLength : Int) - aOutput.length
      · unfold finalEncryptCall
        rw [if_pos hroom]
        exact h
      · have hfinishing : Finishing prim self aInput aOutput :=
          ⟨h, hprim, hcrypto, hmode, hiv, by omega⟩
        have hfed : (CSymmetricBlockCipherImpl.fed prim self (self.iInputStore ++ aInput)).Valid :=
          h.fed hprim hcrypto _
        simp only
        rw [hfinishing.finalEncryptCall]
        split_ifs with hfull
        · exact hfed
        · refine hfed.appendPaddingCall hprim hcrypto ?_ ?_
          · rw [length_append]
            exact Nat.not_lt.mp hfull
          · have hdone := (h.done hprim hcrypto (self.iInputStore ++ aInput)).2
            show self.iBlockBytes ∣ (aOutput.data ++ _).length - aOutput.data.length
            rw [length_append, Nat.add_sub_cancel_left, hdone]
            exact Nat.dvd_mul_left _ _
  · exact h.of_sameSetup (processFinalCall_sameSetup prim self aInput aOutput)
      fun hencrypt => absurd hencrypt hcrypto

/-- Every call keeps a valid cipher valid, however it ends. -/
theorem Valid.perform (op : Operation) :
    (self.perform prim op).cipher.Valid ∧
      (self.perform prim op).cipher.iBlockBytes = self.iBlockBytes := by
  cases op with
  | process call =>
      exact ⟨h.processCall hprim, (processCall_sameSetup prim self call.aInput call.aOutput).size⟩
  | processFinal call =>
      exact ⟨h.processFinalCall hprim,
        (processFinalCall_sameSetup prim self call.aInput call.aOutput).size⟩
  | reset =>
      show (self.resetCall ⟨[], 0⟩).cipher.Valid ∧
        (self.resetCall ⟨[], 0⟩).cipher.iBlockBytes = self.iBlockBytes
      unfold resetCall
      split_ifs with hempty
      · exact ⟨h, rfl⟩
      · refine ⟨⟨h.size, fun _ => h.size.pos, fun hcrypto => ?_, h.iv⟩, rfl⟩
        show (if self.iOperationMode = .KOperationModeCBC then self.iIv.getD self.iRegister
          else self.iRegister).length = self.iBlockBytes
        split_ifs with hmode
        · cases hiv : self.iIv with
          | none => exact h.register hcrypto
          | some aIv =>
            refine (h.iv aIv hiv).resolve_left fun hnil => hempty ⟨hmode, ?_⟩
            rw [hiv, hnil]
        · exact h.register hcrypto
  | setIv aIv =>
      show (self.setIvCall aIv ⟨[], 0⟩).cipher.Valid ∧
        (self.setIvCall aIv ⟨[], 0⟩).cipher.iBlockBytes = self.iBlockBytes
      unfold setIvCall
      split_ifs with hmode hlength
      · exact ⟨h, rfl⟩
      · refine ⟨⟨h.size, h.store, h.register, ?_⟩, rfl⟩
        intro v hv
        exact Or.inl (Option.some.inj hv).symm
      · refine ⟨⟨h.size, fun _ => h.size.pos, fun _ => ?_, ?_⟩, rfl⟩
        · show (self.started aIv).iRegister.length = self.iBlockBytes
          rw [started_register]
          exact not_not.mp hlength
        · intro v hv
          rw [← Option.some.inj hv]
          exact Or.inr (not_not.mp hlength)

theorem Valid.after {ops : List Operation} {last : CSymmetricBlockCipherImpl}
    (hlast : self.after prim ops = some last) :
    last.Valid ∧ last.iBlockBytes = self.iBlockBytes := by
  induction ops generalizing self with
  | nil =>
      obtain rfl := Option.some.inj hlast
      exact ⟨h, rfl⟩
  | cons op ops ih =>
      obtain ⟨hnext, hsize⟩ := h.perform hprim op
      unfold CSymmetricBlockCipherImpl.after at hlast
      simp only at hlast
      split at hlast
      · cases hlast
      · obtain ⟨hvalid, hsame⟩ := ih hnext (by rw [hsize]; exact hprim) hlast
        exact ⟨hvalid, hsame.trans hsize⟩

end

end

/-- **A call that leaves because of its checks.**  After any calls, whichever of them have left,
it has changed nothing exactly if `Spares` says so. -/
theorem leaving_unchanged_iff {start : CSymmetricBlockCipherImpl} (h : start.Valid)
    (hprim : Blocks prim start.iBlockBytes) {ops : List Operation}
    (hself : start.after prim ops = some self) {op : Operation} {e : Int}
    (hleave : (self.perform prim op).exit = leave e) (hchecks : self.ByChecks e) :
    Unchanged prim self (self.perform prim op).cipher ↔ Spares prim self op := by
  obtain ⟨hvalid, hsize⟩ := h.after hprim hself
  exact unchanged_iff hvalid (by rw [hsize]; exact hprim) hleave hchecks

theorem masking_blocks (size : Nat) : Blocks masking size := (masking_inverts size).length

theorem newCipher_valid (mode : OperationMode) (padding : CPadding) :
    (newCipher mode padding).Valid :=
  valid_constructL ⟨3, by decide⟩ _ _ _ rfl

/-- A call of `ProcessL` without room. -/
theorem leaving_unchanged_iff_overflow :
    Unchanged masking (oneOctet .KOperationModeCBC) ((oneOctet .KOperationModeCBC).perform masking
      (.process ⟨[1, 2, 3, 4, 5, 6, 7], ⟨[], 7⟩⟩)).cipher :=
  (@leaving_unchanged_iff (oneOctet .KOperationModeCBC) masking
    (newCipher .KOperationModeCBC .PKCS7) (newCipher_valid _ _) (masking_blocks 8)
    [.setIv [1, 2, 3, 4, 5, 6, 7, 8], .process ⟨[9], ⟨[], 8⟩⟩] rfl
    (.process ⟨[1, 2, 3, 4, 5, 6, 7], ⟨[], 7⟩⟩) KErrOverflow rfl (Or.inl (by decide))).mpr trivial

/-- A vector that is too short passes for one that has been set, and after a last block that is not
full `ProcessFinalL` does not succeed without input. -/
theorem not_leaving_unchanged :
    ((newCipher .KOperationModeCBC .PKCS7).perform masking (.setIv [1, 2, 3])).exit =
        leave KErrArgument ∧
      ¬ Unchanged masking (newCipher .KOperationModeCBC .PKCS7)
        ((newCipher .KOperationModeCBC .PKCS7).perform masking (.setIv [1, 2, 3])).cipher ∧
      ((newCipher .KOperationModeECB .none).perform masking
        (.processFinal ⟨[1, 2, 3], ⟨[], 8⟩⟩)).exit = leave KErrInvalidPadding ∧
      ¬ Unchanged masking (newCipher .KOperationModeECB .none)
        ((newCipher .KOperationModeECB .none).perform masking
          (.processFinal ⟨[1, 2, 3], ⟨[], 8⟩⟩)).cipher := by
  refine ⟨rfl, ?_, rfl, ?_⟩
  · intro h
    exact absurd h.1 (by decide)
  · intro h
    have hexit := (Prod.mk.inj (List.cons.inj (h.2.2.2 [.processFinal ⟨[], ⟨[], 8⟩⟩])).1).2
    have hleft : ((newCipher .KOperationModeECB .none).perform masking
      (.processFinal ⟨[1, 2, 3], ⟨[], 8⟩⟩)).cipher.perform masking (.processFinal ⟨[], ⟨[], 8⟩⟩) =
        ⟨{ newCipher .KOperationModeECB .none with iPaddingBlock := [1, 2, 3] }, ⟨[], 8⟩,
          leave KErrInvalidPadding⟩ := rfl
    rw [hleft] at hexit
    cases hexit

end CSymmetricBlockCipherImpl

end OsSecurity

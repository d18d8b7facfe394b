/-
What `ProcessL` does with a message that comes in pieces.

`fed self msg` is the cipher `self` after the octets `msg`, in whatever pieces they came: it
has transformed the whole blocks of `msg` and stored the rest.  `processL_fed` is the step,
and `processAllL_fed` the run: a call appends to its output what the whole blocks of the
stored input and its own input are transformed to.
-/
import OsSecurity.Crypto.SymmetricCipher

namespace OsSecurity

open Blockwise List

variable {out : TDes8}

namespace CSymmetricBlockCipherImpl

/-- A cipher in ECB or CBC mode that has been set up and has seen no input. -/
structure Fresh (cipher : CSymmetricBlockCipherImpl) : Prop where
  /-- `CryptoLog2` knows the block size. -/
  size : ∃ k, 1 ≤ k ∧ k ≤ 7 ∧ cipher.iBlockBytes = 2 ^ k
  mode : cipher.iOperationMode = .KOperationModeECB ∨ cipher.iOperationMode = .KOperationModeCBC
  store : cipher.iInputStore = []
  paddingBlock : cipher.iPaddingBlock = []
  /-- `SetIvL` has been called where the mode needs it. -/
  iv : cipher.iOperationMode = .KOperationModeCBC →
    cipher.iIv = some cipher.iRegister ∧ cipher.iRegister.length = cipher.iBlockBytes

/-- The cipher after the octets `msg`. -/
def fed (prim : BlockPrimitive) (self : CSymmetricBlockCipherImpl) (msg : Bytes) :
    CSymmetricBlockCipherImpl :=
  { self with
    iInputStore := carry self.iBlockBytes msg
    iRegister :=
      (Blockwise.done (self.modeTransform prim) self.iBlockBytes self.iRegister msg).1 }

/-! ### Setting up -/

theorem fresh_constructL {aBlockBytes k : Nat} (hk : 1 ≤ k ∧ k ≤ 7 ∧ aBlockBytes = 2 ^ k)
    (aCryptoMode : CryptoMode) (aPadding : CPadding) (memory : Bytes) :
    (constructL aBlockBytes aCryptoMode .KOperationModeECB aPadding memory).Fresh where
  size := ⟨k, hk⟩
  mode := Or.inl rfl
  store := rfl
  paddingBlock := rfl
  iv := by
    intro h
    exact OperationMode.noConfusion h

/-! ### Block arithmetic -/

theorem cryptoLog2_two_pow {k : Nat} (hk : k ≤ 7) : cryptoLog2 (2 ^ k) = k := by
  have hall : ∀ j < 8, cryptoLog2 (2 ^ j) = j := by decide
  exact hall k (by omega)

/-- `CryptoLog2` knows the block size. -/
def SizeKnown (iBlockBytes : Nat) : Prop := ∃ k, 1 ≤ k ∧ k ≤ 7 ∧ iBlockBytes = 2 ^ k

namespace SizeKnown

variable {size : Nat}

theorem pos (h : SizeKnown size) : 0 < size := by
  obtain ⟨k, _, _, rfl⟩ := h
  exact Nat.two_pow_pos k

theorem shiftRight (h : SizeKnown size) (n : Nat) : n >>> cryptoLog2 size = n / size := by
  obtain ⟨k, _, hle, rfl⟩ := h
  rw [cryptoLog2_two_pow hle, Nat.shiftRight_eq_div_pow]

theorem shiftLeft (h : SizeKnown size) (n : Nat) : n <<< cryptoLog2 size = n * size := by
  obtain ⟨k, _, hle, rfl⟩ := h
  rw [cryptoLog2_two_pow hle, Nat.shiftLeft_eq]

theorem and_mask (h : SizeKnown size) (n : Nat) : n &&& (size - 1) = n % size := by
  obtain ⟨k, _, _, rfl⟩ := h
  rw [Nat.and_two_pow_sub_one_eq_mod]

end SizeKnown

namespace Fresh

variable {self : CSymmetricBlockCipherImpl} {prim : BlockPrimitive}

theorem size_pos (h : self.Fresh) : 0 < self.iBlockBytes := SizeKnown.pos h.size

theorem not_ctr (h : self.Fresh) : self.iOperationMode ≠ .KOperationModeCTR := by
  intro hctr
  rcases h.mode with hmode | hmode <;> rw [hmode] at hctr <;> exact absurd hctr (by decide)

theorem has_iv (h : self.Fresh) :
    ¬ (self.iOperationMode = .KOperationModeCBC ∧ self.iIv = none) := by
  rintro ⟨hcbc, hnone⟩
  rw [(h.iv hcbc).1] at hnone
  exact absurd hnone (by simp)

theorem and_mask (h : self.Fresh) (n : Nat) :
    n &&& (self.iBlockBytes - 1) = n % self.iBlockBytes := SizeKnown.and_mask h.size n

/-- `MaxOutputLength` counts the whole blocks. -/
theorem maxOutputLength_fed (h : self.Fresh) (msg : Bytes) (aInputLength : Nat) :
    (fed prim self msg).maxOutputLength aInputLength =
      ((carry self.iBlockBytes msg).length + aInputLength) / self.iBlockBytes *
        self.iBlockBytes := by
  have hctr : (fed prim self msg).iOperationMode ≠ .KOperationModeCTR := h.not_ctr
  unfold maxOutputLength
  rw [if_neg hctr]
  show aInputLength + (carry self.iBlockBytes msg).length -
      ((aInputLength + (carry self.iBlockBytes msg).length) &&& (self.iBlockBytes - 1)) =
    _
  rw [h.and_mask, Nat.add_comm aInputLength]
  have := Nat.div_add_mod'
    ((carry self.iBlockBytes msg).length + aInputLength) self.iBlockBytes
  omega

end Fresh

/-! ### The parts of a call -/

variable {self : CSymmetricBlockCipherImpl}

/-- Blocks at the end of a descriptor are transformed, and what is before them stays. -/
theorem transformAt_append (step : Bytes → Bytes → Bytes × Bytes) (a : Bytes) {b : Bytes} {n : Nat}
    (h : b.length = n * self.iBlockBytes) : self.transformAt step (a ++ b) a.length n =
      ({ self with iRegister := (Blockwise.run step self.iBlockBytes n self.iRegister b).1 },
        a ++ (Blockwise.run step self.iBlockBytes n self.iRegister b).2) := by
  unfold transformAt
  have hend : a.length + n * self.iBlockBytes = (a ++ b).length := by
    rw [length_append, h]
  rw [hend, drop_left, take_left, drop_length]
  simp only [append_nil]

theorem storeRemainingL_ok {x : Bytes} {r : Nat}
    (h : self.iInputStore.length + min r x.length ≤ self.iBlockBytes) :
    self.storeRemainingL x r =
      .ok { self with iInputStore := self.iInputStore ++ x.drop (x.length - r) } := by
  unfold storeRemainingL
  by_cases hr : r > 0
  · have hroom : (⟨self.iInputStore, self.iBlockBytes⟩ : TDes8).length +
        (x.drop (x.length - r)).length ≤ self.iBlockBytes := by
      rw [length_drop]
      show self.iInputStore.length + _ ≤ _
      omega
    have hright : TDes.right x (r : Int) = .ok (x.drop (x.length - r)) := by
      unfold TDes.right
      rw [if_neg (by omega), Int.toNat_natCast]
    rw [if_pos hr, hright]
    simp only [ok_bind]
    rw [TDes8.append_ok hroom]
    rfl
  · have hzero : r = 0 := by omega
    subst hzero
    rw [if_neg hr]
    simp

theorem processBlocksL_ok {prim : BlockPrimitive} {x : Bytes} {n : Nat}
    (hstore : n ≠ 0 → self.iInputStore.length ≤ n * self.iBlockBytes)
    (hinput : n * self.iBlockBytes ≤ self.iInputStore.length + x.length)
    (hroom : n ≠ 0 → out.length + n * self.iBlockBytes ≤ out.maxLength) :
    self.processBlocksL prim x out n (n * self.iBlockBytes) =
      .ok ({ self with
          iInputStore := if n = 0 then self.iInputStore else []
          iRegister := (Blockwise.run (self.modeTransform prim) self.iBlockBytes n self.iRegister
            (self.iInputStore ++ x)).1 },
        ⟨out.data ++ (Blockwise.run (self.modeTransform prim) self.iBlockBytes n self.iRegister
            (self.iInputStore ++ x)).2, out.maxLength⟩) := by
  by_cases hn : n = 0
  · subst hn
    unfold processBlocksL
    rw [if_neg (by simp)]
    simp
  replace hstore := hstore hn
  replace hroom := hroom hn
  generalize hk : n * self.iBlockBytes - self.iInputStore.length = k
  have hleft : TDes.left x ((n * self.iBlockBytes : Nat) - (self.iInputStore.length : Int)) =
      .ok (x.take k) := by
    unfold TDes.left
    rw [if_neg (by omega), ← hk]
    congr
    omega
  have htaken : (self.iInputStore ++ x.take k).length = n * self.iBlockBytes := by
    rw [length_append, length_take]
    omega
  have hfront : (Blockwise.run (self.modeTransform prim) self.iBlockBytes n self.iRegister
      (self.iInputStore ++ x)) = Blockwise.run (self.modeTransform prim) self.iBlockBytes n
        self.iRegister (self.iInputStore ++ x.take k) := by
    have hwhole : self.iInputStore ++ x = self.iInputStore ++ x.take k ++ x.drop k := by
      rw [List.append_assoc, take_append_drop]
    rw [hwhole, run_append (le_of_eq htaken.symm)]
  have hlen : (self.iInputStore ++ x.take k).length = _ := length_append
  have hfirst : out.length + self.iInputStore.length ≤ out.maxLength := by omega
  have hsecond : (⟨out.data ++ self.iInputStore, out.maxLength⟩ : TDes8).length +
      (x.take k).length ≤ out.maxLength := by
    show (out.data ++ self.iInputStore).length + _ ≤ _
    rw [length_append]
    show out.length + _ + _ ≤ _
    omega
  unfold processBlocksL
  rw [if_pos hn, if_neg hn, hfront]
  simp only
  rw [TDes8.append_ok hfirst]
  simp only [ok_bind]
  rw [hleft]
  simp only [ok_bind]
  rw [TDes8.append_ok hsecond]
  simp only [ok_bind]
  rw [List.append_assoc]
  have htransform : transformAt (self.modeTransform prim) { self with iInputStore := [] }
      (out.data ++ (self.iInputStore ++ x.take k)) out.length n = _ :=
    transformAt_append (self.modeTransform prim) out.data htaken
  rw [htransform]
  rfl

/-! ### One call -/

/-- The whole blocks of the store and the input are transformed, and the rest is stored. -/
theorem processBufferedL_ok {prim : BlockPrimitive} {x : Bytes}
    (hsize : SizeKnown self.iBlockBytes) (hstored : self.iInputStore.length < self.iBlockBytes)
    (hroom : (self.iInputStore ++ x).length / self.iBlockBytes ≠ 0 → out.length + (self.iInputStore ++ x).length / self.iBlockBytes * self.iBlockBytes ≤ out.maxLength) :
    self.processBufferedL prim x out =
      .ok ({ self with
          iInputStore := carry self.iBlockBytes (self.iInputStore ++ x)
          iRegister := (done (self.modeTransform prim) self.iBlockBytes self.iRegister
            (self.iInputStore ++ x)).1 },
        ⟨out.data ++ (done (self.modeTransform prim) self.iBlockBytes self.iRegister
            (self.iInputStore ++ x)).2, out.maxLength⟩) := by
  have hcarried := carry_length_lt hsize.pos (self.iInputStore ++ x)
  unfold done
  unfold carry at hcarried ⊢
  generalize hn : (self.iInputStore ++ x).length / self.iBlockBytes = n at hcarried hroom ⊢
  have htotal : (x.length + self.iInputStore.length) >>> cryptoLog2 self.iBlockBytes = n := by
    rw [hsize.shiftRight, ← hn, length_append, Nat.add_comm]
  have hwhole : n <<< cryptoLog2 self.iBlockBytes = n * self.iBlockBytes := hsize.shiftLeft n
  have hle : n * self.iBlockBytes ≤ self.iInputStore.length + x.length := by
    rw [← hn, length_append]
    exact Nat.div_mul_le_self _ _
  have hstore : n ≠ 0 → self.iInputStore.length ≤ n * self.iBlockBytes := by
    intro hpos
    have := Nat.le_mul_of_pos_left self.iBlockBytes (Nat.pos_of_ne_zero hpos)
    omega
  -- what is stored in the end is what was stored and not transformed, and what is left of `x`
  have hkept : (if n = 0 then self.iInputStore else []) ++
      x.drop (x.length - (x.length + self.iInputStore.length - n * self.iBlockBytes)) =
        (self.iInputStore ++ x).drop (n * self.iBlockBytes) := by
    by_cases hzero : n = 0
    · rw [if_pos hzero, hzero, Nat.zero_mul, drop_zero]
      congr 1
      rw [show x.length - (x.length + _ - 0) = 0 by omega, drop_zero]
    · have := hstore hzero
      rw [if_neg hzero, nil_append, drop_append, drop_eq_nil_of_le this, nil_append]
      congr 1
      omega
  have hlen := congrArg List.length hkept
  rw [length_append, length_drop] at hlen
  have hfill : (if n = 0 then self.iInputStore else []).length +
      min (x.length + self.iInputStore.length - n * self.iBlockBytes) x.length ≤
        self.iBlockBytes := by
    omega
  unfold processBufferedL
  simp only
  rw [htotal, hwhole, processBlocksL_ok hstore hle hroom]
  simp only [ok_bind]
  rw [storeRemainingL_ok hfill]
  simp only [ok_bind, leaving_pure]
  rw [← hkept]

/-- The number of blocks that a call with the input `x` completes. -/
def blocks (self : CSymmetricBlockCipherImpl) (msg x : Bytes) : Nat :=
  ((carry self.iBlockBytes msg).length + x.length) / self.iBlockBytes

/-- What the call appends to its output. -/
def output (prim : BlockPrimitive) (self : CSymmetricBlockCipherImpl) (msg x : Bytes) : Bytes :=
  (Blockwise.run (self.modeTransform prim) self.iBlockBytes (self.blocks msg x)
    (Blockwise.done (self.modeTransform prim) self.iBlockBytes self.iRegister msg).1
    (carry self.iBlockBytes msg ++ x)).2

theorem fed_nil {prim : BlockPrimitive} (h : self.Fresh) : fed prim self [] = self := by
  unfold fed
  rw [carry_nil, done_nil, ← h.store]

/-- The outputs of all calls together are the whole blocks, transformed. -/
theorem done_output (prim : BlockPrimitive) (h : self.Fresh) (msg x : Bytes) :
    (done (self.modeTransform prim) self.iBlockBytes self.iRegister (msg ++ x)).2 =
      (done (self.modeTransform prim) self.iBlockBytes self.iRegister msg).2 ++
        output prim self msg x := by
  rw [done_append h.size_pos]
  rfl

theorem processBufferedL_fed (prim : BlockPrimitive) (h : self.Fresh) (msg x : Bytes)
    (hroom : out.length + self.blocks msg x * self.iBlockBytes ≤ out.maxLength) :
    (fed prim self msg).processBufferedL prim x out =
      .ok (fed prim self (msg ++ x), ⟨out.data ++ output prim self msg x, out.maxLength⟩) := by
  have hlength : (carry self.iBlockBytes msg ++ x).length / self.iBlockBytes =
      self.blocks msg x := by
    rw [length_append]
    rfl
  have hcall : (fed prim self msg).processBufferedL prim x out = _ :=
    processBufferedL_ok h.size (carry_length_lt h.size_pos msg) (by
      intro _
      show out.length + (carry self.iBlockBytes msg ++ x).length / self.iBlockBytes *
        self.iBlockBytes ≤ out.maxLength
      rw [hlength]
      exact hroom)
  rw [hcall]
  unfold fed output
  rw [carry_carry_append h.size_pos msg x, done_carry_append h.size_pos _ msg x, ← hlength]
  rfl

/-- **One call of `ProcessL`.** -/
theorem processL_fed (prim : BlockPrimitive) (h : self.Fresh) (msg x : Bytes)
    (hroom : out.length + (fed prim self msg).maxOutputLength x.length ≤ out.maxLength) :
    (fed prim self msg).processL prim x out =
      .ok (fed prim self (msg ++ x), ⟨out.data ++ output prim self msg x, out.maxLength⟩) := by
  have hmode : (fed prim self msg).iOperationMode ≠ .KOperationModeCTR := h.not_ctr
  have hiv : ¬ (((fed prim self msg).iOperationMode = .KOperationModeCBC ∨
      (fed prim self msg).iOperationMode = .KOperationModeCTR) ∧
      (fed prim self msg).iIv = none) := by
    rintro ⟨hcbc | hctr, hnone⟩
    · exact h.has_iv ⟨hcbc, hnone⟩
    · exact hmode hctr
  have hmax : ¬ (fed prim self msg).maxOutputLength x.length > out.maxLength := by omega
  unfold processL
  rw [if_neg hiv, if_neg hmax, if_neg hmode]
  apply processBufferedL_fed prim h
  rw [h.maxOutputLength_fed] at hroom
  exact hroom

/-! ### All calls -/

/-- **Any calls of `ProcessL`.**  They leave the cipher, and append to their outputs, what
their inputs in one piece would. -/
theorem processAllL_fed {prim : BlockPrimitive} (h : self.Fresh) {final : Call} {calls : List Call}
    {msg : Bytes} (hroom : HasRoom prim final (fed prim self msg) calls) :
    ∃ data, processAllL prim (fed prim self msg) calls =
        .ok (fed prim self (msg ++ message calls), data) ∧
      (done (self.modeTransform prim) self.iBlockBytes self.iRegister
        (msg ++ message calls)).2 =
          (done (self.modeTransform prim) self.iBlockBytes self.iRegister msg).2 ++ data ∧
      HasRoom prim final (fed prim self (msg ++ message calls)) [] := by
  induction calls generalizing msg with
  | nil =>
      rw [message_nil, append_nil]
      exact ⟨[], rfl, (append_nil _).symm, hroom⟩
  | cons call calls ih =>
      have hcall := processL_fed prim h msg call.aInput hroom.1
      obtain ⟨data, hrun, hdone, hfinal⟩ := ih (hroom.2 _ _ hcall)
      rw [List.append_assoc, ← message_cons] at hrun hdone hfinal
      refine ⟨output prim self msg call.aInput ++ data, ?_, ?_, hfinal⟩
      · unfold processAllL
        rw [hcall]
        simp only [ok_bind]
        rw [hrun]
        simp only [ok_bind]
        rw [show call.aOutput.length = call.aOutput.data.length from rfl, drop_left]
        rfl
      · rw [hdone, done_output prim h, List.append_assoc]

/-- A whole message: the last call goes on from the register and the store of the octets that
the calls before it were given. -/
theorem processMessageL_fed {prim : BlockPrimitive} (h : self.Fresh) {final : Call}
    {calls : List Call} (hroom : HasRoom prim final self calls) :
    ∃ data, processAllL prim self calls = .ok (fed prim self (message calls), data) ∧
      HasRoom prim final (fed prim self (message calls)) [] ∧
      ∀ last aOutput text, (fed prim self (message calls)).processFinalL prim final.aInput
          final.aOutput = .ok (last, aOutput) →
        text = (done (self.modeTransform prim) self.iBlockBytes self.iRegister
          (message calls)).2 ++ aOutput.data.drop final.aOutput.length →
        processMessageL prim self calls final = .ok (last, text) := by
  have hstart : HasRoom prim final (fed prim self []) calls := by
    rw [fed_nil h]
    exact hroom
  obtain ⟨data, hrun, hdone, hfinal⟩ := processAllL_fed h hstart
  rw [fed_nil h, nil_append] at hrun
  rw [done_nil, nil_append, nil_append] at hdone
  rw [nil_append] at hfinal
  refine ⟨data, hrun, hfinal, ?_⟩
  intro last aOutput text hlast htext
  unfold processMessageL
  rw [hrun]
  simp only [ok_bind]
  rw [hlast, htext, hdone]
  rfl

end CSymmetricBlockCipherImpl

end OsSecurity

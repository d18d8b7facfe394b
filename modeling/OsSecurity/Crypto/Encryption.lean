/-
Encryption does not depend on how the plaintext is cut up.

`reference` is the mode of operation, on the blocks of a whole message.  The ciphertext that
an encrypting cipher appends to its outputs, over any calls of `ProcessL` and one of
`ProcessFinalL`, is the reference of the padded plaintext.
-/
import OsSecurity.Crypto.Chunked
import OsSecurity.Library.BlockModes

namespace OsSecurity

open BlockModes Blockwise List Nat

namespace CSymmetricBlockCipherImpl

/-- The ciphertext of whole blocks. -/
def reference (prim : BlockPrimitive) (self : CSymmetricBlockCipherImpl) (msg : Bytes) : Bytes :=
  let blocks := BlockModes.blocks self.iBlockBytes (msg.length / self.iBlockBytes) msg
  match self.iOperationMode with
  | .KOperationModeCBC => (cbc prim.encrypt xorBytes self.iRegister blocks).flatten
  | _ => (ecb prim.encrypt blocks).flatten

/-- The register holds a block where the mode uses it. -/
def RegisterFits (self : CSymmetricBlockCipherImpl) (iRegister : Bytes) : Prop :=
  self.iOperationMode = .KOperationModeCBC → iRegister.length = self.iBlockBytes

theorem xorBytes_length {a b : Bytes} {n : Nat} (ha : a.length = n) (hb : b.length = n) :
    (xorBytes a b).length = n := by
  unfold xorBytes
  rw [length_zipWith, ha, hb, Nat.min_self]

/-- Blocks that are blocks again. -/
def Blocks (prim : BlockPrimitive) (size : Nat) : Prop :=
  ∀ b, b.length = size → (prim.encrypt b).length = size

variable {self : CSymmetricBlockCipherImpl} {prim : BlockPrimitive}

theorem reference_eq (h : self.Fresh) (msg : Bytes) : self.reference prim msg =
    (done (modeEncrypt prim self.iOperationMode) self.iBlockBytes self.iRegister
      msg).2 := by
  unfold reference done
  rcases h.mode with hmode | hmode
  · rw [hmode]
    exact (run_ecbStep _ self.iRegister msg).symm
  · rw [hmode]
    exact (run_cbcStep _ self.iRegister msg).symm

theorem keeps_modeEncrypt (h : self.Fresh) (hprim : Blocks prim self.iBlockBytes) :
    Keeps (modeEncrypt prim self.iOperationMode) self.iBlockBytes self.RegisterFits := by
  rcases h.mode with hmode | hmode
  · rw [hmode]
    exact keeps_ecbStep hprim
  · have hkeeps : Keeps (cbcStep prim.encrypt xorBytes) self.iBlockBytes
        (fun iv => iv.length = self.iBlockBytes) :=
      keeps_cbcStep hprim fun _ _ => xorBytes_length
    have hfits : self.RegisterFits = fun iv => iv.length = self.iBlockBytes := by
      unfold RegisterFits
      simp [hmode]
    rw [hfits, hmode]
    exact hkeeps

/-! ### The last call -/

/-- No scheme makes more than a block of less than one. -/
theorem padded_carry_length_le (h : self.Fresh) (msg : Bytes) :
    (self.iPadding.padded self.iBlockBytes (carry self.iBlockBytes msg)).length ≤
      self.iBlockBytes := by
  have hlt := carry_length_lt h.size_pos msg
  unfold CPadding.padded
  rw [length_append]
  by_cases hself : self.iPadding = .none
  · rw [hself]
    show (carry self.iBlockBytes msg).length + 0 ≤ self.iBlockBytes
    omega
  · rw [CPadding.padding_length hself, mod_eq_of_lt hlt]
    omega

/-- What is stored goes into one block with its padding. -/
theorem padL_carry (h : self.Fresh) (msg : Bytes) :
    self.iPadding.padL self.iBlockBytes (carry self.iBlockBytes msg)
        ⟨[], self.iBlockBytes⟩ =
      .ok ⟨self.iPadding.padded self.iBlockBytes (carry self.iBlockBytes msg),
        self.iBlockBytes⟩ := by
  have hlt := carry_length_lt h.size_pos msg
  have hpadded := padded_carry_length_le h msg
  generalize carry self.iBlockBytes msg = rest at hlt hpadded
  have hmin : self.iPadding.minPaddingLength ≤ 1 := by
    cases self.iPadding <;> decide
  have hmod : rest.length % self.iBlockBytes = rest.length := mod_eq_of_lt hlt
  have hmax : self.iPadding.maxPaddedLength self.iBlockBytes rest.length ≤ self.iBlockBytes := by
    cases self.iPadding with
    | none =>
      show rest.length ≤ self.iBlockBytes
      omega
    | SSLv3 =>
      show self.iBlockBytes - rest.length % self.iBlockBytes + rest.length ≤ self.iBlockBytes
      omega
    | PKCS7 =>
      show self.iBlockBytes - rest.length % self.iBlockBytes + rest.length ≤ self.iBlockBytes
      omega
  rw [CPadding.padded, length_append] at hpadded
  have hfirst : (⟨[], self.iBlockBytes⟩ : TDes8).length + rest.length ≤ self.iBlockBytes := by
    show 0 + rest.length ≤ self.iBlockBytes
    omega
  unfold CPadding.padL
  rw [if_neg (by omega), if_neg (Nat.not_lt.mpr hmax)]
  unfold CPadding.doPadL
  rw [TDes8.append_ok hfirst]
  simp only [ok_bind]
  exact TDes8.append_ok hpadded

/-- The last block, or nothing. -/
theorem appendPaddingL_ok {last : Bytes} {out : TDes8} {start : Nat}
    (hwhole : self.iBlockBytes ∣ out.length - start) (hdvd : self.iBlockBytes ∣ last.length)
    (hle : last.length ≤ self.iBlockBytes) (hroom : out.length + last.length ≤ out.maxLength) :
    ∃ next, self.appendPaddingL prim out last start = .ok (next,
      ⟨out.data ++ (Blockwise.run (modeEncrypt prim self.iOperationMode) self.iBlockBytes
        (last.length / self.iBlockBytes) self.iRegister last).2, out.maxLength⟩) := by
  unfold appendPaddingL
  by_cases hpos : last.length > 0
  · have hlen : last.length = self.iBlockBytes := Nat.le_antisymm hle (le_of_dvd hpos hdvd)
    have hblock : (out.length - start + last.length) % self.iBlockBytes = 0 :=
      mod_eq_zero_of_dvd (Nat.dvd_add hwhole hdvd)
    have hone : last.length / self.iBlockBytes = 1 := by
      rw [hlen]
      exact Nat.div_self (by omega)
    have htransform : transformAt (modeEncrypt prim self.iOperationMode)
        { self with iInputStore := [], iPaddingBlock := [] } (out.data ++ last) out.length 1 = _ :=
      transformAt_append _ out.data (by rw [Nat.one_mul]; exact hlen)
    rw [if_pos hpos, if_neg (not_not.mpr hblock), TDes8.append_ok hroom]
    simp only [ok_bind]
    rw [htransform, hone]
    exact ⟨_, rfl⟩
  · have hnil : last = [] := eq_nil_of_length_eq_zero (by omega)
    subst hnil
    rw [if_neg hpos]
    refine ⟨{ self with iPaddingBlock := [] }, ?_⟩
    simp

theorem padding_carry (msg : Bytes) : self.iPadding.padding self.iBlockBytes msg =
    self.iPadding.padding self.iBlockBytes (carry self.iBlockBytes msg) := by
  apply CPadding.padding_congr
  rw [carry_length, mod_mod]

/-- What the padding brings to the ciphertext. -/
theorem done_padded (h : self.Fresh) (step : Bytes → Bytes → Bytes × Bytes) (msg : Bytes) :
    (done step self.iBlockBytes self.iRegister
        (self.iPadding.padded self.iBlockBytes msg)).2 =
      (done step self.iBlockBytes self.iRegister msg).2 ++
        (Blockwise.run step self.iBlockBytes
          ((self.iPadding.padded self.iBlockBytes (carry self.iBlockBytes msg)).length /
            self.iBlockBytes) (done step self.iBlockBytes self.iRegister msg).1
          (self.iPadding.padded self.iBlockBytes (carry self.iBlockBytes msg))).2 := by
  unfold CPadding.padded
  rw [done_append h.size_pos, padding_carry, length_append]

/-- `MaxFinalOutputLength` counts the blocks that the call completes and the last one. -/
theorem maxFinalOutputLength_encrypt (h : self.Fresh)
    (hmode : self.iCryptoMode = .KCryptoModeEncrypt) (msg x : Bytes) :
    (fed prim self msg).maxFinalOutputLength x.length =
      ((self.blocks msg x * self.iBlockBytes + (self.iPadding.padded self.iBlockBytes
        (carry self.iBlockBytes (msg ++ x))).length : Nat) : Int) := by
  have hctr : (fed prim self msg).iOperationMode ≠ .KOperationModeCTR := h.not_ctr
  have hencrypt : (fed prim self msg).iCryptoMode = .KCryptoModeEncrypt := hmode
  have hle : self.blocks msg x * self.iBlockBytes ≤
      (carry self.iBlockBytes msg ++ x).length := by
    rw [length_append]
    exact div_mul_le_self _ _
  have hcarry : carry self.iBlockBytes (msg ++ x) =
      (carry self.iBlockBytes msg ++ x).drop (self.blocks msg x * self.iBlockBytes) :=
    carry_append h.size_pos msg x
  have hsame : self.iPadding.padding self.iBlockBytes
      (carry self.iBlockBytes (msg ++ x)) =
      self.iPadding.padding self.iBlockBytes (carry self.iBlockBytes msg ++ x) := by
    apply CPadding.padding_congr
    rw [carry_length, mod_mod, length_append, length_append, carry_length, mod_add_mod]
  unfold maxFinalOutputLength
  rw [if_neg hctr, hencrypt]
  show ((self.iPadding.maxPaddedLength self.iBlockBytes
    ((carry self.iBlockBytes msg).length + x.length) : Nat) : Int) = _
  rw [← length_append, ← CPadding.padded_length]
  rw [length_append] at hle
  unfold CPadding.padded
  rw [hsame, hcarry]
  simp only [length_append, length_drop]
  omega

/-- A block for every block completed. -/
theorem output_length (h : self.Fresh)
    (hstep : self.modeTransform prim = modeEncrypt prim self.iOperationMode)
    (hprim : Blocks prim self.iBlockBytes)
    (msg x : Bytes) : (output prim self msg x).length = self.blocks msg x * self.iBlockBytes := by
  have hkeeps := keeps_modeEncrypt h hprim
  rw [← hstep] at hkeeps
  have hfits : self.RegisterFits self.iRegister := fun hcbc => (h.iv hcbc).2
  have hdone : self.RegisterFits
      (done (self.modeTransform prim) self.iBlockBytes self.iRegister msg).1 :=
    (hkeeps.run (div_mul_le_self _ _) hfits).1
  have hle : self.blocks msg x * self.iBlockBytes ≤
      (carry self.iBlockBytes msg ++ x).length := by
    rw [length_append]
    exact div_mul_le_self _ _
  exact (hkeeps.run hle hdone).2

/-- **`ProcessFinalL` of an encrypting cipher.** -/
theorem processFinalL_encrypt (h : self.Fresh) (hmode : self.iCryptoMode = .KCryptoModeEncrypt)
    (hprim : Blocks prim self.iBlockBytes) {msg x : Bytes} {out : TDes8}
    (hroom : (fed prim self msg).maxFinalOutputLength x.length ≤ (out.maxLength : Int) - out.length)
    (hnone : self.iPadding = .none → self.iBlockBytes ∣ (msg ++ x).length) :
    ∃ next aOutput, (fed prim self msg).processFinalL prim x out = .ok (next, aOutput) ∧
      self.reference prim (self.iPadding.padded self.iBlockBytes (msg ++ x)) =
        (done (self.modeTransform prim) self.iBlockBytes self.iRegister msg).2 ++
          aOutput.data.drop out.length := by
  have hstep : self.modeTransform prim = modeEncrypt prim self.iOperationMode := by
    unfold modeTransform
    rw [hmode]
  have hmax : ¬ (fed prim self msg).maxFinalOutputLength x.length >
      (out.maxLength : Int) - out.length := by omega
  rw [maxFinalOutputLength_encrypt h hmode] at hroom
  generalize hlast : self.iPadding.padded self.iBlockBytes
    (carry self.iBlockBytes (msg ++ x)) = last at hroom
  have hblocks : out.length + (fed prim self msg).maxOutputLength x.length ≤ out.maxLength := by
    rw [h.maxOutputLength_fed]
    show out.length + self.blocks msg x * self.iBlockBytes ≤ out.maxLength
    omega
  have hcall := processL_fed prim h msg x hblocks
  have hlen := output_length h hstep hprim msg x
  have hout : (⟨out.data ++ output prim self msg x, out.maxLength⟩ : TDes8).length =
      out.length + self.blocks msg x * self.iBlockBytes := by
    show (out.data ++ _).length = _
    rw [length_append, hlen]
    rfl
  have hpad : (fed prim self (msg ++ x)).iPadding.padL (fed prim self (msg ++ x)).iBlockBytes
      (fed prim self (msg ++ x)).iInputStore
      ⟨(fed prim self (msg ++ x)).iPaddingBlock, (fed prim self (msg ++ x)).iBlockBytes⟩ =
        .ok ⟨last, self.iBlockBytes⟩ := by
    show self.iPadding.padL self.iBlockBytes (carry self.iBlockBytes (msg ++ x))
      ⟨self.iPaddingBlock, self.iBlockBytes⟩ = _
    rw [h.paddingBlock, padL_carry h, hlast]
  have hdvd : self.iBlockBytes ∣ last.length := by
    rw [← hlast]
    apply CPadding.dvd_padded h.size_pos
    intro hself
    rw [carry_eq_nil (hnone hself)]
    exact Nat.dvd_zero _
  have hle : last.length ≤ self.iBlockBytes := by
    rw [← hlast]
    exact padded_carry_length_le h _
  have happend : ∃ next, (fed prim self (msg ++ x)).appendPaddingL prim
      ⟨out.data ++ output prim self msg x, out.maxLength⟩ last out.length = .ok (next,
        ⟨out.data ++ output prim self msg x ++ (Blockwise.run (modeEncrypt prim self.iOperationMode)
          self.iBlockBytes (last.length / self.iBlockBytes) (fed prim self (msg ++ x)).iRegister
          last).2, out.maxLength⟩) := by
    apply appendPaddingL_ok
    · rw [hout, Nat.add_sub_cancel_left]
      exact Nat.dvd_mul_left _ _
    · exact hdvd
    · exact hle
    · rw [hout]
      show _ ≤ out.maxLength
      omega
  have hrun : ∀ result, (fed prim self (msg ++ x)).appendPaddingL prim
      ⟨out.data ++ output prim self msg x, out.maxLength⟩ last out.length = .ok result →
        (fed prim self msg).processFinalL prim x out = .ok result := by
    intro result hresult
    unfold processFinalL
    rw [if_neg (show (fed prim self msg).iOperationMode ≠ .KOperationModeCTR from h.not_ctr),
      if_neg (show ¬ ((fed prim self msg).iOperationMode = .KOperationModeCBC ∧
        (fed prim self msg).iIv = none) from h.has_iv),
      show (fed prim self msg).iCryptoMode = .KCryptoModeEncrypt from hmode]
    show doProcessFinalEncryptL _ _ _ _ = _
    unfold doProcessFinalEncryptL
    rw [if_neg hmax, hcall]
    simp only [ok_bind]
    rw [hpad]
    simp only [ok_bind]
    exact hresult
  obtain ⟨next, happend⟩ := happend
  refine ⟨next, _, hrun _ happend, ?_⟩
  rw [reference_eq h, done_padded h, hlast, ← hstep, done_output prim h]
  show _ = _ ++ List.drop out.data.length _
  rw [List.append_assoc out.data, drop_left, List.append_assoc]
  rfl

/-! ### The whole message -/

/--
**Encryption does not depend on how the plaintext is cut up.**  Whatever the calls, the cipher
encrypts without leaving, and the ciphertext in its outputs is the mode of operation applied to
the plaintext with its padding.  Without a padding scheme the plaintext has to be whole blocks.
-/
theorem processMessageL_encrypt {prim : BlockPrimitive} {self : CSymmetricBlockCipherImpl}
    (h : self.Fresh) (hmode : self.iCryptoMode = .KCryptoModeEncrypt)
    (hprim : ∀ b, b.length = self.iBlockBytes → (prim.encrypt b).length = self.iBlockBytes)
    {calls : List Call} {final : Call} (hroom : HasRoom prim final self calls)
    (hnone : self.iPadding = .none →
      self.iBlockBytes ∣ (message calls ++ final.aInput).length) :
    ∃ last, processMessageL prim self calls final = .ok (last,
      self.reference prim
        (self.iPadding.padded self.iBlockBytes (message calls ++ final.aInput))) := by
  obtain ⟨_, _, hfinal, hmessage⟩ := processMessageL_fed h hroom
  obtain ⟨last, aOutput, hlast, hreference⟩ :=
    processFinalL_encrypt h hmode hprim hfinal hnone
  exact ⟨last, hmessage last aOutput _ hlast hreference⟩

/-- Twenty octets in two calls, with a permutation that turns the bits over. -/
theorem processMessageL_encrypt_twenty :
    ∃ last, processMessageL ⟨List.map (~~~ ·), List.map (~~~ ·)⟩
      (constructL 8 .KCryptoModeEncrypt .KOperationModeECB .PKCS7 (replicate 8 0))
      [⟨replicate 13 1, ⟨[], 8⟩⟩] ⟨replicate 7 2, ⟨[], 16⟩⟩ = .ok (last,
        reference ⟨List.map (~~~ ·), List.map (~~~ ·)⟩
          (constructL 8 .KCryptoModeEncrypt .KOperationModeECB .PKCS7 (replicate 8 0))
          (CPadding.padded 8 .PKCS7 (replicate 13 1 ++ replicate 7 2))) := by
  have hfresh : (constructL 8 .KCryptoModeEncrypt .KOperationModeECB .PKCS7
      (replicate 8 0)).Fresh := fresh_constructL ⟨by decide, by decide, Eq.refl (2 ^ 3)⟩ _ _ _
  apply processMessageL_encrypt hfresh rfl
  · intro b hb
    show (b.map _).length = _
    rw [length_map]
    exact hb
  · refine ⟨by decide, ?_⟩
    intro next aOutput hcall
    cases hcall
    show (_ : Int) ≤ _
    decide
  · intro hself
    exact CPadding.noConfusion hself

end CSymmetricBlockCipherImpl

end OsSecurity

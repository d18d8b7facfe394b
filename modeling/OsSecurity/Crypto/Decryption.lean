/-
Decryption undoes encryption.

A decrypting cipher holds nothing back: every call decrypts the whole blocks it has, and
`ProcessFinalL` takes the padding off what it decrypts itself.  That is right as long as the
padding ends in there, which it does when the last call completes a block; and then what the
calls append to their outputs is the plaintext, whatever the pieces.

`decryptLastL` decrypts more than one block into a buffer that is allocated for the unpadded
text.  It holds the padded text because a cell of the heap is a number of words.
-/
import OsSecurity.Crypto.Encryption

namespace OsSecurity

open BlockModes Blockwise List

/-- Decryption inverts encryption, on blocks. -/
structure BlockPrimitive.Inverts (prim : BlockPrimitive) (size : Nat) : Prop where
  length : ∀ b, b.length = size → (prim.encrypt b).length = size
  inverse : ∀ b, b.length = size → prim.decrypt (prim.encrypt b) = b

theorem xorBytes_cancel {a b : Bytes} (h : a.length ≤ b.length) :
    xorBytes (xorBytes a b) b = a := by
  induction a generalizing b with
  | nil => rfl
  | cons x xs ih =>
      cases b with
      | nil => exact absurd h (by simp)
      | cons y ys =>
        show ((x ^^^ y) ^^^ y) :: xorBytes (xorBytes xs ys) ys = x :: xs
        rw [ih (Nat.le_of_succ_le_succ h), UInt8.xor_assoc, UInt8.xor_self, UInt8.xor_zero]

namespace CSymmetricBlockCipherImpl

variable {self : CSymmetricBlockCipherImpl} {prim : BlockPrimitive}

theorem undoes_modeDecrypt (h : self.Fresh) (hprim : prim.Inverts self.iBlockBytes) :
    Undoes (modeEncrypt prim self.iOperationMode) (modeDecrypt prim self.iOperationMode)
      self.iBlockBytes self.RegisterFits := by
  rcases h.mode with hmode | hmode
  · rw [hmode]
    exact undoes_ecbStep hprim.length hprim.inverse
  · have hundoes : Undoes (cbcStep prim.encrypt xorBytes)
        (cbcBack prim.decrypt xorBytes) self.iBlockBytes
        (fun iv => iv.length = self.iBlockBytes) :=
      undoes_cbcStep hprim.length hprim.inverse (fun _ _ => xorBytes_length)
        fun _ _ hb hc => xorBytes_cancel (le_of_eq (hb.trans hc.symm))
    have hfits : self.RegisterFits = fun iv => iv.length = self.iBlockBytes := by
      unfold RegisterFits
      simp [hmode]
    rw [hfits, hmode]
    exact hundoes

/-- The blocks of any front of a ciphertext are decrypted to a front of what was encrypted. -/
theorem done_modeDecrypt (h : self.Fresh) (hprim : prim.Inverts self.iBlockBytes)
    {text a b : Bytes} (heq : self.reference prim text = a ++ b) :
    (Blockwise.done (modeDecrypt prim self.iOperationMode) self.iBlockBytes self.iRegister a).2 =
      text.take (a.length / self.iBlockBytes * self.iBlockBytes) := by
  rw [reference_eq h] at heq
  exact (undoes_modeDecrypt h hprim).done (fun hcbc => (h.iv hcbc).2) heq

theorem reference_length (h : self.Fresh) (hprim : Blocks prim self.iBlockBytes)
    (text : Bytes) : (self.reference prim text).length =
      text.length / self.iBlockBytes * self.iBlockBytes := by
  rw [reference_eq h]
  exact ((keeps_modeEncrypt h hprim).run (Nat.div_mul_le_self _ _) fun hcbc => (h.iv hcbc).2).2

/-! ### The last call -/

theorem maxFinalOutputLength_decrypt (h : self.Fresh)
    (hdecrypt : self.iCryptoMode = .KCryptoModeDecrypt) (msg : Bytes) (aInputLength : Nat) :
    (fed prim self msg).maxFinalOutputLength aInputLength =
      (aInputLength + (carry self.iBlockBytes msg).length : Nat) -
        (self.iPadding.minPaddingLength : Int) := by
  unfold maxFinalOutputLength
  rw [if_neg (show (fed prim self msg).iOperationMode ≠ .KOperationModeCTR from h.not_ctr),
    show (fed prim self msg).iCryptoMode = .KCryptoModeDecrypt from hdecrypt]
  rfl

/-- The last call decrypts the blocks it completes, into the one place or the other. -/
theorem decryptLastL_fed (h : self.Fresh) {msg x : Bytes}
    (hstep : self.modeTransform prim = modeDecrypt prim self.iOperationMode)
    (hdecrypt : self.iCryptoMode = .KCryptoModeDecrypt)
    (hwhole : self.iBlockBytes ∣ (carry self.iBlockBytes msg).length + x.length)
    (hpos : 0 < (carry self.iBlockBytes msg).length + x.length)
    (hlen : (output prim self msg x).length =
      (carry self.iBlockBytes msg).length + x.length) :
    ∃ next, (fed prim self msg).decryptLastL prim x = .ok (next, output prim self msg x) ∧
      next.iPadding = self.iPadding := by
  have hblocks : self.blocks msg x * self.iBlockBytes =
      (carry self.iBlockBytes msg).length + x.length := Nat.div_mul_cancel hwhole
  have hmin : self.iPadding.minPaddingLength ≤ 1 := by
    cases self.iPadding <;> decide
  unfold decryptLastL
  by_cases hx : x.length > self.iBlockBytes
  · -- into a buffer of its own
    have heven : 2 ∣ (carry self.iBlockBytes msg).length + x.length := by
      obtain ⟨k, hk, _, hsize⟩ := h.size
      refine Nat.dvd_trans ?_ hwhole
      rw [hsize]
      exact dvd_pow_self 2 (by omega)
    have hroom : (⟨[], TDes8.heapCapacity
        ((fed prim self msg).maxFinalOutputLength x.length).toNat⟩ : TDes8).length +
          (fed prim self msg).maxOutputLength x.length ≤
            TDes8.heapCapacity ((fed prim self msg).maxFinalOutputLength x.length).toNat := by
      rw [h.maxOutputLength_fed, maxFinalOutputLength_decrypt h hdecrypt]
      show 0 + self.blocks msg x * self.iBlockBytes ≤ _
      unfold TDes8.heapCapacity
      omega
    refine ⟨fed prim self (msg ++ x), ?_, rfl⟩
    rw [if_pos (show x.length > (fed prim self msg).iBlockBytes from hx)]
    simp only
    rw [processL_fed prim h msg x hroom]
    rfl
  · -- in the store
    have hlt := carry_length_lt h.size_pos msg
    have hone : self.blocks msg x = 1 := by
      have hle : self.blocks msg x < 2 := Nat.div_lt_of_lt_mul (by omega)
      have hne : self.blocks msg x ≠ 0 := by
        intro hzero
        rw [hzero] at hblocks
        omega
      omega
    rw [hone, Nat.one_mul] at hblocks
    have hroom : (⟨(fed prim self msg).iInputStore, (fed prim self msg).iBlockBytes⟩ :
        TDes8).length + x.length ≤ (fed prim self msg).iBlockBytes := by
      show (carry self.iBlockBytes msg).length + x.length ≤ self.iBlockBytes
      omega
    have hblock : (carry self.iBlockBytes msg ++ x).length =
        1 * (fed prim self msg).iBlockBytes := by
      rw [length_append, Nat.one_mul]
      exact hblocks.symm
    have htransform : (fed prim self msg).transformAt
        (modeDecrypt prim (fed prim self msg).iOperationMode)
        (carry self.iBlockBytes msg ++ x) 0 1 = _ :=
      transformAt_append (modeDecrypt prim self.iOperationMode) [] hblock
    have hdata : output prim self msg x = (Blockwise.run (modeDecrypt prim self.iOperationMode)
        self.iBlockBytes 1 (fed prim self msg).iRegister
        (carry self.iBlockBytes msg ++ x)).2 := by
      unfold output
      rw [hone, ← hstep]
      rfl
    have htake : (output prim self msg x).take
        (carry self.iBlockBytes msg ++ x).length = output prim self msg x := by
      apply take_of_length_le
      rw [hlen, length_append]
    rw [hdata] at htake
    rw [if_neg (show ¬ x.length > (fed prim self msg).iBlockBytes from hx), TDes8.append_ok hroom,
      hdata]
    refine ⟨((fed prim self msg).transformAt (modeDecrypt prim (fed prim self msg).iOperationMode)
      (carry self.iBlockBytes msg ++ x) 0 1).1, ?_, rfl⟩
    simp only [ok_bind]
    show Except.ok (_, ((fed prim self msg).transformAt (modeDecrypt prim
      (fed prim self msg).iOperationMode) (carry self.iBlockBytes msg ++ x) 0 1).2.take
        (carry self.iBlockBytes msg ++ x).length) = _
    rw [htransform, nil_append]
    rw [show (carry self.iBlockBytes msg).append x = carry self.iBlockBytes msg ++ x from rfl]
    exact congrArg (fun data => Except.ok (_, data)) htake

/-- **`ProcessFinalL` of a decrypting cipher**, with a last piece that completes a block. -/
theorem processFinalL_decrypt (h : self.Fresh) (hdecrypt : self.iCryptoMode = .KCryptoModeDecrypt)
    (hprim : prim.Inverts self.iBlockBytes) {text msg x : Bytes} {out : TDes8}
    (hcipher : self.reference prim (self.iPadding.padded self.iBlockBytes text) = msg ++ x)
    (hnone : self.iPadding = .none → self.iBlockBytes ∣ text.length)
    (hpos : 0 < (carry self.iBlockBytes msg).length + x.length)
    (hroom : (fed prim self msg).maxFinalOutputLength x.length ≤
      (out.maxLength : Int) - out.length) :
    ∃ next aOutput, (fed prim self msg).processFinalL prim x out = .ok (next, aOutput) ∧
      text = (Blockwise.done (self.modeTransform prim) self.iBlockBytes self.iRegister msg).2 ++
        aOutput.data.drop out.length := by
  have hstep : self.modeTransform prim = modeDecrypt prim self.iOperationMode := by
    unfold modeTransform
    rw [hdecrypt]
  have hsize := h.size_pos
  generalize hpadded : self.iPadding.padded self.iBlockBytes text = padded at hcipher
  have hdvd : self.iBlockBytes ∣ padded.length := by
    rw [← hpadded]
    exact CPadding.dvd_padded hsize hnone
  have hlen : (msg ++ x).length = padded.length := by
    rw [← hcipher, reference_length h hprim.length, Nat.div_mul_cancel hdvd]
  -- what has been decrypted before, and what this call decrypts
  have hbefore := done_modeDecrypt h hprim hcipher
  have hall := done_modeDecrypt h hprim (hcipher.trans (append_nil _).symm)
  rw [hlen, Nat.div_mul_cancel hdvd, take_length, ← hstep, done_output prim h, hstep,
    hbefore] at hall
  generalize hk : msg.length / self.iBlockBytes * self.iBlockBytes = k at hbefore hall
  have hkdvd : self.iBlockBytes ∣ k := by
    rw [← hk]
    exact Nat.dvd_mul_left _ _
  have hcarry : (carry self.iBlockBytes msg).length = msg.length - k := by
    unfold carry
    rw [length_drop, hk]
  have hkle : k ≤ msg.length := by
    rw [← hk]
    exact Nat.div_mul_le_self _ _
  rw [length_append] at hlen
  have houtput : output prim self msg x = padded.drop k := by
    have hsplit : padded.take k ++ padded.drop k = padded := take_append_drop k padded
    exact append_cancel_left (hall.trans hsplit.symm)
  have hrest : (carry self.iBlockBytes msg).length + x.length = padded.length - k := by
    omega
  have hwhole : self.iBlockBytes ∣ (carry self.iBlockBytes msg).length + x.length := by
    rw [hrest]
    exact Nat.dvd_sub hdvd hkdvd
  have hblock : self.iBlockBytes ≤ padded.length - k := by
    rw [← hrest]
    exact Nat.le_of_dvd hpos hwhole
  have hpaddedLength : padded.length = text.length +
      (self.iPadding.padding self.iBlockBytes text).length := by
    rw [← hpadded, CPadding.padded, length_append]
  have hmost := CPadding.padding_length_le self.iBlockBytes self.iPadding text
  have hleast := CPadding.minPaddingLength_le hsize self.iPadding text
  have hktext : k ≤ text.length := by omega
  have hlast : output prim self msg x =
      self.iPadding.padded self.iBlockBytes (text.drop k) := by
    rw [houtput, ← hpadded, CPadding.padded_drop hkdvd hktext]
  have houtputLength : (output prim self msg x).length =
      (carry self.iBlockBytes msg).length + x.length := by
    rw [houtput, length_drop, hrest]
  obtain ⟨next, hnext, hpadding⟩ :=
    decryptLastL_fed h hstep hdecrypt hwhole hpos houtputLength
  have hmax : ¬ (fed prim self msg).maxFinalOutputLength x.length >
      (out.maxLength : Int) - out.length := by omega
  rw [maxFinalOutputLength_decrypt h hdecrypt] at hroom
  have hmask : ¬ (x.length + (fed prim self msg).iInputStore.length) &&&
      ((fed prim self msg).iBlockBytes - 1) ≠ 0 := by
    show ¬ (x.length + (carry self.iBlockBytes msg).length) &&& (self.iBlockBytes - 1) ≠ 0
    rw [h.and_mask, Nat.add_comm, Nat.mod_eq_zero_of_dvd hwhole]
    exact not_not.mpr rfl
  have hsmall : self.iBlockBytes < 256 := by
    obtain ⟨k, _, hle, heq⟩ := h.size
    rw [heq]
    calc 2 ^ k ≤ 2 ^ 7 := Nat.pow_le_pow_right (by omega) hle
      _ < 256 := by decide
  have happend : out.length + (text.drop k).length ≤ out.maxLength := by
    rw [length_drop]
    omega
  have hunpad : next.iPadding.unPadL (output prim self msg x) out =
      .ok ⟨out.data ++ text.drop k, out.maxLength⟩ := by
    rw [hpadding, hlast, CPadding.unPadL_padded hsize hsmall, TDes8.append_ok happend]
  refine ⟨{ next with iPaddingBlock := [], iInputStore := [] },
    ⟨out.data ++ text.drop k, out.maxLength⟩, ?_, ?_⟩
  · unfold processFinalL
    rw [if_neg (show (fed prim self msg).iOperationMode ≠ .KOperationModeCTR from h.not_ctr),
      if_neg (show ¬ ((fed prim self msg).iOperationMode = .KOperationModeCBC ∧
        (fed prim self msg).iIv = none) from h.has_iv),
      show (fed prim self msg).iCryptoMode = .KCryptoModeDecrypt from hdecrypt]
    show doProcessFinalDecryptL _ _ _ _ = _
    unfold doProcessFinalDecryptL
    rw [if_neg hmax, if_neg hmask, hnext]
    simp only [ok_bind]
    rw [hunpad]
    rfl
  · rw [hstep, hbefore, ← hpadded]
    show _ = _ ++ List.drop out.data.length _
    rw [drop_left, CPadding.padded, take_append_of_le_length hktext, take_append_drop]

/-! ### The whole message -/

/-- Two ciphers set up alike, but for the direction. -/
structure Paired (encryptor decryptor : CSymmetricBlockCipherImpl) : Prop where
  encrypts : encryptor.iCryptoMode = .KCryptoModeEncrypt
  decrypts : decryptor.iCryptoMode = .KCryptoModeDecrypt
  size : decryptor.iBlockBytes = encryptor.iBlockBytes
  mode : decryptor.iOperationMode = encryptor.iOperationMode
  padding : decryptor.iPadding = encryptor.iPadding
  iv : encryptor.iOperationMode = .KOperationModeCBC → decryptor.iIv = encryptor.iIv

theorem Paired.reference {encryptor decryptor : CSymmetricBlockCipherImpl}
    (h : Paired encryptor decryptor) (hencryptor : encryptor.Fresh) (hdecryptor : decryptor.Fresh)
    (text : Bytes) : encryptor.reference prim text = decryptor.reference prim text := by
  unfold CSymmetricBlockCipherImpl.reference
  rw [h.size, h.mode]
  rcases hencryptor.mode with hmode | hmode
  · rw [hmode]
  · have hiv := h.iv hmode
    rw [(hencryptor.iv hmode).1, (hdecryptor.iv (h.mode.trans hmode)).1] at hiv
    rw [hmode, Option.some.inj hiv]

/-- With the last call there is something left to decrypt. -/
def EndsWithBlock (prim : BlockPrimitive) (self : CSymmetricBlockCipherImpl) (calls : List Call)
    (final : Call) : Prop :=
  ∀ next data, processAllL prim self calls = .ok (next, data) →
    0 < next.iInputStore.length + final.aInput.length

/--
**Decryption undoes encryption.**  Whatever calls made the ciphertext, and whatever pieces of it
the decrypting cipher gets, so long as the last piece and the stored octets are some blocks:
what its calls append to their outputs is the plaintext.
-/
theorem processMessageL_decrypt {prim : BlockPrimitive}
    {encryptor decryptor : CSymmetricBlockCipherImpl} (hencryptor : encryptor.Fresh)
    (hdecryptor : decryptor.Fresh) (hpaired : Paired encryptor decryptor)
    (hprim : prim.Inverts encryptor.iBlockBytes) {calls : List Call} {final : Call}
    (hroom : HasRoom prim final encryptor calls)
    (hnone : encryptor.iPadding = .none →
      encryptor.iBlockBytes ∣ (message calls ++ final.aInput).length) :
    ∃ last ciphertext, processMessageL prim encryptor calls final = .ok (last, ciphertext) ∧
      ∀ calls' final', message calls' ++ final'.aInput = ciphertext →
        HasRoom prim final' decryptor calls' → EndsWithBlock prim decryptor calls' final' →
          ∃ last', processMessageL prim decryptor calls' final' =
            .ok (last', message calls ++ final.aInput) := by
  obtain ⟨_, _, hfinal, hmessage⟩ := processMessageL_fed hencryptor hroom
  obtain ⟨last, aOutput, hlast, hreference⟩ :=
    processFinalL_encrypt hencryptor hpaired.encrypts hprim.length hfinal hnone
  refine ⟨last, _, hmessage last aOutput _ hlast hreference, ?_⟩
  clear hfinal hmessage hlast hreference
  intro calls' final' hsplit hroom' hends
  generalize message calls ++ final.aInput = text at hnone hsplit
  rw [hpaired.reference hencryptor hdecryptor, ← hpaired.size, ← hpaired.padding] at hsplit
  rw [← hpaired.size, ← hpaired.padding] at hnone
  rw [← hpaired.size] at hprim
  obtain ⟨_, hrun, hfinal', hmessage'⟩ := processMessageL_fed hdecryptor hroom'
  obtain ⟨last', aOutput', hlast', htext⟩ := processFinalL_decrypt hdecryptor hpaired.decrypts
    hprim hsplit.symm hnone (hends _ _ hrun) hfinal'
  exact ⟨last', hmessage' last' aOutput' _ hlast' htext⟩

/-- Eight octets, under a permutation that turns the bits over and is its own inverse.  The
ciphertext is decrypted in pieces of five octets and of eleven. -/
theorem processMessageL_decrypt_eight :
    ∃ last', processMessageL ⟨List.map (~~~ ·), List.map (~~~ ·)⟩
      (constructL 8 .KCryptoModeDecrypt .KOperationModeECB .PKCS7 (replicate 8 0))
      [⟨replicate 5 0xFD, ⟨[], 0⟩⟩]
      ⟨replicate 3 0xFD ++ replicate 8 0xF7, ⟨[], 15⟩⟩ =
        .ok (last', replicate 8 2) := by
  have hfresh : ∀ aCryptoMode, (constructL 8 aCryptoMode .KOperationModeECB .PKCS7
      (replicate 8 0)).Fresh := fun _ =>
    fresh_constructL ⟨by decide, by decide, Eq.refl (2 ^ 3)⟩ _ _ _
  have hinverts : BlockPrimitive.Inverts ⟨List.map (~~~ ·), List.map (~~~ ·)⟩ 8 := by
    refine ⟨fun b hb => ?_, fun b _ => ?_⟩
    · show (b.map _).length = _
      rw [length_map]
      exact hb
    · show (b.map _).map _ = b
      simp [Function.comp_def]
  obtain ⟨last, ciphertext, hencrypted, hdecrypted⟩ := @processMessageL_decrypt _ _ _
    (hfresh .KCryptoModeEncrypt) (hfresh .KCryptoModeDecrypt)
    ⟨rfl, rfl, rfl, rfl, rfl, fun _ => rfl⟩ hinverts [] ⟨replicate 8 2, ⟨[], 16⟩⟩
    (show (_ : Int) ≤ _ by decide) CPadding.noConfusion
  cases hencrypted
  apply hdecrypted [⟨replicate 5 0xFD, ⟨[], 0⟩⟩]
    ⟨replicate 3 0xFD ++ replicate 8 0xF7, ⟨[], 15⟩⟩
  · decide
  · refine ⟨by decide, ?_⟩
    intro next aOutput hcall
    cases hcall
    show (_ : Int) ≤ _
    decide
  · intro next data hcall
    cases hcall
    decide

end CSymmetricBlockCipherImpl

end OsSecurity

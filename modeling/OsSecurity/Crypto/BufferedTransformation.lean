/-
The buffered driver of a block cipher: `symmetric/bufferedtransformation.cpp`, over the chaining
modes of `symmetric/cbcmode.cpp`.

`CBufferedTransformation` gets its input in pieces of any length.  It transforms the whole blocks
and keeps what is over in `iInputStore` for the next call; `ProcessFinalL` pads what is left when
it encrypts, and takes the padding off the last block when it decrypts.  The functions here give
what is appended to `aOutput`, which has the room for it: the blocks are appended as they are and
transformed where they then stand.  `MaxOutputLength` and `MaxFinalOutputLength` are what a caller
goes by to make that room.

`process_eq` says what a call does without its loop: it is the whole blocks of the stored octets
and the new ones.
-/
import OsSecurity.Crypto.CtrMode

namespace OsSecurity

open Blockwise CPadding List Nat

open CSymmetricBlockCipherImpl (xorBytes_comm xorBytes_length)

/-! ### Chaining -/

/-- The register, the initialization vector, and the block transformation below. -/
structure CBlockChainingMode where
  iBT : BlockPrimitive
  iBlockBytes : Nat
  iRegister : Bytes
  iIV : Bytes

namespace CBlockChainingMode

def constructL (aBT : BlockPrimitive) (aBlockBytes : Nat) (aIV : Bytes) : CBlockChainingMode where
  iBT := aBT
  iBlockBytes := aBlockBytes
  iRegister := aIV
  iIV := aIV

def reset (self : CBlockChainingMode) : CBlockChainingMode := { self with iRegister := self.iIV }

def setIV (self : CBlockChainingMode) (aIV : Bytes) : CBlockChainingMode :=
  reset { self with iIV := aIV }

/-- `CModeCBCEncryptor::Transform` -/
def encryptorTransform (self : CBlockChainingMode) (aBlock : Bytes) :
    CBlockChainingMode × Bytes :=
  let iRegister := self.iBT.encrypt (xorBytes self.iRegister aBlock)
  ({ self with iRegister }, iRegister)

/-- `CModeCBCDecryptor::Transform` -/
def decryptorTransform (self : CBlockChainingMode) (aBlock : Bytes) :
    CBlockChainingMode × Bytes :=
  ({ self with iRegister := aBlock }, xorBytes (self.iBT.decrypt aBlock) self.iRegister)

/-- The register holds a block, and decryption inverts encryption below. -/
structure Sound (size : Nat) (mode : CBlockChainingMode) : Prop where
  block : mode.iBlockBytes = size
  register : mode.iRegister.length = size
  inverts : mode.iBT.Inverts size

/-- From the same register on, the one undoes the other. -/
theorem undoes_decryptorTransform (size : Nat) :
    Undoes encryptorTransform decryptorTransform size (Sound size) where
  length := by
    intro s b hs hb
    exact hs.inverts.length _ (xorBytes_length hs.register hb)
  keeps := by
    intro s b hs hb
    exact ⟨hs.block, hs.inverts.length _ (xorBytes_length hs.register hb), hs.inverts⟩
  back := by
    intro s b hs hb
    have hback : xorBytes (s.iBT.decrypt (s.iBT.encrypt (xorBytes s.iRegister b))) s.iRegister =
        b := by
      rw [hs.inverts.inverse _ (xorBytes_length hs.register hb), xorBytes_comm s.iRegister,
        xorBytes_cancel (le_of_eq (hb.trans hs.register.symm))]
    unfold decryptorTransform encryptorTransform
    simp only [hback]

end CBlockChainingMode

/-! ### The driver -/

structure CBufferedTransformation where
  iBT : CBlockChainingMode
  iInputStore : Bytes

namespace CBufferedTransformation

def constructL (aBT : CBlockChainingMode) : CBufferedTransformation := ⟨aBT, []⟩

def blockSize (self : CBufferedTransformation) : Nat := self.iBT.iBlockBytes

/-- `Process`, with the mode's `Transform`.  The loop takes one block on from `inputIndex` at a time
until there is no whole one left. -/
def process (transform : CBlockChainingMode → Bytes → CBlockChainingMode × Bytes)
    (self : CBufferedTransformation) (aInput : Bytes) : CBufferedTransformation × Bytes :=
  if aInput.length + self.iInputStore.length < self.blockSize then
    ({ self with iInputStore := self.iInputStore ++ aInput }, [])
  else
    let inputIndex := self.blockSize - self.iInputStore.length
    let first := transform self.iBT (self.iInputStore ++ aInput.take inputIndex)
    let passes := (aInput.length - inputIndex) / self.blockSize
    let rest := Blockwise.run transform self.blockSize passes first.1 (aInput.drop inputIndex)
    (⟨rest.1, aInput.drop (inputIndex + passes * self.blockSize)⟩, first.2 ++ rest.2)

/-- The remainder is C++'s, which has the sign of what is divided. -/
def maxOutputLength (self : CBufferedTransformation) (aInputLength : Int) : Int :=
  let rem := (aInputLength + self.iInputStore.length).tmod self.blockSize
  aInputLength + self.iInputStore.length - rem

variable {transform : CBlockChainingMode → Bytes → CBlockChainingMode × Bytes}
  {self : CBufferedTransformation} {size : Nat}

/-- **`Process` without its loop**: the stored octets and the new ones are one message. -/
theorem process_eq (hstore : self.iInputStore.length < self.blockSize) (aInput : Bytes) :
    self.process transform aInput =
      (⟨(done transform self.blockSize self.iBT (self.iInputStore ++ aInput)).1,
          carry self.blockSize (self.iInputStore ++ aInput)⟩,
        (done transform self.blockSize self.iBT (self.iInputStore ++ aInput)).2) := by
  have hlen : (self.iInputStore ++ aInput).length = aInput.length + self.iInputStore.length := by
    rw [length_append, Nat.add_comm]
  unfold process done carry
  rw [hlen]
  by_cases h : aInput.length + self.iInputStore.length < self.blockSize
  · rw [if_pos h, div_eq_of_lt h, Nat.zero_mul]
    rfl
  · -- one block is completed by the new octets, and the loop takes the others
    have hpasses : (aInput.length + self.iInputStore.length) / self.blockSize =
        (aInput.length - (self.blockSize - self.iInputStore.length)) / self.blockSize + 1 := by
      rw [← add_div_right _ (by omega)]
      congr 1
      omega
    have htake : (self.iInputStore ++ aInput).take self.blockSize =
        self.iInputStore ++ aInput.take (self.blockSize - self.iInputStore.length) := by
      rw [take_append, take_of_length_le (by omega)]
    have hdrop : (self.iInputStore ++ aInput).drop self.blockSize =
        aInput.drop (self.blockSize - self.iInputStore.length) := by
      rw [drop_append, drop_eq_nil_of_le (by omega), nil_append]
    rw [if_neg h, hpasses, run_succ, htake, hdrop, succ_mul,
      Nat.add_comm _ self.blockSize, ← drop_drop, hdrop, drop_drop]

/-! ### Pieces -/

/-- The driver after the octets of `msg`. -/
def fed (transform : CBlockChainingMode → Bytes → CBlockChainingMode × Bytes)
    (self : CBufferedTransformation) (msg : Bytes) : CBufferedTransformation :=
  ⟨(Blockwise.done transform self.blockSize self.iBT msg).1,
    carry self.blockSize msg⟩

theorem fed_nil (hstore : self.iInputStore = []) : fed transform self [] = self := by
  unfold fed
  rw [done_nil, carry_nil, ← hstore]

theorem run_iBlockBytes (hkeeps : ∀ s b, (transform s b).1.iBlockBytes = s.iBlockBytes)
    (size n : Nat) (s : CBlockChainingMode) (xs : Bytes) :
    (Blockwise.run transform size n s xs).1.iBlockBytes = s.iBlockBytes := by
  induction n generalizing s xs with
  | zero => rfl
  | succ n ih =>
      rw [run_succ]
      exact (ih _ _).trans (hkeeps _ _)

theorem blockSize_fed (hkeeps : ∀ s b, (transform s b).1.iBlockBytes = s.iBlockBytes)
    (msg : Bytes) : (fed transform self msg).blockSize = self.blockSize :=
  run_iBlockBytes hkeeps _ _ _ _

variable (self) in
/-- **`Process` on the next piece** brings the driver to where it would be had it seen both at once,
and appends what is then new. -/
theorem process_fed (hkeeps : ∀ s b, (transform s b).1.iBlockBytes = s.iBlockBytes)
    (hsize : 0 < self.blockSize) (msg x : Bytes) :
    ∃ out, (fed transform self msg).process transform x = (fed transform self (msg ++ x), out) ∧
      (done transform self.blockSize self.iBT msg).2 ++ out =
        (done transform self.blockSize self.iBT (msg ++ x)).2 := by
  have hstore : (fed transform self msg).iInputStore.length <
      (fed transform self msg).blockSize := by
    rw [blockSize_fed hkeeps]
    exact carry_length_lt hsize msg
  have hdone : done transform self.blockSize self.iBT (msg ++ x) = _ :=
    done_carry_append hsize self.iBT msg x
  refine ⟨_, ?_, (congrArg Prod.snd hdone).symm⟩
  rw [process_eq hstore, blockSize_fed hkeeps]
  unfold fed
  rw [hdone, carry_carry_append hsize msg x]

variable (self) in
/-- What is announced before a piece: the whole blocks it completes. -/
theorem maxOutputLength_fed (hkeeps : ∀ s b, (transform s b).1.iBlockBytes = s.iBlockBytes)
    (msg : Bytes) (n : Nat) : (fed transform self msg).maxOutputLength n =
      ((n + msg.length % self.blockSize) / self.blockSize * self.blockSize : Nat) := by
  have hstore : (fed transform self msg).iInputStore.length = msg.length % self.blockSize :=
    carry_length msg
  have hdiv := div_add_mod (n + msg.length % self.blockSize) self.blockSize
  unfold maxOutputLength
  rw [blockSize_fed hkeeps, hstore, ← Int.natCast_add, ← Int.ofNat_tmod, Nat.mul_comm]
  simp only
  omega

/-- The whole blocks that a piece completes. -/
theorem div_mul_add (hsize : 0 < size) (m n : Nat) :
    (m + n) / size * size = m / size * size + (n + m % size) / size * size := by
  have h := div_add_mod m size
  have hsplit : (m + n) / size = m / size + (n + m % size) / size := by
    calc (m + n) / size = (size * (m / size) + (n + m % size)) / size := by
          congr 1
          omega
      _ = m / size + (n + m % size) / size := mul_add_div hsize _ _
  rw [hsplit, Nat.add_mul]

end CBufferedTransformation

namespace CBufferedEncryptor

/-- `ProcessFinalL`: what is left over is padded to whole blocks, which are transformed. -/
def processFinalL (iPadding : CPadding) (self : CBufferedTransformation) (aInput : Bytes) :
    Leaving (CBufferedTransformation × Bytes) := do
  let (self, blocks) := self.process CBlockChainingMode.encryptorTransform aInput
  let padded ← iPadding.padL self.blockSize self.iInputStore
    ⟨[], iPadding.maxPaddedLength self.blockSize self.iInputStore.length⟩
  let last := Blockwise.run CBlockChainingMode.encryptorTransform self.blockSize
    (padded.length / self.blockSize) self.iBT padded.data
  return (⟨last.1, []⟩, blocks ++ last.2)

def maxFinalOutputLength (iPadding : CPadding) (self : CBufferedTransformation)
    (aInputLength : Nat) : Int :=
  iPadding.maxPaddedLength self.blockSize (self.iInputStore.length + aInputLength)

open CBufferedTransformation CBlockChainingMode

variable {self : CBufferedTransformation}

theorem padL_carry {size : Nat} {store : Bytes} (h : store.length < size) :
    SSLv3.padL size store ⟨[], SSLv3.maxPaddedLength size store.length⟩ =
      .ok ⟨SSLv3.padded size store, SSLv3.maxPaddedLength size store.length⟩ := by
  have hpadding : (SSLv3.padding size store).length = size - store.length % size :=
    padding_length (by decide)
  have hmax : SSLv3.maxPaddedLength size store.length =
      size - store.length % size + store.length := rfl
  have hsmall : ¬ ((store.length : Int) > size - SSLv3.minPaddingLength ∧
      store.length ≠ size) := by
    show ¬ ((store.length : Int) > size - (1 : Nat) ∧ _)
    omega
  unfold padL doPadL
  rw [if_neg hsmall, if_neg (Nat.lt_irrefl _), TDes8.append_ok, ok_bind,
    TDes8.append_ok, nil_append]
  · rfl
  · show ([] ++ store).length + _ ≤ SSLv3.maxPaddedLength size store.length
    rw [nil_append, hpadding, hmax]
    omega
  · show 0 + store.length ≤ SSLv3.maxPaddedLength size store.length
    omega

/-- **`ProcessFinalL` brings the ciphertext of the padded text to its end.** -/
theorem processFinalL_fed (hsize : 0 < self.blockSize) (msg x : Bytes) :
    ∃ next out, processFinalL .SSLv3 (fed encryptorTransform self msg) x = .ok (next, out) ∧
      (done encryptorTransform self.blockSize self.iBT msg).2 ++ out =
        (done encryptorTransform self.blockSize self.iBT
          (SSLv3.padded self.blockSize (msg ++ x))).2 := by
  have hkeeps : ∀ s b, (encryptorTransform s b).1.iBlockBytes = s.iBlockBytes := fun _ _ => rfl
  obtain ⟨blocks, hprocess, hblocks⟩ := process_fed self hkeeps hsize msg x
  have hlast : done encryptorTransform self.blockSize self.iBT
      (msg ++ x ++ SSLv3.padding self.blockSize (msg ++ x)) = _ :=
    done_carry_append hsize self.iBT (msg ++ x) _
  have hpadding : SSLv3.padding self.blockSize (msg ++ x) =
      SSLv3.padding self.blockSize (carry self.blockSize (msg ++ x)) := by
    apply padding_congr
    rw [carry_length, mod_mod]
  have hpad := padL_carry (carry_length_lt hsize (msg ++ x))
  unfold processFinalL
  rw [hprocess]
  simp only [blockSize_fed hkeeps]
  rw [show (fed encryptorTransform self (msg ++ x)).iInputStore =
    carry self.blockSize (msg ++ x) from rfl, hpad, ok_bind]
  refine ⟨_, _, rfl, ?_⟩
  rw [← List.append_assoc, hblocks]
  unfold CPadding.padded
  rw [hlast, hpadding]
  rfl

end CBufferedEncryptor

namespace CBufferedDecryptor

/-- `ProcessFinalL`: all but the last block goes to the output, the last one to a buffer of its own,
and from there without its padding to the output. -/
def processFinalL (iPadding : CPadding) (self : CBufferedTransformation) (aInput : Bytes) :
    Leaving (CBufferedTransformation × Bytes) := do
  let lenToDecrypt := aInput.length - self.blockSize
  let (self, blocks) := if 0 < lenToDecrypt then
      self.process CBlockChainingMode.decryptorTransform (aInput.take lenToDecrypt)
    else (self, [])
  let (self, padBuf) := self.process CBlockChainingMode.decryptorTransform
    (aInput.drop lenToDecrypt)
  let last ← iPadding.unPadL padBuf ⟨[], padBuf.length⟩
  return (self, blocks ++ last.data)

def maxFinalOutputLength (iPadding : CPadding) (self : CBufferedTransformation)
    (aInputLength : Int) : Int :=
  aInputLength + self.iInputStore.length - iPadding.minPaddingLength

open CBufferedTransformation CBlockChainingMode

variable {self : CBufferedTransformation}

variable (self) in
/-- What the driver has given back of the text that a ciphertext is of, block by block. -/
theorem done_ciphertext (hsound : self.iBT.Sound self.blockSize) {text a b : Bytes}
    (h : (done encryptorTransform self.blockSize self.iBT text).2 = a ++ b) :
    (done decryptorTransform self.blockSize self.iBT a).2 =
      text.take (a.length / self.blockSize * self.blockSize) :=
  (undoes_decryptorTransform self.blockSize).done hsound h

variable (self) in
theorem ciphertext_length (hsound : self.iBT.Sound self.blockSize) {text : Bytes}
    (hdvd : self.blockSize ∣ text.length) :
    (done encryptorTransform self.blockSize self.iBT text).2.length = text.length := by
  have h := ((undoes_decryptorTransform self.blockSize).toKeeps.run
    (div_mul_le_self text.length self.blockSize) hsound).2
  rw [Nat.div_mul_cancel hdvd] at h
  exact h

/-- All the blocks but the last, whether the last piece is longer than a block or not. -/
theorem front_length {size m n : Nat} (hdvd : size ∣ m + n) (hn : 0 < n) :
    (m + min (n - size) n) / size * size = m + n - size := by
  obtain ⟨q, hq⟩ := hdvd
  have hsize : 0 < size := by
    apply Nat.pos_of_ne_zero
    intro hzero
    rw [hzero, Nat.zero_mul] at hq
    omega
  obtain ⟨p, rfl⟩ : ∃ p, q = p + 1 := by
    refine exists_eq_succ_of_ne_zero ?_
    intro hzero
    rw [hzero, Nat.mul_zero] at hq
    omega
  rw [mul_succ] at hq
  have hdiv : (m + min (n - size) n) / size = p := by
    apply Nat.div_eq_of_lt_le
    · rw [Nat.mul_comm]
      omega
    · rw [succ_mul, Nat.mul_comm]
      omega
  rw [hdiv, Nat.mul_comm]
  omega

variable (self) in
/-- **`ProcessFinalL` gives back the rest of the text**, when there is something left of the
ciphertext for it. -/
theorem processFinalL_fed (hsound : self.iBT.Sound self.blockSize) (hsize : 0 < self.blockSize)
    (hmax : self.blockSize < 256) {text msg x : Bytes} (hx : x ≠ [])
    (h : (done encryptorTransform self.blockSize self.iBT
      (SSLv3.padded self.blockSize text)).2 = msg ++ x) :
    ∃ next out, processFinalL .SSLv3 (fed decryptorTransform self msg) x = .ok (next, out) ∧
      (done decryptorTransform self.blockSize self.iBT msg).2 ++ out = text := by
  have hkeeps : ∀ s b, (decryptorTransform s b).1.iBlockBytes = s.iBlockBytes := fun _ _ => rfl
  have hdvd : self.blockSize ∣ (SSLv3.padded self.blockSize text).length :=
    dvd_padded hsize (fun hnone => absurd hnone (by decide))
  have hlen : msg.length + x.length = (SSLv3.padded self.blockSize text).length := by
    rw [← length_append, ← h, ciphertext_length self hsound hdvd]
  have hpadded : (SSLv3.padded self.blockSize text).length =
      text.length + (SSLv3.padding self.blockSize text).length := length_append
  have hpadding := padding_length_le self.blockSize .SSLv3 text
  have hpos : 0 < x.length := length_pos_of_ne_nil hx
  generalize hk : (SSLv3.padded self.blockSize text).length - self.blockSize = k
  have hkdvd : self.blockSize ∣ k := by
    rw [← hk]
    exact Nat.dvd_sub hdvd (Nat.dvd_refl _)
  have hblock : self.blockSize ≤ (SSLv3.padded self.blockSize text).length :=
    le_of_dvd (by omega) hdvd
  -- all but the last block, and then the last one
  obtain ⟨blocks, hprocess, hblocks⟩ := process_fed self hkeeps hsize msg
    (x.take (x.length - self.blockSize))
  obtain ⟨padBuf, hprocess', hpadBuf⟩ := process_fed self hkeeps hsize
    (msg ++ x.take (x.length - self.blockSize)) (x.drop (x.length - self.blockSize))
  rw [List.append_assoc, take_append_drop, ← hblocks] at hpadBuf
  have hall := done_ciphertext self hsound (h.trans (append_nil _).symm)
  have hcut : (done encryptorTransform self.blockSize self.iBT
      (SSLv3.padded self.blockSize text)).2 =
        msg ++ x.take (x.length - self.blockSize) ++ x.drop (x.length - self.blockSize) := by
    rw [List.append_assoc, take_append_drop]
    exact h
  have hbefore := done_ciphertext self hsound hcut
  have hfront : (msg ++ x.take (x.length - self.blockSize)).length / self.blockSize *
      self.blockSize = k := by
    rw [length_append, length_take, front_length (hlen ▸ hdvd) hpos, hlen, hk]
  rw [hfront, ← hblocks] at hbefore
  rw [length_append, hlen, Nat.div_mul_cancel hdvd, take_length] at hall
  rw [hall, hbefore] at hpadBuf
  have hktext : k ≤ text.length := by omega
  have hlast : padBuf = SSLv3.padded self.blockSize (text.drop k) := by
    rw [← padded_drop hkdvd hktext]
    exact append_cancel_left (hpadBuf.trans (take_append_drop k _).symm)
  have hunpad : SSLv3.unPadL padBuf ⟨[], padBuf.length⟩ =
      .ok ⟨text.drop k, padBuf.length⟩ := by
    have hroom : 0 + (text.drop k).length ≤ padBuf.length := by
      rw [hlast, CPadding.padded, length_append]
      omega
    rw [hlast, unPadL_padded hsize hmax, ← hlast]
    exact TDes8.append_ok hroom
  have hfirst : (if 0 < x.length - self.blockSize then
      (fed decryptorTransform self msg).process decryptorTransform
        (x.take (x.length - self.blockSize))
      else (fed decryptorTransform self msg, [])) =
        (fed decryptorTransform self (msg ++ x.take (x.length - self.blockSize)), blocks) := by
    by_cases hmore : 0 < x.length - self.blockSize
    · rw [if_pos hmore, hprocess]
    · have hzero : x.length - self.blockSize = 0 := by omega
      rw [hzero, take_zero, append_nil] at hblocks ⊢
      rw [if_neg (Nat.lt_irrefl 0), append_cancel_left (hblocks.trans (append_nil _).symm)]
  unfold processFinalL
  simp only [blockSize_fed hkeeps, hfirst, hprocess']
  rw [hunpad, ok_bind]
  refine ⟨_, _, rfl, ?_⟩
  rw [← List.append_assoc, hbefore, CPadding.padded, take_append_of_le_length hktext,
    take_append_drop]

end CBufferedDecryptor

end OsSecurity

/-
What the fields of `CCMacImpl` are after a message.

`Held` says it of all of them but the register of the cipher: the last block is in `iData`, and
`iE` is the chain of the blocks before it.  `Synced` says that the register is `iE`, as it is but
for a `Reset` that could not set it.  The loop of `DoUpdateL` keeps the two, a block or the
rest of one in a turn.
-/
import OsSecurity.Crypto.Cmac
import OsSecurity.Crypto.Chunked

namespace OsSecurity

open Blockwise List

/-! ### A block through the cipher -/

namespace CSymmetricBlockCipherImpl

/-- A cipher of blocks of sixteen octets that encrypts without padding. -/
structure Plain (cipher : CSymmetricBlockCipherImpl) : Prop where
  size : cipher.iBlockBytes = 16
  encrypts : cipher.iCryptoMode = .KCryptoModeEncrypt
  padding : cipher.iPadding = .none

/-- Such a cipher that holds no input. -/
structure Idle (cipher : CSymmetricBlockCipherImpl) : Prop extends Plain cipher where
  store : cipher.iInputStore = []
  paddingBlock : cipher.iPaddingBlock = []
  /-- CTR mode is not used, and `SetIvL` has been called where the mode needs it. -/
  mode : cipher.iOperationMode = .KOperationModeNone ∨
    cipher.iOperationMode = .KOperationModeCBC ∧ cipher.iIv ≠ none

variable {self : CSymmetricBlockCipherImpl} {prim : BlockPrimitive} {x : Bytes}

theorem Idle.not_ctr (h : self.Idle) : self.iOperationMode ≠ .KOperationModeCTR := by
  intro hctr
  rcases h.mode with hmode | ⟨hmode, -⟩
  · rw [hmode] at hctr
    exact OperationMode.noConfusion hctr
  · rw [hmode] at hctr
    exact OperationMode.noConfusion hctr

theorem Idle.has_iv (h : self.Idle) :
    ¬ (self.iOperationMode = .KOperationModeCBC ∧ self.iIv = none) := by
  rintro ⟨hcbc, hnone⟩
  rcases h.mode with hmode | ⟨-, hiv⟩
  · rw [hmode] at hcbc
    exact OperationMode.noConfusion hcbc
  · exact hiv hnone

/-- The cipher behind a block. -/
def afterBlock (prim : BlockPrimitive) (self : CSymmetricBlockCipherImpl) (x : Bytes) :
    CSymmetricBlockCipherImpl :=
  { self with iRegister := (modeEncrypt prim self.iOperationMode self.iRegister x).1 }

theorem Idle.afterBlock (h : self.Idle) (prim : BlockPrimitive) (x : Bytes) :
    (self.afterBlock prim x).Idle :=
  ⟨⟨h.size, h.encrypts, h.padding⟩, h.store, h.paddingBlock, h.mode⟩

/-- `ProcessL` of one block. -/
theorem Idle.processL (h : self.Idle) (hx : x.length = 16) :
    self.processL prim x ⟨[], 16⟩ = .ok (self.afterBlock prim x,
      ⟨(modeEncrypt prim self.iOperationMode self.iRegister x).2, 16⟩) := by
  have hiv : ¬ ((self.iOperationMode = .KOperationModeCBC ∨
      self.iOperationMode = .KOperationModeCTR) ∧ self.iIv = none) := by
    rintro ⟨hcbc | hctr, hnone⟩
    · exact h.has_iv ⟨hcbc, hnone⟩
    · exact h.not_ctr hctr
  have hmax : ¬ self.maxOutputLength x.length > 16 := by
    unfold maxOutputLength
    rw [if_neg h.not_ctr, h.store, h.size, hx]
    decide
  have hone : (x.length + self.iInputStore.length) >>> cryptoLog2 self.iBlockBytes = 1 := by
    rw [hx, h.store, h.size]
    rfl
  have hblock : (1 : Nat) <<< cryptoLog2 self.iBlockBytes = 1 * self.iBlockBytes := by
    rw [h.size]
    rfl
  have hnone : x.length + self.iInputStore.length - 1 * self.iBlockBytes = 0 := by
    rw [hx, h.store, h.size]
    rfl
  have hrun : Blockwise.run (self.modeTransform prim) self.iBlockBytes 1 self.iRegister
      (self.iInputStore ++ x) =
        ((modeEncrypt prim self.iOperationMode self.iRegister x).1,
          (modeEncrypt prim self.iOperationMode self.iRegister x).2) := by
    have hstep : self.modeTransform prim = modeEncrypt prim self.iOperationMode := by
      unfold modeTransform
      rw [h.encrypts]
    rw [hstep, h.store, h.size, nil_append, run_succ, run_zero,
      take_of_length_le (le_of_eq hx), append_nil]
  have hblocks : self.processBlocksL prim x ⟨[], 16⟩ 1 (1 * self.iBlockBytes) = _ :=
    processBlocksL_ok
      (by
        intro _
        rw [h.store]
        exact Nat.zero_le _)
      (by
        rw [h.store, h.size, hx]
        decide)
      (by
        intro _
        rw [h.size]
        exact Nat.le_refl 16)
  have hstored : CSymmetricBlockCipherImpl.mk self.iBlockBytes self.iCryptoMode
      self.iOperationMode self.iPadding self.iIv [] self.iPaddingBlock
        (modeEncrypt prim self.iOperationMode self.iRegister x).1 self.iCtrUnusedKeystream =
          self.afterBlock prim x := by
    unfold CSymmetricBlockCipherImpl.afterBlock
    rw [← h.store]
  unfold CSymmetricBlockCipherImpl.processL processBufferedL
  rw [if_neg hiv, if_neg hmax, if_neg h.not_ctr]
  simp only
  rw [hone, hblock, hnone, hblocks, hrun]
  simp only [ok_bind]
  unfold storeRemainingL
  rw [if_neg (Nat.lt_irrefl 0), if_neg (Nat.one_ne_zero)]
  simp only [ok_bind, leaving_pure, nil_append]
  rw [hstored]

/-- `ProcessFinalL` of one block is the same. -/
theorem Idle.processFinalL (h : self.Idle) (hx : x.length = 16) :
    self.processFinalL prim x ⟨[], 16⟩ = .ok (self.afterBlock prim x,
      ⟨(modeEncrypt prim self.iOperationMode self.iRegister x).2, 16⟩) := by
  have hafter := h.afterBlock prim x
  have hmax : ¬ (self.maxFinalOutputLength x.length >
      ((⟨[], 16⟩ : TDes8).maxLength : Int) - (⟨[], 16⟩ : TDes8).length) := by
    unfold maxFinalOutputLength
    rw [if_neg h.not_ctr, h.encrypts, h.padding, h.store, hx]
    exact Int.lt_irrefl 16
  have hpad : (self.afterBlock prim x).iPadding.padL (self.afterBlock prim x).iBlockBytes
      (self.afterBlock prim x).iInputStore ⟨(self.afterBlock prim x).iPaddingBlock,
        (self.afterBlock prim x).iBlockBytes⟩ = .ok ⟨[], 16⟩ := by
    rw [hafter.padding, hafter.size, hafter.store, hafter.paddingBlock]
    rfl
  have hnone : { self.afterBlock prim x with iPaddingBlock := [] } = self.afterBlock prim x := by
    rw [← hafter.paddingBlock]
  unfold CSymmetricBlockCipherImpl.processFinalL
  rw [if_neg h.not_ctr, if_neg h.has_iv, h.encrypts]
  simp only
  unfold doProcessFinalEncryptL
  rw [if_neg hmax, h.processL hx]
  simp only [ok_bind]
  rw [hpad]
  simp only [ok_bind]
  unfold appendPaddingL
  rw [if_neg (show ¬ ([] : Bytes).length > 0 from Nat.lt_irrefl 0), hnone]

/-- Nothing but the register is changed by `Reset`, and it becomes the vector in CBC mode. -/
theorem Plain.setIvL (h : self.Plain) (hmode : self.iOperationMode = .KOperationModeCBC)
    {aIv : Bytes} (hiv : aIv.length = 16) :
    ∃ next, self.setIvL aIv = .ok next ∧ next.Idle ∧
      next.iOperationMode = .KOperationModeCBC ∧ next.iRegister = aIv := by
  refine ⟨CSymmetricBlockCipherImpl.reset { self with iIv := some aIv, iRegister := aIv }, ?_,
    ⟨⟨h.size, h.encrypts, h.padding⟩, rfl, rfl, Or.inr ⟨hmode, ?_⟩⟩, hmode, ?_⟩
  · unfold CSymmetricBlockCipherImpl.setIvL
    rw [if_neg (fun hboth => hboth.1 hmode), if_neg (by rw [hiv, h.size]; exact fun hne => hne rfl)]
  · exact Option.some_ne_none aIv
  · unfold CSymmetricBlockCipherImpl.reset
    simp [hmode]

end CSymmetricBlockCipherImpl

/-! ### The fields after a message -/

namespace Xcbc

theorem xorBytes_length {a b : Bytes} (h : a.length = b.length) :
    (xorBytes a b).length = a.length := by
  unfold xorBytes
  rw [length_zipWith, ← h, Nat.min_self]

theorem xorBytes_right_comm (a b c : Bytes) :
    xorBytes (xorBytes a b) c = xorBytes (xorBytes a c) b := by
  unfold xorBytes
  induction a generalizing b c with
  | nil => rfl
  | cons x a ih =>
      cases b with
      | nil => cases c <;> rfl
      | cons y b =>
        cases c with
        | nil => rfl
        | cons z c =>
          simp only [zipWith_cons_cons]
          rw [ih, UInt8.xor_assoc, UInt8.xor_comm y z, ← UInt8.xor_assoc]

/-- One more block. -/
theorem chain_succ (E : Bytes → Bytes) (n : Nat) (msg : Bytes) :
    chain E (n + 1) msg =
      E (xorBytes ((msg.drop (n * KMacBlockSize)).take KMacBlockSize) (chain E n msg)) := by
  unfold chain
  rw [run_add, run_succ, run_zero]
  rfl

theorem length_chain {E : Bytes → Bytes}
    (hE : ∀ block : Bytes, block.length = KMacBlockSize → (E block).length = KMacBlockSize)
    {n : Nat} {msg : Bytes} (h : n * KMacBlockSize ≤ msg.length) :
    (chain E n msg).length = KMacBlockSize := by
  induction n with
  | zero => rfl
  | succ n ih =>
      rw [Nat.succ_mul] at h
      have hblock : ((msg.drop (n * KMacBlockSize)).take KMacBlockSize).length =
          KMacBlockSize := by
        rw [length_take, length_drop]
        omega
      rw [chain_succ]
      apply hE
      rw [xorBytes_length, hblock]
      rw [hblock, ih (by omega)]

/-- What is behind the blocks does not matter. -/
theorem chain_append (E : Bytes → Bytes) {n : Nat} {msg : Bytes}
    (h : n * KMacBlockSize ≤ msg.length) (more : Bytes) :
    chain E n (msg ++ more) = chain E n msg := by
  unfold chain
  rw [Blockwise.run_append h]

theorem before_le (length : Nat) : before length * KMacBlockSize ≤ length ∧
    length - before length * KMacBlockSize ≤ KMacBlockSize := by
  unfold before KMacBlockSize
  omega

/-- The blocks before the last, where it is known how much is in that. -/
theorem before_of_last {n last : Nat} (hlast : 0 < last) (hle : last ≤ KMacBlockSize) :
    before (n * KMacBlockSize + last) = n := by
  unfold before KMacBlockSize at *
  omega

theorem length_lastBlock {key2 key3 last : Bytes} (hlast : last.length ≤ KMacBlockSize)
    (hkey2 : key2.length = KMacBlockSize) (hkey3 : key3.length = KMacBlockSize) :
    (lastBlock key2 key3 last).1.length = KMacBlockSize ∧
      (lastBlock key2 key3 last).2.length = KMacBlockSize := by
  unfold lastBlock
  by_cases hfull : last.length = KMacBlockSize
  · rw [if_pos hfull]
    exact ⟨hfull, hkey2⟩
  · rw [if_neg hfull]
    refine ⟨?_, hkey3⟩
    rw [length_append, length_cons, length_replicate]
    omega

theorem length_code (aes : Aes) (key msg : Bytes) : (code aes key msg).length = KMacBlockSize := by
  obtain ⟨hle, hlast⟩ := before_le msg.length
  obtain ⟨hblock, hkey⟩ := length_lastBlock
    (show (msg.drop (before msg.length * KMacBlockSize)).length ≤ KMacBlockSize by
      rw [length_drop]
      exact hlast)
    (aes.length_encrypt key K2Constant rfl) (aes.length_encrypt key K3Constant rfl)
  have hchain : (chain (aes.encrypt (aes.encrypt key K1Constant)) (before msg.length) msg).length =
      KMacBlockSize := length_chain (fun block => aes.length_encrypt _ block) hle
  unfold code mac
  apply aes.length_encrypt
  rw [xorBytes_length, xorBytes_length, hblock]
  · rw [hblock, hchain]
  · rw [xorBytes_length (hblock.trans hchain.symm), hblock, hkey]

theorem length_prfKey (aes : Aes) (key : Bytes) : (prfKey aes key).length = KMacBlockSize := by
  unfold prfKey
  by_cases hlong : key.length > KMacBlockSize
  · rw [if_pos hlong, length_code]
  · rw [if_neg hlong, length_append, length_replicate]
    omega

end Xcbc

namespace CCMacImpl

open Xcbc

/-- The three keys and the cipher are those that `key` makes. -/
structure Keyed (aes : Aes) (algorithm : MacAlgorithm) (key : Bytes) (o : CCMacImpl) : Prop where
  uid : o.iImplementationUid = algorithm
  stored : o.iKey = aes.encrypt (cipherKey aes algorithm key) K1Constant
  cipher : o.iCipherImpl.iKey = aes.encrypt (cipherKey aes algorithm key) K1Constant
  key2 : o.iKey2 = aes.encrypt (cipherKey aes algorithm key) K2Constant
  key3 : o.iKey3 = aes.encrypt (cipherKey aes algorithm key) K3Constant
  idle : o.iCipherImpl.impl.Idle
  mode : o.iCipherImpl.impl.iOperationMode = .KOperationModeCBC

/-- The cipher goes on behind the blocks that have gone through. -/
def Synced (o : CCMacImpl) : Prop := o.iCipherImpl.impl.iRegister = o.iE

/-- After `msg`, of which `n` blocks have gone through. -/
structure Holds (E : Bytes → Bytes) (n : Nat) (msg : Bytes) (o : CCMacImpl) : Prop where
  chained : o.iE = chain E n msg
  blockE : o.iE.length = KMacBlockSize
  length : msg.length = n * KMacBlockSize + o.iCurrentTotalLength
  le : o.iCurrentTotalLength ≤ KMacBlockSize
  size : o.iData.length = KMacBlockSize
  data : o.iData.take o.iCurrentTotalLength = msg.drop (n * KMacBlockSize)

/-- AES under the first key. -/
abbrev underKey (aes : Aes) (algorithm : MacAlgorithm) (key : Bytes) : Bytes → Bytes :=
  aes.encrypt (aes.encrypt (cipherKey aes algorithm key) K1Constant)

/-- After `msg`, with the last block in `iData`. -/
def Held (aes : Aes) (algorithm : MacAlgorithm) (key msg : Bytes) (o : CCMacImpl) : Prop :=
  Keyed aes algorithm key o ∧ Holds (underKey aes algorithm key) (before msg.length) msg o

variable {aes : Aes} {algorithm : MacAlgorithm} {key msg : Bytes} {o : CCMacImpl} {n : Nat}

/-- A block through the cipher in CBC mode, by either function. -/
theorem Keyed.block (h : Keyed aes algorithm key o) {x : Bytes} (hx : x.length = KMacBlockSize) :
    ∃ iCipherImpl, o.iCipherImpl.processL aes x emptyBlock = .ok (iCipherImpl,
        ⟨underKey aes algorithm key (xorBytes x o.iCipherImpl.impl.iRegister), 16⟩) ∧
      o.iCipherImpl.processFinalL aes x emptyBlock = .ok (iCipherImpl,
        ⟨underKey aes algorithm key (xorBytes x o.iCipherImpl.impl.iRegister), 16⟩) ∧
      (∀ next : CCMacImpl, next = { o with iCipherImpl := iCipherImpl } →
        Keyed aes algorithm key next) ∧
      iCipherImpl.impl.iRegister =
        underKey aes algorithm key (xorBytes x o.iCipherImpl.impl.iRegister) := by
  have houtput : CSymmetricBlockCipherImpl.modeEncrypt (o.iCipherImpl.prim aes)
      o.iCipherImpl.impl.iOperationMode o.iCipherImpl.impl.iRegister x =
        (underKey aes algorithm key (xorBytes x o.iCipherImpl.impl.iRegister),
          underKey aes algorithm key (xorBytes x o.iCipherImpl.impl.iRegister)) := by
    unfold CSymmetricBlockCipherImpl.modeEncrypt CSymmetricCipher.prim underKey
    rw [h.mode, h.cipher]
  have hprocess : o.iCipherImpl.impl.processL (o.iCipherImpl.prim aes) x ⟨[], 16⟩ = _ :=
    h.idle.processL hx
  have hfinal : o.iCipherImpl.impl.processFinalL (o.iCipherImpl.prim aes) x ⟨[], 16⟩ = _ :=
    h.idle.processFinalL hx
  rw [houtput] at hprocess hfinal
  refine ⟨{ o.iCipherImpl with
    impl := o.iCipherImpl.impl.afterBlock (o.iCipherImpl.prim aes) x }, ?_, ?_, ?_, ?_⟩
  · unfold CSymmetricCipher.processL emptyBlock KMacBlockSize
    rw [hprocess]
    rfl
  · unfold CSymmetricCipher.processFinalL emptyBlock KMacBlockSize
    rw [hfinal]
    rfl
  · rintro next rfl
    exact ⟨h.uid, h.stored, h.cipher, h.key2, h.key3, h.idle.afterBlock _ x, h.mode⟩
  · exact congrArg Prod.fst houtput

/-- `SetIvL`, with what there is in `iE`. -/
theorem Keyed.setIvL (h : Keyed aes algorithm key o) (hE : o.iE.length = KMacBlockSize) :
    ∃ iCipherImpl, o.setIvL = .ok { o with iCipherImpl := iCipherImpl } ∧
      (∀ next : CCMacImpl, next = { o with iCipherImpl := iCipherImpl } →
        Keyed aes algorithm key next ∧ Synced next) := by
  obtain ⟨impl, hset, hidle, hmode, hregister⟩ := h.idle.toPlain.setIvL h.mode hE
  refine ⟨{ o.iCipherImpl with impl := impl }, ?_, ?_⟩
  · unfold CCMacImpl.setIvL CSymmetricCipher.setIvL
    rw [hset]
    rfl
  · rintro next rfl
    exact ⟨⟨h.uid, h.stored, h.cipher, h.key2, h.key3, hidle, hmode⟩, hregister⟩

/-! ### The loop -/

/-- A full block goes through, and then there is room in `iData`. -/
theorem processFullL_holds (hkeyed : Keyed aes algorithm key o)
    (hholds : Holds (underKey aes algorithm key) n msg o) (hsynced : Synced o) :
    ∃ next n', o.processFullL aes = .ok next ∧ Keyed aes algorithm key next ∧
      Holds (underKey aes algorithm key) n' msg next ∧ Synced next ∧
      next.iCurrentTotalLength < KMacBlockSize := by
  unfold processFullL
  by_cases hfull : o.iCurrentTotalLength = KMacBlockSize
  · have hdata : o.iData = msg.drop (n * KMacBlockSize) := by
      rw [← hholds.data, hfull, ← hholds.size, take_length]
    obtain ⟨iCipherImpl, hprocess, -, hkeys, hregister⟩ := hkeyed.block hholds.size
    have hE : underKey aes algorithm key (xorBytes o.iData o.iCipherImpl.impl.iRegister) =
        chain (underKey aes algorithm key) (n + 1) msg := by
      rw [chain_succ, ← hdata, take_of_length_le (le_of_eq hholds.size), ← hholds.chained, hsynced]
    have hlenE : (underKey aes algorithm key
        (xorBytes o.iData o.iCipherImpl.impl.iRegister)).length = KMacBlockSize := by
      apply aes.length_encrypt
      rw [xorBytes_length, hholds.size]
      rw [hholds.size, hsynced, hholds.blockE]
    refine ⟨{ o with
      iCipherImpl := iCipherImpl
      iE := underKey aes algorithm key (xorBytes o.iData o.iCipherImpl.impl.iRegister)
      iCurrentTotalLength := 0 }, n + 1, ?_, ?_, ⟨hE, hlenE, ?_, Nat.zero_le _, hholds.size, ?_⟩,
      hregister, (by decide : 0 < KMacBlockSize)⟩
    · rw [if_pos hfull]
      unfold processBlockL
      rw [hprocess]
      rfl
    · have hkept := hkeys _ rfl
      exact ⟨hkept.uid, hkept.stored, hkept.cipher, hkept.key2, hkept.key3, hkept.idle, hkept.mode⟩
    · rw [hholds.length, hfull, Nat.succ_mul]
      rfl
    · have hall : msg.length = (n + 1) * KMacBlockSize := by
        rw [hholds.length, hfull, Nat.succ_mul]
      rw [← hall, drop_length]
      rfl
  · rw [if_neg hfull]
    exact ⟨o, n, rfl, hkeyed, hholds, hsynced, lt_of_le_of_ne hholds.le hfull⟩

/-- Octets that there is room for. -/
theorem copyData_holds (hholds : Holds (underKey aes algorithm key) n msg o) {piece : Bytes}
    (hroom : o.iCurrentTotalLength + piece.length ≤ KMacBlockSize) :
    Holds (underKey aes algorithm key) n (msg ++ piece) (o.copyData piece) := by
  have hsize := hholds.size
  have hlen := hholds.length
  have hfront : (o.iData.take o.iCurrentTotalLength).length = o.iCurrentTotalLength := by
    rw [length_take, hsize, Nat.min_eq_left hholds.le]
  have hboth : (o.iData.take o.iCurrentTotalLength ++ piece).length =
      o.iCurrentTotalLength + piece.length := by
    rw [length_append, hfront]
  refine ⟨?_, hholds.blockE, ?_, hroom, ?_, ?_⟩
  · rw [chain_append _ (by omega)]
    exact hholds.chained
  · show (msg ++ piece).length = _ + (o.iCurrentTotalLength + piece.length)
    rw [length_append, hlen, Nat.add_assoc]
  · show (o.iData.take o.iCurrentTotalLength ++ piece ++ o.iData.drop _).length = _
    rw [length_append, hboth, length_drop]
    omega
  · show (o.iData.take o.iCurrentTotalLength ++ piece ++ o.iData.drop _).take
      (o.iCurrentTotalLength + piece.length) = _
    rw [take_left' hboth, hholds.data, drop_append_of_le_length (by omega)]

/-- **The loop of `DoUpdateL`.** -/
theorem doUpdateL_holds {aMessage : Bytes} (hkeyed : Keyed aes algorithm key o)
    (hholds : Holds (underKey aes algorithm key) n msg o) (hsynced : Synced o) :
    ∃ next n', o.doUpdateL aes aMessage = .ok next ∧ Keyed aes algorithm key next ∧
      Holds (underKey aes algorithm key) n' (msg ++ aMessage) next ∧ Synced next ∧
      (aMessage ≠ [] → 0 < next.iCurrentTotalLength) ∧ (aMessage = [] → next = o ∧ n' = n) := by
  induction hm : aMessage.length using Nat.strong_induction_on
    generalizing aMessage msg o n with
  | _ m ih =>
      unfold doUpdateL
      by_cases hleft : aMessage ≠ []
      · obtain ⟨full, n', hprocess, hkeyed', hholds', hsynced', hroom⟩ :=
          processFullL_holds hkeyed hholds hsynced
        have hpos := length_pos_iff.mpr hleft
        obtain ⟨length, hlength⟩ : ∃ length, full.copyLength aMessage.length = length := ⟨_, rfl⟩
        have htakes : 0 < length ∧ length ≤ aMessage.length ∧
            full.iCurrentTotalLength + length ≤ KMacBlockSize := by
          unfold copyLength at hlength
          omega
        have hpiece : (aMessage.take length).length = length := by
          rw [length_take, Nat.min_eq_left htakes.2.1]
        have hnext : Holds (underKey aes algorithm key) n' (msg ++ aMessage.take length)
            (full.copyData (aMessage.take length)) := copyData_holds hholds' (by
          rw [hpiece]
          exact htakes.2.2)
        have hkeyedNext : Keyed aes algorithm key (full.copyData (aMessage.take length)) :=
          ⟨hkeyed'.uid, hkeyed'.stored, hkeyed'.cipher, hkeyed'.key2, hkeyed'.key3,
            hkeyed'.idle, hkeyed'.mode⟩
        have hless : (aMessage.drop length).length < m := by
          rw [length_drop]
          omega
        obtain ⟨last, n'', hlast, hkeyedLast, hholdsLast, hsyncedLast, hsome, hnone⟩ :=
          ih _ hless hkeyedNext hnext hsynced' rfl
        rw [List.append_assoc, take_append_drop] at hholdsLast
        refine ⟨last, n'', ?_, hkeyedLast, hholdsLast, hsyncedLast, ?_, fun h => absurd h hleft⟩
        · rw [dif_pos hleft, hprocess]
          simp only [ok_bind]
          rw [hlength, dif_pos htakes.1]
          exact hlast
        · intro _
          by_cases hrest : aMessage.drop length = []
          · rw [(hnone hrest).1]
            show 0 < full.iCurrentTotalLength + (aMessage.take length).length
            rw [hpiece]
            omega
          · exact hsome hrest
      · have hnil : aMessage = [] := not_not.mp hleft
        rw [dif_neg hleft]
        refine ⟨o, n, rfl, hkeyed, ?_, hsynced, fun h => absurd h hleft, fun _ => ⟨rfl, rfl⟩⟩
        rw [hnil, append_nil]
        exact hholds

end CCMacImpl

end OsSecurity

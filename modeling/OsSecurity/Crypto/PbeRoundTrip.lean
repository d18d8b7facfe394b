/-
Password-based decryption undoes password-based encryption, and what is announced suffices.

Whatever the pieces of the plaintext, and whatever the pieces of the ciphertext, the decrypting set
gives the plaintext back when the cipher is a block cipher.  The encrypting set never appends more
than it has announced.  The decrypting set announces a block less as long as it has not got the
whole initialization vector.  That is right for the octets of the vector that come with the call;
it forgets those that came before, and it makes a negative number of an empty call.
`AnnouncedSuffices` says for which pieces the announcement holds all the same.
-/
import OsSecurity.Crypto.PbeSets

namespace OsSecurity

open Blockwise CBlockChainingMode CBufferedTransformation CPadding List Nat

variable {x got : Bytes}

/-! ### Answers -/

@[simp] theorem pbeOutput_cons (answer : PbeAnswer) (answers : List PbeAnswer) :
    pbeOutput (answer :: answers) = answer.appended ++ pbeOutput answers := rfl

@[simp] theorem pbeOutput_nil : pbeOutput [] = [] := rfl

@[simp] theorem withinAnnounced_cons (answer : PbeAnswer) (answers : List PbeAnswer) :
    WithinAnnounced (answer :: answers) ↔
      (answer.appended.length : Int) ≤ answer.announced ∧ WithinAnnounced answers := by
  simp [WithinAnnounced]

@[simp] theorem withinAnnounced_nil : WithinAnnounced [] := by
  simp [WithinAnnounced]

variable {self : CBufferedTransformation}

theorem done_length (hsound : self.iBT.Sound self.blockSize) (msg : Bytes) :
    (done encryptorTransform self.blockSize self.iBT msg).2.length =
      msg.length / self.blockSize * self.blockSize :=
  ((undoes_decryptorTransform self.blockSize).toKeeps.run (div_mul_le_self _ _) hsound).2

/-! ### The encrypting set -/

namespace CPBEncryptorSet

/-- The set after the octets of `msg`. -/
def after (self : CBufferedTransformation) (iv : Bytes) (sent : Bool) (msg : Bytes) :
    CPBEncryptorSet :=
  ⟨iv, .buffered (fed encryptorTransform self msg), sent⟩

theorem process_after (hsize : 0 < self.blockSize) (iv : Bytes) (sent : Bool) (msg x : Bytes) :
    ∃ out, (after self iv sent msg).process x =
        .ok (after self iv true (msg ++ x), (if sent then [] else iv) ++ out) ∧
      (done encryptorTransform self.blockSize self.iBT msg).2 ++ out =
        (done encryptorTransform self.blockSize self.iBT (msg ++ x)).2 := by
  have hkeeps : ∀ s b, (encryptorTransform s b).1.iBlockBytes = s.iBlockBytes := fun _ _ => rfl
  obtain ⟨out, hprocess, hout⟩ := process_fed self hkeeps hsize msg x
  refine ⟨out, ?_, hout⟩
  unfold process after
  simp only [PBE.CSymmetricCipher.process_buffered, hprocess]

/-- `MaxOutputLength` is what `Process` appends, to the octet. -/
theorem maxOutputLength_after (hsound : self.iBT.Sound self.blockSize)
    (hsize : 0 < self.blockSize) {iv : Bytes} (hiv : iv.length = self.blockSize) (sent : Bool)
    {msg out : Bytes}
    (hout : (done encryptorTransform self.blockSize self.iBT msg).2 ++ out = (done encryptorTransform self.blockSize self.iBT (msg ++ x)).2) :
    (((if sent then [] else iv) ++ out).length : Int) =
      (after self iv sent msg).maxOutputLength x.length := by
  have hkeeps : ∀ s b, (encryptorTransform s b).1.iBlockBytes = s.iBlockBytes := fun _ _ => rfl
  have hlen := congrArg List.length hout
  have hsplit := div_mul_add hsize msg.length x.length
  rw [length_append, done_length hsound, done_length hsound, length_append] at hlen
  unfold maxOutputLength after
  cases sent with
  | true =>
      show (([] ++ out).length : Int) = (fed encryptorTransform self msg).maxOutputLength x.length
      rw [maxOutputLength_fed self hkeeps, nil_append]
      omega
  | false =>
      show ((iv ++ out).length : Int) = (fed encryptorTransform self msg).maxOutputLength
        (x.length + (fed encryptorTransform self msg).blockSize : Nat)
      have hmore : x.length + self.blockSize + msg.length % self.blockSize =
          x.length + msg.length % self.blockSize + self.blockSize := by omega
      rw [maxOutputLength_fed self hkeeps, blockSize_fed hkeeps, hmore, add_div_right _ hsize,
        succ_mul, length_append, hiv]
      omega

theorem processFinalL_after (hsize : 0 < self.blockSize) (iv : Bytes) (sent : Bool)
    (msg x : Bytes) :
    ∃ next out, (after self iv sent msg).processFinalL x =
        .ok (next, (if sent then [] else iv) ++ out) ∧
      (done encryptorTransform self.blockSize self.iBT msg).2 ++ out =
        (done encryptorTransform self.blockSize self.iBT
          (SSLv3.padded self.blockSize (msg ++ x))).2 := by
  obtain ⟨next, out, hfinal, hout⟩ := CBufferedEncryptor.processFinalL_fed hsize msg x
  refine ⟨⟨iv, .buffered next, true⟩, out, ?_, hout⟩
  unfold processFinalL after cipherFinalL
  simp only [hfinal, ok_bind]
  rfl

theorem maxFinalOutputLength_after (hsound : self.iBT.Sound self.blockSize)
    (hsize : 0 < self.blockSize) {iv : Bytes} (hiv : iv.length = self.blockSize) (sent : Bool)
    {msg x out : Bytes}
    (hout : (done encryptorTransform self.blockSize self.iBT msg).2 ++ out =
      (done encryptorTransform self.blockSize self.iBT
        (SSLv3.padded self.blockSize (msg ++ x))).2) :
    (((if sent then [] else iv) ++ out).length : Int) =
      (after self iv sent msg).maxFinalOutputLength x.length := by
  have hkeeps : ∀ s b, (encryptorTransform s b).1.iBlockBytes = s.iBlockBytes := fun _ _ => rfl
  have hdvd : self.blockSize ∣ (SSLv3.padded self.blockSize (msg ++ x)).length :=
    dvd_padded hsize (fun hnone => absurd hnone (by decide))
  have hlen := congrArg List.length hout
  rw [length_append, done_length hsound, done_length hsound, Nat.div_mul_cancel hdvd,
    padded_length, length_append] at hlen
  have hstore : (fed encryptorTransform self msg).iInputStore.length =
      msg.length % self.blockSize := carry_length msg
  have hdiv := div_add_mod msg.length self.blockSize
  have hmax : ∀ n, (CBufferedEncryptor.maxFinalOutputLength .SSLv3
      (fed encryptorTransform self msg) n : Int) =
        (self.blockSize - (msg.length + n) % self.blockSize +
          (msg.length % self.blockSize + n) : Nat) := by
    intro n
    unfold CBufferedEncryptor.maxFinalOutputLength
    rw [blockSize_fed hkeeps, hstore]
    show ((self.blockSize - (msg.length % self.blockSize + n) % self.blockSize +
      (msg.length % self.blockSize + n) : Nat) : Int) = _
    rw [mod_add_mod]
  have hlen' : msg.length / self.blockSize * self.blockSize + out.length =
      self.blockSize - (msg.length + x.length) % self.blockSize + (msg.length + x.length) := hlen
  rw [Nat.mul_comm] at hlen'
  unfold maxFinalOutputLength after
  cases sent with
  | true =>
      show (([] ++ out).length : Int) = CBufferedEncryptor.maxFinalOutputLength .SSLv3
        (fed encryptorTransform self msg) x.length
      rw [hmax, nil_append]
      omega
  | false =>
      show ((iv ++ out).length : Int) = CBufferedEncryptor.maxFinalOutputLength .SSLv3
        (fed encryptorTransform self msg)
        (x.length + (fed encryptorTransform self msg).blockSize)
      have hmod : (msg.length + (x.length + self.blockSize)) % self.blockSize =
          (msg.length + x.length) % self.blockSize := by
        rw [← Nat.add_assoc, add_mod_right]
      rw [hmax, blockSize_fed hkeeps, hmod, length_append, hiv]
      omega

variable (self) in
/-- **A message is encrypted within what is announced**, in whatever pieces it comes: after those of
`msg`, the rest of the ciphertext of the padded text is appended. -/
theorem run_after (hsound : self.iBT.Sound self.blockSize) (hsize : 0 < self.blockSize)
    {iv : Bytes} (hiv : iv.length = self.blockSize) (sent : Bool) (msg : Bytes)
    (pieces : List Bytes) (final : Bytes) :
    ∃ answers rest, interface.run (after self iv sent msg) pieces final = .ok answers ∧
      WithinAnnounced answers ∧ pbeOutput answers = (if sent then [] else iv) ++ rest ∧
      (done encryptorTransform self.blockSize self.iBT msg).2 ++ rest =
        (done encryptorTransform self.blockSize self.iBT
          (SSLv3.padded self.blockSize (msg ++ pieces.flatten ++ final))).2 := by
  induction pieces generalizing sent msg with
  | nil =>
      obtain ⟨next, out, hfinal, hout⟩ := processFinalL_after hsize iv sent msg final
      have hmax := maxFinalOutputLength_after hsound hsize hiv sent hout
      refine ⟨_, out, interface.run_nil hfinal, ?_, ?_, ?_⟩
      · exact (withinAnnounced_cons _ _).mpr ⟨le_of_eq hmax, withinAnnounced_nil⟩
      · simp
      · simpa using hout
  | cons x pieces ih =>
      obtain ⟨out, hprocess, hout⟩ := process_after hsize iv sent msg x
      have hmax := maxOutputLength_after hsound hsize hiv sent hout
      obtain ⟨answers, rest, hrun, hwithin, houtput, hrest⟩ := ih true (msg ++ x)
      refine ⟨_, out ++ rest, interface.run_cons hprocess hrun, ?_, ?_, ?_⟩
      · exact (withinAnnounced_cons _ _).mpr ⟨le_of_eq hmax, hwithin⟩
      · rw [pbeOutput_cons, houtput]
        simp
      · rw [← List.append_assoc, hout, hrest]
        simp

/-- A stream cipher gives an octet for an octet. -/
theorem run_arc4 {iv : Bytes} (hiv : iv.length = 1) (sent : Bool) (cipher : CARC4)
    (pieces : List Bytes) (final : Bytes) :
    ∃ answers, interface.run ⟨iv, .arc4 cipher, sent⟩ pieces final = .ok answers ∧
      WithinAnnounced answers := by
  have hlen : ∀ (cipher : CARC4) (x : Bytes), (cipher.process x).2.length = x.length := by
    intro cipher x
    simp [CARC4.process, xorBytes]
  induction pieces generalizing sent cipher with
  | nil =>
      have hfinal : interface.processFinalL ⟨iv, .arc4 cipher, sent⟩ final =
        .ok (⟨iv, .arc4 (cipher.process final).1, true⟩, _) := rfl
      refine ⟨_, interface.run_nil hfinal, ?_⟩
      refine (withinAnnounced_cons _ _).mpr ⟨?_, withinAnnounced_nil⟩
      cases sent with
      | true =>
        show (([] ++ (cipher.process final).2).length : Int) ≤ final.length
        rw [nil_append, hlen]
      | false =>
        show ((iv ++ (cipher.process final).2).length : Int) ≤ (final.length + 1 : Nat)
        rw [length_append, hlen, hiv, Nat.add_comm]
  | cons x pieces ih =>
      obtain ⟨answers, hrun, hwithin⟩ := ih true (cipher.process x).1
      refine ⟨_, interface.run_cons rfl hrun, (withinAnnounced_cons _ _).mpr ⟨?_, hwithin⟩⟩
      cases sent with
      | true =>
        show (([] ++ (cipher.process x).2).length : Int) ≤ x.length
        rw [nil_append, hlen]
      | false =>
        show ((iv ++ (cipher.process x).2).length : Int) ≤ (x.length + 1 : Nat)
        rw [length_append, hlen, hiv, Nat.add_comm]

end CPBEncryptorSet

/-! ### The decrypting set -/

/-- The pieces of a ciphertext, after `got` octets of it, for which the decrypting set announces
enough.  As long as a block's length of them has not come, no piece is empty, and those of a block
or more have fewer octets over whole blocks than there are still to come of the vector.  If all the
vector has not come before the last piece, less of it has than there is padding. -/
def AnnouncedSuffices (size paddingLength : Nat) : Nat → List Bytes → Prop
  | got, [] => got < size → got < paddingLength
  | got, x :: pieces =>
    (got < size → x ≠ [] ∧ (x.length < size ∨ x.length % size + got < size)) ∧
      AnnouncedSuffices size paddingLength (got + x.length) pieces

instance decidableAnnouncedSuffices (size paddingLength : Nat) :
    (got : Nat) → (pieces : List Bytes) →
      Decidable (AnnouncedSuffices size paddingLength got pieces)
  | got, [] => inferInstanceAs (Decidable (got < size → got < paddingLength))
  | got, x :: pieces =>
    have := decidableAnnouncedSuffices size paddingLength (got + x.length) pieces
    inferInstanceAs (Decidable ((got < size →
      x ≠ [] ∧ (x.length < size ∨ x.length % size + got < size)) ∧ _))

/-- What is announced without the vector, for a call after `got` octets of it: too little when
these complete a block with those of the call that are over, and negative for an empty call. -/
theorem announced_without_vector {size got n : Nat} (hsize : 0 < size) (hgot : got < size) :
    (((got + n - size) / size * size : Nat) : Int) ≤
        (n : Int) - size - ((n : Int) - size).tmod size ↔
      n ≠ 0 ∧ (n < size ∨ n % size + got < size) := by
  by_cases hn : n < size
  · have hsmall : (got + n - size) / size = 0 := div_eq_of_lt (by omega)
    have hneg : (n : Int) - size = -((size - n : Nat) : Int) := by omega
    rw [hsmall, Nat.zero_mul, hneg, Int.neg_tmod, ← Int.ofNat_tmod]
    by_cases hzero : n = 0
    · rw [hzero, Nat.sub_zero, mod_self]
      simp
      omega
    · rw [mod_eq_of_lt (by omega)]
      simp [hzero, hn]
  · have hcast : (n : Int) - size = ((n - size : Nat) : Int) := by omega
    have hdiv := div_add_mod (n - size) size
    have hmod : (n - size) % size = n % size := by
      rw [← add_mod_right (n - size), Nat.sub_add_cancel (by omega)]
    have hsplit : (got + n - size) / size =
        (n - size) / size + (n % size + got) / size := by
      calc (got + n - size) / size
          = (size * ((n - size) / size) + (n % size + got)) / size := by
            congr 1
            omega
        _ = (n - size) / size + (n % size + got) / size := mul_add_div hsize _ _
    have hlt := mod_lt n hsize
    rw [hcast, ← Int.ofNat_tmod, hsplit, Nat.add_mul, Nat.mul_comm _ size]
    by_cases hover : n % size + got < size
    · rw [div_eq_of_lt hover, hmod]
      have hne : n ≠ 0 := by omega
      simp only [hover, hne, ne_eq, not_false_eq_true, or_true, and_self, iff_true]
      omega
    · have hone : (n % size + got) / size = 1 := Nat.div_eq_of_lt_le (by omega) (by omega)
      rw [hone, hmod]
      simp only [hover, hn, or_self, and_false, iff_false]
      omega

namespace CPBDecryptorSet

/-- The driver when the mode below it has its vector. -/
def withIV (fresh : CBufferedTransformation) (iv : Bytes) : CBufferedTransformation :=
  { fresh with iBT := fresh.iBT.setIV iv }

/-- The set after the octets `got`, the vector's and what is behind it. -/
def after (fresh : CBufferedTransformation) (got : Bytes) : CPBDecryptorSet where
  iIVBuf := got.take fresh.blockSize
  iCipher := .buffered (if got.length < fresh.blockSize then fresh
    else fed decryptorTransform (withIV fresh (got.take fresh.blockSize))
      (got.drop fresh.blockSize))
  iIVSent := !decide (got.length < fresh.blockSize)

variable {fresh : CBufferedTransformation}

theorem after_lt (h : got.length < fresh.blockSize) :
    after fresh got = ⟨got, .buffered fresh, false⟩ := by
  unfold after
  rw [if_pos h, take_of_length_le (le_of_lt h), decide_eq_true h]
  rfl

theorem after_ge {iv : Bytes} (hiv : iv.length = fresh.blockSize) (msg : Bytes) :
    after fresh (iv ++ msg) =
      ⟨iv, .buffered (fed decryptorTransform (withIV fresh iv) msg), true⟩ := by
  have hnot : ¬ (iv ++ msg).length < fresh.blockSize := by
    rw [length_append]
    omega
  unfold after
  rw [if_neg hnot, take_left' hiv, drop_left' hiv, decide_eq_false hnot]
  rfl

/-- With the vector not complete, `ProcessIV` keeps everything. -/
theorem processIV_collect (h : (got ++ x).length < fresh.blockSize) :
    (after fresh got).processIV x = .ok (after fresh (got ++ x), []) := by
  rw [after_lt h]
  rw [length_append] at h
  rw [after_lt (by omega : got.length < fresh.blockSize)]
  unfold processIV
  rw [if_neg Bool.false_ne_true]
  exact if_pos (show x.length + got.length < fresh.blockSize by omega)

/-- With it complete, before or now, it leaves for the cipher what is behind it. -/
theorem processIV_complete {iv c : Bytes} (hiv : iv.length = fresh.blockSize)
    (hstore : fresh.iInputStore = []) (hgot : got ++ x = iv ++ c) :
    ∃ msg input, c = msg ++ input ∧ got.drop fresh.blockSize = msg ∧
      (after fresh got).processIV x = .ok (after fresh (iv ++ msg), input) ∧
      (x ≠ [] → c ≠ [] → input ≠ []) := by
  by_cases hsent : got.length < fresh.blockSize
  · have htake : got ++ x.take (fresh.blockSize - got.length) = iv := by
      have hfront := congrArg (take fresh.blockSize) hgot
      rwa [take_left' hiv, take_append, take_of_length_le (le_of_lt hsent)] at hfront
    have hdrop : x.drop (fresh.blockSize - got.length) = c := by
      have hback := congrArg (List.drop fresh.blockSize) hgot
      rwa [drop_left' hiv, drop_append, drop_eq_nil_of_le (le_of_lt hsent), nil_append] at hback
    have hnot : ¬ x.length + got.length < fresh.blockSize := by
      have hlen := congrArg List.length hgot
      rw [length_append, length_append] at hlen
      omega
    refine ⟨[], c, rfl, drop_eq_nil_of_le (le_of_lt hsent), ?_, fun _ hc => hc⟩
    rw [after_lt hsent, after_ge hiv, fed_nil (show (withIV fresh iv).iInputStore = [] from hstore)]
    unfold processIV
    rw [if_neg Bool.false_ne_true]
    refine (if_neg hnot).trans ?_
    show (do
      let iCipher ← setIV (got ++ x.take (fresh.blockSize - got.length)) (.buffered fresh)
      pure ((⟨got ++ x.take (fresh.blockSize - got.length), iCipher, true⟩ :
        CPBDecryptorSet), x.drop (fresh.blockSize - got.length))) = _
    rw [htake, hdrop]
    rfl
  · obtain ⟨msg, rfl⟩ : ∃ msg, got = iv ++ msg := by
      have hfront := congrArg (take fresh.blockSize) hgot
      rw [take_left' hiv, take_append_of_le_length (by omega)] at hfront
      exact ⟨got.drop fresh.blockSize, by rw [← hfront, take_append_drop]⟩
    rw [List.append_assoc] at hgot
    refine ⟨msg, x, (append_cancel_left hgot).symm, drop_left' hiv, ?_,
      fun hx _ => hx⟩
    rw [after_ge hiv]
    exact if_pos rfl

/-- **`Process` on the next octets** gives back the blocks they complete. -/
theorem process_after {iv rest c : Bytes} (hiv : iv.length = fresh.blockSize)
    (hsize : 0 < fresh.blockSize) (hstore : fresh.iInputStore = [])
    (hgot : got ++ x ++ rest = iv ++ c) :
    ∃ out, (after fresh got).process x = .ok (after fresh (got ++ x), out) ∧
      (done decryptorTransform fresh.blockSize (fresh.iBT.setIV iv)
          (got.drop fresh.blockSize)).2 ++ out =
        (done decryptorTransform fresh.blockSize (fresh.iBT.setIV iv)
          ((got ++ x).drop fresh.blockSize)).2 := by
  have hkeeps : ∀ s b, (decryptorTransform s b).1.iBlockBytes = s.iBlockBytes := fun _ _ => rfl
  by_cases hall : (got ++ x).length < fresh.blockSize
  · have hnothing : fresh.process decryptorTransform [] = (fresh, []) := by
      have hlt : fresh.iInputStore.length < fresh.blockSize := by
        rw [hstore]
        exact hsize
      rw [process_eq hlt, hstore, append_nil, done_nil, carry_nil, ← hstore]
    have hgotlt : got.length < fresh.blockSize := by
      rw [length_append] at hall
      omega
    refine ⟨[], ?_, ?_⟩
    · unfold process
      rw [processIV_collect hall, ok_bind]
      simp only [after_lt hall, PBE.CSymmetricCipher.process_buffered, hnothing]
      rfl
    · rw [drop_eq_nil_of_le (le_of_lt hall), drop_eq_nil_of_le (le_of_lt hgotlt)]
      simp
  · obtain ⟨c', hc'⟩ : ∃ c', got ++ x = iv ++ c' := by
      have hfront := congrArg (take fresh.blockSize) hgot
      rw [take_left' hiv, take_append_of_le_length (by omega)] at hfront
      exact ⟨(got ++ x).drop fresh.blockSize, by rw [← hfront, take_append_drop]⟩
    obtain ⟨msg, input, rfl, hmsg, hprocessIV, -⟩ := processIV_complete hiv hstore hc'
    obtain ⟨out, hprocess, hout⟩ := process_fed (withIV fresh iv) hkeeps hsize msg input
    refine ⟨out, ?_, ?_⟩
    · unfold process
      rw [hprocessIV, ok_bind, hc']
      simp only [after_ge hiv, PBE.CSymmetricCipher.process_buffered, hprocess]
      rfl
    · rw [hc', hmsg, drop_left' hiv]
      exact hout

section

variable {iv text : Bytes} (hiv : iv.length = fresh.blockSize) (hsize : 0 < fresh.blockSize)
  (hmax : fresh.blockSize < 256) (hstore : fresh.iInputStore = [])
  (hsound : (fresh.iBT.setIV iv).Sound fresh.blockSize)

/-- The ciphertext of the text, without the vector. -/
def ciphertext (fresh : CBufferedTransformation) (iv text : Bytes) : Bytes :=
  (Blockwise.done encryptorTransform fresh.blockSize (fresh.iBT.setIV iv)
    (CPadding.SSLv3.padded fresh.blockSize text)).2

include hsize hsound

theorem ciphertext_length : (ciphertext fresh iv text).length =
    (SSLv3.padded fresh.blockSize text).length :=
  CBufferedDecryptor.ciphertext_length (withIV fresh iv) hsound
    (dvd_padded hsize fun hnone => absurd hnone (by decide))

/-- The blocks that have been given back of what has come. -/
theorem decrypted_length {a b : Bytes} (h : ciphertext fresh iv text = a ++ b) :
    (done decryptorTransform fresh.blockSize (fresh.iBT.setIV iv) a).2.length =
      a.length / fresh.blockSize * fresh.blockSize := by
  have hlen := congrArg List.length h
  rw [ciphertext_length hsize hsound, length_append] at hlen
  have hdone : (done decryptorTransform fresh.blockSize (fresh.iBT.setIV iv) a).2 = _ :=
    CBufferedDecryptor.done_ciphertext (withIV fresh iv) hsound h
  have hle := div_mul_le_self a.length fresh.blockSize
  rw [hdone, length_take]
  show min (a.length / fresh.blockSize * fresh.blockSize) _ = _
  omega

include hiv hstore

/-- **When `MaxOutputLength` holds**: always with the vector complete, and before for calls that are
not empty and whose octets do not make a block more with those of the vector. -/
theorem maxOutputLength_after {got x rest out : Bytes}
    (hgot : got ++ x ++ rest = iv ++ ciphertext fresh iv text)
    (hout : (done decryptorTransform fresh.blockSize (fresh.iBT.setIV iv)
        (got.drop fresh.blockSize)).2 ++ out =
      (done decryptorTransform fresh.blockSize (fresh.iBT.setIV iv)
        ((got ++ x).drop fresh.blockSize)).2) :
    (out.length : Int) ≤ (after fresh got).maxOutputLength x.length ↔
      (got.length < fresh.blockSize →
        x ≠ [] ∧ (x.length < fresh.blockSize ∨
          x.length % fresh.blockSize + got.length < fresh.blockSize)) := by
  have hdrop : ∀ a b, a ++ b = iv ++ ciphertext fresh iv text → ∃ b',
      ciphertext fresh iv text = a.drop fresh.blockSize ++ b' := by
    intro a b hab
    have h := congrArg (List.drop fresh.blockSize) hab
    rw [drop_left' hiv, drop_append] at h
    exact ⟨_, h.symm⟩
  obtain ⟨_, hbefore⟩ := hdrop got (x ++ rest) (by rw [← List.append_assoc]; exact hgot)
  obtain ⟨_, hafter⟩ := hdrop (got ++ x) rest hgot
  have hlen := congrArg List.length hout
  rw [length_append, decrypted_length hsize hsound hbefore,
    decrypted_length hsize hsound hafter, length_drop, length_drop, length_append] at hlen
  by_cases hsent : got.length < fresh.blockSize
  · have hnone : (got.length - fresh.blockSize) / fresh.blockSize * fresh.blockSize = 0 := by
      rw [Nat.sub_eq_zero_of_le (le_of_lt hsent), Nat.zero_div, Nat.zero_mul]
    have hmax : (after fresh got).maxOutputLength x.length =
        (x.length : Int) - fresh.blockSize -
          ((x.length : Int) - fresh.blockSize).tmod fresh.blockSize := by
      rw [after_lt hsent]
      show fresh.maxOutputLength ((x.length : Int) - fresh.blockSize) = _
      unfold CBufferedTransformation.maxOutputLength
      simp [hstore]
    have hx : x ≠ [] ↔ x.length ≠ 0 := not_congr length_eq_zero_iff.symm
    rw [hnone, Nat.zero_add] at hlen
    rw [hlen, hmax, announced_without_vector hsize hsent, hx]
    simp [hsent]
  · have hkeeps : ∀ s b, (decryptorTransform s b).1.iBlockBytes = s.iBlockBytes := fun _ _ => rfl
    have hgot' : got = iv ++ got.drop fresh.blockSize := by
      have hfront := congrArg (take fresh.blockSize) hgot
      rw [List.append_assoc, take_left' hiv, take_append_of_le_length (by omega)] at hfront
      rw [← hfront, take_append_drop]
    have hmax : (after fresh got).maxOutputLength x.length =
        ((x.length + (got.length - fresh.blockSize) % fresh.blockSize) / fresh.blockSize *
          fresh.blockSize : Nat) := by
      rw [hgot', after_ge hiv, ← hgot', ← length_drop]
      exact maxOutputLength_fed (withIV fresh iv) hkeeps _ _
    have hsplit := div_mul_add hsize (got.length - fresh.blockSize) x.length
    have hmove : got.length + x.length - fresh.blockSize =
        got.length - fresh.blockSize + x.length := by omega
    rw [hmove, hsplit] at hlen
    rw [hmax]
    simp only [hsent, false_implies, iff_true]
    omega

include hmax

/-- **`ProcessFinalL` gives back the rest**, and `MaxFinalOutputLength` holds if the vector is
complete before, or less of it has come than there is padding. -/
theorem processFinalL_after (hgot : got ++ x = iv ++ ciphertext fresh iv text) (hx : x ≠ []) :
    ∃ next out, (after fresh got).processFinalL x = .ok (next, out) ∧
      (done decryptorTransform fresh.blockSize (fresh.iBT.setIV iv)
        (got.drop fresh.blockSize)).2 ++ out = text ∧
      ((out.length : Int) ≤ (after fresh got).maxFinalOutputLength x.length ↔
        (got.length < fresh.blockSize →
          got.length < fresh.blockSize - text.length % fresh.blockSize)) := by
  have hkeeps : ∀ s b, (decryptorTransform s b).1.iBlockBytes = s.iBlockBytes := fun _ _ => rfl
  have hmod := mod_lt text.length hsize
  have htotal : (ciphertext fresh iv text).length =
      text.length + (fresh.blockSize - text.length % fresh.blockSize) := by
    rw [ciphertext_length hsize hsound, padded, length_append, padding_length (by decide)]
  have hne : ciphertext fresh iv text ≠ [] := by
    intro hnil
    rw [hnil, length_nil] at htotal
    omega
  obtain ⟨msg, input, hsplit, hmsg, hprocessIV, hinput⟩ := processIV_complete hiv hstore hgot
  obtain ⟨next, out, hfinal, hout⟩ := CBufferedDecryptor.processFinalL_fed
    (withIV fresh iv) hsound hsize hmax (hinput hx hne) hsplit
  have hlen := congrArg List.length hout
  have hbefore : (done decryptorTransform (withIV fresh iv).blockSize
      (withIV fresh iv).iBT msg).2.length = msg.length / fresh.blockSize * fresh.blockSize :=
    decrypted_length hsize hsound hsplit
  have hgotlen := congrArg List.length hgot
  have hmsglen := congrArg List.length hmsg
  have hdiv := div_add_mod msg.length fresh.blockSize
  rw [length_append, hbefore, Nat.mul_comm] at hlen
  rw [length_append, length_append, htotal, hiv] at hgotlen
  rw [length_drop] at hmsglen
  refine ⟨⟨iv, .buffered next, true⟩, out, ?_, by rw [hmsg]; exact hout, ?_⟩
  · unfold processFinalL
    rw [hprocessIV, ok_bind]
    simp only [after_ge hiv, cipherFinalL, hfinal, ok_bind]
    rfl
  · by_cases hsent : got.length < fresh.blockSize
    · have hnone : msg = [] := eq_nil_of_length_eq_zero (by omega)
      have hannounced : (after fresh got).maxFinalOutputLength x.length =
          (x.length : Int) - fresh.blockSize - 1 := by
        rw [after_lt hsent]
        show CBufferedDecryptor.maxFinalOutputLength .SSLv3 fresh
          ((x.length : Int) - fresh.blockSize) = _
        unfold CBufferedDecryptor.maxFinalOutputLength
        rw [hstore]
        simp [minPaddingLength]
      rw [hnone, length_nil, Nat.zero_div, Nat.mul_zero] at hlen
      rw [hannounced]
      simp only [hsent, true_implies]
      omega
    · have hannounced : (after fresh got).maxFinalOutputLength x.length =
          (x.length : Int) + (msg.length % fresh.blockSize : Nat) - 1 := by
        have hgot' : got = iv ++ msg := by
          have hfront := congrArg (take fresh.blockSize) hgot
          rw [take_left' hiv, take_append_of_le_length (by omega)] at hfront
          rw [← hfront, ← hmsg, take_append_drop]
        rw [hgot', after_ge hiv, ← carry_length]
        rfl
      rw [hannounced]
      simp only [hsent, false_implies, iff_true]
      omega

variable (fresh) in
/-- **A ciphertext is decrypted in any pieces**, within what is announced if these are such. -/
theorem run_after {pieces : List Bytes} {final : Bytes} (hfinal : final ≠ [])
    (hgot : got ++ (pieces.flatten ++ final) = iv ++ ciphertext fresh iv text) :
    ∃ answers, interface.run (after fresh got) pieces final = .ok answers ∧
      (done decryptorTransform fresh.blockSize (fresh.iBT.setIV iv)
        (got.drop fresh.blockSize)).2 ++ pbeOutput answers = text ∧
      (WithinAnnounced answers ↔ AnnouncedSuffices fresh.blockSize
        (fresh.blockSize - text.length % fresh.blockSize) got.length pieces) := by
  induction pieces generalizing got with
  | nil =>
      obtain ⟨next, out, hprocess, hout, hbound⟩ :=
        processFinalL_after hiv hsize hmax hstore hsound hgot hfinal
      refine ⟨_, interface.run_nil hprocess, by simpa using hout, ?_⟩
      rw [withinAnnounced_cons]
      exact (and_iff_left withinAnnounced_nil).trans hbound
  | cons x pieces ih =>
      have hnext : got ++ x ++ (pieces.flatten ++ final) = iv ++ ciphertext fresh iv text := by
        rw [← hgot]
        simp
      obtain ⟨out, hprocess, hout⟩ := process_after hiv hsize hstore hnext
      have hbound := maxOutputLength_after hiv hsize hstore hsound hnext hout
      obtain ⟨answers, hrun, houtput, hwithin⟩ := ih hnext
      refine ⟨_, interface.run_cons hprocess hrun, ?_, ?_⟩
      · rw [pbeOutput_cons, ← List.append_assoc, hout]
        exact houtput
      · rw [withinAnnounced_cons, AnnouncedSuffices, hwithin, length_append]
        exact and_congr_left' hbound

end

/-! ### ARC4 -/

/-- A stream cipher is no `CBufferedDecryptor`: its first octet is undefined behaviour. -/
theorem processIV_arc4 {cipher : CARC4} (hx : x ≠ []) :
    processIV ⟨[], .arc4 cipher, false⟩ x = .error .undefined := by
  have hpos := length_pos_of_ne_nil hx
  have hnot : ¬ x.length + 0 < 1 := by omega
  unfold processIV
  rw [if_neg Bool.false_ne_true]
  exact if_neg hnot

theorem run_arc4 {cipher : CARC4} {pieces : List Bytes} {final : Bytes} (hfinal : final ≠ [])
    (answers : List PbeAnswer) :
    interface.run ⟨[], .arc4 cipher, false⟩ pieces final ≠ .ok answers := by
  induction pieces generalizing cipher answers with
  | nil =>
      have hprocess : interface.processFinalL ⟨[], .arc4 cipher, false⟩ final =
          .error .undefined := by
        show processIV ⟨[], .arc4 cipher, false⟩ final >>= _ = _
        rw [processIV_arc4 hfinal]
        rfl
      unfold PbeInterface.run
      rw [hprocess]
      intro h
      cases h
  | cons x pieces ih =>
      unfold PbeInterface.run
      by_cases hx : x = []
      · -- an empty call changes nothing
        have hprocess : interface.process ⟨[], .arc4 cipher, false⟩ x =
            .ok (⟨[], .arc4 cipher, false⟩, []) := by
          rw [hx]
          rfl
        rw [hprocess, ok_bind]
        simp only
        cases hrest : interface.run ⟨[], .arc4 cipher, false⟩ pieces final with
        | error e =>
          intro h
          cases h
        | ok rest => exact absurd hrest (ih rest)
      · have hprocess : interface.process ⟨[], .arc4 cipher, false⟩ x = .error .undefined := by
          show processIV ⟨[], .arc4 cipher, false⟩ x >>= _ = _
          rw [processIV_arc4 hx]
          rfl
        rw [hprocess]
        intro h
        cases h

end CPBDecryptorSet

/-! ### Both sets -/

/-- Under every key, decryption inverts encryption. -/
structure Primitives.Sound (prims : Primitives) : Prop where
  aes : ∀ aKey, (prims.aes aKey).Inverts KAESBlockBytes
  des : ∀ aKey, (prims.des aKey).Inverts KDESBlockBytes
  tripleDes : ∀ aKey, (prims.tripleDes aKey).Inverts KDESBlockBytes
  rc2 : ∀ aKey aEffectiveKeyLenBits, (prims.rc2 aKey aEffectiveKeyLenBits).Inverts KRC2BlockBytes

namespace PBE

/-- `aCipher != ECipherARC4_40 && aCipher != ECipherARC4_128`, the other way round -/
def IsStream (aCipher : TPBECipher) : Prop :=
  aCipher = .ECipherARC4_40 ∨ aCipher = .ECipherARC4_128

instance (aCipher : TPBECipher) : Decidable (IsStream aCipher) :=
  inferInstanceAs (Decidable (_ ∨ _))

theorem getBlockBytes_bounds (aCipher : TPBECipher) :
    0 < getBlockBytes aCipher ∧ getBlockBytes aCipher < 256 := by
  cases aCipher <;> decide

/-- A cipher that is made and no stream cipher chains a block cipher, the same one whatever the
vector is. -/
theorem makeCipherL_block {prims : Primitives} (hprims : prims.Sound) {aCipher : TPBECipher}
    {aKey aIV : Bytes} {cipher : CSymmetricCipher} (hblock : ¬ IsStream aCipher)
    (h : makeCipherL prims aCipher aKey aIV = .ok cipher) :
    ∃ block : BlockPrimitive, block.Inverts (getBlockBytes aCipher) ∧
      ∀ iv, makeCipherL prims aCipher aKey iv =
        .ok (.buffered (.constructL (.constructL block (getBlockBytes aCipher) iv))) := by
  cases aCipher with
  | ECipherARC4_40 => exact absurd (.inl rfl) hblock
  | ECipherARC4_128 => exact absurd (.inr rfl) hblock
  | ECipherAES_CBC_128 | ECipherAES_CBC_192 | ECipherAES_CBC_256 =>
      exact ⟨_, hprims.aes aKey, fun _ => rfl⟩
  | ECipherDES_CBC => exact ⟨_, hprims.des aKey, fun _ => rfl⟩
  | ECipher3DES_CBC => exact ⟨_, hprims.tripleDes aKey, fun _ => rfl⟩
  | ECipher2Key3DES_CBC =>
      unfold makeCipherL at h ⊢
      cases hkey : encryptKey aKey with
      | error e =>
        rw [hkey] at h
        cases h
      | ok key => exact ⟨_, hprims.tripleDes key, fun _ => rfl⟩
  | ECipherRC2_CBC_40 | ECipherRC2_CBC_128 =>
      exact ⟨_, hprims.rc2 aKey KSSLCompatibilityBits, fun _ => rfl⟩
  | ECipherRC2_CBC_40_16 | ECipherRC2_CBC_128_16 =>
      exact ⟨_, hprims.rc2 aKey KPkcs8CompatibilityBits, fun _ => rfl⟩
  | ECipherRC2_CBC_40_5 => exact ⟨_, hprims.rc2 aKey KPkcs12CompatibilityBits, fun _ => rfl⟩

theorem makeCipherL_stream {prims : Primitives} {aCipher : TPBECipher} {aKey aIV : Bytes}
    (hstream : IsStream aCipher) :
    makeCipherL prims aCipher aKey aIV = .ok (.arc4 ⟨prims.arc4 aKey, 0⟩) := by
  rcases hstream with rfl | rfl
  · rfl
  · rfl

end PBE

section

variable {prims : Primitives} {aCipher : TPBECipher} {aKey iv fakeIV : Bytes}
  {encryptor : CPBEncryptorSet} {decryptor : CPBDecryptorSet}

/-- **With a block cipher the plaintext comes back**, whatever the pieces are. -/
theorem decryptorSet_restores (hprims : prims.Sound) (hblock : ¬ PBE.IsStream aCipher)
    (hiv : iv.length = PBE.getBlockBytes aCipher)
    (hencryptor : CPBEncryptorSet.constructL prims aCipher aKey iv = .ok encryptor)
    (hdecryptor : CPBDecryptorSet.constructL prims aCipher aKey fakeIV = .ok decryptor)
    (pieces : List Bytes) (final : Bytes) :
    ∃ answers, CPBEncryptorSet.interface.run encryptor pieces final = .ok answers ∧
      WithinAnnounced answers ∧ ∀ pieces' final', final' ≠ [] →
        pbeOutput answers = pieces'.flatten ++ final' →
          ∃ answers', CPBDecryptorSet.interface.run decryptor pieces' final' = .ok answers' ∧
            pbeOutput answers' = pieces.flatten ++ final ∧
            (WithinAnnounced answers' ↔ AnnouncedSuffices (PBE.getBlockBytes aCipher)
              (PBE.getBlockBytes aCipher -
                (pieces.flatten ++ final).length % PBE.getBlockBytes aCipher) 0 pieces') := by
  obtain ⟨hsize, hmax⟩ := PBE.getBlockBytes_bounds aCipher
  unfold CPBEncryptorSet.constructL at hencryptor
  unfold CPBDecryptorSet.constructL at hdecryptor
  cases hcipher : PBE.makeCipherL prims aCipher aKey iv with
  | error e =>
      rw [hcipher] at hencryptor
      cases hencryptor
  | ok cipher =>
      obtain ⟨block, hinverts, hmake⟩ := PBE.makeCipherL_block hprims hblock hcipher
      rw [hmake, ok_bind] at hencryptor hdecryptor
      cases hencryptor
      cases hdecryptor
      -- with the vector set, the one driver is the other
      let fresh := CBufferedTransformation.constructL
        (.constructL block (PBE.getBlockBytes aCipher) fakeIV)
      have hsound : (fresh.iBT.setIV iv).Sound fresh.blockSize := ⟨rfl, hiv, hinverts⟩
      obtain ⟨answers, rest, hrun, hwithin, houtput, hrest⟩ := CPBEncryptorSet.run_after
        (CPBDecryptorSet.withIV fresh iv) hsound hsize hiv false [] pieces final
      rw [CPBEncryptorSet.after, fed_nil rfl] at hrun
      rw [done_nil, nil_append, nil_append] at hrest
      refine ⟨answers, hrun, hwithin, ?_⟩
      intro pieces' final' hfinal' hsplit
      rw [houtput] at hsplit
      have hgot : [] ++ (pieces'.flatten ++ final') =
          iv ++ CPBDecryptorSet.ciphertext fresh iv (pieces.flatten ++ final) := by
        rw [nil_append, ← hsplit]
        exact congrArg (iv ++ ·) hrest
      obtain ⟨answers', hrun', houtput', hwithin'⟩ := CPBDecryptorSet.run_after
        fresh hiv hsize hmax rfl hsound hfinal' hgot
      rw [CPBDecryptorSet.after_lt (show ([] : Bytes).length < fresh.blockSize from hsize)] at hrun'
      rw [drop_nil, done_nil, nil_append] at houtput'
      exact ⟨answers', hrun', houtput', hwithin'⟩

/--
**When decryption restores the plaintext within what is announced.**  The encrypting set stays
within what it announces.  For every way of cutting its ciphertext with something left for the last
call (it and the stored octets are then some blocks), the decrypting set gives the plaintext back
and stays within what it announces exactly if the cipher is a block cipher and the pieces are such
that the announcements suffice.
-/
theorem decryptorSet_within_iff (hprims : prims.Sound)
    (hiv : iv.length = PBE.getBlockBytes aCipher)
    (hencryptor : CPBEncryptorSet.constructL prims aCipher aKey iv = .ok encryptor)
    (hdecryptor : CPBDecryptorSet.constructL prims aCipher aKey fakeIV = .ok decryptor)
    (pieces : List Bytes) (final : Bytes) :
    ∃ answers, CPBEncryptorSet.interface.run encryptor pieces final = .ok answers ∧
      WithinAnnounced answers ∧ ∀ pieces' final', final' ≠ [] →
        pbeOutput answers = pieces'.flatten ++ final' →
          ((∃ answers', CPBDecryptorSet.interface.run decryptor pieces' final' = .ok answers' ∧
              pbeOutput answers' = pieces.flatten ++ final ∧ WithinAnnounced answers') ↔
            ¬ PBE.IsStream aCipher ∧ AnnouncedSuffices (PBE.getBlockBytes aCipher)
              (PBE.getBlockBytes aCipher -
                (pieces.flatten ++ final).length % PBE.getBlockBytes aCipher) 0 pieces') := by
  by_cases hstream : PBE.IsStream aCipher
  · have hone : iv.length = 1 := by
      rcases hstream with rfl | rfl
      · exact hiv
      · exact hiv
    unfold CPBEncryptorSet.constructL at hencryptor
    unfold CPBDecryptorSet.constructL at hdecryptor
    rw [PBE.makeCipherL_stream hstream, ok_bind] at hencryptor hdecryptor
    cases hencryptor
    cases hdecryptor
    obtain ⟨answers, hrun, hwithin⟩ :=
      CPBEncryptorSet.run_arc4 hone false ⟨prims.arc4 aKey, 0⟩ pieces final
    refine ⟨answers, hrun, hwithin, ?_⟩
    intro pieces' final' hfinal' _
    constructor
    · rintro ⟨answers', hrun', _⟩
      exact absurd hrun' (CPBDecryptorSet.run_arc4 hfinal' answers')
    · intro h
      exact absurd hstream h.1
  · obtain ⟨answers, hrun, hwithin, hrestores⟩ :=
      decryptorSet_restores hprims hstream hiv hencryptor hdecryptor pieces final
    refine ⟨answers, hrun, hwithin, ?_⟩
    intro pieces' final' hfinal' hsplit
    obtain ⟨answers', hrun', houtput, hiff⟩ := hrestores pieces' final' hfinal' hsplit
    constructor
    · rintro ⟨other, hother, _, hwithin'⟩
      rw [hrun'] at hother
      cases hother
      exact ⟨hstream, hiff.mp hwithin'⟩
    · rintro ⟨_, hsuffices⟩
      exact ⟨answers', hrun', houtput, hiff.mpr hsuffices⟩

end

/-- A block cipher that turns the bits over. -/
def turnOver : BlockPrimitive := ⟨List.map (~~~ ·), List.map (~~~ ·)⟩

theorem turnOver_inverts (size : Nat) : turnOver.Inverts size where
  length := by
    intro b hb
    show (b.map _).length = size
    rw [length_map, hb]
  inverse := by
    intro b _
    show (b.map _).map _ = b
    simp [Function.comp_def]

def turnOvers : Primitives :=
  ⟨fun _ => turnOver, fun _ => turnOver, fun _ => turnOver, fun _ _ => turnOver, fun _ _ => 0⟩

/-- Eight octets with DES.  The vector comes with the first eight octets of the ciphertext, and the
rest in two calls. -/
theorem decryptorSet_within_eight :
    ∃ decryptor answers, CPBDecryptorSet.constructL turnOvers .ECipherDES_CBC
        (replicate 8 5) (replicate 8 9) = .ok decryptor ∧
      CPBDecryptorSet.interface.run decryptor
        [replicate 8 0, replicate 8 0xFD] (replicate 8 5) = .ok answers ∧
      pbeOutput answers = replicate 8 2 ∧ WithinAnnounced answers := by
  have hsound : turnOvers.Sound := ⟨fun _ => turnOver_inverts _, fun _ => turnOver_inverts _,
    fun _ => turnOver_inverts _, fun _ _ => turnOver_inverts _⟩
  obtain ⟨answers, hrun, -, hdecrypt⟩ := @decryptorSet_within_iff turnOvers .ECipherDES_CBC
    (replicate 8 5) (replicate 8 0) (replicate 8 9) _ _
    hsound rfl rfl rfl [] (replicate 8 2)
  cases hrun
  obtain ⟨answers', hrun', houtput, hwithin⟩ :=
    (hdecrypt [replicate 8 0, replicate 8 0xFD] (replicate 8 5) (by decide)
      (by decide)).mpr ⟨by decide, by decide⟩
  exact ⟨_, answers', rfl, hrun', houtput, hwithin⟩

/-- The same octets of the ciphertext in calls of one and fifteen: nothing is announced for the
fifteen, and eight octets are appended. -/
theorem decryptorSet_not_within :
    ∃ encryptor decryptor answers,
      CPBEncryptorSet.constructL turnOvers .ECipherDES_CBC (replicate 8 5)
        (replicate 8 0) = .ok encryptor ∧
      CPBDecryptorSet.constructL turnOvers .ECipherDES_CBC (replicate 8 5)
        (replicate 8 9) = .ok decryptor ∧
      (CPBEncryptorSet.interface.run encryptor [] (replicate 8 2)).map pbeOutput =
        .ok ([[0], replicate 7 0 ++ replicate 8 0xFD].flatten ++ replicate 8 5) ∧
      CPBDecryptorSet.interface.run decryptor [[0], replicate 7 0 ++ replicate 8 0xFD]
        (replicate 8 5) = .ok answers ∧
      ⟨0, replicate 8 2⟩ ∈ answers ∧ ¬ WithinAnnounced answers := by
  refine ⟨_, _, [⟨0, []⟩, ⟨0, replicate 8 2⟩, ⟨7, []⟩], rfl, rfl, rfl, rfl, by decide, ?_⟩
  intro hwithin
  have hcall := hwithin ⟨0, replicate 8 2⟩ (by decide)
  exact absurd hcall (by decide)

end OsSecurity

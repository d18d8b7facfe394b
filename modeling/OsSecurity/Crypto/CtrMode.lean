/-
CTR mode is the stream cipher that its definition says.

The key stream is the encryption of the counter, block after block, and the counter starts at
the initialization vector and is counted as one big-endian number.  A call makes key stream in
whole blocks and keeps what its input has not used.  So after `n` octets in any pieces some
number `c` of blocks has been made, the register is the counter after `c` steps, and what is
kept is their key stream without its first `n` octets: `streamed`.
-/
import OsSecurity.Crypto.Decryption
import OsSecurity.Library.Der

namespace OsSecurity

open Der List Nat

variable {c n : Nat} {b x : Bytes} {out : TDes8}

namespace CSymmetricBlockCipherImpl

/-- The vector, counted up `j` times. -/
def counterAt (aIv : Bytes) (j : Nat) : Bytes :=
  fixed aIv.length ((Der.value aIv + j) % 256 ^ aIv.length)

/-- The key stream of the blocks `c` to `c + n`. -/
def keystream (prim : BlockPrimitive) (aIv : Bytes) (c n : Nat) : Bytes :=
  BlockModes.keystream prim.encrypt (counterAt aIv) c n

/-- Data XOR key stream. -/
def ctrReference (prim : BlockPrimitive) (aIv data : Bytes) : Bytes :=
  xorBytes data (keystream prim aIv 0 (data.length / aIv.length + 1))

/-- A cipher in CTR mode after `SetIvL`. -/
structure FreshCtr (cipher : CSymmetricBlockCipherImpl) : Prop where
  size : 0 < cipher.iBlockBytes
  crypto : cipher.iCryptoMode = .KCryptoModeEncrypt
  mode : cipher.iOperationMode = .KOperationModeCTR
  iv : cipher.iIv = some cipher.iRegister
  register : cipher.iRegister.length = cipher.iBlockBytes
  unused : cipher.iCtrUnusedKeystream = []

/-- `SetIvL` starts the stream, whatever has been processed. -/
theorem setIvL_freshCtr {self : CSymmetricBlockCipherImpl} {aIv : Bytes}
    (hsize : 0 < self.iBlockBytes) (hcrypto : self.iCryptoMode = .KCryptoModeEncrypt)
    (hmode : self.iOperationMode = .KOperationModeCTR) (hiv : aIv.length = self.iBlockBytes) :
    ∃ next, self.setIvL aIv = .ok next ∧ next.FreshCtr ∧ next.iRegister = aIv := by
  have hnext : self.setIvL aIv = .ok (reset { self with iIv := some aIv, iRegister := aIv }) := by
    unfold setIvL
    rw [if_neg (by rw [hmode]; simp), if_neg (not_not.mpr hiv)]
  have hregister : (reset { self with iIv := some aIv, iRegister := aIv }).iRegister = aIv := by
    unfold reset
    rw [hmode]
    rfl
  refine ⟨_, hnext, ⟨hsize, hcrypto, hmode, ?_, ?_, rfl⟩, hregister⟩
  · rw [hregister]
    rfl
  · rw [hregister]
    exact hiv

/-! ### The counter -/

/-- The octets are counted from the last one on, as far as the carry goes. -/
theorem incrementLittle_fixed (n v : Nat) :
    incrementLittle (fixed n v).reverse = (fixed n (v + 1)).reverse := by
  induction n generalizing v with
  | zero => rfl
  | succ n ih =>
      have hsucc : (v % 256).toUInt8 + 1 = (v % 256 + 1).toUInt8 := by
        simp [UInt8.ofNat_add]
      rw [fixed, fixed, reverse_concat, reverse_concat, incrementLittle, hsucc]
      by_cases hcarry : v % 256 = 255
      · have hdiv : (v + 1) / 256 = v / 256 + 1 := by omega
        have hmod : (v + 1) % 256 = 0 := by omega
        rw [hcarry, if_neg (by decide), ih, hdiv, hmod]
        rfl
      · have hdiv : (v + 1) / 256 = v / 256 := by omega
        have hmod : (v + 1) % 256 = v % 256 + 1 := by omega
        have hne : (v % 256 + 1).toUInt8 ≠ 0 := by
          intro hzero
          have hnat := congrArg UInt8.toNat hzero
          simp only [toUInt8_eq, UInt8.toNat_ofNat', UInt8.toNat_zero] at hnat
          omega
        rw [if_pos hne, hdiv, hmod]

theorem incrementCounter_counterAt (aIv : Bytes) (j : Nat) :
    incrementCounter (counterAt aIv j) = counterAt aIv (j + 1) := by
  unfold incrementCounter counterAt
  rw [fixed_mod, fixed_mod, incrementLittle_fixed, reverse_reverse, Nat.add_assoc]

theorem counterAt_zero (aIv : Bytes) : counterAt aIv 0 = aIv := by
  unfold counterAt
  rw [Nat.add_zero, fixed_mod, fixed_value]

/-! ### XOR of octets -/

theorem xorBytes_comm (a b : Bytes) : xorBytes a b = xorBytes b a :=
  zipWith_comm_of_comm (fun x y => UInt8.xor_comm x y)

theorem xorBytes_length_of_le {a : Bytes} (h : a.length ≤ b.length) :
    (xorBytes a b).length = a.length := by
  unfold xorBytes
  rw [length_zipWith]
  omega

/-- Key stream that the data do not reach does not matter. -/
theorem xorBytes_append_left {a : Bytes} (h : a.length ≤ b.length) (c : Bytes) :
    xorBytes a (b ++ c) = xorBytes a b := by
  calc xorBytes a (b ++ c)
      = xorBytes (a ++ []) (b.take a.length ++ (b.drop a.length ++ c)) := by
        rw [append_nil, ← List.append_assoc, take_append_drop]
    _ = xorBytes a (b.take a.length) := by
        unfold xorBytes
        rw [zipWith_append (by rw [length_take]; omega), zipWith_nil_left,
          append_nil]
    _ = xorBytes (a ++ []) (b.take a.length ++ b.drop a.length) := by
        unfold xorBytes
        rw [zipWith_append (by rw [length_take]; omega), zipWith_nil_left,
          append_nil]
    _ = xorBytes a b := by
        rw [append_nil, take_append_drop]

/-- Two pieces of data take the key stream one after the other. -/
theorem xorBytes_append {a k : Bytes} (h : a.length ≤ k.length) :
    xorBytes (a ++ b) k = xorBytes a k ++ xorBytes b (k.drop a.length) := by
  have hk : k = k.take a.length ++ k.drop a.length := (take_append_drop _ _).symm
  have hlen : a.length = (k.take a.length).length := by
    rw [length_take]
    omega
  have hfront : xorBytes a k = xorBytes a (k.take a.length) := by
    rw [← xorBytes_append_left (le_of_eq hlen) (k.drop a.length), take_append_drop]
  rw [hfront]
  conv_lhs => rw [hk]
  exact zipWith_append hlen

/-- Zeros leave the key stream. -/
theorem xorBytes_zeros (k : Bytes) : xorBytes k (replicate k.length 0) = k := by
  induction k with
  | nil => rfl
  | cons b k ih =>
      show (b ^^^ 0) :: xorBytes k (replicate k.length 0) = b :: k
      rw [ih, UInt8.xor_zero]

/-! ### The key stream -/

/-- The cipher after `n` octets, when it has made `c` blocks of key stream. -/
def streamed (prim : BlockPrimitive) (self : CSymmetricBlockCipherImpl) (n c : Nat) :
    CSymmetricBlockCipherImpl :=
  { self with
    iRegister := counterAt self.iRegister c
    iCtrUnusedKeystream := (keystream prim self.iRegister 0 c).drop n }

variable {self : CSymmetricBlockCipherImpl} {prim : BlockPrimitive}

theorem counterAt_length (aIv : Bytes) (j : Nat) : (counterAt aIv j).length = aIv.length :=
  fixed_length _ _

theorem keystream_length (h : self.FreshCtr) (hprim : Blocks prim self.iBlockBytes)
    (c n : Nat) : (keystream prim self.iRegister c n).length = n * self.iBlockBytes := by
  apply BlockModes.keystream_length
  intro j
  exact hprim _ ((counterAt_length _ _).trans h.register)

theorem keystream_add (aIv : Bytes) (c m n : Nat) : keystream prim aIv c (m + n) =
    keystream prim aIv c m ++ keystream prim aIv (c + m) n :=
  BlockModes.keystream_add c m n

/-- More key stream than the data reach gives nothing else. -/
theorem xorBytes_keystream (h : self.FreshCtr) (hprim : Blocks prim self.iBlockBytes)
    {data : Bytes} {m m' : Nat} (hm : n + data.length ≤ m * self.iBlockBytes) (hmm : m ≤ m') :
    xorBytes data ((keystream prim self.iRegister 0 m').drop n) =
      xorBytes data ((keystream prim self.iRegister 0 m).drop n) := by
  have hlen := keystream_length h hprim 0 m
  obtain ⟨r, rfl⟩ := Nat.le.dest hmm
  rw [keystream_add, drop_append_of_le_length (by omega)]
  apply xorBytes_append_left
  rw [length_drop]
  omega

theorem run_modeTransform (h : self.FreshCtr) (hprim : Blocks prim self.iBlockBytes)
    {xs : Bytes} (hxs : xs.length = n * self.iBlockBytes) (c : Nat) :
    Blockwise.run (self.modeTransform prim) self.iBlockBytes n (counterAt self.iRegister c) xs =
      (counterAt self.iRegister (c + n), xorBytes xs (keystream prim self.iRegister c n)) := by
  have hstep : self.modeTransform prim =
      BlockModes.ctrStep incrementCounter prim.encrypt (· ^^^ ·) := by
    unfold modeTransform
    rw [h.crypto, h.mode]
    rfl
  have hE : ∀ j, (prim.encrypt (counterAt self.iRegister j)).length = self.iBlockBytes := fun j =>
    hprim _ ((counterAt_length _ _).trans h.register)
  rw [hstep, BlockModes.run_ctrStep hE (incrementCounter_counterAt _) hxs, xorBytes_comm]
  rfl

/-! ### One call -/

/-- Key stream that is left over is used first. -/
theorem applyUnusedKeystream_streamed {a : Nat}
    (ha : min ((keystream prim self.iRegister 0 c).drop n).length x.length = a)
    (hroom : out.length + a ≤ out.maxLength) :
    (streamed prim self n c).applyUnusedKeystream x out =
      .ok (streamed prim self (n + a) c,
        ⟨out.data ++ xorBytes (x.take a) ((keystream prim self.iRegister 0 c).drop n),
          out.maxLength⟩) := by
  have hunused : (streamed prim self n c).iCtrUnusedKeystream =
      (keystream prim self.iRegister 0 c).drop n := rfl
  unfold applyUnusedKeystream
  simp only
  rw [hunused, ha]
  by_cases hpos : a > 0
  · have hlen : (x.take a).length = a := by
      rw [length_take]
      omega
    have hused : xorBytes (x.take a) (((keystream prim self.iRegister 0 c).drop n).take a) =
        xorBytes (x.take a) ((keystream prim self.iRegister 0 c).drop n) := by
      have hle : (x.take a).length ≤
          (((keystream prim self.iRegister 0 c).drop n).take a).length := by
        rw [hlen, length_take]
        omega
      rw [← xorBytes_append_left hle (((keystream prim self.iRegister 0 c).drop n).drop a),
        take_append_drop]
    have happend : out.length + (xorBytes (x.take a)
        (((keystream prim self.iRegister 0 c).drop n).take a)).length ≤ out.maxLength := by
      unfold xorBytes
      rw [length_zipWith, hlen]
      omega
    rw [if_pos hpos, TDes8.append_ok happend, hused, drop_drop]
    rfl
  · have hzero : a = 0 := by omega
    rw [if_neg hpos, hzero]
    show Except.ok (_, out) = Except.ok (_, (⟨out.data ++ [], out.maxLength⟩ : TDes8))
    rw [append_nil]
    rfl

/-- The cipher with the counter at `c` and any key stream. -/
def AtCounter (self : CSymmetricBlockCipherImpl) (c : Nat) (s : CSymmetricBlockCipherImpl) : Prop :=
  ∃ unused, s = { self with
    iRegister := counterAt self.iRegister c, iCtrUnusedKeystream := unused }

section

variable (h : self.FreshCtr)
include h

section

variable (hprim : Blocks prim self.iBlockBytes)
include hprim

theorem AtCounter.transformAt {s : CSymmetricBlockCipherImpl} (hs : self.AtCounter c s)
    (a : Bytes) (hb : b.length = n * self.iBlockBytes) :
    s.transformAt (s.modeTransform prim) (a ++ b) a.length n =
      ({ s with iRegister := counterAt self.iRegister (c + n) },
        a ++ xorBytes b (keystream prim self.iRegister c n)) := by
  have hsize : s.iBlockBytes = self.iBlockBytes := by
    obtain ⟨_, rfl⟩ := hs
    rfl
  have hregister : s.iRegister = counterAt self.iRegister c := by
    obtain ⟨_, rfl⟩ := hs
    rfl
  have hmode : s.modeTransform prim = self.modeTransform prim := by
    obtain ⟨_, rfl⟩ := hs
    rfl
  rw [transformAt_append _ a (by rw [hsize]; exact hb), hmode, hsize, hregister,
    run_modeTransform h hprim hb]

/-- The last block of a call takes the key stream it needs and leaves the rest. -/
theorem makeKeystream_streamed {s : CSymmetricBlockCipherImpl} (hs : self.AtCounter c s)
    {rest : Bytes} (hrest : rest.length ≤ self.iBlockBytes) :
    s.makeKeystream prim rest =
      (streamed prim self (c * self.iBlockBytes + rest.length) (c + 1),
        xorBytes rest (keystream prim self.iRegister c 1)) := by
  generalize hzeros : replicate (self.iBlockBytes - rest.length) (0 : UInt8) = zeros
  have hblock : (rest ++ zeros).length = 1 * self.iBlockBytes := by
    rw [← hzeros, length_append, length_replicate]
    omega
  have hmade : s.transformAt (s.modeTransform prim) ([] ++ (rest ++ zeros)) [].length 1 = _ :=
    hs.transformAt h hprim [] hblock
  have hstream : keystream prim self.iRegister 0 (c + 1) =
      keystream prim self.iRegister 0 c ++ keystream prim self.iRegister c 1 := by
    rw [keystream_add, Nat.zero_add]
  have hbefore := keystream_length h hprim 0 c
  have hlast := keystream_length h hprim c 1
  rw [Nat.one_mul] at hlast
  generalize keystream prim self.iRegister c 1 = last at hstream hlast hmade
  have hfit : (xorBytes rest last).length = rest.length := xorBytes_length_of_le (by omega)
  have hleft : xorBytes zeros (last.drop rest.length) = last.drop rest.length := by
    have hlen : self.iBlockBytes - rest.length = (last.drop rest.length).length := by
      rw [length_drop, hlast]
    rw [← hzeros, hlen, xorBytes_comm, xorBytes_zeros]
  have hdata : xorBytes (rest ++ zeros) last = xorBytes rest last ++ last.drop rest.length := by
    rw [xorBytes_append (by omega), hleft]
  have hdrop : (keystream prim self.iRegister 0 (c + 1)).drop
      (c * self.iBlockBytes + rest.length) = last.drop rest.length := by
    rw [hstream, ← hbefore, drop_length_add_append]
  have htake : (xorBytes rest last ++ last.drop rest.length).take rest.length =
      xorBytes rest last := take_left' hfit
  have hrest' : (xorBytes rest last ++ last.drop rest.length).drop rest.length =
      last.drop rest.length := drop_left' hfit
  rw [nil_append, nil_append, hdata] at hmade
  obtain ⟨unused, rfl⟩ := hs
  unfold makeKeystream streamed
  simp only
  rw [hzeros, hdrop]
  simp only [length_nil] at hmade
  rw [hmade, htake, hrest']

/-- Input that the left over key stream does not reach: whole blocks, and a last one. -/
theorem encodeCtrL_streamed {s : CSymmetricBlockCipherImpl} {a w : Nat} (hs : self.AtCounter c s)
    (ha : a ≤ x.length) (hw : (x.length - a) / self.iBlockBytes = w)
    (hroom : out.length + (x.length - a) ≤ out.maxLength) :
    s.encodeCtrL prim x out a =
      .ok (streamed prim self (c * self.iBlockBytes + (x.length - a)) (c + (w + 1)),
        ⟨out.data ++ xorBytes (x.drop a) (keystream prim self.iRegister c (w + 1)),
          out.maxLength⟩) := by
  have hsize : s.iBlockBytes = self.iBlockBytes := by
    obtain ⟨_, rfl⟩ := hs
    rfl
  have hwhole : w * self.iBlockBytes ≤ x.length - a := by
    rw [← hw]
    exact div_mul_le_self _ _
  have hlast : x.length - a - w * self.iBlockBytes < self.iBlockBytes := by
    rw [← hw]
    have := div_add_mod' (x.length - a) self.iBlockBytes
    have := mod_lt (x.length - a) h.size
    omega
  generalize hfront : (x.drop a).take (w * self.iBlockBytes) = front
  generalize hrest : x.drop (x.length - (x.length - a - w * self.iBlockBytes)) = rest
  have hfrontLength : front.length = w * self.iBlockBytes := by
    rw [← hfront, length_take, length_drop]
    omega
  have hrestLength : rest.length = x.length - a - w * self.iBlockBytes := by
    rw [← hrest, length_drop]
    omega
  have hsplit : x.drop a = front ++ rest := by
    have hindex : x.length - (x.length - a - w * self.iBlockBytes) = a + w * self.iBlockBytes := by
      omega
    rw [← hfront, ← hrest, hindex, ← drop_drop, take_append_drop]
  have happend : out.length + front.length ≤ out.maxLength := by omega
  have htransform : s.transformAt (s.modeTransform prim) (out.data ++ front) out.length w = _ :=
    hs.transformAt h hprim out.data hfrontLength
  have hnext : self.AtCounter (c + w) { s with iRegister := counterAt self.iRegister (c + w) } := by
    obtain ⟨unused, rfl⟩ := hs
    exact ⟨unused, rfl⟩
  have hmade : makeKeystream prim { s with iRegister := counterAt self.iRegister (c + w) } rest =
      _ := makeKeystream_streamed h hprim hnext (by omega)
  have hfrontStream := keystream_length h hprim c w
  have hlastStream := keystream_length h hprim (c + w) 1
  have hxor : xorBytes (x.drop a) (keystream prim self.iRegister c (w + 1)) =
      xorBytes front (keystream prim self.iRegister c w) ++
        xorBytes rest (keystream prim self.iRegister (c + w) 1) := by
    rw [hsplit, keystream_add]
    exact zipWith_append (hfrontLength.trans hfrontStream.symm)
  have hfrontXor : (xorBytes front (keystream prim self.iRegister c w)).length = front.length :=
    xorBytes_length_of_le (by omega)
  have hrestXor : (xorBytes rest (keystream prim self.iRegister (c + w) 1)).length =
      rest.length := xorBytes_length_of_le (by omega)
  have hcount : (c + w) * self.iBlockBytes + rest.length = c * self.iBlockBytes + (x.length - a) := by
    rw [Nat.add_mul]
    omega
  have happend' : (⟨out.data ++ xorBytes front (keystream prim self.iRegister c w),
      out.maxLength⟩ : TDes8).length +
        (xorBytes rest (keystream prim self.iRegister (c + w) 1)).length ≤ out.maxLength := by
    show (out.data ++ _).length + _ ≤ _
    rw [length_append, hfrontXor, hrestXor]
    show out.length + _ + _ ≤ _
    omega
  unfold encodeCtrL
  simp only
  rw [hsize, hw, hfront, hrest, TDes8.append_ok happend]
  simp only [ok_bind]
  rw [htransform]
  simp only
  rw [hmade]
  simp only
  rw [TDes8.append_ok happend', hcount, hxor, ← List.append_assoc]
  rfl

/-- **One call of `ProcessL` in CTR mode.** -/
theorem processCtrL_streamed (hn : n ≤ c * self.iBlockBytes)
    (hroom : out.length + x.length ≤ out.maxLength) :
    ∃ c', c ≤ c' ∧ n + x.length ≤ c' * self.iBlockBytes ∧
      (streamed prim self n c).processCtrL prim x out = .ok (streamed prim self (n + x.length) c',
        ⟨out.data ++ xorBytes x ((keystream prim self.iRegister 0 c').drop n), out.maxLength⟩) := by
  have hstream := keystream_length h hprim 0 c
  have hleft : ((keystream prim self.iRegister 0 c).drop n).length =
      c * self.iBlockBytes - n := by
    rw [length_drop, hstream]
  by_cases hx : x.length ≤ c * self.iBlockBytes - n
  · -- the key stream that is left over is enough
    refine ⟨c, Nat.le_refl _, by omega, ?_⟩
    have ha : min ((keystream prim self.iRegister 0 c).drop n).length x.length = x.length := by
      omega
    have hunused : (streamed prim self n c).iCtrUnusedKeystream =
      (keystream prim self.iRegister 0 c).drop n := rfl
    unfold processCtrL
    simp only
    rw [applyUnusedKeystream_streamed ha hroom]
    simp only [ok_bind]
    rw [hunused, ha, if_neg (by omega), take_length]
    rfl
  · -- it is used up, and more is made
    generalize hw : (x.length - (c * self.iBlockBytes - n)) / self.iBlockBytes = w
    have ha : min ((keystream prim self.iRegister 0 c).drop n).length x.length =
        c * self.iBlockBytes - n := by omega
    have hunused : (streamed prim self n c).iCtrUnusedKeystream =
      (keystream prim self.iRegister 0 c).drop n := rfl
    have hfirst : n + (c * self.iBlockBytes - n) = c * self.iBlockBytes := by omega
    have hempty : (streamed prim self (c * self.iBlockBytes) c).iCtrUnusedKeystream.length = 0 := by
      show ((keystream prim self.iRegister 0 c).drop (c * self.iBlockBytes)).length = 0
      rw [length_drop, hstream, Nat.sub_self]
    generalize htaken : c * self.iBlockBytes - n = a at hw ha hfirst hleft hx
    have htake : (x.take a).length = a := by
      rw [length_take]
      omega
    have hused : (xorBytes (x.take a) ((keystream prim self.iRegister 0 c).drop n)).length = a := by
      rw [xorBytes_length_of_le (by omega), htake]
    have hroom' : (⟨out.data ++ xorBytes (x.take a) ((keystream prim self.iRegister 0 c).drop n),
        out.maxLength⟩ : TDes8).length + (x.length - a) ≤ out.maxLength := by
      show (out.data ++ _).length + _ ≤ _
      rw [length_append, hused]
      show out.length + _ + _ ≤ _
      omega
    have hencode : (streamed prim self (c * self.iBlockBytes) c).encodeCtrL prim x _ a = _ :=
      encodeCtrL_streamed h hprim ⟨_, rfl⟩ (by omega) hw hroom'
    have hall : xorBytes x ((keystream prim self.iRegister 0 (c + (w + 1))).drop n) =
        xorBytes (x.take a) ((keystream prim self.iRegister 0 c).drop n) ++
          xorBytes (x.drop a) (keystream prim self.iRegister c (w + 1)) := by
      have hdrop : (keystream prim self.iRegister 0 c ++
          keystream prim self.iRegister c (w + 1)).drop n =
            (keystream prim self.iRegister 0 c).drop n ++
              keystream prim self.iRegister c (w + 1) :=
        drop_append_of_le_length (by omega)
      rw [keystream_add, Nat.zero_add, hdrop]
      conv_lhs => rw [← take_append_drop a x]
      exact zipWith_append (htake.trans hleft.symm)
    have hblocks : x.length - a < (w + 1) * self.iBlockBytes := by
      rw [← hw]
      have := div_add_mod' (x.length - a) self.iBlockBytes
      have := mod_lt (x.length - a) h.size
      rw [succ_mul]
      omega
    have hcount : c * self.iBlockBytes + (x.length - a) = n + x.length := by omega
    refine ⟨c + (w + 1), by omega, ?_, ?_⟩
    · rw [Nat.add_mul]
      omega
    · unfold processCtrL
      simp only
      rw [applyUnusedKeystream_streamed ha (by omega), hunused, ha, hfirst]
      simp only [ok_bind]
      rw [if_pos ⟨hempty, by omega⟩, hencode, hcount, hall, List.append_assoc]

theorem processL_streamed (hn : n ≤ c * self.iBlockBytes)
    (hroom : out.length + (streamed prim self n c).maxOutputLength x.length ≤ out.maxLength) :
    ∃ c', c ≤ c' ∧ n + x.length ≤ c' * self.iBlockBytes ∧
      (streamed prim self n c).processL prim x out = .ok (streamed prim self (n + x.length) c',
        ⟨out.data ++ xorBytes x ((keystream prim self.iRegister 0 c').drop n), out.maxLength⟩) := by
  have hmode : (streamed prim self n c).iOperationMode = .KOperationModeCTR := h.mode
  have hiv : ¬ (((streamed prim self n c).iOperationMode = .KOperationModeCBC ∨
      (streamed prim self n c).iOperationMode = .KOperationModeCTR) ∧
      (streamed prim self n c).iIv = none) := by
    rintro ⟨_, hnone⟩
    exact absurd (h.iv.symm.trans hnone) (by simp)
  have hmax : (streamed prim self n c).maxOutputLength x.length = x.length := by
    unfold maxOutputLength
    rw [if_pos hmode]
  rw [hmax] at hroom
  unfold processL
  rw [if_neg hiv, hmax, if_neg (by omega), if_pos hmode]
  exact processCtrL_streamed h hprim hn hroom

end

end

/-! ### All calls -/

section

variable (h : self.FreshCtr)
include h

/-- **Any calls of `ProcessL` in CTR mode.** -/
theorem processAllL_streamed (hprim : Blocks prim self.iBlockBytes) {final : Call}
    {calls : List Call} (hn : n ≤ c * self.iBlockBytes)
    (hroom : HasRoom prim final (streamed prim self n c) calls) :
    ∃ c', c ≤ c' ∧ n + (message calls).length ≤ c' * self.iBlockBytes ∧
      processAllL prim (streamed prim self n c) calls =
        .ok (streamed prim self (n + (message calls).length) c',
          xorBytes (message calls) ((keystream prim self.iRegister 0 c').drop n)) ∧
      HasRoom prim final (streamed prim self (n + (message calls).length) c') [] := by
  induction calls generalizing n c with
  | nil =>
      refine ⟨c, Nat.le_refl _, ?_, rfl, hroom⟩
      rw [message_nil, length_nil]
      omega
  | cons call calls ih =>
      obtain ⟨c₁, hc₁, hn₁, hcall⟩ := processL_streamed h hprim hn hroom.1
      obtain ⟨c', hc', hn', hrun, hfinal⟩ := ih hn₁ (hroom.2 _ _ hcall)
      have hlen : n + (message (call :: calls)).length =
          n + call.aInput.length + (message calls).length := by
        rw [message_cons, length_append, Nat.add_assoc]
      have hstream := keystream_length h hprim 0 c'
      have hfit : call.aInput.length ≤ ((keystream prim self.iRegister 0 c').drop n).length := by
        rw [length_drop, hstream]
        omega
      have hdata : xorBytes (message (call :: calls))
          ((keystream prim self.iRegister 0 c').drop n) =
            xorBytes call.aInput ((keystream prim self.iRegister 0 c₁).drop n) ++
              xorBytes (message calls)
                ((keystream prim self.iRegister 0 c').drop (n + call.aInput.length)) := by
        rw [message_cons, xorBytes_append hfit, drop_drop, xorBytes_keystream h hprim hn₁ hc']
      refine ⟨c', Nat.le_trans hc₁ hc', by omega, ?_, ?_⟩
      · rw [hlen, hdata]
        unfold processAllL
        rw [hcall]
        simp only [ok_bind]
        rw [hrun]
        simp only [ok_bind]
        rw [show call.aOutput.length = call.aOutput.data.length from rfl, drop_left]
        rfl
      · rw [hlen]
        exact hfinal

theorem streamed_zero : streamed prim self 0 0 = self := by
  have hkeystream : (keystream prim self.iRegister 0 0).drop 0 = [] := rfl
  unfold streamed
  rw [counterAt_zero, hkeystream, ← h.unused]

section

variable (hprim : Blocks prim self.iBlockBytes)
include hprim

/-- The reference takes as much key stream as any number of blocks that is enough. -/
theorem ctrReference_eq {data : Bytes} (hc : data.length ≤ c * self.iBlockBytes) :
    ctrReference prim self.iRegister data =
      xorBytes data ((keystream prim self.iRegister 0 c).drop 0) := by
  unfold ctrReference
  rw [h.register]
  generalize hk : data.length / self.iBlockBytes + 1 = k
  have henough : 0 + data.length ≤ k * self.iBlockBytes := by
    have := div_add_mod' data.length self.iBlockBytes
    have := mod_lt data.length h.size
    rw [← hk, succ_mul]
    omega
  rw [← xorBytes_keystream h hprim (by omega) (Nat.le_add_right c k),
    xorBytes_keystream h hprim henough (Nat.le_add_left k c)]
  rfl

/-- A message in CTR mode, with the state it leaves. -/
theorem processMessageL_streamed {calls : List Call} {final : Call}
    (hroom : HasRoom prim final self calls) :
    ∃ n c, processMessageL prim self calls final = .ok (streamed prim self n c,
      ctrReference prim self.iRegister (message calls ++ final.aInput)) := by
  have hstart : HasRoom prim final (streamed prim self 0 0) calls := by
    rw [streamed_zero h]
    exact hroom
  obtain ⟨c, _, hn, hrun, hlast⟩ := processAllL_streamed h hprim (Nat.zero_le _) hstart
  rw [streamed_zero h] at hrun
  rw [Nat.zero_add] at hn hrun hlast
  generalize message calls = m at *
  have hmode : (streamed prim self m.length c).iOperationMode = .KOperationModeCTR := h.mode
  have hroom' : final.aOutput.length +
      (streamed prim self m.length c).maxOutputLength final.aInput.length ≤
        final.aOutput.maxLength := by
    have hmax : (streamed prim self m.length c).maxFinalOutputLength final.aInput.length ≤
        (final.aOutput.maxLength : Int) - final.aOutput.length := hlast
    unfold maxFinalOutputLength at hmax
    rw [if_pos hmode] at hmax
    unfold maxOutputLength
    rw [if_pos hmode]
    omega
  obtain ⟨c', hc', hn', hfinal⟩ := processL_streamed h hprim hn hroom'
  have hprocess : (streamed prim self m.length c).processFinalL prim final.aInput final.aOutput =
      (streamed prim self m.length c).processL prim final.aInput final.aOutput := if_pos hmode
  have hstream := keystream_length h hprim 0 c'
  refine ⟨m.length + final.aInput.length, c', ?_⟩
  unfold processMessageL
  rw [hrun]
  simp only [ok_bind]
  rw [hprocess, hfinal]
  simp only [ok_bind]
  have htotal : (m ++ final.aInput).length ≤ c' * self.iBlockBytes := by
    rw [length_append]
    exact hn'
  have hfit : m.length ≤ ((keystream prim self.iRegister 0 c').drop 0).length := by
    rw [length_drop, hstream]
    omega
  have hsame : xorBytes m ((keystream prim self.iRegister 0 c').drop 0) =
      xorBytes m ((keystream prim self.iRegister 0 c).drop 0) :=
    xorBytes_keystream h hprim (by omega) hc'
  rw [ctrReference_eq h hprim htotal, xorBytes_append hfit, hsame, drop_drop, Nat.zero_add,
    show final.aOutput.length = final.aOutput.data.length from rfl, drop_left]
  rfl

/-- XOR with the same key stream twice. -/
theorem ctrReference_twice (data : Bytes) :
    ctrReference prim self.iRegister (ctrReference prim self.iRegister data) = data := by
  have henough : data.length ≤ (data.length / self.iBlockBytes + 1) * self.iBlockBytes := by
    have := div_add_mod' data.length self.iBlockBytes
    have := mod_lt data.length h.size
    rw [succ_mul]
    omega
  have hfit : data.length ≤ ((keystream prim self.iRegister 0
      (data.length / self.iBlockBytes + 1)).drop 0).length := by
    rw [drop_zero, keystream_length h hprim]
    exact henough
  rw [ctrReference_eq h hprim henough]
  rw [ctrReference_eq h hprim (by rw [xorBytes_length_of_le hfit]; exact henough),
    xorBytes_cancel hfit]

end

end

/-! ### The stream cipher -/

/-- What is claimed of CTR mode. -/
structure IsStream (prim : BlockPrimitive) (self : CSymmetricBlockCipherImpl) (calls : List Call)
    (final : Call) : Prop where
  /-- The output is the data XOR the key stream. -/
  output : ∃ last, processMessageL prim self calls final =
    .ok (last, ctrReference prim self.iRegister (message calls ++ final.aInput))
  /-- `SetIvL` with the same vector starts over, and the output processed again, in whatever
  pieces, is the data. -/
  back : ∀ last data, processMessageL prim self calls final = .ok (last, data) →
    ∃ again, last.setIvL self.iRegister = .ok again ∧
      ∀ calls' final', message calls' ++ final'.aInput = data →
        HasRoom prim final' again calls' →
          ∃ last', processMessageL prim again calls' final' =
            .ok (last', message calls ++ final.aInput)

/--
**CTR mode is the stream cipher of its definition**, for any calls with room for their output,
and deciphers what it has enciphered.
-/
theorem isStream {prim : BlockPrimitive} {self : CSymmetricBlockCipherImpl} (h : self.FreshCtr)
    (hprim : ∀ b, b.length = self.iBlockBytes → (prim.encrypt b).length = self.iBlockBytes)
    {calls : List Call} {final : Call} (hroom : HasRoom prim final self calls) :
    IsStream prim self calls final := by
  obtain ⟨n, c, hrun⟩ := processMessageL_streamed h hprim hroom
  refine ⟨⟨_, hrun⟩, ?_⟩
  intro last data hdata
  rw [hrun] at hdata
  obtain ⟨rfl, rfl⟩ := Prod.mk.inj (Except.ok.inj hdata)
  have hagain : ∃ next, (streamed prim self n c).setIvL self.iRegister = .ok next ∧
      next.FreshCtr ∧ next.iRegister = self.iRegister :=
    setIvL_freshCtr h.size h.crypto h.mode h.register
  obtain ⟨again, hset, hfresh, hregister⟩ := hagain
  have hsize : again.iBlockBytes = self.iBlockBytes := by
    rw [← hfresh.register, hregister, h.register]
  refine ⟨again, hset, ?_⟩
  intro calls' final' hmessage hroom'
  rw [← hsize] at hprim
  obtain ⟨n', c', hback⟩ := processMessageL_streamed hfresh hprim hroom'
  refine ⟨streamed prim again n' c', ?_⟩
  rw [hback, hmessage, ← hregister, ctrReference_twice hfresh hprim]

/-- The counter turns over while five octets are processed, in two calls. -/
theorem isStream_five : IsStream ⟨List.map (~~~ ·), List.map (~~~ ·)⟩
    { constructL 2 .KCryptoModeEncrypt .KOperationModeCTR .none [255, 254] with
      iIv := some [255, 254] }
    [⟨[1, 2, 3], ⟨[], 3⟩⟩] ⟨[4, 5], ⟨[], 2⟩⟩ := by
  apply isStream
  · exact ⟨by decide, rfl, rfl, rfl, rfl, rfl⟩
  · intro b hb
    show (b.map _).length = _
    rw [length_map]
    exact hb
  · refine ⟨by decide, ?_⟩
    intro next aOutput hcall
    cases hcall
    show (_ : Int) ≤ _
    decide

end CSymmetricBlockCipherImpl

end OsSecurity

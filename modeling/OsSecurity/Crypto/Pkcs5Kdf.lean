/-
The key derivation of PKCS #5: `pkcs5kdf.cpp`.

`F` works in three cells that are allocated once for all the blocks of the key: the accumulator,
the salt with the number of the block behind it, and the last digest.  What is in them to begin
with, and what a block leaves in them, is written over by the next.

The keyed digest is a parameter.  `Final` of a message starts from the key each time.
-/
import OsSecurity.Crypto.MD2
import OsSecurity.Crypto.Padding

namespace OsSecurity

open List UInt8

def SHA1_HASH : Nat := 20

/-- What SHA-1 makes of a message. -/
abbrev Sha1Value := { b : Bytes // b.length = SHA1_HASH }

/-- `Mem::Copy`, within the cells. -/
def memCopy (target : Bytes) (index : Nat) (source : Bytes) (aLength : Nat) : Leaving Bytes :=
  if index + aLength ≤ target.length ∧ aLength ≤ source.length then
    .ok (CMD2Impl.copyTo target index (source.take aLength))
  else .error .undefined

namespace TPKCS5KDF

/-- The three cells. -/
structure Cells where
  aAccumulator : Bytes
  S : Bytes
  Ui : Bytes

/-- `XORString`, a word of four octets at a time.  The loop ends only at a multiple of four. -/
def xorString : Bytes → Bytes → Nat → Leaving Bytes
  | _, aOp2, 0 => .ok aOp2
  | aOp1, aOp2, aLength + 4 => do
    let rest ← xorString (aOp1.drop 4) (aOp2.drop 4) aLength
    return (aOp2.take 4).zipWith (· ^^^ ·) (aOp1.take 4) ++ rest
  | _, _, _ => .error .undefined

section

variable (final : Bytes → Sha1Value) (aHashBytes : Nat)

/-- The loop over `j`. -/
def hashAgain : Nat → Cells → Leaving Cells
  | 0, cells => .ok cells
  | turns + 1, cells => do
    let Ui ← memCopy cells.Ui 0 (final (cells.Ui.take aHashBytes)).1 aHashBytes
    let aAccumulator ← xorString Ui cells.aAccumulator aHashBytes
    hashAgain turns { cells with aAccumulator := aAccumulator, Ui := Ui }

/-- The octets of `itmp`. -/
def itmp (i : Nat) : Bytes :=
  [ofNat (i >>> 24 &&& 0xff), ofNat (i >>> 16 &&& 0xff),
    ofNat (i >>> 8 &&& 0xff), ofNat (i &&& 0xff)]

def F (cells : Cells) (aSalt : Bytes) (aSaltBytes c i : Nat) : Leaving Cells := do
  let S ← memCopy cells.S 0 aSalt aSaltBytes
  let S ← memCopy S aSaltBytes (itmp i) 4
  let aAccumulator ← memCopy cells.aAccumulator 0 (final (S.take (aSaltBytes + 4))).1 aHashBytes
  let Ui ← memCopy cells.Ui 0 aAccumulator aHashBytes
  hashAgain final aHashBytes (c - 1) ⟨aAccumulator, S, Ui⟩

/-- The loop over `i`: the last block may be cut off. -/
def appendBlocks (aSalt : Bytes) (c l r : Nat) : Nat → Nat → Cells → TDes8 → Leaving TDes8
  | 0, _, _, aKey => .ok aKey
  | turns + 1, i, cells, aKey => do
    let cells ← F final aHashBytes cells aSalt aSalt.length c i
    let aKey ← aKey.append (cells.aAccumulator.take (if i = l then r else aHashBytes))
    appendBlocks aSalt c l r turns (i + 1) cells aKey

end

/-- What is in a cell that has been allocated, and not written to. -/
def newLC (heap : Nat → UInt8) (aMaxLength : Nat) : Bytes := (range aMaxLength).map heap

/-- `DeriveKeyL`.  Three cells are allocated. -/
def deriveKeyL (hmac : Bytes → Bytes → Sha1Value) (heap : Nat → Nat → UInt8) (aKey : TDes8)
    (aPasswd aSalt : Bytes) (aIterations : Nat) : Leaving TDes8 :=
  let hashBytes := SHA1_HASH
  let length := aKey.length
  let l := length / hashBytes + if length % hashBytes ≠ 0 then 1 else 0
  let r := length - (l - 1) * hashBytes
  let cells : Cells := ⟨newLC (heap 0) hashBytes, newLC (heap 1) (aSalt.length + 4),
    newLC (heap 2) hashBytes⟩
  appendBlocks (hmac aPasswd) hashBytes aSalt aIterations l r l 1 cells { aKey with data := [] }

end TPKCS5KDF

/-! ### The standard -/

namespace Pbkdf2

/-- `INT (i)`: four octets, the most significant one first. -/
def INT (i : Nat) : Bytes := (range 4).map fun k => ofNat (i / 256 ^ (3 - k))

variable (PRF : Bytes → Bytes) (S : Bytes)

/-- `U_{j+1}` of the block `i` -/
def U (i : Nat) : Nat → Bytes
  | 0 => PRF (S ++ INT i)
  | j + 1 => PRF (U i j)

/-- `U_1 \xor ... \xor U_{j+1}` -/
def sumTo (i : Nat) : Nat → Bytes
  | 0 => U PRF S i 0
  | j + 1 => (sumTo i j).zipWith (· ^^^ ·) (U PRF S i (j + 1))

/-- `F (P, S, c, i)` -/
def T (c i : Nat) : Bytes := sumTo PRF S i (c - 1)

/-- `DK`: the first octets of the blocks, as many of these as are needed. -/
def DK (hLen c dkLen : Nat) : Bytes :=
  ((range ((dkLen + hLen - 1) / hLen)).flatMap fun i => T PRF S c (i + 1)).take dkLen

end Pbkdf2

namespace TPKCS5KDF

open Pbkdf2

/-- The pseudorandom function of the standard. -/
def prf (final : Bytes → Sha1Value) (message : Bytes) : Bytes := (final message).1

section

variable {final : Bytes → Sha1Value} {aSalt : Bytes}

/-! ### One block -/

theorem memCopy_ok {target source : Bytes} {index aLength : Nat}
    (h : index + aLength ≤ target.length) (hsource : source.length = aLength) :
    memCopy target index source aLength =
      .ok (target.take index ++ source ++ target.drop (index + aLength)) := by
  unfold memCopy CMD2Impl.copyTo
  rw [if_pos ⟨h, hsource.ge⟩, take_of_length_le hsource.le, hsource]

/-- A cell that is written over as a whole. -/
theorem memCopy_all {target source : Bytes} {aLength : Nat} (h : target.length = aLength)
    (hsource : source.length = aLength) : memCopy target 0 source aLength = .ok source := by
  rw [memCopy_ok (by omega) hsource, take_zero, nil_append, Nat.zero_add,
    drop_of_length_le h.le, append_nil]

theorem xorString_eq (words : Nat) {aOp1 aOp2 : Bytes} (h1 : aOp1.length = 4 * words)
    (h2 : aOp2.length = 4 * words) :
    xorString aOp1 aOp2 (4 * words) = .ok (aOp2.zipWith (· ^^^ ·) aOp1) := by
  induction words generalizing aOp1 aOp2 with
  | zero =>
      rw [eq_nil_of_length_eq_zero h2]
      rfl
  | succ words ih =>
      have hstep : 4 * (words + 1) = 4 * words + 4 := by omega
      rw [hstep, xorString, ih (by rw [length_drop]; omega) (by rw [length_drop]; omega)]
      have hsplit : aOp2.zipWith (· ^^^ ·) aOp1 =
          (aOp2.take 4).zipWith (· ^^^ ·) (aOp1.take 4) ++
            (aOp2.drop 4).zipWith (· ^^^ ·) (aOp1.drop 4) := by
        rw [← zipWith_append (by rw [length_take, length_take, h1, h2]),
          take_append_drop, take_append_drop]
      rw [hsplit]
      rfl

theorem itmp_eq (i : Nat) : itmp i = INT i := by
  have hoctet : ∀ k, ofNat (i >>> k &&& 0xff) = ofNat (i / 2 ^ k) := by
    intro k
    rw [Nat.shiftRight_eq_div_pow, show (0xff : Nat) = 2 ^ 8 - 1 from rfl,
      Nat.and_two_pow_sub_one_eq_mod]
    apply UInt8.toNat_inj.mp
    rw [toNat_ofNat', toNat_ofNat', Nat.mod_mod]
  have hlast := hoctet 0
  rw [Nat.shiftRight_zero] at hlast
  unfold itmp INT
  rw [hoctet, hoctet, hoctet, hlast]
  rfl

theorem length_U (i j : Nat) : (U (prf final) aSalt i j).length = SHA1_HASH := by
  cases j with
  | zero => exact (final _).2
  | succ j => exact (final _).2

theorem length_sumTo (i j : Nat) : (sumTo (prf final) aSalt i j).length = SHA1_HASH := by
  induction j with
  | zero => exact length_U i 0
  | succ j ih =>
      rw [sumTo, length_zipWith, ih, length_U, Nat.min_self]

/-- **The inner loop**: the accumulator has the sum of the digests so far, and `Ui` the last of
them. -/
theorem hashAgain_spec (turns : Nat) {i j : Nat} {S : Bytes} :
    hashAgain final SHA1_HASH turns
        ⟨sumTo (prf final) aSalt i j, S, U (prf final) aSalt i j⟩ =
      .ok ⟨sumTo (prf final) aSalt i (j + turns), S, U (prf final) aSalt i (j + turns)⟩ := by
  induction turns generalizing j with
  | zero => rfl
  | succ turns ih =>
      have hU := @length_U final aSalt i j
      have hnext : (final ((U (prf final) aSalt i j).take SHA1_HASH)).1 =
          U (prf final) aSalt i (j + 1) := by
        rw [take_of_length_le hU.le]
        rfl
      have hxor : xorString (U (prf final) aSalt i (j + 1)) (sumTo (prf final) aSalt i j) SHA1_HASH =
          .ok (sumTo (prf final) aSalt i (j + 1)) :=
        xorString_eq 5 (length_U i (j + 1)) (length_sumTo i j)
      rw [hashAgain]
      simp only
      rw [hnext, memCopy_all hU (length_U i (j + 1)), ok_bind, hxor, ok_bind]
      have hmore := ih (j := j + 1)
      rw [Nat.add_right_comm] at hmore
      exact hmore

/-- The sizes of the cells. -/
structure Allocated (aSalt : Bytes) (cells : Cells) : Prop where
  accumulator : cells.aAccumulator.length = SHA1_HASH
  S : cells.S.length = aSalt.length + 4
  Ui : cells.Ui.length = SHA1_HASH

/-- **`F`** makes a block of the standard, whatever was in the cells. -/
theorem F_spec {cells : Cells} (h : Allocated aSalt cells) (c i : Nat) :
    ∃ next, F final SHA1_HASH cells aSalt aSalt.length c i = .ok next ∧ Allocated aSalt next ∧
      next.aAccumulator = T (prf final) aSalt c i := by
  have hitmp : (itmp i).length = 4 := rfl
  have hsalt : memCopy cells.S 0 aSalt aSalt.length =
      .ok (aSalt ++ cells.S.drop aSalt.length) := by
    have hS := h.S
    rw [memCopy_ok (by omega) rfl, take_zero, nil_append, Nat.zero_add]
  have hrest : (cells.S.drop aSalt.length).length = 4 := by
    rw [length_drop, h.S, Nat.add_sub_cancel_left]
  have hnumber : memCopy (aSalt ++ cells.S.drop aSalt.length) aSalt.length (itmp i) 4 =
      .ok (aSalt ++ itmp i) := by
    rw [memCopy_ok (by rw [length_append, hrest]) hitmp, take_left',
      drop_of_length_le (by rw [length_append, hrest]), append_nil]
    rfl
  have hlength : (aSalt ++ itmp i).length = aSalt.length + 4 := by
    rw [length_append, hitmp]
  have hfirst : (final ((aSalt ++ itmp i).take (aSalt.length + 4))).1 =
      U (prf final) aSalt i 0 := by
    rw [take_of_length_le hlength.le, itmp_eq]
    rfl
  unfold F
  rw [hsalt, ok_bind, hnumber, ok_bind, hfirst,
    memCopy_all h.accumulator (length_U i 0), ok_bind, memCopy_all h.Ui (length_U i 0), ok_bind]
  have hloop := @hashAgain_spec final aSalt (c - 1) i 0 (aSalt ++ itmp i)
  rw [Nat.zero_add] at hloop
  exact ⟨_, hloop, ⟨length_sumTo i _, hlength, length_U i _⟩, rfl⟩

/-! ### All the blocks -/

/-- Blocks one after another, from the number `i` on. -/
def blocks (final : Bytes → Sha1Value) (aSalt : Bytes) (c i n : Nat) : Bytes :=
  (range n).flatMap fun k => T (prf final) aSalt c (i + k)

theorem length_T (c i : Nat) : (T (prf final) aSalt c i).length = SHA1_HASH := length_sumTo i _

theorem length_blocks (c i n : Nat) : (blocks final aSalt c i n).length = SHA1_HASH * n := by
  induction n with
  | zero => rfl
  | succ n ih =>
      unfold blocks at ih ⊢
      rw [range_succ, flatMap_append, length_append, ih, flatMap_singleton, length_T, Nat.mul_succ]

theorem blocks_succ (c i n : Nat) :
    blocks final aSalt c i (n + 1) = T (prf final) aSalt c i ++ blocks final aSalt c (i + 1) n := by
  unfold blocks
  rw [range_succ_eq_map, flatMap_cons, flatMap_map]
  congr 2
  funext k
  rw [Nat.add_assoc, Nat.add_comm 1 k]

/-- **The outer loop** appends the blocks that are left, the last one cut off. -/
theorem appendBlocks_spec {c l r : Nat} (hr : r ≤ SHA1_HASH) (turns : Nat) {i : Nat}
    (hi : i + turns = l + 1) {cells : Cells} (h : Allocated aSalt cells) {aKey : TDes8}
    (hroom : aKey.length + (SHA1_HASH * (turns - 1) + r) ≤ aKey.maxLength) :
    appendBlocks final SHA1_HASH aSalt c l r turns i cells aKey =
      .ok ⟨aKey.data ++ (blocks final aSalt c i turns).take (SHA1_HASH * (turns - 1) + r),
        aKey.maxLength⟩ := by
  induction turns generalizing i cells aKey with
  | zero =>
      rw [appendBlocks]
      unfold blocks
      simp
  | succ turns ih =>
      obtain ⟨next, hnext, hallocated, hblock⟩ := @F_spec final aSalt cells h c i
      have hlength := @length_T final aSalt c i
      rw [appendBlocks, hnext, ok_bind, hblock, Nat.add_sub_cancel]
      rw [Nat.add_sub_cancel] at hroom
      cases turns with
      | zero =>
        -- the last block
        have hlast : i = l := by omega
        have hcut : ((T (prf final) aSalt c i).take r).length = r := by
          rw [length_take]
          omega
        rw [if_pos hlast, TDes8.append_ok (by omega), ok_bind, appendBlocks, blocks_succ,
          Nat.mul_zero, Nat.zero_add, take_append_of_le_length (by omega)]
      | succ turns =>
        have hmore : i ≠ l := by omega
        have hwhole : (T (prf final) aSalt c i).take SHA1_HASH = T (prf final) aSalt c i :=
          take_of_length_le hlength.le
        have hfits : aKey.length + (T (prf final) aSalt c i).length ≤ aKey.maxLength := by
          rw [hlength]
          rw [Nat.mul_succ] at hroom
          omega
        have hsplit : SHA1_HASH * (turns + 1) + r =
            (T (prf final) aSalt c i).length + (SHA1_HASH * turns + r) := by
          rw [hlength, Nat.mul_succ]
          omega
        rw [if_neg hmore, hwhole, TDes8.append_ok hfits, ok_bind]
        rw [ih (by omega) hallocated (by
          show (aKey.data ++ T (prf final) aSalt c i).length + _ ≤ aKey.maxLength
          rw [length_append, Nat.add_assoc, Nat.add_sub_cancel, ← hsplit]
          exact hroom)]
        rw [@blocks_succ final aSalt c i (turns + 1), hsplit, take_length_add_append,
          ← List.append_assoc, Nat.add_sub_cancel]

/-- The number of blocks, and the length of the last. -/
theorem blocks_needed {length : Nat} (hpos : 1 ≤ length) :
    ∃ l, length / SHA1_HASH + (if length % SHA1_HASH ≠ 0 then 1 else 0) = l + 1 ∧
      (length + SHA1_HASH - 1) / SHA1_HASH = l + 1 ∧
      length - l * SHA1_HASH ≤ SHA1_HASH ∧ SHA1_HASH * l + (length - l * SHA1_HASH) = length := by
  unfold SHA1_HASH
  by_cases hrest : length % 20 = 0
  · rw [if_neg (not_not_intro hrest)]
    exact ⟨length / 20 - 1, by omega, by omega, by omega, by omega⟩
  · rw [if_pos hrest]
    exact ⟨length / 20, rfl, by omega, by omega, by omega⟩

end

/-- **`DeriveKeyL` returns as many octets of the standard's key as are asked for**, whatever is in
the cells that it allocates. -/
theorem pkcs5_deriveKeyL_eq (hmac : Bytes → Bytes → Sha1Value) (heap : Nat → Nat → UInt8)
    {aKey : TDes8} (hfits : aKey.length ≤ aKey.maxLength) (hpos : 1 ≤ aKey.length)
    (aPasswd aSalt : Bytes) (aIterations : Nat) :
    ∃ key : TDes8, deriveKeyL hmac heap aKey aPasswd aSalt aIterations = .ok key ∧
      key.data = DK (prf (hmac aPasswd)) aSalt SHA1_HASH aIterations aKey.length ∧
      key.length = aKey.length := by
  obtain ⟨l, hl, hblocks, hlast, hsum⟩ := blocks_needed hpos
  have hcells : Allocated aSalt ⟨newLC (heap 0) SHA1_HASH, newLC (heap 1) (aSalt.length + 4),
      newLC (heap 2) SHA1_HASH⟩ := by
    unfold newLC
    exact ⟨by simp, by simp, by simp⟩
  have hrun := @appendBlocks_spec (hmac aPasswd) aSalt aIterations (l + 1)
    (aKey.length - l * SHA1_HASH) hlast (l + 1) 1 (Nat.add_comm 1 (l + 1)) _ hcells
    { aKey with data := [] } (by
      rw [Nat.add_sub_cancel, hsum]
      show 0 + aKey.length ≤ aKey.maxLength
      omega)
  rw [Nat.add_sub_cancel, hsum] at hrun
  refine ⟨⟨[] ++ (blocks (hmac aPasswd) aSalt aIterations 1 (l + 1)).take aKey.length,
    aKey.maxLength⟩, ?_, ?_, ?_⟩
  · unfold deriveKeyL
    simp only
    rw [hl, Nat.add_sub_cancel]
    exact hrun
  · unfold DK blocks
    rw [hblocks, nil_append]
    simp only [Nat.add_comm 1]
  · show ([] ++ _ : Bytes).length = _
    rw [nil_append, length_take, length_blocks]
    have hle : aKey.length ≤ SHA1_HASH * (l + 1) := by
      rw [Nat.mul_succ]
      omega
    exact Nat.min_eq_left hle

/-- A key of 25 octets, from a digest that repeats the first octet of its message. -/
theorem pkcs5_deriveKeyL_eq_long :
    ∃ key : TDes8, deriveKeyL
        (fun key message =>
          ⟨replicate 20 (key.headD 0 + message.headD 0), length_replicate⟩)
        (fun _ _ => 0xcc) ⟨replicate 25 0, 32⟩ [1] [2, 3] 3 = .ok key ∧
      key.data = DK
        (prf fun message => ⟨replicate 20 (1 + message.headD 0), length_replicate⟩)
        [2, 3] SHA1_HASH 3 25 ∧ key.length = 25 :=
  pkcs5_deriveKeyL_eq _ _ (by decide) (by decide) [1] [2, 3] 3

end TPKCS5KDF

end OsSecurity

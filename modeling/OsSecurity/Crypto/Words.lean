/-
Words: `common/inlines.h`.

The ciphers compute with unsigned words of 16 or 32 bits, which they fetch from a block and
put back into it octet by octet, so that neither the byte order of the processor nor the
alignment of the block matters.
-/
import OsSecurity.E32

namespace OsSecurity

open BitVec

/-! ### Rotations -/

section Rotations

variable {w : Nat}

/-- `rotlFixed`, by less than the width of the word -/
def rotlFixed (x : BitVec w) (y : Nat) : BitVec w := x <<< y ||| x >>> (w - y)

/-- `rotrFixed`, by less than the width of the word -/
def rotrFixed (x : BitVec w) (y : Nat) : BitVec w := x >>> y ||| x <<< (w - y)

theorem rotrFixed_rotlFixed (x : BitVec w) {y : Nat} (hy : y < w) :
    rotrFixed (rotlFixed x y) y = x := by
  apply eq_of_getElem_eq
  intro i hi
  have hover : w ≤ w - y + (y + i) := by omega
  unfold rotrFixed rotlFixed
  by_cases hlow : i < w - y
  · have hup : y + i < w := by omega
    simp [hlow, hup, getLsbD_of_ge _ _ hover]
  · have hup : ¬ y + i < w := by omega
    have hback : w - y + (i - (w - y)) = i := by omega
    have hmod : i - (w - y) < y := by omega
    simp [hlow, hup, hback, hmod, getLsbD_of_ge _ _ hover, getLsbD_eq_getElem hi]

theorem rotlFixed_rotrFixed (x : BitVec w) {y : Nat} (hy : y < w) :
    rotlFixed (rotrFixed x y) y = x := by
  apply eq_of_getElem_eq
  intro i hi
  have hover : w ≤ y + (w - y + i) := by omega
  unfold rotrFixed rotlFixed
  by_cases hlow : i < y
  · have hup : w - y + i < w := by omega
    simp [hlow, hup, hover]
  · have hback : y + (i - y) = i := by omega
    have hup : ¬ w - y + i < w := by omega
    have hmod : i - y < w - y := by omega
    simp [hlow, hup, hback, hmod, getLsbD_of_ge _ _ hover, getLsbD_eq_getElem hi]

end Rotations

/-! ### Words of a block -/

/-- The octet at `block[i]` -/
def octetAt (block : Bytes) (i : Nat) : BitVec 8 := (block.getD i 0).toBitVec

/-- `(TUint8)(a >> 8 * i)` -/
def byteOf {w : Nat} (a : BitVec w) (i : Nat) : BitVec 8 := (a >>> (8 * i)).setWidth 8

/-- One word of `GetBlockLittleEndian`. -/
def getWordLittleEndian (block : Bytes) : BitVec 16 :=
  (octetAt block 1).setWidth 16 <<< 8 ||| (octetAt block 0).setWidth 16

/-- One word of `PutBlockLittleEndian`. -/
def putWordLittleEndian (a : BitVec 16) : Bytes := [⟨byteOf a 0⟩, ⟨byteOf a 1⟩]

def getWordBigEndian (block : Bytes) : BitVec 32 :=
  (octetAt block 0).setWidth 32 <<< 24 ||| (octetAt block 1).setWidth 32 <<< 16 |||
    (octetAt block 2).setWidth 32 <<< 8 ||| (octetAt block 3).setWidth 32

def putWordBigEndian (a : BitVec 32) : Bytes :=
  [⟨byteOf a 3⟩, ⟨byteOf a 2⟩, ⟨byteOf a 1⟩, ⟨byteOf a 0⟩]

theorem getWordLittleEndian_eq (block : Bytes) :
    getWordLittleEndian block = octetAt block 1 ++ octetAt block 0 := by
  have h := @setWidth_append_eq_shiftLeft_setWidth_or 8 8 16 (octetAt block 1)
    (octetAt block 0)
  rw [setWidth_eq] at h
  exact h.symm

theorem getWordBigEndian_eq (block : Bytes) : getWordBigEndian block =
    octetAt block 0 ++ octetAt block 1 ++ octetAt block 2 ++ octetAt block 3 := by
  have h := @setWidth_append_append_append_eq_shiftLeft_setWidth_or 8 8 8 8 32
    (octetAt block 0) (octetAt block 1) (octetAt block 2) (octetAt block 3)
  rw [setWidth_eq] at h
  exact h.symm

section Bytes

variable {w : Nat}

theorem byteOf_eq (a : BitVec w) (i : Nat) : byteOf a i = a.extractLsb' (8 * i) 8 := by
  apply eq_of_getLsbD_eq
  intro j hj
  simp [byteOf, hj]

/-- The octet appended to a word is its lowest, -/
@[simp] theorem byteOf_append_zero (a : BitVec w) (b : BitVec 8) : byteOf (a ++ b) 0 = b := by
  rw [byteOf_eq]
  exact extractLsb'_append_eq_right

/-- and those above it are the word's. -/
@[simp] theorem byteOf_append_succ (a : BitVec w) (b : BitVec 8) (i : Nat) :
    byteOf (a ++ b) (i + 1) = byteOf a i := by
  rw [byteOf_eq, byteOf_eq, extractLsb'_append_eq_of_le (by omega)]
  rfl

@[simp] theorem byteOf_self (b : BitVec 8) : byteOf b 0 = b := by
  rw [byteOf_eq, extractLsb'_eq_self]

theorem byteOf_append_byteOf (a : BitVec w) (i n : Nat) :
    a.extractLsb' (8 * (i + 1)) n ++ byteOf a i = a.extractLsb' (8 * i) (n + 8) := by
  rw [byteOf_eq]
  exact extractLsb'_append_extractLsb'_eq_extractLsb' rfl

end Bytes

/-- A word is its octets. -/
theorem append_byteOf (a : BitVec 32) :
    byteOf a 3 ++ byteOf a 2 ++ byteOf a 1 ++ byteOf a 0 = a := by
  rw [byteOf_eq a 3, byteOf_append_byteOf, byteOf_append_byteOf, byteOf_append_byteOf]
  exact extractLsb'_eq_self

theorem getWordLittleEndian_put (a : BitVec 16) (rest : Bytes) :
    getWordLittleEndian (putWordLittleEndian a ++ rest) = a := by
  rw [getWordLittleEndian_eq]
  show byteOf a 1 ++ byteOf a 0 = a
  rw [byteOf_eq a 1, byteOf_append_byteOf]
  exact extractLsb'_eq_self

theorem getWordBigEndian_put (a : BitVec 32) (rest : Bytes) :
    getWordBigEndian (putWordBigEndian a ++ rest) = a := by
  rw [getWordBigEndian_eq]
  exact append_byteOf a

theorem putWordLittleEndian_get (b0 b1 : UInt8) (rest : Bytes) :
    putWordLittleEndian (getWordLittleEndian (b0 :: b1 :: rest)) = [b0, b1] := by
  rw [getWordLittleEndian_eq]
  simp [putWordLittleEndian, octetAt]

theorem putWordBigEndian_get (b0 b1 b2 b3 : UInt8) (rest : Bytes) :
    putWordBigEndian (getWordBigEndian (b0 :: b1 :: b2 :: b3 :: rest)) = [b0, b1, b2, b3] := by
  rw [getWordBigEndian_eq]
  simp [putWordBigEndian, octetAt]

end OsSecurity

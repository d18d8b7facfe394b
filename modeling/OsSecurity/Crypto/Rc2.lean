/-
RC2: `softwarecrypto/rc2impl.cpp`.

A block is four words of 16 bits.  Sixteen mixing rounds add to every word a choice between
two of the others and a word of the expanded key, and rotate it; after the fifth and the
eleventh of them a mashing round adds the key words that the data points at.  Either kind of
round changes one word at a time by a value of the other three, which is why it can be taken
back in the reverse order.
-/
import OsSecurity.Crypto.Decryption
import OsSecurity.Crypto.Words
import OsSecurity.Library.Rounds

namespace OsSecurity

def KRc2BlockBytes : Nat := 8

namespace CRc2Impl

/-- `R0` to `R3` -/
abbrev Words : Type := BitVec 16 × BitVec 16 × BitVec 16 × BitVec 16

/-- `iK[i]` -/
def keyWord (iK : List (BitVec 16)) (i : Nat) : BitVec 16 := iK.getD i 0

/-- `iK[a & 63]` -/
def keyAt (iK : List (BitVec 16)) (a : BitVec 16) : BitVec 16 := keyWord iK (a &&& 63).toNat

def getBlockLittleEndian (block : Bytes) : Words :=
  (getWordLittleEndian block, getWordLittleEndian (block.drop 2),
    getWordLittleEndian (block.drop 4), getWordLittleEndian (block.drop 6))

def putBlockLittleEndian : Words → Bytes
  | (a, b, c, d) => putWordLittleEndian a ++ (putWordLittleEndian b ++ (putWordLittleEndian c ++
      putWordLittleEndian d))

/-- What is added to a word, whose neighbours are `next`, `across` and `last`. -/
def mixed (next across last k : BitVec 16) : BitVec 16 :=
  (next &&& ~~~last) + (across &&& last) + k

def mix (iK : List (BitVec 16)) (i : Nat) : Words → Words
  | (R0, R1, R2, R3) =>
    let R0 := rotlFixed (R0 + mixed R1 R2 R3 (keyWord iK (4 * i + 0))) 1
    let R1 := rotlFixed (R1 + mixed R2 R3 R0 (keyWord iK (4 * i + 1))) 2
    let R2 := rotlFixed (R2 + mixed R3 R0 R1 (keyWord iK (4 * i + 2))) 3
    let R3 := rotlFixed (R3 + mixed R0 R1 R2 (keyWord iK (4 * i + 3))) 5
    (R0, R1, R2, R3)

def mash (iK : List (BitVec 16)) : Words → Words
  | (R0, R1, R2, R3) =>
    let R0 := R0 + keyAt iK R3
    let R1 := R1 + keyAt iK R0
    let R2 := R2 + keyAt iK R1
    let R3 := R3 + keyAt iK R2
    (R0, R1, R2, R3)

/-- The body of the loop of `TransformEncrypt`. -/
def encryptRound (iK : List (BitVec 16)) (i : Nat) (R : Words) : Words :=
  if i = 4 ∨ i = 10 then mash iK (mix iK i R) else mix iK i R

/-- One block of `TransformEncrypt`, without the mode of operation. -/
def transformEncrypt (iK : List (BitVec 16)) (aBuffer : Bytes) : Bytes :=
  putBlockLittleEndian
    (Rounds.run (encryptRound iK) (List.range 16) (getBlockLittleEndian aBuffer))

def unmash (iK : List (BitVec 16)) : Words → Words
  | (R0, R1, R2, R3) =>
    let R3 := R3 - keyAt iK R2
    let R2 := R2 - keyAt iK R1
    let R1 := R1 - keyAt iK R0
    let R0 := R0 - keyAt iK R3
    (R0, R1, R2, R3)

def unmix (iK : List (BitVec 16)) (i : Nat) : Words → Words
  | (R0, R1, R2, R3) =>
    let R3 := rotrFixed R3 5 - mixed R0 R1 R2 (keyWord iK (4 * i + 3))
    let R2 := rotrFixed R2 3 - mixed R3 R0 R1 (keyWord iK (4 * i + 2))
    let R1 := rotrFixed R1 2 - mixed R2 R3 R0 (keyWord iK (4 * i + 1))
    let R0 := rotrFixed R0 1 - mixed R1 R2 R3 (keyWord iK (4 * i + 0))
    (R0, R1, R2, R3)

/-- The body of the loop of `TransformDecrypt`, which counts down. -/
def decryptRound (iK : List (BitVec 16)) (i : Nat) (R : Words) : Words :=
  unmix iK i (if i = 4 ∨ i = 10 then unmash iK R else R)

/-- One block of `TransformDecrypt`, without the mode of operation. -/
def transformDecrypt (iK : List (BitVec 16)) (aBuffer : Bytes) : Bytes :=
  putBlockLittleEndian
    (Rounds.run (decryptRound iK) (List.range 16).reverse (getBlockLittleEndian aBuffer))

/-- RC2 under an expanded key. -/
def primitive (iK : List (BitVec 16)) : BlockPrimitive :=
  ⟨transformEncrypt iK, transformDecrypt iK⟩

/-! ### Rounds taken back -/

section Rounds

variable (iK : List (BitVec 16)) (R : Words)

theorem unmix_mix (i : Nat) : unmix iK i (mix iK i R) = R := by
  obtain ⟨R0, R1, R2, R3⟩ := R
  simp only [mix, unmix, rotrFixed_rotlFixed _ (by decide : 5 < 16),
    rotrFixed_rotlFixed _ (by decide : 3 < 16), rotrFixed_rotlFixed _ (by decide : 2 < 16),
    rotrFixed_rotlFixed _ (by decide : 1 < 16), BitVec.add_sub_cancel]

theorem unmash_mash : unmash iK (mash iK R) = R := by
  obtain ⟨R0, R1, R2, R3⟩ := R
  simp only [mash, unmash, BitVec.add_sub_cancel]

theorem decryptRound_encryptRound (i : Nat) : decryptRound iK i (encryptRound iK i R) = R := by
  unfold encryptRound decryptRound
  by_cases hmash : i = 4 ∨ i = 10
  · rw [if_pos hmash, if_pos hmash, unmash_mash, unmix_mix]
  · rw [if_neg hmash, if_neg hmash, unmix_mix]

end Rounds

/-! ### Blocks -/

theorem getBlockLittleEndian_put (R : Words) :
    getBlockLittleEndian (putBlockLittleEndian R) = R := by
  obtain ⟨a, b, c, d⟩ := R
  have hdrop : ∀ (a : BitVec 16) (rest : Bytes) (n : Nat),
      (putWordLittleEndian a ++ rest).drop (n + 2) = rest.drop n := fun _ _ _ => rfl
  have hlast := getWordLittleEndian_put d []
  rw [List.append_nil] at hlast
  simp only [getBlockLittleEndian, putBlockLittleEndian, hdrop, List.drop_zero,
    getWordLittleEndian_put, hlast]

theorem putBlockLittleEndian_get {block : Bytes} (h : block.length = KRc2BlockBytes) :
    putBlockLittleEndian (getBlockLittleEndian block) = block := by
  match block, h with
  | [b0, b1, b2, b3, b4, b5, b6, b7], _ =>
    simp [getBlockLittleEndian, putBlockLittleEndian, putWordLittleEndian_get]

/-- **RC2 decryption inverts encryption**, under any expanded key. -/
theorem rc2_inverts (iK : List (BitVec 16)) :
    (primitive iK).Inverts KRc2BlockBytes where
  length := fun b _ => rfl
  inverse := by
    intro b hb
    show transformDecrypt iK (transformEncrypt iK b) = b
    unfold transformDecrypt transformEncrypt
    rw [getBlockLittleEndian_put, Rounds.run_reverse fun i R => decryptRound_encryptRound iK R i,
      putBlockLittleEndian_get hb]

end CRc2Impl

end OsSecurity

/-
DES and triple DES: `softwarecrypto/desimpl.cpp`, `softwarecrypto/3desimpl.cpp`,
`softwarecrypto/des.inl` and `softwarecrypto/destables.h`.

The two halves of a block go through the initial permutation, which `IPerm` makes of five
exchanges of masked bits with rotations between them, then through sixteen rounds, two in
each turn of the loop so that the halves never have to change places, and through the final
permutation.  `FPerm` is `IPerm` backwards with its arguments the other way round.  Triple
DES does the rounds three times between the same two permutations.

Encryption and decryption are one function; what differs is the key schedule, which
`ReverseKeySchedule` turns round in place.  The bits of the key are numbered from one, the
leftmost bit of an octet first.
-/
import OsSecurity.Crypto.Decryption
import OsSecurity.Crypto.Words
import OsSecurity.Library.Rounds

namespace OsSecurity

open List

/-! ### The tables -/

namespace DES_TABLE

def sbox : List (List Nat) :=
  [ [0x01010400, 0x00000000, 0x00010000, 0x01010404, 0x01010004, 0x00010404, 0x00000004,
     0x00010000, 0x00000400, 0x01010400, 0x01010404, 0x00000400, 0x01000404, 0x01010004,
     0x01000000, 0x00000004, 0x00000404, 0x01000400, 0x01000400, 0x00010400, 0x00010400,
     0x01010000, 0x01010000, 0x01000404, 0x00010004, 0x01000004, 0x01000004, 0x00010004,
     0x00000000, 0x00000404, 0x00010404, 0x01000000, 0x00010000, 0x01010404, 0x00000004,
     0x01010000, 0x01010400, 0x01000000, 0x01000000, 0x00000400, 0x01010004, 0x00010000,
     0x00010400, 0x01000004, 0x00000400, 0x00000004, 0x01000404, 0x00010404, 0x01010404,
     0x00010004, 0x01010000, 0x01000404, 0x01000004, 0x00000404, 0x00010404, 0x01010400,
     0x00000404, 0x01000400, 0x01000400, 0x00000000, 0x00010004, 0x00010400, 0x00000000,
     0x01010004],
    [0x80108020, 0x80008000, 0x00008000, 0x00108020, 0x00100000, 0x00000020, 0x80100020,
     0x80008020, 0x80000020, 0x80108020, 0x80108000, 0x80000000, 0x80008000, 0x00100000,
     0x00000020, 0x80100020, 0x00108000, 0x00100020, 0x80008020, 0x00000000, 0x80000000,
     0x00008000, 0x00108020, 0x80100000, 0x00100020, 0x80000020, 0x00000000, 0x00108000,
     0x00008020, 0x80108000, 0x80100000, 0x00008020, 0x00000000, 0x00108020, 0x80100020,
     0x00100000, 0x80008020, 0x80100000, 0x80108000, 0x00008000, 0x80100000, 0x80008000,
     0x00000020, 0x80108020, 0x00108020, 0x00000020, 0x00008000, 0x80000000, 0x00008020,
     0x80108000, 0x00100000, 0x80000020, 0x00100020, 0x80008020, 0x80000020, 0x00100020,
     0x00108000, 0x00000000, 0x80008000, 0x00008020, 0x80000000, 0x80100020, 0x80108020,
     0x00108000],
    [0x00000208, 0x08020200, 0x00000000, 0x08020008, 0x08000200, 0x00000000, 0x00020208,
     0x08000200, 0x00020008, 0x08000008, 0x08000008, 0x00020000, 0x08020208, 0x00020008,
     0x08020000, 0x00000208, 0x08000000, 0x00000008, 0x08020200, 0x00000200, 0x00020200,
     0x08020000, 0x08020008, 0x00020208, 0x08000208, 0x00020200, 0x00020000, 0x08000208,
     0x00000008, 0x08020208, 0x00000200, 0x08000000, 0x08020200, 0x08000000, 0x00020008,
     0x00000208, 0x00020000, 0x08020200, 0x08000200, 0x00000000, 0x00000200, 0x00020008,
     0x08020208, 0x08000200, 0x08000008, 0x00000200, 0x00000000, 0x08020008, 0x08000208,
     0x00020000, 0x08000000, 0x08020208, 0x00000008, 0x00020208, 0x00020200, 0x08000008,
     0x08020000, 0x08000208, 0x00000208, 0x08020000, 0x00020208, 0x00000008, 0x08020008,
     0x00020200],
    [0x00802001, 0x00002081, 0x00002081, 0x00000080, 0x00802080, 0x00800081, 0x00800001,
     0x00002001, 0x00000000, 0x00802000, 0x00802000, 0x00802081, 0x00000081, 0x00000000,
     0x00800080, 0x00800001, 0x00000001, 0x00002000, 0x00800000, 0x00802001, 0x00000080,
     0x00800000, 0x00002001, 0x00002080, 0x00800081, 0x00000001, 0x00002080, 0x00800080,
     0x00002000, 0x00802080, 0x00802081, 0x00000081, 0x00800080, 0x00800001, 0x00802000,
     0x00802081, 0x00000081, 0x00000000, 0x00000000, 0x00802000, 0x00002080, 0x00800080,
     0x00800081, 0x00000001, 0x00802001, 0x00002081, 0x00002081, 0x00000080, 0x00802081,
     0x00000081, 0x00000001, 0x00002000, 0x00800001, 0x00002001, 0x00802080, 0x00800081,
     0x00002001, 0x00002080, 0x00800000, 0x00802001, 0x00000080, 0x00800000, 0x00002000,
     0x00802080],
    [0x00000100, 0x02080100, 0x02080000, 0x42000100, 0x00080000, 0x00000100, 0x40000000,
     0x02080000, 0x40080100, 0x00080000, 0x02000100, 0x40080100, 0x42000100, 0x42080000,
     0x00080100, 0x40000000, 0x02000000, 0x40080000, 0x40080000, 0x00000000, 0x40000100,
     0x42080100, 0x42080100, 0x02000100, 0x42080000, 0x40000100, 0x00000000, 0x42000000,
     0x02080100, 0x02000000, 0x42000000, 0x00080100, 0x00080000, 0x42000100, 0x00000100,
     0x02000000, 0x40000000, 0x02080000, 0x42000100, 0x40080100, 0x02000100, 0x40000000,
     0x42080000, 0x02080100, 0x40080100, 0x00000100, 0x02000000, 0x42080000, 0x42080100,
     0x00080100, 0x42000000, 0x42080100, 0x02080000, 0x00000000, 0x40080000, 0x42000000,
     0x00080100, 0x02000100, 0x40000100, 0x00080000, 0x00000000, 0x40080000, 0x02080100,
     0x40000100],
    [0x20000010, 0x20400000, 0x00004000, 0x20404010, 0x20400000, 0x00000010, 0x20404010,
     0x00400000, 0x20004000, 0x00404010, 0x00400000, 0x20000010, 0x00400010, 0x20004000,
     0x20000000, 0x00004010, 0x00000000, 0x00400010, 0x20004010, 0x00004000, 0x00404000,
     0x20004010, 0x00000010, 0x20400010, 0x20400010, 0x00000000, 0x00404010, 0x20404000,
     0x00004010, 0x00404000, 0x20404000, 0x20000000, 0x20004000, 0x00000010, 0x20400010,
     0x00404000, 0x20404010, 0x00400000, 0x00004010, 0x20000010, 0x00400000, 0x20004000,
     0x20000000, 0x00004010, 0x20000010, 0x20404010, 0x00404000, 0x20400000, 0x00404010,
     0x20404000, 0x00000000, 0x20400010, 0x00000010, 0x00004000, 0x20400000, 0x00404010,
     0x00004000, 0x00400010, 0x20004010, 0x00000000, 0x20404000, 0x20000000, 0x00400010,
     0x20004010],
    [0x00200000, 0x04200002, 0x04000802, 0x00000000, 0x00000800, 0x04000802, 0x00200802,
     0x04200800, 0x04200802, 0x00200000, 0x00000000, 0x04000002, 0x00000002, 0x04000000,
     0x04200002, 0x00000802, 0x04000800, 0x00200802, 0x00200002, 0x04000800, 0x04000002,
     0x04200000, 0x04200800, 0x00200002, 0x04200000, 0x00000800, 0x00000802, 0x04200802,
     0x00200800, 0x00000002, 0x04000000, 0x00200800, 0x04000000, 0x00200800, 0x00200000,
     0x04000802, 0x04000802, 0x04200002, 0x04200002, 0x00000002, 0x00200002, 0x04000000,
     0x04000800, 0x00200000, 0x04200800, 0x00000802, 0x00200802, 0x04200800, 0x00000802,
     0x04000002, 0x04200802, 0x04200000, 0x00200800, 0x00000000, 0x00000002, 0x04200802,
     0x00000000, 0x00200802, 0x04200000, 0x00000800, 0x04000002, 0x04000800, 0x00000800,
     0x00200002],
    [0x10001040, 0x00001000, 0x00040000, 0x10041040, 0x10000000, 0x10001040, 0x00000040,
     0x10000000, 0x00040040, 0x10040000, 0x10041040, 0x00041000, 0x10041000, 0x00041040,
     0x00001000, 0x00000040, 0x10040000, 0x10000040, 0x10001000, 0x00001040, 0x00041000,
     0x00040040, 0x10040040, 0x10041000, 0x00001040, 0x00000000, 0x00000000, 0x10040040,
     0x10000040, 0x10001000, 0x00041040, 0x00040000, 0x00041040, 0x00040000, 0x10041000,
     0x00001000, 0x00000040, 0x10040040, 0x00001000, 0x00041040, 0x10001000, 0x00000040,
     0x10000040, 0x10040000, 0x10040040, 0x10000000, 0x00040000, 0x10001040, 0x00000000,
     0x10041040, 0x00040040, 0x10000040, 0x10040000, 0x10001000, 0x10001040, 0x00000000,
     0x10041040, 0x00041000, 0x00041000, 0x00001040, 0x00001040, 0x00040040, 0x10000000,
     0x10041000] ]

/-- permuted choice table (key) -/
def pc1 : List Nat :=
  [57, 49, 41, 33, 25, 17, 9, 1, 58, 50, 42, 34, 26, 18, 10, 2, 59, 51, 43, 35, 27, 19, 11, 3, 60,
   52, 44, 36, 63, 55, 47, 39, 31, 23, 15, 7, 62, 54, 46, 38, 30, 22, 14, 6, 61, 53, 45, 37, 29, 21,
   13, 5, 28, 20, 12, 4]

/-- number left rotations of pc1 -/
def totrot : List Nat :=
  [1, 2, 4, 6, 8, 10, 12, 14, 15, 17, 19, 21, 23, 25, 27, 28]

/-- permuted choice key (table) -/
def pc2 : List Nat :=
  [14, 17, 11, 24, 1, 5, 3, 28, 15, 6, 21, 10, 23, 19, 12, 4, 26, 8, 16, 7, 27, 20, 13, 2, 41, 52,
   31, 37, 47, 55, 30, 40, 51, 45, 33, 48, 44, 49, 39, 56, 34, 53, 46, 42, 50, 36, 29, 32]

end DES_TABLE

/-- `l` and `r` -/
abbrev Halves : Type := BitVec 32 × BitVec 32

/-! ### The initial and the final permutation -/

/-- `work = (left ^ right) & mask`, and both halves take it. -/
def exchange (mask : BitVec 32) : Halves → Halves
  | (left, right) =>
    let work := (left ^^^ right) &&& mask
    (left ^^^ work, right ^^^ work)

def IPerm (s : Halves) : Halves :=
  s |> Prod.map id (rotlFixed · 4)
    |> exchange 0xf0f0f0f0 |> Prod.map id (rotrFixed · 20)
    |> exchange 0xffff0000 |> Prod.map id (rotrFixed · 18)
    |> exchange 0x33333333 |> Prod.map id (rotrFixed · 6)
    |> exchange 0x00ff00ff |> Prod.map id (rotlFixed · 9)
    |> exchange 0xaaaaaaaa |> Prod.map (rotlFixed · 1) id

def FPerm (s : Halves) : Halves :=
  s |> Prod.map id (rotrFixed · 1)
    |> exchange 0xaaaaaaaa |> Prod.map (rotrFixed · 9) id
    |> exchange 0x00ff00ff |> Prod.map (rotlFixed · 6) id
    |> exchange 0x33333333 |> Prod.map (rotlFixed · 18) id
    |> exchange 0xffff0000 |> Prod.map (rotlFixed · 20) id
    |> exchange 0xf0f0f0f0 |> Prod.map (rotrFixed · 4) id

def getBlockBigEndian (block : Bytes) : Halves :=
  (getWordBigEndian block, getWordBigEndian (block.drop 4))

def putBlockBigEndian : Halves → Bytes
  | (a, b) => putWordBigEndian a ++ putWordBigEndian b

namespace CDesImpl

def KDesBlockBytes : Nat := 8

def KDesKeyBytes : Nat := 8

/-! ### The rounds -/

/-- A key schedule, as the words at its indices. -/
abbrev KeySchedule : Type := Nat → BitVec 32

/-- `DES_TABLE::sbox[n][work & 0x3f]` -/
def sboxAt (n : Nat) (work : BitVec 32) : BitVec 32 :=
  BitVec.ofNat 32 ((DES_TABLE.sbox.getD n []).getD (work &&& 0x3f).toNat 0)

/-- What one half changes the other by, under two words of the schedule. -/
def substituted (k : BitVec 32 × BitVec 32) (r : BitVec 32) : BitVec 32 :=
  let even := rotrFixed r 4 ^^^ k.1
  let odd := r ^^^ k.2
  sboxAt 6 even ^^^ sboxAt 4 (even >>> 8) ^^^ sboxAt 2 (even >>> 16) ^^^ sboxAt 0 (even >>> 24) ^^^
    (sboxAt 7 odd ^^^ sboxAt 5 (odd >>> 8) ^^^ sboxAt 3 (odd >>> 16) ^^^ sboxAt 1 (odd >>> 24))

/-- The body of the loop of `DoTransform`: two rounds. -/
def transformRounds (aKeySchedule : KeySchedule) (i : Nat) : Halves → Halves
  | (l, r) =>
    let l := l ^^^ substituted (aKeySchedule (4 * i + 0), aKeySchedule (4 * i + 1)) r
    let r := r ^^^ substituted (aKeySchedule (4 * i + 2), aKeySchedule (4 * i + 3)) l
    (l, r)

def doTransform (aKeySchedule : KeySchedule) (s : Halves) : Halves :=
  Rounds.run (transformRounds aKeySchedule) (range 8) s

/-! ### The key schedule -/

/-- bit 0 is left-most in byte -/
def bytebit (m : Nat) : BitVec 8 := 0x80 >>> m

/-- `pc1m[j]`: convert pc1 to bits of key -/
def pc1m (key : Bytes) (j : Nat) : Bool :=
  let l := DES_TABLE.pc1.getD j 0 - 1
  octetAt key (l >>> 3) &&& bytebit (l &&& 7) ≠ 0

/-- `pcr[j]`: rotate pc1 the right amount -/
def pcr (key : Bytes) (i j : Nat) : Bool :=
  let l := j + DES_TABLE.totrot.getD i 0
  pc1m key (if l < (if j < 28 then 28 else 56) then l else l - 28)

/-- `ks[n]` of chunk `i`: select bits individually -/
def ks (key : Bytes) (i n : Nat) : BitVec 8 :=
  (range 48).foldl (fun b j =>
    if j / 6 = n ∧ pcr key i (DES_TABLE.pc2.getD j 0 - 1) then b ||| bytebit (j % 6) >>> 2
    else b) 0

/-- Now convert to odd/even interleaved form for use in F -/
def setEncryptKeySchedule (aKey : Bytes) : KeySchedule := fun n =>
  let word (b : Nat) : BitVec 32 := (ks aKey (n / 2) b).setWidth 32
  word (n % 2) <<< 24 ||| word (n % 2 + 2) <<< 16 ||| word (n % 2 + 4) <<< 8 ||| word (n % 2 + 6)

/-- `TClassSwap` of two words of a schedule. -/
def swapWords (aKey : KeySchedule) (i j : Nat) : KeySchedule := fun n =>
  aKey (if n = i then j else if n = j then i else n)

def reverseKeySchedule (aKey : KeySchedule) : KeySchedule :=
  [0, 2, 4, 6, 8, 10, 12, 14].foldl
    (fun aKey i => swapWords (swapWords aKey i (32 - 2 - i)) (i + 1) (32 - 1 - i)) aKey

def setDecryptKeySchedule (aKey : Bytes) : KeySchedule :=
  reverseKeySchedule (setEncryptKeySchedule aKey)

/-- One block of `TransformEncrypt` and of `TransformDecrypt`, without the mode of operation. -/
def transformBlock (iK : KeySchedule) (aBuffer : Bytes) : Bytes :=
  putBlockBigEndian (FPerm (doTransform iK (IPerm (getBlockBigEndian aBuffer)))).swap

/-- DES under a key. -/
def primitive (iKey : Bytes) : BlockPrimitive :=
  ⟨transformBlock (setEncryptKeySchedule iKey), transformBlock (setDecryptKeySchedule iKey)⟩

end CDesImpl

namespace C3DesImpl

open CDesImpl

/-- One block, with the three passes of `DoTransform`; the second gets `r` for `l`. -/
def transformBlock (iK1 iK2 iK3 : KeySchedule) (aBuffer : Bytes) : Bytes :=
  let s := IPerm (getBlockBigEndian aBuffer)
  let s := doTransform iK1 s
  let s := (doTransform iK2 s.swap).swap
  let s := doTransform iK3 s
  putBlockBigEndian (FPerm s).swap

/-- Triple DES under a key: Encrypt -> Decrypt -> Encrypt, and for decryption Decrypt -> Encrypt
-> Decrypt with the keys in reverse order. -/
def primitive (iKey : Bytes) : BlockPrimitive :=
  let first := iKey.take KDesKeyBytes
  let second := iKey.drop KDesKeyBytes
  let third := iKey.drop (2 * KDesKeyBytes)
  ⟨transformBlock (setEncryptKeySchedule first) (setDecryptKeySchedule second)
      (setEncryptKeySchedule third),
    transformBlock (setDecryptKeySchedule third) (setEncryptKeySchedule second)
      (setDecryptKeySchedule first)⟩

end C3DesImpl

/-! ### The permutations -/

theorem rotrFixed_comp {y : Nat} (hy : y < 32) :
    (fun x : BitVec 32 => rotrFixed x y) ∘ (fun x => rotlFixed x y) = id :=
  funext fun x => rotrFixed_rotlFixed x hy

theorem rotlFixed_comp {y : Nat} (hy : y < 32) :
    (fun x : BitVec 32 => rotlFixed x y) ∘ (fun x => rotrFixed x y) = id :=
  funext fun x => rotlFixed_rotrFixed x hy

section Permutations

variable (mask : BitVec 32) (s : Halves)

theorem exchange_exchange : exchange mask (exchange mask s) = s := by
  obtain ⟨left, right⟩ := s
  have hwork : (left ^^^ (left ^^^ right) &&& mask) ^^^ (right ^^^ (left ^^^ right) &&& mask) =
      left ^^^ right := by
    rw [BitVec.xor_comm right, BitVec.xor_assoc, ← BitVec.xor_assoc _ _ right, BitVec.xor_self,
      BitVec.zero_xor]
  simp only [exchange, hwork, BitVec.xor_assoc, BitVec.xor_self, BitVec.xor_zero]

theorem swap_exchange : (exchange mask s).swap = exchange mask s.swap := by
  obtain ⟨left, right⟩ := s
  simp [exchange, BitVec.xor_comm]

theorem swap_map (f g : BitVec 32 → BitVec 32) : (Prod.map f g s).swap = Prod.map g f s.swap :=
  rfl

/-- **The final permutation takes back the initial one**, with the halves the other way round, -/
theorem FPerm_IPerm : FPerm (IPerm s).swap = s.swap := by
  simp (disch := decide) only [FPerm, IPerm, swap_map, swap_exchange, Prod.map_map,
    rotrFixed_comp, rotlFixed_comp, Function.comp_id, Prod.map_id, id_eq, exchange_exchange]

/-- and the initial permutation the final one. -/
theorem IPerm_FPerm : IPerm (FPerm s).swap = s.swap := by
  simp (disch := decide) only [FPerm, IPerm, swap_map, swap_exchange, Prod.map_map,
    rotrFixed_comp, rotlFixed_comp, Function.comp_id, Prod.map_id, id_eq, exchange_exchange]

end Permutations

theorem getBlockBigEndian_put (s : Halves) : getBlockBigEndian (putBlockBigEndian s) = s := by
  obtain ⟨a, b⟩ := s
  have hlast := getWordBigEndian_put b []
  rw [append_nil] at hlast
  show (getWordBigEndian (putWordBigEndian a ++ putWordBigEndian b),
    getWordBigEndian (putWordBigEndian b)) = (a, b)
  rw [getWordBigEndian_put, hlast]

theorem putBlockBigEndian_get {block : Bytes} (h : block.length = 8) :
    putBlockBigEndian (getBlockBigEndian block) = block := by
  match block, h with
  | [b0, b1, b2, b3, b4, b5, b6, b7], _ =>
    simp [getBlockBigEndian, putBlockBigEndian, putWordBigEndian_get]

namespace CDesImpl

/-! ### The rounds undone -/

/-- The two words of a round. -/
def subkey (aKeySchedule : KeySchedule) (i : Nat) : BitVec 32 × BitVec 32 :=
  (aKeySchedule (2 * i), aKeySchedule (2 * i + 1))

def subkeys (aKeySchedule : KeySchedule) (rounds : Nat) : List (BitVec 32 × BitVec 32) :=
  (range rounds).map (subkey aKeySchedule)

theorem transformRounds_eq (aKeySchedule : KeySchedule) (i : Nat) (s : Halves) :
    transformRounds aKeySchedule i s =
      Rounds.feistel (· ^^^ ·) substituted (subkey aKeySchedule (2 * i + 1))
        (Rounds.feistel (· ^^^ ·) substituted (subkey aKeySchedule (2 * i)) s) := by
  have hfirst : 2 * (2 * i) = 4 * i := by omega
  have hsecond : 2 * (2 * i + 1) = 4 * i + 2 := by omega
  simp only [transformRounds, Rounds.feistel, subkey, hfirst, hsecond, Nat.add_zero]

/-- The unrolled loop is a Feistel network of twice as many rounds. -/
theorem run_transformRounds (aKeySchedule : KeySchedule) (n : Nat) (s : Halves) :
    Rounds.run (transformRounds aKeySchedule) (range n) s =
      Rounds.run (Rounds.feistel (· ^^^ ·) substituted) (subkeys aKeySchedule (2 * n)) s := by
  induction n with
  | zero => rfl
  | succ n ih =>
      have hdouble : range (2 * (n + 1)) = range (2 * n) ++ [2 * n, 2 * n + 1] := by
        rw [Nat.mul_succ, range_succ, range_succ, List.append_assoc]
        rfl
      rw [range_succ, Rounds.run_append, ih, subkeys, subkeys, hdouble, map_append,
        Rounds.run_append]
      exact transformRounds_eq aKeySchedule n _

/-- The schedule for decryption is the one for encryption, its rounds in reverse order. -/
theorem subkeys_reverseKeySchedule (aKey : KeySchedule) :
    subkeys (reverseKeySchedule aKey) 16 = (subkeys aKey 16).reverse := by
  unfold subkeys subkey
  rfl

section

variable {aKey aReversed : KeySchedule} (h : subkeys aReversed 16 = (subkeys aKey 16).reverse)
include h

/-- The rounds of one schedule are taken back by those of another that is its reverse. -/
theorem doTransform_reversed (s : Halves) :
    doTransform aReversed (doTransform aKey s).swap = s.swap := by
  unfold doTransform
  rw [run_transformRounds, run_transformRounds, h]
  exact Rounds.run_feistel_reverse (fun a b => by simp [BitVec.xor_assoc]) substituted _ s

theorem transformBlock_reversed {aBuffer : Bytes} (hblock : aBuffer.length = KDesBlockBytes) :
    transformBlock aReversed (transformBlock aKey aBuffer) = aBuffer := by
  unfold transformBlock
  rw [getBlockBigEndian_put, IPerm_FPerm, doTransform_reversed h, FPerm_IPerm, Prod.swap_swap,
    putBlockBigEndian_get hblock]

end

end CDesImpl

namespace C3DesImpl

open CDesImpl

variable {iK1 iK2 iK3 iR1 iR2 iR3 : KeySchedule}

/-- Three passes are taken back by the reversed schedules, the last one's first. -/
theorem transformBlock_reversed (h1 : subkeys iR1 16 = (subkeys iK1 16).reverse)
    (h2 : subkeys iR2 16 = (subkeys iK2 16).reverse)
    (h3 : subkeys iR3 16 = (subkeys iK3 16).reverse) {aBuffer : Bytes}
    (hblock : aBuffer.length = KDesBlockBytes) :
    transformBlock iR3 iR2 iR1 (transformBlock iK1 iK2 iK3 aBuffer) = aBuffer := by
  unfold transformBlock
  simp only []
  rw [getBlockBigEndian_put, IPerm_FPerm, doTransform_reversed h3, Prod.swap_swap,
    doTransform_reversed h2, Prod.swap_swap, doTransform_reversed h1, FPerm_IPerm, Prod.swap_swap,
    putBlockBigEndian_get hblock]

end C3DesImpl

/-- **DES and triple DES decryption invert encryption** under every key: the permutations are
each other's inverse, and the schedule for decryption is the one for encryption reversed. -/
theorem des_inverts (iKey : Bytes) :
    (∀ s, FPerm (IPerm s).swap = s.swap ∧ IPerm (FPerm s).swap = s.swap) ∧
      CDesImpl.subkeys (CDesImpl.setDecryptKeySchedule iKey) 16 =
        (CDesImpl.subkeys (CDesImpl.setEncryptKeySchedule iKey) 16).reverse ∧
      (CDesImpl.primitive iKey).Inverts CDesImpl.KDesBlockBytes ∧
      (C3DesImpl.primitive iKey).Inverts CDesImpl.KDesBlockBytes := by
  have hreverse := fun key =>
    CDesImpl.subkeys_reverseKeySchedule (CDesImpl.setEncryptKeySchedule key)
  have hback := fun key => (reverse_eq_iff.mp (hreverse key).symm)
  refine ⟨fun s => ⟨FPerm_IPerm s, IPerm_FPerm s⟩, hreverse iKey, ⟨fun _ _ => rfl, ?_⟩,
    ⟨fun _ _ => rfl, ?_⟩⟩
  · intro b hb
    exact CDesImpl.transformBlock_reversed (hreverse iKey) hb
  · intro b hb
    exact C3DesImpl.transformBlock_reversed (hreverse _) (hback _) (hreverse _) hb

end OsSecurity

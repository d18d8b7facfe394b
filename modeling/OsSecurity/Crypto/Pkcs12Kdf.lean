/-
The key derivation of PKCS #12: `pkcs12kdf.cpp`.

The code has the names of the standard, which counts in bits.  In the code `s` and `p` are numbers
of octets, and they are divided by the 512 bits of a block as they are: a salt or a password of
more than one block of 64 octets is cut off.

SHA-1 is a parameter, and `Final` of a message starts afresh each time.  The length of a
descriptor has 28 bits, so that eight times as much is a `TInt`.
-/
import OsSecurity.Bigint.MachineWords
import OsSecurity.Bigint.Octets
import OsSecurity.Crypto.Pkcs5Kdf

namespace OsSecurity

open Der List Nat TDes8 TInt TInteger

variable {I : Bytes} {b : UInt8}

namespace TDes8

def copy (d : TDes8) (aDes : Bytes) : Leaving TDes8 :=
  if d.maxLength < aDes.length then panic else .ok { d with data := aDes }

theorem copy_ok {d : TDes8} {aDes : Bytes} (h : aDes.length ≤ d.maxLength) :
    d.copy aDes = .ok ⟨aDes, d.maxLength⟩ :=
  if_neg (by omega)

end TDes8

/-- What `Repeat` fills a descriptor with, when `rest` is left of the copy at hand. -/
def repeatFrom (aDes : Bytes) : Nat → Bytes → Bytes
  | 0, _ => []
  | n + 1, b :: rest => b :: repeatFrom aDes n rest
  | n + 1, [] => match aDes with
    | [] => []
    | b :: rest => b :: repeatFrom aDes n rest

namespace PKCS12KDF

inductive TIDByteType where
  | EIDByteEncryptKey
  | EIDByteIV
  | EIDByteMACKey

def TIDByteType.toByte : TIDByteType → UInt8
  | EIDByteEncryptKey => 1
  | EIDByteIV => 2
  | EIDByteMACKey => 3

def generatePasswordLC (aDes : Text) : Bytes :=
  (aDes.flatMap fun ch : UInt16 => [(ch >>> 8).toUInt8, ch.toUInt8]) ++ [0, 0]

def ceilDiv (aNumerator aDenominator : Nat) : Nat :=
  aNumerator / aDenominator + if aNumerator % aDenominator > 0 then 1 else 0

def process6cL (Ij : TDes8) (B : Bytes) (v : Nat) : Leaving TDes8 := do
  let sum ← (TInteger.newDesL Ij.data).plusL (TInteger.newDesL B)
  let sum ← sum.plusL (TInteger.stackInteger 1)
  let result ← sum.bufferLC
  let bytesToPreserve := v / 8
  let leadingZeroes : Int := bytesToPreserve - result.length
  if leadingZeroes ≤ 0 then
    Ij.copy (← TDes.right result bytesToPreserve)
  else
    (← Ij.copy (replicate leadingZeroes.toNat 0)).append result

/-- The loop over `j`.  The sections of `I` are changed where they are. -/
def processSections (B : Bytes) (v : Nat) : Nat → Nat → Bytes → Leaving Bytes
  | 0, _, I => .ok I
  | turns + 1, j, I => do
    let Ij ← TDes.mid I ((v / 8 * j : Nat) : Int) ((v / 8 : Nat) : Int)
    let Ij ← process6cL ⟨Ij, v / 8⟩ B v
    processSections B v turns (j + 1) (CMD2Impl.copyTo I (v / 8 * j) Ij.data)

/-- `++iterCount` -/
def nextCount (iterCount : Int) : Leaving Int :=
  if KMaxTInt ≤ iterCount then .error .undefined else .ok (iterCount + 1)

section

variable (sha1 : Bytes → Sha1Value)

/-- The loop over `iterCount`, which is at most `r` for so many turns. -/
def hashAgain : Nat → Int → Sha1Value → Leaving Sha1Value
  | 0, _, Ai => .ok Ai
  | turns + 1, iterCount, Ai => do
    let iterCount ← nextCount iterCount
    hashAgain turns iterCount (sha1 Ai.1)

/-- The loop over `i`. -/
def appendHashes (D : Bytes) (n v k : Nat) (r : Int) : Nat → Bytes → TDes8 → Leaving TDes8
  | 0, _, A => .ok A
  | turns + 1, I, A => do
    let Ai ← hashAgain sha1 (r - 1).toNat 2 (sha1 (D ++ I))
    let B := repeatFrom Ai.1 (v / 8) Ai.1
    let I ← processSections B v k 0 I
    let A ← A.append Ai.1
    if A.length ≥ n / 8 then .ok A else appendHashes D n v k r turns I A

def deriveKeyL (aKey : TDes8) (aIDType : TIDByteType) (aPasswd aSalt : Bytes)
    (aIterations : UInt32) : Leaving TDes8 := do
  let u := 160
  let v := 512
  let n := aKey.length * 8
  let p := aPasswd.length
  let s := aSalt.length
  let r := TInt.wrap aIterations.toNat
  let D := replicate (v / 8) aIDType.toByte
  let S := repeatFrom aSalt (v * ceilDiv s v / 8) aSalt
  let P := repeatFrom aPasswd (v * ceilDiv p v / 8) aPasswd
  let I ← TDes8.append ⟨S, TDes8.heapCapacity (v * ceilDiv s v / 8 + v * ceilDiv p v / 8)⟩ P
  let c := ceilDiv n u
  let k := ceilDiv s v + ceilDiv p v
  let A ← appendHashes sha1 D n v k r c I.data ⟨[], TDes8.heapCapacity (c * SHA1_HASH)⟩
  aKey.copy (← TDes.left A.data ((n / 8 : Nat) : Int))

end

end PKCS12KDF

/-! ### The standard -/

namespace Pkcs12

/-- The bits of a value of the hash function. -/
def u : Nat := 160

/-- The bits of a block that the hash function reads. -/
def v : Nat := 512

/-- Copies of a string, of which the last one may be cut off. -/
def copies (x : Bytes) (bits : Nat) : Bytes :=
  (replicate (bits / 8) x).flatten.take (bits / 8)

/-- What becomes of the salt, and of the password. -/
def toBlocks (x : Bytes) : Bytes := copies x (v * ((8 * x.length + v - 1) / v))

/-- The password, with two octets for a character and for the one behind the last. -/
def bmpString (password : Text) : Bytes :=
  (password ++ [0]).flatMap fun ch : UInt16 => fixed 2 ch.toNat

section

variable (H : Bytes → Bytes) (r : Nat) (D : Bytes)

/-- `A_i` of what `I` has become. -/
def A (I : Bytes) : Bytes := H^[r] (D ++ I)

/-- `(I_j + B + 1) mod 2^v` -/
def added (B Ij : Bytes) : Bytes :=
  fixed (v / 8) ((Der.value Ij + Der.value B + 1) % 2 ^ v)

/-- What becomes of `I`, block by block. -/
def next (I : Bytes) : Bytes :=
  (range (I.length / (v / 8))).flatMap fun j =>
    added (copies (A H r D I) v) ((I.drop (v / 8 * j)).take (v / 8))

/-- `A_1`, ..., `A_c` -/
def hashes (I : Bytes) (c : Nat) : Bytes :=
  (range c).flatMap fun i => A H r D ((next H r D)^[i] I)

/-- The first `n` bits of these. -/
def firstBits (I : Bytes) (n : Nat) : Bytes := (hashes H r D I ((n + u - 1) / u)).take (n / 8)

end

def derived (H : Bytes → Bytes) (ID : UInt8) (password salt : Bytes) (r n : Nat) : Bytes :=
  firstBits H r (replicate (v / 8) ID) (toBlocks salt ++ toBlocks password) n

end Pkcs12

/-! ### Strings -/

theorem repeatFrom_eq {aDes : Bytes} {m : Nat} :
    ∀ {n : Nat} {rest : Bytes}, n ≤ m →
      repeatFrom aDes n rest = (rest ++ (replicate m aDes).flatten).take n := by
  intro n
  induction n generalizing m with
  | zero =>
      intro rest hle
      rw [take_zero]
      rfl
  | succ n ih =>
      intro rest hle
      cases rest with
      | cons b rest =>
        rw [repeatFrom, cons_append, take_succ_cons, ih (le_of_succ_le hle)]
      | nil =>
        obtain ⟨m, rfl⟩ := exists_eq_succ_of_ne_zero (Nat.ne_zero_of_lt hle)
        rw [nil_append, replicate_succ, flatten_cons]
        cases haDes : aDes with
        | nil => simp [repeatFrom]
        | cons b rest =>
          rw [repeatFrom, cons_append, take_succ_cons, ← haDes, ih (le_of_succ_le_succ hle)]

theorem repeatFrom_start (aDes : Bytes) (n : Nat) :
    repeatFrom aDes n aDes = repeatFrom aDes n [] := by
  cases n with
  | zero => rfl
  | succ n =>
      cases aDes with
      | nil => rfl
      | cons b rest => rfl

/-- **`Repeat`** makes the copies of the standard. -/
theorem repeat_eq_copies (aDes : Bytes) (n : Nat) :
    repeatFrom aDes (n / 8) aDes = Pkcs12.copies aDes n := by
  rw [repeatFrom_start, repeatFrom_eq (Nat.le_refl (n / 8)), nil_append]
  rfl

theorem length_copies {x : Bytes} (h : x ≠ []) (n : Nat) : (Pkcs12.copies x n).length = n / 8 := by
  have hpos : 1 ≤ x.length := length_pos_iff.mpr h
  have hmul := Nat.mul_le_mul_left (n / 8) hpos
  unfold Pkcs12.copies
  rw [length_take, length_flatten, map_replicate, sum_replicate_nat]
  omega

namespace PKCS12KDF

/-! ### The sections of `I` -/

theorem newDesL_isInt (aValue : Bytes) : (newDesL aValue).IsInt (Der.value aValue : Nat) :=
  .of_positive rfl (congrArg Int.ofNat (magnitude_newDesL aValue))

theorem added_eq (B Ij : Bytes) :
    Pkcs12.added B Ij = fixed 64 (Der.value Ij + Der.value B + 1) := by
  have hpow : 2 ^ Pkcs12.v = 256 ^ 64 := by
    rw [show Pkcs12.v = 8 * 64 from rfl, pow_mul]
    rfl
  unfold Pkcs12.added
  rw [hpow]
  exact fixed_mod 64 _

theorem process6cL_eq {Ij : TDes8} (hIj : Ij.maxLength = 64) (B : Bytes) :
    process6cL Ij B 512 = .ok ⟨Pkcs12.added B Ij.data, 64⟩ := by
  have hj := newDesL_isInt Ij.data
  have hB := newDesL_isInt B
  obtain ⟨x, hx, hxInt⟩ := plusL_makes hj.wellSigned (newDesL B)
  obtain ⟨y, hy, hyInt⟩ := plusL_makes hxInt.wellSigned (stackInteger 1)
  have hone : (stackInteger 1).toInt = 1 :=
    toInt_stackInteger (by decide) (by decide)
  rw [hxInt.toInt, hone, hj.toInt, hB.toInt] at hyInt
  have hsum : y.IsInt ((Der.value Ij.data + Der.value B + 1 : Nat) : Int) := by
    rw [cast_add, cast_add, cast_one]
    exact hyInt
  have hbuffer := bufferLC_eq (hsum.notNegative (Int.natCast_nonneg _))
  rw [hsum.magnitude] at hbuffer
  rw [added_eq]
  unfold process6cL
  rw [hx, ok_bind, hy, ok_bind, hbuffer, ok_bind]
  generalize Der.value Ij.data + Der.value B + 1 = m
  simp only
  by_cases hlong : 64 ≤ (Der.octets m).length
  · have hright : TDes.right (Der.octets m) ((512 / 8 : Nat) : Int) = .ok (fixed 64 m) := by
      rw [fixed_eq_drop hlong]
      rfl
    rw [if_pos (by omega), hright, ok_bind, TDes8.copy_ok (by simp [hIj]), hIj]
  · have hzeroes : (((512 / 8 : Nat) : Int) - (Der.octets m).length).toNat =
        64 - (Der.octets m).length := by omega
    rw [if_neg (by omega), hzeroes, TDes8.copy_ok (by simp [hIj]), ok_bind,
      append_ok (by simp [TDes8.length, hIj]; omega), hIj, ← fixed_eq_zeroes (by omega)]

theorem length_added (B Ij : Bytes) : (Pkcs12.added B Ij).length = 64 := fixed_length 64 _

/-- Behind what has been written over, the rest is as it was. -/
theorem drop_written {front : Bytes} {a b : Nat} (h : front.length = a) (hle : a ≤ b) :
    (front ++ I.drop a).drop b = I.drop b := by
  rw [drop_append, h, drop_eq_nil_of_le (h ▸ hle), nil_append, drop_drop, Nat.add_sub_cancel' hle]

theorem processSections_eq {B : Bytes} {turns j : Nat} (h : I.length = 64 * (j + turns)) :
    processSections B 512 turns j I =
      .ok (I.take (64 * j) ++ (range turns).flatMap fun i =>
        Pkcs12.added B ((I.drop (64 * (j + i))).take 64)) := by
  induction turns generalizing j I with
  | zero =>
      have hall : I.take (64 * j) = I := take_of_length_le (by omega)
      rw [processSections, hall]
      simp
  | succ turns ih =>
      have hsection : TDes.mid I ((512 / 8 * j : Nat) : Int) ((512 / 8 : Nat) : Int) =
          .ok ((I.drop (64 * j)).take 64) := by
        unfold TDes.mid
        rw [if_neg (by omega)]
        rfl
      have hadded := length_added B ((I.drop (64 * j)).take 64)
      have hfront : (I.take (64 * j) ++ Pkcs12.added B ((I.drop (64 * j)).take 64)).length =
          64 * (j + 1) := by
        rw [length_append, hadded, length_take]
        omega
      have hcopy : CMD2Impl.copyTo I (512 / 8 * j)
          (Pkcs12.added B ((I.drop (64 * j)).take 64)) =
          I.take (64 * j) ++ Pkcs12.added B ((I.drop (64 * j)).take 64) ++
            I.drop (64 * (j + 1)) := by
        unfold CMD2Impl.copyTo
        rw [hadded]
        rfl
      rw [processSections, hsection, ok_bind, process6cL_eq rfl, ok_bind, hcopy, ih]
      · have hrest : ∀ i, (I.take (64 * j) ++ Pkcs12.added B ((I.drop (64 * j)).take 64) ++
            I.drop (64 * (j + 1))).drop (64 * (j + 1 + i)) = I.drop (64 * (j + (i + 1))) := by
          intro i
          rw [drop_written hfront (by omega), Nat.add_assoc, Nat.add_comm 1 i]
        rw [range_succ_eq_map, flatMap_cons, flatMap_map]
        simp only [hrest, succ_eq_add_one, Nat.add_zero]
        rw [take_append_of_le_length hfront.ge, take_of_length_le hfront.le, List.append_assoc]
      · rw [length_append, hfront, length_drop]
        omega

/-! ### The hashes -/

/-- The hash function of the standard. -/
def digest (sha1 : Bytes → Sha1Value) (message : Bytes) : Bytes := (sha1 message).1

section

variable {sha1 : Bytes → Sha1Value}

theorem hashAgain_eq {turns : Nat} {iterCount : Int} {Ai : Sha1Value}
    (h : iterCount + turns ≤ KMaxTInt) :
    ∃ result, hashAgain sha1 turns iterCount Ai = .ok result ∧
      result.1 = (digest sha1)^[turns] Ai.1 := by
  induction turns generalizing iterCount Ai with
  | zero => exact ⟨Ai, rfl, rfl⟩
  | succ turns ih =>
      have hnext : nextCount iterCount = .ok (iterCount + 1) := if_neg (by omega)
      rw [hashAgain, hnext, ok_bind]
      exact ih (by omega)

/-- A count that reaches the last `TInt` is followed by none. -/
theorem hashAgain_undefined {turns : Nat} {iterCount : Int} {Ai : Sha1Value}
    (hcount : iterCount ≤ KMaxTInt) (h : KMaxTInt < iterCount + turns) :
    hashAgain sha1 turns iterCount Ai = .error .undefined := by
  induction turns generalizing iterCount Ai with
  | zero => omega
  | succ turns ih =>
      rw [hashAgain]
      by_cases hlast : KMaxTInt ≤ iterCount
      · rw [show nextCount iterCount = .error .undefined from if_pos hlast, leaving_bind_error]
      · rw [show nextCount iterCount = .ok (iterCount + 1) from if_neg hlast, ok_bind]
        exact ih (by omega) (by omega)

/-- How often the loop and the call before it hash. -/
def hashCount (r : Int) : Nat := (r - 1).toNat + 1

variable {D : Bytes} {n k : Nat} {r : Int}

theorem firstHashes_eq (hr : r < KMaxTInt) (I : Bytes) :
    ∃ Ai, hashAgain sha1 (r - 1).toNat 2 (sha1 (D ++ I)) = .ok Ai ∧
      Ai.1 = Pkcs12.A (digest sha1) (hashCount r) D I := by
  have hcount : 2 + ((r - 1).toNat : Int) ≤ KMaxTInt := by
    unfold KMaxTInt at *
    omega
  obtain ⟨Ai, hrun, hvalue⟩ := @hashAgain_eq sha1 (r - 1).toNat 2 (sha1 (D ++ I)) hcount
  refine ⟨Ai, hrun, ?_⟩
  rw [hvalue]
  exact (Function.iterate_succ_apply (digest sha1) (r - 1).toNat (D ++ I)).symm

theorem length_next {H : Bytes → Bytes} {count : Nat} (h : I.length = 64 * k) :
    (Pkcs12.next H count D I).length = 64 * k := by
  have hblocks : I.length / (Pkcs12.v / 8) = k := by
    rw [h]
    exact Nat.mul_div_cancel_left k (by decide)
  unfold Pkcs12.next
  rw [hblocks, length_flatMap]
  simp [length_added, Nat.mul_comm]

theorem processed_eq {Ai : Sha1Value} (h : I.length = 64 * k)
    (hAi : Ai.1 = Pkcs12.A (digest sha1) (hashCount r) D I) :
    processSections (repeatFrom Ai.1 (512 / 8) Ai.1) 512 k 0 I =
      .ok (Pkcs12.next (digest sha1) (hashCount r) D I) := by
  have hblocks : I.length / (Pkcs12.v / 8) = k := by
    rw [h]
    exact Nat.mul_div_cancel_left k (by decide)
  rw [repeat_eq_copies, hAi, processSections_eq (by omega)]
  unfold Pkcs12.next
  rw [hblocks]
  simp only [Nat.mul_zero, take_zero, nil_append, Nat.zero_add]
  rfl

theorem hashes_succ {H : Bytes → Bytes} {count : Nat} (I : Bytes) (c : Nat) :
    Pkcs12.hashes H count D I (c + 1) =
      Pkcs12.A H count D I ++ Pkcs12.hashes H count D (Pkcs12.next H count D I) c := by
  unfold Pkcs12.hashes
  rw [range_succ_eq_map, flatMap_cons, flatMap_map]
  rfl

/-- `A_1`, ..., `A_c`, where no more than these are needed. -/
theorem appendHashes_eq (hr : r < KMaxTInt) {turns : Nat} (hI : I.length = 64 * k) {A : TDes8}
    (hroom : A.length + 20 * turns ≤ A.maxLength) (hneeded : A.length + 20 * turns < n / 8 + 20) :
    appendHashes sha1 D n 512 k r turns I A =
      .ok ⟨A.data ++ Pkcs12.hashes (digest sha1) (hashCount r) D I turns, A.maxLength⟩ := by
  induction turns generalizing I A with
  | zero =>
      rw [appendHashes]
      simp [Pkcs12.hashes]
  | succ turns ih =>
      obtain ⟨Ai, hrun, hAi⟩ := @firstHashes_eq sha1 D r hr I
      have hlength : Ai.1.length = 20 := Ai.2
      have hmore : (⟨A.data ++ Ai.1, A.maxLength⟩ : TDes8).length = A.length + 20 := by
        show (A.data ++ Ai.1).length = _
        rw [length_append, hlength]
        rfl
      rw [appendHashes, hrun, ok_bind]
      simp only
      rw [processed_eq hI hAi, ok_bind, append_ok (by omega), ok_bind,
        hashes_succ, ← hAi, ← List.append_assoc, hmore]
      by_cases henough : A.length + 20 ≥ n / 8
      · have hlast : turns = 0 := by omega
        rw [if_pos henough, hlast]
        simp [Pkcs12.hashes]
      · have hleft : (⟨A.data ++ Ai.1, A.maxLength⟩ : TDes8).length + 20 * turns ≤
            A.maxLength := by
          rw [hmore]
          omega
        rw [if_neg henough]
        exact ih (length_next hI) hleft (by rw [hmore]; omega)

theorem appendHashes_undefined (hr : r = KMaxTInt) (turns : Nat) (I : Bytes) (A : TDes8) :
    appendHashes sha1 D n 512 k r (turns + 1) I A = .error .undefined := by
  have hcount : KMaxTInt < 2 + ((r - 1).toNat : Int) := by
    rw [hr]
    decide
  rw [appendHashes, hashAgain_undefined (by decide) hcount, leaving_bind_error]

/-! ### The whole derivation -/

/-- What the code makes of the salt, and of the password. -/
def cut (x : Bytes) : Bytes := Pkcs12.copies x (512 * ceilDiv x.length 512)

theorem length_cut (x : Bytes) : (cut x).length = 64 * ceilDiv x.length 512 := by
  unfold cut
  by_cases hx : x = []
  · rw [hx]
    rfl
  · rw [length_copies hx]
    omega

theorem length_toBlocks (x : Bytes) : (Pkcs12.toBlocks x).length = 64 * ((x.length + 63) / 64) := by
  unfold Pkcs12.toBlocks Pkcs12.v
  by_cases hx : x = []
  · rw [hx]
    rfl
  · rw [length_copies hx]
    omega

theorem cut_eq {x : Bytes} (h : x.length ≤ 64) : cut x = Pkcs12.toBlocks x := by
  have hceil : 512 * ceilDiv x.length 512 =
      Pkcs12.v * ((8 * x.length + Pkcs12.v - 1) / Pkcs12.v) := by
    unfold ceilDiv Pkcs12.v
    by_cases hx : x.length = 0
    · rw [hx]
      rfl
    · rw [if_pos (by omega)]
      omega
  unfold cut Pkcs12.toBlocks
  rw [hceil]

theorem length_cut_le (x : Bytes) : (cut x).length ≤ (Pkcs12.toBlocks x).length := by
  rw [length_cut, length_toBlocks]
  unfold ceilDiv
  by_cases hx : x.length % 512 > 0
  · rw [if_pos hx]
    omega
  · rw [if_neg hx]
    omega

theorem length_cut_lt {x : Bytes} (h : 64 < x.length) :
    (cut x).length < (Pkcs12.toBlocks x).length := by
  rw [length_cut, length_toBlocks]
  unfold ceilDiv
  by_cases hx : x.length % 512 > 0
  · rw [if_pos hx]
    omega
  · rw [if_neg hx]
    omega

variable {aKey : TDes8} {aIDType : TIDByteType} {aPasswd aSalt : Bytes} {aIterations : UInt32}

/-- The blocks of the key that are needed. -/
theorem ceilDiv_key (length : Nat) : ceilDiv (length * 8) 160 = (length + 19) / 20 := by
  unfold ceilDiv
  by_cases hrest : length * 8 % 160 > 0
  · rw [if_pos hrest]
    omega
  · rw [if_neg hrest]
    omega

theorem deriveKeyL_run :
    deriveKeyL sha1 aKey aIDType aPasswd aSalt aIterations = (do
      let A ← appendHashes sha1 (replicate 64 aIDType.toByte) (aKey.length * 8) 512
        (ceilDiv aSalt.length 512 + ceilDiv aPasswd.length 512) (wrap aIterations.toNat)
        ((aKey.length + 19) / 20) (cut aSalt ++ cut aPasswd)
        ⟨[], heapCapacity ((aKey.length + 19) / 20 * 20)⟩
      aKey.copy (A.data.take aKey.length)) := by
  have hroom : (cut aSalt).length + (cut aPasswd).length ≤ heapCapacity
      (512 * ceilDiv aSalt.length 512 / 8 + 512 * ceilDiv aPasswd.length 512 / 8) := by
    rw [length_cut, length_cut]
    unfold heapCapacity
    omega
  have hI := @append_ok ⟨cut aSalt, heapCapacity
    (512 * ceilDiv aSalt.length 512 / 8 + 512 * ceilDiv aPasswd.length 512 / 8)⟩ (cut aPasswd) hroom
  unfold deriveKeyL
  simp only
  rw [repeat_eq_copies, repeat_eq_copies, ceilDiv_key]
  change (do
    let I ← append ⟨cut aSalt, _⟩ (cut aPasswd)
    _) = _
  rw [hI, ok_bind, Nat.mul_div_cancel _ (by decide)]
  rfl

/-- The standard, but for the blocks that it begins with and for how often it hashes. -/
theorem deriveKeyL_ok (hfits : aKey.length ≤ aKey.maxLength)
    (hr : wrap aIterations.toNat < KMaxTInt) :
    deriveKeyL sha1 aKey aIDType aPasswd aSalt aIterations =
      .ok ⟨Pkcs12.firstBits (digest sha1) (hashCount (wrap aIterations.toNat))
        (replicate 64 aIDType.toByte) (cut aSalt ++ cut aPasswd) (8 * aKey.length),
        aKey.maxLength⟩ := by
  have hI : (cut aSalt ++ cut aPasswd).length =
      64 * (ceilDiv aSalt.length 512 + ceilDiv aPasswd.length 512) := by
    rw [length_append, length_cut, length_cut, Nat.mul_add]
  have hblocks : (8 * aKey.length + Pkcs12.u - 1) / Pkcs12.u = (aKey.length + 19) / 20 := by
    unfold Pkcs12.u
    omega
  have hroom : (⟨[], heapCapacity ((aKey.length + 19) / 20 * 20)⟩ : TDes8).length +
      20 * ((aKey.length + 19) / 20) ≤ heapCapacity ((aKey.length + 19) / 20 * 20) := by
    show 0 + _ ≤ _
    unfold heapCapacity
    omega
  rw [deriveKeyL_run, appendHashes_eq hr hI hroom (by show 0 + _ < _; omega), ok_bind,
    TDes8.copy_ok (by rw [length_take]; omega)]
  unfold Pkcs12.firstBits
  rw [hblocks, nil_append, Nat.mul_div_cancel_left _ (by decide)]

theorem deriveKeyL_none (h : aKey.length = 0) :
    deriveKeyL sha1 aKey aIDType aPasswd aSalt aIterations = .ok ⟨[], aKey.maxLength⟩ := by
  rw [deriveKeyL_run, h, appendHashes, ok_bind]
  exact TDes8.copy_ok (Nat.zero_le _)

theorem deriveKeyL_undefined (h : aKey.length ≠ 0) (hr : wrap aIterations.toNat = KMaxTInt) :
    deriveKeyL sha1 aKey aIDType aPasswd aSalt aIterations = .error .undefined := by
  obtain ⟨blocks, hblocks⟩ := exists_eq_add_one_of_ne_zero
    (show (aKey.length + 19) / 20 ≠ 0 by omega)
  rw [deriveKeyL_run, hblocks, appendHashes_undefined hr, leaving_bind_error]

/-! ### Against the standard -/

theorem generatePasswordLC_eq (aDes : Text) : generatePasswordLC aDes = Pkcs12.bmpString aDes := by
  have hoctets : ∀ ch : UInt16, [(ch >>> 8).toUInt8, ch.toUInt8] = fixed 2 ch.toNat := by
    intro ch
    have hhigh : (ch >>> 8).toUInt8 = (ch.toNat / 256 % 256).toUInt8 := by
      refine UInt8.toNat_inj.mp ?_
      simp [shiftRight_eq_div_pow]
    have hlow : ch.toUInt8 = (ch.toNat % 256).toUInt8 := by
      refine UInt8.toNat_inj.mp ?_
      simp
    rw [hhigh, hlow]
    rfl
  unfold generatePasswordLC Pkcs12.bmpString
  rw [flatMap_append]
  simp only [hoctets]
  rfl

theorem length_generatePasswordLC (aDes : Text) :
    (generatePasswordLC aDes).length = 2 * (aDes.length + 1) := by
  unfold generatePasswordLC
  rw [length_append, length_flatMap]
  simp
  omega

/-- The same number of hashes as the standard. -/
theorem hashCount_eq (hpos : 1 ≤ aIterations.toNat) (h : aIterations.toNat < 2 ^ 31) :
    wrap aIterations.toNat = aIterations.toNat ∧
      hashCount (wrap aIterations.toNat) = aIterations.toNat := by
  have hwrap : wrap aIterations.toNat = aIterations.toNat :=
    wrap_of_range (by unfold KMinTInt; omega) (by unfold KMaxTInt; omega)
  rw [hwrap]
  unfold hashCount
  exact ⟨rfl, by omega⟩

/-- A count above the last `TInt` is below zero. -/
theorem hashCount_one (h : 2 ^ 31 ≤ aIterations.toNat) :
    wrap aIterations.toNat < KMaxTInt ∧ hashCount (wrap aIterations.toNat) = 1 := by
  have hlt := aIterations.toNat_lt
  have hwrap : wrap aIterations.toNat = (aIterations.toNat : Int) - 2 ^ 32 := by
    unfold wrap
    rw [← Int.sub_bmod_right]
    exact Int.bmod_eq_of_le (by omega) (by omega)
  rw [hwrap]
  unfold hashCount KMaxTInt
  exact ⟨by omega, by omega⟩

/-- A key is returned, and it is the standard's. -/
def Derives (sha1 : Bytes → Sha1Value) (aKey : TDes8) (aIDType : TIDByteType) (aDes : Text)
    (aSalt : Bytes) (aIterations : UInt32) : Prop :=
  ∃ key, deriveKeyL sha1 aKey aIDType (generatePasswordLC aDes) aSalt aIterations = .ok key ∧
    key.data = Pkcs12.derived (digest sha1) aIDType.toByte (Pkcs12.bmpString aDes) aSalt
      aIterations.toNat (8 * aKey.length)

variable {aDes : Text}

theorem derives_none (h : aKey.length = 0) : Derives sha1 aKey aIDType aDes aSalt aIterations := by
  refine ⟨⟨[], aKey.maxLength⟩, deriveKeyL_none h, ?_⟩
  unfold Pkcs12.derived Pkcs12.firstBits
  rw [h]
  rfl

theorem derives_of_short (hfits : aKey.length ≤ aKey.maxLength) (hpos : 1 ≤ aIterations.toNat)
    (hsalt : aSalt.length ≤ 64) (hpassword : aDes.length ≤ 31)
    (hcount : aIterations.toNat < 2 ^ 31 - 1) :
    Derives sha1 aKey aIDType aDes aSalt aIterations := by
  obtain ⟨hwrap, hhashes⟩ := hashCount_eq hpos (Nat.lt_trans hcount (by decide))
  have hlength := length_generatePasswordLC aDes
  refine ⟨_, deriveKeyL_ok hfits (by rw [hwrap]; unfold KMaxTInt; omega), ?_⟩
  show Pkcs12.firstBits _ _ _ _ _ = _
  rw [hhashes, cut_eq hsalt, cut_eq (by omega), generatePasswordLC_eq]
  rfl

/-! ### What SHA-1 could tell apart -/

/-- Twenty times the same octet. -/
def digestOf (f : Bytes → UInt8) (message : Bytes) : Sha1Value :=
  ⟨replicate 20 (f message), length_replicate⟩

theorem digestOf_iterate {f : Bytes → UInt8} {message : Bytes} (h : f message = b)
    (hfixed : f (replicate 20 b) = b) (count : Nat) :
    (digest (digestOf f))^[count + 1] message = replicate 20 b := by
  induction count with
  | zero =>
      show replicate 20 (f message) = _
      rw [h]
  | succ count ih =>
      rw [Function.iterate_succ_apply', ih]
      show replicate 20 (f (replicate 20 b)) = _
      rw [hfixed]

/-- The key begins with `A_1`. -/
theorem firstBits_head {H : Bytes → Bytes} {count length : Nat} (hpos : length ≠ 0)
    (hA : Pkcs12.A H count D I = replicate 20 b) :
    (Pkcs12.firstBits H count D I (8 * length)).head? = some b := by
  obtain ⟨blocks, hblocks⟩ := exists_eq_add_one_of_ne_zero
    (show (8 * length + Pkcs12.u - 1) / Pkcs12.u ≠ 0 by unfold Pkcs12.u; omega)
  obtain ⟨rest, hrest⟩ := exists_eq_add_one_of_ne_zero hpos
  unfold Pkcs12.firstBits
  rw [hblocks, hashes_succ, hA, Nat.mul_div_cancel_left _ (by decide), hrest]
  rfl

/-- Two keys that begin with different octets. -/
theorem not_derives (hfits : aKey.length ≤ aKey.maxLength)
    (hr : wrap aIterations.toNat < KMaxTInt) (hkey : aKey.length ≠ 0) {c : UInt8} (hne : b ≠ c)
    (hcode : Pkcs12.A (digest sha1) (hashCount (wrap aIterations.toNat)) (replicate 64 aIDType.toByte) (cut aSalt ++ cut (generatePasswordLC aDes)) = replicate 20 b)
    (hstandard : Pkcs12.A (digest sha1) aIterations.toNat (replicate 64 aIDType.toByte) (Pkcs12.toBlocks aSalt ++ Pkcs12.toBlocks (Pkcs12.bmpString aDes)) = replicate 20 c) :
    ¬Derives sha1 aKey aIDType aDes aSalt aIterations := by
  intro hderives
  obtain ⟨key, hrun, hdata⟩ := hderives
  rw [deriveKeyL_ok hfits hr, Except.ok.injEq] at hrun
  have hhead := firstBits_head hkey hcode
  have hother := firstBits_head hkey hstandard
  rw [← hrun] at hdata
  have hsame := congrArg head? hdata
  rw [hhead] at hsame
  exact hne (Option.some.inj (hsame.trans hother))

/-- Marks the messages of one length, and keeps the mark. -/
def lengthMark (length : Nat) (message : Bytes) : UInt8 :=
  if message.length = 20 then message.headD 0 else if message.length = length then 1 else 0

theorem lengthMark_iterate {length : Nat} {message : Bytes} (hlong : message.length ≠ 20)
    (h : (if message.length = length then 1 else 0) = b) (count : Nat) :
    (digest (digestOf (lengthMark length)))^[count + 1] message = replicate 20 b :=
  digestOf_iterate ((if_neg hlong).trans h) (if_pos length_replicate) count

/-- Marks the messages that are digests. -/
def digestMark (message : Bytes) : UInt8 := if message.length = 20 then 1 else 0

/-- With a digest that tells messages apart by their length. -/
theorem not_derives_of_long (hfits : aKey.length ≤ aKey.maxLength) (hkey : aKey.length ≠ 0)
    (hpos : 1 ≤ aIterations.toNat) (hcount : aIterations.toNat < 2 ^ 31 - 1)
    (hlong : 64 < aSalt.length ∨ 31 < aDes.length) :
    ∃ sha1, ¬Derives sha1 aKey aIDType aDes aSalt aIterations := by
  have hless : (cut aSalt ++ cut (generatePasswordLC aDes)).length <
      (Pkcs12.toBlocks aSalt ++ Pkcs12.toBlocks (Pkcs12.bmpString aDes)).length := by
    have hsalt := length_cut_le aSalt
    have hpassword := length_cut_le (generatePasswordLC aDes)
    rw [← generatePasswordLC_eq, length_append, length_append]
    rcases hlong with hlong | hlong
    · have hlt := length_cut_lt hlong
      omega
    · have hlength := length_generatePasswordLC aDes
      have hlt := @length_cut_lt (generatePasswordLC aDes) (by omega)
      omega
  obtain ⟨hwrap, hhashes⟩ := hashCount_eq hpos (Nat.lt_trans hcount (by decide))
  obtain ⟨count, hiterations⟩ := exists_eq_add_one_of_ne_zero (Nat.ne_of_gt hpos)
  have hmessage : ∀ I : Bytes,
      (replicate 64 aIDType.toByte ++ I).length = 64 + I.length := by
    intro I
    rw [length_append, length_replicate]
  refine ⟨digestOf (lengthMark (64 +
    (Pkcs12.toBlocks aSalt ++ Pkcs12.toBlocks (Pkcs12.bmpString aDes)).length)),
    not_derives hfits (by rw [hwrap]; unfold KMaxTInt; omega) hkey (b := 0) (c := 1)
      (by decide) ?_ ?_⟩
  · rw [hhashes, hiterations]
    exact lengthMark_iterate (by rw [hmessage]; omega) (if_neg (by rw [hmessage]; omega)) count
  · rw [hiterations]
    exact lengthMark_iterate (by rw [hmessage]; omega) (if_pos (hmessage _)) count

/-- With a digest that tells a digest from a longer message. -/
theorem not_derives_of_many (hfits : aKey.length ≤ aKey.maxLength) (hkey : aKey.length ≠ 0)
    (hcount : 2 ^ 31 ≤ aIterations.toNat) :
    ∃ sha1, ¬Derives sha1 aKey aIDType aDes aSalt aIterations := by
  obtain ⟨hr, hhashes⟩ := hashCount_one hcount
  obtain ⟨count, hiterations⟩ : ∃ count, aIterations.toNat = count + 1 + 1 :=
    ⟨aIterations.toNat - 2, by omega⟩
  have hfirst : ∀ I : Bytes, digestMark (replicate 64 aIDType.toByte ++ I) = 0 := by
    intro I
    refine if_neg ?_
    rw [length_append, length_replicate]
    omega
  refine ⟨digestOf digestMark, not_derives hfits hr hkey (b := 0) (c := 1) (by decide) ?_ ?_⟩
  · rw [hhashes]
    show replicate 20 (digestMark _) = _
    rw [hfirst]
  · rw [hiterations]
    unfold Pkcs12.A
    rw [Function.iterate_succ_apply]
    exact digestOf_iterate (if_pos (digestOf digestMark _).2) (if_pos length_replicate) count

end

/-- **When the key is the standard's**, whatever the digest is: the salt and the password fill no
more than a block each, and the count, which becomes a `TInt`, can be counted to. -/
theorem pkcs12_deriveKeyL_iff {aKey : TDes8} (hfits : aKey.length ≤ aKey.maxLength)
    (aIDType : TIDByteType) (aDes : Text) (aSalt : Bytes) {aIterations : UInt32}
    (hpos : 1 ≤ aIterations.toNat) :
    (∀ sha1, Derives sha1 aKey aIDType aDes aSalt aIterations) ↔
      aKey.length = 0 ∨
        (aSalt.length ≤ 64 ∧ aDes.length ≤ 31 ∧ aIterations.toNat < 2 ^ 31 - 1) := by
  constructor
  · intro hall
    by_contra hnone
    push Not at hnone
    obtain ⟨hkey, hlong⟩ := hnone
    by_cases hmany : 2 ^ 31 ≤ aIterations.toNat
    · obtain ⟨sha1, hsha1⟩ := not_derives_of_many hfits hkey hmany
      exact hsha1 (hall sha1)
    · by_cases hlast : aIterations.toNat = 2 ^ 31 - 1
      · -- the count is never above the last `TInt`
        obtain ⟨key, hrun, -⟩ := hall (digestOf digestMark)
        obtain ⟨hwrap, -⟩ := hashCount_eq hpos (by omega)
        rw [deriveKeyL_undefined hkey (by rw [hwrap, hlast]; rfl)] at hrun
        cases hrun
      · have hmore : 64 < aSalt.length ∨ 31 < aDes.length := by
          by_contra hneither
          push Not at hneither
          have hcount := hlong hneither.1 hneither.2
          omega
        obtain ⟨sha1, hsha1⟩ := not_derives_of_long hfits hkey hpos (by omega) hmore
        exact hsha1 (hall sha1)
  · intro hshort sha1
    rcases hshort with hkey | ⟨hsalt, hpassword, hcount⟩
    · exact derives_none hkey
    · exact derives_of_short hfits hpos hsalt hpassword hcount

/-- A key of 25 octets from the password `ab` and a salt of eight octets. -/
theorem pkcs12_deriveKeyL_iff_short :
    (∀ sha1, Derives sha1 ⟨replicate 25 0, 25⟩ .EIDByteEncryptKey [97, 98]
      [1, 2, 3, 4, 5, 6, 7, 8] 1000) ↔
      25 = 0 ∨ (8 ≤ 64 ∧ 2 ≤ 31 ∧ 1000 < 2 ^ 31 - 1) :=
  @pkcs12_deriveKeyL_iff ⟨replicate 25 0, 25⟩ (by decide) .EIDByteEncryptKey [97, 98]
    [1, 2, 3, 4, 5, 6, 7, 8] 1000 (by decide)

/-- A salt of 65 octets: `S` is one block, and the standard's is two. -/
theorem not_pkcs12_deriveKeyL :
    ¬∀ sha1, Derives sha1 ⟨replicate 20 0, 20⟩ .EIDByteEncryptKey [97]
      (replicate 65 1) 1 := by
  intro hall
  obtain ⟨sha1, hsha1⟩ := @not_derives_of_long ⟨replicate 20 0, 20⟩ .EIDByteEncryptKey
    (replicate 65 1) 1 [97] (by decide) (by decide) (by decide) (by decide)
    (.inl (by decide))
  exact hsha1 (hall sha1)

end PKCS12KDF

end OsSecurity

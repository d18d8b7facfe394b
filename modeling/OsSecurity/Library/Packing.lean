/-
Octets packed into words.

A word has room for `n` octets, and `shift j` says how far the octet of index `j` is shifted.
Octets come one by one, so a word is built with `|||`, and a part of the octets is a word too,
with zeros where the others will go.  `pack_append` is how a word grows; packed big-endian or
little-endian, all its octets make the number that they stand for.
-/
import OsSecurity.Library.Der

namespace Packing

open List Nat

variable {bs : List UInt8} {n : Nat}

/-- The octets from index `j` on. -/
def pack (shift : Nat → Nat) : Nat → List UInt8 → Nat
  | _, [] => 0
  | j, b :: bs => b.toNat <<< shift j ||| pack shift (j + 1) bs

/-- The most significant octet first. -/
def bigEndian (n j : Nat) : Nat := 8 * (n - 1 - j)

def littleEndian (j : Nat) : Nat := 8 * j

/-- The octets of word `i` of a message. -/
def chunk (n i : Nat) (bs : List UInt8) : List UInt8 := (bs.drop (i * n)).take n

section

variable {shift : Nat → Nat}

theorem pack_append (j : Nat) (xs ys : List UInt8) :
    pack shift j (xs ++ ys) = pack shift j xs ||| pack shift (j + xs.length) ys := by
  induction xs generalizing j with
  | nil =>
      show pack shift j ys = 0 ||| pack shift (j + 0) ys
      rw [zero_or, Nat.add_zero]
  | cons x xs ih =>
      have hindex : j + 1 + xs.length = j + (x :: xs).length := by
        rw [length_cons]
        omega
      show x.toNat <<< shift j ||| pack shift (j + 1) (xs ++ ys) =
        x.toNat <<< shift j ||| pack shift (j + 1) xs ||| pack shift (j + (x :: xs).length) ys
      rw [ih, Nat.or_assoc, hindex]

theorem pack_concat (xs : List UInt8) (b : UInt8) :
    pack shift 0 (xs ++ [b]) = pack shift 0 xs ||| b.toNat <<< shift xs.length := by
  rw [pack_append, Nat.zero_add]
  show pack shift 0 xs ||| (b.toNat <<< shift xs.length ||| 0) = _
  rw [or_zero]

theorem pack_zeros (j k : Nat) : pack shift j (replicate k 0) = 0 := by
  induction k generalizing j with
  | zero => rfl
  | succ k ih =>
      show (0 : UInt8).toNat <<< shift j ||| pack shift (j + 1) (replicate k 0) = 0
      rw [ih, UInt8.toNat_zero, zero_shiftLeft, zero_or]

/-! ### Words of a message -/

theorem chunk_nil (n i : Nat) : chunk n i [] = [] := by
  simp [chunk]

theorem chunk_length (n i : Nat) (bs : List UInt8) :
    (chunk n i bs).length = min n (bs.length - i * n) := by
  simp [chunk]

theorem chunk_append_left {i : Nat} {xs : List UInt8} (h : (i + 1) * n ≤ xs.length)
    (ys : List UInt8) : chunk n i (xs ++ ys) = chunk n i xs := by
  rw [succ_mul] at h
  unfold chunk
  rw [drop_append_of_le_length (by omega), take_append_of_le_length]
  rw [length_drop]
  omega

theorem chunk_append_right {i : Nat} {xs : List UInt8} (h : xs.length ≤ i * n) (ys : List UInt8) :
    chunk n i (xs ++ ys) = (ys.drop (i * n - xs.length)).take n := by
  unfold chunk
  rw [drop_append, drop_eq_nil_of_le h, nil_append]

/-- Zeros that follow are there already. -/
theorem pack_chunk_zeros (n i k : Nat) (bs : List UInt8) :
    pack shift 0 (chunk n i (bs ++ replicate k 0)) = pack shift 0 (chunk n i bs) := by
  unfold chunk
  rw [drop_append, take_append, pack_append, drop_replicate, take_replicate, pack_zeros, or_zero]

/-- The word that the next octet goes into. -/
theorem chunk_concat (hn : 0 < n) (bs : List UInt8) (b : UInt8) :
    chunk n (bs.length / n) (bs ++ [b]) = chunk n (bs.length / n) bs ++ [b] := by
  have hle : bs.length / n * n ≤ bs.length := div_mul_le_self _ _
  have hlt : bs.length - bs.length / n * n < n := by
    have := div_add_mod' bs.length n
    have := mod_lt bs.length hn
    omega
  have hfit : (bs.drop (bs.length / n * n) ++ [b]).length ≤ n := by
    rw [length_append, length_drop, length_singleton]
    omega
  have hfit' : (bs.drop (bs.length / n * n)).length ≤ n := by
    rw [length_drop]
    omega
  unfold chunk
  rw [drop_append_of_le_length hle, take_of_length_le hfit, take_of_length_le hfit']

/-! ### Numbers -/

theorem pack_bigEndian {j : Nat} (h : j + bs.length = n) :
    pack (bigEndian n) j bs = Der.value bs := by
  induction bs generalizing j with
  | nil => rfl
  | cons b bs ih =>
      rw [length_cons] at h
      have hshift : bigEndian n j = 8 * bs.length := by
        unfold bigEndian
        omega
      have hlow : Der.value bs < 2 ^ (8 * bs.length) := by
        rw [pow_mul]
        exact Der.value_lt bs
      show b.toNat <<< bigEndian n j ||| pack (bigEndian n) (j + 1) bs = _
      rw [ih (by omega), hshift, ← shiftLeft_add_eq_or_of_lt hlow, shiftLeft_eq, pow_mul,
        Der.value_cons]
      norm_num

theorem pack_littleEndian (j : Nat) (bs : List UInt8) :
    pack littleEndian j bs = Der.value bs.reverse <<< (8 * j) := by
  induction bs generalizing j with
  | nil =>
      show 0 = Der.value [] <<< (8 * j)
      exact (zero_shiftLeft _).symm
  | cons b bs ih =>
      have hb : b.toNat < 2 ^ 8 := b.toNat_lt
      have hshift : 8 * (j + 1) = 8 + 8 * j := by omega
      show b.toNat <<< (8 * j) ||| pack littleEndian (j + 1) bs = _
      rw [ih, hshift, shiftLeft_add, ← shiftLeft_or_distrib, Nat.or_comm,
        ← shiftLeft_add_eq_or_of_lt hb, reverse_cons, Der.value_concat, shiftLeft_eq,
        shiftLeft_eq, shiftLeft_eq]

/-! ### Adding instead -/

/-- Where no bit is in both, they are added bit by bit. -/
theorem add_eq_or {a b : Nat} (h : a &&& b = 0) : a + b = a ||| b := by
  have ha : a < 2 ^ (a + b + 1) := Nat.lt_of_lt_of_le Nat.lt_two_pow_self
    (Nat.pow_le_pow_right (by omega) (by omega))
  have hb : b < 2 ^ (a + b + 1) := Nat.lt_of_lt_of_le Nat.lt_two_pow_self
    (Nat.pow_le_pow_right (by omega) (by omega))
  have hand : BitVec.ofNat (a + b + 1) a &&& BitVec.ofNat (a + b + 1) b = 0#(a + b + 1) := by
    rw [← BitVec.ofNat_and, h]
  have hadd := BitVec.toNat_add_of_and_eq_zero hand
  rw [BitVec.add_eq_or_of_and_eq_zero _ _ hand, BitVec.toNat_or, BitVec.toNat_ofNat,
    BitVec.toNat_ofNat, mod_eq_of_lt ha, mod_eq_of_lt hb] at hadd
  exact hadd.symm

/-- The high bits, when the mask of the low ones is the rest of the word. -/
theorem and_high {y high k : Nat} (hwhole : y &&& (high ||| (2 ^ k - 1)) = y)
    (hapart : high &&& (2 ^ k - 1) = 0) : y &&& high = y - y % 2 ^ k := by
  have hlow : y &&& (2 ^ k - 1) = y % 2 ^ k := and_two_pow_sub_one_eq_mod _ _
  have hnone : (y &&& high) &&& (y &&& (2 ^ k - 1)) = 0 := by
    rw [Nat.and_assoc, ← Nat.and_assoc high, Nat.and_comm high, Nat.and_assoc, hapart,
      and_zero, and_zero]
  have hsum := add_eq_or hnone
  rw [← and_or_distrib_left, hwhole, hlow] at hsum
  omega

/-- A bit of a word is a bit of the octet in its place. -/
theorem testBit_pack {j i : Nat} (h : (pack shift j bs).testBit i = true) :
    ∃ k, j ≤ k ∧ k < j + bs.length ∧ shift k ≤ i ∧ i < shift k + 8 := by
  induction bs generalizing j with
  | nil => exact absurd h (by simp [pack])
  | cons b bs ih =>
      have h' : (b.toNat <<< shift j ||| pack shift (j + 1) bs).testBit i = true := h
      rw [testBit_or, Bool.or_eq_true] at h'
      rw [length_cons]
      rcases h' with hhere | hthere
      · rw [testBit_shiftLeft, Bool.and_eq_true, decide_eq_true_eq] at hhere
        refine ⟨j, Nat.le_refl _, by omega, hhere.1, ?_⟩
        by_contra hge
        have hb : b.toNat < 2 ^ (i - shift j) :=
          Nat.lt_of_lt_of_le b.toNat_lt (Nat.pow_le_pow_right (by omega) (by omega))
        rw [testBit_lt_two_pow hb] at hhere
        exact absurd hhere.2 (by simp)
      · obtain ⟨k, hk, hlt, hbit⟩ := ih hthere
        exact ⟨k, by omega, by omega, hbit⟩

/-- The next octet has its bits for itself, if every octet has. -/
theorem pack_add (hapart : ∀ j k, j < k → k < n → shift j + 8 ≤ shift k ∨ shift k + 8 ≤ shift j)
    (h : bs.length < n) (b : UInt8) :
    pack shift 0 bs + b.toNat <<< shift bs.length =
      pack shift 0 bs ||| b.toNat <<< shift bs.length := by
  apply add_eq_or
  apply eq_of_testBit_eq
  intro i
  rw [testBit_and, zero_testBit]
  by_contra hboth
  have htrue : (pack shift 0 bs).testBit i = true ∧
      (b.toNat <<< shift bs.length).testBit i = true := by
    simpa using hboth
  obtain ⟨k, _, hk, hlow, hhigh⟩ := testBit_pack htrue.1
  have hnext : (pack shift bs.length [b]).testBit i = true := by
    show (b.toNat <<< shift bs.length ||| 0).testBit i = true
    rw [or_zero]
    exact htrue.2
  obtain ⟨l, hl, hl', hlow', hhigh'⟩ := testBit_pack hnext
  rw [length_singleton] at hl'
  have hsame : l = bs.length := by omega
  subst hsame
  rcases hapart k bs.length (by omega) h with hle | hle
  · omega
  · omega

/-- The octets stay within the word. -/
theorem pack_lt {bits : Nat} (hbits : ∀ k < n, shift k + 8 ≤ bits) (h : bs.length ≤ n) :
    pack shift 0 bs < 2 ^ bits := by
  apply lt_pow_two_of_testBit
  intro i hi
  by_contra htrue
  obtain ⟨k, _, hk, _, hhigh⟩ := testBit_pack (Bool.eq_true_of_not_eq_false htrue)
  have := hbits k (by omega)
  omega

/-- Addition to a word of the machine puts the next octet in. -/
theorem pack_add_mod (n bits : Nat)
    (hapart : ∀ j k, j < k → k < n → shift j + 8 ≤ shift k ∨ shift k + 8 ≤ shift j)
    (hbits : ∀ k < n, shift k + 8 ≤ bits) (h : bs.length < n) (b : UInt8) :
    (pack shift 0 bs + b.toNat <<< shift bs.length) % 2 ^ bits = pack shift 0 (bs ++ [b]) := by
  have hlt : pack shift 0 (bs ++ [b]) < 2 ^ bits :=
    pack_lt hbits (by rw [length_append, length_singleton]; omega)
  rw [pack_add hapart h, ← pack_concat, mod_eq_of_lt hlt]

end

end Packing

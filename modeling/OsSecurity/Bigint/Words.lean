/-
Arrays of words: `words.h` and the first part of `algorithms.cpp`.

A number is in an array of 32-bit words, the least significant first, and the size of the array
goes with it.  `dword` is the arithmetic of 64 bits, which wraps; what a function needs of a
double word it takes with `LOW_WORD` and `HIGH_WORD`.  The loops here handle a word at a time,
where some of the source's handle two: that is the same loop, the size being even.

`assert` is `__ASSERT_DEBUG`: it is not there in a release build, and the functions are those
of one.
-/
import OsSecurity.Library.Limbs
import Mathlib.Data.List.DropRight
import Mathlib.Data.List.Induction
import Mathlib.Tactic.Zify

namespace OsSecurity

open Limbs List Nat UInt32

def WORD_BITS : Nat := 32

abbrev Words := List UInt32

/-- An expression in `dword`s. -/
def dword (x : Int) : Nat := (x % 2 ^ 64).toNat

def LOW_WORD (x : Nat) : UInt32 := ofNat x

def HIGH_WORD (x : Nat) : UInt32 := ofNat (x / 2 ^ 32)

/-- The number in an array. -/
def value (A : Words) : Nat := Limbs.value (2 ^ 32) toNat A

theorem dword_cast (x : Int) : (dword x : Int) = x % 2 ^ 64 :=
  Int.toNat_of_nonneg (Int.emod_nonneg x (by decide))

theorem dword_natCast (x : Nat) : dword (x : Int) = x % 2 ^ 64 := by
  have hcast := dword_cast x
  omega

theorem LOW_WORD_toNat (x : Nat) : (LOW_WORD x).toNat = x % 2 ^ 32 := by
  simp [LOW_WORD]

theorem HIGH_WORD_toNat (x : Nat) : (HIGH_WORD x).toNat = x / 2 ^ 32 % 2 ^ 32 := by
  simp [HIGH_WORD]

theorem zero_sub_toNat (w : UInt32) : (0 - w).toNat = (2 ^ 32 - w.toNat) % 2 ^ 32 := by
  simp

@[simp] theorem value_nil : value [] = 0 := rfl

theorem value_cons (a : UInt32) (A : Words) : value (a :: A) = a.toNat + 2 ^ 32 * value A := rfl

theorem value_append (A B : Words) :
    value (A ++ B) = value A + (2 ^ 32) ^ A.length * value B := Limbs.value_append A B

theorem value_lt (A : Words) : value A < (2 ^ 32) ^ A.length :=
  Limbs.value_lt toNat_lt A

theorem value_drop (n : Nat) {A : Words} (h : n ≤ A.length) :
    value (A.drop n) = value A / (2 ^ 32) ^ n := Limbs.value_drop toNat_lt n h

theorem value_take (n : Nat) {A : Words} (h : n ≤ A.length) :
    value (A.take n) = value A % (2 ^ 32) ^ n := Limbs.value_take toNat_lt n h

theorem value_zeros (n : Nat) : value (replicate n 0) = 0 :=
  value_replicate_zero (x := 0) rfl n

theorem value_inj {A B : Words} (hlen : A.length = B.length) (h : value A = value B) : A = B :=
  Limbs.value_inj toNat_lt (fun _ _ => UInt32.toNat_inj.mp) hlen h

/-! ### Addition and subtraction -/

def addStep (carry : UInt32) (p : UInt32 × UInt32) : UInt32 × UInt32 :=
  let u := dword (carry.toNat + p.1.toNat + p.2.toNat)
  (LOW_WORD u, HIGH_WORD u)

/-- The sum and the carry. -/
def Add (A B : Words) : Words × UInt32 := ripple addStep 0 (A.zip B)

def subtractStep (borrow : UInt32) (p : UInt32 × UInt32) : UInt32 × UInt32 :=
  let u := dword (p.1.toNat - p.2.toNat - borrow.toNat)
  (LOW_WORD u, 0 - HIGH_WORD u)

/-- The difference and the borrow. -/
def Subtract (A B : Words) : Words × UInt32 := ripple subtractStep 0 (A.zip B)

theorem addStep_value {carry : UInt32} {p : UInt32 × UInt32} (h : carry.toNat ≤ 1) :
    (addStep carry p).2.toNat ≤ 1 ∧
      ((addStep carry p).1.toNat : Int) + (2 ^ 32 : Nat) * ((addStep carry p).2.toNat : Int) =
        p.1.toNat + p.2.toNat + carry.toNat := by
  have ha := p.1.toNat_lt
  have hb := p.2.toNat_lt
  have hu := dword_cast (carry.toNat + p.1.toNat + p.2.toNat)
  unfold addStep
  simp only
  rw [LOW_WORD_toNat, HIGH_WORD_toNat]
  push_cast
  omega

theorem subtractStep_value {borrow : UInt32} {p : UInt32 × UInt32} (h : borrow.toNat ≤ 1) :
    (subtractStep borrow p).2.toNat ≤ 1 ∧
      ((subtractStep borrow p).1.toNat : Int) +
          (2 ^ 32 : Nat) * -((subtractStep borrow p).2.toNat : Int) =
        p.1.toNat - p.2.toNat + -(borrow.toNat : Int) := by
  have ha := p.1.toNat_lt
  have hb := p.2.toNat_lt
  have hu := dword_cast (p.1.toNat - p.2.toNat - borrow.toNat)
  unfold subtractStep
  simp only
  rw [LOW_WORD_toNat, zero_sub_toNat, HIGH_WORD_toNat]
  push_cast
  omega

section

variable {A B : Words}

theorem Add_length (h : A.length = B.length) : (Add A B).1.length = A.length := by
  unfold Add
  rw [ripple_length, length_zip, h, Nat.min_self]

theorem Add_value (h : A.length = B.length) :
    (Add A B).2.toNat ≤ 1 ∧
      value (Add A B).1 + (2 ^ 32) ^ A.length * (Add A B).2.toNat = value A + value B := by
  obtain ⟨hcarry, hsum⟩ := ripple_value (2 ^ 32) toNat
    (fun p : UInt32 × UInt32 => (p.1.toNat : Int) + p.2.toNat) (fun c : UInt32 => (c.toNat : Int))
    (fun c => c.toNat ≤ 1) (fun _ _ => addStep_value) (s := 0) (Nat.zero_le 1) (A.zip B)
  refine ⟨hcarry, ?_⟩
  rw [sum_add, sum_zip_left (2 ^ 32) toNat h,
    sum_zip_right (2 ^ 32) toNat h, length_zip, ← h, Nat.min_self] at hsum
  zify
  exact hsum.trans (Int.add_zero _)

theorem Subtract_length (h : A.length = B.length) : (Subtract A B).1.length = A.length := by
  unfold Subtract
  rw [ripple_length, length_zip, h, Nat.min_self]

theorem Subtract_value (h : A.length = B.length) :
    (Subtract A B).2.toNat ≤ 1 ∧
      value (Subtract A B).1 + value B =
        value A + (2 ^ 32) ^ A.length * (Subtract A B).2.toNat := by
  obtain ⟨hborrow, hsum⟩ := ripple_value (2 ^ 32) toNat
    (fun p : UInt32 × UInt32 => (p.1.toNat : Int) - p.2.toNat)
    (fun c : UInt32 => -(c.toNat : Int)) (fun c => c.toNat ≤ 1) (fun _ _ => subtractStep_value)
    (s := 0) (Nat.zero_le 1) (A.zip B)
  refine ⟨hborrow, ?_⟩
  rw [sum_sub, sum_zip_left (2 ^ 32) toNat h,
    sum_zip_right (2 ^ 32) toNat h, length_zip, ← h, Nat.min_self] at hsum
  zify
  have hzero : -((0 : UInt32).toNat : Int) = 0 := rfl
  unfold value Subtract
  linear_combination hsum + hzero

end

/-! ### Comparison -/

/-- From the most significant word on. -/
def Compare : Words → Words → Int
  | a :: A, b :: B =>
    if Compare A B ≠ 0 then Compare A B else if a > b then 1 else if a < b then -1 else 0
  | _, _ => 0

theorem Compare_value {A B : Words} (h : A.length = B.length) :
    Compare A B = Int.sign ((value A : Int) - value B) := by
  induction A generalizing B with
  | nil =>
      rw [eq_nil_of_length_eq_zero h.symm]
      rfl
  | cons a A ih =>
      cases B with
      | nil => exact absurd h (succ_ne_zero _)
      | cons b B =>
        have ha := a.toNat_lt
        have hb := b.toNat_lt
        rw [Compare, ih (succ.inj h), value_cons, value_cons]
        rcases lt_trichotomy (value A) (value B) with hlt | heq | hgt
        · rw [Int.sign_eq_neg_one_of_neg (by omega), if_pos (by decide),
            Int.sign_eq_neg_one_of_neg (by push_cast; omega)]
        · rw [heq, Int.sub_self, Int.sign_zero, if_neg (by decide)]
          have hab : a > b ↔ b.toNat < a.toNat := lt_iff_toNat_lt
          have hba : a < b ↔ a.toNat < b.toNat := lt_iff_toNat_lt
          by_cases hmore : a > b
          · have hlt := hab.mp hmore
            rw [if_pos hmore, Int.sign_eq_one_of_pos (by push_cast; omega)]
          · have hle := mt hab.mpr hmore
            rw [if_neg hmore]
            by_cases hless : a < b
            · have hlt := hba.mp hless
              rw [if_pos hless, Int.sign_eq_neg_one_of_neg (by push_cast; omega)]
            · have hge := mt hba.mpr hless
              rw [if_neg hless, Int.sign_eq_zero_iff_zero.mpr (by push_cast; omega)]
        · rw [Int.sign_eq_one_of_pos (by omega), if_pos (by decide),
            Int.sign_eq_one_of_pos (by push_cast; omega)]

theorem Compare_nonneg {A B : Words} (h : A.length = B.length) :
    Compare A B ≥ 0 ↔ value B ≤ value A := by
  rw [Compare_value h, ge_iff_le, Int.sign_nonneg_iff]
  omega

/-! ### One word more or less -/

/-- `Increment`, and the carry.  The words behind the first are counted up by one. -/
def Increment : Words → UInt32 → Words × UInt32
  | [], _ => ([], 1)
  | a :: A, B =>
    if a + B ≥ a then ((a + B) :: A, 0) else ((a + B) :: (Increment A 1).1, (Increment A 1).2)

/-- `Decrement`, and the borrow. -/
def Decrement : Words → UInt32 → Words × UInt32
  | [], _ => ([], 1)
  | a :: A, B =>
    if a - B ≤ a then ((a - B) :: A, 0) else ((a - B) :: (Decrement A 1).1, (Decrement A 1).2)

theorem Increment_length (A : Words) (B : UInt32) : (Increment A B).1.length = A.length := by
  induction A generalizing B with
  | nil => rfl
  | cons a A ih =>
      unfold Increment
      by_cases hfits : a + B ≥ a
      · rw [if_pos hfits]
        rfl
      · rw [if_neg hfits, length_cons, length_cons, ih]

theorem Decrement_length (A : Words) (B : UInt32) : (Decrement A B).1.length = A.length := by
  induction A generalizing B with
  | nil => rfl
  | cons a A ih =>
      unfold Decrement
      by_cases hfits : a - B ≤ a
      · rw [if_pos hfits]
        rfl
      · rw [if_neg hfits, length_cons, length_cons, ih]

theorem Increment_value {A : Words} {B : UInt32} (h : A ≠ [] ∨ B = 1) :
    (Increment A B).2.toNat ≤ 1 ∧
      value (Increment A B).1 + (2 ^ 32) ^ A.length * (Increment A B).2.toNat =
        value A + B.toNat := by
  induction A generalizing B with
  | nil =>
      rw [h.resolve_left fun hne => hne rfl]
      exact ⟨Nat.le_refl 1, rfl⟩
  | cons a A ih =>
      have ha := a.toNat_lt
      have hB := B.toNat_lt
      have hsum : (a + B).toNat = (a.toNat + B.toNat) % 2 ^ 32 := UInt32.toNat_add a B
      have hle : a + B ≥ a ↔ a.toNat ≤ (a + B).toNat := le_iff_toNat_le
      unfold Increment
      by_cases hfits : a + B ≥ a
      · have hnowrap := hle.mp hfits
        rw [if_pos hfits, value_cons, value_cons]
        refine ⟨Nat.zero_le 1, ?_⟩
        rw [UInt32.toNat_zero]
        omega
      · obtain ⟨hcarry, hrest⟩ := ih (B := 1) (Or.inr rfl)
        rw [if_neg hfits, value_cons, value_cons, length_cons, pow_succ']
        refine ⟨hcarry, ?_⟩
        rw [toNat_one] at hrest
        have hless := mt hle.mpr hfits
        have hwrap : (a + B).toNat + 2 ^ 32 = a.toNat + B.toNat := by omega
        linear_combination hwrap + 2 ^ 32 * hrest

theorem Decrement_value {A : Words} {B : UInt32} (h : A ≠ [] ∨ B = 1) :
    (Decrement A B).2.toNat ≤ 1 ∧
      value (Decrement A B).1 + B.toNat =
        value A + (2 ^ 32) ^ A.length * (Decrement A B).2.toNat := by
  induction A generalizing B with
  | nil =>
      rw [h.resolve_left fun hne => hne rfl]
      exact ⟨Nat.le_refl 1, rfl⟩
  | cons a A ih =>
      have ha := a.toNat_lt
      have hB := B.toNat_lt
      have hdiff : (a - B).toNat = (2 ^ 32 - B.toNat + a.toNat) % 2 ^ 32 := UInt32.toNat_sub a B
      have hle : a - B ≤ a ↔ (a - B).toNat ≤ a.toNat := le_iff_toNat_le
      unfold Decrement
      by_cases hfits : a - B ≤ a
      · have hnowrap := hle.mp hfits
        rw [if_pos hfits, value_cons, value_cons]
        refine ⟨Nat.zero_le 1, ?_⟩
        rw [UInt32.toNat_zero]
        omega
      · obtain ⟨hborrow, hrest⟩ := ih (B := 1) (Or.inr rfl)
        rw [if_neg hfits, value_cons, value_cons, length_cons, pow_succ']
        refine ⟨hborrow, ?_⟩
        rw [toNat_one] at hrest
        have hless := mt hle.mpr hfits
        have hwrap : (a - B).toNat + B.toNat = a.toNat + 2 ^ 32 := by omega
        linear_combination hwrap + 2 ^ 32 * hrest

/-! ### Multiplication by a word -/

def linearStep (B carry a : UInt32) : UInt32 × UInt32 :=
  let p := dword (a.toNat * B.toNat + carry.toNat)
  (LOW_WORD p, HIGH_WORD p)

/-- The product and the carry. -/
def LinearMultiply (A : Words) (B : UInt32) : Words × UInt32 := ripple (linearStep B) 0 A

theorem linearStep_value (B carry a : UInt32) :
    ((linearStep B carry a).1.toNat : Int) +
        (2 ^ 32 : Nat) * ((linearStep B carry a).2.toNat : Int) =
      (a.toNat : Int) * B.toNat + carry.toNat := by
  have ha := a.toNat_lt
  have hB := B.toNat_lt
  have hcarry := carry.toNat_lt
  have hmul : a.toNat * B.toNat ≤ (2 ^ 32 - 1) * (2 ^ 32 - 1) :=
    Nat.mul_le_mul (by omega) (by omega)
  have hp : dword (a.toNat * B.toNat + carry.toNat) =
      (a.toNat * B.toNat + carry.toNat) % 2 ^ 64 := by
    exact_mod_cast dword_natCast (a.toNat * B.toNat + carry.toNat)
  unfold linearStep
  simp only
  rw [LOW_WORD_toNat, HIGH_WORD_toNat, hp]
  norm_cast
  generalize a.toNat * B.toNat = m at *
  omega

theorem LinearMultiply_length (A : Words) (B : UInt32) :
    (LinearMultiply A B).1.length = A.length := ripple_length 0 A

theorem LinearMultiply_value (A : Words) (B : UInt32) :
    value (LinearMultiply A B).1 + (2 ^ 32) ^ A.length * (LinearMultiply A B).2.toNat =
      value A * B.toNat := by
  obtain ⟨-, hsum⟩ := ripple_value (2 ^ 32) toNat
    (fun a : UInt32 => (a.toNat : Int) * B.toNat) (fun c : UInt32 => (c.toNat : Int))
    (fun _ => True) (fun s a _ => ⟨trivial, linearStep_value B s a⟩) (s := 0) trivial A
  rw [sum_mul_right, sum_cast] at hsum
  zify
  exact hsum.trans (Int.add_zero _)

/-! ### The size of a number -/

/-- The words that are left when the zeros at the top are dropped. -/
def CountWords (X : Words) : Nat := (X.rdropWhile (· == 0)).length

theorem CountWords_le (X : Words) : CountWords X ≤ X.length :=
  (List.rdropWhile_prefix _ _).length_le

theorem CountWords_concat_zero (X : Words) : CountWords (X ++ [0]) = CountWords X :=
  congrArg List.length (rdropWhile_concat_pos (fun x : UInt32 => x == 0) X 0 rfl)

theorem CountWords_concat (X : Words) {x : UInt32} (h : x ≠ 0) :
    CountWords (X ++ [x]) = X.length + 1 := by
  have hlast : ¬(x == 0) = true := by simpa using h
  unfold CountWords
  rw [rdropWhile_concat_neg (fun x : UInt32 => x == 0) X x hlast, length_append, length_singleton]

/-- What they leave is all of the number. -/
theorem value_lt_CountWords (X : Words) : value X < (2 ^ 32) ^ CountWords X := by
  induction X using reverseRecOn with
  | nil => exact Nat.one_pos
  | append_singleton X x ih =>
      by_cases hx : x = 0
      · rw [hx, CountWords_concat_zero, value_append]
        exact ih
      · have hlt := value_lt (X ++ [x])
        rw [length_append, length_singleton] at hlt
        rw [CountWords_concat X hx]
        exact hlt

/-- The last of them is not zero. -/
theorem le_value_CountWords {X : Words} (h : CountWords X ≠ 0) :
    (2 ^ 32) ^ (CountWords X - 1) ≤ value X := by
  induction X using reverseRecOn with
  | nil => exact absurd rfl h
  | append_singleton X x ih =>
      by_cases hx : x = 0
      · rw [hx, CountWords_concat_zero] at h ⊢
        rw [value_append]
        exact ih h
      · have hpos : 0 < x.toNat := by
          apply Nat.pos_of_ne_zero
          intro hzero
          exact hx (UInt32.toNat_inj.mp hzero)
        rw [CountWords_concat X hx, Nat.add_sub_cancel, value_append, value_cons, value_nil,
          Nat.mul_zero, Nat.add_zero]
        exact (Nat.le_mul_of_pos_right _ hpos).trans (Nat.le_add_left _ _)

theorem CountWords_eq_zero {X : Words} : CountWords X = 0 ↔ value X = 0 := by
  have hlt := value_lt_CountWords X
  constructor
  · intro h
    rw [h, pow_zero] at hlt
    omega
  · intro h
    by_contra hne
    have hle := le_value_CountWords hne
    have hpos : 0 < (2 ^ 32) ^ (CountWords X - 1) := Nat.pow_pos (by decide)
    omega

/-- One of the steps of `BitPrecision`. -/
def shiftUp (k : Nat) (p : Nat × Nat) : Nat × Nat :=
  if p.1 < 2 ^ (32 - k) then (p.1 <<< k, p.2 - k) else p

def BitPrecision (aValue : UInt32) : Nat :=
  if aValue = 0 then 0
  else (shiftUp 1 (shiftUp 2 (shiftUp 4 (shiftUp 8 (shiftUp 16 (aValue.toNat, 32)))))).2

/-- The word `w` has been shifted up to its last `m` bits. -/
structure ShiftedUp (w m : Nat) (p : Nat × Nat) : Prop where
  lt : p.1 < 2 ^ 32
  le : 2 ^ (32 - m) ≤ p.1
  bits : m ≤ p.2
  bits32 : p.2 ≤ 32
  shifted : p.1 = w * 2 ^ (32 - p.2)

/-- Half of them are left after a step. -/
theorem ShiftedUp.step {w k : Nat} {p : Nat × Nat} (h : ShiftedUp w (2 * k) p) :
    ShiftedUp w k (shiftUp k p) := by
  have hbits := h.bits
  have hbits32 := h.bits32
  have hpow : 2 ^ (32 - k) * 2 ^ k = 2 ^ 32 := by
    rw [← pow_add]
    congr 1
    omega
  unfold shiftUp
  by_cases hsmall : p.1 < 2 ^ (32 - k)
  · rw [if_pos hsmall]
    have hshift : p.1 <<< k = p.1 * 2 ^ k := shiftLeft_eq _ _
    have hle := Nat.mul_le_mul_right (2 ^ k) h.le
    refine ⟨?_, ?_, ?_, ?_, ?_⟩
    · show p.1 <<< k < 2 ^ 32
      rw [hshift, ← hpow]
      exact Nat.mul_lt_mul_of_pos_right hsmall (Nat.two_pow_pos k)
    · show 2 ^ (32 - k) ≤ p.1 <<< k
      rw [← pow_add] at hle
      rw [hshift]
      exact (Nat.pow_le_pow_right (by decide) (by omega)).trans hle
    · show k ≤ p.2 - k
      omega
    · show p.2 - k ≤ 32
      omega
    · have hsum : 32 - (p.2 - k) = 32 - p.2 + k := by omega
      show p.1 <<< k = w * 2 ^ (32 - (p.2 - k))
      rw [hshift, hsum, pow_add, ← Nat.mul_assoc, ← h.shifted]
  · rw [if_neg hsmall]
    exact ⟨h.lt, Nat.not_lt.mp hsmall, by omega, hbits32, h.shifted⟩

theorem BitPrecision_spec {w : UInt32} (h : w ≠ 0) :
    1 ≤ BitPrecision w ∧ BitPrecision w ≤ 32 ∧ 2 ^ (BitPrecision w - 1) ≤ w.toNat ∧
      w.toNat < 2 ^ BitPrecision w := by
  have hpos : w.toNat ≠ 0 := fun hzero => h (UInt32.toNat_inj.mp hzero)
  have hstart : ShiftedUp w.toNat (2 * 16) (w.toNat, 32) :=
    ⟨w.toNat_lt, one_le_iff_ne_zero.mpr hpos, Nat.le_refl _, Nat.le_refl _, (Nat.mul_one _).symm⟩
  have hlast : ShiftedUp w.toNat 1 _ :=
    ShiftedUp.step (k := 1) (ShiftedUp.step (k := 2) (ShiftedUp.step (k := 4)
      (ShiftedUp.step (k := 8) hstart.step)))
  unfold BitPrecision
  rw [if_neg h]
  generalize shiftUp 1 (shiftUp 2 (shiftUp 4 (shiftUp 8 (shiftUp 16 (w.toNat, 32))))) = p at hlast
  have hbits := hlast.bits
  have hbits32 := hlast.bits32
  have hlt := hlast.lt
  have hle := hlast.le
  have hhalf : 2 ^ 31 = 2 ^ (p.2 - 1) * 2 ^ (32 - p.2) := by
    rw [← pow_add]
    congr 1
    omega
  have hwhole : 2 ^ 32 = 2 ^ p.2 * 2 ^ (32 - p.2) := by
    rw [← pow_add]
    congr 1
    omega
  rw [hlast.shifted] at hlt hle
  refine ⟨hbits, hbits32, ?_, ?_⟩
  · apply Nat.le_of_mul_le_mul_right _ (Nat.two_pow_pos (32 - p.2))
    rw [← hhalf]
    exact hle
  · apply Nat.lt_of_mul_lt_mul_right (a := 2 ^ (32 - p.2))
    rw [← hwhole]
    exact hlt

/-! ### Shifts by less than a word -/

def shiftLeftStep (shiftBits : Nat) (carry u : UInt32) : UInt32 × UInt32 :=
  ((u <<< ofNat shiftBits) ||| carry, u >>> ofNat (WORD_BITS - shiftBits))

/-- The words shifted, and the bits that are shifted out. -/
def ShiftWordsLeftByBits (r : Words) (shiftBits : Nat) : Words × UInt32 :=
  if shiftBits = 0 then (r, 0) else ripple (shiftLeftStep shiftBits) 0 r

def ShiftWordsRightByBitsFrom (shiftBits : Nat) : Words → Words × UInt32
  | [] => ([], 0)
  | u :: r =>
    ((u >>> ofNat shiftBits ||| (ShiftWordsRightByBitsFrom shiftBits r).2) ::
      (ShiftWordsRightByBitsFrom shiftBits r).1, u <<< ofNat (WORD_BITS - shiftBits))

/-- From the most significant word on. -/
def ShiftWordsRightByBits (r : Words) (shiftBits : Nat) : Words × UInt32 :=
  if shiftBits = 0 then (r, 0) else ShiftWordsRightByBitsFrom shiftBits r

section

variable {s : Nat}

theorem shiftLeft_toNat (hs : s < 32) (u : UInt32) :
    (u <<< ofNat s).toNat = u.toNat % 2 ^ (32 - s) * 2 ^ s := by
  have hsmall : s % 2 ^ 32 % 32 = s := by omega
  have hpow : 2 ^ 32 = 2 ^ (32 - s) * 2 ^ s := by
    rw [← pow_add]
    congr 1
    omega
  rw [UInt32.toNat_shiftLeft, toNat_ofNat', hsmall, shiftLeft_eq, hpow, mul_mod_mul_right]

theorem shiftRight_toNat (hs : s < 32) (u : UInt32) : (u >>> ofNat s).toNat = u.toNat / 2 ^ s := by
  have hsmall : s % 2 ^ 32 % 32 = s := by omega
  rw [UInt32.toNat_shiftRight, toNat_ofNat', hsmall, shiftRight_eq_div_pow]

theorem shiftLeftStep_value (hs0 : 0 < s) (hs : s < 32) {carry : UInt32} (u : UInt32)
    (h : carry.toNat < 2 ^ s) :
    (shiftLeftStep s carry u).2.toNat < 2 ^ s ∧
      ((shiftLeftStep s carry u).1.toNat : Int) +
          (2 ^ 32 : Nat) * ((shiftLeftStep s carry u).2.toNat : Int) =
        (u.toNat : Int) * 2 ^ s + carry.toNat := by
  have hsplit : 2 ^ (32 - s) * 2 ^ s = 2 ^ 32 := by
    rw [← pow_add]
    congr 1
    omega
  have hor : u.toNat % 2 ^ (32 - s) * 2 ^ s ||| carry.toNat =
      u.toNat % 2 ^ (32 - s) * 2 ^ s + carry.toNat := by
    rw [← shiftLeft_eq]
    exact (shiftLeft_add_eq_or_of_lt h _).symm
  have hdiv := mod_add_div u.toNat (2 ^ (32 - s))
  have hlt : u.toNat / 2 ^ (32 - s) < 2 ^ s := by
    apply Nat.div_lt_of_lt_mul
    rw [hsplit]
    exact u.toNat_lt
  unfold shiftLeftStep
  simp only
  rw [UInt32.toNat_or, shiftLeft_toNat hs, hor, shiftRight_toNat (by unfold WORD_BITS; omega)]
  refine ⟨hlt, ?_⟩
  norm_cast
  rw [← hsplit]
  unfold WORD_BITS
  linear_combination 2 ^ s * hdiv

theorem ShiftWordsLeftByBits_length (r : Words) (s : Nat) :
    (ShiftWordsLeftByBits r s).1.length = r.length := by
  unfold ShiftWordsLeftByBits
  by_cases hs0 : s = 0
  · rw [if_pos hs0]
  · rw [if_neg hs0, ripple_length]

theorem ShiftWordsLeftByBits_value (hs : s < 32) (r : Words) :
    value (ShiftWordsLeftByBits r s).1 +
        (2 ^ 32) ^ r.length * (ShiftWordsLeftByBits r s).2.toNat = value r * 2 ^ s := by
  unfold ShiftWordsLeftByBits
  by_cases hs0 : s = 0
  · rw [if_pos hs0, hs0, UInt32.toNat_zero, Nat.mul_zero, Nat.add_zero, pow_zero, Nat.mul_one]
  · rw [if_neg hs0]
    obtain ⟨-, hsum⟩ := ripple_value (2 ^ 32) toNat
      (fun u : UInt32 => (u.toNat : Int) * 2 ^ s) (fun c : UInt32 => (c.toNat : Int))
      (fun c => c.toNat < 2 ^ s)
      (fun _ u h => shiftLeftStep_value (Nat.pos_of_ne_zero hs0) hs u h)
      (s := 0) (Nat.two_pow_pos s) r
    rw [sum_mul_right, sum_cast] at hsum
    zify
    exact hsum.trans (Int.add_zero _)

theorem ShiftWordsRightByBits_length (r : Words) (s : Nat) :
    (ShiftWordsRightByBits r s).1.length = r.length := by
  have hfrom : ∀ r, (ShiftWordsRightByBitsFrom s r).1.length = r.length := by
    intro r
    induction r with
    | nil => rfl
    | cons u r ih => rw [ShiftWordsRightByBitsFrom, length_cons, length_cons, ih]
  unfold ShiftWordsRightByBits
  by_cases hs0 : s = 0
  · rw [if_pos hs0]
  · rw [if_neg hs0, hfrom]

/-- The bits that are shifted out come back at the top of the carry. -/
theorem ShiftWordsRightByBitsFrom_value (hs0 : 0 < s) (hs : s < 32) (r : Words) :
    ∃ low < 2 ^ s, (ShiftWordsRightByBitsFrom s r).2.toNat = low * 2 ^ (32 - s) ∧
      value (ShiftWordsRightByBitsFrom s r).1 * 2 ^ s + low = value r := by
  have hsplit : 2 ^ 32 = 2 ^ (32 - s) * 2 ^ s := by
    rw [← pow_add]
    congr 1
    omega
  induction r with
  | nil => exact ⟨0, Nat.two_pow_pos s, (Nat.zero_mul _).symm, Nat.zero_mul _⟩
  | cons u r ih =>
      obtain ⟨low, -, hcarry, hvalue⟩ := ih
      have hlt : u.toNat / 2 ^ s < 2 ^ (32 - s) := by
        apply Nat.div_lt_of_lt_mul
        rw [Nat.mul_comm, ← hsplit]
        exact u.toNat_lt
      have hdiv := mod_add_div u.toNat (2 ^ s)
      have hback : 32 - (32 - s) = s := by omega
      have hor : u.toNat / 2 ^ s ||| low * 2 ^ (32 - s) =
          low * 2 ^ (32 - s) + u.toNat / 2 ^ s := by
        rw [Nat.or_comm, ← shiftLeft_eq]
        exact (shiftLeft_add_eq_or_of_lt hlt _).symm
      refine ⟨u.toNat % 2 ^ s, mod_lt _ (Nat.two_pow_pos s), ?_, ?_⟩
      · show (u <<< ofNat (32 - s)).toNat = _
        rw [shiftLeft_toNat (by omega), hback]
      · rw [ShiftWordsRightByBitsFrom, value_cons, value_cons, UInt32.toNat_or,
          shiftRight_toNat hs, hcarry, hor, ← hvalue, hsplit]
        linear_combination hdiv

theorem ShiftWordsRightByBits_value (hs : s < 32) (r : Words) :
    value (ShiftWordsRightByBits r s).1 = value r / 2 ^ s := by
  unfold ShiftWordsRightByBits
  by_cases hs0 : s = 0
  · rw [if_pos hs0, hs0, pow_zero, Nat.div_one]
  · obtain ⟨low, hlow, -, hvalue⟩ :=
      ShiftWordsRightByBitsFrom_value (Nat.pos_of_ne_zero hs0) hs r
    rw [if_neg hs0, ← hvalue, Nat.mul_comm, mul_add_div (Nat.two_pow_pos s),
      div_eq_of_lt hlow, Nat.add_zero]

end

/-! ### Parts of an array -/

/-- `n` words from `j` on. -/
def part (A : Words) (j n : Nat) : Words := (A.drop j).take n

/-- `w` is written over the words from `j` on. -/
def writeAt (A : Words) (j : Nat) (w : Words) : Words := A.take j ++ w ++ A.drop (j + w.length)

section

variable {A w : Words} {j n : Nat}

theorem part_length (h : j + n ≤ A.length) : (part A j n).length = n := by
  unfold part
  rw [length_take, length_drop]
  omega

theorem writeAt_length (h : j + w.length ≤ A.length) : (writeAt A j w).length = A.length := by
  unfold writeAt
  rw [length_append, length_append, length_take, length_drop]
  omega

theorem writeAt_drop (h : j ≤ A.length) : (writeAt A j w).drop j = w ++ A.drop (j + w.length) := by
  unfold writeAt
  rw [List.append_assoc, drop_left' (length_take_of_le h)]

theorem value_part (h : j + n ≤ A.length) :
    value (part A j n) = value A / (2 ^ 32) ^ j % (2 ^ 32) ^ n := by
  unfold part
  rw [value_take n (by rw [length_drop]; omega), value_drop j (by omega)]

/-- What is below a part, in it, and above it. -/
theorem value_split (h : j + n ≤ A.length) :
    value A = value (A.take j) + (2 ^ 32) ^ j * (value (part A j n) +
      (2 ^ 32) ^ n * value (A.drop (j + n))) := by
  have hroom : n ≤ (A.drop j).length := by
    rw [length_drop]
    omega
  have hlow := value_take_add_drop (2 ^ 32) toNat j
    (show j ≤ A.length by omega)
  have hhigh := value_take_add_drop (2 ^ 32) toNat n hroom
  rw [drop_drop] at hhigh
  unfold value part
  rw [hlow, hhigh]

theorem value_writeAt (h : j + w.length ≤ A.length) :
    value (writeAt A j w) = value (A.take j) + (2 ^ 32) ^ j * (value w +
      (2 ^ 32) ^ w.length * value (A.drop (j + w.length))) := by
  unfold writeAt
  rw [List.append_assoc, value_append, value_append, length_take_of_le (by omega)]

end

end OsSecurity

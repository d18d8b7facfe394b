/-
Numbers in digits, the least significant first.

The digits are whatever a program keeps in an array; `digit` says what one of them counts.  A
loop that goes through the digits with a carry is a `ripple`, and all there is to show of one is
what a step does: the digit it puts out and the carry together are what came in
(`ripple_value`).  Addition, subtraction, a shift and multiplication by a digit are all of
this kind; with a borrow the carry is negative.
-/
import Mathlib.Algebra.Order.Ring.Int
import Mathlib.Tactic.Ring
import Mathlib.Tactic.LinearCombination

namespace Limbs

open List

variable {α δ σ : Type*}

/-- The number that digits stand for. -/
def value (b : Nat) (digit : α → Nat) : List α → Nat
  | [] => 0
  | x :: xs => digit x + b * value b digit xs

section

variable {b : Nat} {digit : α → Nat}

@[simp] theorem value_nil : value b digit [] = 0 := rfl

theorem value_cons (x : α) (xs : List α) :
    value b digit (x :: xs) = digit x + b * value b digit xs := rfl

theorem value_append (xs ys : List α) :
    value b digit (xs ++ ys) = value b digit xs + b ^ xs.length * value b digit ys := by
  induction xs with
  | nil => simp
  | cons x xs ih =>
      rw [cons_append, value_cons, ih, value_cons, length_cons, pow_succ']
      ring

variable (b digit) in
theorem value_take_add_drop (n : Nat) {xs : List α} (h : n ≤ xs.length) :
    value b digit xs = value b digit (xs.take n) + b ^ n * value b digit (xs.drop n) := by
  have hlen : (xs.take n).length = n := length_take_of_le h
  have happend : value b digit (xs.take n ++ xs.drop n) = _ := value_append _ _
  rw [take_append_drop, hlen] at happend
  exact happend

theorem value_lt (hdigit : ∀ x, digit x < b) (xs : List α) : value b digit xs < b ^ xs.length := by
  induction xs with
  | nil => exact Nat.one_pos
  | cons x xs ih =>
      have hx := hdigit x
      have hstep : b * (value b digit xs + 1) ≤ b * b ^ xs.length := Nat.mul_le_mul_left b ih
      rw [Nat.mul_add, Nat.mul_one] at hstep
      rw [value_cons, length_cons, pow_succ']
      omega

/-- The digits above are all there is to a quotient by a power of the base. -/
theorem value_drop (hdigit : ∀ x, digit x < b) (n : Nat) {xs : List α} (h : n ≤ xs.length) :
    value b digit (xs.drop n) = value b digit xs / b ^ n := by
  have hlt := value_lt hdigit (xs.take n)
  rw [length_take_of_le h] at hlt
  rw [value_take_add_drop b digit n h, Nat.add_mul_div_left _ _ (by omega), Nat.div_eq_of_lt hlt,
    Nat.zero_add]

theorem value_take (hdigit : ∀ x, digit x < b) (n : Nat) {xs : List α} (h : n ≤ xs.length) :
    value b digit (xs.take n) = value b digit xs % b ^ n := by
  have hlt := value_lt hdigit (xs.take n)
  rw [length_take_of_le h] at hlt
  rw [value_take_add_drop b digit n h, Nat.add_mul_mod_self_left, Nat.mod_eq_of_lt hlt]

theorem value_eq_zero {xs : List α} (h : ∀ x ∈ xs, digit x = 0) : value b digit xs = 0 := by
  induction xs with
  | nil => rfl
  | cons x xs ih =>
      rw [value_cons, h x mem_cons_self, ih fun y hy => h y (mem_cons_of_mem _ hy), Nat.mul_zero]

theorem value_replicate_zero {x : α} (hx : digit x = 0) (n : Nat) :
    value b digit (replicate n x) = 0 :=
  value_eq_zero fun y hy => by rw [eq_of_mem_replicate hy, hx]

/-- A number of so many digits has them in one way only. -/
theorem value_inj (hdigit : ∀ x, digit x < b) (hinj : ∀ x y, digit x = digit y → x = y)
    {xs ys : List α} (hlen : xs.length = ys.length) (h : value b digit xs = value b digit ys) :
    xs = ys := by
  induction xs generalizing ys with
  | nil => exact (eq_nil_of_length_eq_zero hlen.symm).symm
  | cons x xs ih =>
      cases ys with
      | nil => exact absurd hlen (Nat.succ_ne_zero _)
      | cons y ys =>
        have hx := hdigit x
        have hy := hdigit y
        rw [value_cons, value_cons] at h
        have hhead : digit x = digit y := by
          have hmod := congrArg (· % b) h
          simp only [Nat.add_mul_mod_self_left] at hmod
          rwa [Nat.mod_eq_of_lt hx, Nat.mod_eq_of_lt hy] at hmod
        have htail : value b digit xs = value b digit ys := by
          rw [hhead] at h
          exact Nat.eq_of_mul_eq_mul_left (by omega) (Nat.add_left_cancel h)
        rw [hinj x y hhead, ih (Nat.succ.inj hlen) htail]

end

/-! ### Loops with a carry -/

/-- A loop over digits. -/
def ripple (step : σ → α → δ × σ) : σ → List α → List δ × σ
  | s, [] => ([], s)
  | s, x :: xs => ((step s x).1 :: (ripple step (step s x).2 xs).1, (ripple step (step s x).2 xs).2)

section

variable {step : σ → α → δ × σ}

@[simp] theorem ripple_length (s : σ) (xs : List α) : (ripple step s xs).1.length = xs.length := by
  induction xs generalizing s with
  | nil => rfl
  | cons x xs ih => rw [ripple, length_cons, length_cons, ih]

/-- The integer that integers in the places of digits stand for. -/
def sum (b : ℤ) (digit : α → ℤ) : List α → ℤ
  | [] => 0
  | x :: xs => digit x + b * sum b digit xs

theorem sum_cast (b : Nat) (digit : α → Nat) (xs : List α) :
    sum b (fun x => digit x) xs = value b digit xs := by
  induction xs with
  | nil => rfl
  | cons x xs ih =>
      rw [sum, ih, value_cons]
      push_cast
      ring

theorem sum_add (b : ℤ) (f g : α → ℤ) (xs : List α) :
    sum b (fun x => f x + g x) xs = sum b f xs + sum b g xs := by
  induction xs with
  | nil => rfl
  | cons x xs ih =>
      simp only [sum]
      rw [ih]
      ring

theorem sum_sub (b : ℤ) (f g : α → ℤ) (xs : List α) :
    sum b (fun x => f x - g x) xs = sum b f xs - sum b g xs := by
  induction xs with
  | nil => rfl
  | cons x xs ih =>
      simp only [sum]
      rw [ih]
      ring

theorem sum_mul_right (b : ℤ) (f : α → ℤ) (c : ℤ) (xs : List α) :
    sum b (fun x => f x * c) xs = sum b f xs * c := by
  induction xs with
  | nil => exact (Int.zero_mul c).symm
  | cons x xs ih =>
      simp only [sum]
      rw [ih]
      ring

theorem sum_zip_left (b : Nat) (f : α → Nat) {xs : List α} {ys : List δ}
    (h : xs.length = ys.length) :
    sum b (fun p : α × δ => (f p.1 : ℤ)) (xs.zip ys) = value b f xs := by
  induction xs generalizing ys with
  | nil => rfl
  | cons x xs ih =>
      cases ys with
      | nil => exact absurd h (Nat.succ_ne_zero _)
      | cons y ys =>
        simp only [zip_cons_cons, sum]
        rw [ih (Nat.succ.inj h), value_cons]
        push_cast
        ring

theorem sum_zip_right (b : Nat) (f : δ → Nat) {xs : List α} {ys : List δ}
    (h : xs.length = ys.length) :
    sum b (fun p : α × δ => (f p.2 : ℤ)) (xs.zip ys) = value b f ys := by
  induction xs generalizing ys with
  | nil =>
      rw [eq_nil_of_length_eq_zero h.symm]
      rfl
  | cons x xs ih =>
      cases ys with
      | nil => exact absurd h (Nat.succ_ne_zero _)
      | cons y ys =>
        simp only [zip_cons_cons, sum]
        rw [ih (Nat.succ.inj h), value_cons]
        push_cast
        ring

/-- **A loop with a carry.**  If each step puts out what it takes in, so does the loop. -/
theorem ripple_value (b : Nat) (out : δ → Nat) (coming : α → ℤ) (carry : σ → ℤ) (ok : σ → Prop)
    (hstep : ∀ s x, ok s → ok (step s x).2 ∧
      (out (step s x).1 : ℤ) + b * carry (step s x).2 = coming x + carry s)
    {s : σ} (hs : ok s) (xs : List α) :
    ok (ripple step s xs).2 ∧
      (value b out (ripple step s xs).1 : ℤ) + (b : ℤ) ^ xs.length * carry (ripple step s xs).2 =
        sum b coming xs + carry s := by
  induction xs generalizing s with
  | nil =>
      refine ⟨hs, ?_⟩
      show ((0 : Nat) : ℤ) + (b : ℤ) ^ 0 * carry s = 0 + carry s
      simp
  | cons x xs ih =>
      obtain ⟨hnext, hone⟩ := hstep s x hs
      obtain ⟨hlast, hrest⟩ := ih hnext
      refine ⟨hlast, ?_⟩
      rw [ripple]
      simp only [value_cons, sum, length_cons, pow_succ']
      push_cast
      linear_combination hone + (b : ℤ) * hrest

end

end Limbs

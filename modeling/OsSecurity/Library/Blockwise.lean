/-
Processing a message block by block.

A step takes a state and one block to a new state and some output.  `run` takes a number of
blocks off the front of a message; `done` all the whole ones it has, and `carry` is what is
left over then.  A program that gets its message in pieces keeps the carry, and `done_append`
is what it needs to know: processing the blocks of the carry and the next piece together
brings it to where it would be had it seen both pieces at once.

`Undoes` is for two steps of which one undoes the other.
-/
import Mathlib.Data.List.Basic
import Mathlib.Data.Nat.Basic

namespace Blockwise

open List Nat

variable {σ α : Type*}

/-- The first `n` blocks of a message. -/
def run (step : σ → List α → σ × List α) (size : Nat) : Nat → σ → List α → σ × List α
  | 0, s, _ => (s, [])
  | n + 1, s, xs =>
    let next := step s (xs.take size)
    let rest := run step size n next.1 (xs.drop size)
    (rest.1, next.2 ++ rest.2)

/-- All whole blocks of a message. -/
def done (step : σ → List α → σ × List α) (size : Nat) (s : σ) (xs : List α) : σ × List α :=
  run step size (xs.length / size) s xs

/-- What the whole blocks leave. -/
def carry (size : Nat) (xs : List α) : List α := xs.drop (xs.length / size * size)

section

variable {step : σ → List α → σ × List α} {size : Nat}

@[simp] theorem run_zero (s : σ) (xs : List α) : run step size 0 s xs = (s, []) := rfl

theorem run_succ (n : Nat) (s : σ) (xs : List α) :
    run step size (n + 1) s xs =
      ((run step size n (step s (xs.take size)).1 (xs.drop size)).1,
        (step s (xs.take size)).2 ++
          (run step size n (step s (xs.take size)).1 (xs.drop size)).2) :=
  rfl

theorem run_add (m n : Nat) (s : σ) (xs : List α) :
    run step size (m + n) s xs =
      ((run step size n (run step size m s xs).1 (xs.drop (m * size))).1,
        (run step size m s xs).2 ++
          (run step size n (run step size m s xs).1 (xs.drop (m * size))).2) := by
  induction m generalizing s xs with
  | zero => simp
  | succ m ih =>
      rw [succ_add, run_succ, ih, run_succ, drop_drop, succ_mul, Nat.add_comm size,
        List.append_assoc]

/-- What is behind the blocks does not matter. -/
theorem run_append {n : Nat} {xs : List α} (h : n * size ≤ xs.length) (s : σ) (ys : List α) :
    run step size n s (xs ++ ys) = run step size n s xs := by
  induction n generalizing s xs with
  | zero => rfl
  | succ n ih =>
      rw [succ_mul] at h
      have htake : (xs ++ ys).take size = xs.take size := take_append_of_le_length (by omega)
      have hdrop : (xs ++ ys).drop size = xs.drop size ++ ys :=
        drop_append_of_le_length (by omega)
      rw [run_succ, run_succ, htake, hdrop, ih (by rw [length_drop]; omega)]

/-- A step that makes a block of a block, in every state that has `P`. -/
structure Keeps (step : σ → List α → σ × List α) (size : Nat) (P : σ → Prop) : Prop where
  length : ∀ s b, P s → b.length = size → (step s b).2.length = size
  keeps : ∀ s b, P s → b.length = size → P (step s b).1

theorem Keeps.run {P : σ → Prop} (h : Keeps step size P) {n : Nat} {xs : List α}
    (hxs : n * size ≤ xs.length) {s : σ} (hs : P s) :
    P (Blockwise.run step size n s xs).1 ∧
      (Blockwise.run step size n s xs).2.length = n * size := by
  induction n generalizing s xs with
  | zero => exact ⟨hs, by simp⟩
  | succ n ih =>
      rw [succ_mul] at hxs
      have hblock : (xs.take size).length = size := by
        rw [length_take]
        omega
      have hrest : n * size ≤ (xs.drop size).length := by
        rw [length_drop]
        omega
      obtain ⟨hP, hlen⟩ := ih hrest (h.keeps s _ hs hblock)
      rw [run_succ]
      refine ⟨hP, ?_⟩
      rw [length_append, h.length s _ hs hblock, hlen, succ_mul, Nat.add_comm]

/-! ### Pieces -/

theorem carry_length_lt (hsize : 0 < size) (xs : List α) : (carry size xs).length < size := by
  unfold carry
  rw [length_drop, Nat.mul_comm]
  have h1 := div_add_mod xs.length size
  have h2 := mod_lt xs.length hsize
  omega

theorem carry_length (xs : List α) : (carry size xs).length = xs.length % size := by
  unfold carry
  rw [length_drop, Nat.mul_comm]
  have := div_add_mod xs.length size
  omega

@[simp] theorem carry_nil : carry size ([] : List α) = [] := by
  simp [carry]

@[simp] theorem done_nil (s : σ) : done step size s [] = (s, []) := by
  simp [done]

section

variable (hsize : 0 < size)
include hsize

/-- The whole blocks of two pieces are those of the first and those of its carry and the
second. -/
theorem length_append_div (xs ys : List α) :
    (xs ++ ys).length / size =
      xs.length / size + ((carry size xs).length + ys.length) / size := by
  have h := div_add_mod xs.length size
  rw [carry_length, length_append]
  calc (xs.length + ys.length) / size
      = (size * (xs.length / size) + (xs.length % size + ys.length)) / size := by
        rw [← Nat.add_assoc, h]
    _ = xs.length / size + (xs.length % size + ys.length) / size := mul_add_div hsize _ _

theorem carry_append (xs ys : List α) :
    carry size (xs ++ ys) =
      (carry size xs ++ ys).drop (((carry size xs).length + ys.length) / size * size) := by
  have hle : xs.length / size * size ≤ xs.length := div_mul_le_self _ _
  have hfront : (xs ++ ys).drop (xs.length / size * size) = carry size xs ++ ys :=
    drop_append_of_le_length hle
  rw [← hfront, drop_drop, ← Nat.add_mul, ← length_append_div hsize]
  rfl

theorem done_append (s : σ) (xs ys : List α) :
    done step size s (xs ++ ys) =
      ((run step size (((carry size xs).length + ys.length) / size) (done step size s xs).1
          (carry size xs ++ ys)).1,
        (done step size s xs).2 ++
          (run step size (((carry size xs).length + ys.length) / size) (done step size s xs).1
            (carry size xs ++ ys)).2) := by
  have hle : xs.length / size * size ≤ xs.length := div_mul_le_self _ _
  have hfront : (xs ++ ys).drop (xs.length / size * size) = carry size xs ++ ys :=
    drop_append_of_le_length hle
  unfold done
  rw [length_append_div hsize, run_add, run_append hle, hfront]

/-- What a program that keeps the carry does with the next piece: it processes the two of them as a
message of its own. -/
theorem done_carry_append (s : σ) (xs ys : List α) :
    done step size s (xs ++ ys) =
      ((done step size (done step size s xs).1 (carry size xs ++ ys)).1,
        (done step size s xs).2 ++
          (done step size (done step size s xs).1 (carry size xs ++ ys)).2) := by
  rw [done_append hsize, ← length_append]
  rfl

theorem carry_carry_append (xs ys : List α) :
    carry size (xs ++ ys) = carry size (carry size xs ++ ys) := by
  rw [carry_append hsize, ← length_append]
  rfl

end

/-- A message of whole blocks is processed to its end. -/
theorem carry_eq_nil {xs : List α} (h : size ∣ xs.length) : carry size xs = [] := by
  unfold carry
  rw [Nat.div_mul_cancel h, drop_length]

end

/-! ### Undoing -/

/-- One step undoes another: it goes through the same states, and gives the blocks back. -/
structure Undoes (step back : σ → List α → σ × List α) (size : Nat) (P : σ → Prop) : Prop
    extends Keeps step size P where
  back : ∀ s b, P s → b.length = size → back s (step s b).2 = ((step s b).1, b)

section

variable {step back : σ → List α → σ × List α} {size : Nat} {P : σ → Prop}
  (h : Undoes step back size P)
include h

theorem Undoes.run {n : Nat} {xs : List α} (hxs : n * size ≤ xs.length) {s : σ} (hs : P s) :
    Blockwise.run back size n s (Blockwise.run step size n s xs).2 =
      ((Blockwise.run step size n s xs).1, xs.take (n * size)) := by
  induction n generalizing s xs with
  | zero => simp
  | succ n ih =>
      rw [succ_mul] at hxs
      have hblock : (xs.take size).length = size := by
        rw [length_take]
        omega
      have hlen := h.length s _ hs hblock
      have hback := h.back s _ hs hblock
      rw [run_succ, run_succ]
      simp only
      rw [take_left' hlen, drop_left' hlen, hback]
      simp only
      rw [ih (by rw [length_drop]; omega) (h.keeps s _ hs hblock), succ_mul,
        Nat.add_comm, take_add]

/-- Any front of what a step has made is undone to a front of what it was made of. -/
theorem Undoes.done {xs a b : List α} {s : σ} (hs : P s)
    (heq : (Blockwise.done step size s xs).2 = a ++ b) :
    (Blockwise.done back size s a).2 = xs.take (a.length / size * size) := by
  have htotal := (h.toKeeps.run (div_mul_le_self xs.length size) hs).2
  unfold Blockwise.done at heq
  rw [heq, length_append] at htotal
  -- the front is no longer than the whole
  have hfront : a.length / size ≤ xs.length / size := by
    rcases Nat.eq_zero_or_pos size with hzero | hpos
    · rw [hzero, Nat.div_zero, Nat.div_zero]
    · rw [← Nat.mul_div_cancel (xs.length / size) hpos]
      exact Nat.div_le_div_right (by omega)
  obtain ⟨r, hr⟩ := Nat.le.dest hfront
  have hle : a.length / size * size ≤ a.length := div_mul_le_self _ _
  have hxs : a.length / size * size ≤ xs.length :=
    Nat.le_trans (Nat.mul_le_mul_right size hfront) (div_mul_le_self _ _)
  have hlen := (h.toKeeps.run hxs hs).2
  rw [← hr, run_add] at heq
  have htake : a.take (a.length / size * size) =
      (Blockwise.run step size (a.length / size) s xs).2 := by
    have hab : a.take (a.length / size * size) = (a ++ b).take (a.length / size * size) :=
      (take_append_of_le_length hle).symm
    rw [hab, ← heq]
    exact take_left' hlen
  have hback := h.run hxs hs
  rw [← htake] at hback
  have hwhole : a.length / size * size ≤ (a.take (a.length / size * size)).length := by
    rw [length_take]
    omega
  unfold Blockwise.done
  calc (Blockwise.run back size (a.length / size) s a).2
      = (Blockwise.run back size (a.length / size) s (a.take (a.length / size * size) ++
          a.drop (a.length / size * size))).2 := by
        rw [take_append_drop]
    _ = (Blockwise.run back size (a.length / size) s (a.take (a.length / size * size))).2 := by
        rw [run_append hwhole]
    _ = xs.take (a.length / size * size) := by
        rw [hback]

end

end Blockwise

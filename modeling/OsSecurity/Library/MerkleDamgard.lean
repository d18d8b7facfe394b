/-
Hashing by iteration.

A message is padded to whole blocks, with a one, zeros and a field that says how long it is,
and a compression function takes the state from block to block.  `chain` is the iteration and
`pad` the padding.  A program that has compressed the whole blocks of a message has what
`chain_pad` needs left to do: the blocks of what remains, padded as if it were the message but
for the field.  There is one such block (`pad_fits`) or there are two (`pad_spills`).
-/
import OsSecurity.Library.Blockwise
import Mathlib.Tactic.Ring

namespace MerkleDamgard

open Blockwise List Nat

variable {σ α : Type*}

/-- A compression function as a step that outputs nothing. -/
def step (compress : σ → List α → σ) (s : σ) (b : List α) : σ × List α := (compress s b, [])

/-- The state after the whole blocks of a message. -/
def chain (compress : σ → List α → σ) (size : Nat) (s : σ) (xs : List α) : σ :=
  (Blockwise.done (step compress) size s xs).1

/-- The number of zeros. -/
def zeros (size field length : Nat) : Nat := (size - (length + 1 + field) % size) % size

/-- What is put behind a message of this length. -/
def padding (one zero : α) (size : Nat) (field : List α) (length : Nat) : List α :=
  one :: (replicate (zeros size field.length length) zero ++ field)

def pad (one zero : α) (size : Nat) (field xs : List α) : List α :=
  xs ++ padding one zero size field xs.length

section

variable {compress : σ → List α → σ} {size : Nat} {one zero : α} {field xs : List α}

theorem chain_append (hsize : 0 < size) (s : σ) (xs ys : List α) :
    chain compress size s (xs ++ ys) =
      (Blockwise.run (step compress) size (((carry size xs).length + ys.length) / size)
        (chain compress size s xs) (carry size xs ++ ys)).1 := by
  unfold chain
  rw [done_append hsize]

/-- The zeros depend on the length only as far as it is over whole blocks. -/
theorem zeros_mod (f n : Nat) : zeros size f (n % size) = zeros size f n := by
  have hmod : (n % size + 1 + f) % size = (n + 1 + f) % size := by
    rw [Nat.add_assoc, Nat.add_assoc, mod_add_mod]
  unfold zeros
  rw [hmod]

/-- The padding of the whole message closes the blocks that remain. -/
theorem chain_pad (hsize : 0 < size) (s : σ) (xs : List α) :
    chain compress size s (pad one zero size field xs) =
      (Blockwise.run (step compress) size
        ((pad one zero size field (carry size xs)).length / size)
        (chain compress size s xs) (pad one zero size field (carry size xs))).1 := by
  have hpadding : padding one zero size field xs.length =
      padding one zero size field (carry size xs).length := by
    unfold padding
    rw [carry_length, zeros_mod]
  unfold pad
  rw [chain_append hsize, hpadding, length_append]

theorem run_one {b : List α} (hb : b.length = size) (s : σ) :
    (Blockwise.run (step compress) size 1 s b).1 = compress s b := by
  show compress s (b.take size) = compress s b
  rw [take_of_length_le (le_of_eq hb)]

theorem run_two {a b : List α} (ha : a.length = size) (hb : b.length = size) (s : σ) :
    (Blockwise.run (step compress) size 2 s (a ++ b)).1 = compress (compress s a) b := by
  show compress (compress s ((a ++ b).take size)) (((a ++ b).drop size).take size) = _
  rw [take_left' ha, drop_left' ha, take_of_length_le (le_of_eq hb)]

/-- One block is left, if the one and the field still fit in. -/
theorem chain_pad_fits (hsize : 0 < size) (s : σ) {c : List α}
    (hc : carry size xs = c) (h : c.length + 1 + field.length ≤ size) :
    chain compress size s (pad one zero size field xs) = compress (chain compress size s xs)
      ((c ++ [one] ++ replicate (size - (c.length + 1 + field.length)) zero) ++ field) := by
  have hzeros : zeros size field.length c.length = size - (c.length + 1 + field.length) := by
    unfold zeros
    rcases Nat.lt_or_eq_of_le h with hlt | heq
    · rw [mod_eq_of_lt hlt, mod_eq_of_lt (by omega)]
    · rw [heq, mod_self, Nat.sub_zero, mod_self, Nat.sub_self]
  have hpad : pad one zero size field c =
      (c ++ [one] ++ replicate (size - (c.length + 1 + field.length)) zero) ++ field := by
    unfold pad padding
    rw [hzeros]
    simp only [List.append_assoc, cons_append, nil_append]
  have hlen : ((c ++ [one] ++ replicate (size - (c.length + 1 + field.length)) zero) ++
      field).length = size := by
    simp only [length_append, length_singleton, length_replicate]
    omega
  rw [chain_pad hsize, hc, hpad, hlen, Nat.div_self hsize, run_one hlen]

/-- Otherwise a block of zeros that ends in the field follows. -/
theorem chain_pad_spills (hsize : 0 < size) (s : σ) {c : List α}
    (hc : carry size xs = c) (h : size < c.length + 1 + field.length)
    (hfield : field.length < size) :
    chain compress size s (pad one zero size field xs) =
      compress (compress (chain compress size s xs)
          (c ++ [one] ++ replicate (size - (c.length + 1)) zero))
        (replicate (size - field.length) zero ++ field) := by
  have hlt : c.length < size := by
    rw [← hc]
    exact carry_length_lt hsize xs
  have hzeros : zeros size field.length c.length =
      size - (c.length + 1) + (size - field.length) := by
    have hmod : (c.length + 1 + field.length) % size = c.length + 1 + field.length - size := by
      rw [mod_eq_sub_mod (by omega), mod_eq_of_lt (by omega)]
    unfold zeros
    rw [hmod, mod_eq_of_lt (by omega)]
    omega
  have hpad : pad one zero size field c =
      (c ++ [one] ++ replicate (size - (c.length + 1)) zero) ++
        (replicate (size - field.length) zero ++ field) := by
    unfold pad padding
    rw [hzeros, replicate_add]
    simp only [List.append_assoc, cons_append, nil_append]
  have hfirst : (c ++ [one] ++ replicate (size - (c.length + 1)) zero).length = size := by
    simp only [length_append, length_singleton, length_replicate]
    omega
  have hsecond : (replicate (size - field.length) zero ++ field).length = size := by
    rw [length_append, length_replicate]
    omega
  have htwo : (size + size) / size = 2 := by
    rw [← Nat.two_mul, Nat.mul_div_cancel _ hsize]
  rw [chain_pad hsize, hc, hpad, length_append, hfirst, hsecond, htwo, run_two hfirst hsecond]

/-- In any case the field ends the last block. -/
theorem chain_pad_last (hsize : 0 < size) (hfield : field.length < size) (s : σ) (xs : List α) :
    ∃ s' zs, zs.length + field.length = size ∧
      chain compress size s (pad one zero size field xs) = compress s' (zs ++ field) := by
  have hlt := carry_length_lt hsize xs
  by_cases hfits : (carry size xs).length + 1 + field.length ≤ size
  · refine ⟨_, _, ?_, chain_pad_fits hsize s rfl hfits⟩
    simp only [length_append, length_singleton, length_replicate]
    omega
  · refine ⟨_, _, ?_, chain_pad_spills hsize s rfl (by omega) hfield⟩
    rw [length_replicate]
    omega

end

end MerkleDamgard

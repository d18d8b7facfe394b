/-
Modes of operation of a block cipher.

A mode makes a cipher on messages of a permutation of blocks.  Electronic codebook encrypts
every block by itself; cipher block chaining combines it with the ciphertext before it first,
or the initialization vector if it is the first one.  `ecb` and `cbc` are the modes as they
are defined, on the list of a message's blocks; `ecbStep` and `cbcStep` are their steps, with
the last ciphertext as the state, and `run_ecbStep` and `run_cbcStep` say that going through a
message step by step gives the mode.
-/
import OsSecurity.Library.Blockwise

namespace BlockModes

open Blockwise

variable {α : Type*}

/-- The first `n` blocks of a message. -/
def blocks (size : Nat) : Nat → List α → List (List α)
  | 0, _ => []
  | n + 1, xs => xs.take size :: blocks size n (xs.drop size)

def ecb (E : List α → List α) (bs : List (List α)) : List (List α) := bs.map E

def cbc (E : List α → List α) (combine : List α → List α → List α) :
    List α → List (List α) → List (List α)
  | _, [] => []
  | iv, b :: bs => E (combine b iv) :: cbc E combine (E (combine b iv)) bs

/-! ### Steps -/

def ecbStep (E : List α → List α) (iv b : List α) : List α × List α := (iv, E b)

def cbcStep (E : List α → List α) (combine : List α → List α → List α) (iv b : List α) :
    List α × List α :=
  (E (combine b iv), E (combine b iv))

/-- The step that decrypts. -/
def cbcBack (D : List α → List α) (combine : List α → List α → List α) (iv c : List α) :
    List α × List α :=
  (c, combine (D c) iv)

section

variable {E D : List α → List α} {combine : List α → List α → List α} {size : Nat}

theorem run_ecbStep (n : Nat) (iv xs : List α) :
    (Blockwise.run (ecbStep E) size n iv xs).2 = (ecb E (blocks size n xs)).flatten := by
  induction n generalizing xs with
  | zero => rfl
  | succ n ih =>
      rw [run_succ]
      show E (xs.take size) ++ (Blockwise.run (ecbStep E) size n iv (xs.drop size)).2 = _
      rw [ih]
      rfl

theorem run_cbcStep (n : Nat) (iv xs : List α) :
    (Blockwise.run (cbcStep E combine) size n iv xs).2 =
      (cbc E combine iv (blocks size n xs)).flatten := by
  induction n generalizing iv xs with
  | zero => rfl
  | succ n ih =>
      rw [run_succ]
      show E (combine (xs.take size) iv) ++ (Blockwise.run (cbcStep E combine) size n
        (E (combine (xs.take size) iv)) (xs.drop size)).2 = _
      rw [ih]
      rfl

/-! ### A block for a block -/

/-- What the permutation keeps, the steps keep. -/
theorem keeps_ecbStep {P : List α → Prop} (hE : ∀ b, b.length = size → (E b).length = size) :
    Blockwise.Keeps (ecbStep E) size P where
  length := by
    intro s b _ hb
    exact hE b hb
  keeps := by
    intro s b hs _
    exact hs

theorem keeps_cbcStep (hE : ∀ b, b.length = size → (E b).length = size)
    (hcombine : ∀ b c, b.length = size → c.length = size → (combine b c).length = size) :
    Blockwise.Keeps (cbcStep E combine) size (fun iv => iv.length = size) where
  length := by
    intro s b hs hb
    exact hE _ (hcombine b s hb hs)
  keeps := by
    intro s b hs hb
    exact hE _ (hcombine b s hb hs)

/-! ### Decrypting -/

theorem undoes_ecbStep {P : List α → Prop} (hE : ∀ b, b.length = size → (E b).length = size)
    (hD : ∀ b, b.length = size → D (E b) = b) :
    Undoes (ecbStep E) (ecbStep D) size P where
  toKeeps := keeps_ecbStep hE
  back := by
    intro s b _ hb
    show (s, D (E b)) = (s, b)
    rw [hD b hb]

theorem undoes_cbcStep (hE : ∀ b, b.length = size → (E b).length = size)
    (hD : ∀ b, b.length = size → D (E b) = b)
    (hcombine : ∀ b c, b.length = size → c.length = size → (combine b c).length = size)
    (hcancel : ∀ b c, b.length = size → c.length = size → combine (combine b c) c = b) :
    Undoes (cbcStep E combine) (cbcBack D combine) size
      (fun iv => iv.length = size) where
  toKeeps := keeps_cbcStep hE hcombine
  back := by
    intro s b hs hb
    show (E (combine b s), combine (D (E (combine b s))) s) = (E (combine b s), b)
    rw [hD _ (hcombine b s hb hs), hcancel b s hb hs]

end

/-! ### Counter mode -/

/-- The key stream of `n` blocks, made of the counter from `c` on. -/
def keystream (E : List α → List α) (counter : Nat → List α) : Nat → Nat → List α
  | _, 0 => []
  | c, n + 1 => E (counter c) ++ keystream E counter (c + 1) n

/-- The step, with the counter as the state. -/
def ctrStep (next E : List α → List α) (f : α → α → α) (s b : List α) : List α × List α :=
  (next s, List.zipWith f (E s) b)

section

variable {E next : List α → List α} {counter : Nat → List α} {size : Nat}

theorem keystream_length (hE : ∀ c, (E (counter c)).length = size) (c n : Nat) :
    (keystream E counter c n).length = n * size := by
  induction n generalizing c with
  | zero => simp [keystream]
  | succ n ih => rw [keystream, List.length_append, hE, ih, Nat.succ_mul, Nat.add_comm]

theorem keystream_add (c m n : Nat) : keystream E counter c (m + n) =
    keystream E counter c m ++ keystream E counter (c + m) n := by
  induction m generalizing c with
  | zero => simp [keystream]
  | succ m ih =>
      have hnext : c + 1 + m = c + (m + 1) := by omega
      rw [Nat.succ_add, keystream, ih, keystream, List.append_assoc, hnext]

theorem run_ctrStep {f : α → α → α} (hE : ∀ c, (E (counter c)).length = size)
    (hnext : ∀ c, next (counter c) = counter (c + 1)) {n : Nat} {xs : List α}
    (hxs : xs.length = n * size) (c : Nat) :
    Blockwise.run (ctrStep next E f) size n (counter c) xs =
      (counter (c + n), List.zipWith f (keystream E counter c n) xs) := by
  induction n generalizing c xs with
  | zero => simp [keystream]
  | succ n ih =>
      rw [Nat.succ_mul] at hxs
      have hrest : (xs.drop size).length = n * size := by
        rw [List.length_drop]
        omega
      have hblock : (E (counter c)).length = (xs.take size).length := by
        rw [hE, List.length_take]
        omega
      have hnum : c + 1 + n = c + (n + 1) := by omega
      rw [run_succ]
      show ((Blockwise.run (ctrStep next E f) size n (next (counter c)) (xs.drop size)).1,
        List.zipWith f (E (counter c)) (xs.take size) ++
          (Blockwise.run (ctrStep next E f) size n (next (counter c)) (xs.drop size)).2) = _
      rw [hnext, ih hrest, hnum, keystream, ← List.zipWith_append hblock, List.take_append_drop]

end

end BlockModes

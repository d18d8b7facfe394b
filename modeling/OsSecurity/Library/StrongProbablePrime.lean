/-
The strong test on a prime.

If `p - 1` is `2 ^ s * r`, then the power `b ^ r` is one, or it is minus one when it has been
squared fewer than `s` times: squared `s` times it is one, and one has no other square roots
modulo a prime.
-/
import Mathlib.FieldTheory.Finite.Basic

namespace StrongProbablePrime

open Nat

variable {p b s r : Nat}

/-- `b ^ r` when it has been squared `j` times. -/
def squared (p b r j : Nat) : Nat := b ^ (2 ^ j * r) % p

theorem squared_succ (j : Nat) : squared p b r (j + 1) = squared p b r j ^ 2 % p := by
  unfold squared
  rw [← pow_mod, ← pow_mul, pow_succ]
  congr 2
  ring

theorem squared_cast (j : Nat) : (squared p b r j : ZMod p) = (b : ZMod p) ^ (2 ^ j * r) := by
  unfold squared
  rw [ZMod.natCast_mod, cast_pow]

/-- A residue is that of one, or of minus one. -/
theorem eq_of_cast {n : Nat} (hn : n < p) (m : Nat) (hm : m < p)
    (h : (n : ZMod p) = m) : n = m := by
  have hmod := (ZMod.natCast_eq_natCast_iff' n m p).mp h
  rwa [mod_eq_of_lt hn, mod_eq_of_lt hm] at hmod

theorem squared_lt (hp : p.Prime) (j : Nat) : squared p b r j < p := mod_lt _ hp.pos

/-- **A prime passes the strong test**, to every base that it does not divide. -/
theorem passes (hp : p.Prime) (hb : ¬p ∣ b) (hs : p - 1 = 2 ^ s * r) :
    squared p b r 0 = 1 ∨ ∃ j < s, squared p b r j = p - 1 := by
  have hfact : Fact p.Prime := ⟨hp⟩
  have hone := hp.one_lt
  have hfermat : squared p b r s = 1 := by
    apply eq_of_cast (squared_lt hp s) 1 hone
    rw [squared_cast, ← hs, cast_one]
    exact ZMod.pow_card_sub_one_eq_one (mt (ZMod.natCast_eq_zero_iff b p).mp hb)
  by_contra hnot
  push Not at hnot
  obtain ⟨hfirst, hnone⟩ := hnot
  -- back from the last power, each is one
  have hback : ∀ k ≤ s, squared p b r (s - k) = 1 := by
    intro k
    induction k with
    | zero => exact fun _ => hfermat
    | succ k ih =>
      intro hk
      have hnext := ih (by omega)
      have hsucc : s - k = s - (k + 1) + 1 := by omega
      rw [hsucc, squared_succ] at hnext
      have hroot : (squared p b r (s - (k + 1)) : ZMod p) ^ 2 = 1 := by
        rw [← cast_pow, ← ZMod.natCast_mod, hnext, cast_one]
      rcases sq_eq_one_iff.mp hroot with h | h
      · exact eq_of_cast (squared_lt hp _) 1 hone (by rw [h, cast_one])
      · refine absurd ?_ (hnone (s - (k + 1)) (by omega))
        apply eq_of_cast (squared_lt hp _) (p - 1) (by omega)
        rw [h, cast_sub hone.le, ZMod.natCast_self, cast_one, zero_sub]
  have hzero := hback s (Nat.le_refl s)
  rw [Nat.sub_self] at hzero
  exact hfirst hzero

end StrongProbablePrime

/-
Places counted with marks between them, and without.

Every `size` places of a sequence are followed by a mark that takes `mark` more.  `strip` forgets
the marks before a place, and `pad` puts them back.  A place inside a mark is not one that `pad`
comes back to: it comes back a mark later.
-/
import Mathlib.Data.Nat.Basic

namespace Anchors

open Nat

variable (size mark : Nat)

def strip (a : Nat) : Nat := a - mark * (a / (size + mark))

def pad (o : Nat) : Nat := o + mark * (o / size)

variable {size mark}

theorem strip_at {k m : Nat} (hm : m < size + mark) :
    strip size mark ((size + mark) * k + m) = size * k + m := by
  have hdiv : ((size + mark) * k + m) / (size + mark) = k := by
    rw [mul_add_div (by omega), div_eq_of_lt hm, Nat.add_zero]
  unfold strip
  rw [hdiv, Nat.add_mul]
  omega

theorem pad_at {k m : Nat} (hm : m < size) :
    pad size mark (size * k + m) = (size + mark) * k + m := by
  have hdiv : (size * k + m) / size = k := by
    rw [mul_add_div (by omega), div_eq_of_lt hm, Nat.add_zero]
  unfold pad
  rw [hdiv, Nat.add_mul]
  omega

theorem strip_eq (hsize : 0 < size) (a : Nat) :
    strip size mark a = size * (a / (size + mark)) + a % (size + mark) := by
  have hlt : a % (size + mark) < size + mark := mod_lt _ (by omega)
  have hstrip := strip_at (k := a / (size + mark)) hlt
  rwa [div_add_mod] at hstrip

/-- A place outside the marks is come back to. -/
theorem pad_strip {a : Nat} (h : a % (size + mark) < size) :
    pad size mark (strip size mark a) = a := by
  rw [strip_eq (by omega), pad_at h, div_add_mod]

/-- A place inside a mark is come back to a mark later. -/
theorem pad_strip_of_le {a : Nat} (hsize : 0 < size) (hmark : mark ≤ size)
    (h : size ≤ a % (size + mark)) : pad size mark (strip size mark a) = a + mark := by
  have hlt : a % (size + mark) < size + mark := mod_lt _ (by omega)
  have hnext : size * (a / (size + mark)) + a % (size + mark) =
      size * (a / (size + mark) + 1) + (a % (size + mark) - size) := by
    rw [Nat.mul_add]
    omega
  have ha := div_add_mod a (size + mark)
  rw [strip_eq hsize, hnext, pad_at (by omega), Nat.mul_add]
  omega

theorem strip_le (a : Nat) : strip size mark a ≤ a := sub_le _ _

/-- Outside the marks, the places to the next mark are counted alike. -/
theorem strip_mod {a : Nat} (h : a % (size + mark) < size) :
    strip size mark a % size = a % (size + mark) := by
  rw [strip_eq (by omega), mul_add_mod, mod_eq_of_lt h]

theorem strip_mod_of_le {a : Nat} (hsize : 0 < size) (hmark : mark ≤ size)
    (h : size ≤ a % (size + mark)) : strip size mark a % size = a % (size + mark) - size := by
  have hlt : a % (size + mark) < size + mark := mod_lt _ (by omega)
  rw [strip_eq hsize, mul_add_mod, mod_eq_sub_mod h, mod_eq_of_lt (by omega)]

end Anchors

/-
The canonical form of an element.

DER allows one encoding of each value: a tag below 31 in one octet, the length in one
octet when it is below 128 and otherwise in the fewest octets that hold it, most
significant first, behind an octet that counts them.  A decoder that accepts more is
measured against this.

Nothing here belongs to one decoder.  `octets_succ` is the recursion a decoder's own
loop over the length octets follows, and `octets_length_le` is what bounds it.
-/
import Mathlib.Data.Nat.Digits.Lemmas
import Mathlib.Tactic.Ring

namespace Der

open List Nat

/-- A number in base 256, most significant octet first, without leading zeros. -/
def octets (n : Nat) : List UInt8 := ((digits 256 n).map toUInt8).reverse

@[simp] theorem octets_zero : octets 0 = [] := by
  simp [octets]

theorem octets_succ {n : Nat} (h : 0 < n) : octets n = octets (n / 256) ++ [(n % 256).toUInt8] := by
  unfold octets
  rw [digits_def' (by omega) h, map_cons, reverse_cons]

theorem octets_length_le {n k : Nat} (h : n < 256 ^ k) : (octets n).length ≤ k := by
  unfold octets
  rw [length_reverse, length_map]
  exact (digits_length_le_iff (by omega) n).mpr h

theorem octets_length_pos {n : Nat} (h : 0 < n) : 0 < (octets n).length := by
  rw [octets_succ h, length_append, length_singleton]
  omega

/-- The number that octets stand for, most significant first. -/
def value (bs : List UInt8) : Nat := bs.foldl (fun n b => n * 256 + b.toNat) 0

private theorem foldl_value (n : Nat) (bs : List UInt8) :
    bs.foldl (fun n b => n * 256 + b.toNat) n = n * 256 ^ bs.length + value bs := by
  unfold value
  induction bs generalizing n with
  | nil => simp
  | cons b bs ih =>
      rw [foldl_cons, foldl_cons, ih, ih (0 * 256 + b.toNat), length_cons, pow_succ]
      ring

theorem value_cons (b : UInt8) (bs : List UInt8) :
    value (b :: bs) = b.toNat * 256 ^ bs.length + value bs := by
  show bs.foldl (fun n b => n * 256 + b.toNat) (0 * 256 + b.toNat) = _
  rw [foldl_value, Nat.zero_mul, Nat.zero_add]

theorem value_concat (bs : List UInt8) (b : UInt8) :
    value (bs ++ [b]) = value bs * 256 + b.toNat := by
  simp [value]

theorem value_append (xs ys : List UInt8) :
    value (xs ++ ys) = value xs * 256 ^ ys.length + value ys := by
  unfold value
  rw [foldl_append, foldl_value]
  rfl

theorem value_octets (n : Nat) : value (octets n) = n := by
  induction n using Nat.strongRecOn with
  | _ n ih =>
      rcases Nat.eq_zero_or_pos n with h0 | hpos
      · rw [h0, octets_zero]
        rfl
      · have hlow : ((n % 256).toUInt8).toNat = n % 256 := by simp
        rw [octets_succ hpos, value_concat, ih (n / 256) (by omega), hlow]
        omega

/-- Octets without a leading zero are those of their number. -/
theorem octets_value {bs : List UInt8} (h : bs.head? ≠ some 0) : octets (value bs) = bs := by
  induction bs using reverseRecOn with
  | nil => exact octets_zero
  | append_singleton bs b ih =>
      have hb : b.toNat < 256 := b.toNat_lt
      have hdiv : (value bs * 256 + b.toNat) / 256 = value bs := by omega
      have hmod : (value bs * 256 + b.toNat) % 256 = b.toNat := by omega
      have hbs : octets (value bs) = bs := by
        apply ih
        intro hzero
        cases bs with
        | nil => cases hzero
        | cons x bs => exact h hzero
      have hpos : 0 < value bs * 256 + b.toNat := by
        rcases Nat.eq_zero_or_pos (value bs * 256 + b.toNat) with hzero | hpos
        · exfalso
          have hnil : bs = [] := by
            rw [← hbs, show value bs = 0 by omega, octets_zero]
          have hlast : b = 0 := UInt8.toNat_inj.mp (show b.toNat = 0 by omega)
          rw [hnil, hlast] at h
          exact h rfl
        · exact hpos
      rw [value_concat, octets_succ hpos, hdiv, hmod, hbs, toUInt8_eq, UInt8.ofNat_toNat]

theorem value_lt (bs : List UInt8) : value bs < 256 ^ bs.length := by
  induction bs with
  | nil => exact Nat.one_pos
  | cons b bs ih =>
      have hb : b.toNat < 256 := b.toNat_lt
      rw [value_cons, length_cons, pow_succ']
      calc b.toNat * 256 ^ bs.length + value bs
          < b.toNat * 256 ^ bs.length + 256 ^ bs.length := Nat.add_lt_add_left ih _
        _ = (b.toNat + 1) * 256 ^ bs.length := by rw [succ_mul]
        _ ≤ 256 * 256 ^ bs.length := Nat.mul_le_mul_right _ hb

/-! ### A fixed number of octets -/

/-- A number in `n` octets, most significant first; what they do not hold is cut off. -/
def fixed : Nat → Nat → List UInt8
  | 0, _ => []
  | n + 1, v => fixed n (v / 256) ++ [(v % 256).toUInt8]

@[simp] theorem fixed_length (n v : Nat) : (fixed n v).length = n := by
  induction n generalizing v with
  | zero => rfl
  | succ n ih => rw [fixed, length_append, ih, length_singleton]

theorem value_fixed (n v : Nat) : value (fixed n v) = v % 256 ^ n := by
  induction n generalizing v with
  | zero => rw [pow_zero, mod_one]; rfl
  | succ n ih =>
      have hlow : ((v % 256).toUInt8).toNat = v % 256 := by simp
      rw [fixed, value_concat, ih, hlow, pow_succ', mod_mul, Nat.mul_comm, Nat.add_comm]

/-- The octets of a number are those of its high part and those of its low part. -/
theorem fixed_add (m n v : Nat) : fixed (m + n) v = fixed m (v / 256 ^ n) ++ fixed n v := by
  induction n generalizing v with
  | zero => simp [fixed]
  | succ n ih =>
      rw [← Nat.add_assoc, fixed, ih, fixed, pow_succ', Nat.div_div_eq_div_mul, List.append_assoc]

/-- Octets are the number they stand for. -/
theorem fixed_value (bs : List UInt8) : fixed bs.length (value bs) = bs := by
  induction bs using reverseRecOn with
  | nil => rfl
  | append_singleton bs b ih =>
      have hb : b.toNat < 256 := b.toNat_lt
      have hdiv : (value bs * 256 + b.toNat) / 256 = value bs := by omega
      have hmod : (value bs * 256 + b.toNat) % 256 = b.toNat := by omega
      rw [value_concat, length_append, length_singleton, fixed, hdiv, hmod, ih,
        toUInt8_eq, UInt8.ofNat_toNat]

theorem fixed_mod (n v : Nat) : fixed n (v % 256 ^ n) = fixed n v := by
  induction n generalizing v with
  | zero => rfl
  | succ n ih =>
      have hlow : v % 256 ^ (n + 1) % 256 = v % 256 :=
        mod_mod_of_dvd v (Dvd.intro_left (256 ^ n) rfl)
      have hhigh : v % 256 ^ (n + 1) / 256 = v / 256 % 256 ^ n := by
        rw [pow_succ', mod_mul_right_div_self]
      rw [fixed, fixed, hlow, hhigh, ih]

theorem value_zeroes_append (n : Nat) (bs : List UInt8) :
    value (replicate n 0 ++ bs) = value bs := by
  induction n with
  | zero => rfl
  | succ n ih =>
      rw [replicate_succ, cons_append, value_cons, ih]
      exact (congrArg (· + value bs) (Nat.zero_mul _)).trans (Nat.zero_add _)

theorem fixed_value_append (xs ys : List UInt8) : fixed ys.length (value (xs ++ ys)) = ys := by
  rw [value_append, ← fixed_mod, mul_add_mod_self_right, mod_eq_of_lt (value_lt ys)]
  exact fixed_value ys

/-- A fixed number of octets, when the number has more of them. -/
theorem fixed_eq_drop {n m : Nat} (h : n ≤ (octets m).length) :
    fixed n m = (octets m).drop ((octets m).length - n) := by
  have hdrop := fixed_value_append ((octets m).take ((octets m).length - n))
    ((octets m).drop ((octets m).length - n))
  rw [take_append_drop, value_octets, length_drop, Nat.sub_sub_self h] at hdrop
  exact hdrop

/-- A fixed number of octets, when the number has fewer of them. -/
theorem fixed_eq_zeroes {n m : Nat} (h : (octets m).length ≤ n) :
    fixed n m = replicate (n - (octets m).length) 0 ++ octets m := by
  have hlength : (replicate (n - (octets m).length) 0 ++ octets m).length = n := by
    rw [length_append, length_replicate]
    omega
  have hvalue : value (replicate (n - (octets m).length) 0 ++ octets m) = m := by
    rw [value_zeroes_append, value_octets]
  have hfixed := fixed_value (replicate (n - (octets m).length) 0 ++ octets m)
  rw [hlength, hvalue] at hfixed
  exact hfixed

/-- The length octets of contents of `n` octets. -/
def lengthOctets (n : Nat) : List UInt8 :=
  if n < 128 then [n.toUInt8] else (128 + (octets n).length).toUInt8 :: octets n

/-- A tag below 31, a length and the contents. -/
def element (tag : UInt8) (contents : List UInt8) : List UInt8 :=
  tag :: lengthOctets contents.length ++ contents

end Der

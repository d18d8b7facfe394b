/-
Products of two words by two: `AtomicMultiply` and `AtomicMultiplyAdd` of `algorithms.cpp`.

The middle of the product is made from the outer ones and one more multiplication,
`(A[1]-A[0])*(B[0]-B[1])`.  Where a difference wraps, the multiplication is too large by a
multiple of 2^32, which `s` takes off again one place higher (`cross_value`).
-/
import OsSecurity.Bigint.Words

namespace OsSecurity

/-- `d`: the table `D` at `di` and `di + 2`. -/
def crossProduct (A0 A1 B0 B1 : UInt32) : Nat :=
  if A1 < A0 ∧ B0 < B1 then (A0 - A1).toNat * (B1 - B0).toNat
  else (A1 - A0).toNat * (B0 - B1).toNat

/-- `s`: the table at `si`, with the zeros put in at 1 and 3. -/
def crossBorrow (A0 A1 B0 B1 : UInt32) : UInt32 :=
  if A1 < A0 then if B0 < B1 then 0 else B0 - B1
  else if B0 < B1 then A1 - A0 else 0

def AtomicMultiply (A0 A1 B0 B1 : UInt32) : Words :=
  let d := crossProduct A0 A1 B0 B1
  let s := crossBorrow A0 A1 B0 B1
  let A0B0 := A0.toNat * B0.toNat
  let A1B1 := A1.toNat * B1.toNat
  let t := dword ((HIGH_WORD A0B0).toNat + (LOW_WORD A0B0).toNat + (LOW_WORD d).toNat +
    (LOW_WORD A1B1).toNat)
  let u := dword (A1B1 + (HIGH_WORD t).toNat + (HIGH_WORD A0B0).toNat + (HIGH_WORD d).toNat +
    (HIGH_WORD A1B1).toNat - s.toNat)
  [LOW_WORD A0B0, LOW_WORD t, LOW_WORD u, HIGH_WORD u]

/-- The product is added to `C`, which has four words; the carry is left. -/
def AtomicMultiplyAdd (C0 C1 C2 C3 A0 A1 B0 B1 : UInt32) : Words × UInt32 :=
  let d := crossProduct A0 A1 B0 B1
  let s := crossBorrow A0 A1 B0 B1
  let A0B0 := A0.toNat * B0.toNat
  let A1B1 := A1.toNat * B1.toNat
  let t := dword (A0B0 + C0.toNat)
  let u := dword ((HIGH_WORD t).toNat + (LOW_WORD A0B0).toNat + (LOW_WORD d).toNat +
    (LOW_WORD A1B1).toNat + C1.toNat)
  let v := dword ((HIGH_WORD u).toNat + (LOW_WORD A1B1).toNat + (HIGH_WORD A0B0).toNat +
    (HIGH_WORD d).toNat + (HIGH_WORD A1B1).toNat - s.toNat + C2.toNat)
  let w := dword ((HIGH_WORD v).toNat + (HIGH_WORD A1B1).toNat + C3.toNat)
  ([LOW_WORD t, LOW_WORD u, LOW_WORD v, LOW_WORD w], HIGH_WORD w)

/-- The number in two words. -/
def value2 (A0 A1 : UInt32) : Nat := A0.toNat + 2 ^ 32 * A1.toNat

theorem value2_lt (A0 A1 : UInt32) : value2 A0 A1 < 2 ^ 64 := by
  have h0 := A0.toNat_lt
  have h1 := A1.toNat_lt
  unfold value2
  omega

theorem dword_of_range {x : Int} (h0 : 0 ≤ x) (h : x < 2 ^ 64) : (dword x : Int) = x := by
  rw [dword_cast, Int.emod_eq_of_lt h0 h]

/-- The two words of a double word. -/
theorem low_high {x : Nat} (h : x < 2 ^ 64) :
    (LOW_WORD x).toNat + 2 ^ 32 * (HIGH_WORD x).toNat = x := by
  rw [LOW_WORD_toNat, HIGH_WORD_toNat]
  omega

theorem word_mul_lt (a b : UInt32) : a.toNat * b.toNat ≤ (2 ^ 32 - 1) * (2 ^ 32 - 1) :=
  Nat.mul_le_mul (Nat.le_sub_one_of_lt a.toNat_lt) (Nat.le_sub_one_of_lt b.toNat_lt)

theorem word_sub_toNat (a b : UInt32) :
    ((a - b).toNat : Int) = a.toNat - b.toNat + if a < b then 2 ^ 32 else 0 := by
  have ha := a.toNat_lt
  have hb := b.toNat_lt
  have hsub : (a - b).toNat = (2 ^ 32 - b.toNat + a.toNat) % 2 ^ 32 := UInt32.toNat_sub a b
  have hlt : a < b ↔ a.toNat < b.toNat := UInt32.lt_iff_toNat_lt
  by_cases h : a < b
  · have h' := hlt.mp h
    rw [if_pos h]
    omega
  · have h' := mt hlt.mpr h
    rw [if_neg h]
    omega

/-- **The cross product.** -/
theorem cross_value (A0 A1 B0 B1 : UInt32) :
    (crossProduct A0 A1 B0 B1 : Int) - 2 ^ 32 * (crossBorrow A0 A1 B0 B1).toNat =
      ((A1.toNat : Int) - A0.toNat) * (B0.toNat - B1.toNat) := by
  have hA := word_sub_toNat A1 A0
  have hA' := word_sub_toNat A0 A1
  have hB := word_sub_toNat B0 B1
  have hB' := word_sub_toNat B1 B0
  unfold crossProduct crossBorrow
  by_cases ha : A1 < A0
  · have hna : ¬ A0 < A1 := UInt32.lt_asymm ha
    rw [if_pos ha] at hA
    rw [if_neg hna] at hA'
    by_cases hb : B0 < B1
    · have hnb : ¬ B1 < B0 := UInt32.lt_asymm hb
      rw [if_neg hnb] at hB'
      rw [if_pos ⟨ha, hb⟩, if_pos ha, if_pos hb]
      push_cast
      rw [hA', hB']
      ring
    · rw [if_neg hb] at hB
      rw [if_neg (fun h => hb h.2), if_pos ha, if_neg hb]
      push_cast
      rw [hA, hB]
      ring
  · rw [if_neg ha] at hA
    by_cases hb : B0 < B1
    · rw [if_pos hb] at hB
      rw [if_neg (fun h => ha h.1), if_neg ha, if_pos hb]
      push_cast
      rw [hA, hB]
      ring
    · rw [if_neg hb] at hB
      rw [if_neg (fun h => ha h.1), if_neg ha, if_neg hb]
      push_cast
      rw [hA, hB]
      ring

theorem crossProduct_lt (A0 A1 B0 B1 : UInt32) : crossProduct A0 A1 B0 B1 < 2 ^ 64 := by
  have h := word_mul_lt (A0 - A1) (B1 - B0)
  have h' := word_mul_lt (A1 - A0) (B0 - B1)
  unfold crossProduct
  by_cases hboth : A1 < A0 ∧ B0 < B1
  · rw [if_pos hboth]
    omega
  · rw [if_neg hboth]
    omega

/-- The product, from the two outer ones and the cross product. -/
theorem product_eq (A0 A1 B0 B1 : UInt32) :
    ((value2 A0 A1 * value2 B0 B1 : Nat) : Int) =
      (A0.toNat * B0.toNat : Nat) + 2 ^ 32 * ((A0.toNat * B0.toNat : Nat) +
        (A1.toNat * B1.toNat : Nat) + (crossProduct A0 A1 B0 B1 : Nat)) +
      2 ^ 64 * ((A1.toNat * B1.toNat : Nat) - (crossBorrow A0 A1 B0 B1).toNat) := by
  have hcross := cross_value A0 A1 B0 B1
  unfold value2
  push_cast
  linear_combination (-2 ^ 32 : Int) * hcross

theorem product_lt (A0 A1 B0 B1 : UInt32) :
    value2 A0 A1 * value2 B0 B1 ≤ (2 ^ 64 - 1) * (2 ^ 64 - 1) :=
  Nat.mul_le_mul (Nat.le_sub_one_of_lt (value2_lt A0 A1)) (Nat.le_sub_one_of_lt (value2_lt B0 B1))

/-- The two words of a double word, as numbers. -/
theorem halved {x : Nat} (h : x < 2 ^ 64) :
    ∃ low high : Nat, (LOW_WORD x).toNat = low ∧ (HIGH_WORD x).toNat = high ∧ low < 2 ^ 32 ∧
      high < 2 ^ 32 ∧ (low : Int) + 2 ^ 32 * high = x :=
  ⟨_, _, rfl, rfl, UInt32.toNat_lt _, UInt32.toNat_lt _, by exact_mod_cast low_high h⟩

theorem dword_halves {x : Int} (h0 : 0 ≤ x) (h : x < 2 ^ 64) :
    ∃ low high : Nat, (LOW_WORD (dword x)).toNat = low ∧ (HIGH_WORD (dword x)).toNat = high ∧
      low < 2 ^ 32 ∧ high < 2 ^ 32 ∧ (low : Int) + 2 ^ 32 * high = x := by
  have hx := dword_of_range h0 h
  obtain ⟨low, high, hlow, hhigh, hlowlt, hhighlt, hsum⟩ := halved (x := dword x) (by omega)
  exact ⟨low, high, hlow, hhigh, hlowlt, hhighlt, hsum.trans hx⟩

theorem AtomicMultiply_value (A0 A1 B0 B1 : UInt32) :
    value (AtomicMultiply A0 A1 B0 B1) = value2 A0 A1 * value2 B0 B1 := by
  have hX := product_eq A0 A1 B0 B1
  have hXlt := product_lt A0 A1 B0 B1
  obtain ⟨pl, ph, hpl, hph, hpll, hphl, hp⟩ := halved ((word_mul_lt A0 B0).trans_lt (by decide))
  obtain ⟨ml, mh, hml, hmh, hmll, hmhl, hm⟩ := halved ((word_mul_lt A1 B1).trans_lt (by decide))
  obtain ⟨dl, dh, hdl, hdh, hdll, hdhl, hd⟩ := halved (crossProduct_lt A0 A1 B0 B1)
  simp only [AtomicMultiply, value_cons, value_nil, hpl, hph, hml, hmh, hdl, hdh]
  generalize value2 A0 A1 * value2 B0 B1 = X at *
  generalize A0.toNat * B0.toNat = p at *
  generalize A1.toNat * B1.toNat = m at *
  generalize crossProduct A0 A1 B0 B1 = d at *
  generalize (crossBorrow A0 A1 B0 B1).toNat = s at *
  obtain ⟨tl, th, htl, hth, htll, hthl, ht⟩ := dword_halves (x := (ph : Int) + pl + dl + ml)
    (by omega) (by omega)
  -- all that is left for the upper two words
  have hupper : (X : Int) = pl + 2 ^ 32 * tl + 2 ^ 64 * ((m : Int) + th + ph + dh + mh - s) := by
    rw [hX]
    linear_combination -hp - 2 ^ 32 * (hp + hm + hd + ht)
  obtain ⟨ul, uh, hul, huh, -, -, hu⟩ := dword_halves (x := (m : Int) + th + ph + dh + mh - s)
    (by omega) (by omega)
  rw [htl, hth, hul, huh]
  zify
  rw [hupper, ← hu]
  ring

theorem AtomicMultiplyAdd_value (C0 C1 C2 C3 A0 A1 B0 B1 : UInt32) :
    value (AtomicMultiplyAdd C0 C1 C2 C3 A0 A1 B0 B1).1 +
        2 ^ 128 * (AtomicMultiplyAdd C0 C1 C2 C3 A0 A1 B0 B1).2.toNat =
      value [C0, C1, C2, C3] + value2 A0 A1 * value2 B0 B1 := by
  have hX := product_eq A0 A1 B0 B1
  have hXlt := product_lt A0 A1 B0 B1
  obtain ⟨pl, ph, hpl, hph, hpll, hphl, hp⟩ := halved ((word_mul_lt A0 B0).trans_lt (by decide))
  obtain ⟨ml, mh, hml, hmh, hmll, hmhl, hm⟩ := halved ((word_mul_lt A1 B1).trans_lt (by decide))
  obtain ⟨dl, dh, hdl, hdh, hdll, hdhl, hd⟩ := halved (crossProduct_lt A0 A1 B0 B1)
  have houter : A1.toNat * B1.toNat * 2 ^ 64 ≤ value2 A0 A1 * value2 B0 B1 := by
    have hA : 2 ^ 32 * A1.toNat ≤ value2 A0 A1 := Nat.le_add_left _ _
    have hB : 2 ^ 32 * B1.toNat ≤ value2 B0 B1 := Nat.le_add_left _ _
    have hmul := Nat.mul_le_mul hA hB
    have hsame : 2 ^ 32 * A1.toNat * (2 ^ 32 * B1.toNat) = A1.toNat * B1.toNat * 2 ^ 64 := by ring
    omega
  have hplt := word_mul_lt A0 B0
  simp only [AtomicMultiplyAdd, value_cons, value_nil, hpl, hph, hml, hmh, hdl, hdh]
  generalize value2 A0 A1 * value2 B0 B1 = X at *
  generalize A0.toNat * B0.toNat = p at *
  generalize A1.toNat * B1.toNat = m at *
  generalize crossProduct A0 A1 B0 B1 = d at *
  generalize (crossBorrow A0 A1 B0 B1).toNat = s at *
  have hc0 := C0.toNat_lt
  have hc1 := C1.toNat_lt
  have hc2 := C2.toNat_lt
  have hc3 := C3.toNat_lt
  generalize C0.toNat = c0 at *
  generalize C1.toNat = c1 at *
  generalize C2.toNat = c2 at *
  generalize C3.toNat = c3 at *
  obtain ⟨tl, th, htl, hth, htll, hthl, ht⟩ := dword_halves (x := (p : Int) + c0) (by omega)
    (by omega)
  obtain ⟨ul, uh, hul, huh, hull, huhl, hu⟩ :=
    dword_halves (x := (th : Int) + pl + dl + ml + c1) (by omega) (by omega)
  -- the third word and its carry do not get below zero: what they miss of the sum is not the
  -- upper half of the outer product
  have hthird : (X : Int) + c0 + 2 ^ 32 * c1 + 2 ^ 64 * c2 - 2 ^ 96 * mh =
      tl + 2 ^ 32 * ul + 2 ^ 64 * ((uh : Int) + ml + ph + dh + mh - s + c2) := by
    rw [hX]
    linear_combination -ht - 2 ^ 32 * (hp + hm + hd + hu) - 2 ^ 64 * hm
  obtain ⟨vl, vh, hvl, hvh, hvll, hvhl, hv⟩ :=
    dword_halves (x := (uh : Int) + ml + ph + dh + mh - s + c2) (by omega) (by omega)
  obtain ⟨wl, wh, hwl, hwh, -, -, hw⟩ := dword_halves (x := (vh : Int) + mh + c3) (by omega)
    (by omega)
  rw [htl, hth, hul, huh, hvl, hvh, hwl, hwh]
  zify
  linear_combination -hthird + 2 ^ 64 * hv + 2 ^ 96 * hw

end OsSecurity

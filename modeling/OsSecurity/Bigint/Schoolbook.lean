/-
The product of two numbers as it is done by hand, which the others are compared with.

One number is multiplied by a word of the other at a time, and the rows are added, each one word
further up than the one before.
-/
import OsSecurity.Bigint.InPlace
import OsSecurity.Bigint.QuotientDigit

namespace OsSecurity

open List

/-- The product, with a row for each word of the first number. -/
def schoolbook : Words → Words → Words
  | [], B => replicate B.length 0
  | a :: A, B =>
    let row := (LinearMultiply B a).1 ++ [(LinearMultiply B a).2]
    row.headD 0 :: (Add (row.drop 1 ++ replicate A.length 0) (schoolbook A B)).1

/-- **The schoolbook product is the product.** -/
theorem schoolbook_spec (A B : Words) :
    (schoolbook A B).length = A.length + B.length ∧
      value (schoolbook A B) = value A * value B := by
  induction A with
  | nil =>
      rw [schoolbook, value_zeros, value_nil, Nat.zero_mul, length_replicate]
      exact ⟨(Nat.zero_add _).symm, rfl⟩
  | cons a A ih =>
      obtain ⟨hlen, hvalue⟩ := ih
      have hlinear := LinearMultiply_value B a
      have hlinearlen := LinearMultiply_length B a
      rw [schoolbook]
      generalize hrow : (LinearMultiply B a).1 ++ [(LinearMultiply B a).2] = row
      have hrowlen : row.length = B.length + 1 := by
        rw [← hrow, length_append, hlinearlen]
        rfl
      have hrowvalue : value row = a.toNat * value B := by
        rw [← hrow, value_concat, hlinearlen, hlinear, Nat.mul_comm]
      obtain ⟨head, tail, rfl⟩ : ∃ head tail, row = head :: tail := by
        cases row with
        | nil => exact absurd hrowlen (by simp)
        | cons head tail => exact ⟨head, tail, rfl⟩
      rw [value_cons] at hrowvalue
      rw [length_cons] at hrowlen
      simp only [headD_cons, drop_succ_cons, drop_zero]
      have hrest : (tail ++ replicate A.length 0).length = (schoolbook A B).length := by
        rw [length_append, length_replicate, hlen]
        omega
      have hpadded : value (tail ++ replicate A.length 0) = value tail := by
        rw [value_append, value_zeros, Nat.mul_zero, Nat.add_zero]
      obtain ⟨-, hsum⟩ := Add_value hrest
      rw [hrest, hlen, hpadded, hvalue] at hsum
      have hsumlen := (Add_length hrest).trans (hrest.trans hlen)
      generalize Add (tail ++ replicate A.length 0) (schoolbook A B) = sum at *
      refine ⟨by rw [length_cons, hsumlen, length_cons]; omega, ?_⟩
      have htotal : (a.toNat + 2 ^ 32 * value A) * value B = head.toNat + 2 ^ 32 * (value sum.1 +
          (2 ^ 32) ^ (A.length + B.length) * sum.2.toNat) := by
        rw [hsum]
        linear_combination -hrowvalue
      -- the product has no more words, so nothing is carried out of the top
      have hfits : (a.toNat + 2 ^ 32 * value A) * value B <
          2 ^ 32 * (2 ^ 32) ^ (A.length + B.length) := by
        have hA := value_lt (a :: A)
        have hlen : (2 ^ 32) ^ (a :: A).length = 2 ^ 32 * (2 ^ 32) ^ A.length := pow_succ' _ _
        rw [value_cons, hlen] at hA
        rw [pow_add, ← Nat.mul_assoc]
        exact Nat.mul_lt_mul'' hA (value_lt B)
      have hnone : sum.2.toNat = 0 := by
        by_contra hne
        have hmore := Nat.le_mul_of_pos_right ((2 ^ 32) ^ (A.length + B.length))
          (Nat.pos_of_ne_zero hne)
        rw [htotal] at hfits
        omega
      rw [hnone, Nat.mul_zero, Nat.add_zero] at htotal
      rw [value_cons, value_cons, htotal]

/-- Words with the size and the number of the schoolbook product are those of it. -/
theorem eq_schoolbook {W A B : Words}
    (h : W.length = A.length + B.length ∧ value W = value A * value B) : W = schoolbook A B := by
  obtain ⟨hlen, hvalue⟩ := schoolbook_spec A B
  exact value_inj (h.1.trans hlen.symm) (h.2.trans hvalue.symm)

/-- **The recursive products are the schoolbook product**, whatever was stored before. -/
theorem multiply_eq_schoolbook {k N : Nat} (hN : N = 2 ^ (k + 1)) :
    (∀ R T A B : Words, R.length = 2 * N → T.length = 2 * N → A.length = N → B.length = N →
        (InPlace.RecursiveMultiply R T A B N).R = schoolbook A B) ∧
      (∀ R T A : Words, R.length = 2 * N → T.length = 2 * N → A.length = N →
        (InPlace.RecursiveSquare R T A N).R = schoolbook A A) ∧
      ∀ (same : Bool) (large : Nat) (R T A B : Words), R.length = A.length + B.length →
        T.length = A.length + B.length → (same = true → A = B) → Sizes N large A B →
          (InPlace.AsymmetricMultiply same R T A B).R = schoolbook A B := by
  refine ⟨?_, ?_, ?_⟩
  · intro R T A B hR hT hA hB
    have hspec := RecursiveMultiply_spec hN A B hA hB
    rw [(InPlace.RecursiveMultiply_stored hN R T A B hR hT hA hB).1]
    apply eq_schoolbook
    rw [hA, hB, ← Nat.two_mul]
    exact hspec
  · intro R T A hR hT hA
    have hspec := RecursiveSquare_spec hN hA
    rw [(InPlace.RecursiveSquare_stored hN R T A A hR hT hA hA).1]
    apply eq_schoolbook
    rw [hA, ← Nat.two_mul]
    exact hspec
  · intro same large R T A B hR hT hsame hsizes
    rw [InPlace.AsymmetricMultiply_stored hN hsizes hR hT]
    exact eq_schoolbook (AsymmetricMultiply_sizes hsame hN hsizes)

/-- Two words by themselves, and by twelve. -/
theorem multiply_eq_schoolbook_two :
    (InPlace.RecursiveMultiply [1, 2, 3, 4] [5, 6, 7, 8] [9, 10] [11, 12] 2).R =
        schoolbook [9, 10] [11, 12] ∧
      (InPlace.RecursiveSquare [1, 2, 3, 4] [5, 6, 7, 8] [9, 10] 2).R =
        schoolbook [9, 10] [9, 10] ∧
      (InPlace.AsymmetricMultiply false (replicate 14 1) (replicate 14 2) [9, 10]
        (replicate 12 11)).R = schoolbook [9, 10] (replicate 12 11) := by
  obtain ⟨hmultiply, hsquare, hasymmetric⟩ := multiply_eq_schoolbook (k := 0) (N := 2) rfl
  exact ⟨hmultiply _ _ _ _ rfl rfl rfl rfl, hsquare _ _ _ rfl rfl rfl,
    hasymmetric false 12 _ _ _ _ rfl rfl (fun h => absurd h (by decide))
      ⟨.inr ⟨2, rfl⟩, .inl ⟨rfl, rfl⟩⟩⟩

end OsSecurity

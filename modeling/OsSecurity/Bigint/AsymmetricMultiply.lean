/-
The product of numbers of different sizes: `AsymmetricMultiply`.

The larger size is an even multiple of the smaller.  The larger number is taken in blocks of the
smaller size, and the products with every other block do not overlap: those with the blocks 0, 2, …
are one number and those with the blocks 1, 3, … another, which begins one block further up.
The product is their sum.
-/
import OsSecurity.Bigint.RecursiveMultiply

namespace OsSecurity

open List

/-- `A` times every other block of `B`, one behind the other. -/
def alternateProducts (A : Words) : Nat → Words → Words
  | 0, _ => []
  | turns + 1, B =>
    RecursiveMultiply A (B.take A.length) A.length ++
      alternateProducts A turns (B.drop (2 * A.length))

/-- `A` is the smaller number.  `R` has the low block of the first product and behind it the
products with the odd blocks, `T` the rest of the first and those with the even blocks. -/
def multiplyBlocks (A B : Words) : Words :=
  let NA := A.length
  let NB := B.length
  let first := RecursiveMultiply A (B.take NA) NA
  let T := first.drop NA ++ alternateProducts A (NB / NA / 2 - 1) (B.drop (2 * NA))
  let R := alternateProducts A (NB / NA / 2) (B.drop NA)
  let sum := Add (R.take (NB - NA)) T
  let top := R.drop (NB - NA)
  first.take NA ++ sum.1 ++ if sum.2 ≠ 0 then (Increment top 1).1 else top

/-- The branch for different sizes, `A` the smaller number. -/
def multiplyUnequal (A B : Words) : Words :=
  if A.length = 2 ∧ A.getD 1 0 = 0 then
    if A.getD 0 0 = 0 then replicate (B.length + 2) 0
    else if A.getD 0 0 = 1 then B ++ [0, 0]
    else (LinearMultiply B (A.getD 0 0)).1 ++ [(LinearMultiply B (A.getD 0 0)).2, 0]
  else multiplyBlocks A B

/-- `same` where the two pointers are equal. -/
def AsymmetricMultiply (same : Bool) (A B : Words) : Words :=
  if A.length = B.length then
    if same then RecursiveSquare A A.length else RecursiveMultiply A B A.length
  else if A.length > B.length then multiplyUnequal B A
  else multiplyUnequal A B

/-! ### Blocks -/

section

variable {A B : Words} {k : Nat}

theorem alternateProducts_length (hA : A.length = 2 ^ (k + 1)) (turns : Nat)
    (hB : 2 * A.length * turns ≤ B.length + A.length) :
    (alternateProducts A turns B).length = 2 * A.length * turns := by
  induction turns generalizing B with
  | zero => rfl
  | succ turns ih =>
      have hstep : 2 * A.length * (turns + 1) = 2 * A.length * turns + 2 * A.length :=
        Nat.mul_succ _ _
      obtain ⟨hlen, -⟩ := RecursiveMultiply_spec hA A (B.take A.length) rfl
        (length_take_of_le (by omega))
      simp only at hlen
      rw [alternateProducts, length_append, hlen, ih (by rw [length_drop]; omega)]
      omega

/-- The products with the even blocks and those with the odd blocks make up the product. -/
theorem alternateProducts_value (hA : A.length = 2 ^ (k + 1)) {turns : Nat}
    (hB : B.length = 2 * A.length * turns) :
    value (alternateProducts A turns B) +
        (2 ^ 32) ^ A.length * value (alternateProducts A turns (B.drop A.length)) =
      value A * value B := by
  induction turns generalizing B with
  | zero =>
      rw [length_eq_zero_iff.mp hB]
      rfl
  | succ turns ih =>
      have hstep : 2 * A.length * (turns + 1) = 2 * A.length * turns + 2 * A.length :=
        Nat.mul_succ _ _
      have hm := RecursiveMultiply_spec hA
      obtain ⟨hlen0, h0⟩ := hm A (B.take A.length) rfl (length_take_of_le (by omega))
      obtain ⟨hlen1, h1⟩ := hm A ((B.drop A.length).take A.length) rfl
        (length_take_of_le (by rw [length_drop]; omega))
      simp only at hlen0 h0 hlen1 h1
      have hrest := ih (B := B.drop (2 * A.length)) (by rw [length_drop]; omega)
      have hdrop : (B.drop A.length).drop (2 * A.length) =
          (B.drop (2 * A.length)).drop A.length := by
        rw [drop_drop, drop_drop, Nat.add_comm]
      have hB0 : value B = value (B.take A.length) +
          (2 ^ 32) ^ A.length * value (B.drop A.length) := by
        conv_lhs => rw [← take_append_drop A.length B]
        rw [value_append, length_take_of_le (by omega)]
      have hB1 : value (B.drop A.length) = value ((B.drop A.length).take A.length) +
          (2 ^ 32) ^ A.length * value (B.drop (2 * A.length)) := by
        conv_lhs => rw [← take_append_drop A.length (B.drop A.length)]
        rw [value_append, length_take_of_le (by rw [length_drop]; omega),
          drop_drop, Nat.two_mul]
      have hsquare : (2 ^ 32) ^ (2 * A.length) = (2 ^ 32) ^ A.length * (2 ^ 32) ^ A.length := by
        rw [Nat.two_mul, pow_add]
      rw [alternateProducts, alternateProducts, value_append, value_append, hlen0, hlen1, h0, h1,
        hdrop, hB0, hB1, hsquare]
      linear_combination ((2 ^ 32) ^ A.length * (2 ^ 32) ^ A.length) * hrest

theorem alternateProducts_succ (turns : Nat) (A B : Words) :
    alternateProducts A (turns + 1) B = RecursiveMultiply A (B.take A.length) A.length ++
      alternateProducts A turns (B.drop (2 * A.length)) := rfl

/-- The sum of the two numbers, the second one block further up. -/
theorem multiplyBlocks_spec (hA : A.length = 2 ^ (k + 1)) (turns : Nat)
    (hB : B.length = 2 * A.length * (turns + 1)) :
    (multiplyBlocks A B).length = A.length + B.length ∧
      value (multiplyBlocks A B) = value A * value B := by
  have hpos : 0 < A.length := by
    rw [hA]
    exact Nat.two_pow_pos _
  have hstep : 2 * A.length * (turns + 1) = 2 * A.length * turns + 2 * A.length :=
    Nat.mul_succ _ _
  have hturns : B.length / A.length / 2 = turns + 1 := by
    rw [hB, Nat.mul_right_comm, Nat.mul_div_cancel _ hpos]
    omega
  have hproduct := alternateProducts_value hA hB
  have hodd := alternateProducts_length hA (turns + 1) (B := B.drop A.length)
    (by rw [length_drop]; omega)
  obtain ⟨hfirst, -⟩ := RecursiveMultiply_spec hA A (B.take A.length) rfl
    (length_take_of_le (by omega))
  simp only at hfirst
  have heven := alternateProducts_length hA turns (B := B.drop (2 * A.length))
    (by rw [length_drop]; omega)
  rw [alternateProducts_succ] at hproduct
  unfold multiplyBlocks
  simp only
  rw [hturns, Nat.add_sub_cancel]
  generalize RecursiveMultiply A (B.take A.length) A.length = first at *
  generalize alternateProducts A turns (B.drop (2 * A.length)) = even at *
  generalize alternateProducts A (turns + 1) (B.drop A.length) = R at *
  have hbound : value A * value B < (2 ^ 32) ^ A.length * (2 ^ 32) ^ B.length :=
    Nat.mul_lt_mul'' (value_lt A) (value_lt B)
  have hT : (first.drop A.length ++ even).length = B.length - A.length := by
    rw [length_append, length_drop]
    omega
  have hlow : (first.take A.length).length = A.length := length_take_of_le (by omega)
  -- the even products, from one block on, are what `T` holds
  have hTvalue : value (first ++ even) = value (first.take A.length) +
      (2 ^ 32) ^ A.length * value (first.drop A.length ++ even) := by
    conv_lhs => rw [← take_append_drop A.length first]
    rw [List.append_assoc, value_append, hlow]
  have hRvalue : value R = value (R.take (B.length - A.length)) +
      (2 ^ 32) ^ (B.length - A.length) * value (R.drop (B.length - A.length)) := by
    conv_lhs => rw [← take_append_drop (B.length - A.length) R]
    rw [value_append, length_take_of_le (by omega)]
  have htake : (R.take (B.length - A.length)).length = B.length - A.length :=
    length_take_of_le (by omega)
  have htop : (R.drop (B.length - A.length)).length = A.length := by
    rw [length_drop]
    omega
  have hsumlen := Add_length (htake.trans hT.symm)
  obtain ⟨hcarry, hsum⟩ := Add_value (htake.trans hT.symm)
  rw [htake] at hsumlen hsum
  have hsplit : (2 ^ 32 : Nat) ^ B.length =
      (2 ^ 32) ^ (B.length - A.length) * (2 ^ 32) ^ A.length := by
    rw [← pow_add]
    congr 1
    omega
  rw [hTvalue] at hproduct
  generalize Add (R.take (B.length - A.length)) (first.drop A.length ++ even) = sum at *
  generalize first.drop A.length ++ even = T at *
  generalize R.take (B.length - A.length) = bottom at *
  generalize R.drop (B.length - A.length) = top at *
  have hW : 0 < (2 ^ 32) ^ A.length := Nat.pow_pos (by decide)
  have hX : 0 < (2 ^ 32) ^ (B.length - A.length) := Nat.pow_pos (by decide)
  have htotal : value A * value B = value (first.take A.length) + (2 ^ 32) ^ A.length *
      (value sum.1 + (2 ^ 32) ^ (B.length - A.length) * (value top + sum.2.toNat)) := by
    rw [hRvalue] at hproduct
    linear_combination -hproduct - (2 ^ 32) ^ A.length * hsum
  -- the product has no more words, so nothing is carried out of the top
  have hfits : value top + sum.2.toNat < (2 ^ 32) ^ A.length := by
    rw [hsplit, htotal] at hbound
    have hless := Nat.lt_of_mul_lt_mul_left (Nat.lt_of_le_of_lt (Nat.le_add_left _ _) hbound)
    exact Nat.lt_of_mul_lt_mul_left (Nat.lt_of_le_of_lt (Nat.le_add_left _ _) hless)
  by_cases hzero : sum.2 = 0
  · rw [if_neg (fun hne => hne hzero)]
    rw [hzero, UInt32.toNat_zero, Nat.add_zero] at htotal
    refine ⟨?_, ?_⟩
    · rw [length_append, length_append, hlow, hsumlen, htop]
      omega
    · rw [htotal, value_append, value_append, length_append, hlow, hsumlen, pow_add]
      ring
  · have hone : sum.2.toNat = 1 := by
      have hpos : sum.2.toNat ≠ 0 := fun hc => hzero (UInt32.toNat_inj.mp hc)
      omega
    obtain ⟨hinclen, hout, hinc⟩ := Increment_carry hpos htop 1
    have hinc : value (Increment top 1).1 + (2 ^ 32) ^ A.length * (Increment top 1).2.toNat =
        value top + 1 := by
      exact_mod_cast hinc
    have hnone : (Increment top 1).2.toNat = 0 := by
      by_contra hne
      have hcarried : (Increment top 1).2.toNat = 1 := by omega
      rw [hcarried] at hinc
      omega
    rw [hnone, Nat.mul_zero, Nat.add_zero] at hinc
    rw [if_pos hzero]
    rw [hone] at htotal
    refine ⟨?_, ?_⟩
    · rw [length_append, length_append, hlow, hsumlen, hinclen]
      omega
    · rw [htotal, value_append, value_append, length_append, hlow, hsumlen, hinc, pow_add]
      ring

/-- A smaller number of one word is multiplied by that word. -/
theorem value_of_word (hA : A.length = 2) (hzero : A.getD 1 0 = 0) :
    value A = (A.getD 0 0).toNat := by
  obtain ⟨a0, a1, rfl⟩ := length_eq_two.mp hA
  have ha1 : a1 = 0 := hzero
  rw [ha1, value_cons, value_cons, value_nil, UInt32.toNat_zero]
  rfl

theorem multiplyUnequal_spec {turns : Nat} (hA : A.length = 2 ^ (k + 1))
    (hB : B.length = 2 * A.length * (turns + 1)) :
    (multiplyUnequal A B).length = A.length + B.length ∧
      value (multiplyUnequal A B) = value A * value B := by
  unfold multiplyUnequal
  by_cases hword : A.length = 2 ∧ A.getD 1 0 = 0
  · have hvalue := value_of_word hword.1 hword.2
    rw [if_pos hword, hword.1, hvalue]
    by_cases hnone : A.getD 0 0 = 0
    · rw [if_pos hnone, hnone, value_zeros, UInt32.toNat_zero, Nat.zero_mul]
      exact ⟨length_replicate.trans (Nat.add_comm _ _), rfl⟩
    rw [if_neg hnone]
    by_cases hone : A.getD 0 0 = 1
    · have hzeros : value [0, 0] = 0 := rfl
      rw [if_pos hone, hone, value_append, hzeros, UInt32.toNat_one, Nat.one_mul, Nat.mul_zero,
        Nat.add_zero, length_append]
      exact ⟨Nat.add_comm _ _, rfl⟩
    · have hlinear := LinearMultiply_value B (A.getD 0 0)
      have hpair : ∀ w : UInt32, value [w, 0] = w.toNat := fun w => rfl
      rw [if_neg hone, length_append, LinearMultiply_length, value_append,
        LinearMultiply_length, hpair]
      exact ⟨Nat.add_comm _ _, hlinear.trans (Nat.mul_comm _ _)⟩
  · rw [if_neg hword]
    exact multiplyBlocks_spec hA turns hB

/-- The larger size is that of the smaller, or an even multiple of it. -/
def EvenMultiple (small large : Nat) : Prop :=
  small = large ∨ ∃ turns, large = 2 * small * (turns + 1)

/-- The branches of `AsymmetricMultiply`, for sizes that it asserts. -/
structure Sizes (small large : Nat) (A B : Words) : Prop where
  multiple : EvenMultiple small large
  sizes : A.length = small ∧ B.length = large ∨ A.length = large ∧ B.length = small

theorem Sizes.of_eq {small large : Nat} (h : Sizes small large A B) (heq : A.length = B.length) :
    A.length = small := by
  rcases h.sizes with ⟨hA, -⟩ | ⟨-, hB⟩
  · exact hA
  · exact heq.trans hB

theorem Sizes.of_ne {small large : Nat} (h : Sizes small large A B) (hpos : 0 < small)
    (hne : A.length ≠ B.length) :
    (A.length > B.length → B.length = small ∧ ∃ turns, A.length = 2 * B.length * (turns + 1)) ∧
      (¬A.length > B.length →
        A.length = small ∧ ∃ turns, B.length = 2 * A.length * (turns + 1)) := by
  obtain ⟨turns, hturns⟩ : ∃ turns, large = 2 * small * (turns + 1) := by
    refine h.multiple.resolve_left fun hsame => hne ?_
    rcases h.sizes with ⟨hA, hB⟩ | ⟨hA, hB⟩ <;> rw [hA, hB, hsame]
  have hmore : small < large := by
    rw [hturns, Nat.mul_succ]
    omega
  constructor
  · intro hgt
    obtain ⟨hA, hB⟩ := h.sizes.resolve_left (by omega)
    exact ⟨hB, turns, by rw [hA, hB, hturns]⟩
  · intro hle
    obtain ⟨hA, hB⟩ := h.sizes.resolve_right (by omega)
    exact ⟨hA, turns, by rw [hA, hB, hturns]⟩

/-- **`AsymmetricMultiply`**, for all sizes that it asserts. -/
theorem AsymmetricMultiply_sizes {same : Bool} (hsame : same = true → A = B) {small large : Nat}
    (hsmall : small = 2 ^ (k + 1)) (h : Sizes small large A B) :
    (AsymmetricMultiply same A B).length = A.length + B.length ∧
      value (AsymmetricMultiply same A B) = value A * value B := by
  have hpos : 0 < small := by
    rw [hsmall]
    exact Nat.two_pow_pos _
  unfold AsymmetricMultiply
  by_cases heq : A.length = B.length
  · have hA := (h.of_eq heq).trans hsmall
    rw [if_pos heq, ← heq, ← Nat.two_mul]
    by_cases hpointer : same = true
    · rw [if_pos hpointer, ← hsame hpointer]
      exact RecursiveSquare_spec hA rfl
    · rw [if_neg hpointer]
      exact RecursiveMultiply_spec hA A B rfl heq.symm
  obtain ⟨hmore, hless⟩ := h.of_ne hpos heq
  rw [if_neg heq]
  by_cases hgt : A.length > B.length
  · obtain ⟨hB, turns, hturns⟩ := hmore hgt
    rw [if_pos hgt, Nat.add_comm, Nat.mul_comm]
    exact multiplyUnequal_spec (hB.trans hsmall) hturns
  · obtain ⟨hA, turns, hturns⟩ := hless hgt
    rw [if_neg hgt]
    exact multiplyUnequal_spec (hA.trans hsmall) hturns

/-- Of two powers of two the larger is an even multiple of the smaller. -/
theorem evenMultiple_pow {i j : Nat} (h : i ≤ j) : EvenMultiple (2 ^ (i + 1)) (2 ^ (j + 1)) := by
  by_cases heq : i = j
  · exact .inl (by rw [heq])
  · refine .inr ⟨2 ^ (j - i - 1) - 1, ?_⟩
    rw [Nat.sub_add_cancel (Nat.two_pow_pos _), ← pow_succ', ← pow_add]
    congr 1
    omega

theorem AsymmetricMultiply_spec {j : Nat} {same : Bool} (hsame : same = true → A = B)
    (hA : A.length = 2 ^ (k + 1)) (hB : B.length = 2 ^ (j + 1)) :
    (AsymmetricMultiply same A B).length = A.length + B.length ∧
      value (AsymmetricMultiply same A B) = value A * value B := by
  rcases Nat.le_total k j with hle | hle
  · exact AsymmetricMultiply_sizes hsame rfl ⟨evenMultiple_pow hle, .inl ⟨hA, hB⟩⟩
  · exact AsymmetricMultiply_sizes hsame rfl ⟨evenMultiple_pow hle, .inr ⟨hA, hB⟩⟩

end

end OsSecurity

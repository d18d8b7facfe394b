/-
Products of four and of eight words: `CombaMultiply4`, `CombaMultiply8` and their lower halves.

The words of the product are found one after the other, the least significant first: all products
of two words that count at one place are a column, and a column is summed in the three words
`c`, `d` and `e`.  Then `c` is a word of the result, and the other two are carried.
-/
import OsSecurity.Bigint.Atomic
import Mathlib.Data.Nat.ModEq

namespace OsSecurity

open List Nat

/-- The words that a column is summed in. -/
structure Accumulator where
  c : UInt32
  d : UInt32
  e : UInt32

def MulAcc (A B : Words) (s : Accumulator) (xy : Nat × Nat) : Accumulator :=
  let p := dword ((A.getD xy.1 0).toNat * (B.getD xy.2 0).toNat + s.c.toNat)
  let q := dword (s.d.toNat + (HIGH_WORD p).toNat)
  { c := LOW_WORD p, d := LOW_WORD q, e := s.e + HIGH_WORD q }

/-- The first product of the next column, after `c` has been saved. -/
def SaveMulAcc (A B : Words) (s : Accumulator) (xy : Nat × Nat) : Accumulator :=
  let p := dword ((A.getD xy.1 0).toNat * (B.getD xy.2 0).toNat + s.d.toNat)
  let q := dword (s.e.toNat + (HIGH_WORD p).toNat)
  { c := LOW_WORD p, d := LOW_WORD q, e := HIGH_WORD q }

/-- The columns from the second on: the pair of `SaveMulAcc` and those of `MulAcc`. -/
def combaColumns (A B : Words) (s : Accumulator) :
    List ((Nat × Nat) × List (Nat × Nat)) → Words × Accumulator
  | [] => ([], s)
  | (first, others) :: columns =>
    let (R, last) := combaColumns A B (others.foldl (MulAcc A B) (SaveMulAcc A B s first)) columns
    (s.c :: R, last)

/-- The first two columns, but that the second is not saved. -/
def combaStart (A B : Words) : UInt32 × Accumulator :=
  let p := (A.getD 0 0).toNat * (B.getD 0 0).toNat
  (LOW_WORD p, [(0, 1), (1, 0)].foldl (MulAcc A B) { c := HIGH_WORD p, d := 0, e := 0 })

/-- The product, with the pair of the last column. -/
def combaMultiply (columns : List ((Nat × Nat) × List (Nat × Nat))) (xy : Nat × Nat)
    (A B : Words) : Words :=
  let (R0, s) := combaStart A B
  let (R, s) := combaColumns A B s columns
  let p := dword ((A.getD xy.1 0).toNat * (B.getD xy.2 0).toNat + s.d.toNat)
  R0 :: R ++ [s.c, LOW_WORD p, s.e + HIGH_WORD p]

/-- Its lower half, with the pairs of the column that only one word is needed of. -/
def combaMultiplyBottom (columns : List ((Nat × Nat) × List (Nat × Nat)))
    (column : List (Nat × Nat)) (A B : Words) : Words :=
  let (R0, s) := combaStart A B
  let (R, s) := combaColumns A B s columns
  R0 :: R ++ [s.c, column.foldl (fun w xy => w + A.getD xy.1 0 * B.getD xy.2 0) s.d]

def combaColumns4 : List ((Nat × Nat) × List (Nat × Nat)) := [
  ((2, 0), [(1, 1), (0, 2)]),
  ((0, 3), [(1, 2), (2, 1), (3, 0)]),
  ((3, 1), [(2, 2), (1, 3)]),
  ((2, 3), [(3, 2)])]

def combaColumns8 : List ((Nat × Nat) × List (Nat × Nat)) := [
  ((2, 0), [(1, 1), (0, 2)]),
  ((0, 3), [(1, 2), (2, 1), (3, 0)]),
  ((0, 4), [(1, 3), (2, 2), (3, 1), (4, 0)]),
  ((0, 5), [(1, 4), (2, 3), (3, 2), (4, 1), (5, 0)]),
  ((0, 6), [(1, 5), (2, 4), (3, 3), (4, 2), (5, 1), (6, 0)]),
  ((0, 7), [(1, 6), (2, 5), (3, 4), (4, 3), (5, 2), (6, 1), (7, 0)]),
  ((1, 7), [(2, 6), (3, 5), (4, 4), (5, 3), (6, 2), (7, 1)]),
  ((2, 7), [(3, 6), (4, 5), (5, 4), (6, 3), (7, 2)]),
  ((3, 7), [(4, 6), (5, 5), (6, 4), (7, 3)]),
  ((4, 7), [(5, 6), (6, 5), (7, 4)]),
  ((5, 7), [(6, 6), (7, 5)]),
  ((6, 7), [(7, 6)])]

def CombaMultiply4 (A B : Words) : Words := combaMultiply combaColumns4 (3, 3) A B

def CombaMultiply8 (A B : Words) : Words := combaMultiply combaColumns8 (7, 7) A B

def CombaMultiplyBottom4 (A B : Words) : Words :=
  combaMultiplyBottom (combaColumns4.take 1) [(0, 3), (1, 2), (2, 1), (3, 0)] A B

def CombaMultiplyBottom8 (A B : Words) : Words :=
  combaMultiplyBottom (combaColumns8.take 5)
    [(0, 7), (1, 6), (2, 5), (3, 4), (4, 3), (5, 2), (6, 1), (7, 0)] A B

def AtomicMultiplyBottom (A B : Words) : Words :=
  let t := (A.getD 0 0).toNat * (B.getD 0 0).toNat
  [LOW_WORD t, HIGH_WORD t + A.getD 0 0 * B.getD 1 0 + A.getD 1 0 * B.getD 0 0]

/-! ### Columns -/

namespace Accumulator

def value (s : Accumulator) : Nat := s.c.toNat + 2 ^ 32 * (s.d.toNat + 2 ^ 32 * s.e.toNat)

end Accumulator

/-- The product that a pair stands for. -/
def wordProduct (A B : Words) (xy : Nat × Nat) : Nat :=
  (A.getD xy.1 0).toNat * (B.getD xy.2 0).toNat

/-- All of them, each at its place. -/
def columnsSum (A B : Words) : List ((Nat × Nat) × List (Nat × Nat)) → Nat
  | [] => 0
  | (first, others) :: columns =>
    wordProduct A B first + (others.map (wordProduct A B)).sum + 2 ^ 32 * columnsSum A B columns

section

variable {A B : Words}

theorem wordProduct_le (A B : Words) (xy : Nat × Nat) :
    wordProduct A B xy ≤ (2 ^ 32 - 1) * (2 ^ 32 - 1) := word_mul_lt _ _

/-- `SaveMulAcc` is `MulAcc` when the words have moved down. -/
theorem SaveMulAcc_eq (s : Accumulator) (xy : Nat × Nat) :
    SaveMulAcc A B s xy = MulAcc A B { c := s.d, d := s.e, e := 0 } xy := by
  unfold SaveMulAcc MulAcc
  simp only
  rw [UInt32.zero_add]

theorem MulAcc_value (s : Accumulator) (xy : Nat × Nat) (h : s.value + 2 ^ 64 ≤ 2 ^ 96) :
    (MulAcc A B s xy).value = s.value + wordProduct A B xy := by
  have hproduct := wordProduct_le A B xy
  have hc := s.c.toNat_lt
  have hd := s.d.toNat_lt
  have he := s.e.toNat_lt
  unfold Accumulator.value at *
  unfold MulAcc
  simp only
  show _ = _ + wordProduct A B xy
  have hp : dword ((A.getD xy.1 0).toNat * (B.getD xy.2 0).toNat + s.c.toNat) =
      wordProduct A B xy + s.c.toNat := by
    have hrange := dword_of_range (x := (wordProduct A B xy : Int) + s.c.toNat) (by omega)
      (by omega)
    unfold wordProduct at hrange ⊢
    push_cast at hrange
    exact_mod_cast hrange
  rw [hp]
  generalize wordProduct A B xy = w at *
  have hplow := low_high (x := w + s.c.toNat) (by omega)
  have hpword := (HIGH_WORD (w + s.c.toNat)).toNat_lt
  have hq : dword (s.d.toNat + (HIGH_WORD (w + s.c.toNat)).toNat) =
      s.d.toNat + (HIGH_WORD (w + s.c.toNat)).toNat := by
    have hrange := dword_of_range (x := (s.d.toNat : Int) + (HIGH_WORD (w + s.c.toNat)).toNat)
      (by omega) (by omega)
    exact_mod_cast hrange
  rw [hq]
  have hqlow := low_high (x := s.d.toNat + (HIGH_WORD (w + s.c.toNat)).toNat) (by omega)
  rw [UInt32.toNat_add]
  generalize (HIGH_WORD (w + s.c.toNat)).toNat = high at *
  generalize (LOW_WORD (w + s.c.toNat)).toNat = low at *
  generalize (HIGH_WORD (s.d.toNat + high)).toNat = carry at *
  generalize (LOW_WORD (s.d.toNat + high)).toNat = middle at *
  have hnowrap : (s.e.toNat + carry) % 2 ^ 32 = s.e.toNat + carry :=
    mod_eq_of_lt (by omega)
  rw [hnowrap]
  omega

theorem foldl_MulAcc_value (s : Accumulator) (column : List (Nat × Nat))
    (h : s.value + column.length * 2 ^ 64 ≤ 2 ^ 96) :
    (column.foldl (MulAcc A B) s).value = s.value + (column.map (wordProduct A B)).sum := by
  induction column generalizing s with
  | nil => rw [foldl_nil, map_nil, sum_nil, Nat.add_zero]
  | cons xy column ih =>
      have hproduct := wordProduct_le A B xy
      rw [length_cons, Nat.add_mul, Nat.one_mul] at h
      have hroom : s.value + 2 ^ 64 ≤ 2 ^ 96 :=
        (Nat.add_le_add_left (Nat.le_add_left _ _) _).trans h
      have hstep := MulAcc_value (A := A) (B := B) s xy hroom
      have hrest : (MulAcc A B s xy).value + column.length * 2 ^ 64 ≤ 2 ^ 96 := by
        rw [hstep, Nat.add_assoc]
        refine (Nat.add_le_add_left ?_ _).trans h
        rw [Nat.add_comm]
        exact Nat.add_le_add_left (hproduct.trans (by decide)) _
      rw [foldl_cons, ih _ hrest, hstep, map_cons, sum_cons, Nat.add_assoc]

theorem sum_wordProduct_le (A B : Words) (column : List (Nat × Nat)) :
    (column.map (wordProduct A B)).sum ≤ column.length * 2 ^ 64 := by
  induction column with
  | nil => exact Nat.zero_le _
  | cons xy column ih =>
      have hproduct := wordProduct_le A B xy
      rw [map_cons, sum_cons, length_cons, Nat.add_mul, Nat.one_mul]
      omega

/-- What is saved of the columns, and what is left in the words, are their sum. -/
theorem combaColumns_value {s : Accumulator}
    {columns : List ((Nat × Nat) × List (Nat × Nat))} (hs : s.value ≤ 2 ^ 68)
    (hshort : ∀ column ∈ columns, column.2.length ≤ 7) :
    (combaColumns A B s columns).1.length = columns.length ∧
      (combaColumns A B s columns).2.value ≤ 2 ^ 68 ∧
      value (combaColumns A B s columns).1 +
          (2 ^ 32) ^ columns.length * (combaColumns A B s columns).2.value =
        s.value + 2 ^ 32 * columnsSum A B columns := by
  induction columns generalizing s with
  | nil =>
      refine ⟨rfl, hs, ?_⟩
      show 0 + (2 ^ 32) ^ 0 * s.value = s.value + 2 ^ 32 * 0
      omega
  | cons column columns ih =>
      obtain ⟨first, others⟩ := column
      have hlen := hshort _ mem_cons_self
      have hfirst := wordProduct_le A B first
      have hothers := sum_wordProduct_le A B others
      have hsplit : s.value = s.c.toNat + 2 ^ 32 * (s.d.toNat + 2 ^ 32 * s.e.toNat) := rfl
      have hmoved : Accumulator.value { c := s.d, d := s.e, e := 0 } =
          s.d.toNat + 2 ^ 32 * s.e.toNat := by
        show s.d.toNat + 2 ^ 32 * (s.e.toNat + 2 ^ 32 * (0 : UInt32).toNat) = _
        rw [UInt32.toNat_zero, Nat.mul_zero, Nat.add_zero]
      have hbound : others.length * 2 ^ 64 ≤ 7 * 2 ^ 64 := Nat.mul_le_mul_right _ hlen
      have hsave : (SaveMulAcc A B s first).value =
          s.d.toNat + 2 ^ 32 * s.e.toNat + wordProduct A B first := by
        rw [SaveMulAcc_eq, MulAcc_value _ _ (by rw [hmoved]; omega), hmoved]
      have hsum := foldl_MulAcc_value (A := A) (B := B) (SaveMulAcc A B s first) others
        (by rw [hsave]; omega)
      rw [hsave] at hsum
      obtain ⟨hlength, hlast, hvalue⟩ := ih
        (s := others.foldl (MulAcc A B) (SaveMulAcc A B s first)) (by rw [hsum]; omega)
        (fun c hc => hshort c (mem_cons_of_mem _ hc))
      refine ⟨congrArg succ hlength, hlast, ?_⟩
      show value (s.c :: (combaColumns A B _ columns).1) +
        (2 ^ 32) ^ (columns.length + 1) * (combaColumns A B _ columns).2.value = _
      rw [value_cons, columnsSum, pow_succ']
      rw [hsum] at hvalue
      rw [hsplit]
      linear_combination 2 ^ 32 * hvalue

/-- The first two columns. -/
theorem combaStart_value (A B : Words) :
    (combaStart A B).2.value ≤ 2 ^ 68 ∧
      (combaStart A B).1.toNat + 2 ^ 32 * (combaStart A B).2.value =
        wordProduct A B (0, 0) + 2 ^ 32 * (wordProduct A B (0, 1) + wordProduct A B (1, 0)) := by
  have h00 := wordProduct_le A B (0, 0)
  have h01 := wordProduct_le A B (0, 1)
  have h10 := wordProduct_le A B (1, 0)
  have hlow := low_high (x := wordProduct A B (0, 0)) (by omega)
  have hhigh := (HIGH_WORD (wordProduct A B (0, 0))).toNat_lt
  have hstart : Accumulator.value { c := HIGH_WORD (wordProduct A B (0, 0)), d := 0, e := 0 } =
      (HIGH_WORD (wordProduct A B (0, 0))).toNat := by
    show _ + 2 ^ 32 * ((0 : UInt32).toNat + 2 ^ 32 * (0 : UInt32).toNat) = _
    rw [UInt32.toNat_zero]
    rfl
  have hsum := foldl_MulAcc_value (A := A) (B := B)
    { c := HIGH_WORD (wordProduct A B (0, 0)), d := 0, e := 0 } [(0, 1), (1, 0)]
    (by rw [hstart]; show _ + 2 * 2 ^ 64 ≤ _; omega)
  rw [hstart] at hsum
  have hsum' : (combaStart A B).2.value = (HIGH_WORD (wordProduct A B (0, 0))).toNat +
      (wordProduct A B (0, 1) + (wordProduct A B (1, 0) + 0)) := hsum
  have hfirst : (combaStart A B).1 = LOW_WORD (wordProduct A B (0, 0)) := rfl
  rw [hsum', hfirst]
  omega

/-- The last two words of a whole product. -/
theorem lastWords_value {s : Accumulator} {w : Nat} (hw : w ≤ (2 ^ 32 - 1) * (2 ^ 32 - 1))
    (hfits : s.value + 2 ^ 32 * w < 2 ^ 96) :
    value [s.c, LOW_WORD (dword (w + s.d.toNat)), s.e + HIGH_WORD (dword (w + s.d.toNat))] =
      s.value + 2 ^ 32 * w := by
  have hd := s.d.toNat_lt
  have he := s.e.toNat_lt
  have hp : dword (w + s.d.toNat) = w + s.d.toNat := by
    have hrange := dword_of_range (x := (w : Int) + s.d.toNat) (by omega) (by omega)
    exact_mod_cast hrange
  rw [hp]
  have hlow := low_high (x := w + s.d.toNat) (by omega)
  unfold Accumulator.value at hfits ⊢
  simp only [value_cons, value_nil]
  rw [UInt32.toNat_add]
  generalize (HIGH_WORD (w + s.d.toNat)).toNat = high at *
  generalize (LOW_WORD (w + s.d.toNat)).toNat = low at *
  have hnowrap : (s.e.toNat + high) % 2 ^ 32 = s.e.toNat + high := mod_eq_of_lt (by omega)
  rw [hnowrap]
  omega

section

variable {columns : List ((Nat × Nat) × List (Nat × Nat))}
  (hshort : ∀ column ∈ columns, column.2.length ≤ 7)
include hshort

/-- All columns but the last, with the first two. -/
theorem combaUpper_value :
    (combaColumns A B (combaStart A B).2 columns).1.length = columns.length ∧
      (combaColumns A B (combaStart A B).2 columns).2.value ≤ 2 ^ 68 ∧
      (combaStart A B).1.toNat + 2 ^ 32 *
          (value (combaColumns A B (combaStart A B).2 columns).1 + (2 ^ 32) ^ columns.length *
            (combaColumns A B (combaStart A B).2 columns).2.value) =
        wordProduct A B (0, 0) + 2 ^ 32 * (wordProduct A B (0, 1) + wordProduct A B (1, 0) +
          2 ^ 32 * columnsSum A B columns) := by
  obtain ⟨hs, hstart⟩ := combaStart_value A B
  obtain ⟨hlength, hlast, hvalue⟩ := combaColumns_value (A := A) (B := B) hs hshort
  refine ⟨hlength, hlast, ?_⟩
  rw [hvalue]
  linear_combination hstart

/-- **A whole product by columns**, when the pairs are those of a product with no more words. -/
theorem combaMultiply_value {xy : Nat × Nat} {product : Nat}
    (hproduct : wordProduct A B (0, 0) + 2 ^ 32 * (wordProduct A B (0, 1) + wordProduct A B (1, 0) + 2 ^ 32 * (columnsSum A B columns + (2 ^ 32) ^ columns.length * wordProduct A B xy)) = product)
    (hfits : product < (2 ^ 32) ^ (columns.length + 4)) :
    (combaMultiply columns xy A B).length = columns.length + 4 ∧
      value (combaMultiply columns xy A B) = product := by
  obtain ⟨hlength, -, hvalue⟩ := combaUpper_value (A := A) (B := B) hshort
  unfold combaMultiply
  simp only
  generalize combaColumns A B (combaStart A B).2 columns = Rs at *
  have htotal : (combaStart A B).1.toNat + 2 ^ 32 * (value Rs.1 + (2 ^ 32) ^ columns.length *
      (Rs.2.value + 2 ^ 32 * wordProduct A B xy)) = product := by
    rw [← hproduct]
    linear_combination hvalue
  have hroom : Rs.2.value + 2 ^ 32 * wordProduct A B xy < 2 ^ 96 := by
    have hpow : (2 ^ 32) ^ (columns.length + 4) =
        2 ^ 32 * ((2 ^ 32) ^ columns.length * 2 ^ 96) := by ring
    apply Nat.lt_of_mul_lt_mul_left (a := (2 ^ 32) ^ columns.length)
    rw [hpow] at hfits
    omega
  refine ⟨by rw [cons_append, length_cons, length_append, hlength]; rfl, ?_⟩
  rw [cons_append, value_cons, value_append, hlength]
  have hlast := lastWords_value (wordProduct_le A B xy) hroom
  unfold wordProduct at hlast htotal
  simp only [cast_mul] at hlast
  rw [hlast]
  exact htotal

end

/-- A word of the lower half is summed in a word. -/
theorem foldl_mul_toNat (A B : Words) (w : UInt32) (column : List (Nat × Nat)) :
    (column.foldl (fun w xy => w + A.getD xy.1 0 * B.getD xy.2 0) w).toNat ≡
      w.toNat + (column.map (wordProduct A B)).sum [MOD 2 ^ 32] := by
  induction column generalizing w with
  | nil => exact ModEq.refl _
  | cons xy column ih =>
      rw [foldl_cons, map_cons, sum_cons, ← Nat.add_assoc]
      refine (ih _).trans (ModEq.add_right _ ?_)
      rw [UInt32.toNat_add, UInt32.toNat_mul]
      refine (mod_modEq _ _).trans (ModEq.add_left _ ?_)
      exact mod_modEq _ _

/-- **The lower half of a product by columns.** -/
theorem combaMultiplyBottom_value {columns : List ((Nat × Nat) × List (Nat × Nat))}
    {column : List (Nat × Nat)} (hshort : ∀ column ∈ columns, column.2.length ≤ 7)
    {product : Nat} (hproduct : wordProduct A B (0, 0) + 2 ^ 32 * (wordProduct A B (0, 1) +
      wordProduct A B (1, 0) + 2 ^ 32 * (columnsSum A B columns +
        (2 ^ 32) ^ columns.length * (column.map (wordProduct A B)).sum)) ≡ product
          [MOD (2 ^ 32) ^ (columns.length + 3)]) :
    (combaMultiplyBottom columns column A B).length = columns.length + 3 ∧
      value (combaMultiplyBottom columns column A B) =
        product % (2 ^ 32) ^ (columns.length + 3) := by
  obtain ⟨hlength, -, hvalue⟩ := combaUpper_value (A := A) (B := B) hshort
  unfold combaMultiplyBottom
  simp only
  generalize combaColumns A B (combaStart A B).2 columns = Rs at *
  have hword := foldl_mul_toNat A B Rs.2.d column
  generalize column.foldl (fun w xy => w + A.getD xy.1 0 * B.getD xy.2 0) Rs.2.d = w at *
  have hlen : ((combaStart A B).1 :: Rs.1 ++ [Rs.2.c, w]).length = columns.length + 3 := by
    rw [cons_append, length_cons, length_append, hlength]
    rfl
  have hlt := value_lt ((combaStart A B).1 :: Rs.1 ++ [Rs.2.c, w])
  rw [hlen] at hlt
  refine ⟨hlen, ?_⟩
  rw [← mod_eq_of_lt hlt]
  refine ModEq.trans ?_ hproduct
  have hpow : (2 ^ 32) ^ (columns.length + 3) =
      2 ^ 32 * ((2 ^ 32) ^ columns.length * (2 ^ 32 * 2 ^ 32)) := by ring
  have htop : Rs.2.c.toNat + 2 ^ 32 * w.toNat ≡
      Rs.2.value + 2 ^ 32 * (column.map (wordProduct A B)).sum [MOD 2 ^ 32 * 2 ^ 32] := by
    have hsplit : Rs.2.value + 2 ^ 32 * (column.map (wordProduct A B)).sum =
        Rs.2.c.toNat + 2 ^ 32 * (Rs.2.d.toNat + (column.map (wordProduct A B)).sum) +
          2 ^ 32 * 2 ^ 32 * Rs.2.e.toNat := by
      unfold Accumulator.value
      ring
    rw [hsplit]
    refine ModEq.trans (ModEq.add_left _ (ModEq.mul_left' _ hword)) ?_
    exact (add_mul_mod_self_left _ _ _).symm
  have hsum : (combaStart A B).1.toNat + 2 ^ 32 * (value Rs.1 + (2 ^ 32) ^ columns.length *
      (Rs.2.value + 2 ^ 32 * (column.map (wordProduct A B)).sum)) =
        wordProduct A B (0, 0) + 2 ^ 32 * (wordProduct A B (0, 1) + wordProduct A B (1, 0) +
          2 ^ 32 * (columnsSum A B columns + (2 ^ 32) ^ columns.length *
            (column.map (wordProduct A B)).sum)) := by
    linear_combination hvalue
  rw [← hsum, cons_append, value_cons, value_append, hlength, hpow]
  simp only [value_cons, value_nil, Nat.mul_zero, Nat.add_zero]
  exact ModEq.add_left _ (ModEq.mul_left' _ (ModEq.add_left _
    (ModEq.mul_left' _ htop)))

/-! ### The products -/

theorem product_fits {n : Nat} (hA : A.length = n) (hB : B.length = n) :
    value A * value B < (2 ^ 32) ^ (2 * n) := by
  have hAlt := value_lt A
  have hBlt := value_lt B
  rw [hA] at hAlt
  rw [hB] at hBlt
  rw [Nat.two_mul, pow_add]
  exact Nat.mul_lt_mul'' hAlt hBlt

/-- The columns of a product of four words. -/
theorem columns4_product (hA : A.length = 4) (hB : B.length = 4) :
    wordProduct A B (0, 0) + 2 ^ 32 * (wordProduct A B (0, 1) + wordProduct A B (1, 0) +
      2 ^ 32 * (columnsSum A B combaColumns4 + (2 ^ 32) ^ combaColumns4.length *
        wordProduct A B (3, 3))) = value A * value B := by
  obtain ⟨a0, a1, a2, a3, rfl⟩ := length_eq_four.mp hA
  obtain ⟨b0, b1, b2, b3, rfl⟩ := length_eq_four.mp hB
  simp only [combaColumns4, columnsSum, wordProduct, map_cons, map_nil, sum_cons,
    sum_nil, length_cons, length_nil, getD_cons_zero, getD_cons_succ, value_cons, value_nil]
  ring

theorem length_eq_eight {l : Words} (h : l.length = 8) :
    ∃ a0 a1 a2 a3 a4 a5 a6 a7, l = [a0, a1, a2, a3, a4, a5, a6, a7] := by
  match l, h with
  | [a0, a1, a2, a3, a4, a5, a6, a7], _ => exact ⟨a0, a1, a2, a3, a4, a5, a6, a7, rfl⟩

/-- And of eight. -/
theorem columns8_product (hA : A.length = 8) (hB : B.length = 8) :
    wordProduct A B (0, 0) + 2 ^ 32 * (wordProduct A B (0, 1) + wordProduct A B (1, 0) +
      2 ^ 32 * (columnsSum A B combaColumns8 + (2 ^ 32) ^ combaColumns8.length *
        wordProduct A B (7, 7))) = value A * value B := by
  obtain ⟨a0, a1, a2, a3, a4, a5, a6, a7, rfl⟩ := length_eq_eight hA
  obtain ⟨b0, b1, b2, b3, b4, b5, b6, b7, rfl⟩ := length_eq_eight hB
  simp only [combaColumns8, columnsSum, wordProduct, map_cons, map_nil, sum_cons,
    sum_nil, length_cons, length_nil, getD_cons_zero, getD_cons_succ, value_cons, value_nil]
  ring

theorem CombaMultiply4_spec (hA : A.length = 4) (hB : B.length = 4) :
    (CombaMultiply4 A B).length = 8 ∧ value (CombaMultiply4 A B) = value A * value B :=
  combaMultiply_value (by decide) (columns4_product hA hB) (product_fits hA hB)

theorem CombaMultiply8_spec (hA : A.length = 8) (hB : B.length = 8) :
    (CombaMultiply8 A B).length = 16 ∧ value (CombaMultiply8 A B) = value A * value B :=
  combaMultiply_value (by decide) (columns8_product hA hB) (product_fits hA hB)

theorem CombaMultiplyBottom4_spec (hA : A.length = 4) (hB : B.length = 4) :
    (CombaMultiplyBottom4 A B).length = 4 ∧
      value (CombaMultiplyBottom4 A B) = value A * value B % (2 ^ 32) ^ 4 := by
  refine combaMultiplyBottom_value (by decide) ?_
  have hsplit : value A * value B = wordProduct A B (0, 0) + 2 ^ 32 * (wordProduct A B (0, 1) +
      wordProduct A B (1, 0) + 2 ^ 32 * (columnsSum A B (combaColumns4.take 1) +
        (2 ^ 32) ^ 1 * ([(0, 3), (1, 2), (2, 1), (3, 0)].map (wordProduct A B)).sum)) +
      (2 ^ 32) ^ 4 * (columnsSum A B (combaColumns4.drop 2) +
        (2 ^ 32) ^ 2 * wordProduct A B (3, 3)) := by
    rw [← columns4_product hA hB]
    simp only [combaColumns4, columnsSum, take, List.drop, map_cons, map_nil,
      sum_cons, sum_nil, length_cons, length_nil]
    ring
  rw [hsplit]
  exact (add_mul_mod_self_left _ _ _).symm

theorem CombaMultiplyBottom8_spec (hA : A.length = 8) (hB : B.length = 8) :
    (CombaMultiplyBottom8 A B).length = 8 ∧
      value (CombaMultiplyBottom8 A B) = value A * value B % (2 ^ 32) ^ 8 := by
  refine combaMultiplyBottom_value (by decide) ?_
  have hsplit : value A * value B = wordProduct A B (0, 0) + 2 ^ 32 * (wordProduct A B (0, 1) +
      wordProduct A B (1, 0) + 2 ^ 32 * (columnsSum A B (combaColumns8.take 5) +
        (2 ^ 32) ^ 5 * ([(0, 7), (1, 6), (2, 5), (3, 4), (4, 3), (5, 2), (6, 1), (7, 0)].map
          (wordProduct A B)).sum)) +
      (2 ^ 32) ^ 8 * (columnsSum A B (combaColumns8.drop 6) +
        (2 ^ 32) ^ 6 * wordProduct A B (7, 7)) := by
    rw [← columns8_product hA hB]
    simp only [combaColumns8, columnsSum, take, List.drop, map_cons, map_nil,
      sum_cons, sum_nil, length_cons, length_nil]
    ring
  rw [hsplit]
  exact (add_mul_mod_self_left _ _ _).symm

theorem AtomicMultiplyBottom_spec (hA : A.length = 2) (hB : B.length = 2) :
    (AtomicMultiplyBottom A B).length = 2 ∧
      value (AtomicMultiplyBottom A B) = value A * value B % (2 ^ 32) ^ 2 := by
  obtain ⟨a0, a1, rfl⟩ := length_eq_two.mp hA
  obtain ⟨b0, b1, rfl⟩ := length_eq_two.mp hB
  refine ⟨rfl, ?_⟩
  have hlt := value_lt (AtomicMultiplyBottom [a0, a1] [b0, b1])
  have hlow := low_high ((word_mul_lt a0 b0).trans_lt (by decide))
  rw [← mod_eq_of_lt hlt]
  show value [LOW_WORD (a0.toNat * b0.toNat), HIGH_WORD (a0.toNat * b0.toNat) + a0 * b1 + a1 * b0] ≡
    value [a0, a1] * value [b0, b1] [MOD (2 ^ 32) ^ 2]
  have hword : (HIGH_WORD (a0.toNat * b0.toNat) + a0 * b1 + a1 * b0).toNat ≡
      (HIGH_WORD (a0.toNat * b0.toNat)).toNat + a0.toNat * b1.toNat + a1.toNat * b0.toNat
        [MOD 2 ^ 32] := by
    rw [UInt32.toNat_add, UInt32.toNat_add, UInt32.toNat_mul, UInt32.toNat_mul]
    refine (mod_modEq _ _).trans (ModEq.add ?_ (mod_modEq _ _))
    exact (mod_modEq _ _).trans (ModEq.add_left _ (mod_modEq _ _))
  have hsplit : value [a0, a1] * value [b0, b1] = (LOW_WORD (a0.toNat * b0.toNat)).toNat +
      2 ^ 32 * ((HIGH_WORD (a0.toNat * b0.toNat)).toNat + a0.toNat * b1.toNat +
        a1.toNat * b0.toNat) + (2 ^ 32) ^ 2 * (a1.toNat * b1.toNat) := by
    simp only [value_cons, value_nil]
    linear_combination -hlow
  rw [hsplit]
  refine ModEq.trans ?_ (add_mul_mod_self_left _ _ _).symm
  simp only [value_cons, value_nil, Nat.mul_zero, Nat.add_zero]
  exact ModEq.add_left _ (ModEq.mul_left' _ hword)

end

end OsSecurity

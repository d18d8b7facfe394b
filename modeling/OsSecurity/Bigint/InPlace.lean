/-
The products where they are stored.

The functions write their result to `R` and use `T` as room to work in, and neither is cleared
before.  The halves of `R` also hold the factors of the cross product until the result is
written over them, and each call works in what another one has left.  So each function is given
here once more, with what it finds in `R` and `T` and what it leaves there: the result is that of
the function of the same name that has values only, whatever was in `R` and `T` before.

What is written is never the operands: `A` and `B` are other arrays, or halves of `R` that the call
does not write to.
-/
import OsSecurity.Bigint.AsymmetricMultiply
import OsSecurity.Bigint.MontgomeryReduce

namespace OsSecurity

open List

namespace InPlace

/-- What a function leaves in `R` and in `T`. -/
structure Stored where
  R : Words
  T : Words

/-! ### The cross product -/

/-- What the cross product leaves in the first half of `R` and in the halves of `T`, and what
is carried. -/
structure Crossed where
  R01 : Words
  T01 : Words
  T23 : Words
  carry : Int

def crossWords (multiply : Words → Words → Words → Words → Stored)
    (R01 T01 T23 A0 A1 B0 B1 : Words) : Crossed :=
  let N2 := A0.length
  let aComp := Compare A0 A1
  let bComp := Compare B0 B1
  let comp := 2 * aComp + aComp + bComp
  if comp = -4 then
    let R0 := (Subtract A1 A0).1
    let R1 := (Subtract B0 B1).1
    let s := multiply T01 T23 R0 R1
    ⟨R0 ++ R1, s.R.take N2 ++ (Subtract (s.R.drop N2) R0).1, s.T, -1⟩
  else if comp = -2 then
    let R0 := (Subtract A1 A0).1
    let R1 := (Subtract B0 B1).1
    let s := multiply T01 T23 R0 R1
    ⟨R0 ++ R1, s.R, s.T, 0⟩
  else if comp = 2 then
    let R0 := (Subtract A0 A1).1
    let R1 := (Subtract B1 B0).1
    let s := multiply T01 T23 R0 R1
    ⟨R0 ++ R1, s.R, s.T, 0⟩
  else if comp = 4 then
    let R0 := (Subtract A1 A0).1
    let R1 := (Subtract B0 B1).1
    let s := multiply T01 T23 R0 R1
    ⟨R0 ++ R1, s.R.take N2 ++ (Subtract (s.R.drop N2) R1).1, s.T, -1⟩
  else ⟨R01, replicate (2 * N2) 0, T23, 0⟩

/-- `R` gets what `f` makes of the operands, and `T` keeps its size. -/
def Stores (n : Nat) (multiply : Words → Words → Words → Words → Stored)
    (f : Words → Words → Words) : Prop :=
  ∀ R T A B, R.length = 2 * n → T.length = 2 * n → A.length = n → B.length = n →
    (multiply R T A B).R = f A B ∧ (multiply R T A B).T.length = 2 * n

section

variable {n : Nat} {multiply : Words → Words → Words → Words → Stored}
  {f : Words → Words → Words} {A B A0 A1 B0 B1 : Words}

/-- Both factors are in `R`, and the product is in the first half of `T`. -/
structure IsCrossed (n : Nat) (c : Crossed) (cross : Words × Int) : Prop where
  value : (c.T01, c.carry) = cross
  lengthR : c.R01.length = 2 * n
  lengthT : c.T23.length = 2 * n

theorem crossWords_stored (hm : Stores n multiply f) {R01 T01 T23 : Words}
    (hR : R01.length = 2 * n) (hT01 : T01.length = 2 * n) (hT23 : T23.length = 2 * n)
    (hA0 : A0.length = n) (hA1 : A1.length = n) (hB0 : B0.length = n) (hB1 : B1.length = n) :
    IsCrossed n (crossWords multiply R01 T01 T23 A0 A1 B0 B1)
      (OsSecurity.crossWords f A0 A1 B0 B1) := by
  have hsub : ∀ {X X' : Words}, X.length = n → X'.length = n → (Subtract X X').1.length = n :=
    fun hX hX' => (Subtract_length (hX.trans hX'.symm)).trans hX
  -- the factors fill the half of `R`, and their product the half of `T`
  have hproduct : ∀ {X X' Y Y' : Words}, X.length = n → X'.length = n → Y.length = n →
      Y'.length = n → (multiply T01 T23 (Subtract X X').1 (Subtract Y Y').1).R =
          f (Subtract X X').1 (Subtract Y Y').1 ∧
        (multiply T01 T23 (Subtract X X').1 (Subtract Y Y').1).T.length = 2 * n ∧
        ((Subtract X X').1 ++ (Subtract Y Y').1).length = 2 * n := by
    intro X X' Y Y' hX hX' hY hY'
    obtain ⟨hresult, hroom⟩ := hm T01 T23 _ _ hT01 hT23 (hsub hX hX') (hsub hY hY')
    refine ⟨hresult, hroom, ?_⟩
    rw [length_append, hsub hX hX', hsub hY hY', Nat.two_mul]
  obtain ⟨h10, hT10, hR10⟩ := hproduct hA1 hA0 hB0 hB1
  obtain ⟨h01, hT01', hR01'⟩ := hproduct hA0 hA1 hB1 hB0
  unfold crossWords OsSecurity.crossWords
  simp only
  generalize 2 * Compare A0 A1 + Compare A0 A1 + Compare B0 B1 = comp
  by_cases h4 : comp = -4
  · rw [if_pos h4, if_pos h4, h10]
    exact ⟨rfl, hR10, hT10⟩
  rw [if_neg h4, if_neg h4]
  by_cases h2 : comp = -2
  · rw [if_pos h2, if_pos h2, h10]
    exact ⟨rfl, hR10, hT10⟩
  rw [if_neg h2, if_neg h2]
  by_cases h2' : comp = 2
  · rw [if_pos h2', if_pos h2', h01]
    exact ⟨rfl, hR01', hT01'⟩
  rw [if_neg h2', if_neg h2']
  by_cases h4' : comp = 4
  · rw [if_pos h4', if_pos h4', h10]
    exact ⟨rfl, hR10, hT10⟩
  rw [if_neg h4', if_neg h4']
  exact ⟨rfl, hR, hT23⟩

end

/-! ### Whole products -/

def RecursiveMultiply (R T A B : Words) (N : Nat) : Stored :=
  if N = 2 then ⟨AtomicMultiply (A.getD 0 0) (A.getD 1 0) (B.getD 0 0) (B.getD 1 0), T⟩
  else if N = 4 then ⟨CombaMultiply4 A B, T⟩
  else if N = 8 then ⟨CombaMultiply8 A B, T⟩
  else if 2 ≤ N then
    let N2 := N / 2
    let A0 := A.take N2
    let A1 := A.drop N2
    let B0 := B.take N2
    let B1 := B.drop N2
    let c := crossWords (fun R T X Y => RecursiveMultiply R T X Y N2)
      (R.take N) (T.take N) (T.drop N) A0 A1 B0 B1
    let s01 := RecursiveMultiply c.R01 c.T23 A0 B0 N2
    let s23 := RecursiveMultiply (R.drop N) s01.T A1 B1 N2
    let (T01, carry1) := Add c.T01 s01.R
    let (T01, carry2) := Add T01 s23.R
    let (R12, carry3) := Add (s01.R.drop N2 ++ s23.R.take N2) T01
    let carry := c.carry + carry1.toNat + carry2.toNat + carry3.toNat
    ⟨s01.R.take N2 ++ R12 ++ (Increment (s23.R.drop N2) (UInt32.ofInt carry)).1, T01 ++ s23.T⟩
  else ⟨R, T⟩
termination_by N
decreasing_by all_goals omega

def RecursiveSquare (R T A : Words) (N : Nat) : Stored :=
  if N = 2 then ⟨AtomicMultiply (A.getD 0 0) (A.getD 1 0) (A.getD 0 0) (A.getD 1 0), T⟩
  else if N = 4 then ⟨CombaMultiply4 A A, T⟩
  else if 2 ≤ N then
    let N2 := N / 2
    let A0 := A.take N2
    let A1 := A.drop N2
    let s01 := RecursiveSquare (R.take N) (T.drop N) A0 N2
    let s23 := RecursiveSquare (R.drop N) s01.T A1 N2
    let t := RecursiveMultiply (T.take N) s23.T A0 A1 N2
    let (R12, carry1) := Add (s01.R.drop N2 ++ s23.R.take N2) t.R
    let (R12, carry2) := Add R12 t.R
    ⟨s01.R.take N2 ++ R12 ++ (Increment (s23.R.drop N2) (carry1 + carry2)).1, t.R ++ t.T⟩
  else ⟨R, T⟩
termination_by N
decreasing_by all_goals omega

section

variable {k N n : Nat} {R T A B : Words}

theorem RecursiveMultiply_halves (h2 : n ≠ 2) (h4 : n ≠ 4) (hn : 1 < n) :
    RecursiveMultiply R T A B (2 * n) =
      (let c := crossWords (fun R T X Y => RecursiveMultiply R T X Y n) (R.take (2 * n))
        (T.take (2 * n)) (T.drop (2 * n)) (A.take n) (A.drop n) (B.take n) (B.drop n)
      let s01 := RecursiveMultiply c.R01 c.T23 (A.take n) (B.take n) n
      let s23 := RecursiveMultiply (R.drop (2 * n)) s01.T (A.drop n) (B.drop n) n
      let T01 := Add (Add c.T01 s01.R).1 s23.R
      ⟨joinProducts n (c.T01, c.carry) s01.R s23.R, T01.1 ++ s23.T⟩) := by
  have hhalf : 2 * n / 2 = n := by omega
  rw [RecursiveMultiply.eq_def, if_neg (by omega), if_neg (by omega), if_neg (by omega),
    if_pos (by omega)]
  simp only [hhalf]
  rfl

theorem take_drop_length {X : Words} {m : Nat} (h : X.length = 2 * m) :
    (X.take m).length = m ∧ (X.drop m).length = m := by
  rw [length_take, length_drop, h]
  omega

/-- **`RecursiveMultiply`, stored** -/
theorem RecursiveMultiply_stored (hN : N = 2 ^ (k + 1)) :
    Stores N (fun R T A B => RecursiveMultiply R T A B N)
      (fun A B => OsSecurity.RecursiveMultiply A B N) := by
  induction k generalizing N with
  | zero =>
      intro R T A B hR hT hA hB
      rw [hN]
      simp only
      rw [RecursiveMultiply.eq_def, OsSecurity.RecursiveMultiply.eq_def, if_pos (by decide),
        if_pos (by decide)]
      exact ⟨rfl, hT.trans (by rw [hN])⟩
  | succ k ih =>
      obtain ⟨n, hn, hdouble, hpos, heven⟩ := half_pow hN
      intro R T A B hR hT hA hB
      rw [hdouble] at hR hT hA hB ⊢
      simp only
      by_cases h2 : n = 2
      · rw [h2] at hT ⊢
        rw [RecursiveMultiply.eq_def, OsSecurity.RecursiveMultiply.eq_def, if_neg (by decide),
          if_pos (by decide), if_neg (by decide), if_pos (by decide)]
        exact ⟨rfl, hT⟩
      by_cases h4 : n = 4
      · rw [h4] at hT ⊢
        rw [RecursiveMultiply.eq_def, OsSecurity.RecursiveMultiply.eq_def, if_neg (by decide),
          if_neg (by decide), if_pos (by decide), if_neg (by decide), if_neg (by decide),
          if_pos (by decide)]
        exact ⟨rfl, hT⟩
      have hm := ih hn
      obtain ⟨hR01, hR23⟩ := take_drop_length hR
      obtain ⟨hT01, hT23⟩ := take_drop_length hT
      obtain ⟨hA0, hA1⟩ := take_drop_length hA
      obtain ⟨hB0, hB1⟩ := take_drop_length hB
      have hcrossed := crossWords_stored hm hR01 hT01 hT23 hA0 hA1 hB0 hB1
      have hcross := crossWords_spec (RecursiveMultiply_spec hn) hA0 hA1 hB0 hB1
      rw [RecursiveMultiply_halves h2 h4 (by omega),
        OsSecurity.RecursiveMultiply_halves h2 h4 (by omega)]
      simp only
      generalize crossWords _ _ _ _ _ _ _ _ = c at *
      rw [← hcrossed.value] at hcross ⊢
      obtain ⟨h01, hroom⟩ := hm c.R01 c.T23 _ _ hcrossed.lengthR hcrossed.lengthT hA0 hB0
      simp only at h01 hroom
      obtain ⟨h23, hroom'⟩ := hm (R.drop (2 * n)) _ _ _ hR23 hroom hA1 hB1
      simp only at h23 hroom'
      rw [h01, h23]
      refine ⟨rfl, ?_⟩
      have hlen01 := (RecursiveMultiply_spec hn _ _ hA0 hB0).1
      have hlen23 := (RecursiveMultiply_spec hn _ _ hA1 hB1).1
      have hsum := Add_length (hcross.length.trans hlen01.symm)
      rw [length_append, hroom', Add_length ((hsum.trans hcross.length).trans hlen23.symm),
        hsum, hcross.length, Nat.two_mul (2 * n)]

theorem RecursiveSquare_halves (h2 : n ≠ 2) (hn : 1 < n) :
    RecursiveSquare R T A (2 * n) =
      (let s01 := RecursiveSquare (R.take (2 * n)) (T.drop (2 * n)) (A.take n) n
      let s23 := RecursiveSquare (R.drop (2 * n)) s01.T (A.drop n) n
      let t := RecursiveMultiply (T.take (2 * n)) s23.T (A.take n) (A.drop n) n
      let sum1 := Add (s01.R.drop n ++ s23.R.take n) t.R
      let sum2 := Add sum1.1 t.R
      ⟨s01.R.take n ++ sum2.1 ++ (Increment (s23.R.drop n) (sum1.2 + sum2.2)).1, t.R ++ t.T⟩) := by
  have hhalf : 2 * n / 2 = n := by omega
  rw [RecursiveSquare.eq_def, if_neg (by omega), if_neg (by omega), if_pos (by omega)]
  simp only [hhalf]

/-- **`RecursiveSquare`, stored** -/
theorem RecursiveSquare_stored (hN : N = 2 ^ (k + 1)) :
    Stores N (fun R T A _ => RecursiveSquare R T A N)
      (fun A _ => OsSecurity.RecursiveSquare A N) := by
  induction k generalizing N with
  | zero =>
      intro R T A B hR hT hA hB
      rw [hN]
      simp only
      rw [RecursiveSquare.eq_def, OsSecurity.RecursiveSquare.eq_def, if_pos (by decide),
        if_pos (by decide)]
      exact ⟨rfl, hT.trans (by rw [hN])⟩
  | succ k ih =>
      obtain ⟨n, hn, hdouble, hpos, heven⟩ := half_pow hN
      intro R T A B hR hT hA hB
      rw [hdouble] at hR hT hA ⊢
      simp only
      by_cases h2 : n = 2
      · rw [h2] at hT ⊢
        rw [RecursiveSquare.eq_def, OsSecurity.RecursiveSquare.eq_def, if_neg (by decide),
          if_pos (by decide), if_neg (by decide), if_pos (by decide)]
        exact ⟨rfl, hT⟩
      obtain ⟨hR01, hR23⟩ := take_drop_length hR
      obtain ⟨hT01, hT23⟩ := take_drop_length hT
      obtain ⟨hA0, hA1⟩ := take_drop_length hA
      rw [RecursiveSquare_halves h2 (by omega), OsSecurity.RecursiveSquare_halves h2 (by omega)]
      simp only
      obtain ⟨h01, hroom⟩ := ih hn (R.take (2 * n)) (T.drop (2 * n)) _ _ hR01 hT23 hA0 hA0
      simp only at h01 hroom
      obtain ⟨h23, hroom'⟩ := ih hn (R.drop (2 * n)) _ _ _ hR23 hroom hA1 hA1
      simp only at h23 hroom'
      obtain ⟨hproduct, hroom''⟩ := RecursiveMultiply_stored hn (T.take (2 * n)) _ _ _ hT01
        hroom' hA0 hA1
      simp only at hproduct hroom''
      rw [h01, h23, hproduct]
      refine ⟨rfl, ?_⟩
      rw [length_append, hroom'', (RecursiveMultiply_spec hn _ _ hA0 hA1).1, Nat.two_mul (2 * n)]

end

/-! ### Numbers of different sizes -/

/-- The products with the blocks 2, 4, … from `i` on, which go to `T`. -/
def evenBlocks (A B : Words) : Nat → Nat → Words → Words
  | 0, _, T => T
  | turns + 1, i, T =>
    let NA := A.length
    let s := RecursiveMultiply (part T (NA + i) (2 * NA)) (part T 0 (2 * NA)) A (part B i NA) NA
    evenBlocks A B turns (i + 2 * NA) (writeAt (writeAt T 0 s.T) (NA + i) s.R)

/-- The products with the blocks 1, 3, … from `i` on, which go to `R`. -/
def oddBlocks (A B : Words) : Nat → Nat → Words → Words → Stored
  | 0, _, R, T => ⟨R, T⟩
  | turns + 1, i, R, T =>
    let NA := A.length
    let s := RecursiveMultiply (part R i (2 * NA)) (part T 0 (2 * NA)) A (part B i NA) NA
    oddBlocks A B turns (i + 2 * NA) (writeAt R i s.R) (writeAt T 0 s.T)

def multiplyBlocks (R T A B : Words) : Stored :=
  let NA := A.length
  let NB := B.length
  let s := RecursiveMultiply (part R 0 (2 * NA)) (part T 0 (2 * NA)) A (part B 0 NA) NA
  let R := writeAt R 0 s.R
  let T := writeAt (writeAt T 0 s.T) (2 * NA) (part R NA NA)
  let T := evenBlocks A B (NB / NA / 2 - 1) (2 * NA) T
  let s := oddBlocks A B (NB / NA / 2) NA R T
  let sum := Add (part s.R NA (NB - NA)) (part s.T (2 * NA) (NB - NA))
  let R := writeAt s.R NA sum.1
  ⟨if sum.2 ≠ 0 then writeAt R NB (Increment (part R NB NA) 1).1 else R, s.T⟩

/-- The branch for different sizes, `A` the smaller number. -/
def multiplyUnequal (R T A B : Words) : Stored :=
  if A.length = 2 ∧ A.getD 1 0 = 0 then
    if A.getD 0 0 = 0 then ⟨replicate (B.length + 2) 0, T⟩
    else if A.getD 0 0 = 1 then ⟨B ++ [0, 0], T⟩
    else ⟨(LinearMultiply B (A.getD 0 0)).1 ++ [(LinearMultiply B (A.getD 0 0)).2, 0], T⟩
  else multiplyBlocks R T A B

/-- `same` where the two pointers are equal. -/
def AsymmetricMultiply (same : Bool) (R T A B : Words) : Stored :=
  if A.length = B.length then
    if same then RecursiveSquare R T A A.length else RecursiveMultiply R T A B A.length
  else if A.length > B.length then multiplyUnequal R T B A
  else multiplyUnequal R T A B

section

variable {k turns j n : Nat} {A B X Y w : Words}

theorem part_append (h : X.length = j) : part (X ++ Y) j n = Y.take n := by
  unfold part
  rw [drop_left' h]

theorem part_front (h : X.length = n) : part (X ++ Y) 0 n = X := by
  unfold part
  rw [drop_zero, take_left' h]

theorem writeAt_append (h : X.length = j) (hw : w.length = n) :
    writeAt (X ++ Y) j w = X ++ w ++ Y.drop n := by
  unfold writeAt
  rw [← h, ← hw, take_left, drop_length_add_append]

theorem writeAt_front (h : X.length = w.length) : writeAt (X ++ Y) 0 w = w ++ Y := by
  unfold writeAt
  rw [take_zero, nil_append, Nat.zero_add, drop_left' h]

/-- A product goes to the next place for one. -/
theorem block_stored (hA : A.length = 2 ^ (k + 1)) {i : Nat} {W Q : Words}
    (hW : W.length = 2 * A.length) (hQ : 2 * A.length ≤ Q.length) (hB : i + A.length ≤ B.length) :
    ∃ W', W'.length = 2 * A.length ∧
      RecursiveMultiply (Q.take (2 * A.length)) W A (part B i A.length) A.length =
        ⟨OsSecurity.RecursiveMultiply A (part B i A.length) A.length, W'⟩ ∧
      (OsSecurity.RecursiveMultiply A (part B i A.length) A.length).length = 2 * A.length := by
  have hblock := part_length hB
  obtain ⟨hresult, hroom⟩ := RecursiveMultiply_stored hA (Q.take (2 * A.length)) W A
    (part B i A.length) (length_take_of_le hQ) hW rfl hblock
  simp only at hresult hroom
  exact ⟨_, hroom, by rw [← hresult], (RecursiveMultiply_spec hA A _ rfl hblock).1⟩

/-- The first product and the others. -/
theorem blocks_append (turns i : Nat) (A B P Q : Words) :
    P ++ OsSecurity.RecursiveMultiply A (part B i A.length) A.length ++
        (alternateProducts A turns (B.drop (i + 2 * A.length)) ++
          (Q.drop (2 * A.length)).drop (2 * A.length * turns)) =
      P ++ (alternateProducts A (turns + 1) (B.drop i) ++
        Q.drop (2 * A.length * (turns + 1))) := by
  rw [alternateProducts_succ, drop_drop, drop_drop, Nat.mul_succ, List.append_assoc,
    List.append_assoc, Nat.add_comm (2 * A.length)]
  rfl

section

variable (hA : A.length = 2 ^ (k + 1))
include hA

/-- The products go behind `P`, one after the other. -/
theorem evenBlocks_stored {i : Nat} {W P Q : Words} (hW : W.length = 2 * A.length)
    (hP : A.length + i = 2 * A.length + P.length) (hQ : 2 * A.length * turns ≤ Q.length)
    (hB : i + 2 * A.length * turns ≤ B.length + A.length) :
    ∃ W', W'.length = 2 * A.length ∧ evenBlocks A B turns i (W ++ (P ++ Q)) =
      W' ++ (P ++ (alternateProducts A turns (B.drop i) ++ Q.drop (2 * A.length * turns))) := by
  induction turns generalizing i W P Q with
  | zero => exact ⟨W, hW, by simp [evenBlocks, alternateProducts]⟩
  | succ turns ih =>
      rw [Nat.mul_succ] at hQ hB
      obtain ⟨W1, hW1, hproduct, hlen⟩ := block_stored (B := B) (i := i) (Q := Q) hA hW (by omega)
        (by omega)
      have hplace : part (W ++ (P ++ Q)) (A.length + i) (2 * A.length) = Q.take (2 * A.length) := by
        rw [← List.append_assoc, part_append (by rw [length_append, hW, hP])]
      have hW1P : (W1 ++ P).length = A.length + i := by rw [length_append, hW1, hP]
      unfold evenBlocks
      simp only
      rw [hplace, part_front hW, hproduct, writeAt_front (hW.trans hW1.symm),
        ← List.append_assoc, writeAt_append hW1P hlen, List.append_assoc, List.append_assoc,
        ← List.append_assoc P, ← blocks_append]
      exact ih hW1 (by rw [length_append, hlen]; omega) (by rw [length_drop]; omega) (by omega)

/-- The products go behind `P`, one after the other, and what is behind the room to work in
stays. -/
theorem oddBlocks_stored {i : Nat} {W S P Q : Words} (hW : W.length = 2 * A.length)
    (hP : P.length = i) (hQ : 2 * A.length * turns ≤ Q.length)
    (hB : i + 2 * A.length * turns ≤ B.length + A.length) :
    ∃ W', W'.length = 2 * A.length ∧ oddBlocks A B turns i (P ++ Q) (W ++ S) =
      ⟨P ++ (alternateProducts A turns (B.drop i) ++ Q.drop (2 * A.length * turns)), W' ++ S⟩ := by
  induction turns generalizing i W P Q with
  | zero => exact ⟨W, hW, by simp [oddBlocks, alternateProducts]⟩
  | succ turns ih =>
      rw [Nat.mul_succ] at hQ hB
      obtain ⟨W1, hW1, hproduct, hlen⟩ := block_stored (B := B) (i := i) (Q := Q) hA hW (by omega)
        (by omega)
      unfold oddBlocks
      simp only
      rw [part_append hP, part_front hW, hproduct, writeAt_front (hW.trans hW1.symm),
        writeAt_append hP hlen, ← blocks_append]
      exact ih hW1 (by rw [length_append, hlen]; omega) (by rw [length_drop]; omega) (by omega)

theorem multiplyBlocks_stored (turns : Nat) (hB : B.length = 2 * A.length * (turns + 1))
    {R T : Words} (hR : R.length = A.length + B.length) (hT : T.length = A.length + B.length) :
    (multiplyBlocks R T A B).R = OsSecurity.multiplyBlocks A B := by
  have hpos : 0 < A.length := by
    rw [hA]
    exact Nat.two_pow_pos _
  have hstep : 2 * A.length * (turns + 1) = 2 * A.length * turns + 2 * A.length :=
    Nat.mul_succ _ _
  have hturns : B.length / A.length / 2 = turns + 1 := by
    rw [hB, Nat.mul_right_comm, Nat.mul_div_cancel _ hpos]
    omega
  have hle : A.length ≤ B.length := by omega
  have hupperLength : A.length + 2 * A.length * turns = B.length - A.length := by omega
  obtain ⟨W, hroom, hresult, hlen⟩ := block_stored (B := B) (i := 0) (Q := R)
    (W := part T 0 (2 * A.length)) hA (part_length (by omega)) (by omega) (by omega)
  have heven := alternateProducts_length hA turns (B := B.drop (2 * A.length))
    (by rw [length_drop]; omega)
  have hodd := alternateProducts_length hA (turns + 1) (B := B.drop A.length)
    (by rw [length_drop]; omega)
  have hplace : part R 0 (2 * A.length) = R.take (2 * A.length) := rfl
  have hblock : part B 0 A.length = B.take A.length := rfl
  unfold multiplyBlocks OsSecurity.multiplyBlocks
  simp only
  rw [hplace, hresult, hturns, Nat.add_sub_cancel]
  rw [hblock] at hlen ⊢
  generalize OsSecurity.RecursiveMultiply A (B.take A.length) A.length = first at *
  -- the first product, and its upper half behind the room to work in
  have hR1 : writeAt R 0 first = first ++ R.drop (2 * A.length) := by
    unfold writeAt
    rw [take_zero, nil_append, Nat.zero_add, hlen]
  have hT1 : writeAt T 0 W = W ++ T.drop (2 * A.length) := by
    unfold writeAt
    rw [take_zero, nil_append, Nat.zero_add, hroom]
  have hsplit : first = first.take A.length ++ first.drop A.length :=
    (take_append_drop A.length first).symm
  obtain ⟨hlow, hhigh⟩ := take_drop_length hlen
  have hupper : part (first ++ R.drop (2 * A.length)) A.length A.length = first.drop A.length := by
    conv_lhs => rw [hsplit]
    rw [List.append_assoc, part_append hlow, take_left' hhigh]
  rw [hR1, hT1, hupper, writeAt_append hroom hhigh, drop_drop, List.append_assoc]
  have hfree : 2 * A.length * turns ≤ (T.drop (2 * A.length + A.length)).length := by
    rw [length_drop]
    omega
  obtain ⟨W1, hW1, hevens⟩ := evenBlocks_stored (B := B) hA (i := 2 * A.length) (W := W)
    (P := first.drop A.length) (Q := T.drop (2 * A.length + A.length)) hroom (by omega)
    hfree (by omega)
  have hnoneT : (T.drop (2 * A.length + A.length)).drop (2 * A.length * turns) = [] := by
    apply drop_eq_nil_of_le
    rw [length_drop]
    omega
  rw [hevens, hnoneT, append_nil]
  have hR2 : first ++ R.drop (2 * A.length) =
      first.take A.length ++ (first.drop A.length ++ R.drop (2 * A.length)) := by
    rw [← List.append_assoc, ← hsplit]
  have hrest : (first.drop A.length ++ R.drop (2 * A.length)).length = B.length := by
    rw [length_append, length_drop, length_drop]
    omega
  obtain ⟨W2, hW2, hodds⟩ := oddBlocks_stored (B := B) hA (i := A.length) (W := W1)
    (S := first.drop A.length ++ alternateProducts A turns (B.drop (2 * A.length)))
    (P := first.take A.length) (Q := first.drop A.length ++ R.drop (2 * A.length)) hW1 hlow
    (hB.symm.trans hrest.symm).le (by omega)
  have hnoneR : (first.drop A.length ++ R.drop (2 * A.length)).drop
      (2 * A.length * (turns + 1)) = [] := drop_eq_nil_of_le (by omega)
  rw [hR2, hodds, hnoneR, append_nil]
  simp only
  generalize alternateProducts A turns (B.drop (2 * A.length)) = even at *
  generalize alternateProducts A (turns + 1) (B.drop A.length) = odd at *
  -- the sum of the two numbers
  have hT2 : (first.drop A.length ++ even).length = B.length - A.length := by
    rw [length_append, hhigh, heven, hupperLength]
  have hoddLength : odd.length = B.length := hodd.trans hB.symm
  rw [part_append hlow, part_append hW2, take_of_length_le hT2.le]
  have hbottom : (odd.take (B.length - A.length)).length = B.length - A.length :=
    length_take_of_le ((Nat.sub_le _ _).trans hoddLength.ge)
  have hsum := (Add_length (hbottom.trans hT2.symm)).trans hbottom
  generalize Add (odd.take (B.length - A.length)) (first.drop A.length ++ even) = sum at *
  rw [writeAt_append hlow hsum]
  have hbelow : (first.take A.length ++ sum.1).length = B.length := by
    rw [length_append, hlow, hsum, Nat.add_sub_cancel' hle]
  have htop : (odd.drop (B.length - A.length)).length = A.length := by
    rw [length_drop, hoddLength, Nat.sub_sub_self hle]
  by_cases hcarry : sum.2 ≠ 0
  · have hnone : (odd.drop (B.length - A.length)).drop A.length = [] :=
      drop_eq_nil_of_le htop.le
    rw [if_pos hcarry, if_pos hcarry, part_append hbelow, take_of_length_le htop.le,
      writeAt_append hbelow ((Increment_length _ _).trans htop), hnone, append_nil]
  · rw [if_neg hcarry, if_neg hcarry]

theorem multiplyUnequal_stored (hB : B.length = 2 * A.length * (turns + 1)) {R T : Words}
    (hR : R.length = A.length + B.length) (hT : T.length = A.length + B.length) :
    (multiplyUnequal R T A B).R = OsSecurity.multiplyUnequal A B := by
  unfold multiplyUnequal OsSecurity.multiplyUnequal
  by_cases hword : A.length = 2 ∧ A.getD 1 0 = 0
  · rw [if_pos hword, if_pos hword]
    by_cases hnone : A.getD 0 0 = 0
    · rw [if_pos hnone, if_pos hnone]
    rw [if_neg hnone, if_neg hnone]
    by_cases hone : A.getD 0 0 = 1
    · rw [if_pos hone, if_pos hone]
    · rw [if_neg hone, if_neg hone]
  · rw [if_neg hword, if_neg hword]
    exact multiplyBlocks_stored hA turns hB hR hT

end

/-- **`AsymmetricMultiply`, stored** -/
theorem AsymmetricMultiply_stored {same : Bool} {small large : Nat} (hsmall : small = 2 ^ (k + 1))
    (h : Sizes small large A B) {R T : Words} (hR : R.length = A.length + B.length)
    (hT : T.length = A.length + B.length) :
    (AsymmetricMultiply same R T A B).R = OsSecurity.AsymmetricMultiply same A B := by
  have hpos : 0 < small := by
    rw [hsmall]
    exact Nat.two_pow_pos _
  unfold AsymmetricMultiply OsSecurity.AsymmetricMultiply
  by_cases heq : A.length = B.length
  · have hA := (h.of_eq heq).trans hsmall
    rw [← heq, ← Nat.two_mul] at hR hT
    rw [if_pos heq, if_pos heq]
    by_cases hpointer : same = true
    · rw [if_pos hpointer, if_pos hpointer]
      exact (RecursiveSquare_stored hA R T A A hR hT rfl rfl).1
    · rw [if_neg hpointer, if_neg hpointer]
      exact (RecursiveMultiply_stored hA R T A B hR hT rfl heq.symm).1
  obtain ⟨hmore, hless⟩ := h.of_ne hpos heq
  rw [if_neg heq, if_neg heq]
  by_cases hgt : A.length > B.length
  · obtain ⟨hB, turns, hturns⟩ := hmore hgt
    rw [if_pos hgt, if_pos hgt]
    exact multiplyUnequal_stored (hB.trans hsmall) hturns (by omega) (by omega)
  · obtain ⟨hA, turns, hturns⟩ := hless hgt
    rw [if_neg hgt, if_neg hgt]
    exact multiplyUnequal_stored (hA.trans hsmall) hturns hR hT

end

end InPlace

end OsSecurity

/-
`TInteger::InverseModL`, and the functions of `algorithms.cpp` that it calls.

For an odd modulus there is a work space of four times as many words as the modulus has.  The
number is copied to the third part with all the words of its cell: what does not fit there goes
to the fourth, where the modulus is written over it, and from there on beyond the end of the
work space.  A number that is not less than the modulus is reduced first, and is then in a cell
that is not larger than that of the modulus.
-/
import OsSecurity.Bigint.AlmostInverse
import OsSecurity.Bigint.Octets

namespace OsSecurity

open List Nat

/-- `T` is the work space. -/
def AlmostInverse (T A M : Words) : Leaving (Words × Nat) :=
  let N := M.length
  if 2 * N + A.length ≤ T.length then
    let T := writeAt T 0 (replicate (3 * N) 0)
    let T := writeAt T 0 [1]
    let T := writeAt T (2 * N) A
    let T := writeAt T (3 * N) M
    InverseState.loop M (2 * WORD_BITS * N + 2)
      { b := part T 0 N
        c := part T N N
        f := part T (2 * N) N
        g := part T (3 * N) N
        bcLen := 2
        fgLen := EvenWordCount M N
        k := 0
        s := 0 }
  else .error .undefined

def halveMod (M R : Words) : Words :=
  if R.getD 0 0 % 2 = 0 then (ShiftWordsRightByBits R 1).1
  else
    let sum := Add R M
    let shifted := (ShiftWordsRightByBits sum.1 1).1
    writeAt shifted (M.length - 1)
      [shifted.getD (M.length - 1) 0 + (sum.2 <<< UInt32.ofNat (WORD_BITS - 1))]

def DivideByPower2Mod (A : Words) (k : Nat) (M : Words) : Words := (halveMod M)^[k] A

namespace TInteger

def isEven (self : TInteger) : Bool := !self.bit 0

/-- The calls are bounded: it calls itself at most three times. -/
def inverseModL : Nat → TInteger → TInteger → Leaving TInteger
  | 0, _, _ => .error .undefined
  | calls + 1, self, aMod =>
    if self.isNegative || self.signedCompare aMod ≥ 0 then do
      let temp ← self.moduloL aMod
      inverseModL calls temp aMod
    else if aMod.isEven then
      if aMod.isZero || self.isEven then .ok zero
      else if self.signedCompare one = 0 then .ok one
      else do
        let u ← inverseModL calls aMod self
        if u.isZero then return zero
        else
          -- `(aMod*(*this-u)+1)/(*this)`
          let result ← self.minusL u
          let result ← result.timesL (.other aMod)
          let result ← result.increment
          result.dividedByL self
    else do
      let result := cleanNewL aMod.size
      let workspace := cleanNewL (aMod.size * 4)
      let (R, k) ← AlmostInverse workspace.words self.words aMod.words
      result.store (DivideByPower2Mod R k aMod.words)

end TInteger

/-! ### The work space -/

section

variable {A w : Words} {i j n : Nat}

theorem part_writeAt_below (h : i + w.length ≤ A.length) (hbelow : j + n ≤ i) :
    part (writeAt A i w) j n = part A j n := by
  unfold part writeAt
  rw [List.append_assoc, drop_append_of_le_length (by rw [length_take]; omega),
    take_append_of_le_length (by rw [length_drop, length_take]; omega),
    drop_take, take_take, Nat.min_eq_left (by omega)]

theorem part_writeAt_above (h : i + w.length ≤ j) (hA : i ≤ A.length) :
    part (writeAt A i w) j n = part A j n := by
  have hlen : (A.take i ++ w).length = i + w.length := by
    rw [length_append, length_take_of_le hA]
  unfold part writeAt
  rw [drop_append, hlen, drop_of_length_le (by omega), nil_append, drop_drop]
  congr 2
  omega

theorem part_writeAt_inside (hA : i ≤ A.length) (hi : i ≤ j) (h : j + n ≤ i + w.length) :
    part (writeAt A i w) j n = part w (j - i) n := by
  have hlen : (A.take i).length = i := length_take_of_le hA
  unfold part writeAt
  rw [List.append_assoc, drop_append, hlen, drop_of_length_le (by omega), nil_append,
    drop_append_of_le_length (by omega),
    take_append_of_le_length (by rw [length_drop]; omega)]

/-- What is written somewhere, and what comes behind it. -/
theorem part_writeAt (hA : i ≤ A.length) :
    part (writeAt A i w) i n = w.take n ++ part A (i + w.length) (n - w.length) := by
  unfold part
  rw [writeAt_drop hA, take_append]

theorem part_replicate {k : Nat} (h : j + n ≤ k) :
    part (replicate k (0 : UInt32)) j n = replicate n 0 := by
  unfold part
  rw [drop_replicate, take_replicate, Nat.min_eq_left (by omega)]

end

section

variable {T A M : Words} {N : Nat}

/-- The work space with the numbers in it. -/
def workspaceOf (T A M : Words) : Words :=
  writeAt (writeAt (writeAt (writeAt T 0 (replicate (3 * M.length) 0)) 0 [1])
    (2 * M.length) A) (3 * M.length) M

theorem workspaceOf_parts (hN : 2 ≤ M.length) (hT : T.length = 4 * M.length)
    (hroom : A.length ≤ 2 * M.length) :
    part (workspaceOf T A M) 0 M.length = 1 :: replicate (M.length - 1) 0 ∧
      part (workspaceOf T A M) M.length M.length = replicate M.length 0 ∧
      part (workspaceOf T A M) (2 * M.length) M.length =
        A.take M.length ++ replicate (M.length - A.length) 0 ∧
      part (workspaceOf T A M) (3 * M.length) M.length = M := by
  generalize hN' : M.length = N at *
  have hzeros : (replicate (3 * N) (0 : UInt32)).length = 3 * N := length_replicate
  have h0 := writeAt_length (A := T) (j := 0) (w := replicate (3 * N) 0) (by omega)
  have hpart0 : ∀ {j n}, j + n ≤ 3 * N →
      part (writeAt T 0 (replicate (3 * N) 0)) j n = replicate n 0 := by
    intro j n hj
    rw [part_writeAt_inside (Nat.zero_le _) (Nat.zero_le _) (by omega), part_replicate (by omega)]
  unfold workspaceOf
  rw [hN']
  generalize writeAt T 0 (replicate (3 * N) 0) = W0 at h0 hpart0
  have h1 := writeAt_length (A := W0) (j := 0) (w := [1]) (by rw [length_singleton]; omega)
  have hfirst : part (writeAt W0 0 [1]) 0 N = 1 :: replicate (N - 1) 0 := by
    rw [part_writeAt (Nat.zero_le _), length_singleton, hpart0 (by omega),
      take_of_length_le (by rw [length_singleton]; omega)]
    rfl
  have hpart1 : ∀ {j n}, 1 ≤ j → j + n ≤ 3 * N →
      part (writeAt W0 0 [1]) j n = replicate n 0 := by
    intro j n hone hj
    rw [part_writeAt_above (by rw [length_singleton]; omega) (Nat.zero_le _), hpart0 hj]
  generalize writeAt W0 0 [1] = W1 at h1 hfirst hpart1
  have h2 := writeAt_length (A := W1) (j := 2 * N) (w := A) (by omega)
  refine ⟨?_, ?_, ?_, ?_⟩
  · rw [part_writeAt_below (by omega) (by omega), part_writeAt_below (by omega) (by omega), hfirst]
  · rw [part_writeAt_below (by omega) (by omega), part_writeAt_below (by omega) (by omega),
      hpart1 (by omega) (by omega)]
  · rw [part_writeAt_below (by omega) (by omega), part_writeAt (by omega)]
    rcases Nat.le_total N A.length with hmore | hless
    · rw [Nat.sub_eq_zero_of_le hmore]
      rfl
    · rw [hpart1 (by omega) (by omega)]
  · rw [part_writeAt_inside (by omega) (Nat.le_refl _) (by omega), Nat.sub_self]
    exact take_of_length_le hN'.le

/-- **What the loop starts from.** -/
theorem start_holds (hN : M.length % 2 = 0) (htwo : 2 ≤ M.length) (hA : value A < value M)
    (hT : T.length = 4 * M.length) (hroom : A.length ≤ 2 * M.length) :
    InverseState.Holds M.length
      { b := part (workspaceOf T A M) 0 M.length
        c := part (workspaceOf T A M) M.length M.length
        f := part (workspaceOf T A M) (2 * M.length) M.length
        g := part (workspaceOf T A M) (3 * M.length) M.length
        bcLen := 2
        fgLen := EvenWordCount M M.length
        k := 0
        s := 0 } (.start (value A) (value M)) := by
  obtain ⟨hb, hc, hf, hg⟩ := workspaceOf_parts htwo hT hroom
  obtain ⟨huse, hle⟩ := EvenWordCount_inUse (X := M) (n := M.length) (Nat.le_refl _) hN
  rw [take_length] at huse
  have hne : EvenWordCount M M.length ≠ 0 := mt huse.eq_zero_iff.mp (by omega)
  have heven := huse.even
  have hMlt := value_lt M
  have htake : value (A.take M.length) = value A := by
    rcases Nat.le_total M.length A.length with hmore | hless
    · rw [value_take _ hmore]
      exact mod_eq_of_lt (hA.trans hMlt)
    · rw [take_of_length_le hless]
  rw [hb, hc, hf, hg]
  exact {
    bLength := by simp only [length_cons, length_replicate]; omega
    cLength := length_replicate
    fLength := by simp only [length_append, length_take, length_replicate]; omega
    gLength := rfl
    b := by
      rw [value_cons, value_zeros]
      rfl
    c := value_zeros _
    f := by
      rw [value_append, value_zeros, Nat.mul_zero, Nat.add_zero]
      exact htake
    g := rfl
    k := rfl
    s := rfl
    bcLen := ⟨mod_self 2, Nat.le_refl 2, htwo⟩
    fgLen := ⟨heven, by show 2 ≤ EvenWordCount M M.length; omega, hle⟩
    bLt := by
      show 1 < (2 ^ 32) ^ 2
      decide
    cLt := Nat.pow_pos (by decide)
    fLt := hA.trans huse.lt
    gLt := huse.lt }

theorem AlmostInverse_spec (hN : M.length % 2 = 0) (hodd : value M % 2 = 1) (hM : 1 < value M)
    (hA : value A < value M) (hT : T.length = 4 * M.length) (hroom : A.length ≤ 2 * M.length) :
    ∃ R k, AlmostInverse T A M = .ok (R, k) ∧
      InverseState.Returns M.length (value A) (value M) R k := by
  have htwo : 2 ≤ M.length := by
    have hne : M.length ≠ 0 := by
      intro hnil
      rw [eq_nil_of_length_eq_zero hnil, value_nil] at hM
      omega
    omega
  have hholds := start_holds hN htwo hA hT hroom
  have hinvariant := @ModularInverse.Invariant.start (value A) (value M) hodd hM
  unfold AlmostInverse
  simp only
  rw [if_pos (by omega)]
  change ∃ R k, InverseState.loop M (2 * WORD_BITS * M.length + 1 + 1) {
      b := part (workspaceOf T A M) 0 M.length
      c := part (workspaceOf T A M) M.length M.length
      f := part (workspaceOf T A M) (2 * M.length) M.length
      g := part (workspaceOf T A M) (3 * M.length) M.length
      bcLen := 2, fgLen := EvenWordCount M M.length, k := 0, s := 0 } = .ok (R, k) ∧ _
  rcases InverseState.loop_step rfl rfl hN hodd hM hA hholds hinvariant
    (2 * WORD_BITS * M.length + 1) with hreturns | ⟨state', r', heq, hmore⟩
  · exact hreturns
  · rw [heq]
    refine InverseState.loop_spec rfl rfl hN hodd hM hA hmore.holds hmore.invariant hmore.even ?_
    have hMlt := value_lt M
    have hpow : (2 : Nat) ^ (2 * WORD_BITS * M.length) =
        (2 ^ 32) ^ M.length * (2 ^ 32) ^ M.length := by
      rw [← pow_add, ← pow_mul]
      congr 1
      show 2 * 32 * M.length = _
      ring
    rw [hpow]
    exact hmore.less.trans (Nat.mul_lt_mul'' (hA.trans hMlt) hMlt)

/-- The number is copied behind the end of the work space. -/
theorem AlmostInverse_undefined (hT : T.length = 4 * M.length) (hroom : 2 * M.length < A.length) :
    AlmostInverse T A M = .error .undefined := by
  unfold AlmostInverse
  simp only
  rw [if_neg (by omega)]

/-! ### Division by a power of two -/

variable {R : Words}

/-- **One halving.** -/
theorem halveMod_value (hlen : R.length = M.length) (hR : value R < value M) :
    (halveMod M R).length = M.length ∧
      value (halveMod M R) = ModularInverse.half (value M) (value R) := by
  have hlow := getD_zero_toNat R
  have htwo : (R.getD 0 0 % 2).toNat = (R.getD 0 0).toNat % 2 := UInt32.toNat_mod _ 2
  unfold halveMod ModularInverse.half
  by_cases heven : R.getD 0 0 % 2 = 0
  · rw [heven, UInt32.toNat_zero] at htwo
    rw [if_pos heven, if_pos (by omega)]
    exact ⟨(ShiftWordsRightByBits_length R 1).trans hlen, ShiftWordsRightByBits_value (by decide) R⟩
  · have hne : (R.getD 0 0 % 2).toNat ≠ 0 := fun hzero => heven (UInt32.toNat_inj.mp hzero)
    rw [if_neg heven, if_neg (by omega)]
    obtain ⟨hcarry, hsum⟩ := Add_value hlen
    have hshift := ShiftWordsRightByBits_value (s := 1) (by decide) (Add R M).1
    have hshiftLen := (ShiftWordsRightByBits_length (Add R M).1 1).trans
      ((Add_length hlen).trans hlen)
    have hsumLt := value_lt (Add R M).1
    rw [Add_length hlen, hlen] at hsumLt
    rw [hlen] at hsum
    have hpos : 0 < M.length := by
      rcases Nat.eq_zero_or_pos M.length with hnil | hpos
      · rw [eq_nil_of_length_eq_zero hnil, value_nil] at hR
        omega
      · exact hpos
    simp only
    generalize (ShiftWordsRightByBits (Add R M).1 1).1 = shifted at *
    -- the top word, and the bit that is carried to its top
    have htop : shifted.take (M.length - 1) ++ [shifted.getD (M.length - 1) 0] = shifted := by
      rw [← take_succ_getD (by omega), take_of_length_le (by omega)]
    have hpow : (2 ^ 32 : Nat) ^ M.length = (2 ^ 32) ^ (M.length - 1) * 2 ^ 32 := by
      rw [← pow_succ]
      congr 1
      omega
    have hlast : value shifted = value (shifted.take (M.length - 1)) +
        (2 ^ 32) ^ (M.length - 1) * (shifted.getD (M.length - 1) 0).toNat := by
      have hboth := value_append (shifted.take (M.length - 1)) [shifted.getD (M.length - 1) 0]
      rw [htop, length_take_of_le (by omega), value_cons, value_nil, Nat.mul_zero,
        Nat.add_zero] at hboth
      exact hboth
    have hbit : ((Add R M).2 <<< UInt32.ofNat (WORD_BITS - 1)).toNat =
        (Add R M).2.toNat * 2 ^ 31 := by
      show ((Add R M).2 <<< UInt32.ofNat 31).toNat = _
      rw [shiftLeft_toNat (by decide), mod_eq_of_lt (by omega)]
    have hfree : (shifted.getD (M.length - 1) 0).toNat < 2 ^ 31 := by
      by_contra hfull
      have hword := Nat.mul_le_mul_left ((2 ^ 32) ^ (M.length - 1)) (Nat.not_lt.mp hfull)
      generalize (2 ^ 32) ^ (M.length - 1) = P at *
      omega
    have hword : (shifted.getD (M.length - 1) 0 +
        ((Add R M).2 <<< UInt32.ofNat (WORD_BITS - 1))).toNat =
          (shifted.getD (M.length - 1) 0).toNat + (Add R M).2.toNat * 2 ^ 31 := by
      rw [UInt32.toNat_add, hbit, mod_eq_of_lt (by omega)]
    refine ⟨(writeAt_length (by rw [length_singleton]; omega)).trans hshiftLen, ?_⟩
    rw [value_writeAt (by rw [length_singleton]; omega), length_singleton, value_cons,
      value_nil, drop_of_length_le (by omega), value_nil, hword]
    generalize (2 ^ 32) ^ (M.length - 1) = P at *
    rw [← hsum, hpow]
    have hhalf : (value (Add R M).1 + P * 2 ^ 32 * (Add R M).2.toNat) / 2 =
        value (Add R M).1 / 2 + P * ((Add R M).2.toNat * 2 ^ 31) := by
      have hdouble : P * 2 ^ 32 * (Add R M).2.toNat = P * ((Add R M).2.toNat * 2 ^ 31) * 2 := by
        ring
      rw [hdouble, add_mul_div_right _ _ (by decide)]
    rw [hhalf, ← pow_one 2, ← hshift, hlast, pow_one]
    ring

theorem DivideByPower2Mod_value (hlen : R.length = M.length) (hodd : value M % 2 = 1)
    (hR : value R < value M) (k : Nat) :
    (DivideByPower2Mod R k M).length = M.length ∧
      value (DivideByPower2Mod R k M) = (ModularInverse.half (value M))^[k] (value R) := by
  unfold DivideByPower2Mod
  induction k with
  | zero => exact ⟨hlen, rfl⟩
  | succ k ih =>
      obtain ⟨hlen', hvalue⟩ := ih
      have hlt := (ModularInverse.half_iterate hodd hR k).1
      rw [← hvalue] at hlt
      rw [Function.iterate_succ_apply', Function.iterate_succ_apply', ← hvalue]
      exact halveMod_value hlen' hlt

end

namespace TInteger

section

variable {a m : TInteger} {n : Nat}

/-! ### Inverses -/

theorem isEven_iff (x : TInteger) : x.isEven = true ↔ x.magnitude % 2 = 0 := by
  have htwo := two_le_size x
  have hlow := getD_zero_toNat x.words
  have hmagnitude : value x.words = x.magnitude := rfl
  unfold isEven bit
  rw [if_neg (by rw [Nat.zero_div]; omega), Nat.zero_div, zero_mod, testBit_zero, hlow,
    hmagnitude]
  simp only [Bool.not_eq_true', decide_eq_false_iff_not]
  omega

theorem signedCompare_eq (ha : a.isNegative = false) (hm : m.isNegative = false) :
    a.signedCompare m = Int.sign ((a.magnitude : Int) - m.magnitude) := by
  unfold signedCompare
  rw [ha, hm]
  exact unsignedCompare_eq

theorem signedCompare_ge (ha : a.isNegative = false) (hm : m.isNegative = false) :
    a.signedCompare m ≥ 0 ↔ m.magnitude ≤ a.magnitude := by
  rw [signedCompare_eq ha hm, ge_iff_le, Int.sign_nonneg_iff]
  omega

/-- It succeeds, and what it returns is the inverse, or zero if there is none. -/
def Inverts (result : Leaving TInteger) (a m : Nat) : Prop :=
  ∃ x, result = .ok x ∧ x.isNegative = false ∧
    ModularInverse.IsInverse a m x.magnitude

theorem magnitude_one : one.magnitude = 1 := magnitude_ofWord 1

/-- The work space is four times as large as the modulus, and not more. -/
theorem workspace_length (m : TInteger) :
    (cleanNewL (m.size * 4)).words.length = 4 * m.words.length := by
  obtain ⟨k, hk⟩ := m.powerOfTwo
  have hpow : m.size * 4 = 2 ^ (k + 2 + 1) := by
    show m.words.length * 4 = _
    rw [hk]
    ring
  have hsize := size_cleanNewL (m.size * 4)
  rw [hpow, RoundupSize_pow, ← hpow] at hsize
  exact hsize.trans (Nat.mul_comm _ _)

section

variable (ha : a.isNegative = false)
include ha

section

variable (hm : m.isNegative = false)
include hm

/-- A reduced number and an odd modulus. -/
theorem inverseModL_odd (hlt : a.magnitude < m.magnitude) (hodd : m.magnitude % 2 = 1)
    (hone : 1 < m.magnitude) (hroom : a.size ≤ 2 * m.size) :
    Inverts (inverseModL (n + 1) a m) a.magnitude m.magnitude := by
  have hcell := workspace_length m
  obtain ⟨R, k, hinverse, hreturns⟩ := AlmostInverse_spec (T := (cleanNewL (m.size * 4)).words)
    (A := a.words) (M := m.words) (size_even m) hodd hone hlt hcell hroom
  have hR : value R < value m.words := by
    by_cases hcoprime : Coprime (value a.words) (value m.words)
    · exact (hreturns.inverse hcoprime).1
    · rw [(hreturns.zero hcoprime).1]
      exact Nat.lt_trans Nat.zero_lt_one hone
  obtain ⟨hlen, hvalue⟩ := DivideByPower2Mod_value hreturns.length hodd hR k
  obtain ⟨x, hx, -, hmagnitude, hsign⟩ := store_ok (cleanNewL m.size)
    (w := DivideByPower2Mod R k m.words)
    (by rw [size_cleanNewL, RoundupSize_size, hlen]; exact Nat.le_refl _)
    (Or.inl (magnitude_cleanNewL _))
  rw [inverseModL, ha, Bool.false_or, if_neg, if_neg]
  · simp only
    rw [hinverse, ok_bind]
    refine ⟨x, hx, hsign, ?_⟩
    rw [hmagnitude, hvalue]
    by_cases hcoprime : Coprime (value a.words) (value m.words)
    · obtain ⟨hRlt, hmul⟩ := hreturns.inverse hcoprime
      exact ModularInverse.isInverse_half hodd hcoprime hRlt hmul
    · obtain ⟨hRzero, hk⟩ := hreturns.zero hcoprime
      rw [hRzero, hk]
      exact ModularInverse.isInverse_zero (Nat.lt_trans Nat.zero_lt_one hone) hcoprime
  · rw [isEven_iff]
    omega
  · rw [decide_eq_true_eq, signedCompare_ge ha hm]
    omega

theorem inverseModL_undefined (hlt : a.magnitude < m.magnitude) (hodd : m.magnitude % 2 = 1)
    (hroom : 2 * m.size < a.size) : inverseModL (n + 1) a m = .error .undefined := by
  have hcell := workspace_length m
  rw [inverseModL, ha, Bool.false_or, if_neg, if_neg]
  · simp only
    rw [AlmostInverse_undefined hcell hroom]
    rfl
  · rw [isEven_iff]
    omega
  · rw [decide_eq_true_eq, signedCompare_ge ha hm]
    omega

/-- A number that is not less than the modulus is reduced, and its cell with it. -/
theorem inverseModL_reduce (hpos : 0 < m.magnitude) (hle : m.magnitude ≤ a.magnitude) :
    ∃ r, inverseModL (n + 1) a m = inverseModL n r m ∧ r.isNegative = false ∧
      r.magnitude = a.magnitude % m.magnitude ∧ r.size ≤ m.size := by
  obtain ⟨r, q, hdivide, hspec⟩ := positiveDivideL_spec (a := a) (Nat.ne_of_gt hpos)
  have heq : divideL a m = .ok (r, q) := by
    have hboth := divideL_eq hdivide (if_neg (by rw [ha]; decide))
    rwa [hm, if_neg (by decide)] at hboth
  have hmodulo : a.moduloL m = .ok r := by
    unfold moduloL
    rw [heq]
    rfl
  refine ⟨r, ?_, hspec.remainderPositive, hspec.remainder, ?_⟩
  · rw [inverseModL, ha, Bool.false_or, if_pos (decide_eq_true ((signedCompare_ge ha hm).mpr hle)),
      hmodulo]
    rfl
  · rcases hspec.sizes with ⟨hlt, -⟩ | ⟨-, hsize, -⟩
    · omega
    · exact hsize

/-- An odd modulus, which the number is not less than. -/
theorem inverseModL_odd_reduce (hodd : m.magnitude % 2 = 1) (hone : 1 < m.magnitude)
    (hle : m.magnitude ≤ a.magnitude) :
    Inverts (inverseModL (n + 2) a m) a.magnitude m.magnitude := by
  obtain ⟨r, heq, hr, hmagnitude, hsize⟩ :=
    inverseModL_reduce (n := n + 1) ha hm (by omega) hle
  have hlt : r.magnitude < m.magnitude := by
    rw [hmagnitude]
    exact mod_lt _ (by omega)
  obtain ⟨x, hx, hsign, hinverse⟩ := inverseModL_odd (n := n) hr hm hlt hodd hone (by omega)
  rw [heq]
  refine ⟨x, hx, hsign, ?_⟩
  rw [hmagnitude] at hinverse
  exact hinverse.of_mod

/-- From the inverse of the modulus modulo the number to that of the number. -/
theorem exchanged_makes {u : TInteger} (hu : u.isNegative = false) (hpos : 0 < a.magnitude)
    (hlt : u.magnitude < a.magnitude) :
    Makes (do
        let result ← a.minusL u
        let result ← result.timesL (.other m)
        let result ← result.increment
        result.dividedByL a)
      (((a.magnitude - u.magnitude) * m.magnitude + 1) / a.magnitude : Nat) := by
  have hneg : ∀ {x : TInteger}, x.isNegative = false → x.WellSigned := fun hx htrue =>
    absurd (hx.symm.trans htrue) (by decide)
  obtain ⟨diff, hdiff, hd⟩ := minusL_makes (hneg ha) u
  obtain ⟨product, hproduct, hp⟩ := timesL_makes diff (.other m)
  have hproductInt : product.IsInt ((a.magnitude - u.magnitude) * m.magnitude : Nat) := by
    have hm' : m.toInt = m.magnitude := toInt_of_positive hm
    refine ⟨hp.toInt.trans ?_, hp.wellSigned⟩
    show diff.toInt * m.toInt = _
    rw [hd.toInt, hm', toInt_of_positive ha, toInt_of_positive hu, cast_mul, Int.natCast_sub hlt.le]
  obtain ⟨next, hnext, hn⟩ := (increment_makes_iff hproductInt.wellSigned).mpr fun hminus => by
    have hnonneg := hproductInt.toInt
    omega
  have hnextInt : next.IsInt ((a.magnitude - u.magnitude) * m.magnitude + 1 : Nat) := by
    refine ⟨hn.toInt.trans ?_, hn.wellSigned⟩
    rw [hproductInt.toInt, cast_add, cast_one]
  rw [hdiff, ok_bind, hproduct, ok_bind, hnext, ok_bind]
  have hdivided := (divideL_makes (hnextInt.notNegative (Int.natCast_nonneg _)) ha
    (Nat.ne_of_gt hpos)).2
  rwa [hnextInt.magnitude] at hdivided

/-- A reduced number and an even modulus. -/
theorem inverseModL_even (hlt : a.magnitude < m.magnitude) (heven : m.magnitude % 2 = 0)
    (hone : 1 < m.magnitude) : Inverts (inverseModL (n + 3) a m) a.magnitude m.magnitude := by
  have hzero : m.isZero = false := by
    rw [Bool.eq_false_iff]
    intro hnone
    have hm0 := (isZero_iff.mp hnone).2
    omega
  rw [inverseModL, ha, Bool.false_or, if_neg (by
    rw [decide_eq_true_eq, signedCompare_ge ha hm]
    omega), if_pos ((isEven_iff m).mpr heven), hzero, Bool.false_or]
  by_cases haeven : a.isEven = true
  · rw [if_pos haeven]
    have hdvd : 2 ∣ Nat.gcd a.magnitude m.magnitude :=
      Nat.dvd_gcd (dvd_of_mod_eq_zero ((isEven_iff a).mp haeven)) (dvd_of_mod_eq_zero heven)
    refine ⟨zero, rfl, rfl, ModularInverse.isInverse_zero (by omega) fun hcoprime => ?_⟩
    rw [hcoprime] at hdvd
    omega
  rw [if_neg haeven]
  have haodd : a.magnitude % 2 = 1 := by
    have hnot := mt (isEven_iff a).mpr haeven
    omega
  have hcompare : a.signedCompare one = 0 ↔ a.magnitude = 1 := by
    rw [signedCompare_eq ha rfl, magnitude_one, Int.sign_eq_zero_iff_zero]
    omega
  by_cases haone : a.magnitude = 1
  · rw [if_pos (hcompare.mpr haone), haone]
    refine ⟨one, rfl, rfl, ?_, fun _ => ?_, fun hnot => absurd (coprime_one_left _) hnot⟩
    · rw [magnitude_one]
      exact hone
    · rw [magnitude_one]
  rw [if_neg (mt hcompare.mp haone)]
  obtain ⟨u, hu, husign, hinverse⟩ := inverseModL_odd_reduce (n := n) hm ha haodd (by omega)
    hlt.le
  have huzero := hinverse.eq_zero_iff (by omega)
  rw [hu, ok_bind]
  by_cases hnone : u.isZero = true
  · rw [if_pos hnone]
    refine ⟨zero, rfl, rfl, ModularInverse.isInverse_zero (by omega) fun hcoprime => ?_⟩
    exact huzero.mp (isZero_iff.mp hnone).2 hcoprime.symm
  · rw [if_neg hnone]
    have hcoprime : Coprime m.magnitude a.magnitude := by
      by_contra hnot
      exact hnone (isZero_iff.mpr ⟨husign, huzero.mpr hnot⟩)
    obtain ⟨x, hx, hint⟩ := exchanged_makes ha hm husign (by omega) hinverse.lt
    refine ⟨x, hx, hint.notNegative (Int.natCast_nonneg _), ?_⟩
    rw [hint.magnitude]
    exact hinverse.exchange (by omega) hone hcoprime.symm

end

end

/-- The number is not copied beyond the work space. -/
def CellFits (a m : TInteger) : Prop :=
  a.magnitude < m.magnitude → m.magnitude % 2 = 1 → a.size ≤ 2 * m.size

theorem inverseModL_fits (ha : a.isNegative = false) (hm : m.isNegative = false)
    (hone : 1 < m.magnitude) (hfits : CellFits a m) :
    Inverts (inverseModL (n + 4) a m) a.magnitude m.magnitude := by
  by_cases hlt : a.magnitude < m.magnitude
  · rcases mod_two_eq_zero_or_one m.magnitude with heven | hodd
    · exact inverseModL_even ha hm hlt heven hone
    · exact inverseModL_odd ha hm hlt hodd hone (hfits hlt hodd)
  · obtain ⟨r, heq, hr, hmagnitude, hsize⟩ :=
      inverseModL_reduce (n := n + 3) ha hm (by omega) (Nat.not_lt.mp hlt)
    have hrlt : r.magnitude < m.magnitude := by
      rw [hmagnitude]
      exact mod_lt _ (by omega)
    have hinverts : Inverts (inverseModL (n + 3) r m) r.magnitude m.magnitude := by
      rcases mod_two_eq_zero_or_one m.magnitude with heven | hodd
      · exact inverseModL_even hr hm hrlt heven hone
      · exact inverseModL_odd hr hm hrlt hodd hone (by omega)
    obtain ⟨x, hx, hsign, hinverse⟩ := hinverts
    rw [heq]
    refine ⟨x, hx, hsign, ?_⟩
    rw [hmagnitude] at hinverse
    exact hinverse.of_mod

/-- What `InverseModL` is to return. -/
def IsModularInverse (a m x : Int) : Prop :=
  0 ≤ x ∧ x < m ∧ (Int.gcd a m = 1 → a * x ≡ 1 [ZMOD m]) ∧ (Int.gcd a m ≠ 1 → x = 0)

theorem isModularInverse_iff {a m x : Nat} :
    IsModularInverse a m x ↔ ModularInverse.IsInverse a m x := by
  unfold IsModularInverse
  rw [Int.gcd_natCast_natCast]
  constructor
  · rintro ⟨-, hlt, hmul, hzero⟩
    refine ⟨Int.ofNat_lt.mp hlt, fun hcoprime => ?_,
      fun hnot => Int.natCast_eq_zero.mp (hzero hnot)⟩
    exact Int.natCast_modEq_iff.mp (by exact_mod_cast hmul hcoprime)
  · intro h
    refine ⟨Int.natCast_nonneg x, Int.ofNat_lt.mpr h.lt, fun hcoprime => ?_,
      fun hnot => congrArg Nat.cast (h.zero hnot)⟩
    exact_mod_cast Int.natCast_modEq_iff.mpr (h.mul hcoprime)

end

/-- **It returns the inverse exactly if the cell of a reduced number is not more than twice as
large as that of an odd modulus.** -/
theorem inverseModL_iff {a m : TInteger} (ha : a.WellSigned) (hm : m.WellSigned)
    (hnonneg : 0 ≤ a.toInt) (hone : 1 < m.toInt) (calls : Nat) :
    (∃ x, inverseModL (calls + 4) a m = .ok x ∧ IsModularInverse a.toInt m.toInt x.toInt) ↔
      ¬(a.toInt < m.toInt ∧ m.toInt % 2 = 1 ∧ 2 * m.size < a.size) := by
  have hasign := IsInt.notNegative ⟨rfl, ha⟩ hnonneg
  have hmsign := IsInt.notNegative ⟨rfl, hm⟩ (Int.le_of_lt (Int.lt_trans Int.zero_lt_one hone))
  have hav := toInt_of_positive hasign
  have hmv := toInt_of_positive hmsign
  rw [hmv] at hone
  rw [hav, hmv]
  constructor
  · rintro ⟨x, hx, -⟩ ⟨hlt, hodd, hsize⟩
    rw [inverseModL_undefined hasign hmsign (by omega) (by omega) hsize] at hx
    cases hx
  · intro hfits
    obtain ⟨x, hx, hsign, hinverse⟩ := inverseModL_fits (n := calls) hasign hmsign (by omega)
      fun hlt hodd => by omega
    refine ⟨x, hx, ?_⟩
    rw [toInt_of_positive hsign]
    exact isModularInverse_iff.mpr hinverse

/-- The inverse of three modulo ten. -/
theorem inverseModL_iff_three :
    (∃ x, inverseModL 4 ((cleanNewL 2).constructInt 3) ((cleanNewL 2).constructInt 10) = .ok x ∧
        IsModularInverse 3 10 x.toInt) ↔ ¬((3 : Int) < 10 ∧ (10 : Int) % 2 = 1 ∧ 2 * 2 < 2) :=
  inverseModL_iff (a := (cleanNewL 2).constructInt 3) (m := (cleanNewL 2).constructInt 10)
    (fun _ => by decide) (fun _ => by decide) (by decide) (by decide) 0

/-- Three, read from a string of 32 octets, and the modulus seven. -/
theorem not_inverseModL_long :
    (newDesL (replicate 31 0 ++ [3])).toInt = 3 ∧
      ((cleanNewL 2).constructInt 7).toInt = 7 ∧
        ∀ calls, ¬∃ x, inverseModL (calls + 4) (newDesL (replicate 31 0 ++ [3]))
          ((cleanNewL 2).constructInt 7) = .ok x ∧ IsModularInverse 3 7 x.toInt := by
  refine ⟨rfl, by decide, ?_⟩
  rintro calls ⟨x, hx, -⟩
  rw [inverseModL_undefined (by decide) (by decide) (by decide) (by decide)
    (by decide)] at hx
  cases hx

end TInteger

end OsSecurity

/-
The loop of `AlmostInverse`, in `algorithms.cpp`.

`b`, `c`, `f` and `g` point to the four parts of a work space, and change places in pairs; here
they are four arrays.  The lengths `bcLen` and `fgLen` say how far up there are words that are
not zero.  A word that would be written behind its part has no room in the model: the invariant
keeps `b` and `c` below the modulus, so that it does not happen.

`k` is a 32-bit number in the source.  It is not more than half the bits of the work space
(`Returns`), and a work space of 2^33 bits cannot be allocated.
-/
import OsSecurity.Bigint.Shifts
import OsSecurity.Library.ModularInverse

namespace OsSecurity

open List Nat

/-- The size is even. -/
def EvenWordCount (X : Words) : Nat → Nat
  | 0 => 0
  | 1 => 1
  | N + 2 => if X.getD N 0 = 0 ∧ X.getD (N + 1) 0 = 0 then EvenWordCount X N else N + 2

/-- The first `n` words are changed in their place. -/
def onFirst (n : Nat) (op : Words → Words) (X : Words) : Words := op (X.take n) ++ X.drop n

/-- The first `n` words are replaced, and what is carried is written above them; there have to be
words for it. -/
def withCarry (X : Words) (n : Nat) (low : Words) (carry : UInt32) : Leaving (Words × Nat) :=
  if carry = 0 then .ok (low ++ X.drop n, n)
  else if n < X.length then .ok (low ++ [carry] ++ X.drop (n + 1), n + 2)
  else .error .undefined

structure InverseState where
  b : Words
  c : Words
  f : Words
  g : Words
  bcLen : Nat
  fgLen : Nat
  k : Nat
  s : Nat

namespace InverseState

/-- Words of `f` that are zero are shifted out, as long as there are any others. -/
def skipWords : Nat → InverseState → Leaving (Option InverseState)
  | 0, _ => .error .undefined
  | rounds + 1, state =>
    if state.f.getD 0 0 ≠ 0 then .ok (some state)
    else if EvenWordCount state.f state.fgLen = 0 then .ok none
    else
      let bcLen := if state.c.getD (state.bcLen - 1) 0 ≠ 0 then state.bcLen + 2 else state.bcLen
      if bcLen ≤ state.c.length then
        skipWords rounds
          { state with
            f := onFirst state.fgLen (ShiftWordsRightByWords · 1) state.f
            c := onFirst bcLen (ShiftWordsLeftByWords · 1) state.c
            bcLen := bcLen
            k := state.k + WORD_BITS }
      else .error .undefined

/-- The bits of a word that are shifted out until it is odd. -/
def oddPart : Nat → UInt32 → Nat → UInt32 × Nat
  | 0, t, i => (t, i)
  | rounds + 1, t, i => if t % 2 = 0 then oddPart rounds (t >>> 1) (i + 1) else (t, i)

/-- `f` is shifted until it is odd, and `c` the other way. -/
def shiftBits (state : InverseState) (i : Nat) : Leaving InverseState := do
  let shifted := ShiftWordsLeftByBits (state.c.take state.bcLen) i
  let (c, bcLen) ← withCarry state.c state.bcLen shifted.1 shifted.2
  return { state with
    f := onFirst state.fgLen (fun w => (ShiftWordsRightByBits w i).1) state.f
    c := c
    bcLen := bcLen
    k := state.k + i }

def shorten (state : InverseState) : InverseState :=
  if state.f.getD (state.fgLen - 2) 0 = 0 ∧ state.g.getD (state.fgLen - 2) 0 = 0 ∧
      state.f.getD (state.fgLen - 1) 0 = 0 ∧ state.g.getD (state.fgLen - 1) 0 = 0 then
    { state with fgLen := state.fgLen - 2 }
  else state

/-- The pointers are swapped, so that `f` is not less than `g`. -/
def order (state : InverseState) : InverseState :=
  if Compare (state.f.take state.fgLen) (state.g.take state.fgLen) = -1 then
    { state with
      f := state.g, g := state.f, b := state.c, c := state.b, s := state.s + 1 }
  else state

def subtract (state : InverseState) : Leaving InverseState := do
  let sum := Add (state.b.take state.bcLen) (state.c.take state.bcLen)
  let (b, bcLen) ← withCarry state.b state.bcLen sum.1 (if sum.2 ≠ 0 then 1 else 0)
  return { state with
    f := onFirst state.fgLen (fun w => (Subtract w (state.g.take state.fgLen)).1) state.f
    b := b
    bcLen := bcLen }

/-- The loop, with a bound on the rounds: `k` goes up in every round but the first, so that it
does not get there. -/
def loop (M : Words) : Nat → InverseState → Leaving (Words × Nat)
  | 0, _ => .error .undefined
  | rounds + 1, state => do
    match ← state.skipWords (state.fgLen + 1) with
    | none => return (replicate M.length 0, 0)
    | some state =>
      let (t, i) := oddPart WORD_BITS (state.f.getD 0 0) 0
      if t = 1 ∧ state.f.getD 1 0 = 0 ∧ EvenWordCount state.f state.fgLen = 2 then
        return (if state.s % 2 = 0 then state.b else (Subtract M state.b).1, state.k + i)
      else
        let state ← state.shiftBits i
        loop M rounds (← state.shorten.order.subtract)

end InverseState

/-! ### Words in use -/

section

variable {X w : Words} {n : Nat} {c : UInt32}

theorem value_take_succ (h : n < X.length) :
    value (X.take (n + 1)) = value (X.take n) + (2 ^ 32) ^ n * (X.getD n 0).toNat := by
  rw [take_succ_getD h, value_append, length_take_of_le h.le, value_cons, value_nil,
    Nat.mul_zero, Nat.add_zero]

/-- How many words are in use: a number of pairs, the last of them not zero. -/
structure InUse (v E : Nat) : Prop where
  even : E % 2 = 0
  lt : v < (2 ^ 32) ^ E
  le : E ≠ 0 → (2 ^ 32) ^ (E - 2) ≤ v

theorem EvenWordCount_inUse (hn : n ≤ X.length) (heven : n % 2 = 0) :
    InUse (value (X.take n)) (EvenWordCount X n) ∧ EvenWordCount X n ≤ n := by
  induction n using EvenWordCount.induct X with
  | case1 => exact ⟨⟨rfl, Nat.one_pos, fun hne => absurd rfl hne⟩, Nat.le_refl 0⟩
  | case2 => exact absurd heven (by decide)
  | case3 N hzero ih =>
      obtain ⟨huse, hle⟩ := ih (by omega) (by omega)
      rw [EvenWordCount, if_pos hzero, value_take_succ (by omega), value_take_succ (by omega),
        hzero.1, hzero.2, UInt32.toNat_zero, Nat.mul_zero, Nat.mul_zero, Nat.add_zero]
      exact ⟨huse, by omega⟩
  | case4 N hsome =>
      rw [EvenWordCount, if_neg hsome]
      refine ⟨⟨heven, ?_, fun _ => ?_⟩, Nat.le_refl _⟩
      · have hlt := value_lt (X.take (N + 2))
        rwa [length_take_of_le hn] at hlt
      · have hpair : 0 < (X.getD N 0).toNat ∨ 0 < (X.getD (N + 1) 0).toNat := by
          by_contra hnone
          exact hsome ⟨UInt32.toNat_inj.mp (by rw [UInt32.toNat_zero]; omega),
            UInt32.toNat_inj.mp (by rw [UInt32.toNat_zero]; omega)⟩
        have hpow : (2 ^ 32 : Nat) ^ (N + 1) = (2 ^ 32) ^ N * 2 ^ 32 := pow_succ _ _
        show (2 ^ 32) ^ N ≤ value (X.take (N + 2))
        rw [value_take_succ (by omega), value_take_succ (by omega), hpow]
        generalize (2 ^ 32) ^ N = P
        rcases hpair with hlow | hhigh
        · have hword := Nat.le_mul_of_pos_right P hlow
          omega
        · have hword := Nat.le_mul_of_pos_right (P * 2 ^ 32) hhigh
          omega

theorem InUse.eq_zero_iff {v E : Nat} (h : InUse v E) : E = 0 ↔ v = 0 := by
  refine ⟨fun hzero => ?_, fun hzero => ?_⟩
  · have hlt := h.lt
    rw [hzero, pow_zero] at hlt
    omega
  · by_contra hne
    have hle := h.le hne
    have hpos : 0 < (2 ^ 32) ^ (E - 2) := Nat.pow_pos (by decide)
    omega

theorem InUse.eq_two_iff {v E : Nat} (h : InUse v E) : E = 2 ↔ 0 < v ∧ v < (2 ^ 32) ^ 2 := by
  refine ⟨fun htwo => ?_, fun ⟨hpos, hlt⟩ => ?_⟩
  · have hlt := h.lt
    have hle := h.le (by omega)
    rw [htwo] at hlt hle
    exact ⟨hle, hlt⟩
  · have hne : E ≠ 0 := fun hzero => by
      have hv := h.eq_zero_iff.mp hzero
      omega
    have hless := (Nat.pow_lt_pow_iff_right (by decide)).mp ((h.le hne).trans_lt hlt)
    have heven := h.even
    omega

/-- The number is in the first `n` words. -/
theorem value_first (hn : n ≤ X.length) (hX : value X < (2 ^ 32) ^ n) :
    value (X.take n) = value X ∧ value (X.drop n) = 0 := by
  rw [value_take n hn, value_drop n hn]
  exact ⟨mod_eq_of_lt hX, div_eq_of_lt hX⟩

theorem onFirst_length {op : Words → Words} (hop : ∀ w, (op w).length = w.length) :
    (onFirst n op X).length = X.length := by
  unfold onFirst
  rw [length_append, hop, ← length_append, take_append_drop]

/-- **The first words are changed, and there are no others.** -/
theorem value_onFirst {op : Words → Words} (hn : n ≤ X.length) (hX : value X < (2 ^ 32) ^ n) :
    value (onFirst n op X) = value (op (X.take n)) := by
  unfold onFirst
  rw [value_append, (value_first hn hX).2, Nat.mul_zero, Nat.add_zero]

/-- **There are words for what is carried, if the number fits in the array.** -/
theorem withCarry_ok (hn : n ≤ X.length) (hX : value X < (2 ^ 32) ^ n) (hlow : w.length = n)
    (hroom : value w + (2 ^ 32) ^ n * c.toNat < (2 ^ 32) ^ X.length)
    (hparity : (X.length - n) % 2 = 0) :
    ∃ X' n', withCarry X n w c = .ok (X', n') ∧ X'.length = X.length ∧
      value X' = value w + (2 ^ 32) ^ n * c.toNat ∧ value X' < (2 ^ 32) ^ n' ∧
      (n' = n ∨ n' = n + 2) ∧ n' ≤ X.length := by
  have hlt := value_lt w
  obtain ⟨-, hrest⟩ := value_first hn hX
  rw [hlow] at hlt
  unfold withCarry
  by_cases hzero : c = 0
  · rw [if_pos hzero]
    refine ⟨_, _, rfl, ?_, ?_, ?_, Or.inl rfl, hn⟩
    · rw [length_append, hlow, length_drop]
      omega
    · rw [value_append, hlow, hrest, hzero]
      rfl
    · rw [value_append, hlow, hrest]
      omega
  · have hpos : 0 < c.toNat :=
      Nat.pos_of_ne_zero fun hc => hzero (UInt32.toNat_inj.mp hc)
    have hless : n < X.length := by
      apply (Nat.pow_lt_pow_iff_right (a := 2 ^ 32) (by decide)).mp
      have hword := Nat.le_mul_of_pos_right ((2 ^ 32) ^ n) hpos
      omega
    have hdrop : value (X.drop (n + 1)) = 0 := by
      rw [value_drop _ (by omega)]
      exact div_eq_of_lt (hX.trans_le (Nat.pow_le_pow_right (by decide) (le_succ n)))
    rw [if_neg hzero, if_pos hless]
    have hvalue : value (w ++ [c] ++ X.drop (n + 1)) =
        value w + (2 ^ 32) ^ n * c.toNat := by
      rw [value_append, hdrop, Nat.mul_zero, Nat.add_zero, value_append, hlow, value_cons,
        value_nil, Nat.mul_zero, Nat.add_zero]
    refine ⟨_, _, rfl, ?_, hvalue, ?_, Or.inr rfl, by omega⟩
    · simp only [length_append, length_drop, hlow, length_singleton]
      omega
    · have hcarry := c.toNat_lt
      rw [hvalue, pow_add, pow_two]
      nlinarith

/-- The number does without its last word. -/
theorem value_lt_of_last (hn : n < X.length) (hX : value X < (2 ^ 32) ^ (n + 1))
    (hzero : X.getD n 0 = 0) : value X < (2 ^ 32) ^ n := by
  have htake := value_lt (X.take n)
  rw [← (value_first hn hX).1, value_take_succ hn, hzero, UInt32.toNat_zero, Nat.mul_zero,
    Nat.add_zero]
  rwa [length_take_of_le hn.le] at htake

theorem getD_zero_toNat (X : Words) : (X.getD 0 0).toNat = value X % 2 ^ 32 := by
  cases X with
  | nil => rfl
  | cons x X =>
      have hx := x.toNat_lt
      rw [value_cons, getD_cons_zero]
      omega

end

/-! ### One round -/

namespace InverseState

open ModularInverse (Registers Invariant)

/-- A length in words: even, not zero, and not more than the arrays have. -/
structure IsLength (N n : Nat) : Prop where
  even : n % 2 = 0
  two : 2 ≤ n
  le : n ≤ N

/-- The arrays hold the registers. -/
structure Holds (N : Nat) (state : InverseState) (r : Registers) : Prop where
  bLength : state.b.length = N
  cLength : state.c.length = N
  fLength : state.f.length = N
  gLength : state.g.length = N
  b : value state.b = r.b
  c : value state.c = r.c
  f : value state.f = r.f
  g : value state.g = r.g
  k : state.k = r.k
  s : state.s % 2 = if r.exchanged then 1 else 0
  bcLen : IsLength N state.bcLen
  fgLen : IsLength N state.fgLen
  bLt : r.b < (2 ^ 32) ^ state.bcLen
  cLt : r.c < (2 ^ 32) ^ state.bcLen
  fLt : r.f < (2 ^ 32) ^ state.fgLen
  gLt : r.g < (2 ^ 32) ^ state.fgLen

theorem halve_zero (r : Registers) : r.halve 0 r.f = r := by
  simp [Registers.halve]

theorem halve_halve (r : Registers) (i j f f' : Nat) :
    (r.halve i f).halve j f' = r.halve (i + j) f' := by
  simp [Registers.halve, pow_add, Nat.mul_assoc, Nat.add_assoc]

variable {N a m : Nat} {state : InverseState} {r : Registers}

/-- One word is shifted out of `f`, and one into `c`. -/
theorem skipWord (hN : N % 2 = 0) (hm : m < (2 ^ 32) ^ N) (h : Holds N state r)
    (hinvariant : Invariant a m r) {q : Nat} (hq : r.f = 2 ^ 32 * q) (hpos : 0 < q) {bcLen : Nat}
    (hbcLen : bcLen = if state.c.getD (state.bcLen - 1) 0 ≠ 0 then state.bcLen + 2
      else state.bcLen) :
    bcLen ≤ N ∧ Holds N { state with
      f := onFirst state.fgLen (ShiftWordsRightByWords · 1) state.f
      c := onFirst bcLen (ShiftWordsLeftByWords · 1) state.c
      bcLen := bcLen
      k := state.k + WORD_BITS } (r.halve 32 q) := by
  have hc : r.c * 2 ^ 32 ≤ m := (hinvariant.halve hq).c_le hpos
  obtain ⟨heven, htwo, hle⟩ := h.bcLen
  have hcX := h.c
  have hcLt := h.cLt
  have hsucc : state.bcLen - 1 + 1 = state.bcLen := by omega
  -- there is a word to shift into
  have hroom : bcLen ≤ N ∧ bcLen % 2 = 0 ∧ state.bcLen ≤ bcLen ∧
      r.c < (2 ^ 32) ^ (bcLen - 1) := by
    by_cases hlast : state.c.getD (state.bcLen - 1) 0 ≠ 0
    · rw [if_pos hlast] at hbcLen
      have hword := TInteger.word_le_value (A := state.c) (j := state.bcLen - 1)
        (by rw [h.cLength]; omega)
      have hne : 0 < (state.c.getD (state.bcLen - 1) 0).toNat :=
        Nat.pos_of_ne_zero fun hzero => hlast (UInt32.toNat_inj.mp hzero)
      have hless : state.bcLen < N := by
        apply (Nat.pow_lt_pow_iff_right (a := 2 ^ 32) (by decide)).mp
        calc (2 ^ 32) ^ state.bcLen
            = (2 ^ 32) ^ (state.bcLen - 1) * 2 ^ 32 := by rw [← pow_succ, hsucc]
          _ ≤ r.c * 2 ^ 32 := Nat.mul_le_mul_right _
              ((Nat.le_mul_of_pos_right _ hne).trans (hword.trans hcX.le))
          _ < (2 ^ 32) ^ N := hc.trans_lt hm
      refine ⟨by omega, by omega, by omega, ?_⟩
      exact hcLt.trans_le (Nat.pow_le_pow_right (by decide) (by omega))
    · rw [if_neg hlast] at hbcLen
      refine ⟨by omega, by omega, by omega, ?_⟩
      have hless := value_lt_of_last (X := state.c) (n := state.bcLen - 1)
        (by rw [h.cLength]; omega) (by rw [hcX, hsucc]; exact hcLt) (not_not.mp hlast)
      rwa [hcX, ← hbcLen] at hless
  obtain ⟨hbcN, hbcEven, hmore, hcLt'⟩ := hroom
  have hmono : (2 ^ 32) ^ state.bcLen ≤ (2 ^ 32) ^ bcLen := Nat.pow_le_pow_right (by decide) hmore
  have hcTake := value_first (X := state.c) (n := bcLen) (by rw [h.cLength]; exact hbcN)
    (by rw [hcX]; exact hcLt.trans_le hmono)
  have hfX := h.f
  have hfLt := h.fLt
  have hfTake := value_first (X := state.f) (n := state.fgLen)
    (by rw [h.fLength]; exact h.fgLen.le) (by rw [hfX]; exact hfLt)
  have hcValue : value (onFirst bcLen (ShiftWordsLeftByWords · 1) state.c) = r.c * 2 ^ 32 := by
    rw [value_onFirst (by rw [h.cLength]; exact hbcN) (by rw [hcX]; exact hcLt.trans_le hmono),
      TInteger.ShiftWordsLeftByWords_value (n := bcLen - 1) (m := r.c) _ (hcTake.1.trans hcX)
        hcLt', pow_one, Nat.mul_comm]
    rw [length_take_of_le (by rw [h.cLength]; exact hbcN)]
    omega
  have hfValue : value (onFirst state.fgLen (ShiftWordsRightByWords · 1) state.f) = q := by
    rw [value_onFirst (by rw [h.fLength]; exact h.fgLen.le) (by rw [hfX]; exact hfLt),
      TInteger.ShiftWordsRightByWords_value, hfTake.1, hfX, hq, pow_one,
      Nat.mul_div_cancel_left _ (by decide)]
  refine ⟨hbcN, ?_⟩
  exact {
    bLength := h.bLength
    cLength := (onFirst_length (ShiftWordsLeftByWords_length · 1)).trans h.cLength
    fLength := (onFirst_length (ShiftWordsRightByWords_length · 1)).trans h.fLength
    gLength := h.gLength
    b := h.b
    c := hcValue
    f := hfValue
    g := h.g
    k := congrArg (· + 32) h.k
    s := h.s
    bcLen := ⟨hbcEven, htwo.trans hmore, hbcN⟩
    fgLen := h.fgLen
    bLt := h.bLt.trans_le hmono
    cLt := by
      show r.c * 2 ^ 32 < (2 ^ 32) ^ bcLen
      have hpow : (2 ^ 32) ^ bcLen = (2 ^ 32) ^ (bcLen - 1) * 2 ^ 32 := by
        rw [← pow_succ]
        congr 1
        omega
      rw [hpow]
      exact Nat.mul_lt_mul_of_pos_right hcLt' (by decide)
    fLt := by
      show q < (2 ^ 32) ^ state.fgLen
      omega
    gLt := h.gLt }

/-- **Words that are zero are shifted out**, if there are others. -/
theorem skipWords_spec (hN : N % 2 = 0) (hm : m < (2 ^ 32) ^ N) {n : Nat}
    (h : Holds N state r) (hinvariant : Invariant a m r) (hpos : 0 < r.f)
    (hrounds : r.f < (2 ^ 32) ^ n) :
    ∃ state' i f', state.skipWords n = .ok (some state') ∧ r.f = 2 ^ i * f' ∧
      Holds N state' (r.halve i f') ∧ f' % 2 ^ 32 ≠ 0 := by
  induction n generalizing state r with
  | zero => omega
  | succ n ih =>
      have hlow := getD_zero_toNat state.f
      rw [h.f] at hlow
      rw [skipWords]
      by_cases hzero : state.f.getD 0 0 ≠ 0
      · rw [if_pos hzero]
        refine ⟨state, 0, r.f, rfl, (Nat.one_mul _).symm, by rwa [halve_zero], ?_⟩
        exact fun hnone => hzero (UInt32.toNat_inj.mp (hlow.trans hnone))
      · rw [not_not.mp hzero, UInt32.toNat_zero] at hlow
        obtain ⟨huse, -⟩ := EvenWordCount_inUse (X := state.f) (n := state.fgLen)
          (by rw [h.fLength]; exact h.fgLen.le) h.fgLen.even
        have htake := value_first (X := state.f) (n := state.fgLen)
          (by rw [h.fLength]; exact h.fgLen.le) (by rw [h.f]; exact h.fLt)
        rw [htake.1, h.f] at huse
        have hq : r.f = 2 ^ 32 * (r.f / 2 ^ 32) := by omega
        have hqpos : 0 < r.f / 2 ^ 32 := by omega
        obtain ⟨hle, hholds⟩ := skipWord hN hm h hinvariant hq hqpos rfl
        rw [if_neg hzero, if_neg (mt huse.eq_zero_iff.mp (by omega))]
        simp only
        rw [if_pos (by rw [h.cLength]; exact hle)]
        obtain ⟨state', i, f', heq, hf, hholds', hodd⟩ := ih hholds (hinvariant.halve hq) hqpos (by
          show r.f / 2 ^ 32 < (2 ^ 32) ^ n
          rw [pow_succ] at hrounds
          exact Nat.div_lt_of_lt_mul (by rwa [Nat.mul_comm]))
        rw [halve_halve] at hholds'
        refine ⟨state', 32 + i, f', heq, ?_, hholds', hodd⟩
        rw [pow_add, Nat.mul_assoc, ← hf]
        exact hq

/-- When `f` is zero there is nothing to shift out. -/
theorem skipWords_none {rounds : Nat} (h : Holds N state r) (hzero : r.f = 0) :
    state.skipWords (rounds + 1) = .ok none := by
  have hlow := getD_zero_toNat state.f
  rw [h.f, hzero, zero_mod] at hlow
  obtain ⟨huse, -⟩ := EvenWordCount_inUse (X := state.f) (n := state.fgLen)
    (by rw [h.fLength]; exact h.fgLen.le) h.fgLen.even
  have htake := value_first (X := state.f) (n := state.fgLen)
    (by rw [h.fLength]; exact h.fgLen.le) (by rw [h.f]; exact h.fLt)
  rw [htake.1, h.f] at huse
  rw [skipWords, if_neg (fun hne => hne (UInt32.toNat_inj.mp hlow)),
    if_pos (huse.eq_zero_iff.mpr hzero)]

theorem oddPart_spec {n : Nat} {t : UInt32} (hpos : 0 < t.toNat) (ht : t.toNat < 2 ^ n) (i : Nat) :
    ∃ j t', oddPart n t i = (t', i + j) ∧ j < n ∧ t.toNat = 2 ^ j * t'.toNat ∧
      t'.toNat % 2 = 1 := by
  induction n generalizing t i with
  | zero => omega
  | succ n ih =>
      have htwo : (t % 2).toNat = t.toNat % 2 := UInt32.toNat_mod t 2
      rw [oddPart]
      by_cases heven : t % 2 = 0
      · rw [heven, UInt32.toNat_zero] at htwo
        have hshift : (t >>> 1).toNat = t.toNat / 2 := by
          rw [UInt32.toNat_shiftRight, shiftRight_eq_div_pow]
          rfl
        obtain ⟨j, t', heq, hj, hvalue, hodd⟩ := ih (t := t >>> 1) (by omega)
          (by rw [hshift]; omega) (i + 1)
        rw [if_pos heven]
        refine ⟨j + 1, t', ?_, by omega, ?_, hodd⟩
        · rw [heq, Nat.add_right_comm, Nat.add_assoc]
        · rw [pow_succ]
          rw [hshift] at hvalue
          calc t.toNat = t.toNat / 2 * 2 := by omega
            _ = 2 ^ j * 2 * t'.toNat := by
              rw [hvalue]
              ring
      · rw [if_neg heven]
        refine ⟨0, t, rfl, succ_pos _, (Nat.one_mul _).symm, ?_⟩
        have hne : (t % 2).toNat ≠ 0 := fun hzero => heven (UInt32.toNat_inj.mp hzero)
        omega

/-- **`f` is shifted, and `c` the other way.** -/
theorem shiftBits_spec (hN : N % 2 = 0) (hm : m < (2 ^ 32) ^ N) (h : Holds N state r)
    (hinvariant : Invariant a m r) {i f' : Nat} (hi : i < 32) (hf : r.f = 2 ^ i * f')
    (hpos : 0 < f') :
    ∃ state', state.shiftBits i = .ok state' ∧ Holds N state' (r.halve i f') := by
  have hc : r.c * 2 ^ i ≤ m := (hinvariant.halve hf).c_le hpos
  obtain ⟨heven, htwo, hle⟩ := h.bcLen
  have hcX := h.c
  have hcTake := value_first (X := state.c) (n := state.bcLen) (by rw [h.cLength]; exact hle)
    (by rw [hcX]; exact h.cLt)
  have hlength : (state.c.take state.bcLen).length = state.bcLen :=
    length_take_of_le (by rw [h.cLength]; exact hle)
  have hshift := ShiftWordsLeftByBits_value hi (state.c.take state.bcLen)
  rw [hlength, hcTake.1, hcX] at hshift
  obtain ⟨c, bcLen, heq, hclen, hcvalue, hclt, hmore, hbcN⟩ := withCarry_ok (X := state.c)
    (n := state.bcLen) (w := (ShiftWordsLeftByBits (state.c.take state.bcLen) i).1)
    (c := (ShiftWordsLeftByBits (state.c.take state.bcLen) i).2)
    (by rw [h.cLength]; exact hle) (by rw [hcX]; exact h.cLt)
    ((ShiftWordsLeftByBits_length _ i).trans hlength)
    (by rw [hshift, h.cLength]; exact hc.trans_lt hm) (by rw [h.cLength]; omega)
  rw [h.cLength] at hbcN hclen
  rw [hshift] at hcvalue
  rw [hcvalue] at hclt
  have hmono : (2 ^ 32) ^ state.bcLen ≤ (2 ^ 32) ^ bcLen :=
    Nat.pow_le_pow_right (by decide) (by omega)
  have hfX := h.f
  have hfTake := value_first (X := state.f) (n := state.fgLen)
    (by rw [h.fLength]; exact h.fgLen.le) (by rw [hfX]; exact h.fLt)
  have hfvalue : value (onFirst state.fgLen (fun w => (ShiftWordsRightByBits w i).1) state.f) =
      f' := by
    rw [value_onFirst (by rw [h.fLength]; exact h.fgLen.le) (by rw [hfX]; exact h.fLt),
      ShiftWordsRightByBits_value hi, hfTake.1, hfX, hf,
      Nat.mul_div_cancel_left _ (Nat.two_pow_pos i)]
  unfold shiftBits
  simp only
  rw [heq]
  refine ⟨_, rfl, ?_⟩
  exact {
    bLength := h.bLength
    cLength := hclen
    fLength := (onFirst_length (ShiftWordsRightByBits_length · i)).trans h.fLength
    gLength := h.gLength
    b := h.b
    c := hcvalue
    f := hfvalue
    g := h.g
    k := congrArg (· + i) h.k
    s := h.s
    bcLen := ⟨by show bcLen % 2 = 0; omega, by show 2 ≤ bcLen; omega, hbcN⟩
    fgLen := h.fgLen
    bLt := h.bLt.trans_le hmono
    cLt := hclt
    fLt := by
      show f' < (2 ^ 32) ^ state.fgLen
      have hfLt := h.fLt
      have hle := Nat.le_mul_of_pos_left f' (Nat.two_pow_pos i)
      omega
    gLt := h.gLt }

/-- The last two words, which both numbers do without, are left out. -/
theorem shorten_holds (h : Holds N state r) (hg : 0 < r.g) : Holds N state.shorten r := by
  unfold shorten
  by_cases hzero : state.f.getD (state.fgLen - 2) 0 = 0 ∧ state.g.getD (state.fgLen - 2) 0 = 0 ∧
      state.f.getD (state.fgLen - 1) 0 = 0 ∧ state.g.getD (state.fgLen - 1) 0 = 0
  · rw [if_pos hzero]
    obtain ⟨hf0, hg0, hf1, hg1⟩ := hzero
    obtain ⟨heven, htwo, hle⟩ := h.fgLen
    obtain ⟨n, hn⟩ : ∃ n, state.fgLen = n + 2 := ⟨state.fgLen - 2, by omega⟩
    have hless : ∀ {X : Words} {v : Nat}, X.length = N → value X = v → v < (2 ^ 32) ^ (n + 2) →
        X.getD n 0 = 0 → X.getD (n + 1) 0 = 0 → v < (2 ^ 32) ^ n := by
      rintro X v hX rfl hlt h0 h1
      exact value_lt_of_last (by omega) (value_lt_of_last (by omega) hlt h1) h0
    rw [hn] at hf0 hg0 hf1 hg1
    have hfLt := hless h.fLength h.f (hn ▸ h.fLt) hf0 hf1
    have hgLt := hless h.gLength h.g (hn ▸ h.gLt) hg0 hg1
    have hpos : n ≠ 0 := by
      rintro rfl
      rw [pow_zero] at hgLt
      omega
    have hlen : IsLength N (state.fgLen - 2) := ⟨by omega, by omega, by omega⟩
    have hsub : state.fgLen - 2 = n := by omega
    exact { h with
      fgLen := hlen
      fLt := by
        show r.f < (2 ^ 32) ^ (state.fgLen - 2)
        rwa [hsub]
      gLt := by
        show r.g < (2 ^ 32) ^ (state.fgLen - 2)
        rwa [hsub] }
  · rw [if_neg hzero]
    exact h

theorem exchange_holds (h : Holds N state r) :
    Holds N { state with
      f := state.g, g := state.f, b := state.c, c := state.b, s := state.s + 1 } r.exchange where
  bLength := h.cLength
  cLength := h.bLength
  fLength := h.gLength
  gLength := h.fLength
  b := h.c
  c := h.b
  f := h.g
  g := h.f
  k := h.k
  s := by
    have hs := h.s
    show (state.s + 1) % 2 = if !r.exchanged then 1 else 0
    cases hexchanged : r.exchanged with
    | false =>
      rw [hexchanged] at hs
      simp only [Bool.false_eq_true, if_false] at hs
      simp only [Bool.not_false, if_true]
      omega
    | true =>
      rw [hexchanged] at hs
      simp only [if_true] at hs
      simp only [Bool.not_true, Bool.false_eq_true, if_false]
      omega
  bcLen := h.bcLen
  fgLen := h.fgLen
  bLt := h.cLt
  cLt := h.bLt
  fLt := h.gLt
  gLt := h.fLt

theorem order_spec (h : Holds N state r) :
    Holds N state.order (if r.f < r.g then r.exchange else r) := by
  have hf := value_first (X := state.f) (n := state.fgLen)
    (by rw [h.fLength]; exact h.fgLen.le) (by rw [h.f]; exact h.fLt)
  have hg := value_first (X := state.g) (n := state.fgLen)
    (by rw [h.gLength]; exact h.fgLen.le) (by rw [h.g]; exact h.gLt)
  have hlength : (state.f.take state.fgLen).length = (state.g.take state.fgLen).length := by
    rw [length_take, length_take, h.fLength, h.gLength]
  have hcompare : Compare (state.f.take state.fgLen) (state.g.take state.fgLen) = -1 ↔
      r.f < r.g := by
    rw [Compare_value hlength, hf.1, hg.1, h.f, h.g, Int.sign_eq_neg_one_iff_neg]
    omega
  unfold order
  by_cases hlt : r.f < r.g
  · rw [if_pos (hcompare.mpr hlt), if_pos hlt]
    exact exchange_holds h
  · rw [if_neg (mt hcompare.mp hlt), if_neg hlt]
    exact h

theorem subtract_spec (hN : N % 2 = 0) (h : Holds N state r) (hle : r.g ≤ r.f)
    (hroom : r.b + r.c < (2 ^ 32) ^ N) :
    ∃ state', state.subtract = .ok state' ∧ Holds N state' r.subtract := by
  obtain ⟨heven, htwo, hbc⟩ := h.bcLen
  have hfg := h.fgLen.le
  have hf := value_first (X := state.f) (n := state.fgLen)
    (by rw [h.fLength]; exact hfg) (by rw [h.f]; exact h.fLt)
  have hg := value_first (X := state.g) (n := state.fgLen)
    (by rw [h.gLength]; exact hfg) (by rw [h.g]; exact h.gLt)
  have hb := value_first (X := state.b) (n := state.bcLen)
    (by rw [h.bLength]; exact hbc) (by rw [h.b]; exact h.bLt)
  have hc := value_first (X := state.c) (n := state.bcLen)
    (by rw [h.cLength]; exact hbc) (by rw [h.c]; exact h.cLt)
  have hfLen : (state.f.take state.fgLen).length = state.fgLen :=
    length_take_of_le (by rw [h.fLength]; exact hfg)
  have hgLen : (state.g.take state.fgLen).length = state.fgLen :=
    length_take_of_le (by rw [h.gLength]; exact hfg)
  have hbLen : (state.b.take state.bcLen).length = state.bcLen :=
    length_take_of_le (by rw [h.bLength]; exact hbc)
  have hcLen : (state.c.take state.bcLen).length = state.bcLen :=
    length_take_of_le (by rw [h.cLength]; exact hbc)
  -- the difference
  have hdiff := Subtract_of_le (hfLen.trans hgLen.symm) (by rw [hf.1, hg.1, h.f, h.g]; exact hle)
  rw [hf.1, hg.1, h.f, h.g] at hdiff
  have hfvalue : value (onFirst state.fgLen (fun w => (Subtract w (state.g.take state.fgLen)).1)
      state.f) = r.f - r.g := by
    rw [value_onFirst (by rw [h.fLength]; exact hfg) (by rw [h.f]; exact h.fLt)]
    omega
  have hflength : (onFirst state.fgLen (fun w => (Subtract w (state.g.take state.fgLen)).1)
      state.f).length = N := by
    have hlen := Subtract_length (hfLen.trans hgLen.symm)
    unfold onFirst
    rw [length_append, hlen, hfLen, length_drop, h.fLength]
    omega
  -- the sum
  obtain ⟨hcarry, hsum⟩ := Add_value (hbLen.trans hcLen.symm)
  rw [hbLen, hb.1, hc.1, h.b, h.c] at hsum
  have hone : (if (Add (state.b.take state.bcLen) (state.c.take state.bcLen)).2 ≠ 0 then 1
      else 0 : UInt32).toNat =
        (Add (state.b.take state.bcLen) (state.c.take state.bcLen)).2.toNat := by
    by_cases hzero : (Add (state.b.take state.bcLen) (state.c.take state.bcLen)).2 = 0
    · rw [hzero, if_neg (fun hne => hne rfl)]
    · have hpos : (Add (state.b.take state.bcLen) (state.c.take state.bcLen)).2.toNat ≠ 0 :=
        fun hc => hzero (UInt32.toNat_inj.mp hc)
      rw [if_pos hzero, UInt32.toNat_one]
      omega
  obtain ⟨b, bcLen, heq, hblen, hbvalue, hblt, hmore, hbcN⟩ := withCarry_ok (X := state.b)
    (n := state.bcLen) (w := (Add (state.b.take state.bcLen) (state.c.take state.bcLen)).1)
    (c := if (Add (state.b.take state.bcLen) (state.c.take state.bcLen)).2 ≠ 0 then 1 else 0)
    (by rw [h.bLength]; exact hbc) (by rw [h.b]; exact h.bLt)
    ((Add_length (hbLen.trans hcLen.symm)).trans hbLen)
    (by rw [hone, hsum, h.bLength]; exact hroom) (by rw [h.bLength]; omega)
  rw [h.bLength] at hbcN hblen
  rw [hone, hsum] at hbvalue
  rw [hbvalue] at hblt
  unfold subtract
  simp only
  rw [heq]
  refine ⟨_, rfl, ?_⟩
  exact {
    bLength := hblen
    cLength := h.cLength
    fLength := hflength
    gLength := h.gLength
    b := hbvalue
    c := h.c
    f := hfvalue
    g := h.g
    k := h.k
    s := h.s
    bcLen := ⟨by show bcLen % 2 = 0; omega, by show 2 ≤ bcLen; omega, hbcN⟩
    fgLen := h.fgLen
    bLt := hblt
    cLt := h.cLt.trans_le (Nat.pow_le_pow_right (by decide) (show state.bcLen ≤ bcLen by omega))
    fLt := (sub_le r.f r.g).trans_lt h.fLt
    gLt := h.gLt }

/-- **One round**, when `f` is odd and not one. -/
theorem round_spec (hN : N % 2 = 0) (hm : m < (2 ^ 32) ^ N) (h : Holds N state r)
    (hinvariant : Invariant a m r) (hodd : r.f % 2 = 1) (hf : r.f ≠ 1) :
    ∃ state', state.shorten.order.subtract = .ok state' ∧ Holds N state' r.reduce := by
  have hg := hinvariant.more
  have hordered := order_spec (shorten_holds h (by omega))
  have hle := (hinvariant.reduce hodd hf).b_le
  unfold Registers.reduce at hle ⊢
  by_cases hlt : r.f < r.g
  · rw [if_pos hlt] at hordered hle ⊢
    exact subtract_spec hN hordered hlt.le (hle.trans_lt hm)
  · rw [if_neg hlt] at hordered hle ⊢
    exact subtract_spec hN hordered (Nat.not_lt.mp hlt) (hle.trans_lt hm)

/-- Where the loop ends with an inverse: the odd part of `f` is one. -/
theorem returns_iff (h : Holds N state r) {i f' : Nat} {t : UInt32} (hi : i < 32)
    (hf : r.f = 2 ^ i * f') (hword : (state.f.getD 0 0).toNat = 2 ^ i * t.toNat)
    (hodd : t.toNat % 2 = 1) :
    (t = 1 ∧ state.f.getD 1 0 = 0 ∧ EvenWordCount state.f state.fgLen = 2) ↔ f' = 1 := by
  obtain ⟨heven, htwo, hle⟩ := h.fgLen
  obtain ⟨huse, -⟩ := EvenWordCount_inUse (X := state.f) (n := state.fgLen)
    (by rw [h.fLength]; exact hle) heven
  have htake := value_first (X := state.f) (n := state.fgLen)
    (by rw [h.fLength]; exact hle) (by rw [h.f]; exact h.fLt)
  rw [htake.1, h.f] at huse
  have hlow := getD_zero_toNat state.f
  rw [h.f, hword] at hlow
  have hpow := Nat.two_pow_pos i
  have hlt : 2 ^ i < 2 ^ 32 := Nat.pow_lt_pow_right (by decide) hi
  rw [huse.eq_two_iff]
  constructor
  · rintro ⟨rfl, hzero, -, hless⟩
    have hmost := value_lt_of_last (X := state.f) (n := 1) (by rw [h.fLength]; omega)
      (by rw [h.f]; exact hless) hzero
    rw [h.f, pow_one] at hmost
    rw [UInt32.toNat_one, Nat.mul_one, mod_eq_of_lt hmost, hf] at hlow
    exact Nat.eq_of_mul_eq_mul_left hpow (hlow.symm.trans (Nat.mul_one _).symm)
  · rintro rfl
    rw [Nat.mul_one] at hf
    rw [hf, mod_eq_of_lt hlt] at hlow
    have ht : t.toNat = 1 := Nat.eq_of_mul_eq_mul_left hpow (hlow.trans (Nat.mul_one _).symm)
    have hsecond := TInteger.word_le_value (A := state.f) (j := 1) (by rw [h.fLength]; omega)
    rw [h.f, hf, pow_one] at hsecond
    refine ⟨UInt32.toNat_inj.mp ht, UInt32.toNat_inj.mp ?_, by omega, by omega⟩
    rw [UInt32.toNat_zero]
    omega

/-! ### All rounds -/

/-- What the algorithm returns: the inverse up to a power of two, or zero and no power. -/
structure Returns (N a m : Nat) (R : Words) (k : Nat) : Prop where
  length : R.length = N
  inverse : Coprime a m → value R < m ∧ a * value R ≡ 2 ^ k [MOD m]
  zero : ¬Coprime a m → value R = 0 ∧ k = 0
  bits : 2 ^ k ≤ (2 ^ 32) ^ N * (2 ^ 32) ^ N

/-- What one round of the loop leaves for the others. -/
structure GoesOn (N a m : Nat) (r r' : Registers) (state : InverseState) : Prop where
  holds : Holds N state r'
  invariant : Invariant a m r'
  even : r'.f % 2 = 0
  less : r'.f * r'.g < r.f * r.g
  half : r.f % 2 = 0 → 2 * (r'.f * r'.g) < r.f * r.g

variable {M : Words}

/-- `f` with all twos divided out, as the round sees it. -/
theorem oddPart_of_low {f1 j t : Nat} (hj : j < 32) (hlow : f1 % 2 ^ 32 = 2 ^ j * t)
    (hodd : t % 2 = 1) : ∃ f2, f1 = 2 ^ j * f2 ∧ f2 % 2 = 1 := by
  have hsplit : 2 ^ 32 = 2 ^ j * (2 * 2 ^ (31 - j)) := by
    rw [← pow_succ', ← pow_add]
    congr 1
    omega
  refine ⟨2 * (2 ^ (31 - j) * (f1 / 2 ^ 32)) + t, ?_, by omega⟩
  calc f1 = f1 % 2 ^ 32 + 2 ^ 32 * (f1 / 2 ^ 32) := (mod_add_div f1 (2 ^ 32)).symm
    _ = 2 ^ j * t + 2 ^ j * (2 * 2 ^ (31 - j)) * (f1 / 2 ^ 32) := by rw [hlow, ← hsplit]
    _ = 2 ^ j * (2 * (2 ^ (31 - j) * (f1 / 2 ^ 32)) + t) := by ring

theorem returns_zero (hlen : M.length = N) (hinvariant : Invariant a m r) (hf : r.f = 0) :
    Returns N a m (replicate M.length 0) 0 where
  length := by rw [length_replicate, hlen]
  inverse := fun hcoprime => absurd hcoprime (hinvariant.not_coprime hf)
  zero := fun _ => ⟨value_zeros _, rfl⟩
  bits := Nat.mul_pos (Nat.pow_pos (by decide)) (Nat.pow_pos (by decide))

theorem returns_inverse (hlen : M.length = N) (hM : value M = m) (hodd : m % 2 = 1) (hm : 1 < m)
    (ha : a < m) (h : Holds N state r) (hinvariant : Invariant a m r) {j : Nat} (hf : r.f = 2 ^ j) :
    Returns N a m (if state.s % 2 = 0 then state.b else (Subtract M state.b).1) (state.k + j) := by
  have hone : (r.halve j 1).f = 1 := rfl
  have hhalved := hinvariant.halve (hf.trans (Nat.mul_one _).symm)
  obtain ⟨hlt, hmul⟩ := hhalved.result hodd hm hone
  have hle : r.b ≤ m := hhalved.b_le
  have hlength := h.bLength
  have hresult : (if state.s % 2 = 0 then state.b else (Subtract M state.b).1).length = N ∧
      value (if state.s % 2 = 0 then state.b else (Subtract M state.b).1) =
        (r.halve j 1).result m := by
    have hs := h.s
    unfold Registers.result Registers.halve
    cases hexchanged : r.exchanged with
    | false =>
      rw [hexchanged] at hs
      simp only [Bool.false_eq_true, if_false] at hs ⊢
      rw [if_pos hs]
      exact ⟨hlength, h.b⟩
    | true =>
      rw [hexchanged] at hs
      simp only [if_true] at hs ⊢
      have hdiff := Subtract_of_le (hlen.trans hlength.symm) (by rw [hM, h.b]; exact hle)
      rw [hM, h.b] at hdiff
      rw [if_neg (by omega)]
      exact ⟨(Subtract_length (hlen.trans hlength.symm)).trans hlen, by omega⟩
  refine ⟨hresult.1, fun _ => ?_, fun hnot => absurd (hhalved.coprime hone) hnot, ?_⟩
  · rw [hresult.2, h.k]
    exact ⟨hlt, hmul⟩
  · have hproduct := hhalved.product
    have hmN : m < (2 ^ 32) ^ N := by
      rw [← hM, ← hlen]
      exact value_lt M
    have hpos : 2 ^ (state.k + j) ≤ 1 * r.g * 2 ^ (r.k + j) := by
      rw [h.k, Nat.one_mul]
      exact Nat.le_mul_of_pos_left _ (Nat.lt_trans Nat.zero_lt_one hinvariant.more)
    exact (hpos.trans hproduct).trans (Nat.mul_le_mul (ha.trans hmN).le hmN.le)

/-- **A round of the loop** returns, or goes on with less. -/
theorem loop_step (hlen : M.length = N) (hM : value M = m) (hN : N % 2 = 0) (hodd : m % 2 = 1)
    (hm : 1 < m) (ha : a < m) (h : Holds N state r) (hinvariant : Invariant a m r) (rounds : Nat) :
    (∃ R k, state.loop M (rounds + 1) = .ok (R, k) ∧ Returns N a m R k) ∨
      ∃ state' r', state.loop M (rounds + 1) = state'.loop M rounds ∧
        GoesOn N a m r r' state' := by
  have hmN : m < (2 ^ 32) ^ N := by
    rw [← hM, ← hlen]
    exact value_lt M
  rw [loop]
  rcases Nat.eq_zero_or_pos r.f with hzero | hpos
  · left
    rw [skipWords_none h hzero]
    exact ⟨_, _, rfl, returns_zero hlen hinvariant hzero⟩
  · obtain ⟨state1, i, f1, hskip, hf, hholds, hlow⟩ := skipWords_spec (n := state.fgLen + 1) hN
      hmN h hinvariant hpos
      (h.fLt.trans_le (Nat.pow_le_pow_right (by decide) (le_succ _)))
    have hword := getD_zero_toNat state1.f
    rw [hholds.f] at hword
    change _ = f1 % 2 ^ 32 at hword
    obtain ⟨j, t, hpart, hj, htwo, htodd⟩ := oddPart_spec (n := WORD_BITS)
      (t := state1.f.getD 0 0) (by omega) (UInt32.toNat_lt _) 0
    rw [Nat.zero_add] at hpart
    obtain ⟨f2, hf2, hf2odd⟩ := oddPart_of_low hj (hword.symm.trans htwo) htodd
    have hreturns := returns_iff hholds hj hf2 htwo htodd
    have hhalved := hinvariant.halve hf
    rw [hskip, ok_bind]
    simp only
    rw [hpart]
    simp only
    by_cases hone : f2 = 1
    · left
      rw [if_pos (hreturns.mpr hone)]
      exact ⟨_, _, rfl, returns_inverse hlen hM hodd hm ha hholds hhalved
        (by rw [hone, Nat.mul_one] at hf2; exact hf2)⟩
    · right
      obtain ⟨state2, hshift, hholds2⟩ := shiftBits_spec hN hmN hholds hhalved hj hf2 (by omega)
      have hhalved2 := hhalved.halve hf2
      obtain ⟨state3, hround, hholds3⟩ := round_spec hN hmN hholds2 hhalved2 hf2odd hone
      rw [if_neg (mt hreturns.mp hone), hshift, ok_bind, hround, ok_bind]
      have hg := hinvariant.more
      have hless : _ < f2 * r.g := Registers.reduce_product (r := (r.halve i f1).halve j f2)
        (show 0 < f2 by omega) (show 0 < r.g by omega)
      have hall : r.f = 2 ^ (i + j) * f2 := by
        rw [hf, hf2, pow_add, Nat.mul_assoc]
      refine ⟨state3, _, rfl, hholds3, hhalved2.reduce hf2odd hone,
        Registers.reduce_even hf2odd hinvariant.odd, ?_, fun heven => ?_⟩
      · have hle : f2 * r.g ≤ r.f * r.g := by
          rw [hall]
          exact Nat.mul_le_mul_right _ (Nat.le_mul_of_pos_left _ (Nat.two_pow_pos _))
        exact hless.trans_le hle
      · have hsome : i + j ≠ 0 := by
          intro hnone
          rw [hnone, pow_zero, Nat.one_mul] at hall
          omega
        have hle : 2 * (f2 * r.g) ≤ r.f * r.g := by
          rw [hall, ← Nat.mul_assoc]
          have hpow : 2 ≤ 2 ^ (i + j) := Nat.le_self_pow hsome 2
          exact Nat.mul_le_mul_right _ (Nat.mul_le_mul_right _ hpow)
        omega

/-- **The loop ends**, from the second round on in as many rounds as `f * g` has bits. -/
theorem loop_spec (hlen : M.length = N) (hM : value M = m) (hN : N % 2 = 0) (hodd : m % 2 = 1)
    (hm : 1 < m) (ha : a < m) {rounds : Nat} (h : Holds N state r) (hinvariant : Invariant a m r)
    (heven : r.f % 2 = 0) (hrounds : r.f * r.g < 2 ^ rounds) :
    ∃ R k, state.loop M (rounds + 1) = .ok (R, k) ∧ Returns N a m R k := by
  induction rounds generalizing state r with
  | zero =>
      rcases loop_step hlen hM hN hodd hm ha h hinvariant 0 with hreturns | ⟨_, _, -, hmore⟩
      · exact hreturns
      · have hless := hmore.less
        omega
  | succ rounds ih =>
      rcases loop_step hlen hM hN hodd hm ha h hinvariant (rounds + 1) with
        hreturns | ⟨state', r', heq, hmore⟩
      · exact hreturns
      · rw [heq]
        have hhalf := hmore.half heven
        rw [pow_succ] at hrounds
        exact ih hmore.holds hmore.invariant hmore.even (by omega)

end InverseState

end OsSecurity

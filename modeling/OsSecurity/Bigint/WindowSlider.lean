/-
`TWindowSlider`, which finds the windows of an exponent: `windowslider.cpp`; and the loop that
both exponentiations have over them.

A position in the exponent is a `TInt` in the loops, and a `TUint` where a window is asked for.
A position from 2^31 on is negative as a `TInt`: the scan for a window there ends at once.
-/
import OsSecurity.Bigint.PrimeSearch
import OsSecurity.Library.SlidingWindow

namespace OsSecurity

open List Nat SlidingWindow UInt32

variable {n : Nat}

/-! ### The length of an exponent -/

def TInteger.bitCount (self : TInteger) : UInt32 :=
  if self.wordCount ≠ 0 then
    ofNat ((self.wordCount - 1) * WORD_BITS) +
      ofNat (BitPrecision (self.words.getD (self.wordCount - 1) 0))
  else 0

theorem size_append_word (m w k : Nat) (hm : m < 2 ^ k) (hw : w ≠ 0) :
    Nat.size (m + 2 ^ k * w) = k + Nat.size w := by
  have hpos : 0 < Nat.size w := Nat.size_pos.mpr (Nat.pos_of_ne_zero hw)
  have hle : 2 ^ (Nat.size w - 1) ≤ w := lt_size.mp (by omega)
  have hlt := lt_size_self w
  apply Nat.le_antisymm
  · rw [size_le, pow_add]
    calc m + 2 ^ k * w < 2 ^ k * (w + 1) := by rw [mul_succ]; omega
      _ ≤ 2 ^ k * 2 ^ Nat.size w := Nat.mul_le_mul_left _ hlt
  · have htop : 2 ^ (k + (Nat.size w - 1)) ≤ m + 2 ^ k * w := by
      rw [pow_add]
      exact (Nat.mul_le_mul_left _ hle).trans (Nat.le_add_left _ _)
    have hsize := lt_size.mpr htop
    omega

/-- **`BitCount`** is the number of bits, as a word. -/
theorem TInteger.bitCount_eq (x : TInteger) : x.bitCount = ofNat (Nat.size x.magnitude) := by
  unfold bitCount
  by_cases hzero : x.wordCount = 0
  · rw [if_neg (by simp [hzero]), wordCount_eq_zero.mp hzero]
    rfl
  rw [if_pos hzero]
  have hle := x.wordCount_le
  have hmagnitude := mt wordCount_eq_zero.mpr hzero
  have hlower := le_magnitude_wordCount hmagnitude
  have hupper := x.magnitude_lt_wordCount
  obtain ⟨n, hn⟩ : ∃ n, x.wordCount = n + 1 := ⟨x.wordCount - 1, by omega⟩
  rw [hn] at hle hlower hupper ⊢
  rw [Nat.add_sub_cancel] at hlower ⊢
  have hlen : n < x.words.length := hle
  have hsplit : x.magnitude = value (x.words.take n) + (2 ^ 32) ^ n * (x.words.getD n 0).toNat := by
    have htake : value (x.words.take (n + 1)) = x.magnitude := value_take_words hn.le
    rw [← htake, take_succ_eq_append_getElem hlen, value_append,
      length_take_of_le hlen.le, getD_eq_getElem _ _ hlen, value_cons, value_nil,
      Nat.mul_zero, Nat.add_zero]
  have hlow := value_lt (x.words.take n)
  rw [length_take_of_le hlen.le] at hlow
  have htop : (x.words.getD n 0).toNat ≠ 0 := by
    intro hnone
    rw [hnone] at hsplit
    omega
  rw [← pow_mul] at hlow hsplit
  rw [hsplit, size_append_word _ _ _ hlow htop, BitPrecision_eq_size, ofNat_add, Nat.mul_comm 32 n]
  rfl

/-! ### The slider -/

/-- `iSize`, for an exponent of so many bits. -/
def windowSize (expLen : UInt32) : Nat :=
  if expLen ≤ 17 then 1
  else if expLen ≤ 24 then 2
  else if expLen ≤ 70 then 3
  else if expLen ≤ 197 then 4
  else if expLen ≤ 539 then 5
  else if expLen ≤ 1434 then 6
  else 7

structure TWindowSlider where
  iExp : TInteger
  iSize : Nat
  bounded : 1 ≤ iSize ∧ iSize ≤ 7

/-- `iValue` and `iLength` -/
structure TWindow where
  iValue : UInt32
  iLength : UInt32

theorem windowSize_bounded (expLen : UInt32) : 1 ≤ windowSize expLen ∧ windowSize expLen ≤ 7 := by
  unfold windowSize
  split_ifs <;> decide

namespace TWindowSlider

/-- The constructor, for the window size that it chooses itself. -/
def ofExponent (aExp : TInteger) : TWindowSlider :=
  ⟨aExp, windowSize aExp.bitCount, windowSize_bounded aExp.bitCount⟩

/-- The locals of `FindNextWindow`. -/
structure Scan where
  temp : UInt32
  iValue : UInt32
  last : Int

/-- One bit of the window. -/
def Scan.next (aExp : TInteger) (i : Int) (j : Nat) (s : Scan) : Scan :=
  let saveMask := ofNat (WORD_BITS - j - 1)
  let temp := s.temp ||| ((if aExp.bit i.toNat then 1 else 0) <<< saveMask)
  if temp &&& (1 <<< saveMask) ≠ 0 then ⟨temp, s.iValue ||| temp, i⟩ else { s with temp := temp }

/-- The loop of `FindNextWindow`, which makes `turns` more turns at most. -/
def scan (aExp : TInteger) : (turns : Nat) → (i : Int) → (j : Nat) → Scan → Scan
  | 0, _, _, s => s
  | turns + 1, i, j, s =>
    if i ≥ 0 then scan aExp turns (i - 1) (j + 1) (s.next aExp i j) else s

def findNextWindow (self : TWindowSlider) (aBegin : UInt32) : TWindow :=
  let s := scan self.iExp self.iSize (TInt.wrap aBegin.toNat) 0 ⟨0, 0, TInt.wrap aBegin.toNat⟩
  let iLength := aBegin - ofInt s.last + 1
  ⟨s.iValue >>> (ofNat WORD_BITS - iLength), iLength⟩

/-! ### One window -/

section

variable {aExp : TInteger} {b j : Nat} {s : Scan}

theorem and_one_shift {w : UInt32} {k : Nat} (hk : k < 32) :
    w &&& (1 <<< ofNat k) ≠ 0 ↔ w.toNat.testBit k = true := by
  have hbits : ∀ i, (w &&& (1 <<< ofNat k)).toNat.testBit i =
      (w.toNat.testBit i && decide (i = k)) := by
    intro i
    rw [UInt32.toNat_and, testBit_and, TInteger.one_shiftLeft_testBit hk]
  constructor
  · intro hne
    by_contra hnone
    apply hne
    apply UInt32.toNat_inj.mp
    apply eq_of_testBit_eq
    intro i
    rw [hbits]
    by_cases hi : i = k
    · rw [hi, Bool.eq_false_iff.mpr hnone]
      simp
    · simp [hi]
  · intro hset hzero
    have hbit := hbits k
    rw [hzero, hset] at hbit
    simp at hbit

/-- A set bit moved up to its place in the window. -/
theorem bit_shift {k : Nat} (hk : k < 32) (set : Bool) (p : Nat) :
    (((if set then 1 else 0 : UInt32)) <<< ofNat k).toNat.testBit p =
      (set && decide (p = k)) := by
  cases set with
  | true => rw [if_pos rfl, TInteger.one_shiftLeft_testBit hk, Bool.true_and]
  | false => simp

/-- What the scan has after `j` bits from `b` down, the first of them set. -/
structure Scanned (aExp : TInteger) (b j : Nat) (s : Scan) : Prop where
  temp : ∀ p < 32, s.temp.toNat.testBit p = (decide (32 ≤ p + j) && aExp.bit (p + b - 31))
  window : ∃ l : Nat, s.last = l ∧ b < l + j ∧ l ≤ b ∧ aExp.bit l = true ∧
    ∀ p < 32, s.iValue.toNat.testBit p = (decide (31 + l ≤ p + b) && aExp.bit (p + b - 31))

theorem next_temp (hj : j < 32) (hb : j ≤ b)
    (htemp : ∀ p < 32, s.temp.toNat.testBit p = (decide (32 ≤ p + j) && aExp.bit (p + b - 31)))
    {p : Nat} (hp : p < 32) :
    (s.temp ||| ((if aExp.bit (b - j) then 1 else 0) <<<
        ofNat (WORD_BITS - j - 1))).toNat.testBit p =
      (decide (32 ≤ p + (j + 1)) && aExp.bit (p + b - 31)) := by
  have hmask : WORD_BITS - j - 1 = 31 - j := by
    unfold WORD_BITS
    omega
  rw [UInt32.toNat_or, testBit_or, htemp p hp, hmask, bit_shift (by omega)]
  by_cases hat : p = 31 - j
  · have hpos : p + b - 31 = b - j := by omega
    rw [hpos, decide_eq_false (show ¬32 ≤ p + j by omega), decide_eq_true hat,
      decide_eq_true (show 32 ≤ p + (j + 1) by omega), Bool.false_and, Bool.false_or,
      Bool.and_true, Bool.true_and]
  · have hsame : decide (32 ≤ p + j) = decide (32 ≤ p + (j + 1)) := by
      apply decide_eq_decide.mpr
      omega
    rw [decide_eq_false hat, Bool.and_false, Bool.or_false, hsame]

/-- **One bit.** -/
theorem Scanned.next (hj : j < 32) (hb : j ≤ b) (h : Scanned aExp b j s) :
    Scanned aExp b (j + 1) (s.next aExp ((b : Int) - j) j) := by
  have hpos : ((b : Int) - j).toNat = b - j := by omega
  have hmask : WORD_BITS - j - 1 = 31 - j := by
    unfold WORD_BITS
    omega
  have htemp := fun {p : Nat} (hp : p < 32) => next_temp hj hb h.temp hp
  obtain ⟨l, hlast, hlow, hle, hset, hvalue⟩ := h.window
  unfold Scan.next
  rw [hpos]
  simp only
  generalize s.temp ||| ((if aExp.bit (b - j) then 1 else 0) <<<
    ofNat (WORD_BITS - j - 1)) = temp at htemp ⊢
  rw [hmask]
  have hhere : temp.toNat.testBit (31 - j) = aExp.bit (b - j) := by
    have hat : 31 - j + b - 31 = b - j := by omega
    rw [htemp (by omega), hat, decide_eq_true (show 32 ≤ 31 - j + (j + 1) by omega),
      Bool.true_and]
  by_cases hbit : aExp.bit (b - j) = true
  · -- the window ends here
    rw [if_pos ((and_one_shift (by omega)).mpr (hhere.trans hbit))]
    have hlast : (b : Int) - j = (b - j : Nat) := by omega
    refine ⟨fun p hp => htemp hp, b - j, hlast, by omega, by omega, hbit, fun p hp => ?_⟩
    show (s.iValue ||| temp).toNat.testBit p = _
    rw [UInt32.toNat_or, testBit_or, hvalue p hp, htemp hp, ← Bool.and_or_distrib_right,
      ← Bool.decide_or]
    congr 1
    apply decide_eq_decide.mpr
    omega
  · rw [if_neg (fun hc => hbit (hhere.symm.trans ((and_one_shift (by omega)).mp hc)))]
    exact ⟨fun p hp => htemp hp, l, hlast, by omega, hle, hset, hvalue⟩

/-- The first bit is set. -/
theorem scanned_first (hset : aExp.bit b = true) :
    Scanned aExp b 1 (Scan.next aExp b 0 ⟨0, 0, b⟩) := by
  have hstart : ∀ p < 32, (0 : UInt32).toNat.testBit p =
      (decide (32 ≤ p + 0) && aExp.bit (p + b - 31)) := by
    intro p hp
    rw [decide_eq_false (show ¬32 ≤ p + 0 by omega)]
    simp
  have htemp := fun {p : Nat} (hp : p < 32) =>
    @next_temp aExp b 0 ⟨0, 0, b⟩ (by decide) (Nat.zero_le b) hstart p hp
  unfold Scan.next
  rw [Int.toNat_natCast]
  rw [Nat.sub_zero] at htemp
  simp only
  generalize (0 : UInt32) ||| ((if aExp.bit b then 1 else 0) <<<
    ofNat (WORD_BITS - 0 - 1)) = temp at htemp ⊢
  have hhere : temp.toNat.testBit 31 = true := by
    rw [htemp (by decide), Nat.add_sub_cancel_left, hset]
    rfl
  rw [show WORD_BITS - 0 - 1 = 31 from rfl, if_pos ((and_one_shift (by decide)).mpr hhere)]
  refine ⟨fun p hp => htemp hp, b, rfl, by omega, Nat.le_refl b, hset, fun p hp => ?_⟩
  show ((0 : UInt32) ||| temp).toNat.testBit p = _
  rw [UInt32.toNat_or, UInt32.toNat_zero, zero_or, htemp hp]
  congr 1
  apply decide_eq_decide.mpr
  omega

/-- The scan goes on to the end of the exponent at most. -/
theorem scan_scanned (turns : Nat) (hj : j + turns ≤ 32) (hb : j ≤ b + 1) (h : Scanned aExp b j s) :
    ∃ k ≤ j + turns, k ≤ b + 1 ∧ Scanned aExp b k (scan aExp turns ((b : Int) - j) j s) := by
  induction turns generalizing j s with
  | zero => exact ⟨j, Nat.le_refl j, hb, h⟩
  | succ turns ih =>
      rw [scan]
      by_cases hend : (b : Int) - j ≥ 0
      · obtain ⟨k, hk, hkb, hscanned⟩ := ih (j := j + 1) (by omega) (by omega)
          (h.next (by omega) (by omega))
        rw [if_pos hend, show (b : Int) - j - 1 = b - (j + 1 : Nat) by omega]
        exact ⟨k, by omega, hkb, hscanned⟩
      · rw [if_neg hend]
        exact ⟨j, by omega, hb, h⟩

/-- The window is that of the exponent which ends at the last bit that is set, among as many as
a window has from `b` down. -/
structure IsWindow (aExp : TInteger) (iSize b : Nat) (w : TWindow) : Prop where
  positive : 1 ≤ w.iLength.toNat
  length_le : w.iLength.toNat ≤ iSize
  room : w.iLength.toNat ≤ b + 1
  value : ∀ q, w.iValue.toNat.testBit q =
    (decide (q < w.iLength.toNat) && aExp.bit (q + (b + 1 - w.iLength.toNat)))
  odd : w.iValue.toNat % 2 = 1

theorem IsWindow.value_lt {iSize : Nat} {w : TWindow} (h : IsWindow aExp iSize b w) :
    w.iValue.toNat < 2 ^ w.iLength.toNat := by
  apply lt_pow_two_of_testBit
  intro q hq
  rw [h.value q, decide_eq_false (Nat.not_lt.mpr hq), Bool.false_and]

/-- **The index is in the table**, which has as many odd powers as a window has values. -/
theorem IsWindow.index_lt {iSize : Nat} {w : TWindow} (h : IsWindow aExp iSize b w) :
    w.iValue.toNat / 2 < 2 ^ (iSize - 1) := by
  have hlt := h.value_lt
  have hpow : 2 ^ w.iLength.toNat ≤ 2 ^ iSize := Nat.pow_le_pow_right (by decide) h.length_le
  have hpos := h.positive
  have hle := h.length_le
  have hsucc : 2 ^ iSize = 2 ^ (iSize - 1) * 2 := by
    rw [← pow_succ]
    congr 1
    omega
  omega

theorem length_toNat {aBegin : UInt32} {l : Nat} (hl : l ≤ aBegin.toNat)
    (hlt : aBegin.toNat < 2 ^ 31) : (aBegin - ofInt l + 1).toNat = aBegin.toNat - l + 1 := by
  have hnat : ofInt l = ofNat l := by
    unfold ofInt
    congr 1
    omega
  have hl32 : (ofNat l).toNat = l := by
    rw [toNat_ofNat']
    omega
  rw [hnat, UInt32.toNat_add, UInt32.toNat_sub_of_le _ _ (le_iff_toNat_le.mpr (by omega)),
    hl32, toNat_one]
  omega

theorem wrap_position (h : n < 2 ^ 31) : TInt.wrap n = n := by
  apply TInt.wrap_of_range
  · unfold KMinTInt
    omega
  · unfold KMaxTInt
    omega

/-- **`FindNextWindow`**, from a bit that is set. -/
theorem findNextWindow_spec (self : TWindowSlider) {aBegin : UInt32}
    (hlt : aBegin.toNat < 2 ^ 31) (hset : self.iExp.bit aBegin.toNat = true) :
    IsWindow self.iExp self.iSize aBegin.toNat (self.findNextWindow aBegin) := by
  obtain ⟨hone, hseven⟩ := self.bounded
  obtain ⟨n, hn⟩ : ∃ n, self.iSize = n + 1 := ⟨self.iSize - 1, by omega⟩
  have hfirst : scan self.iExp self.iSize (TInt.wrap aBegin.toNat) 0
      ⟨0, 0, TInt.wrap aBegin.toNat⟩ = scan self.iExp n ((aBegin.toNat : Int) - (1 : Nat)) 1
        (Scan.next self.iExp aBegin.toNat 0 ⟨0, 0, aBegin.toNat⟩) := by
    rw [hn, wrap_position hlt, scan, if_pos (Int.natCast_nonneg _)]
    rfl
  obtain ⟨k, hk, hkb, hscanned⟩ := scan_scanned n (by omega) (Nat.le_add_left 1 _)
    (scanned_first hset)
  rw [← hfirst] at hscanned
  unfold findNextWindow
  generalize scan self.iExp self.iSize (TInt.wrap aBegin.toNat) 0
    ⟨0, 0, TInt.wrap aBegin.toNat⟩ = s at *
  obtain ⟨l, hlast, hlow, hle, hbit, hvalue⟩ := hscanned.window
  have hlen := length_toNat hle hlt
  simp only
  rw [hlast]
  generalize aBegin - ofInt l + 1 = len at hlen ⊢
  have hshift : (ofNat WORD_BITS - len).toNat = 32 - len.toNat := by
    rw [UInt32.toNat_sub_of_le _ _ (le_iff_toNat_le.mpr (by
      show len.toNat ≤ 32
      omega))]
    rfl
  have hbits : ∀ q, (s.iValue >>> (ofNat WORD_BITS - len)).toNat.testBit q =
      (decide (q < len.toNat) && self.iExp.bit (q + (aBegin.toNat + 1 - len.toNat))) := by
    intro q
    rw [UInt32.toNat_shiftRight, hshift, mod_eq_of_lt (by omega), testBit_shiftRight]
    by_cases hq : q < len.toNat
    · rw [hvalue _ (by omega), decide_eq_true hq,
        decide_eq_true (show 31 + l ≤ 32 - len.toNat + q + aBegin.toNat by omega)]
      congr 2
      omega
    · have hsmall : s.iValue.toNat < 2 ^ (32 - len.toNat + q) :=
        s.iValue.toNat_lt.trans_le (Nat.pow_le_pow_right (by decide) (by omega))
      rw [decide_eq_false hq, testBit_lt_two_pow hsmall, Bool.false_and]
  refine ⟨?_, ?_, ?_, hbits, ?_⟩
  · show 1 ≤ len.toNat
    omega
  · show len.toNat ≤ self.iSize
    omega
  · show len.toNat ≤ aBegin.toNat + 1
    omega
  · have hzero := hbits 0
    have hend : 0 + (aBegin.toNat + 1 - len.toNat) = l := by omega
    rw [hend, hbit, decide_eq_true (show 0 < len.toNat by omega), testBit_zero,
      Bool.and_true, decide_eq_true_eq] at hzero
    exact hzero

theorem position_toNat (h : n < 2 ^ 31) : (ofNat n).toNat = n := by
  rw [toNat_ofNat']
  omega

/-- The window that the loop takes at a bit that is set. -/
theorem window_at (self : TWindowSlider) (hlt : n < 2 ^ 31) (hset : self.iExp.bit n = true) :
    IsWindow self.iExp self.iSize n (self.findNextWindow (ofNat n)) := by
  have hn := position_toNat hlt
  have hwindow : IsWindow self.iExp self.iSize (ofNat n).toNat
      (self.findNextWindow (ofNat n)) :=
    findNextWindow_spec self (by omega) (by rw [hn]; exact hset)
  rwa [hn] at hwindow

/-- From 2^31 on the scan ends before it begins, and the window is not odd. -/
theorem findNextWindow_past (self : TWindowSlider) {aBegin : UInt32}
    (hge : 2 ^ 31 ≤ aBegin.toNat) : (self.findNextWindow aBegin).iValue = 0 := by
  obtain ⟨n, hn⟩ : ∃ n, self.iSize = n + 1 := ⟨self.iSize - 1, by have := self.bounded; omega⟩
  have hlt := aBegin.toNat_lt
  have hneg : TInt.wrap aBegin.toNat < 0 := by
    have heq : TInt.wrap aBegin.toNat = aBegin.toNat - 4294967296 := by
      unfold TInt.wrap
      rw [Int.bmod_def]
      omega
    omega
  unfold findNextWindow
  rw [hn, scan, if_neg (by omega)]
  simp

end

/-! ### The loop over the windows -/

section

variable {α : Type} (square : α → Leaving α) (multiply : α → Nat → Leaving α)

/-- `n` squarings -/
def squares : Nat → α → Leaving α
  | 0, A => .ok A
  | n + 1, A => do
    let A ← square A
    squares n A

/-- The loop of the exponentiations, from the bit `i` down.  They differ in how they square, and
in how they multiply by an odd power from their table. -/
def slide (slider : TWindowSlider) (i : Int) (A : α) : Leaving α :=
  if i ≥ 0 then
    if !slider.iExp.bit i.toNat then do
      let A ← square A
      slide slider (i - 1) A
    else
      let window := slider.findNextWindow (ofNat i.toNat)
      -- `assert(slider.Length() >= 1)`
      if 1 ≤ window.iLength.toNat then do
        let A ← squares square window.iLength.toNat A
        let A ← multiply A (window.iValue >>> 1).toNat
        slide slider (i - window.iLength.toNat) A
      else panic
  else .ok A
termination_by (i + 1).toNat
decreasing_by
  · omega
  · show (i - window.iLength.toNat + 1).toNat < (i + 1).toNat
    omega

/-- What the loop takes of the exponent, from the bit `i` down. -/
def steps (slider : TWindowSlider) (i : Int) : List Step :=
  if i ≥ 0 then
    if !slider.iExp.bit i.toNat then .zero :: steps slider (i - 1)
    else
      let window := slider.findNextWindow (ofNat i.toNat)
      if 1 ≤ window.iLength.toNat then
        .window window.iLength.toNat window.iValue.toNat ::
          steps slider (i - window.iLength.toNat)
      else []
  else []
termination_by (i + 1).toNat
decreasing_by
  · omega
  · show (i - window.iLength.toNat + 1).toNat < (i + 1).toNat
    omega

/-- What the loop does for a step. -/
def applyStep (A : α) : Step → Leaving α
  | .zero => square A
  | .window length value => do
    let A ← squares square length A
    multiply A (value / 2)

/-- A window that the loop may ask for a power of: odd, not longer than a window is, and with its
index in the table. -/
def WindowFits (iSize : Nat) : Step → Prop
  | .zero => True
  | .window length value =>
    1 ≤ length ∧ length ≤ iSize ∧ value % 2 = 1 ∧ value / 2 < 2 ^ (iSize - 1)

variable {square multiply}

/-- **What is taken from `n` bits are those bits, in windows that fit.** -/
theorem steps_spec (slider : TWindowSlider) (hn : n ≤ 2 ^ 31) :
    Scans slider.iExp.bit n (slider.steps ((n : Int) - 1)) ∧
      ∀ step ∈ slider.steps ((n : Int) - 1), WindowFits slider.iSize step := by
  induction n using Nat.strong_induction_on with
  | _ n ih =>
      rw [steps]
      by_cases hzero : n = 0
      · subst hzero
        rw [if_neg (by decide)]
        exact ⟨.nil, fun step hstep => absurd hstep not_mem_nil⟩
      obtain ⟨m, rfl⟩ : ∃ m, n = m + 1 := ⟨n - 1, by omega⟩
      have hpos : ((m + 1 : Nat) : Int) - 1 = m := by omega
      rw [hpos, if_pos (Int.natCast_nonneg m), Int.toNat_natCast]
      by_cases hbit : slider.iExp.bit m = true
      · have hwindow := slider.window_at (by omega) hbit
        have hindex := hwindow.index_lt
        obtain ⟨hpositive, hle, hroom, hvalue, hodd⟩ := hwindow
        rw [if_neg (by rw [hbit]; decide)]
        simp only
        generalize slider.findNextWindow (ofNat m) = window at *
        obtain ⟨hscans, hfits⟩ := ih (m + 1 - window.iLength.toNat) (by omega) (by omega)
        have hnext : ((m + 1 - window.iLength.toNat : Nat) : Int) - 1 =
            (m : Int) - window.iLength.toNat := by omega
        rw [hnext] at hscans hfits
        rw [if_pos hpositive]
        constructor
        · have hall := Scans.window hvalue hscans
          rwa [Nat.sub_add_cancel hroom] at hall
        · intro step hstep
          rcases mem_cons.mp hstep with rfl | hrest
          · exact ⟨hpositive, hle, hodd, hindex⟩
          · exact hfits step hrest
      · obtain ⟨hscans, hfits⟩ := ih m (lt_succ_self m) (by omega)
        have hclear : slider.iExp.bit m = false := Bool.eq_false_iff.mpr hbit
        rw [if_pos (by rw [hclear]; decide)]
        refine ⟨.zero hclear hscans, fun step hstep => ?_⟩
        rcases mem_cons.mp hstep with rfl | hrest
        · exact trivial
        · exact hfits step hrest

/-- The loop goes from step to step. -/
theorem slide_eq (slider : TWindowSlider) (hn : n ≤ 2 ^ 31) (A : α) :
    slide square multiply slider ((n : Int) - 1) A =
      (slider.steps ((n : Int) - 1)).foldlM (applyStep square multiply) A := by
  induction n using Nat.strong_induction_on generalizing A with
  | _ n ih =>
      rw [slide, steps]
      by_cases hzero : n = 0
      · subst hzero
        rfl
      obtain ⟨m, rfl⟩ : ∃ m, n = m + 1 := ⟨n - 1, by omega⟩
      have hpos : ((m + 1 : Nat) : Int) - 1 = m := by omega
      rw [hpos, if_pos (Int.natCast_nonneg m), if_pos (Int.natCast_nonneg m), Int.toNat_natCast]
      by_cases hbit : slider.iExp.bit m = true
      · obtain ⟨hpositive, -, hroom, -, -⟩ := slider.window_at (by omega) hbit
        have hset : ¬(!slider.iExp.bit m) = true := by
          rw [hbit]
          decide
        rw [if_neg hset, if_neg hset]
        simp only
        generalize slider.findNextWindow (ofNat m) = window at *
        have hhalf : (window.iValue >>> 1).toNat = window.iValue.toNat / 2 :=
          shiftRight_toNat (s := 1) (by decide) window.iValue
        have hnext : (m : Int) - window.iLength.toNat =
            ((m + 1 - window.iLength.toNat : Nat) : Int) - 1 := by omega
        rw [if_pos hpositive, if_pos hpositive, hhalf, hnext, foldlM_cons, applyStep, bind_assoc]
        congr 1
        funext A'
        congr 1
        funext A''
        exact ih _ (by omega) (by omega) A''
      · have hclear : slider.iExp.bit m = false := Bool.eq_false_iff.mpr hbit
        rw [if_pos (by rw [hclear]; decide), if_pos (by rw [hclear]; decide), foldlM_cons]
        show (square A >>= _) = (square A >>= _)
        congr 1
        funext A'
        exact ih m (lt_succ_self m) (by omega) A'

/-- What squaring and multiplying by the odd powers do to the exponent of a power. -/
structure PowersTo (square : α → Leaving α) (multiply : α → Nat → Leaving α) (count : Nat)
    (IsPower : α → Nat → Prop) : Prop where
  square : ∀ A n, IsPower A n → ∃ A', square A = .ok A' ∧ IsPower A' (n + n)
  multiply : ∀ A n k, k < count → IsPower A n →
    ∃ A', multiply A k = .ok A' ∧ IsPower A' (n + (2 * k + 1))

theorem squares_spec {count : Nat} {IsPower : α → Nat → Prop}
    (h : PowersTo square multiply count IsPower) (length : Nat) {A : α} (hA : IsPower A n) :
    ∃ A', squares square length A = .ok A' ∧ IsPower A' (n * 2 ^ length) := by
  induction length generalizing A n with
  | zero => exact ⟨A, rfl, by rwa [pow_zero, Nat.mul_one]⟩
  | succ length ih =>
      obtain ⟨B, hB, hpower⟩ := h.square A n hA
      obtain ⟨C, hC, hresult⟩ := ih hpower
      refine ⟨C, ?_, ?_⟩
      · rw [squares, hB]
        exact hC
      · rwa [← Nat.two_mul, Nat.mul_comm 2, Nat.mul_assoc, ← pow_succ'] at hresult

/-- **A step adds its bits to the exponent.** -/
theorem applyStep_spec {iSize : Nat} {IsPower : α → Nat → Prop}
    (h : PowersTo square multiply (2 ^ (iSize - 1)) IsPower) {step : Step}
    (hfits : WindowFits iSize step) {A : α} (hA : IsPower A n) :
    ∃ A', applyStep square multiply A step = .ok A' ∧ IsPower A' (step.append n) := by
  cases step with
  | zero =>
      obtain ⟨B, hB, hpower⟩ := h.square A n hA
      refine ⟨B, hB, ?_⟩
      rw [Step.append, Nat.mul_two]
      exact hpower
  | window length value =>
      obtain ⟨-, -, hodd, hindex⟩ := hfits
      obtain ⟨B, hB, hsquared⟩ := squares_spec h length hA
      obtain ⟨C, hC, hpower⟩ := h.multiply B _ (value / 2) hindex hsquared
      refine ⟨C, ?_, ?_⟩
      · rw [applyStep, hB]
        exact hC
      · have hvalue : 2 * (value / 2) + 1 = value := by omega
        rwa [hvalue] at hpower

/-- **The loop makes the power with the bits that it is started on.** -/
theorem slide_spec (slider : TWindowSlider) {IsPower : α → Nat → Prop}
    (h : PowersTo square multiply (2 ^ (slider.iSize - 1)) IsPower) (hn : n ≤ 2 ^ 31) {A : α}
    (hA : IsPower A 0) :
    ∃ A', slide square multiply slider ((n : Int) - 1) A = .ok A' ∧
      IsPower A' (slider.iExp.magnitude % 2 ^ n) := by
  obtain ⟨hscans, hfits⟩ := slider.steps_spec hn
  have hbits : Scans slider.iExp.magnitude.testBit n (slider.steps ((n : Int) - 1)) :=
    hscans.of_below fun p _ => (slider.iExp.bit_eq p).symm
  rw [slide_eq slider hn, ← hbits.number_eq, number]
  clear hscans hbits
  generalize slider.steps ((n : Int) - 1) = taken at hfits ⊢
  generalize 0 = m at hA ⊢
  induction taken generalizing A m with
  | nil => exact ⟨A, rfl, hA⟩
  | cons step taken ih =>
      obtain ⟨B, hB, hpower⟩ := applyStep_spec h (hfits step mem_cons_self) hA
      obtain ⟨C, hC, hresult⟩ := ih (fun s hs => hfits s (mem_cons_of_mem step hs)) _ hpower
      refine ⟨C, ?_, hresult⟩
      rw [foldlM_cons, hB]
      exact hC

end

end TWindowSlider

end OsSecurity

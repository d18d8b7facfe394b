/-
`GCDL`: `bigint.cpp`.

Twos are counted while both numbers are even, and then stripped from each of them before the
smaller is subtracted from the larger.  Zero is even however often it is halved, so that neither
of these loops ends on it.

The number of twos is a word, and the greatest common divisor is shifted back by it.
-/
import OsSecurity.Bigint.InverseModulo
import OsSecurity.Library.WhileLoop

namespace OsSecurity

open Nat UInt32 WhileLoop

variable {z : TInteger} {fuel k d : Nat}

/-- An integer in a cell that `User::AllocL` can have returned: it panics if it is asked for
`KMaxTInt/2` bytes or more. -/
structure RInteger where
  integer : TInteger
  allocated : ((WORD_SIZE * integer.size : Nat) : Int) < KMaxTInt / 2

namespace TInteger

/-- The two numbers, and how often both have been halved. -/
structure Halved where
  x : TInteger
  y : TInteger
  g : UInt32

/-- `while( x.IsEven() && y.IsEven() )` -/
def halveBoth (fuel : Nat) : Halved → Looping Exit Halved :=
  whileDo (fun s => s.x.isEven && s.y.isEven)
    (fun s => do
      let x ← ended (s.x.shiftRight 1)
      let y ← ended (s.y.shiftRight 1)
      return ⟨x, y, s.g + 1⟩) fuel

/-- `while( x.IsEven() )` -/
def halve (fuel : Nat) : TInteger → Looping Exit TInteger :=
  whileDo isEven (fun x => ended (x.shiftRight 1)) fuel

/-- Step 3 of the algorithm. -/
def subtractSmaller (fuel : Nat) (x y : TInteger) : Looping Exit (TInteger × TInteger) := do
  let x ← halve fuel x
  let y ← halve fuel y
  let t ← ended (x.minusL y)
  let t ← ended (t.shiftRight 1)
  let t := t.setSign .EPositive
  return if x.signedCompare y ≥ 0 then (t, y) else (x, t)

def gcdL (fuel : Nat) (self aOperand : TInteger) : Looping Exit TInteger := do
  let x ← ended (newL self)
  let y ← ended (newL aOperand)
  let s := if x.signedCompare y < 0 then ⟨y, x, 0⟩ else ⟨x, y, 0⟩
  let s ← halveBoth fuel s
  let p ← whileDo (fun p => !p.1.isZero) (fun p => subtractSmaller fuel p.1 p.2) fuel (s.x, s.y)
  ended (p.2.shiftLeft s.g)

section

variable {x y : TInteger} {m n S : Nat}

/-! ### The numbers in the loops -/

/-- The number is `n`, and its cell has at most `S` words. -/
structure IsNat (S : Nat) (x : TInteger) (n : Nat) : Prop where
  positive : x.isNegative = false
  magnitude : x.magnitude = n
  size : x.size ≤ S

theorem onWords_size {j : Nat} {f : Words → Words} {hf : ∀ w, (f w).length = w.length}
    (h : x.onWords j k f hf = .ok z) : z.size = x.size := by
  unfold onWords at h
  by_cases hroom : j + k ≤ x.size
  · rw [dif_pos hroom] at h
    obtain rfl := Except.ok.inj h
    exact size_withWords _ _
  · rw [dif_neg hroom] at h
    cases h

theorem shiftRight_size {aBits : UInt32} (h : x.shiftRight aBits = .ok z) : z.size = x.size := by
  unfold shiftRight at h
  obtain ⟨moved, hmoved, h⟩ := bind_eq_ok.mp h
  obtain ⟨shifted, hshifted, h⟩ := bind_eq_ok.mp h
  obtain rfl := Except.ok.inj h
  have hsize : shifted.size = moved.size := by
    by_cases hmore : x.wordCount > aBits.toNat / WORD_BITS
    · rw [if_pos hmore] at hshifted
      exact onWords_size hshifted
    · rw [if_neg hmore] at hshifted
      obtain rfl := Except.ok.inj hshifted
      rfl
  have hall := hsize.trans (onWords_size hmoved)
  split_ifs
  · exact hall
  · exact hall

theorem store_size {w : Words} (h : x.store w = .ok z) : z.size = x.size := by
  unfold store at h
  by_cases hroom : w.length ≤ x.size
  · rw [dif_pos hroom] at h
    obtain rfl := Except.ok.inj h
    exact size_withWords _ _
  · rw [dif_neg hroom] at h
    cases h

theorem positiveSubtractL_size (h : positiveSubtractL x y = .ok z) :
    z.size = max x.size y.size := by
  have hstored : ∀ (w : Words) (aSign : TSign),
      (do let diff ← (cleanNewL (max x.size y.size)).store w
          return diff.setSign aSign) = Except.ok z → z.size = max x.size y.size := by
    intro w aSign hz
    obtain ⟨diff, hdiff, hz⟩ := bind_eq_ok.mp hz
    obtain rfl := Except.ok.inj hz
    rw [size_setSign, store_size hdiff, size_cleanNewL, size_max]
  unfold positiveSubtractL at h
  simp only at h
  split_ifs at h
  · exact hstored _ _ h
  · exact hstored _ _ h
  · exact hstored _ _ h
  · exact hstored _ _ h

/-- `x >>= 1` -/
theorem IsNat.halved (h : IsNat S x n) : ∃ z, x.shiftRight 1 = .ok z ∧ IsNat S z (n / 2) := by
  obtain ⟨z, hsign, hvalue, heq⟩ := shiftRight_eq x 1
  have hpositive := hsign.trans h.positive
  rw [hpositive, Bool.false_and, if_neg (by decide)] at heq
  refine ⟨z, heq, hpositive, ?_, ?_⟩
  · rw [hvalue, h.magnitude]
    rfl
  · rw [shiftRight_size heq]
    exact h.size

/-- The half of the difference, without its sign. -/
theorem IsNat.halfDifference (hx : IsNat S x m) (hy : IsNat S y n) :
    ∃ d t, x.minusL y = .ok d ∧ d.shiftRight 1 = .ok t ∧
      IsNat S (t.setSign .EPositive) (((m : Int) - n).natAbs / 2) := by
  have hsigned : x.WellSigned := fun hneg => absurd (hx.positive.symm.trans hneg) (by decide)
  obtain ⟨d, hd, hint⟩ := minusL_makes hsigned y
  have hsub : positiveSubtractL x y = .ok d := by
    unfold minusL at hd
    rwa [hx.positive, hy.positive, if_pos (by decide), if_pos (by decide)] at hd
  have hdsize : d.size ≤ S := by
    rw [positiveSubtractL_size hsub]
    exact max_le hx.size hy.size
  have hdvalue : d.magnitude = ((m : Int) - n).natAbs := by
    rw [← toInt_natAbs, hint.toInt, toInt_of_positive hx.positive, toInt_of_positive hy.positive,
      hx.magnitude, hy.magnitude]
  obtain ⟨t, -, hvalue, heq⟩ := shiftRight_eq d 1
  refine ⟨d, _, hd, heq, rfl, ?_, ?_⟩
  · have hmagnitude : ∀ b : Bool, ((if b then t.setSign .EPositive else t).setSign
        .EPositive).magnitude = t.magnitude := fun b => by cases b <;> rfl
    rw [hmagnitude, hvalue, hdvalue]
    rfl
  · rw [size_setSign, shiftRight_size heq]
    exact hdsize

theorem IsNat.isEven_iff (h : IsNat S x n) : x.isEven = true ↔ n % 2 = 0 := by
  rw [TInteger.isEven_iff, h.magnitude]

theorem IsNat.isZero_iff (h : IsNat S x n) : x.isZero = true ↔ n = 0 := by
  rw [TInteger.isZero_iff, h.magnitude]
  exact ⟨fun hz => hz.2, fun hz => ⟨h.positive, hz⟩⟩

theorem IsNat.signedCompare_ge (hx : IsNat S x m) (hy : IsNat S y n) :
    x.signedCompare y ≥ 0 ↔ n ≤ m := by
  rw [TInteger.signedCompare_ge hx.positive hy.positive, hx.magnitude, hy.magnitude]

/-! ### Stripping twos -/

/-- `n` without its twos. -/
def IsOddPart (n odd : Nat) : Prop := odd % 2 = 1 ∧ ∃ k, odd * 2 ^ k = n

theorem IsOddPart.le {odd : Nat} (h : IsOddPart n odd) : odd ≤ n := by
  obtain ⟨-, k, hk⟩ := h
  rw [← hk]
  exact Nat.le_mul_of_pos_right odd (Nat.two_pow_pos k)

/-- Twos make no difference to odd divisors. -/
theorem IsOddPart.dvd_iff {odd c : Nat} (h : IsOddPart n odd) (hc : c % 2 = 1) :
    c ∣ n ↔ c ∣ odd := by
  obtain ⟨-, k, hk⟩ := h
  have hcoprime : Coprime c (2 ^ k) :=
    (coprime_two_right.mpr (odd_iff.mpr hc)).pow_right k
  rw [← hk]
  exact ⟨hcoprime.dvd_of_dvd_mul_right, fun hdvd => hdvd.mul_right _⟩

/-- **The inner loops end**, for a number that is not zero. -/
theorem halve_ends (h : IsNat S x n) (hpos : 0 < n) (hfuel : n < fuel) :
    ∃ z odd, halve fuel x = pure z ∧ IsNat S z odd ∧ IsOddPart n odd := by
  have hstep : ∀ z : TInteger, (∃ m k, IsNat S z m ∧ 0 < m ∧ m * 2 ^ k = n) → z.isEven = true →
      ∃ z', ended (z.shiftRight 1) = (pure z' : Looping Exit TInteger) ∧
        (∃ m k, IsNat S z' m ∧ 0 < m ∧ m * 2 ^ k = n) ∧ z'.magnitude < z.magnitude := by
    intro z hz heven
    obtain ⟨m, k, hm, hmpos, hmn⟩ := hz
    have hmod := hm.isEven_iff.mp heven
    obtain ⟨z', hz', hhalf⟩ := hm.halved
    refine ⟨z', by rw [hz', ended_ok], ⟨m / 2, k + 1, hhalf, by omega, ?_⟩, ?_⟩
    · rw [pow_succ', ← Nat.mul_assoc, Nat.div_mul_cancel (dvd_of_mod_eq_zero hmod), hmn]
    · rw [hhalf.magnitude, hm.magnitude]
      omega
  obtain ⟨z, hz, ⟨m, k, hm, -, hmn⟩, hodd⟩ := whileDo_ends _ TInteger.magnitude hstep
    fuel ⟨n, 0, h, hpos, by rw [pow_zero, Nat.mul_one]⟩ (by rw [h.magnitude]; exact hfuel)
  refine ⟨z, m, hz, hm, ?_, k, hmn⟩
  have hnot := mt hm.isEven_iff.mpr (Bool.eq_false_iff.mp hodd)
  omega

/-- They do not, for zero. -/
theorem halve_zero (h : IsNat S x 0) (fuel : Nat) : halve fuel x = unfinished := by
  apply whileDo_never fun z => IsNat S z 0
  · intro z hz
    obtain ⟨z', hz', hhalf⟩ := hz.halved
    exact ⟨hz.isEven_iff.mpr rfl, .inr ⟨z', by rw [hz', ended_ok], hhalf⟩⟩
  · exact h

/-- What is left of `a` and `b` when both have been halved `k` times. -/
structure HalvedTimes (S a b k : Nat) (s : Halved) : Prop where
  left : ∃ m n, IsNat S s.x m ∧ IsNat S s.y n ∧ m * 2 ^ k = a ∧ n * 2 ^ k = b
  count : s.g = ofNat k

theorem HalvedTimes.next {a b : Nat} {s : Halved} (h : HalvedTimes S a b k s)
    (hboth : (s.x.isEven && s.y.isEven) = true) :
    ∃ s', (do let x ← ended (s.x.shiftRight 1)
              let y ← ended (s.y.shiftRight 1)
              return ⟨x, y, s.g + 1⟩ : Looping Exit Halved) = pure s' ∧
      HalvedTimes S a b (k + 1) s' ∧ s'.x.magnitude = s.x.magnitude / 2 := by
  obtain ⟨⟨m, n, hm, hn, ha, hb⟩, hcount⟩ := h
  obtain ⟨hxeven, hyeven⟩ := Bool.and_eq_true_iff.mp hboth
  obtain ⟨x', hx', hxhalf⟩ := hm.halved
  obtain ⟨y', hy', hyhalf⟩ := hn.halved
  have hdouble : ∀ {q c : Nat}, q % 2 = 0 → q * 2 ^ k = c → q / 2 * 2 ^ (k + 1) = c := by
    intro q c heven hc
    rw [pow_succ', ← Nat.mul_assoc, Nat.div_mul_cancel (dvd_of_mod_eq_zero heven), hc]
  refine ⟨⟨x', y', s.g + 1⟩, ?_, ⟨⟨m / 2, n / 2, hxhalf, hyhalf, ?_, ?_⟩, ?_⟩, ?_⟩
  · rw [hx', hy']
    rfl
  · exact hdouble (hm.isEven_iff.mp hxeven) ha
  · exact hdouble (hn.isEven_iff.mp hyeven) hb
  · rw [hcount, ofNat_add]
    rfl
  · rw [hxhalf.magnitude, hm.magnitude]

/-- **The first loop ends** unless both numbers are zero. -/
theorem halveBoth_ends {a b : Nat} (hx : IsNat S x a) (hy : IsNat S y b) (hpos : 0 < a)
    (hfuel : a < fuel) :
    ∃ s k, halveBoth fuel ⟨x, y, 0⟩ = pure s ∧ HalvedTimes S a b k s ∧
      ¬(s.x.magnitude % 2 = 0 ∧ s.y.magnitude % 2 = 0) := by
  have hstart : HalvedTimes S a b 0 ⟨x, y, 0⟩ :=
    ⟨⟨a, b, hx, hy, by rw [pow_zero, Nat.mul_one], by rw [pow_zero, Nat.mul_one]⟩, rfl⟩
  obtain ⟨s, hs, ⟨k, hk⟩, hends⟩ : ∃ s, halveBoth fuel ⟨x, y, 0⟩ = pure s ∧
      (∃ k, HalvedTimes S a b k s) ∧ (s.x.isEven && s.y.isEven) = false := by
    apply whileDo_ends (fun s => ∃ k, HalvedTimes S a b k s) fun s => s.x.magnitude
    · rintro s ⟨k, hk⟩ hboth
      obtain ⟨s', hs', hnext, hhalf⟩ := hk.next hboth
      refine ⟨s', hs', ⟨k + 1, hnext⟩, ?_⟩
      obtain ⟨m, -, hm, -, ha, -⟩ := hk.left
      have hne : m ≠ 0 := by
        rintro rfl
        rw [Nat.zero_mul] at ha
        omega
      rw [hhalf, hm.magnitude]
      omega
    · exact ⟨0, hstart⟩
    · show x.magnitude < fuel
      rw [hx.magnitude]
      exact hfuel
  refine ⟨s, k, hs, hk, ?_⟩
  rintro ⟨hxeven, hyeven⟩
  rw [(TInteger.isEven_iff s.x).mpr hxeven, (TInteger.isEven_iff s.y).mpr hyeven] at hends
  exact absurd hends (by decide)

/-! ### Subtracting -/

/-- The odd common divisors of the two numbers are the divisors of `d`. -/
def OddDivisors (m n d : Nat) : Prop := ∀ c, c % 2 = 1 → (c ∣ m ∧ c ∣ n ↔ c ∣ d)

/-- An odd number divides the half of an even number where it divides the number. -/
theorem odd_dvd_half {c t : Nat} (hc : c % 2 = 1) : c ∣ 2 * t ↔ c ∣ t := by
  have hcoprime : Coprime c 2 := coprime_two_right.mpr (odd_iff.mpr hc)
  exact ⟨hcoprime.dvd_of_dvd_mul_left, fun hdvd => hdvd.mul_left 2⟩

theorem OddDivisors.subtract {u v t : Nat} (h : OddDivisors u v d) (hu : u = v + 2 * t) :
    OddDivisors t v d ∧ OddDivisors v t d := by
  have hsame : ∀ c, c % 2 = 1 → c ∣ v → (c ∣ t ↔ c ∣ u) := by
    intro c hc hv
    rw [hu, Nat.dvd_add_right hv, odd_dvd_half hc]
  constructor
  · intro c hc
    rw [← h c hc]
    exact ⟨fun hdvd => ⟨(hsame c hc hdvd.2).mp hdvd.1, hdvd.2⟩,
      fun hdvd => ⟨(hsame c hc hdvd.2).mpr hdvd.1, hdvd.2⟩⟩
  · intro c hc
    rw [← h c hc]
    exact ⟨fun hdvd => ⟨(hsame c hc hdvd.1).mp hdvd.2, hdvd.1⟩,
      fun hdvd => ⟨hdvd.2, (hsame c hc hdvd.2).mpr hdvd.1⟩⟩

/-- What holds of the two numbers in the main loop. -/
structure Reduces (S d : Nat) (p : TInteger × TInteger) : Prop where
  numbers : ∃ m n, IsNat S p.1 m ∧ IsNat S p.2 n ∧ 0 < n ∧ (m = 0 → n % 2 = 1) ∧
    OddDivisors m n d

/-- **A turn of the main loop.** -/
theorem subtractSmaller_spec {p : TInteger × TInteger} (h : Reduces S d p)
    (hne : p.1.isZero = false) (hfuel : p.1.magnitude + p.2.magnitude < fuel) :
    ∃ p', subtractSmaller fuel p.1 p.2 = pure p' ∧ Reduces S d p' ∧
      p'.1.magnitude + p'.2.magnitude < p.1.magnitude + p.2.magnitude := by
  obtain ⟨m, n, hm, hn, hnpos, -, hdivisors⟩ := h.numbers
  rw [hm.magnitude, hn.magnitude] at hfuel ⊢
  have hmpos : 0 < m := Nat.pos_of_ne_zero (fun hc => by
    rw [hm.isZero_iff.mpr hc] at hne
    exact absurd hne (by decide))
  have hmfuel : m < fuel := by omega
  have hnfuel : n < fuel := by omega
  obtain ⟨x, u, hx, hu, huodd⟩ := halve_ends hm hmpos hmfuel
  obtain ⟨y, v, hy, hv, hvodd⟩ := halve_ends hn hnpos hnfuel
  have hstripped : OddDivisors u v d := by
    intro c hc
    rw [← huodd.dvd_iff hc, ← hvodd.dvd_iff hc]
    exact hdivisors c hc
  have hule := huodd.le
  have hvle := hvodd.le
  have hu1 := huodd.1
  have hv1 := hvodd.1
  obtain ⟨diff, t, hdiff, ht, htn⟩ := hu.halfDifference hv
  have hrun : subtractSmaller fuel p.1 p.2 = pure
      (if x.signedCompare y ≥ 0 then (t.setSign .EPositive, y)
        else (x, t.setSign .EPositive)) := by
    unfold subtractSmaller
    rw [hx, pure_bind, hy, pure_bind, hdiff, ended_ok, pure_bind, ht, ended_ok, pure_bind]
  refine ⟨_, hrun, ?_⟩
  by_cases hge : v ≤ u
  · have hhalf : u = v + 2 * (((u : Int) - v).natAbs / 2) := by omega
    rw [if_pos ((hu.signedCompare_ge hv).mpr hge)]
    refine ⟨⟨⟨_, v, htn, hv, by omega, fun _ => hv1, (hstripped.subtract hhalf).1⟩⟩, ?_⟩
    rw [htn.magnitude, hv.magnitude]
    omega
  · have hhalf : v = u + 2 * (((u : Int) - v).natAbs / 2) := by omega
    have hswapped : OddDivisors v u d := fun c hc => and_comm.trans (hstripped c hc)
    rw [if_neg (mt (hu.signedCompare_ge hv).mp hge)]
    refine ⟨⟨⟨u, _, hu, htn, by omega, fun hzero => by omega, (hswapped.subtract hhalf).2⟩⟩, ?_⟩
    rw [hu.magnitude, htn.magnitude]
    omega

/-- **The main loop** comes to the odd common divisor. -/
theorem subtract_ends {p : TInteger × TInteger} (hd : d % 2 = 1) (h : Reduces S d p)
    (hfuel : p.1.magnitude + p.2.magnitude < fuel) :
    ∃ p', whileDo (fun p => !p.1.isZero) (fun p => subtractSmaller fuel p.1 p.2) fuel p = pure p' ∧
      IsNat S p'.2 d := by
  have hturn : ∀ q : TInteger × TInteger,
      (Reduces S d q ∧ q.1.magnitude + q.2.magnitude < fuel) → (!q.1.isZero) = true →
      ∃ q', subtractSmaller fuel q.1 q.2 = pure q' ∧
        (Reduces S d q' ∧ q'.1.magnitude + q'.2.magnitude < fuel) ∧
        q'.1.magnitude + q'.2.magnitude < q.1.magnitude + q.2.magnitude := by
    rintro q ⟨hq, hqfuel⟩ hgoes
    obtain ⟨q', hq', hnext, hless⟩ := subtractSmaller_spec hq
      ((Bool.not_eq_true' _).mp hgoes) hqfuel
    exact ⟨q', hq', ⟨hnext, by omega⟩, hless⟩
  obtain ⟨p', hp', ⟨hreduces, -⟩, hends⟩ := whileDo_ends _
    (fun p : TInteger × TInteger => p.1.magnitude + p.2.magnitude) hturn fuel ⟨h, hfuel⟩ hfuel
  obtain ⟨m, n, hm, hn, -, hodd, hdivisors⟩ := hreduces.numbers
  have hzero : m = 0 := hm.isZero_iff.mp ((Bool.not_eq_false' _).mp hends)
  have hnodd := hodd hzero
  have hdn : d ∣ n := ((hdivisors d hd).mpr dvd_rfl).2
  have hnd : n ∣ d := (hdivisors n hnodd).mp ⟨by rw [hzero]; exact dvd_zero n, dvd_rfl⟩
  refine ⟨p', hp', ?_⟩
  rw [Nat.dvd_antisymm hdn hnd]
  exact hn

/-! ### The whole algorithm -/

/-- The numbers are exchanged if the first is smaller. -/
theorem gcdL_eq (fuel : Nat) (hx : IsNat S x m) (hy : IsNat S y n) :
    ∃ u v, IsNat S u (max m n) ∧ IsNat S v (min m n) ∧
      gcdL fuel x y = (do
        let s ← halveBoth fuel ⟨u, v, 0⟩
        let p ← whileDo (fun p => !p.1.isZero) (fun p => subtractSmaller fuel p.1 p.2) fuel
          (s.x, s.y)
        ended (p.2.shiftLeft s.g)) := by
  by_cases hless : m < n
  · refine ⟨y, x, ?_, ?_, ?_⟩
    · rw [Nat.max_eq_right hless.le]
      exact hy
    · rw [Nat.min_eq_left hless.le]
      exact hx
    · have hcompare : x.signedCompare y < 0 := by
        have hnot := mt (hx.signedCompare_ge hy).mp (Nat.not_le.mpr hless)
        omega
      unfold gcdL
      rw [newL_eq, newL_eq, ended_ok, ended_ok, pure_bind, pure_bind]
      simp only
      rw [if_pos hcompare]
  · refine ⟨x, y, ?_, ?_, ?_⟩
    · rw [Nat.max_eq_left (Nat.not_lt.mp hless)]
      exact hx
    · rw [Nat.min_eq_right (Nat.not_lt.mp hless)]
      exact hy
    · have hcompare : ¬x.signedCompare y < 0 := by
        have hge := (hx.signedCompare_ge hy).mpr (Nat.not_lt.mp hless)
        omega
      unfold gcdL
      rw [newL_eq, newL_eq, ended_ok, ended_ok, pure_bind, pure_bind]
      simp only
      rw [if_neg hcompare]

/-- `k` is the number of twos that `m` and `n` have in common. -/
def CommonTwos (m n k : Nat) : Prop := ∀ j, 2 ^ j ∣ m ∧ 2 ^ j ∣ n ↔ j ≤ k

theorem commonTwos_of_halved {m' n' : Nat} (hm : m' * 2 ^ k = m) (hn : n' * 2 ^ k = n)
    (hodd : ¬(m' % 2 = 0 ∧ n' % 2 = 0)) : CommonTwos m n k := by
  intro j
  constructor
  · rintro ⟨hjm, hjn⟩
    by_contra hmore
    have hnext : ∀ {q c : Nat}, q * 2 ^ k = c → 2 ^ j ∣ c → q % 2 = 0 := by
      intro q c hc hdvd
      have hsucc : 2 * 2 ^ k ∣ q * 2 ^ k := by
        rw [hc, ← pow_succ']
        exact (pow_dvd_pow 2 (by omega)).trans hdvd
      exact mod_eq_zero_of_dvd (Nat.dvd_of_mul_dvd_mul_right (Nat.two_pow_pos k) hsucc)
    exact hodd ⟨hnext hm hjm, hnext hn hjn⟩
  · intro hle
    rw [← hm, ← hn]
    exact ⟨(pow_dvd_pow 2 hle).mul_left _, (pow_dvd_pow 2 hle).mul_left _⟩

/-- **What is left is shifted back**, when neither number is zero. -/
theorem gcdL_shifts (hx : IsNat S x m) (hy : IsNat S y n) (hm : 0 < m) (hn : 0 < n)
    (hfuel : m + n < fuel) :
    ∃ z d k, gcdL fuel x y = ended (z.shiftLeft (ofNat k)) ∧ IsNat S z d ∧ 0 < d ∧
      d * 2 ^ k = Nat.gcd m n ∧ CommonTwos m n k := by
  obtain ⟨u, v, hu, hv, heq⟩ := gcdL_eq fuel hx hy
  have hgcd : Nat.gcd (max m n) (min m n) = Nat.gcd m n := by
    rcases Nat.le_total m n with hle | hle
    · rw [Nat.max_eq_right hle, Nat.min_eq_left hle, Nat.gcd_comm]
    · rw [Nat.max_eq_left hle, Nat.min_eq_right hle]
  have hcommon : ∀ k, CommonTwos (max m n) (min m n) k → CommonTwos m n k := by
    intro k hk j
    rw [← hk j]
    rcases Nat.le_total m n with hle | hle
    · rw [Nat.max_eq_right hle, Nat.min_eq_left hle, and_comm]
    · rw [Nat.max_eq_left hle, Nat.min_eq_right hle]
  have hmaxfuel : max m n < fuel := by omega
  obtain ⟨s, k, hs, ⟨⟨a, b, ha, hb, hka, hkb⟩, hcount⟩, hodd⟩ :=
    halveBoth_ends hu hv (by omega) hmaxfuel
  rw [ha.magnitude, hb.magnitude] at hodd
  have hbpos : 0 < b := Nat.pos_of_ne_zero (fun hc => by
    rw [hc, Nat.zero_mul] at hkb
    omega)
  have hale : a ≤ max m n := by
    rw [← hka]
    exact Nat.le_mul_of_pos_right a (Nat.two_pow_pos k)
  have hble : b ≤ min m n := by
    rw [← hkb]
    exact Nat.le_mul_of_pos_right b (Nat.two_pow_pos k)
  have hgcdOdd : Nat.gcd a b % 2 = 1 := by
    by_contra heven
    have htwo : 2 ∣ Nat.gcd a b := dvd_of_mod_eq_zero (by omega)
    exact hodd ⟨mod_eq_zero_of_dvd (htwo.trans (Nat.gcd_dvd_left a b)),
      mod_eq_zero_of_dvd (htwo.trans (Nat.gcd_dvd_right a b))⟩
  have hreduces : Reduces S (Nat.gcd a b) (s.x, s.y) := by
    refine ⟨a, b, ha, hb, hbpos, fun hzero => ?_, fun c _ => Nat.dvd_gcd_iff.symm⟩
    rw [hzero, Nat.zero_mul] at hka
    omega
  have hless : s.x.magnitude + s.y.magnitude < fuel := by
    rw [ha.magnitude, hb.magnitude]
    omega
  obtain ⟨p, hp, hresult⟩ := subtract_ends hgcdOdd hreduces hless
  refine ⟨p.2, Nat.gcd a b, k, ?_, hresult, by omega, ?_,
    hcommon k (commonTwos_of_halved hka hkb hodd)⟩
  · rw [heq, hs, pure_bind, hp, pure_bind, hcount]
  · rw [← hgcd, ← hka, ← hkb, Nat.gcd_mul_right]

/-- A number and zero: halving both of them leaves a number and zero, if it ends. -/
theorem halveBoth_zero (hx : IsNat S x m) (hy : IsNat S y 0) (fuel : Nat) :
    halveBoth fuel ⟨x, y, 0⟩ = unfinished ∨
      ∃ s n, halveBoth fuel ⟨x, y, 0⟩ = pure s ∧ IsNat S s.x n ∧ 0 < n ∧ IsNat S s.y 0 := by
  have hturn : ∀ {s : Halved} {q : Nat}, IsNat S s.x q → IsNat S s.y 0 →
      ∃ s', (do let x ← ended (s.x.shiftRight 1)
                let y ← ended (s.y.shiftRight 1)
                return ⟨x, y, s.g + 1⟩ : Looping Exit Halved) = pure s' ∧
        IsNat S s'.x (q / 2) ∧ IsNat S s'.y 0 := by
    intro s q hq hzero
    obtain ⟨x', hx', hxhalf⟩ := hq.halved
    obtain ⟨y', hy', hyhalf⟩ := hzero.halved
    refine ⟨⟨x', y', s.g + 1⟩, ?_, hxhalf, hyhalf⟩
    rw [hx', hy']
    rfl
  by_cases hzero : m = 0
  · rw [hzero] at hx
    left
    apply whileDo_never fun s => IsNat S s.x 0 ∧ IsNat S s.y 0
    · rintro s ⟨hsx, hsy⟩
      obtain ⟨s', hs', hx', hy'⟩ := hturn hsx hsy
      refine ⟨?_, .inr ⟨s', hs', hx', hy'⟩⟩
      rw [hsx.isEven_iff.mpr rfl, hsy.isEven_iff.mpr rfl]
      rfl
    · exact ⟨hx, hy⟩
  · have hends : halveBoth fuel ⟨x, y, 0⟩ = unfinished ∨
        ∃ s, halveBoth fuel ⟨x, y, 0⟩ = pure s ∧
          (∃ n, IsNat S s.x n ∧ 0 < n ∧ IsNat S s.y 0) ∧ (s.x.isEven && s.y.isEven) = false := by
      apply whileDo_holds fun s : Halved => ∃ n, IsNat S s.x n ∧ 0 < n ∧ IsNat S s.y 0
      · rintro s ⟨n, hn, hpos, hsy⟩ hboth
        have heven := hn.isEven_iff.mp (Bool.and_eq_true_iff.mp hboth).1
        obtain ⟨s', hs', hx', hy'⟩ := hturn hn hsy
        exact ⟨s', hs', n / 2, hx',
          Nat.div_pos (le_of_dvd hpos (dvd_of_mod_eq_zero heven)) (by decide), hy'⟩
      · exact ⟨m, hx, Nat.pos_of_ne_zero hzero, hy⟩
    rcases hends with hstuck | ⟨s, hs, ⟨n, hn⟩, -⟩
    · exact .inl hstuck
    · exact .inr ⟨s, n, hs, hn⟩

/-- The main loop does not get past a zero either. -/
theorem subtractSmaller_zero (hx : IsNat S x m) (hy : IsNat S y 0) (fuel : Nat) :
    subtractSmaller fuel x y = unfinished := by
  have hfirst : halve fuel x = unfinished ∨
      ∃ z, halve fuel x = pure z ∧ (∃ n, IsNat S z n) ∧ z.isEven = false := by
    apply whileDo_holds fun z => ∃ n, IsNat S z n
    · rintro z ⟨n, hn⟩ -
      obtain ⟨z', hz', hhalf⟩ := hn.halved
      exact ⟨z', by rw [hz', ended_ok], n / 2, hhalf⟩
    · exact ⟨m, hx⟩
  unfold subtractSmaller
  rcases hfirst with hstuck | ⟨z, hz, -⟩
  · rw [hstuck, unfinished_bind]
  · rw [hz, pure_bind, halve_zero hy, unfinished_bind]

/-- **On zero it never ends**, whatever the other number is. -/
theorem gcdL_never (hx : IsNat S x m) (hy : IsNat S y n) (hzero : min m n = 0) (fuel : Nat) :
    gcdL fuel x y = unfinished := by
  obtain ⟨u, v, hu, hv, heq⟩ := gcdL_eq fuel hx hy
  rw [hzero] at hv
  rw [heq]
  rcases halveBoth_zero hu hv fuel with hstuck | ⟨s, q, hs, hq, hpos, hsy⟩
  · rw [hstuck, unfinished_bind]
  · have hnever : whileDo (fun p : TInteger × TInteger => !p.1.isZero)
        (fun p => subtractSmaller fuel p.1 p.2) fuel (s.x, s.y) = unfinished := by
      apply whileDo_never fun p => p = (s.x, s.y)
      · rintro p rfl
        refine ⟨?_, .inl (subtractSmaller_zero hq hsy fuel)⟩
        have hnot : s.x.isZero = false := Bool.eq_false_iff.mpr (mt hq.isZero_iff.mp hpos.ne')
        rw [hnot]
        rfl
      · rfl
    rw [hs, pure_bind, hnever, unfinished_bind]

/-! ### When it is right -/

/-- So many common twos that their number, rounded up to words, wraps. -/
def mostTwos : Nat := 2 ^ 32 - 31

theorem allocated_size (r : RInteger) : r.integer.size ≤ 2 ^ 27 := by
  have hbytes := r.allocated
  obtain ⟨k, hk⟩ := r.integer.powerOfTwo
  have hsize : r.integer.size = 2 ^ (k + 1) := hk
  have hless : 2 ^ (k + 1) < 2 ^ 28 := by
    unfold WORD_SIZE KMaxTInt at hbytes
    omega
  rw [hsize]
  exact Nat.pow_le_pow_right (by decide) (by
    have hexponent := (Nat.pow_lt_pow_iff_right (by decide : 1 < 2)).mp hless
    omega)

theorem isNat_allocated (r : RInteger) (h : r.integer.isNegative = false) :
    IsNat (2 ^ 27) r.integer r.integer.magnitude :=
  ⟨h, rfl, allocated_size r⟩

/-- The number of common twos is less than there are bits in a cell. -/
theorem commonTwos_lt (hx : IsNat (2 ^ 27) x m) (hm : 0 < m) (hk : CommonTwos m n k) :
    k < 2 ^ 32 := by
  have hle : 2 ^ k ≤ m := le_of_dvd hm ((hk k).mpr (Nat.le_refl k)).1
  have hlt := x.magnitude_lt
  rw [hx.magnitude, ← pow_mul] at hlt
  have hbits : k < 32 * x.size := (Nat.pow_lt_pow_iff_right (by decide)).mp (hle.trans_lt hlt)
  have hsize := hx.size
  omega

/-- The shift back, in a cell that has been allocated. -/
theorem shiftBack_iff (hx : IsNat (2 ^ 27) x d) (hd : 0 < d) (hk : k < 2 ^ 32) :
    Makes (x.shiftLeft (ofNat k)) (d * 2 ^ k : Nat) ↔ k < mostTwos := by
  have hword : (ofNat k).toNat = k := by
    rw [toNat_ofNat']
    omega
  have hsigned : x.WellSigned := fun hneg => absurd (hx.positive.symm.trans hneg) (by decide)
  have hshift := shiftLeft_makes_iff hsigned (ofNat k)
  rw [toInt_of_positive hx.positive, hx.magnitude, hword] at hshift
  push_cast
  rw [hshift]
  have hcount : 0 < x.wordCount := by
    apply Nat.pos_of_ne_zero
    intro hzero
    have hnone := wordCount_eq_zero.mp hzero
    rw [hx.magnitude] at hnone
    omega
  have hsize := hx.size
  unfold RoomToShift mostTwos
  rw [hword]
  omega

/-- With enough fuel, of two numbers that are not zero. -/
theorem gcdL_run_iff (hx : IsNat (2 ^ 27) x m) (hy : IsNat (2 ^ 27) y n) (hm : 0 < m) (hn : 0 < n)
    (hfuel : m + n < fuel) :
    (∃ z, gcdL fuel x y = pure z ∧ z.IsInt (Nat.gcd m n)) ↔
      ¬(2 ^ mostTwos ∣ m ∧ 2 ^ mostTwos ∣ n) := by
  obtain ⟨z, d, k, hrun, hz, hd, hgcd, hcommon⟩ := gcdL_shifts hx hy hm hn hfuel
  have hreturns : (∃ z, gcdL fuel x y = pure z ∧ z.IsInt (Nat.gcd m n)) ↔
      Makes (z.shiftLeft (ofNat k)) (d * 2 ^ k : Nat) := by
    rw [hrun, hgcd]
    constructor
    · rintro ⟨w, hw, hint⟩
      exact ⟨w, Option.some.inj hw, hint⟩
    · rintro ⟨w, hw, hint⟩
      exact ⟨w, by rw [hw, ended_ok], hint⟩
  rw [hreturns, shiftBack_iff hz hd (commonTwos_lt hx hm hcommon), hcommon, Nat.not_le]

/-- **`GCDL`** ends with the greatest common divisor exactly where neither number is zero, and
they do not have too many twos in common. -/
theorem gcdL_iff (a b : RInteger) (ha : a.integer.isNegative = false)
    (hb : b.integer.isNegative = false) :
    Ends (fun fuel => gcdL fuel a.integer b.integer)
        (fun z => z.IsInt (Int.gcd a.integer.toInt b.integer.toInt)) ↔
      a.integer.magnitude ≠ 0 ∧ b.integer.magnitude ≠ 0 ∧
        ¬(2 ^ mostTwos ∣ a.integer.magnitude ∧ 2 ^ mostTwos ∣ b.integer.magnitude) := by
  have hx := isNat_allocated a ha
  have hy := isNat_allocated b hb
  have hgcd : Int.gcd a.integer.toInt b.integer.toInt =
      Nat.gcd a.integer.magnitude b.integer.magnitude := by
    unfold Int.gcd
    rw [toInt_natAbs, toInt_natAbs]
  rw [hgcd]
  generalize a.integer.magnitude = m at *
  generalize b.integer.magnitude = n at *
  constructor
  · rintro ⟨bound, hends⟩
    have hfuel := hends (max bound (m + n + 1)) (Nat.le_max_left _ _)
    have hpos : ¬min m n = 0 := by
      intro hzero
      obtain ⟨z, hz, -⟩ := hfuel
      exact unfinished_ne_pure z ((gcdL_never hx hy hzero _).symm.trans hz)
    refine ⟨by omega, by omega, ?_⟩
    exact (gcdL_run_iff hx hy (by omega) (by omega) (by omega)).mp hfuel
  · rintro ⟨hm, hn, hfew⟩
    refine ⟨m + n + 1, fun fuel hfuel => ?_⟩
    exact (gcdL_run_iff hx hy (Nat.pos_of_ne_zero hm) (Nat.pos_of_ne_zero hn) hfuel).mpr hfew

end

/-- A number of one word. -/
def wordInteger (w : UInt32) : RInteger where
  integer := ofWord w
  allocated := by
    show ((WORD_SIZE * 2 : Nat) : Int) < KMaxTInt / 2
    decide

/-- The greatest common divisor of 12 and 18. -/
theorem gcdL_iff_twelve :
    Ends (fun fuel => gcdL fuel (wordInteger 12).integer (wordInteger 18).integer)
        (fun z => z.IsInt
          (Int.gcd (wordInteger 12).integer.toInt (wordInteger 18).integer.toInt)) ↔
      (wordInteger 12).integer.magnitude ≠ 0 ∧ (wordInteger 18).integer.magnitude ≠ 0 ∧
        ¬(2 ^ mostTwos ∣ (wordInteger 12).integer.magnitude ∧
          2 ^ mostTwos ∣ (wordInteger 18).integer.magnitude) :=
  gcdL_iff (wordInteger 12) (wordInteger 18) rfl rfl

/-- That of 1 and 0 is never returned. -/
theorem not_gcdL_zero :
    ¬Ends (fun fuel => gcdL fuel (wordInteger 1).integer (wordInteger 0).integer)
      (fun z => z.IsInt
        (Int.gcd (wordInteger 1).integer.toInt (wordInteger 0).integer.toInt)) := by
  rintro ⟨bound, hends⟩
  obtain ⟨z, hz, -⟩ := hends bound (Nat.le_refl bound)
  have hone : IsNat 2 (wordInteger 1).integer 1 := ⟨rfl, rfl, Nat.le_refl 2⟩
  have hzero : IsNat 2 (wordInteger 0).integer 0 := ⟨rfl, rfl, Nat.le_refl 2⟩
  exact unfinished_ne_pure z ((gcdL_never hone hzero rfl bound).symm.trans hz)

end TInteger

end OsSecurity

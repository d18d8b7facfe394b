/-
Octet strings and the integers they stand for.

Strings are big-endian and words little-endian, and a word is four octets of memory with the
lowest first.  `newDesL` reads a string into the words of a new integer, and `bufferLC` gives
the string back without the leading zeros: the `Der.octets` of the magnitude.
-/
import OsSecurity.Bigint.Integer
import OsSecurity.Library.Packing

namespace OsSecurity

open List Nat Packing

def KErrNegativeExportNotSupported : Int := -11005

def WORD_SIZE : Nat := 4

def BytesToWords (byteCount : Nat) : Nat := (byteCount + WORD_SIZE - 1) / WORD_SIZE

def BytePrecision (aValue : UInt32) : Nat :=
  let p : UInt32 × Nat := if aValue < 0x10000 then (aValue <<< 16, 2) else (aValue, 4)
  let x := if p.1 < 0x1000000 then p.2 - 1 else p.2
  if p.1 = 0 then 0 else x

/-- The octets of a word in memory. -/
def wordOctets (w : UInt32) : Bytes :=
  [w.toUInt8, (w >>> 8).toUInt8, (w >>> 16).toUInt8, (w >>> 24).toUInt8]

def memory (A : Words) : Bytes := A.flatMap wordOctets

/-- `n` words of memory that begin with the given octets; the rest is zero. -/
def wordsFrom : Nat → Bytes → Words
  | 0, _ => []
  | n + 1, octets =>
    UInt32.ofNat (pack littleEndian 0 (octets.take 4)) ::
      wordsFrom n (octets.drop 4)

theorem wordsFrom_length (n : Nat) (octets : Bytes) : (wordsFrom n octets).length = n := by
  induction n generalizing octets with
  | zero => rfl
  | succ n ih => rw [wordsFrom, length_cons, ih]

namespace TInteger

/-- `RInteger::NewL(const TDesC8&)` -/
def newDesL (aValue : Bytes) : TInteger where
  words := wordsFrom (RoundupSize (BytesToWords aValue.length)) aValue.reverse
  sign := .EPositive
  powerOfTwo := by
    rw [wordsFrom_length]
    exact (RoundupSize_least _).powerOfTwo

def byteCount (self : TInteger) : Nat :=
  if self.wordCount ≠ 0 then
    (self.wordCount - 1) * WORD_SIZE + BytePrecision (self.words.getD (self.wordCount - 1) 0)
  else 0

def bufferLC (self : TInteger) : Leaving Bytes :=
  if self.isNegative then leave KErrNegativeExportNotSupported
  else .ok ((memory self.words).take self.byteCount).reverse

end TInteger

/-! ### Words and octets -/

theorem wordOctets_value (w : UInt32) : Der.value (wordOctets w).reverse = w.toNat := by
  have hlt : w.toNat < 4294967296 := w.toNat_lt
  simp [wordOctets, Der.value]
  omega

theorem memory_cons (w : UInt32) (A : Words) : memory (w :: A) = wordOctets w ++ memory A := rfl

theorem memory_length (A : Words) : (memory A).length = 4 * A.length := by
  induction A with
  | nil => rfl
  | cons w A ih =>
      rw [memory_cons, length_append, ih, length_cons]
      show 4 + 4 * A.length = _
      omega

theorem memory_value (A : Words) : Der.value (memory A).reverse = value A := by
  induction A with
  | nil => rfl
  | cons w A ih =>
      rw [memory_cons, reverse_append, Der.value_append, ih, wordOctets_value, value_cons]
      show value A * 256 ^ 4 + w.toNat = _
      norm_num
      ring

theorem wordsFrom_value {n : Nat} {octets : Bytes} (h : octets.length ≤ 4 * n) :
    value (wordsFrom n octets) = Der.value octets.reverse := by
  induction n generalizing octets with
  | zero =>
      have hnil : octets = [] := length_eq_zero_iff.mp (by omega)
      rw [hnil]
      rfl
  | succ n ih =>
      have hlow : Der.value (octets.take 4).reverse < 2 ^ 32 := by
        refine Nat.lt_of_lt_of_le (Der.value_lt _) ?_
        rw [show (2 : Nat) ^ 32 = 256 ^ 4 by norm_num]
        exact Nat.pow_le_pow_right (by decide) (by simp)
      have hfirst : (UInt32.ofNat (pack littleEndian 0 (octets.take 4))).toNat =
          Der.value (octets.take 4).reverse := by
        rw [pack_littleEndian, Nat.mul_zero, shiftLeft_zero]
        exact mod_eq_of_lt hlow
      rw [wordsFrom, value_cons, hfirst, ih (by rw [length_drop]; omega)]
      conv_rhs => rw [← take_append_drop 4 octets, reverse_append, Der.value_append]
      rcases Nat.le_total 4 octets.length with hlong | hshort
      · rw [length_reverse, length_take_of_le hlong]
        norm_num
        ring
      · rw [drop_eq_nil_of_le hshort]
        simp [Der.value]

theorem BytePrecision_spec {w : UInt32} (h : w ≠ 0) :
    1 ≤ BytePrecision w ∧ 256 ^ (BytePrecision w - 1) ≤ w.toNat ∧
      w.toNat < 256 ^ BytePrecision w := by
  have hpos : 0 < w.toNat := by
    rcases Nat.eq_zero_or_pos w.toNat with hzero | hpos
    · exact absurd (UInt32.toNat_inj.mp hzero) h
    · exact hpos
  have hlt : w.toNat < 4294967296 := w.toNat_lt
  have hless : ∀ v m : UInt32, v < m ↔ v.toNat < m.toNat := fun v m => UInt32.lt_iff_toNat_lt
  have hzero : ∀ v : UInt32, v = 0 ↔ v.toNat = 0 := fun v => UInt32.toNat_inj.symm
  by_cases hhalf : w < 0x10000
  · have hshift : (w <<< 16).toNat = w.toNat * 65536 := by
      have hsmall : w.toNat < 65536 := (hless _ _).mp hhalf
      rw [UInt32.toNat_shiftLeft]
      show w.toNat <<< 16 % 4294967296 = _
      rw [shiftLeft_eq]
      omega
    have hsmall : w.toNat < 65536 := (hless _ _).mp hhalf
    have hne : ¬w <<< 16 = 0 := by
      rw [hzero, hshift]
      omega
    by_cases hbyte : w <<< 16 < 0x1000000
    · have hval : BytePrecision w = 1 := by
        unfold BytePrecision
        simp only [if_pos hhalf, if_pos hbyte, if_neg hne]
      have hbound : w.toNat * 65536 < 16777216 := by
        rw [← hshift]
        exact (hless _ _).mp hbyte
      rw [hval]
      exact ⟨by omega, by omega, by omega⟩
    · have hval : BytePrecision w = 2 := by
        unfold BytePrecision
        simp only [if_pos hhalf, if_neg hbyte, if_neg hne]
      have hbound : ¬w.toNat * 65536 < 16777216 := by
        rw [← hshift]
        exact fun hlt => hbyte ((hless _ _).mpr hlt)
      rw [hval]
      exact ⟨by omega, by omega, by omega⟩
  · have hlarge : ¬w.toNat < 65536 := fun hlt => hhalf ((hless _ _).mpr hlt)
    by_cases hbyte : w < 0x1000000
    · have hval : BytePrecision w = 3 := by
        unfold BytePrecision
        simp only [if_neg hhalf, if_pos hbyte, if_neg h]
      have hbound : w.toNat < 16777216 := (hless _ _).mp hbyte
      rw [hval]
      exact ⟨by omega, by omega, by omega⟩
    · have hval : BytePrecision w = 4 := by
        unfold BytePrecision
        simp only [if_neg hhalf, if_neg hbyte, if_neg h]
      have hbound : ¬w.toNat < 16777216 := fun hlt => hbyte ((hless _ _).mpr hlt)
      rw [hval]
      exact ⟨by omega, by omega, by omega⟩

namespace TInteger

/-- The words up to the highest that is not zero, which stands alone. -/
theorem magnitude_top {self : TInteger} (h : self.wordCount ≠ 0) :
    self.magnitude = value (self.words.take (self.wordCount - 1)) +
      256 ^ (4 * (self.wordCount - 1)) * (self.words.getD (self.wordCount - 1) 0).toNat := by
  have hle := self.wordCount_le
  have hlt : self.wordCount - 1 < self.words.length := by
    unfold size at hle
    omega
  have hpow : (256 : Nat) ^ (4 * (self.wordCount - 1)) = (2 ^ 32) ^ (self.wordCount - 1) := by
    rw [pow_mul]
    norm_num
  have htake : self.words.take self.wordCount =
      self.words.take (self.wordCount - 1) ++ [self.words.getD (self.wordCount - 1) 0] := by
    obtain ⟨n, hn⟩ := exists_eq_succ_of_ne_zero h
    rw [hn, succ_sub_one]
    rw [hn, succ_sub_one] at hlt
    rw [take_add_one, getD_eq_getElem?_getD, getElem?_eq_getElem hlt]
    rfl
  have hlength : (self.words.take (self.wordCount - 1)).length = self.wordCount - 1 :=
    length_take_of_le hlt.le
  rw [← value_take_words (Nat.le_refl _), htake, value_append, hlength, hpow, value_cons,
    value_nil, Nat.mul_zero, Nat.add_zero]

theorem byteCount_spec {self : TInteger} (h : self.magnitude ≠ 0) :
    1 ≤ self.byteCount ∧ 256 ^ (self.byteCount - 1) ≤ self.magnitude ∧
      self.magnitude < 256 ^ self.byteCount := by
  have hcount : self.wordCount ≠ 0 := fun hzero => h (wordCount_eq_zero.mp hzero)
  have hle := self.wordCount_le
  unfold size at hle
  have hlow : value (self.words.take (self.wordCount - 1)) < 256 ^ (4 * (self.wordCount - 1)) := by
    have hlt := value_lt (self.words.take (self.wordCount - 1))
    rw [length_take_of_le (by omega)] at hlt
    rw [pow_mul]
    exact Nat.lt_of_lt_of_le hlt (by norm_num)
  have htop : self.words.getD (self.wordCount - 1) 0 ≠ 0 := by
    intro hzero
    have hmin := le_magnitude_wordCount h
    rw [magnitude_top hcount, hzero] at hmin
    rw [pow_mul] at hlow
    norm_num at hmin hlow
    omega
  obtain ⟨hone, hge, hlt⟩ := BytePrecision_spec htop
  have hbytes : self.byteCount = (self.wordCount - 1) * 4 +
      BytePrecision (self.words.getD (self.wordCount - 1) 0) := if_pos hcount
  have hsplit : self.byteCount - 1 = 4 * (self.wordCount - 1) +
      (BytePrecision (self.words.getD (self.wordCount - 1) 0) - 1) := by omega
  refine ⟨by omega, ?_, ?_⟩
  · rw [hsplit, pow_add, magnitude_top hcount]
    have hmul := Nat.mul_le_mul_left (256 ^ (4 * (self.wordCount - 1))) hge
    omega
  · rw [hbytes, Nat.mul_comm _ 4, pow_add, magnitude_top hcount]
    have hmul := Nat.mul_le_mul_left (256 ^ (4 * (self.wordCount - 1))) hlt
    rw [succ_eq_add_one, Nat.mul_add, Nat.mul_one] at hmul
    omega

theorem bufferLC_eq {self : TInteger} (h : self.isNegative = false) :
    self.bufferLC = .ok (Der.octets self.magnitude) := by
  have hbuffer : self.bufferLC = .ok ((memory self.words).take self.byteCount).reverse := by
    unfold bufferLC
    rw [h]
    rfl
  rw [hbuffer, Except.ok.injEq]
  by_cases hzero : self.magnitude = 0
  · have hbytes : self.byteCount = 0 := by
      unfold byteCount
      rw [wordCount_eq_zero.mpr hzero]
      rfl
    rw [hbytes, hzero, Der.octets_zero]
    rfl
  · obtain ⟨hone, hge, hlt⟩ := byteCount_spec hzero
    have hle : self.byteCount ≤ (memory self.words).length := by
      have hmem : self.magnitude < 256 ^ (memory self.words).length := by
        have hall := Der.value_lt (memory self.words).reverse
        rw [memory_value, length_reverse] at hall
        exact hall
      have hpow := (Nat.pow_lt_pow_iff_right (by decide)).mp (Nat.lt_of_le_of_lt hge hmem)
      omega
    have hvalue : Der.value ((memory self.words).take self.byteCount).reverse =
        self.magnitude := by
      have hsplit : Der.value ((memory self.words).drop self.byteCount).reverse *
          256 ^ self.byteCount + Der.value ((memory self.words).take self.byteCount).reverse =
            self.magnitude := by
        have happend := Der.value_append ((memory self.words).drop self.byteCount).reverse
          ((memory self.words).take self.byteCount).reverse
        rw [← reverse_append, take_append_drop, memory_value, length_reverse,
          length_take_of_le hle] at happend
        exact happend.symm
      have hdrop : Der.value ((memory self.words).drop self.byteCount).reverse = 0 := by
        by_contra hne
        have hpos := Nat.mul_le_mul_right (256 ^ self.byteCount) (one_le_iff_ne_zero.mpr hne)
        omega
      rw [hdrop, Nat.zero_mul, Nat.zero_add] at hsplit
      exact hsplit
    have hlength : ((memory self.words).take self.byteCount).reverse.length =
        self.byteCount := by
      rw [length_reverse, length_take_of_le hle]
    rw [← hvalue, Der.octets_value]
    -- with a leading zero there would be one octet less
    intro hhead
    cases hb : ((memory self.words).take self.byteCount).reverse with
    | nil =>
      rw [hb] at hhead
      cases hhead
    | cons b bs =>
      rw [hb, head?_cons, Option.some.injEq] at hhead
      rw [hb, length_cons] at hlength
      rw [hb, hhead, Der.value_cons] at hvalue
      have hbs := Der.value_lt bs
      rw [show bs.length = self.byteCount - 1 by omega] at hbs
      simp at hvalue
      omega

theorem magnitude_newDesL (aValue : Bytes) : (newDesL aValue).magnitude = Der.value aValue := by
  have hsize := (RoundupSize_least (BytesToWords aValue.length)).le
  unfold BytesToWords WORD_SIZE at hsize
  show value (wordsFrom _ _) = _
  rw [wordsFrom_value, reverse_reverse]
  rw [length_reverse]
  unfold BytesToWords WORD_SIZE
  omega

theorem isNegative_newDesL (aValue : Bytes) : (newDesL aValue).isNegative = false := rfl

end TInteger

end OsSecurity

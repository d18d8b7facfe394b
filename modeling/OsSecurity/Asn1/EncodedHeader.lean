/-
The header of an encoded element, read back.

The tag is written in one octet or, above 30, in groups of seven bits, and the length in one
octet or in as many as it needs behind one that counts them.  `TagOctets` and `LengthOctets`
are the forms that `InitL` accepts, and this is the proof that what `WriteTagDERL` and
`WriteLengthDER` write has them, with the tag, the class and the length that were written.
The two meet in `CASN1EncData.holds`.
-/
import OsSecurity.Asn1.Encoders
import OsSecurity.Asn1.Inside

namespace OsSecurity

open List Nat UInt32

/-! ### Octets -/

theorem lt_countShifts {s w b turns : Nat} (hb : b ≤ s * (turns + 1)) (h : w < 2 ^ b) :
    w < 2 ^ (s * (countShifts s turns w + 1)) := by
  replace h : w < 2 ^ (s * (turns + 1)) :=
    Nat.lt_of_lt_of_le h (Nat.pow_le_pow_right (by omega) hb)
  clear hb
  induction turns generalizing w with
  | zero => exact h
  | succ turns ih =>
      have hdiv : w >>> s = w / 2 ^ s := shiftRight_eq_div_pow w s
      unfold countShifts
      by_cases hz : w >>> s = 0
      · rw [if_pos hz, Nat.zero_add, Nat.mul_one]
        rw [hdiv] at hz
        exact lt_of_div_eq_zero (Nat.two_pow_pos s) hz
      · rw [if_neg hz, Nat.mul_add, Nat.mul_one, pow_add]
        rw [Nat.mul_add, Nat.mul_one, pow_add] at h
        have hlt : w >>> s < 2 ^ (s * (turns + 1)) := by
          rw [hdiv]
          exact Nat.div_lt_of_lt_mul (by rwa [Nat.mul_comm] at h)
        have := ih hlt
        rw [hdiv, Nat.div_lt_iff_lt_mul (Nat.two_pow_pos s)] at this
        rwa [hdiv]

theorem pow_countShifts_le (s turns : Nat) {w : Nat} (h : 0 < w) : 2 ^ (s * countShifts s turns w) ≤ w := by
  induction turns generalizing w with
  | zero => exact h
  | succ turns ih =>
      have hdiv : w >>> s = w / 2 ^ s := shiftRight_eq_div_pow w s
      unfold countShifts
      by_cases hz : w >>> s = 0
      · rw [if_pos hz]
        exact h
      · rw [if_neg hz, Nat.mul_add, Nat.mul_one, pow_add]
        have := ih (Nat.pos_of_ne_zero hz)
        calc 2 ^ (s * countShifts s turns (w >>> s)) * 2 ^ s
            ≤ w >>> s * 2 ^ s := Nat.mul_le_mul_right _ this
          _ ≤ w := by
            rw [hdiv]
            exact div_mul_le_self w (2 ^ s)

@[simp] theorem base256_length (n w : Nat) : (base256 n w).length = n := by
  induction n generalizing w with
  | zero => rfl
  | succ n ih => rw [base256, length_append, ih, length_singleton]

theorem value_base256 {n w : Nat} (h : w < 256 ^ n) : Der.value (base256 n w) = w := by
  induction n generalizing w with
  | zero =>
      show 0 = w
      omega
  | succ n ih =>
      have hdiv : w >>> 8 = w / 256 := shiftRight_eq_div_pow w 8
      have hlow : w.toUInt8.toNat = w % 256 := by simp
      have hlt : w / 256 < 256 ^ n := by
        rw [pow_succ, Nat.mul_comm] at h
        exact Nat.div_lt_of_lt_mul h
      rw [base256, Der.value_concat, hdiv, ih hlt, hlow]
      omega

/-- A length in long form is counted by at most four octets. -/
theorem longLength_octets {c : Nat} (hpos : 0 < c) (hmax : (c : Int) ≤ KMaxTInt) :
    1 + countShifts 8 32 c ≤ 4 ∧ c < 256 ^ (1 + countShifts 8 32 c) := by
  unfold KMaxTInt at hmax
  constructor
  · by_contra hgt
    have h1 := pow_countShifts_le 8 32 hpos
    have h2 : (2 : Nat) ^ (8 * 4) ≤ 2 ^ (8 * countShifts 8 32 c) :=
      Nat.pow_le_pow_right (by omega) (by omega)
    omega
  · have h31 : c < 2 ^ 31 := by omega
    have h1 : c < 2 ^ (8 * (countShifts 8 32 c + 1)) := lt_countShifts (by decide) h31
    rw [Nat.add_comm 1, show (256 : Nat) = 2 ^ 8 from rfl, ← pow_mul]
    exact h1

namespace TASN1EncBase128DER

@[simp] theorem leading_length (n w : Nat) : (leading n w).length = n := by
  induction n generalizing w with
  | zero => rfl
  | succ n ih => rw [leading, length_append, ih, length_singleton]

theorem writeDERL_length (iInt : UInt32) : (writeDERL iInt).length = lengthDER iInt := by
  unfold writeDERL lengthDER
  rw [length_append, leading_length, length_singleton]
  omega

theorem leading_continues (n w : Nat) : ∀ x ∈ leading n w, 128 ≤ x := by
  induction n generalizing w with
  | zero => exact fun x hx => absurd hx (by simp [leading])
  | succ n ih =>
      intro x hx
      rcases mem_append.mp hx with hx | hx
      · exact ih _ x hx
      · obtain rfl := mem_singleton.mp hx
        rw [UInt8.le_iff_toNat_le, UInt8.toNat_or]
        exact right_le_or

/-- The low seven bits of an octet that goes on. -/
theorem continued_and (w : Nat) : ((w.toUInt8 ||| 0x80) &&& 127).toNat = w % 128 := by
  rw [UInt8.toNat_and, UInt8.toNat_or]
  have hmask : ∀ x : Nat, x &&& 127 = x % 128 := fun x => and_two_pow_sub_one_eq_mod x 7
  have hor : ∀ x : Nat, (x ||| 128) % 128 = x % 128 := by
    intro x
    have := or_mod_two_pow (a := x) (b := 128) (n := 7)
    simpa using this
  have hlow : w.toUInt8.toNat = w % 256 := by simp
  show (w.toUInt8.toNat ||| 128) &&& 127 = w % 128
  rw [hmask, hor, hlow]
  omega

/-- Seven more bits. -/
theorem shift_add {T : UInt32} {b : UInt8} {w : Nat} (hw : w < 2 ^ 32) (hT : T.toNat = w / 128)
    (hb : b.toNat = w % 128) : ((T <<< 7) + b.toUInt32).toNat = w := by
  rw [UInt32.toNat_add, UInt32.toNat_shiftLeft, hT, UInt8.toNat_toUInt32, hb, shiftLeft_eq]
  show (w / 128 * 2 ^ 7 % 2 ^ 32 + w % 128) % 2 ^ 32 = w
  omega

theorem tagValue_leading {n w : Nat} (hw : w < 2 ^ 32) (hn : w < 128 ^ n) :
    (tagValue 0 (leading n w)).toNat = w := by
  induction n generalizing w with
  | zero =>
      show 0 = w
      omega
  | succ n ih =>
      have hdiv : w >>> 7 = w / 128 := shiftRight_eq_div_pow w 7
      have hlt : w / 128 < 128 ^ n := by
        rw [pow_succ, Nat.mul_comm] at hn
        exact Nat.div_lt_of_lt_mul hn
      have hstep : tagValue 0 (leading (n + 1) w) = ((tagValue 0 (leading n (w >>> 7))) <<< 7)
          + ((w.toUInt8 ||| 0x80) &&& 127).toUInt32 := by
        simp [tagValue, leading]
      rw [hstep, hdiv]
      exact shift_add hw (ih (by omega) hlt) (continued_and w)

/-- There are octets enough in front of the last. -/
theorem div_lt_leading (iInt : UInt32) : iInt.toNat / 128 < 128 ^ (lengthDER iInt - 1) := by
  have hcount : iInt.toNat < 2 ^ (7 * (countShifts 7 32 iInt.toNat + 1)) :=
    lt_countShifts (by decide) iInt.toNat_lt
  unfold lengthDER
  rw [Nat.add_sub_cancel_left, show (128 : Nat) = 2 ^ 7 from rfl, ← pow_mul]
  rw [Nat.mul_add, Nat.mul_one, pow_add, Nat.mul_comm] at hcount
  exact Nat.div_lt_of_lt_mul hcount

/-- The octets behind the first of a long tag carry the tag. -/
theorem tagOctets {b : UInt8} (hb : b &&& 0x1f = 0x1f) (iInt : UInt32) :
    TagOctets (b :: writeDERL iInt) iInt := by
  have hw : iInt.toNat < 2 ^ 32 := iInt.toNat_lt
  have hdiv : iInt.toNat >>> 7 = iInt.toNat / 128 := shiftRight_eq_div_pow _ 7
  have hlt := div_lt_leading iInt
  have hlast := continued_and iInt.toNat
  have hvalue : ((tagValue 0 (leading (lengthDER iInt - 1) (iInt.toNat >>> 7)) <<< 7)
      + ((iInt.toNat.toUInt8 ||| 0x80) &&& 0x7f).toUInt32) = iInt := by
    apply UInt32.toNat_inj.mp
    rw [hdiv]
    exact shift_add hw (tagValue_leading (by omega) hlt) hlast
  have h := TagOctets.high (c := (iInt.toNat.toUInt8 ||| 0x80) &&& 0x7f) hb
    (leading_continues (lengthDER iInt - 1) (iInt.toNat >>> 7)) (by
      rw [UInt8.lt_iff_toNat_lt, hlast]
      exact mod_lt _ (by omega))
  rw [hvalue] at h
  exact h

end TASN1EncBase128DER

/-! ### The header of a node -/

namespace CASN1EncData

variable {d : CASN1EncData}

/-- The lengths of the header are those of the tag and of the length that are kept. -/
structure Sized (d : CASN1EncData) : Prop where
  tag : d.iTagLengthDER = calculateTagLengthDER d.iType
  length : d.iLengthLengthDER = calculateLengthLengthDER d.iContentsLengthDER

private theorem low_tag (c : TASN1Class) (isConstructed : Bool) : ∀ n < 31,
    ((⟨0, c, 0, 0, 0⟩ : CASN1EncData).identifier isConstructed ||| (ofNat n).toUInt8) &&&
        0x1f ≠ 0x1f ∧
      (((⟨0, c, 0, 0, 0⟩ : CASN1EncData).identifier isConstructed ||| (ofNat n).toUInt8)
        &&& 0x1f).toUInt32 = ofNat n ∧
      TASN1Class.ofByte ((⟨0, c, 0, 0, 0⟩ : CASN1EncData).identifier isConstructed |||
        (ofNat n).toUInt8) = c := by
  cases c <;> cases isConstructed <;> decide

private theorem high_tag (c : TASN1Class) (isConstructed : Bool) :
    ((⟨0, c, 0, 0, 0⟩ : CASN1EncData).identifier isConstructed ||| 0x1f) &&& 0x1f = 0x1f ∧
      TASN1Class.ofByte ((⟨0, c, 0, 0, 0⟩ : CASN1EncData).identifier isConstructed ||| 0x1f)
        = c := by
  cases c <;> cases isConstructed <;> decide

theorem writeTagDERL_tagOctets (d : CASN1EncData) (isConstructed : Bool) :
    TagOctets (d.writeTagDERL isConstructed) d.iType ∧
      TASN1Class.ofByte ((d.writeTagDERL isConstructed).headD 0) = d.iClass := by
  unfold writeTagDERL
  by_cases hlow : d.iType ≤ KMaxLowNumberFormTag
  · rw [if_pos hlow]
    have hn : d.iType.toNat < 31 := lt_succ_of_le (le_iff_toNat_le.mp hlow)
    have hof : ofNat d.iType.toNat = d.iType := UInt32.ofNat_toNat
    obtain ⟨hne, htag, hcls⟩ := low_tag d.iClass isConstructed _ hn
    rw [hof] at hne htag hcls
    have h := TagOctets.low hne
    rw [htag] at h
    exact ⟨h, hcls⟩
  · rw [if_neg hlow]
    obtain ⟨hhigh, hcls⟩ := high_tag d.iClass isConstructed
    exact ⟨TASN1EncBase128DER.tagOctets hhigh d.iType, hcls⟩

theorem writeTagDERL_length (hd : d.Sized) (isConstructed : Bool) :
    (d.writeTagDERL isConstructed).length = d.iTagLengthDER := by
  rw [hd.tag]
  unfold writeTagDERL calculateTagLengthDER
  by_cases hlow : d.iType ≤ KMaxLowNumberFormTag
  · rw [if_pos hlow, if_pos hlow, length_singleton]
  · rw [if_neg hlow, if_neg hlow, length_cons, TASN1EncBase128DER.writeDERL_length]

theorem writeLengthDER_length (hd : d.Sized) : d.writeLengthDER.length = d.iLengthLengthDER := by
  rw [hd.length]
  unfold writeLengthDER calculateLengthLengthDER
  by_cases hlong : d.iContentsLengthDER > KMaxShortFormLength
  · rw [if_pos hlong, if_pos hlong, length_cons, base256_length, hd.length,
      calculateLengthLengthDER, if_pos hlong]
    omega
  · rw [if_neg hlong, if_neg hlong, length_singleton]

/-- The first octet of a long length counts the others. -/
private theorem long_first : ∀ k : Nat, k ≤ 4 → 0 < k →
    128 < (k.toUInt8 ||| 0x80) ∧ ((k.toUInt8 ||| 0x80) &&& 127).toNat = k := by
  decide

theorem writeLengthDER_lengthOctets (hd : d.Sized) (hmax : (d.iContentsLengthDER : Int) ≤ KMaxTInt) :
    LengthOctets d.writeLengthDER d.iContentsLengthDER := by
  unfold writeLengthDER
  by_cases hlong : d.iContentsLengthDER > KMaxShortFormLength
  · have hcount : d.iLengthLengthDER - 1 = 1 + countShifts 8 32 d.iContentsLengthDER := by
      rw [hd.length, calculateLengthLengthDER, if_pos hlong]
      omega
    obtain ⟨hfour, hfits⟩ := longLength_octets (Nat.lt_of_le_of_lt (Nat.zero_le _) hlong) hmax
    rw [if_pos hlong, hcount]
    obtain ⟨hfirst, hand⟩ := long_first _ hfour (by omega)
    have hcounted : (base256 (1 + countShifts 8 32 d.iContentsLengthDER)
        d.iContentsLengthDER).length = _ := (base256_length _ _).trans hand.symm
    have h := LengthOctets.long hfirst hcounted
    have hvalue := lengthValue_eq 0 (base256 (1 + countShifts 8 32 d.iContentsLengthDER)
      d.iContentsLengthDER)
    rw [value_base256 hfits, Int.zero_mul, Int.zero_add,
      TInt.wrap_of_range (by unfold KMinTInt; omega) hmax] at hvalue
    rw [← hvalue]
    exact h
  · rw [if_neg hlong]
    have hle : d.iContentsLengthDER ≤ 127 := Nat.not_lt.mp hlong
    have hnat : d.iContentsLengthDER.toUInt8.toNat = d.iContentsLengthDER := by
      simp
      omega
    have h := LengthOctets.short (l := d.iContentsLengthDER.toUInt8) (by
      rw [UInt8.lt_iff_toNat_lt, hnat]
      exact lt_succ_of_le hle)
    rw [hnat] at h
    exact h

/-- The header of a node in front of contents that are as long as it says. -/
theorem holds (hd : d.Sized) (isConstructed : Bool) {body : Bytes} (rest : Bytes)
    (hbody : body.length = d.iContentsLengthDER)
    (hmax : ((d.writeTagDERL isConstructed ++ d.writeLengthDER ++ body ++ rest).length : Int)
      ≤ KMaxTInt) :
    ∃ g, Holds (d.writeTagDERL isConstructed ++ d.writeLengthDER ++ body ++ rest) g
        (d.writeTagDERL isConstructed ++ d.writeLengthDER ++ body) body rest ∧
      g.tag = d.iType ∧ g.cls = d.iClass := by
  obtain ⟨htag, hcls⟩ := d.writeTagDERL_tagOctets isConstructed
  have hsize := hmax
  simp only [length_append] at hsize
  have hlength := writeLengthDER_lengthOctets hd (by omega)
  rw [← hbody] at hlength
  have hbehind : 2 ≤ d.writeLengthDER.length → body ++ rest ≠ [] := by
    intro hlong hnil
    rw [writeLengthDER_length hd, hd.length, calculateLengthLengthDER] at hlong
    have hzero : body.length = 0 := by rw [(append_eq_nil_iff.mp hnil).1, length_nil]
    rw [← hbody, hzero, if_neg (by decide)] at hlong
    omega
  have helement : Element (d.writeTagDERL isConstructed ++ d.writeLengthDER ++ body ++ rest)
      (d.writeTagDERL isConstructed) d.writeLengthDER body rest d.iType :=
    ⟨rfl, htag, hlength, hbehind⟩
  refine ⟨_, (holds_iff hmax).mpr ⟨_, _, _, rfl, helement, rfl⟩, rfl, ?_⟩
  have hhead : (d.writeTagDERL isConstructed ++ d.writeLengthDER ++ body ++ rest).headD 0
      = (d.writeTagDERL isConstructed).headD 0 := by
    obtain ⟨b, bs, hbs⟩ := exists_cons_of_ne_nil htag.ne_nil
    rw [hbs]
    rfl
  show TASN1Class.ofByte ((d.writeTagDERL isConstructed ++ d.writeLengthDER ++ body ++ rest).headD 0)
    = d.iClass
  rw [hhead, hcls]

end CASN1EncData

end OsSecurity

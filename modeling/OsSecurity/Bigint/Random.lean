/-
`TInteger::RandomizeL`: an integer of a number of random bits.

Random octets are written over the lowest octets of the cell, the bits above those asked for are
masked in the last of them, and the top bits are set.  The octets above stay as they are, so that
the integer has no more bits than are asked for only if it had no more before.

The generator is not modelled: what it writes is any sequence of octets.
-/
import OsSecurity.Bigint.Octets
import OsSecurity.Bigint.Shifts
import OsSecurity.Bigint.SmallPrimes

namespace OsSecurity

open List Nat

inductive TRandomAttribute where
  | EAllBitsRandom
  | ETopBitSet
  | ETop2BitsSet
  deriving DecidableEq

def BYTE_BITS : Nat := 8

def BitsToBytes (bitCount : UInt32) : Nat := ((bitCount + 7) / 8).toNat

/-- `buf[bytes-1]` is masked. -/
def maskLast (buf : Bytes) (bitpos : Nat) : Bytes :=
  buf.modify (buf.length - 1) fun b => UInt8.ofNat (b.toNat &&& (1 <<< bitpos - 1))

/-- The octets from the generator, without the bits above those asked for. -/
def drawnOctets (bytes bitpos : Nat) (random : Nat → UInt8) : Bytes :=
  let buf := (range bytes).map random
  if bitpos ≠ 0 then maskLast buf bitpos else buf

namespace TInteger

def setTopBits (self : TInteger) (aBits : UInt32) (aAttr : TRandomAttribute) : TInteger :=
  let self :=
    if aAttr = .ETopBitSet ∨ aAttr = .ETop2BitsSet then self.setBit (aBits - 1).toNat else self
  if aAttr = .ETop2BitsSet then self.setBit (aBits - 2).toNat else self

/-- `random` are the octets that the generator writes.  A descriptor panics when it is made longer
than the cell, and when its last octet is asked for and there is none. -/
def randomizeL (self : TInteger) (aBits : UInt32) (aAttr : TRandomAttribute)
    (random : Nat → UInt8) : Leaving TInteger :=
  if aBits = 0 then .ok self
  else
    let bytes := BitsToBytes aBits
    let self := self.cleanGrowL (BitsToWords aBits)
    let bitpos := aBits.toNat % BYTE_BITS
    if bytes > WORD_SIZE * self.size then panic
    else if bitpos ≠ 0 ∧ bytes = 0 then panic
    else
      let filled := self.withWords
        (wordsFrom self.size (drawnOctets bytes bitpos random ++ (memory self.words).drop bytes))
        (wordsFrom_length ..)
      .ok (filled.setTopBits aBits aAttr)

end TInteger

/-! ### The bits that are drawn -/

/-- The number in the first `bits` bits of the octets. -/
def drawnBits (bits : Nat) (random : Nat → UInt8) : Nat :=
  Der.value ((range ((bits + 7) / 8)).map random).reverse % 2 ^ bits

/-- With the top bits set. -/
def drawn (bits : Nat) (aAttr : TRandomAttribute) (random : Nat → UInt8) : Nat :=
  match aAttr with
  | .EAllBitsRandom => drawnBits bits random
  | .ETopBitSet => drawnBits bits random ||| 2 ^ (bits - 1)
  | .ETop2BitsSet => drawnBits bits random ||| 2 ^ (bits - 1) ||| 2 ^ (bits - 2)

/-- The least number with the top bits set. -/
def leastDrawn (bits : Nat) : TRandomAttribute → Nat
  | .EAllBitsRandom => 0
  | .ETopBitSet => 2 ^ (bits - 1)
  | .ETop2BitsSet => 2 ^ (bits - 1) + 2 ^ (bits - 2)

section

variable {bits : Nat} {aAttr : TRandomAttribute} {random : Nat → UInt8}

theorem drawn_lt (hbits : 2 ≤ bits) : drawn bits aAttr random < 2 ^ bits := by
  have hlt : drawnBits bits random < 2 ^ bits := mod_lt _ (Nat.two_pow_pos bits)
  have hone : 2 ^ (bits - 1) < 2 ^ bits := Nat.pow_lt_pow_right (by decide) (by omega)
  have htwo : 2 ^ (bits - 2) < 2 ^ bits := Nat.pow_lt_pow_right (by decide) (by omega)
  cases aAttr with
  | EAllBitsRandom => exact hlt
  | ETopBitSet => exact or_lt_two_pow hlt hone
  | ETop2BitsSet => exact or_lt_two_pow (or_lt_two_pow hlt hone) htwo

theorem leastDrawn_le (hbits : 2 ≤ bits) : leastDrawn bits aAttr ≤ drawn bits aAttr random := by
  cases aAttr with
  | EAllBitsRandom => exact Nat.zero_le _
  | ETopBitSet => exact right_le_or
  | ETop2BitsSet =>
      have hsum : leastDrawn bits .ETop2BitsSet = 2 ^ (bits - 1) ||| 2 ^ (bits - 2) := by
        have hsplit : 2 ^ (bits - 1) = 2 ^ (bits - 2) * 2 := by
          rw [← pow_succ]
          congr 1
          omega
        have hor := shiftLeft_add_eq_or_of_lt
          (show 2 ^ (bits - 2) < 2 ^ (bits - 1) by
            rw [hsplit]
            have hpos := Nat.two_pow_pos (bits - 2)
            omega) 1
        rw [shiftLeft_eq, Nat.one_mul] at hor
        exact hor
      rw [hsum]
      show _ ≤ drawnBits bits random ||| 2 ^ (bits - 1) ||| 2 ^ (bits - 2)
      rw [Nat.or_assoc]
      exact right_le_or

/-! ### What is drawn -/

/-- Masking the last octet leaves the first bits. -/
theorem maskLast_value {buf : Bytes} {k : Nat} (hne : buf ≠ []) :
    (maskLast buf k).length = buf.length ∧
      Der.value (maskLast buf k).reverse =
        Der.value buf.reverse % 2 ^ (8 * (buf.length - 1) + k) := by
  obtain ⟨low, top, rfl⟩ : ∃ low top, buf = low ++ [top] :=
    ⟨buf.dropLast, buf.getLast hne, (dropLast_append_getLast hne).symm⟩
  have hmask : maskLast (low ++ [top]) k =
      low ++ [UInt8.ofNat (top.toNat &&& (1 <<< k - 1))] := by
    unfold maskLast
    rw [length_append, length_singleton, Nat.add_sub_cancel]
    simp [modify_eq_take_cons_drop]
  have htop : (UInt8.ofNat (top.toNat &&& (1 <<< k - 1))).toNat = top.toNat % 2 ^ k := by
    have hlt : top.toNat % 2 ^ k < 2 ^ 8 :=
      (mod_le _ _).trans_lt top.toNat_lt
    rw [one_shiftLeft, and_two_pow_sub_one_eq_mod, UInt8.toNat_ofNat', mod_eq_of_lt hlt]
  have hlow := Der.value_lt low.reverse
  rw [hmask]
  refine ⟨by simp, ?_⟩
  rw [reverse_append, reverse_append, Der.value_append, Der.value_append,
    length_append, length_singleton, Nat.add_sub_cancel, length_reverse]
  rw [length_reverse] at hlow
  have hsingle : ∀ b : UInt8, Der.value [b].reverse = b.toNat := fun b => by
    simp [Der.value]
  have h256 : (256 : Nat) ^ low.length = 2 ^ (8 * low.length) := by
    rw [pow_mul]
    norm_num
  rw [hsingle, hsingle, htop, pow_add, ← h256, mod_mul, Nat.mul_comm top.toNat,
    mul_add_mod, mod_eq_of_lt hlow, mul_add_div (Nat.pow_pos (by decide)),
    div_eq_of_lt hlow, Nat.add_zero, Nat.mul_comm, Nat.add_comm]

namespace TInteger

variable {x : TInteger} {aBits : UInt32}

theorem BitsToBytes_eq (h : aBits.toNat + 31 < 2 ^ 32) :
    BitsToBytes aBits = (aBits.toNat + 7) / 8 := by
  have hsum : (aBits + 7).toNat = aBits.toNat + 7 := by
    rw [UInt32.toNat_add]
    show (aBits.toNat + 7) % 2 ^ 32 = _
    omega
  unfold BitsToBytes
  rw [UInt32.toNat_div, hsum]
  rfl

/-- Setting the top bits. -/
theorem setTopBits_spec (htwo : 2 ≤ aBits.toNat) (hsize : aBits.toNat ≤ 32 * x.size)
    (hx : x.isNegative = false) (hdrawn : x.magnitude = drawnBits aBits.toNat random) :
    (x.setTopBits aBits aAttr).isNegative = false ∧
      (x.setTopBits aBits aAttr).size = x.size ∧
      (x.setTopBits aBits aAttr).magnitude = drawn aBits.toNat aAttr random := by
  have hone : (aBits - 1).toNat = aBits.toNat - 1 :=
    UInt32.toNat_sub_of_le _ _ (UInt32.le_iff_toNat_le.mpr (by show 1 ≤ aBits.toNat; omega))
  have htwo' : (aBits - 2).toNat = aBits.toNat - 2 :=
    UInt32.toNat_sub_of_le _ _ (UInt32.le_iff_toNat_le.mpr htwo)
  have hfirst := magnitude_setBit (x := x) (n := aBits.toNat - 1) (by omega)
  have hsecond := magnitude_setBit (x := x.setBit (aBits.toNat - 1)) (n := aBits.toNat - 2)
    (by rw [size_setBit]; omega)
  unfold setTopBits
  rw [hone, htwo']
  cases aAttr with
  | EAllBitsRandom => exact ⟨hx, rfl, hdrawn⟩
  | ETopBitSet =>
      refine ⟨(isNegative_setBit _).trans hx, size_setBit _, ?_⟩
      exact hfirst.trans (by rw [hdrawn]; rfl)
  | ETop2BitsSet =>
      refine ⟨(isNegative_setBit _).trans ((isNegative_setBit _).trans hx),
        (size_setBit _).trans (size_setBit _), ?_⟩
      exact hsecond.trans (by rw [hfirst, hdrawn]; rfl)

/-- The octets above those that are written are zero, if the integer has no more bits. -/
theorem memory_above {n : Nat} (hroom : (n + 7) / 8 ≤ 4 * x.size) (hlt : x.magnitude < 2 ^ n) :
    Der.value ((memory x.words).drop ((n + 7) / 8)).reverse = 0 := by
  have hfits : (n + 7) / 8 ≤ (memory x.words).length := by
    rw [memory_length]
    exact hroom
  have hsplit := take_append_drop ((n + 7) / 8) (memory x.words)
  have happend := Der.value_append ((memory x.words).drop ((n + 7) / 8)).reverse
    ((memory x.words).take ((n + 7) / 8)).reverse
  rw [← reverse_append, hsplit, memory_value, length_reverse, length_take_of_le hfits] at happend
  have hpow : 2 ^ n ≤ 256 ^ ((n + 7) / 8) := by
    rw [show (256 : Nat) = 2 ^ 8 by norm_num, ← pow_mul]
    exact Nat.pow_le_pow_right (by decide) (by omega)
  have hmagnitude : value x.words < 256 ^ ((n + 7) / 8) := Nat.lt_of_lt_of_le hlt hpow
  by_contra hne
  have hle := Nat.le_mul_of_pos_left (256 ^ ((n + 7) / 8)) (Nat.pos_of_ne_zero hne)
  omega

theorem drawnOctets_spec {n : Nat} :
    (drawnOctets ((n + 7) / 8) (n % 8) random).length = (n + 7) / 8 ∧
      Der.value (drawnOctets ((n + 7) / 8) (n % 8) random).reverse = drawnBits n random := by
  have hlen : ((range ((n + 7) / 8)).map random).length = (n + 7) / 8 := by
    rw [length_map, length_range]
  unfold drawnOctets drawnBits
  simp only
  by_cases hpart : n % 8 ≠ 0
  · have hne : (range ((n + 7) / 8)).map random ≠ [] := by
      intro hnil
      rw [hnil, length_nil] at hlen
      omega
    obtain ⟨hmaskLen, hmaskValue⟩ := maskLast_value (k := n % 8) hne
    rw [hlen] at hmaskLen hmaskValue
    rw [if_pos hpart]
    refine ⟨hmaskLen, hmaskValue.trans ?_⟩
    congr 2
    omega
  · have hvalue := Der.value_lt ((range ((n + 7) / 8)).map random).reverse
    rw [length_reverse, hlen, show (256 : Nat) = 2 ^ 8 by norm_num, ← pow_mul,
      show 8 * ((n + 7) / 8) = n by omega] at hvalue
    rw [if_neg hpart]
    exact ⟨hlen, (mod_eq_of_lt hvalue).symm⟩

/-- **`RandomizeL`**, of an integer that has no more bits than are asked for. -/
theorem randomizeL_spec (htwo : 2 ≤ aBits.toNat) (hbits : aBits.toNat + 31 < 2 ^ 32)
    (hx : x.isNegative = false) (hsize : RoundupSize (BitsToWords aBits) ≤ x.size)
    (hlt : x.magnitude < 2 ^ aBits.toNat) :
    ∃ z, x.randomizeL aBits aAttr random = .ok z ∧ z.isNegative = false ∧ z.size = x.size ∧
      z.magnitude = drawn aBits.toNat aAttr random := by
  have hwords := BitsToWords_eq hbits
  have hround := (RoundupSize_least (BitsToWords aBits)).le
  have hroom : (aBits.toNat + 7) / 8 ≤ 4 * x.size := by omega
  have hgrown : x.cleanGrowL (BitsToWords aBits) = x := by
    unfold cleanGrowL
    rw [dif_neg (by omega)]
  have hne : aBits ≠ 0 := by
    rintro rfl
    exact absurd htwo (by decide)
  obtain ⟨hlen, hvalue⟩ := @drawnOctets_spec random aBits.toNat
  have hfilled : value (wordsFrom x.size (drawnOctets ((aBits.toNat + 7) / 8) (aBits.toNat % 8)
      random ++ (memory x.words).drop ((aBits.toNat + 7) / 8))) = drawnBits aBits.toNat random := by
    have hmemory := memory_length x.words
    have hsizes : x.words.length = x.size := rfl
    rw [wordsFrom_value (by rw [length_append, length_drop]; omega),
      reverse_append, Der.value_append, memory_above hroom hlt, Nat.zero_mul, Nat.zero_add, hvalue]
  have hw : (wordsFrom x.size (drawnOctets ((aBits.toNat + 7) / 8) (aBits.toNat % 8)
      random ++ (memory x.words).drop ((aBits.toNat + 7) / 8))).length = x.words.length :=
    wordsFrom_length ..
  have hcell : (x.withWords _ hw).size = x.size := hw
  have htop : aBits.toNat ≤ 32 * (x.withWords _ hw).size := by
    rw [hcell]
    omega
  obtain ⟨hsign, hzsize, hmagnitude⟩ := setTopBits_spec htwo htop hx hfilled
  have hsome : ¬(aBits.toNat % BYTE_BITS ≠ 0 ∧ (aBits.toNat + 7) / 8 = 0) := by
    rintro ⟨-, hnone⟩
    omega
  have hmost : ¬(aBits.toNat + 7) / 8 > WORD_SIZE * x.size := Nat.not_lt.mpr hroom
  refine ⟨(x.withWords _ hw).setTopBits aBits aAttr, ?_, hsign, hzsize.trans hcell, hmagnitude⟩
  unfold randomizeL
  rw [if_neg hne]
  simp only [hgrown, BitsToBytes_eq hbits]
  rw [if_neg hmost, if_neg hsome]
  rfl

end TInteger

end

end OsSecurity

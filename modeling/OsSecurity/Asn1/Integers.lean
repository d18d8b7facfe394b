/-
INTEGER: `asn1/bigintenc.cpp`, `asn1/intenc.cpp` and `asn1/integerdec.cpp`.

An integer is written from a `TInteger` or from a `TInt`, and read back as a `TInt` when it
has at most four octets or as an `RInteger` of any size.  A `TInteger` is exported without a
sign, so its encoder puts a zero octet in front when the first bit is set; it exports zero as
no octets at all, and that is how zero is encoded.  Read as an `RInteger` the octets are taken
without a sign as well, whatever the first bit is.
-/
import OsSecurity.Asn1.EncodedHeader
import OsSecurity.Bigint.Octets

namespace OsSecurity

open CASN1EncLeaf Der List Nat TInteger UInt32

namespace CASN1EncBigInt

/-- The number of octets that are skipped: zeros before an octet whose first bit is not set. -/
def unnecessary : Bytes → Nat
  | b :: c :: bs => if b = 0 ∧ c &&& 0x80 = 0 then unnecessary (c :: bs) + 1 else 0
  | _ => 0

/-- `ConstructL`, which leaves `iWriteContents`. -/
def constructL (aInteger : TInteger) : Leaving Bytes := do
  let iContents ← aInteger.bufferLC
  let first := unnecessary iContents
  let iContents :=
    if iContents.length ≠ 0 ∧ iContents.getD first 0 &&& 0x80 ≠ 0 then 0 :: iContents
    else iContents
  TDes.mid iContents first (iContents.length - first)

end CASN1EncBigInt

namespace TASN1DecInteger

def decodeDERLongL (aSource : TASN1DecGeneric) : Leaving TInteger := do
  return TInteger.newDesL (← aSource.getContentDER)

end TASN1DecInteger

/-! ### Two's complement -/

/-- The integer that octets stand for in two's complement. -/
def signedValue (bs : Bytes) : Int :=
  if bs.headD 0 < 0x80 then Der.value bs else Der.value bs - 256 ^ bs.length

/-- Two's complement in as few octets as there can be: the first nine bits are not all the same. -/
def MinimalOctets : Bytes → Prop
  | b :: c :: _ => ¬ (b = 0 ∧ c < 0x80) ∧ ¬ (b = 0xff ∧ 0x80 ≤ c)
  | bs => bs ≠ []

/-- What is written for `n`. -/
def signedOctets (n : Nat) : Bytes :=
  if (Der.octets n).headD 0 < 0x80 then Der.octets n else 0 :: Der.octets n

theorem signedOctets_cons {n : Nat} {b : UInt8} {bs : Bytes} (h : Der.octets n = b :: bs) :
    signedOctets n = if b < 0x80 then b :: bs else 0 :: b :: bs := by
  unfold signedOctets
  rw [h]
  rfl

theorem octets_cons {n : Nat} (hn : 0 < n) : ∃ b bs, Der.octets n = b :: bs ∧ b ≠ 0 := by
  cases h : Der.octets n with
  | nil =>
      have hpos := octets_length_pos hn
      rw [h] at hpos
      exact absurd hpos (by simp)
  | cons b bs =>
      refine ⟨b, bs, rfl, ?_⟩
      rintro rfl
      have hvalue := value_octets n
      rw [h, Der.value_cons] at hvalue
      have hlt := Der.value_lt bs
      have hle := octets_length_le (n := n) (k := bs.length) (by simp at hvalue; omega)
      rw [h, length_cons] at hle
      omega

theorem and_top (b : UInt8) : b &&& 0x80 = 0 ↔ b < 0x80 := by
  obtain ⟨v⟩ := b
  revert v
  decide

theorem mid_zero (bs : Bytes) :
    TDes.mid bs ((0 : Nat) : Int) (bs.length - ((0 : Nat) : Int)) = .ok bs := by
  unfold TDes.mid
  rw [if_neg (by omega)]
  simp

/-! ### What is written -/

theorem constructL_eq {self : TInteger} (h : self.isNegative = false) (hn : 0 < self.magnitude) :
    CASN1EncBigInt.constructL self = .ok (signedOctets self.magnitude) := by
  obtain ⟨b, bs, hoctets, hb⟩ := octets_cons hn
  have hfirst : CASN1EncBigInt.unnecessary (b :: bs) = 0 := by
    cases bs with
    | nil => rfl
    | cons c bs => exact if_neg fun hzero => hb hzero.1
  unfold CASN1EncBigInt.constructL
  rw [bufferLC_eq h, ok_bind, hoctets, signedOctets_cons hoctets]
  simp only [hfirst, getD_cons_zero, ne_eq, and_top]
  by_cases htop : b < 0x80
  · rw [if_neg fun hset => hset.2 htop, if_pos htop]
    exact mid_zero _
  · rw [if_pos ⟨succ_ne_zero _, htop⟩, if_neg htop]
    exact mid_zero _

/-- The integer of octets whose first bit is not set is their number. -/
theorem signedValue_positive {bs : Bytes} (h : bs.headD 0 < 0x80) : signedValue bs = Der.value bs :=
  if_pos h

theorem signedOctets_spec {n : Nat} (hn : 0 < n) :
    MinimalOctets (signedOctets n) ∧ (signedOctets n).headD 0 < 0x80 ∧
      Der.value (signedOctets n) = n := by
  obtain ⟨b, bs, hoctets, hb⟩ := octets_cons hn
  have hvalue := value_octets n
  rw [hoctets] at hvalue
  rw [signedOctets_cons hoctets]
  by_cases htop : b < 0x80
  · rw [if_pos htop]
    refine ⟨?_, htop, hvalue⟩
    cases bs with
    | nil => exact cons_ne_nil _ _
    | cons c bs =>
      refine ⟨fun hzero => hb hzero.1, ?_⟩
      intro hones
      rw [hones.1] at htop
      exact absurd htop (by decide)
  · rw [if_neg htop]
    refine ⟨⟨fun hzero => htop hzero.2, fun hones => absurd hones.1 (by decide)⟩,
      UInt8.pos_iff_ne_zero.mpr (by decide), ?_⟩
    rw [Der.value_cons, hvalue]
    exact (congrArg (· + n) (Nat.zero_mul _)).trans (Nat.zero_add n)

/-- `CASN1EncInt` counts the octets of a number, and keeps the first of them. -/
theorem lastOctet_spec {turns n : Nat} (hpos : 0 < n) (hlt : n < 256 ^ (turns + 1)) :
    (lastOctet turns n).1 = n / 256 ^ (lastOctet turns n).2 ∧
      256 ^ (lastOctet turns n).2 ≤ n ∧
        n < 256 ^ ((lastOctet turns n).2 + 1) := by
  induction turns generalizing n with
  | zero => exact ⟨(Nat.div_one n).symm, hpos, hlt⟩
  | succ turns ih =>
      have hdiv : n >>> 8 = n / 256 := shiftRight_eq_div_pow n 8
      unfold lastOctet
      rw [hdiv]
      by_cases hzero : n / 256 = 0
      · rw [if_pos hzero]
        have hsmall : n < 256 ^ 1 := by omega
        exact ⟨(Nat.div_one n).symm, hpos, hsmall⟩
      · rw [if_neg hzero]
        have hturns : n / 256 < 256 ^ (turns + 1) := by
          rw [pow_succ'] at hlt
          exact Nat.div_lt_of_lt_mul hlt
        obtain ⟨hfirst, hge, hle⟩ := ih (Nat.pos_of_ne_zero hzero) hturns
        refine ⟨?_, ?_, ?_⟩
        · rw [hfirst, Nat.div_div_eq_div_mul, ← pow_succ']
        · rw [pow_succ]
          exact (Nat.le_div_iff_mul_le (by decide)).mp hge
        · rw [pow_succ]
          exact (Nat.div_lt_iff_lt_mul (by decide)).mp hle

theorem octets_length {n k : Nat} (hge : 256 ^ k ≤ n) (hlt : n < 256 ^ (k + 1)) :
    (Der.octets n).length = k + 1 := by
  have hle := octets_length_le hlt
  have hup := Der.value_lt (Der.octets n)
  rw [value_octets] at hup
  have := (Nat.pow_lt_pow_iff_right (by decide)).mp (Nat.lt_of_le_of_lt hge hup)
  omega

/-- What `CASN1EncInt` writes. -/
theorem writeContentsDERL_int {n : Nat} (hn : 0 < n) (hmax : (n : Int) ≤ KMaxTInt) :
    (int (ofNat n)).writeContentsDERL = signedOctets n := by
  unfold KMaxTInt at hmax
  have hword : (ofNat n).toNat = n := by
    rw [toNat_ofNat']
    omega
  have hpositive : ofNat n < 0x80000000 := by
    rw [lt_iff_toNat_lt, hword]
    show n < 2147483648
    omega
  obtain ⟨hfirst, hge, hlt⟩ := @lastOctet_spec 4 n hn (by omega)
  obtain ⟨b, bs, hoctets, hb⟩ := octets_cons hn
  have hlength := octets_length hge hlt
  have hvalue := value_octets n
  have hbs := Der.value_lt bs
  have hcount : intLength (ofNat n) = (signedOctets n).length := by
    rw [signedOctets_cons hoctets]
    rw [hoctets] at hlength hvalue
    rw [Der.value_cons] at hvalue
    rw [length_cons, Nat.add_right_cancel_iff] at hlength
    have hlast : (lastOctet 4 n).1 = b.toNat := by
      rw [hfirst, ← hlength, ← hvalue, Nat.mul_comm, mul_add_div (Nat.pow_pos (by decide)),
        div_eq_of_lt hbs, Nat.add_zero]
    have htop : b.toNat &&& 0x80 = 0 ↔ b < 0x80 := by
      rw [← and_top, ← UInt8.toNat_inj, UInt8.toNat_and]
      rfl
    unfold intLength
    rw [if_pos hpositive]
    simp only [hword, hlast, ← hlength, ne_eq, htop]
    by_cases hlow : b < 0x80
    · rw [if_pos hlow, if_neg (not_not_intro hlow), length_cons]
      omega
    · rw [if_neg hlow, if_pos hlow, length_cons, length_cons]
      omega
  show base256 (intLength (ofNat n)) (ofNat n).toNat = _
  have hsigned := (signedOctets_spec hn).2.2
  have hwritten := Der.value_lt (signedOctets n)
  rw [hsigned] at hwritten
  rw [hcount, hword, ← fixed_value (signedOctets n), hsigned]
  have hbase := fixed_value (base256 (signedOctets n).length n)
  rw [base256_length, value_base256 hwritten] at hbase
  rw [fixed_length]
  exact hbase.symm

/-! ### What is read -/

variable {contents : Bytes} {g : TASN1DecGeneric}

theorem decodeDERLongL_eq (hg : g.getContentDER = .ok contents) :
    TASN1DecInteger.decodeDERLongL g = .ok (newDesL contents) := by
  unfold TASN1DecInteger.decodeDERLongL
  rw [hg]
  rfl

theorem toInt_newDesL (bs : Bytes) : (newDesL bs).toInt = Der.value bs := by
  rw [toInt_of_positive (isNegative_newDesL bs), magnitude_newDesL]

theorem foldl_wrap (x : Int) (bs : Bytes) :
    bs.foldl (fun res c => TInt.wrap (res * 256 + c.toNat)) (TInt.wrap x) =
      TInt.wrap (x * 256 ^ bs.length + Der.value bs) := by
  induction bs generalizing x with
  | nil => simp [Der.value]
  | cons b bs ih =>
      have hstep : TInt.wrap (TInt.wrap x * 256 + b.toNat) = TInt.wrap (x * 256 + b.toNat) := by
        unfold TInt.wrap
        rw [← Int.bmod_add_bmod, Int.bmod_mul_bmod, Int.bmod_add_bmod]
      rw [foldl_cons, hstep, ih, Der.value_cons, length_cons, pow_succ]
      push_cast
      ring_nf

/-- Up to four octets are a `TInt` in two's complement. -/
theorem signedValue_range (hne : contents ≠ []) (hle : contents.length ≤ 4) :
    KMinTInt ≤ signedValue contents ∧ signedValue contents ≤ KMaxTInt := by
  cases contents with
  | nil => exact absurd rfl hne
  | cons b bs =>
      have hvalue := Der.value_cons b bs
      have hbs := Der.value_lt bs
      have hb := b.toNat_lt
      have hpow : 256 ^ bs.length ≤ 256 ^ 3 :=
        Nat.pow_le_pow_right (by decide) (le_of_succ_le_succ hle)
      have hcast : (256 : Int) ^ bs.length = ((256 ^ bs.length : Nat) : Int) := by
        push_cast
        rfl
      unfold signedValue KMinTInt KMaxTInt
      rw [headD_cons, length_cons, pow_succ, hcast]
      by_cases htop : b < 0x80
      · have hsmall : b.toNat ≤ 127 := le_of_lt_succ (UInt8.lt_iff_toNat_lt.mp htop)
        have hup := Nat.mul_le_mul_right (256 ^ bs.length) hsmall
        rw [if_pos htop]
        omega
      · have hlarge : 128 ≤ b.toNat :=
          Nat.le_of_not_lt fun h => htop (UInt8.lt_iff_toNat_lt.mpr h)
        have hlo := Nat.mul_le_mul_right (256 ^ bs.length) hlarge
        have hup := Nat.mul_le_mul_right (256 ^ bs.length) (le_of_lt_succ hb)
        rw [if_neg htop]
        omega

/-- **`DecodeDERShortL` reads two's complement**, of up to four octets. -/
theorem decodeDERShortL_eq (hg : g.getContentDER = .ok contents) :
    TASN1DecInteger.decodeDERShortL g =
      if contents = [] then leave KErrArgument
      else if 4 < contents.length then leave KErrTooBig
      else .ok (signedValue contents) := by
  unfold TASN1DecInteger.decodeDERShortL
  rw [hg, ok_bind]
  cases contents with
  | nil => rfl
  | cons b bs =>
      rw [if_neg (cons_ne_nil _ _)]
      by_cases hbig : 4 < (b :: bs).length
      · rw [if_pos hbig]
        simp only [hbig, if_true]
      · rw [if_neg hbig]
        have hrange := signedValue_range (cons_ne_nil b bs) (by omega)
        rw [← TInt.wrap_of_range hrange.1 hrange.2]
        simp only [hbig, if_false, signedValue, headD_cons, ne_eq, ite_not, ← and_top]
        by_cases htop : b &&& 0x80 = 0
        · have hfold := foldl_wrap 0 (b :: bs)
          rw [Int.zero_mul, Int.zero_add] at hfold
          rw [if_pos htop, if_pos htop, ← hfold]
          rfl
        · have hfold := foldl_wrap (-1) (b :: bs)
          rw [Int.add_comm, Int.neg_one_mul, ← Int.sub_eq_add_neg] at hfold
          rw [if_neg htop, if_neg htop, ← hfold]
          rfl

/-! ### Round trips -/

/-- What is asked of the encoding of an integer that is not negative. -/
structure IntegerRoundTrips (aInteger : TInteger) (contents : Bytes) : Prop where
  written : CASN1EncBigInt.constructL aInteger = .ok contents
  minimal : MinimalOctets contents
  denotes : signedValue contents = aInteger.toInt
  agrees : aInteger.toInt ≤ KMaxTInt →
    contents = (CASN1EncLeaf.int (ofNat aInteger.magnitude)).writeContentsDERL
  /-- behind its tag and its length the element has the contents again -/
  read : ∀ (d : CASN1EncData) (rest : Bytes),
    d = .construct EASN1Integer .EUniversal contents.length →
    ((d.writeTagDERL false ++ d.writeLengthDER ++ contents ++ rest).length : Int) ≤ KMaxTInt →
    ∃ g, TASN1DecGeneric.initL (d.writeTagDERL false ++ d.writeLengthDER ++ contents ++ rest) =
      .ok g ∧ g.getContentDER = .ok contents
  long : ∀ g : TASN1DecGeneric, g.getContentDER = .ok contents →
    ∃ res, TASN1DecInteger.decodeDERLongL g = .ok res ∧ res.toInt = aInteger.toInt
  short : aInteger.toInt ≤ KMaxTInt → ∀ g : TASN1DecGeneric, g.getContentDER = .ok contents →
    TASN1DecInteger.decodeDERShortL g = .ok aInteger.toInt

/-- The two decoders, where they both accept, give the same integer. -/
def DecodersAgree (contents : Bytes) : Prop :=
  ∀ (g : TASN1DecGeneric) (short : Int) (long : TInteger), g.getContentDER = .ok contents →
    TASN1DecInteger.decodeDERShortL g = .ok short →
    TASN1DecInteger.decodeDERLongL g = .ok long → short = long.toInt

theorem signedOctets_length {n : Nat} (hn : 0 < n) (hmax : (n : Int) ≤ KMaxTInt) :
    (signedOctets n).length ≤ 4 := by
  unfold KMaxTInt at hmax
  obtain ⟨b, bs, hoctets, hb⟩ := octets_cons hn
  have hle := @octets_length_le n 4 (by omega)
  have hvalue := value_octets n
  rw [hoctets] at hle hvalue
  rw [Der.value_cons] at hvalue
  rw [signedOctets_cons hoctets]
  by_cases htop : b < 0x80
  · rw [if_pos htop]
    exact hle
  · have hlarge : 128 ≤ b.toNat := Nat.le_of_not_lt fun h => htop (UInt8.lt_iff_toNat_lt.mpr h)
    have hmul := Nat.mul_le_mul_right (256 ^ bs.length) hlarge
    have hpow : 256 ^ bs.length < 256 ^ 3 := by omega
    have hshort := (Nat.pow_lt_pow_iff_right (by decide)).mp hpow
    rw [if_neg htop, length_cons, length_cons]
    omega

theorem roundTrips_positive {self : TInteger} (h : self.isNegative = false)
    (hn : 0 < self.magnitude) : IntegerRoundTrips self (signedOctets self.magnitude) := by
  obtain ⟨hminimal, htop, hvalue⟩ := signedOctets_spec hn
  have hint := toInt_of_positive h
  have hsigned := signedValue_positive htop
  rw [hvalue, ← hint] at hsigned
  refine ⟨constructL_eq h hn, hminimal, hsigned, ?_, ?_, ?_, ?_⟩
  · intro hmax
    exact (writeContentsDERL_int hn (hint ▸ hmax)).symm
  · intro d rest hd hmax
    subst hd
    obtain ⟨g, hg, -⟩ := CASN1EncData.holds ⟨rfl, rfl⟩ false rest rfl hmax
    exact ⟨g, hg.init, hg.content⟩
  · intro g hg
    exact ⟨_, decodeDERLongL_eq hg, by rw [toInt_newDesL, hvalue, hint]⟩
  · intro hmax g hg
    have hlength := signedOctets_length hn (hint ▸ hmax)
    have hne : signedOctets self.magnitude ≠ [] := by
      intro hnil
      rw [hnil] at hminimal
      exact hminimal rfl
    rw [decodeDERShortL_eq hg, if_neg hne, if_neg (Nat.not_lt.mpr hlength), hsigned]

/-- Zero is written as no octets. -/
theorem not_roundTrips_zero {self : TInteger} (h : self.isNegative = false)
    (hzero : self.magnitude = 0) (contents : Bytes) : ¬ IntegerRoundTrips self contents := by
  intro hround
  have hwritten := hround.written
  unfold CASN1EncBigInt.constructL at hwritten
  rw [bufferLC_eq h, hzero, octets_zero] at hwritten
  have hnil : [] = contents := Except.ok.inj hwritten
  rw [← hnil] at hround
  exact hround.minimal rfl

theorem decodersAgree_iff : DecodersAgree contents ↔
    contents = [] ∨ 4 < contents.length ∨ contents.headD 0 < 0x80 := by
  constructor
  · intro hagree
    by_contra hno
    simp only [not_or] at hno
    obtain ⟨hne, hlength, htop⟩ := hno
    have hg : (⟨contents, 0, contents.length, EASN1Integer, .EUniversal⟩ :
        TASN1DecGeneric).getContentDER = .ok contents := by
      have hmid := mid_zero contents
      rw [Int.natCast_zero, Int.sub_zero] at hmid
      exact hmid
    have hshort := decodeDERShortL_eq hg
    rw [if_neg hne, if_neg hlength] at hshort
    have hsame := hagree _ _ _ hg hshort (decodeDERLongL_eq hg)
    rw [toInt_newDesL, signedValue, if_neg htop] at hsame
    have hpos : (0 : Int) < 256 ^ contents.length := Int.pow_pos (by decide)
    omega
  · intro hcond g short long hg hshort hlong
    rw [decodeDERShortL_eq hg] at hshort
    rw [decodeDERLongL_eq hg] at hlong
    obtain rfl := Except.ok.inj hlong
    by_cases hne : contents = []
    · rw [if_pos hne] at hshort
      exact absurd hshort (leave_ne_ok _ _)
    · rw [if_neg hne] at hshort
      by_cases hlength : 4 < contents.length
      · rw [if_pos hlength] at hshort
        exact absurd hshort (leave_ne_ok _ _)
      · rw [if_neg hlength] at hshort
        have htop := (hcond.resolve_left hne).resolve_left hlength
        rw [← Except.ok.inj hshort, toInt_newDesL, signedValue_positive htop]

/-- **An integer that is not negative makes its round trip exactly when it is not zero, and the
decoders agree exactly where the first bit is not set** or one of them leaves. -/
theorem integer_roundTrips_iff (aInteger : TInteger) (contents : Bytes) :
    (aInteger.isNegative = false →
      ((∃ contents, IntegerRoundTrips aInteger contents) ↔ aInteger.toInt ≠ 0)) ∧
      (DecodersAgree contents ↔
        contents = [] ∨ 4 < contents.length ∨ contents.headD 0 < 0x80) := by
  refine ⟨?_, decodersAgree_iff⟩
  intro h
  have hint := TInteger.toInt_of_positive h
  constructor
  · rintro ⟨contents, hround⟩ hzero
    exact not_roundTrips_zero h (by omega) contents hround
  · intro hne
    exact ⟨_, roundTrips_positive h (by omega)⟩

theorem integer_roundTrips_iff_one :
    (∃ contents, IntegerRoundTrips (TInteger.newDesL [1]) contents) ↔
      (TInteger.newDesL [1]).toInt ≠ 0 :=
  (integer_roundTrips_iff (TInteger.newDesL [1]) []).1 rfl

/-- Zero, and the octet of -128. -/
theorem not_integer_roundTrips :
    (TInteger.newDesL []).toInt = 0 ∧
      (¬ ∃ contents, IntegerRoundTrips (TInteger.newDesL []) contents) ∧
      ¬ DecodersAgree [0x80] := by
  have hzero := TInteger.magnitude_newDesL []
  refine ⟨toInt_newDesL [], ?_, ?_⟩
  · rintro ⟨contents, hround⟩
    exact not_roundTrips_zero rfl hzero contents hround
  · rw [decodersAgree_iff]
    decide

end OsSecurity

/-
The padding schemes from both sides: `padding/padding.cpp` and `padding/pkcs7.cpp`.

What `PadL` makes of every input is said first for `CPaddingPKCS7`, whose `UnPadL` looks at
every octet that it takes away.  A last octet of 0 counts no padding at all, and is accepted;
and the octets are compared when the output has been written.  `unPad` keeps what is in the
output when the function leaves.

`CPaddingPKCS1Signature` is the type 1 block, and the last part puts the five schemes side by
side.
-/
import OsSecurity.Bigint.Octets
import OsSecurity.Crypto.Pkcs1Encryption

namespace OsSecurity

open List

/-! ### PKCS #7 -/

namespace CPaddingPKCS7

/-- `UnPadL`, with what is in `aOutput` afterwards however it ends. -/
def unPad (aInput : Bytes) (aOutput : TDes8) : TDes8 × Leaving Unit :=
  match TDes.at' aInput (aInput.length - 1) with
  | .error e => (aOutput, .error e)
  | .ok last =>
    let paddingLen := last.toNat
    if paddingLen > aInput.length then (aOutput, leave KErrInvalidPadding)
    else
      let outlen := aInput.length - paddingLen
      match aOutput.append (aInput.take outlen) with
      | .error e => (aOutput, .error e)
      | .ok aOutput =>
        (aOutput, if ∃ b ∈ aInput.drop outlen, b.toNat ≠ paddingLen then leave KErrInvalidPadding
          else .ok ())

/-- It is the function of `CPadding`. -/
theorem unPad_eq (aInput : Bytes) (aOutput : TDes8) :
    CPadding.PKCS7.unPadL aInput aOutput =
      (unPad aInput aOutput).2.map fun _ => (unPad aInput aOutput).1 := by
  unfold unPad CPadding.unPadL CPadding.unPadCountedL
  cases TDes.at' aInput (aInput.length - 1) with
  | error e => rfl
  | ok last =>
      simp only [ok_bind, CPadding.paddingLen]
      by_cases hlong : last.toNat > aInput.length
      · rw [if_pos hlong, if_pos hlong]
        rfl
      · rw [if_neg hlong, if_neg hlong]
        cases aOutput.append (aInput.take (aInput.length - last.toNat)) with
        | error e => rfl
        | ok out =>
          simp only [ok_bind, true_and]
          by_cases hwrong : ∃ b ∈ aInput.drop (aInput.length - last.toNat), b.toNat ≠ last.toNat
          · rw [if_pos hwrong, if_pos hwrong]
            rfl
          · rw [if_neg hwrong, if_neg hwrong]
            rfl

/-- A block that `PadL` makes of less than a block. -/
def PaddedFrom (iBlockBytes : Nat) (data aInput : Bytes) : Prop :=
  data.length < iBlockBytes ∧
    CPadding.PKCS7.padL iBlockBytes data ⟨[], iBlockBytes⟩ = .ok ⟨aInput, iBlockBytes⟩

/-- Padded blocks are taken apart, and on all others the output is left alone. -/
def UnPadsImage (iBlockBytes : Nat) (aInput : Bytes) (aOutput : TDes8) : Prop :=
  (∀ data, PaddedFrom iBlockBytes data aInput →
    unPad aInput aOutput = (⟨aOutput.data ++ data, aOutput.maxLength⟩, .ok ())) ∧
  ((¬ ∃ data, PaddedFrom iBlockBytes data aInput) →
    ∃ e, unPad aInput aOutput = (aOutput, leave e))

variable {iBlockBytes : Nat} {data aInput : Bytes} {aOutput : TDes8} {last : UInt8}

theorem padL_eq (hdata : data.length < iBlockBytes) :
    CPadding.PKCS7.padL iBlockBytes data ⟨[], iBlockBytes⟩ =
      .ok ⟨data ++ replicate (iBlockBytes - data.length)
        (iBlockBytes - data.length).toUInt8, iBlockBytes⟩ := by
  have hmod := Nat.mod_eq_of_lt hdata
  have hmin : ¬ ((data.length : Int) > iBlockBytes - (CPadding.PKCS7.minPaddingLength : Nat) ∧
      data.length ≠ iBlockBytes) := by
    show ¬ ((data.length : Int) > iBlockBytes - (1 : Nat) ∧ _)
    omega
  have hroom : ¬ iBlockBytes < CPadding.PKCS7.maxPaddedLength iBlockBytes data.length := by
    show ¬ iBlockBytes < iBlockBytes - data.length % iBlockBytes + data.length
    omega
  unfold CPadding.padL
  rw [if_neg hmin, if_neg hroom, CPadding.doPadL, TDes8.append_ok (by simp [TDes8.length]; omega),
    ok_bind, CPadding.padding_eq (by decide), hmod,
    TDes8.append_ok (by simp [TDes8.length]; omega)]
  rfl

/-- What is padding: its octets all say how many they are. -/
theorem paddedFrom_iff (hmax : iBlockBytes < 256) (hlength : aInput.length = iBlockBytes)
    (hlast : aInput.getLast? = some last) :
    PaddedFrom iBlockBytes data aInput ↔ 0 < last.toNat ∧ last.toNat ≤ iBlockBytes ∧
      (∀ b ∈ aInput.drop (iBlockBytes - last.toNat), b.toNat = last.toNat) ∧
        data = aInput.take (iBlockBytes - last.toNat) := by
  constructor
  · intro ⟨hdata, hpad⟩
    rw [padL_eq hdata] at hpad
    obtain ⟨rfl, -⟩ := TDes8.mk.inj (Except.ok.inj hpad)
    have hpos : iBlockBytes - data.length ≠ 0 := by omega
    have hoctet : (iBlockBytes - data.length).toUInt8.toNat = iBlockBytes - data.length := by
      simp
      omega
    have hsame : (iBlockBytes - data.length).toUInt8 = last := by
      rw [getLast?_append_of_ne_nil _ (by simpa using hpos), getLast?_replicate,
        if_neg hpos] at hlast
      exact Option.some.inj hlast
    have hkept : iBlockBytes - (iBlockBytes - data.length) = data.length := by omega
    rw [← hsame, hoctet, hkept, drop_left, take_left]
    refine ⟨by omega, by omega, ?_, rfl⟩
    intro b hb
    rw [(mem_replicate.mp hb).2, hoctet]
  · intro ⟨hpos, hle, hall, hdata⟩
    have hlong : data.length = iBlockBytes - last.toNat := by
      rw [hdata, length_take, hlength]
      omega
    have hshort : data.length < iBlockBytes := by omega
    refine ⟨hshort, ?_⟩
    rw [padL_eq hshort, hlong]
    have hcount : iBlockBytes - (iBlockBytes - last.toNat) = last.toNat := by omega
    have hfilled : aInput.drop (iBlockBytes - last.toNat) = replicate last.toNat last := by
      refine eq_replicate_iff.mpr ⟨?_, fun b hb => UInt8.toNat_inj.mp (hall b hb)⟩
      rw [length_drop, hlength, hcount]
    have hoctet : last.toNat.toUInt8 = last := UInt8.toNat_inj.mp (by simp)
    rw [hcount, hoctet, ← hfilled, hdata, take_append_drop]

/-- What `UnPadL` does with a block, by its last octet. -/
theorem unPad_block (hpos : 0 < iBlockBytes) (hlength : aInput.length = iBlockBytes)
    (hlast : aInput.getLast? = some last) : unPad aInput aOutput =
      if last.toNat > iBlockBytes then (aOutput, leave KErrInvalidPadding)
      else match aOutput.append (aInput.take (iBlockBytes - last.toNat)) with
        | .error e => (aOutput, .error e)
        | .ok aOutput =>
          (aOutput, if ∃ b ∈ aInput.drop (iBlockBytes - last.toNat), b.toNat ≠ last.toNat then
            leave KErrInvalidPadding else .ok ()) := by
  have hat : TDes.at' aInput (aInput.length - 1) = .ok last := by
    have hindex : ((aInput.length : Int) - 1).toNat = aInput.length - 1 := by omega
    unfold TDes.at'
    rw [if_neg (by omega), hindex, ← getLast?_eq_getElem?, hlast]
  unfold unPad
  rw [hat, hlength]

/-- Octets that all say how many they are come off. -/
theorem unPad_filled (hpos : 0 < iBlockBytes) (hlength : aInput.length = iBlockBytes)
    (hlast : aInput.getLast? = some last) (hle : last.toNat ≤ iBlockBytes)
    (hroom : aOutput.length + (iBlockBytes - last.toNat) ≤ aOutput.maxLength) :
    unPad aInput aOutput =
      (⟨aOutput.data ++ aInput.take (iBlockBytes - last.toNat), aOutput.maxLength⟩,
        if ∃ b ∈ aInput.drop (iBlockBytes - last.toNat), b.toNat ≠ last.toNat then
          leave KErrInvalidPadding else .ok ()) := by
  have happend := @TDes8.append_ok aOutput (aInput.take (iBlockBytes - last.toNat))
    (by rw [length_take]; omega)
  rw [unPad_block hpos hlength hlast, if_neg (by omega), happend]

/-- Exactly the padded blocks are accepted, unless the last octet is 0 or fewer octets than the
block has are compared and found wrong. -/
theorem unPadsImage_iff (hpos : 0 < iBlockBytes) (hmax : iBlockBytes < 256)
    (hlength : aInput.length = iBlockBytes) (hlast : aInput.getLast? = some last)
    (hroom : aOutput.length + iBlockBytes ≤ aOutput.maxLength + 1) :
    UnPadsImage iBlockBytes aInput aOutput ↔ last ≠ 0 ∧ (iBlockBytes ≤ last.toNat ∨
      ∀ b ∈ aInput.drop (iBlockBytes - last.toNat), b = last) := by
  have hfrom := fun data => @paddedFrom_iff iBlockBytes data aInput last hmax hlength hlast
  have hzero : last ≠ 0 ↔ 0 < last.toNat := by
    rw [Nat.pos_iff_ne_zero, ne_eq, ne_eq, ← UInt8.toNat_inj]
    rfl
  have hsame : (∀ b ∈ aInput.drop (iBlockBytes - last.toNat), b = last) ↔
      ∀ b ∈ aInput.drop (iBlockBytes - last.toNat), b.toNat = last.toNat := by
    simp only [UInt8.toNat_inj]
  rw [hzero, hsame]
  unfold UnPadsImage
  by_cases hlong : iBlockBytes < last.toNat
  · have hnone : ∀ data, ¬ PaddedFrom iBlockBytes data aInput := by
      intro data h
      have := ((hfrom data).mp h).2.1
      omega
    have hleaves : unPad aInput aOutput = (aOutput, leave KErrInvalidPadding) := by
      rw [unPad_block hpos hlength hlast, if_pos hlong]
    exact iff_of_true ⟨fun data h => absurd h (hnone data), fun _ => ⟨_, hleaves⟩⟩
      ⟨by omega, Or.inl (by omega)⟩
  by_cases hnone : last.toNat = 0
  · have himage : ¬ ∃ data, PaddedFrom iBlockBytes data aInput := by
      rintro ⟨data, h⟩
      have := ((hfrom data).mp h).1
      omega
    refine iff_of_false ?_ (by omega)
    rintro ⟨-, hother⟩
    obtain ⟨e, hleaves⟩ := hother himage
    have hwhole := congrArg Prod.snd hleaves
    rw [unPad_block hpos hlength hlast, if_neg hlong, hnone, Nat.sub_zero, ← hlength,
      drop_length] at hwhole
    by_cases hfull : aOutput.maxLength < aOutput.length + (aInput.take aInput.length).length
    · rw [TDes8.append, if_pos hfull] at hwhole
      cases hwhole
    · rw [TDes8.append, if_neg hfull] at hwhole
      simp [leave] at hwhole
  · have hkept := @unPad_filled _ _ aOutput _ hpos hlength hlast (by omega) (by omega)
    rw [hkept]
    by_cases hall : ∀ b ∈ aInput.drop (iBlockBytes - last.toNat), b.toNat = last.toNat
    · have hright : ¬ ∃ b ∈ aInput.drop (iBlockBytes - last.toNat), b.toNat ≠ last.toNat := by
        rintro ⟨b, hb, hne⟩
        exact hne (hall b hb)
      rw [if_neg hright]
      refine iff_of_true ⟨?_, ?_⟩ ⟨by omega, Or.inr hall⟩
      · intro data h
        rw [((hfrom data).mp h).2.2.2]
      · intro himage
        exact absurd ⟨_, (hfrom _).mpr ⟨by omega, by omega, hall, rfl⟩⟩ himage
    · have hwrong : ∃ b ∈ aInput.drop (iBlockBytes - last.toNat), b.toNat ≠ last.toNat := by
        push Not at hall
        exact hall
      have hnoimage : ∀ data, ¬ PaddedFrom iBlockBytes data aInput := by
        intro data h
        exact hall ((hfrom data).mp h).2.2.1
      rw [if_pos hwrong]
      constructor
      · rintro ⟨-, hother⟩
        obtain ⟨e, hleaves⟩ := hother (not_exists.mpr hnoimage)
        have hdata := congrArg (fun out => out.1.data.length) hleaves
        simp only [length_append, length_take, hlength] at hdata
        exact ⟨by omega, Or.inl (by omega)⟩
      · rintro ⟨-, hcases⟩
        have hle := hcases.resolve_right hall
        have hkeep : iBlockBytes - last.toNat = 0 := by omega
        refine ⟨fun data h => absurd h (hnoimage data), fun _ => ⟨KErrInvalidPadding, ?_⟩⟩
        rw [hkeep, take_zero, append_nil]

/-- The block of seven octets and one of padding, and one with padding of 3 that is not 3. -/
theorem unPadsImage_iff_blocks :
    UnPadsImage 8 [1, 2, 3, 4, 5, 6, 7, 1] ⟨[], 8⟩ ∧
      ¬ UnPadsImage 8 [1, 2, 3, 4, 5, 9, 3, 3] ⟨[], 8⟩ := by
  constructor
  · refine (@unPadsImage_iff 8 _ ⟨[], 8⟩ 1 (by decide) (by decide) rfl rfl (by decide)).mpr ?_
    refine ⟨by decide, Or.inr ?_⟩
    intro b hb
    exact mem_singleton.mp hb
  · intro h
    have hlast :=
      (@unPadsImage_iff 8 _ ⟨[], 8⟩ 3 (by decide) (by decide) rfl rfl (by decide)).mp h
    rcases hlast.2 with hlong | hsame
    · exact absurd hlong (by decide)
    · exact absurd (hsame 9 (mem_cons_self ..)) (by decide)

/-- A block that ends in 0 is accepted whole, and wrong padding is found out too late. -/
theorem not_unPadsImage :
    unPad [1, 2, 3, 4, 5, 6, 7, 0] ⟨[], 8⟩ = (⟨[1, 2, 3, 4, 5, 6, 7, 0], 8⟩, .ok ()) ∧
      (¬ ∃ data, PaddedFrom 8 data [1, 2, 3, 4, 5, 6, 7, 0]) ∧
      ¬ UnPadsImage 8 [1, 2, 3, 4, 5, 6, 7, 0] ⟨[], 8⟩ ∧
      unPad [1, 2, 3, 4, 5, 6, 9, 2] ⟨[], 8⟩ =
        (⟨[1, 2, 3, 4, 5, 6], 8⟩, leave KErrInvalidPadding) := by
  have hwhole : unPad [1, 2, 3, 4, 5, 6, 7, 0] ⟨[], 8⟩ =
      (⟨[1, 2, 3, 4, 5, 6, 7, 0], 8⟩, .ok ()) := by decide
  have himage : ¬ ∃ data, PaddedFrom 8 data [1, 2, 3, 4, 5, 6, 7, 0] := by
    intro ⟨data, h⟩
    have := ((@paddedFrom_iff 8 data _ 0 (by decide) rfl rfl).mp h).1
    exact absurd this (by decide)
  refine ⟨hwhole, himage, ?_, by decide⟩
  intro ⟨_, hother⟩
  obtain ⟨e, hleaves⟩ := hother himage
  rw [hwhole] at hleaves
  cases (Prod.mk.inj hleaves).2

end CPaddingPKCS7

/-! ### PKCS #1, private key operation -/

namespace CPaddingPKCS1Signature

def MinPaddingLength : Nat := 11

/-- `DoPadL`.  The separator is written behind the first octets, or over them, and at a negative
index where the data fills the block. -/
def doPadL (aBlockBytes : Nat) (aInput : Bytes) : Leaving Bytes :=
  let startOfData := aBlockBytes - aInput.length
  if aBlockBytes < 2 ∨ startOfData < 1 then panic
  else
    .ok ((0 :: 1 :: replicate (startOfData - 1 - 2) 0xff).take (startOfData - 1) ++ 0 :: aInput)

/-- `CPadding::PadL`, for an output that has `aMaxLength` octets of room. -/
def padL (aBlockBytes : Nat) (aInput : Bytes) (aMaxLength : Nat) : Leaving Bytes :=
  if (aInput.length : Int) > aBlockBytes - MinPaddingLength ∧ aInput.length ≠ aBlockBytes then
    leave KErrArgument
  else if aMaxLength < aBlockBytes then leave KErrOverflow
  else doPadL aBlockBytes aInput

/-- The first index, from `dataStart` on, at which there is something else than 0xff. -/
def skipFilled (aInput : Bytes) (dataStart : Nat) : Nat :=
  dataStart + ((aInput.drop dataStart).takeWhile (· = 0xff)).length

/-- Where the data start: at 0 unless the block is of type 1. -/
def dataStart (aInput : Bytes) : Nat :=
  let start := if aInput.getD 0 0 = 0 then 1 else 0
  if start < aInput.length ∧ aInput.getD start 0 ≠ 0 then
    let separator := skipFilled aInput (start + 1)
    if separator = aInput.length ∨ aInput.getD separator 0 ≠ 0 then 0 else separator + 1
  else 0

def unPadL (aInput : Bytes) : Leaving Bytes :=
  if aInput.length = 0 then leave KErrInvalidPadding else .ok (aInput.drop (dataStart aInput))

theorem skipFilled_eq (front : Bytes) (k : Nat) (m : Bytes) :
    skipFilled (front ++ (replicate k 0xff ++ 0 :: m)) front.length = front.length + k := by
  have htake : (replicate k (0xff : UInt8) ++ 0 :: m).takeWhile (· = 0xff) =
      replicate k 0xff := by
    rw [takeWhile_append_of_pos (by simp)]
    simp
  unfold skipFilled
  rw [drop_left, htake, length_replicate]

/-- A block of type 1, with the zero in front or without. -/
theorem unPadL_block (k : Nat) (m : Bytes) :
    unPadL (1 :: (replicate k 0xff ++ 0 :: m)) = .ok m ∧
      unPadL (0 :: 1 :: (replicate k 0xff ++ 0 :: m)) = .ok m := by
  have hlength : (replicate k (0xff : UInt8) ++ 0 :: m).length = k + m.length + 1 := by
    simp
    omega
  have hzero : (replicate k (0xff : UInt8) ++ 0 :: m).getD k 0 = 0 := by
    simp [getD_eq_getElem?_getD]
  have hdrop : (replicate k (0xff : UInt8) ++ 0 :: m).drop (k + 1) = m := by
    rw [drop_append]
    simp
  have hshort : skipFilled (1 :: (replicate k 0xff ++ 0 :: m)) (0 + 1) = k + 1 :=
    (skipFilled_eq [1] k m).trans (Nat.add_comm 1 k)
  have hlong : skipFilled (0 :: 1 :: (replicate k 0xff ++ 0 :: m)) (1 + 1) = k + 2 :=
    (skipFilled_eq [0, 1] k m).trans (Nat.add_comm 2 k)
  generalize replicate k (0xff : UInt8) ++ 0 :: m = rest at *
  have hone : (1 : UInt8) ≠ 0 := by decide
  constructor
  · have hstart : dataStart (1 :: rest) = k + 1 + 1 := by
      have hfirst : (1 :: rest).getD 0 0 = 1 := rfl
      unfold dataStart
      simp only [hfirst, if_neg hone, length_cons, hshort]
      rw [if_pos ⟨by omega, hone⟩, if_neg]
      intro hbad
      rcases hbad with hend | hne
      · omega
      · exact hne hzero
    unfold unPadL
    rw [if_neg (by simp), hstart, drop_succ_cons, hdrop]
  · have hstart : dataStart (0 :: 1 :: rest) = k + 1 + 1 + 1 := by
      have hfirst : (0 :: 1 :: rest).getD 0 0 = 0 := rfl
      have hsecond : (0 :: 1 :: rest).getD 1 0 = 1 := rfl
      unfold dataStart
      simp only [hfirst, if_true, length_cons, hlong, hsecond]
      rw [if_pos ⟨by omega, hone⟩, if_neg]
      intro hbad
      rcases hbad with hend | hne
      · omega
      · exact hne hzero
    unfold unPadL
    rw [if_neg (by simp), hstart, drop_succ_cons, drop_succ_cons, hdrop]

/-- What data that are short enough are padded to. -/
theorem padL_eq {aBlockBytes aMaxLength : Nat} {m : Bytes}
    (hm : m.length + MinPaddingLength ≤ aBlockBytes) (hmax : aBlockBytes ≤ aMaxLength) :
    padL aBlockBytes m aMaxLength =
      .ok (0 :: 1 :: (replicate (aBlockBytes - m.length - 3) 0xff ++ 0 :: m)) := by
  unfold MinPaddingLength at hm
  have hall : (0 :: 1 :: replicate (aBlockBytes - m.length - 1 - 2) (0xff : UInt8)).take
      (aBlockBytes - m.length - 1) = 0 :: 1 :: replicate (aBlockBytes - m.length - 3) 0xff := by
    rw [take_of_length_le (by simp; omega)]
    congr 3
  unfold padL doPadL
  rw [if_neg (by unfold MinPaddingLength; omega), if_neg (by omega)]
  simp only
  rw [if_neg (by omega), hall]
  rfl

end CPaddingPKCS1Signature

/-- What a TInteger makes of a block: the zero in front is lost. -/
theorem TInteger.bufferLC_block {b : UInt8} (hb : b ≠ 0) (rest : Bytes) :
    (newDesL (0 :: b :: rest)).bufferLC = .ok (b :: rest) := by
  have hvalue : (newDesL (0 :: b :: rest)).magnitude = Der.value (b :: rest) := by
    rw [magnitude_newDesL, Der.value_cons]
    simp
  rw [bufferLC_eq (isNegative_newDesL _), hvalue, Der.octets_value]
  simpa using hb

/-- A block with the zero in front is a message as well. -/
theorem CPaddingPKCS1Encryption.unPadL_zero (rest : Bytes) :
    unPadL (0 :: 2 :: rest) = unPadL (2 :: rest) := by
  have hskip : skipNonZero (0 :: 2 :: rest) 2 = skipNonZero (2 :: rest) 1 + 1 := by
    unfold skipNonZero
    rw [drop_succ_cons]
    omega
  have hfirst : (2 :: rest).getD 0 0 = (2 : UInt8) := rfl
  have hzero : (0 :: 2 :: rest).getD 0 0 = (0 : UInt8) := rfl
  have hsecond : (0 :: 2 :: rest).getD 1 0 = (2 : UInt8) := rfl
  have hshift : ∀ i, (0 :: 2 :: rest).getD (i + 1) (0 : UInt8) = (2 :: rest).getD i 0 :=
    fun i => rfl
  have htwo : ¬ (2 : UInt8) = 0 := by decide
  unfold unPadL
  simp only [hfirst, hzero, hsecond, if_neg htwo, if_true, hskip, hshift, length_cons,
    drop_succ_cons, Nat.add_right_cancel_iff, Nat.add_eq_zero_iff]
  simp

/-! ### Every scheme -/

/-- `PadL` refuses what does not fit, apart from input that is as long as a block. -/
def Refused (minPaddingLength iBlockBytes inputLength : Nat) : Prop :=
  iBlockBytes < inputLength + minPaddingLength ∧ inputLength ≠ iBlockBytes

/-- A block whose padding comes off, with the zero in front and without. -/
def ComesOff (unPadL : Bytes → Leaving Bytes) (aBlockBytes : Nat) (aInput block : Bytes) : Prop :=
  block.length = aBlockBytes ∧ unPadL block = .ok aInput ∧
    (do unPadL (← (TInteger.newDesL block).bufferLC)) = .ok aInput

theorem CPadding.padL_total {iBlockBytes : Nat} (self : CPadding) (aInput : Bytes)
    {aOutput : TDes8} (hroom : aOutput.length + self.maxPaddedLength iBlockBytes aInput.length ≤
      aOutput.maxLength) :
    (Refused self.minPaddingLength iBlockBytes aInput.length ∧
        self.padL iBlockBytes aInput aOutput = leave KErrArgument) ∨
      (¬ Refused self.minPaddingLength iBlockBytes aInput.length ∧
        self.padL iBlockBytes aInput aOutput =
          .ok ⟨aOutput.data ++ self.padded iBlockBytes aInput, aOutput.maxLength⟩) := by
  unfold Refused
  by_cases hrefused : iBlockBytes < aInput.length + self.minPaddingLength ∧
      aInput.length ≠ iBlockBytes
  · refine Or.inl ⟨hrefused, ?_⟩
    unfold padL
    rw [if_pos (by omega)]
  · have hlength := padded_length iBlockBytes self aInput
    unfold padded at hlength
    rw [length_append] at hlength
    have hinput := @TDes8.append_ok aOutput aInput (by omega)
    have hpadding := @TDes8.append_ok ⟨aOutput.data ++ aInput, aOutput.maxLength⟩
      (self.padding iBlockBytes aInput) (by
        show (aOutput.data ++ aInput).length + _ ≤ aOutput.maxLength
        rw [length_append]
        unfold TDes8.length at hroom
        omega)
    refine Or.inr ⟨hrefused, ?_⟩
    unfold padL doPadL padded
    rw [if_neg (by omega), if_neg (by omega), hinput, ok_bind, hpadding, List.append_assoc]

/-- Less than a block is filled up to a block, and a block gets one more. -/
theorem CPadding.padded_blocks {self : CPadding} {iBlockBytes : Nat} {aInput : Bytes}
    (hself : self ≠ none) (hpos : 0 < iBlockBytes) (hle : aInput.length ≤ iBlockBytes) :
    (self.padded iBlockBytes aInput).length =
      if aInput.length = iBlockBytes then 2 * iBlockBytes else iBlockBytes := by
  unfold padded
  rw [length_append, padding_length hself]
  by_cases hblock : aInput.length = iBlockBytes
  · rw [if_pos hblock, hblock, Nat.mod_self]
    omega
  · rw [if_neg hblock, Nat.mod_eq_of_lt (by omega)]
    omega

theorem CPaddingPKCS1Signature.padL_total {aBlockBytes aMaxLength : Nat} {aInput : Bytes}
    (hroom : aBlockBytes ≤ aMaxLength) (hblock : aInput.length ≠ aBlockBytes) :
    (Refused MinPaddingLength aBlockBytes aInput.length ∧
        padL aBlockBytes aInput aMaxLength = leave KErrArgument) ∨
      ∃ block, padL aBlockBytes aInput aMaxLength = .ok block ∧
        ComesOff unPadL aBlockBytes aInput block := by
  unfold Refused
  by_cases hfits : aInput.length + MinPaddingLength ≤ aBlockBytes
  · obtain ⟨hshort, hlong⟩ := unPadL_block (aBlockBytes - aInput.length - 3) aInput
    refine Or.inr ⟨_, padL_eq hfits hroom, ?_, hlong, ?_⟩
    · unfold MinPaddingLength at hfits
      simp
      omega
    · rw [TInteger.bufferLC_block (by decide), ok_bind, hshort]
  · refine Or.inl ⟨⟨by omega, hblock⟩, ?_⟩
    unfold padL
    rw [if_pos ⟨by omega, hblock⟩]

theorem CPaddingPKCS1Encryption.padL_total {aBlockBytes aMaxLength : Nat} {aInput : Bytes}
    {draw : RandomSource} (hroom : aBlockBytes ≤ aMaxLength) (hblock : aInput.length ≠ aBlockBytes)
    (hdraw : draw.NeverDry) :
    (Refused MinPaddingLength aBlockBytes aInput.length ∧
        ∀ fuel, padL aBlockBytes draw fuel aInput aMaxLength = some (leave KErrArgument)) ∨
      ∃ enough, ∀ fuel, enough ≤ fuel →
        ∃ block, padL aBlockBytes draw fuel aInput aMaxLength = some (.ok block) ∧
          ComesOff unPadL aBlockBytes aInput block := by
  unfold Refused
  by_cases hfits : aInput.length + MinPaddingLength ≤ aBlockBytes
  · obtain ⟨enough, henough⟩ := padL_some hfits hroom hdraw
    refine Or.inr ⟨enough, fun fuel hfuel => ?_⟩
    obtain ⟨block, hpad⟩ := henough fuel hfuel
    obtain ⟨ps, rfl, hlength, hps⟩ := padL_ok hfits hpad
    refine ⟨_, hpad, ?_, (unPadL_zero _).trans (unPadL_block hps), ?_⟩
    · simp
      omega
    · rw [cons_append, TInteger.bufferLC_block (by decide), ok_bind]
      exact unPadL_block hps
  · refine Or.inl ⟨⟨by omega, hblock⟩, fun fuel => ?_⟩
    unfold padL
    rw [if_pos ⟨by omega, hblock⟩]

/-- What `PadL` accepts, it pads: without a scheme as it is, for block ciphers to whole blocks,
and for RSA to the block; and `UnPadL` gives the input back. -/
theorem padding_comes_off :
    (∀ (self : CPadding) (iBlockBytes : Nat) (aInput : Bytes) (aOutput out : TDes8),
      0 < iBlockBytes →
      aOutput.length + self.maxPaddedLength iBlockBytes aInput.length ≤ aOutput.maxLength →
      out.length + aInput.length ≤ out.maxLength →
      (Refused self.minPaddingLength iBlockBytes aInput.length ∧
          self.padL iBlockBytes aInput aOutput = leave KErrArgument) ∨
        ∃ block, self.padL iBlockBytes aInput aOutput =
            .ok ⟨aOutput.data ++ block, aOutput.maxLength⟩ ∧
          block.length = (if self = .none then aInput.length
            else if aInput.length = iBlockBytes then 2 * iBlockBytes else iBlockBytes) ∧
          (self.Counts (iBlockBytes - aInput.length % iBlockBytes) →
            self.unPadL block out = .ok ⟨out.data ++ aInput, out.maxLength⟩)) ∧
    (∀ (aBlockBytes aMaxLength : Nat) (aInput : Bytes), aBlockBytes ≤ aMaxLength →
      aInput.length ≠ aBlockBytes →
      (Refused CPaddingPKCS1Signature.MinPaddingLength aBlockBytes aInput.length ∧
          CPaddingPKCS1Signature.padL aBlockBytes aInput aMaxLength = leave KErrArgument) ∨
        ∃ block, CPaddingPKCS1Signature.padL aBlockBytes aInput aMaxLength = .ok block ∧
          ComesOff CPaddingPKCS1Signature.unPadL aBlockBytes aInput block) ∧
    ∀ (aBlockBytes aMaxLength : Nat) (aInput : Bytes) (draw : RandomSource),
      aBlockBytes ≤ aMaxLength → aInput.length ≠ aBlockBytes → draw.NeverDry →
      (Refused CPaddingPKCS1Encryption.MinPaddingLength aBlockBytes aInput.length ∧ ∀ fuel,
          CPaddingPKCS1Encryption.padL aBlockBytes draw fuel aInput aMaxLength =
            some (leave KErrArgument)) ∨
        ∃ enough, ∀ fuel, enough ≤ fuel → ∃ block,
          CPaddingPKCS1Encryption.padL aBlockBytes draw fuel aInput aMaxLength =
            some (.ok block) ∧ ComesOff CPaddingPKCS1Encryption.unPadL aBlockBytes aInput block := by
  refine ⟨?_, fun aBlockBytes aMaxLength aInput hroom hblock =>
      CPaddingPKCS1Signature.padL_total hroom hblock,
    fun aBlockBytes aMaxLength aInput draw hroom hblock hdraw =>
      CPaddingPKCS1Encryption.padL_total hroom hblock hdraw⟩
  intro self iBlockBytes aInput aOutput out hpos hroom hout
  rcases self.padL_total aInput hroom with hrefused | ⟨hfits, hpad⟩
  · exact Or.inl hrefused
  · refine Or.inr ⟨_, hpad, ?_, ?_⟩
    · by_cases hself : self = .none
      · subst hself
        simp [CPadding.padded, CPadding.padding]
      · have hmin : self.minPaddingLength = 1 := by
          cases self with
          | none => exact absurd rfl hself
          | SSLv3 => rfl
          | PKCS7 => rfl
        unfold Refused at hfits
        rw [if_neg hself, CPadding.padded_blocks hself hpos (by omega)]
    · intro hcounts
      rw [CPadding.unPadL_counts hpos hcounts, TDes8.append_ok hout]

/-- A source that gives ones. -/
def ones : RandomSource := fun _ => .ok ⟨replicate 256 1, length_replicate⟩

theorem ones_neverDry : ones.NeverDry := by
  refine ⟨fun n => ⟨_, rfl⟩, fun i => ⟨i, Nat.le_refl i, 1, ?_, by decide⟩⟩
  have hone : (replicate 256 (1 : UInt8)).getD (i % 256) 0 = 1 := by
    rw [getD_eq_getElem?_getD, getElem?_replicate_of_lt (Nat.mod_lt i (by decide))]
    rfl
  unfold RandomSource.octet ones
  rw [ok_bind, hone]
  rfl

/-- A digest of one octet in a block of twelve, and seven octets in a block of eight. -/
theorem padding_comes_off_blocks :
    (∃ block, CPadding.PKCS7.padL 8 [1, 2, 3, 4, 5, 6, 7] ⟨[], 8⟩ = .ok ⟨[] ++ block, 8⟩ ∧
      CPadding.PKCS7.unPadL block ⟨[], 7⟩ = .ok ⟨[] ++ [1, 2, 3, 4, 5, 6, 7], 7⟩) ∧
    (∃ block, CPaddingPKCS1Signature.padL 12 [7] 12 = .ok block ∧
      ComesOff CPaddingPKCS1Signature.unPadL 12 [7] block) ∧
    ∃ enough, ∀ fuel, enough ≤ fuel → ∃ block,
      CPaddingPKCS1Encryption.padL 12 ones fuel [7] 12 = some (.ok block) ∧
        ComesOff CPaddingPKCS1Encryption.unPadL 12 [7] block := by
  refine ⟨?_, ?_, ?_⟩
  · obtain ⟨block, hpad, -, hunpad⟩ := (padding_comes_off.1 .PKCS7 8 [1, 2, 3, 4, 5, 6, 7] ⟨[], 8⟩
      ⟨[], 7⟩ (by decide) (by decide) (by decide)).resolve_left
        fun h => absurd h.1.1 (by decide)
    exact ⟨block, hpad, hunpad (show 1 ≤ 255 by decide)⟩
  · exact (padding_comes_off.2.1 12 12 [7] (by decide) (by decide)).resolve_left
      fun h => absurd h.1.1 (by decide)
  · exact (padding_comes_off.2.2 12 12 [7] ones (by decide) (by decide) ones_neverDry).resolve_left
      fun h => absurd h.1.1 (by decide)

/-- Without a scheme the output is no block, and a block is padded to two. -/
theorem not_padding_one_block :
    ¬ (CPadding.none.padL 8 [1, 2, 3] ⟨[], 8⟩ = leave KErrArgument ∨
      ∃ block, CPadding.none.padL 8 [1, 2, 3] ⟨[], 8⟩ = .ok ⟨block, 8⟩ ∧ block.length = 8) ∧
    ¬ (CPadding.PKCS7.padL 8 [1, 2, 3, 4, 5, 6, 7, 8] ⟨[], 16⟩ = leave KErrArgument ∨
      ∃ block, CPadding.PKCS7.padL 8 [1, 2, 3, 4, 5, 6, 7, 8] ⟨[], 16⟩ = .ok ⟨block, 16⟩ ∧
        block.length = 8) := by
  have hnone : CPadding.none.padL 8 [1, 2, 3] ⟨[], 8⟩ = .ok ⟨[1, 2, 3], 8⟩ := by decide
  have htwo : CPadding.PKCS7.padL 8 [1, 2, 3, 4, 5, 6, 7, 8] ⟨[], 16⟩ =
      .ok ⟨[1, 2, 3, 4, 5, 6, 7, 8, 8, 8, 8, 8, 8, 8, 8, 8], 16⟩ := by decide
  rw [hnone, htwo]
  constructor
  · intro h
    rcases h with h | ⟨block, h, hlength⟩
    · cases h
    · rw [← (TDes8.mk.inj (Except.ok.inj h)).1] at hlength
      cases hlength
  · intro h
    rcases h with h | ⟨block, h, hlength⟩
    · cases h
    · rw [← (TDes8.mk.inj (Except.ok.inj h)).1] at hlength
      cases hlength

end OsSecurity

/-
The frames of a store, as they are written and as they are read.

A stream that does not reach the next anchor has one frame, and any other an open one before the
frames of the rest.  `Framed` says what the frames from a place in the file on hold, with no
bound on the turns of the loop that reads them.
-/
import OsSecurity.Certapp.FileStoreReading
import OsSecurity.Library.Anchors

namespace OsSecurity

open Nat UInt32

namespace Certapp

open Anchors Packing RWriteStream CPermanentFileStore FileStreamBuf

/-! ### The two coordinates -/

/-- An offset of a payload, counted from where the first is, as an offset into the frames. -/
abbrev frameOf (q : Nat) : Nat := strip 0x4000 2 q

/-- What a payload holds up to the next anchor. -/
def room (q : Nat) : Nat := 0x4000 - frameOf q % 0x4000

theorem room_pos (q : Nat) : 1 ≤ room q := by
  have hlt : frameOf q % 0x4000 < 0x4000 := mod_lt _ (by omega)
  unfold room
  omega

theorem room_le (q : Nat) : room q ≤ 0x4000 := sub_le _ _

theorem ofNat_add_two (tell : Nat) : ofNat tell + 2 = ofNat (tell + 2) := by
  apply UInt32.toNat_inj.mp
  simp

theorem file2Frame_toNat {q : Nat} (h : q + 32 < 2 ^ 32) :
    (file2Frame (ofNat (q + 32))).toNat = frameOf q := by
  have hsub : ofNat (q + 32) - 32 = ofNat q := by
    apply UInt32.toNat_inj.mp
    rw [UInt32.toNat_sub_of_le _ _ (by
      rw [le_iff_toNat_le]
      simp
      omega)]
    simp
    omega
  have hq : (ofNat q).toNat = q := by
    rw [toNat_ofNat']
    omega
  have hmarks : ((ofNat q / 0x4002) <<< 1).toNat = 2 * (q / 0x4002) := by
    rw [UInt32.toNat_shiftLeft, UInt32.toNat_div, hq]
    simp [shiftLeft_eq]
    omega
  unfold file2Frame
  rw [hsub, UInt32.toNat_sub_of_le _ _ (by
    rw [le_iff_toNat_le, hmarks, hq]
    omega), hmarks, hq]
  rfl

theorem frame2File_toNat {o : UInt32} (h : pad 0x4000 2 o.toNat + 32 < 2 ^ 32) :
    (frame2File o).toNat = pad 0x4000 2 o.toNat + 32 := by
  unfold pad at h ⊢
  have hmarks : ((o >>> 14) <<< 1).toNat = 2 * (o.toNat / 0x4000) := by
    rw [UInt32.toNat_shiftLeft, UInt32.toNat_shiftRight]
    simp [shiftLeft_eq, shiftRight_eq_div_pow]
    omega
  unfold frame2File
  rw [UInt32.toNat_add, UInt32.toNat_add, hmarks]
  simp
  omega

/-- The places up to the next anchor. -/
theorem anchor_toNat {x : UInt32} (h : x.toNat + 0x4000 < 2 ^ 32) :
    (((x + 0x4000) &&& ~~~0x3fff) - x).toNat = 0x4000 - x.toNat % 0x4000 := by
  have hsum : (x + 0x4000).toNat = x.toNat + 0x4000 := by
    rw [UInt32.toNat_add]
    exact mod_eq_of_lt h
  have hanchor : ((x + 0x4000) &&& ~~~0x3fff).toNat =
      x.toNat + 0x4000 - (x.toNat + 0x4000) % 2 ^ 14 := by
    rw [UInt32.toNat_and, hsum]
    refine and_high (k := 14) ?_ (by decide)
    show (x.toNat + 0x4000) &&& (2 ^ 32 - 1) = _
    rw [and_two_pow_sub_one_eq_mod, mod_eq_of_lt h]
  rw [UInt32.toNat_sub_of_le _ _ (by
    rw [le_iff_toNat_le, hanchor]
    omega), hanchor]
  omega

/-! ### The octets of a frame -/

/-- A number of 16 bits, its low octet first. -/
def frameOctets (n : Nat) : Bytes := [UInt8.ofNat n, UInt8.ofNat (n / 0x100)]

@[simp] theorem frameOctets_length (n : Nat) : (frameOctets n).length = 2 := rfl

theorem writeUint16L_frame (frame : UInt16) :
    writeUint16L frame.toUInt32 = frameOctets frame.toNat := by
  have hlt : frame.toNat < 65536 := frame.toNat_lt
  have hlow : frame.toUInt32.toUInt8 = UInt8.ofNat frame.toNat := by
    apply UInt8.toNat_inj.mp
    simp
  have hhigh : (frame.toUInt32 >>> 8).toUInt8 = UInt8.ofNat (frame.toNat / 0x100) := by
    apply UInt8.toNat_inj.mp
    simp [shiftRight_eq_div_pow]
  unfold writeUint16L frameOctets
  rw [hlow, hhigh]

/-- The number that two octets are. -/
def frameValue (b0 b1 : UInt8) : Nat := b0.toNat + 0x100 * b1.toNat

theorem frameValue_lt (b0 b1 : UInt8) : frameValue b0 b1 < 0x10000 := by
  have h0 : b0.toNat < 256 := b0.toNat_lt
  have h1 : b1.toNat < 256 := b1.toNat_lt
  unfold frameValue
  omega

theorem frameOctets_eq_iff {n : Nat} (h : n < 0x10000) {b0 b1 : UInt8} :
    frameOctets n = [b0, b1] ↔ n = frameValue b0 b1 := by
  have h0 : b0.toNat < 256 := b0.toNat_lt
  have h1 : b1.toNat < 256 := b1.toNat_lt
  have hlow : (UInt8.ofNat n).toNat = n % 256 := UInt8.toNat_ofNat'
  have hhigh : (UInt8.ofNat (n / 0x100)).toNat = n / 0x100 % 256 := UInt8.toNat_ofNat'
  simp only [frameOctets, frameValue, List.cons.injEq, and_true, ← UInt8.toNat_inj, hlow, hhigh]
  omega

/-- The frame that two octets are. -/
theorem frame_toNat (b0 b1 : UInt8) :
    (UInt16.ofNat (pack littleEndian 0 [b0, b1])).toNat = frameValue b0 b1 := by
  have hlt := frameValue_lt b0 b1
  unfold frameValue at hlt ⊢
  simp [pack_littleEndian, Der.value]
  omega

theorem and_frameType (frame : UInt16) :
    (frame &&& KMaskFrameType16).toNat = frame.toNat - frame.toNat % 0x4000 := by
  have hlt : frame.toNat < 2 ^ 16 := frame.toNat_lt
  unfold KMaskFrameType16
  rw [UInt16.toNat_and]
  refine and_high (k := 14) ?_ (by decide)
  show frame.toNat &&& (2 ^ 16 - 1) = _
  rw [and_two_pow_sub_one_eq_mod, mod_eq_of_lt hlt]

theorem and_frameLength (frame : UInt16) :
    (frame &&& KMaskFrameLength16).toNat = frame.toNat % 0x4000 := by
  unfold KMaskFrameLength16
  rw [UInt16.toNat_and]
  exact and_two_pow_sub_one_eq_mod frame.toNat 14

/-- A type with a length. -/
theorem type_or_toNat {frameType length : UInt16} {k : Nat} (htype : frameType.toNat = 2 ^ 14 * k)
    (hlength : length.toNat < 0x4000) :
    (frameType ||| length).toNat = frameType.toNat + length.toNat := by
  rw [UInt16.toNat_or, htype]
  exact (two_pow_add_eq_or_of_lt hlength k).symm

/-! ### The frames that are written -/

section Written

variable {fuel q : Nat} {currentType : UInt16} {k : Nat} {data : Bytes}

theorem room_toNat (hq : q + 32 < 2 ^ 32) :
    (((file2Frame (ofNat (q + 30) + 2) + 0x4000) &&& ~~~0x3fff) -
      file2Frame (ofNat (q + 30) + 2)).toNat = room q := by
  have hframe : (file2Frame (ofNat (q + 30) + 2)).toNat = frameOf q := by
    rw [ofNat_add_two]
    exact file2Frame_toNat hq
  rw [anchor_toNat (by
    rw [hframe]
    unfold frameOf strip
    omega), hframe]
  rfl

theorem writeFrames_nothing (tell : Nat) : writeFrames fuel currentType tell 0 data = [] := by
  cases fuel with
  | zero => rfl
  | succ fuel =>
      rw [writeFrames]
      exact if_pos rfl

/-- Data that does not reach the next anchor has one frame. -/
theorem writeFrames_last (htype : currentType.toNat = 2 ^ 14 * k) (hq : q + 32 < 2 ^ 32)
    (hpos : 0 < data.length) (hroom : data.length < room q) :
    writeFrames (fuel + 1) currentType (q + 30) (ofNat data.length) data =
      frameOctets (currentType.toNat + data.length) ++ data := by
  have hle := room_le q
  have hlength : (ofNat data.length).toNat = data.length := by
    rw [toNat_ofNat']
    omega
  have hlength16 : (ofNat data.length).toUInt16.toNat = data.length := by
    rw [toNat_toUInt16, hlength]
    omega
  have hnone : ¬ ofNat data.length = 0 := by
    intro hzero
    rw [hzero] at hlength
    exact absurd hlength (by simp; omega)
  have hnot : ¬ ((file2Frame (ofNat (q + 30) + 2) + 0x4000) &&& ~~~0x3fff) -
      file2Frame (ofNat (q + 30) + 2) ≤ ofNat data.length := by
    rw [le_iff_toNat_le, room_toNat hq, hlength]
    omega
  have hwrite : (if ofNat data.length < 0x3fff then ofNat data.length
      else 0x3fff) = ofNat data.length := by
    by_cases hlt : ofNat data.length < 0x3fff
    · exact if_pos hlt
    · rw [if_neg hlt]
      rw [lt_iff_toNat_lt, hlength] at hlt
      apply UInt32.toNat_inj.mp
      rw [hlength]
      simp at hlt ⊢
      omega
  rw [writeFrames]
  simp only [if_neg hnone, if_neg hnot, hwrite, UInt32.sub_self, writeFrames_nothing, hlength,
    List.take_length, List.append_nil, writeUint16L_frame]
  rw [type_or_toNat htype (by omega), hlength16]

/-- Data that reaches it has an open one, and goes on behind it. -/
theorem writeFrames_open {n : Nat} (hq : q + 32 < 2 ^ 32) (hn : n < 2 ^ 32) (hroom : room q ≤ n) :
    writeFrames (fuel + 1) currentType (q + 30) (ofNat n) data =
      frameOctets currentType.toNat ++ data.take (room q) ++
        writeFrames fuel EFrameContinuation16 (q + (2 + room q) + 30) (ofNat (n - room q))
          (data.drop (room q)) := by
  have hpos := room_pos q
  have hlength : (ofNat n).toNat = n := by
    rw [toNat_ofNat']
    omega
  have hnone : ¬ ofNat n = 0 := by
    intro hzero
    rw [hzero] at hlength
    exact absurd hlength (by simp; omega)
  have hopen : ((file2Frame (ofNat (q + 30) + 2) + 0x4000) &&& ~~~0x3fff) -
      file2Frame (ofNat (q + 30) + 2) ≤ ofNat n := by
    rw [le_iff_toNat_le, room_toNat hq, hlength]
    exact hroom
  have hleft : ofNat n - (((file2Frame (ofNat (q + 30) + 2) + 0x4000) &&& ~~~0x3fff) -
      file2Frame (ofNat (q + 30) + 2)) = ofNat (n - room q) := by
    apply UInt32.toNat_inj.mp
    rw [UInt32.toNat_sub_of_le _ _ hopen, room_toNat hq, hlength, toNat_ofNat']
    omega
  have htell : q + 30 + 2 + room q = q + (2 + room q) + 30 := by omega
  rw [writeFrames]
  simp only [if_neg hnone, if_pos hopen, hleft, room_toNat hq, htell, writeUint16L_frame]

end Written

/-! ### The frames that are read -/

/-- How long an open frame is taken to be, by where in the file what it holds begins. -/
def openLength (fileOffset : Nat) : Nat := (0x4000 - file2Frame (ofNat fileOffset)).toNat

/-- What the frames from a place in the file on hold. -/
inductive Framed (file : Bytes) : Bool → Nat → Bytes → Prop
  | last {isFirst : Bool} {p : Nat} (b0 b1 : UInt8) (hframe : (file.drop p).take 2 = [b0, b1])
      (htype : frameValue b0 b1 / 0x4000 = if isFirst then 1 else 3)
      (hlast : frameValue b0 b1 % 0x4000 ≠ 0)
      (hlength : frameValue b0 b1 % 0x4000 ≤ (file.drop (p + 2)).length) :
      Framed file isFirst p ((file.drop (p + 2)).take (frameValue b0 b1 % 0x4000))
  | more {isFirst : Bool} {p : Nat} {d : Bytes} (b0 b1 : UInt8)
      (hframe : (file.drop p).take 2 = [b0, b1])
      (htype : frameValue b0 b1 / 0x4000 = if isFirst then 1 else 3)
      (hopen : frameValue b0 b1 % 0x4000 = 0)
      (hlength : openLength (p + 2) ≤ (file.drop (p + 2)).length)
      (hbehind : Framed file false (p + 2 + openLength (p + 2)) d) :
      Framed file isFirst p ((file.drop (p + 2)).take (openLength (p + 2)) ++ d)

section Read

variable {file : Bytes} {isFirst : Bool} {p fuel : Nat} {iData : Bytes}

/-- The type of a frame, as a test of its number. -/
theorem frameType_eq_iff (frame : UInt16) {frameType : UInt16} (k : Nat)
    (htype : frameType.toNat = 0x4000 * k) :
    frame &&& KMaskFrameType16 = frameType ↔ frame.toNat / 0x4000 = k := by
  rw [← UInt16.toNat_inj, and_frameType, htype]
  omega

theorem frameLength_eq_zero_iff {frame : UInt16} :
    frame &&& KMaskFrameLength16 = 0 ↔ frame.toNat % 0x4000 = 0 := by
  rw [← UInt16.toNat_inj, and_frameLength]
  rfl

/-- The first frame is one of data, and any other is a continuation. -/
theorem readFrames_turn {b0 b1 : UInt8} (hframe : (file.drop p).take 2 = [b0, b1]) :
    readFrames (fuel + 1) isFirst (atMark file p) iData =
      if frameValue b0 b1 / 0x4000 ≠ (if isFirst then 1 else 3) then fatalError
      else if frameValue b0 b1 % 0x4000 = 0 then do
        let (iData, iFileIn) ← appendFromFile (openLength (p + 2)) (atMark file (p + 2)) iData
        readFrames fuel false iFileIn iData
      else appendFromFile (frameValue b0 b1 % 0x4000) (atMark file (p + 2)) iData := by
  have hvalue := frame_toNat b0 b1
  have hlt := frameValue_lt b0 b1
  have htwo : 2 ≤ (file.drop p).length := by
    have hlength := congrArg List.length hframe
    rw [List.length_take] at hlength
    change min 2 (file.drop p).length = 2 at hlength
    omega
  rw [readFrames, doReadL_at htwo, ok_bind]
  dsimp only
  rw [tellL_at, ok_bind, hframe]
  generalize UInt16.ofNat (pack littleEndian 0 [b0, b1]) = frame at hvalue ⊢
  have hfree := frameType_eq_iff frame 0 (show EFrameFree16.toNat = _ from rfl)
  have hdata := frameType_eq_iff frame 1 (show EFrameData16.toNat = _ from rfl)
  have hdesc := frameType_eq_iff frame 2 (show EFrameDescriptive16.toNat = _ from rfl)
  have hcont := frameType_eq_iff frame 3 (show EFrameContinuation16.toNat = _ from rfl)
  rw [hvalue] at hfree hdata hdesc hcont
  simp only [hfree, hdata, hdesc, hcont, frameLength_eq_zero_iff, and_frameLength, hvalue]
  cases isFirst <;> grind [openLength]

theorem readFrames_ok {r : Bytes × FileStreamBuf}
    (h : readFrames fuel isFirst (atMark file p) iData = .ok r) :
    ∃ fuel' b0 b1, fuel = fuel' + 1 ∧ (file.drop p).take 2 = [b0, b1] := by
  cases fuel with
  | zero => exact absurd h (leave_ne_ok _ _)
  | succ fuel =>
      by_cases htwo : 2 ≤ (file.drop p).length
      · cases hdrop : file.drop p with
        | nil =>
          rw [hdrop] at htwo
          exact absurd htwo (by simp)
        | cons b0 more =>
          cases more with
          | nil =>
            rw [hdrop] at htwo
            exact absurd htwo (by simp)
          | cons b1 more => exact ⟨fuel, b0, b1, rfl, rfl⟩
      · have hshort : (file.drop p).length < 2 := Nat.lt_of_not_le htwo
        obtain ⟨s, hread, hfail⟩ := doReadL_short hshort
        rw [readFrames, hread, ok_bind] at h
        dsimp only at h
        rw [tellL_fail hfail] at h
        exact absurd h (leave_ne_ok _ _)

/-- What is read is what the frames hold, however many turns there may be. -/
theorem framed_of_readFrames {d : Bytes} {iFileIn : FileStreamBuf}
    (h : readFrames fuel isFirst (atMark file p) iData = .ok (d, iFileIn)) :
    ∃ held mark, Framed file isFirst p held ∧ d = iData ++ held ∧ iFileIn = atMark file mark := by
  induction fuel generalizing isFirst p iData with
  | zero => exact absurd h (leave_ne_ok _ _)
  | succ fuel ih =>
      obtain ⟨fuel', b0, b1, hfuel, hframe⟩ := readFrames_ok h
      rw [readFrames_turn hframe] at h
      by_cases htype : frameValue b0 b1 / 0x4000 = if isFirst then 1 else 3
      · rw [if_neg (by simpa using htype)] at h
        by_cases hopen : frameValue b0 b1 % 0x4000 = 0
        · rw [if_pos hopen, bind_eq_ok] at h
          obtain ⟨r, happend, h⟩ := h
          obtain ⟨hlength, rfl⟩ := appendFromFile_ok happend
          obtain ⟨held, mark, hheld, hd, hmark⟩ := ih h
          exact ⟨_, mark, .more b0 b1 hframe htype hopen hlength hheld, by
            rw [hd, List.append_assoc], hmark⟩
        · rw [if_neg hopen] at h
          obtain ⟨hlength, hr⟩ := appendFromFile_ok h
          rw [Prod.mk.injEq] at hr
          exact ⟨_, _, .last b0 b1 hframe htype hopen hlength, hr.1, hr.2⟩
      · rw [if_pos (by simpa using htype)] at h
        exact absurd h (leave_ne_ok _ _)

theorem Framed.lt_length {d : Bytes} (h : Framed file isFirst p d) : p + 2 ≤ file.length := by
  have htwo : ∀ {b0 b1 : UInt8}, (file.drop p).take 2 = [b0, b1] → p + 2 ≤ file.length := by
    intro b0 b1 hframe
    have hlength := congrArg List.length hframe
    rw [List.length_take, List.length_drop] at hlength
    change min 2 (file.length - p) = 2 at hlength
    omega
  cases h with
  | last b0 b1 hframe => exact htwo hframe
  | more b0 b1 hframe => exact htwo hframe

/-- A turn for each octet is enough. -/
theorem readFrames_of_framed {held : Bytes} (h : Framed file isFirst p held)
    (hfuel : file.length ≤ fuel + p) :
    ∃ mark, readFrames fuel isFirst (atMark file p) iData =
      .ok (iData ++ held, atMark file mark) := by
  induction h generalizing fuel iData with
  | @last isFirst p b0 b1 hframe htype hlast hlength =>
      have hlt := (Framed.last b0 b1 hframe htype hlast hlength).lt_length
      obtain ⟨fuel, rfl⟩ : ∃ n, fuel = n + 1 := ⟨fuel - 1, by omega⟩
      rw [readFrames_turn hframe, if_neg (by simpa using htype), if_neg hlast,
        appendFromFile_at hlength]
      exact ⟨_, rfl⟩
  | @more isFirst p d b0 b1 hframe htype hopen hlength hbehind ih =>
      have hlt := (Framed.more b0 b1 hframe htype hopen hlength hbehind).lt_length
      obtain ⟨fuel, rfl⟩ : ∃ n, fuel = n + 1 := ⟨fuel - 1, by omega⟩
      rw [readFrames_turn hframe, if_neg (by simpa using htype), if_pos hopen,
        appendFromFile_at hlength, ok_bind]
      obtain ⟨mark, hmark⟩ : ∃ mark,
          readFrames fuel false (atMark file (p + 2 + openLength (p + 2)))
            (iData ++ (file.drop (p + 2)).take (openLength (p + 2))) =
              .ok (iData ++ (file.drop (p + 2)).take (openLength (p + 2)) ++ d,
                atMark file mark) := ih (by omega)
      exact ⟨mark, by rw [← List.append_assoc]; exact hmark⟩

end Read

end Certapp

end OsSecurity

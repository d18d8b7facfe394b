/-
Which streams are read as they were written.

What an open frame holds is taken to end at the first anchor, wherever the frame is: behind it an
open frame has no octets or more than any file.  So a stream is read from one segment, or from
the first and the start of the second, and never up to an anchor, since no frame follows there
that is its own.  An offset at an anchor is of no place in the file but of one two octets on.
-/
import OsSecurity.Certapp.FileStoreFrames

namespace OsSecurity

open List UInt8

namespace Certapp

open Anchors CPermanentFileStore

/-! ### Where an open frame ends -/

theorem openLength_low {q : Nat} (hq : q + 32 < 2 ^ 32) (h : frameOf q ≤ 0x4000) :
    openLength (q + 32) = 0x4000 - frameOf q := by
  have hframe := file2Frame_toNat hq
  have hlimit : (0x4000 : UInt32).toNat = 0x4000 := rfl
  unfold openLength
  rw [UInt32.toNat_sub_of_le _ _ (by
    rw [UInt32.le_iff_toNat_le, hframe]
    exact h), hframe, hlimit]

/-- Behind the first anchor an open frame is taken to end beyond every file. -/
theorem openLength_high {q : Nat} (hq : q + 32 < 2 ^ 32) (h : 0x4000 < frameOf q) :
    2 ^ 32 < openLength (q + 32) + (q + 32) := by
  have hframe := file2Frame_toNat hq
  have hle : frameOf q ≤ q := strip_le q
  have hlimit : (0x4000 : UInt32).toNat = 0x4000 := rfl
  unfold openLength
  rw [UInt32.toNat_sub, hframe, hlimit]
  omega

theorem frameOf_le_of_lt {q : Nat} (h : q < 0x4000) : frameOf q = q := by
  unfold frameOf strip
  omega

/-- Up to two places are at the first anchor. -/
theorem frameOf_eq_anchor {q : Nat} (h : frameOf q ≤ 0x4000) (hq : 0x4000 ≤ q) :
    (q = 0x4000 ∨ q = 0x4002) ∧ frameOf q = 0x4000 := by
  unfold frameOf strip at *
  omega

section Framed

variable {file : Bytes} {isFirst : Bool} {p q : Nat} {d : Bytes}

theorem Framed.pos (h : Framed file isFirst p d) : 0 < d.length := by
  induction h with
  | last b0 b1 hframe htype hlast hlength =>
      rw [length_take_of_le hlength]
      omega
  | more b0 b1 hframe htype hopen hlength hbehind ih =>
      rw [length_append]
      omega

theorem Framed.length_le (h : Framed file isFirst p d) : p + 2 + d.length ≤ file.length := by
  induction h with
  | @last isFirst p b0 b1 hframe htype hlast hlength =>
      have hlt := (Framed.last b0 b1 hframe htype hlast hlength).lt_length
      rw [length_take_of_le hlength]
      rw [length_drop] at hlength
      omega
  | @more isFirst p d b0 b1 hframe htype hopen hlength hbehind ih =>
      rw [length_append, length_take_of_le hlength]
      omega

/-- What can be told of the frames by the octets that they begin with. -/
theorem Framed.invert {n : Nat} {behind : Bytes} (h : Framed file isFirst p d)
    (hn : n < 0x10000) (hdrop : file.drop p = frameOctets n ++ behind) :
    (n / 0x4000 = if isFirst then 1 else 3) ∧
      (n % 0x4000 ≠ 0 → n % 0x4000 ≤ behind.length ∧ d = behind.take (n % 0x4000)) ∧
      (n % 0x4000 = 0 → openLength (p + 2) ≤ behind.length ∧ ∃ e,
        d = behind.take (openLength (p + 2)) ++ e ∧
          Framed file false (p + 2 + openLength (p + 2)) e) := by
  have hbehind : file.drop (p + 2) = behind := by
    rw [← drop_drop, hdrop, drop_left' (frameOctets_length n)]
  have htwo : (file.drop p).take 2 = frameOctets n := by
    rw [hdrop, take_left' (frameOctets_length n)]
  cases h with
  | last b0 b1 hframe htype hlast hlength =>
      rw [htwo, frameOctets_eq_iff hn] at hframe
      rw [hbehind] at hlength ⊢
      rw [← hframe] at htype hlast hlength ⊢
      exact ⟨htype, fun _ => ⟨hlength, rfl⟩, fun hzero => absurd hzero hlast⟩
  | @more _ _ e b0 b1 hframe htype hopen hlength hnext =>
      rw [htwo, frameOctets_eq_iff hn] at hframe
      rw [hbehind] at hlength ⊢
      rw [← hframe] at htype hopen
      exact ⟨htype, fun hlast => absurd hopen hlast, fun _ => ⟨hlength, e, rfl, hnext⟩⟩

/-- A frame that is not open holds what follows its octets. -/
theorem Framed.of_last {n : Nat} {behind : Bytes} (hn : n < 0x10000)
    (hdrop : file.drop p = frameOctets n ++ (d ++ behind))
    (htype : n / 0x4000 = if isFirst then 1 else 3) (hlength : n % 0x4000 = d.length)
    (hpos : 0 < d.length) : Framed file isFirst p d := by
  have hbehind : file.drop (p + 2) = d ++ behind := by
    rw [← drop_drop, hdrop, drop_left' (frameOctets_length n)]
  have hvalue : n = frameValue (ofNat n) (ofNat (n / 0x100)) :=
    (frameOctets_eq_iff hn).mp rfl
  have hlast : Framed file isFirst p _ := .last (ofNat n) (ofNat (n / 0x100))
    (by rw [hdrop]; rfl) (by rw [← hvalue]; exact htype) (by rw [← hvalue]; omega) (by
      rw [← hvalue, hbehind, hlength, length_append]
      omega)
  rwa [← hvalue, hbehind, hlength, take_left' rfl] at hlast

/-- An open frame holds what follows its octets, up to where it is taken to end. -/
theorem Framed.of_open {k : Nat} {e behind : Bytes} (hk : k < 4)
    (hdrop : file.drop p = frameOctets (0x4000 * k) ++ (d ++ behind))
    (htype : k = if isFirst then 1 else 3) (hlength : openLength (p + 2) = d.length)
    (hnext : Framed file false (p + 2 + d.length) e) : Framed file isFirst p (d ++ e) := by
  have hbehind : file.drop (p + 2) = d ++ behind := by
    rw [← drop_drop, hdrop, drop_left' (frameOctets_length _)]
  have hvalue : 0x4000 * k = frameValue (ofNat (0x4000 * k))
      (ofNat (0x4000 * k / 0x100)) := (frameOctets_eq_iff (by omega)).mp rfl
  have hmore : Framed file isFirst p (_ ++ e) := .more (ofNat (0x4000 * k))
    (ofNat (0x4000 * k / 0x100)) (by rw [hdrop]; rfl)
    (by rw [← hvalue, ← htype]; omega) (by rw [← hvalue]; omega) (by
      rw [hlength, hbehind, length_append]
      omega) (by rw [hlength]; exact hnext)
  rwa [hlength, hbehind, take_left' rfl] at hmore

/-- An open frame behind the first anchor cannot be read. -/
theorem Framed.not_open_high (h : Framed file isFirst (q + 30) d) (hsize : file.length < 2 ^ 32)
    (hq : 0x4000 < frameOf q) {n : Nat} {behind : Bytes} (hn : n < 0x10000)
    (hdrop : file.drop (q + 30) = frameOctets n ++ behind) : n % 0x4000 ≠ 0 := by
  intro hopen
  have hlt := h.lt_length
  obtain ⟨-, -, hinvert⟩ := h.invert hn hdrop
  obtain ⟨hlength, -⟩ := hinvert hopen
  have hhigh := openLength_high (q := q) (by omega) hq
  have hwhole := congrArg List.length hdrop
  rw [length_drop, length_append, frameOctets_length] at hwhole
  change openLength (q + 32) ≤ behind.length at hlength
  omega

end Framed

/-- The octets from a place with two more on. -/
theorem exists_frame {file : Bytes} {p : Nat} (h : p + 2 ≤ file.length) :
    ∃ b0 b1 behind, file.drop p = frameOctets (frameValue b0 b1) ++ behind := by
  have hlength : (file.drop p).length = file.length - p := length_drop
  cases hdrop : file.drop p with
  | nil =>
      rw [hdrop] at hlength
      exact absurd hlength (by simp; omega)
  | cons b0 more =>
      cases more with
      | nil =>
        rw [hdrop] at hlength
        exact absurd hlength (by simp; omega)
      | cons b1 behind =>
        refine ⟨b0, b1, behind, ?_⟩
        rw [(frameOctets_eq_iff (frameValue_lt b0 b1)).mpr rfl]
        rfl

/-- What is read from behind the first anchor on has less than a whole frame. -/
theorem Framed.length_lt_of_high {file : Bytes} {isFirst : Bool} {p : Nat} {d : Bytes}
    (h : Framed file isFirst p d) (hsize : file.length < 2 ^ 32) {q : Nat} (hp : p = q + 30)
    (hq : 0x4000 ≤ q) : d.length < 0x4000 := by
  induction h generalizing q with
  | last b0 b1 hframe htype hlast hlength =>
      rw [length_take_of_le hlength]
      exact Nat.mod_lt _ (by omega)
  | @more isFirst p e b0 b1 hframe htype hopen hlength hnext ih =>
      subst hp
      have hframed := Framed.more b0 b1 hframe htype hopen hlength hnext
      have hlt := hframed.lt_length
      have hlow : frameOf q ≤ 0x4000 := by
        by_contra hhigh
        obtain ⟨c0, c1, behind, hdrop⟩ := exists_frame hlt
        have hnot := hframed.not_open_high hsize (Nat.lt_of_not_le hhigh)
          (frameValue_lt c0 c1) hdrop
        rw [hdrop, take_left' (frameOctets_length _),
          frameOctets_eq_iff (frameValue_lt c0 c1)] at hframe
        exact hnot (hframe ▸ hopen)
      have hnone : openLength (q + 30 + 2) = 0 := by
        have hat := (frameOf_eq_anchor hlow hq).2
        have hzero := openLength_low (q := q) (by omega) hlow
        rw [hat] at hzero
        exact hzero
      rw [hnone, take_zero, nil_append]
      rw [hnone] at ih
      exact ih (q := q + 2) (by omega) (by omega)

/-! ### Streams that are kept -/

/-- Whether a stream whose first octet is at `q`, with `after` behind its last, is read as it was
written: it is not empty, and
* off the anchors, it ends before the next one or, in the first segment, behind the first anchor
  and before the second;
* where the octets of a frame to an anchor would be, it ends before the next anchor, and it is
  the octets of its own frame that come next in it. -/
def KeptAt (q : Nat) (c after : Bytes) : Prop :=
  0 < c.length ∧
    if q % 0x4002 < 0x4000 then
      q % 0x4002 + c.length < 0x4000 ∨
        q < 0x4000 ∧ 0x4000 < q + c.length ∧ q + c.length < 0x8000
    else
      q % 0x4002 + c.length < 0x8000 ∧
        (frameOctets (0x4000 + c.length) ++ c <+: c ++ after ∨
          q = 0x4000 ∧
            frameOctets 0x4000 ++ frameOctets (0xc000 + c.length) ++ c <+: c ++ after)

instance (q : Nat) (c after : Bytes) : Decidable (KeptAt q c after) := by
  unfold KeptAt
  infer_instance

/-- Where the reading of a stream begins, whose first octet is at `q`. -/
def framesAt (q : Nat) : Nat := if q % 0x4002 < 0x4000 then q + 30 else q + 32

theorem room_off {q : Nat} (h : q % 0x4002 < 0x4000) : room q = 0x4000 - q % 0x4002 := by
  have hmod : frameOf q % 0x4000 = q % 0x4002 := strip_mod h
  unfold room
  rw [hmod]

theorem room_on {q : Nat} (h : 0x4000 ≤ q % 0x4002) : room q = 0x8000 - q % 0x4002 := by
  have hmod : frameOf q % 0x4000 = q % 0x4002 - 0x4000 :=
    strip_mod_of_le (by omega) (by omega) h
  have hlt : q % 0x4002 < 0x4002 := Nat.mod_lt _ (by omega)
  unfold room
  rw [hmod]
  omega

section Stream

variable {q : Nat} {c : Bytes}

theorem writeStream_last (hq : q + 32 < 2 ^ 32) (hpos : 0 < c.length) (hroom : c.length < room q) :
    writeStream (q + 30) c = frameOctets (0x4000 + c.length) ++ c := by
  obtain ⟨n, hn⟩ : ∃ n, c.length = n + 1 := ⟨c.length - 1, by omega⟩
  have hlast : writeFrames (n + 1) EFrameData16 (q + 30) (UInt32.ofNat c.length) c =
      frameOctets (EFrameData16.toNat + c.length) ++ c :=
    writeFrames_last (k := 1) rfl hq hpos hroom
  rw [← hn] at hlast
  exact hlast

theorem writeStream_open (hq : q + 32 < 2 ^ 32) (hsize : c.length < 2 ^ 32)
    (hroom : room q ≤ c.length) :
    writeStream (q + 30) c = frameOctets 0x4000 ++ c.take (room q) ++
      writeFrames (c.length - 1) EFrameContinuation16 (q + (2 + room q) + 30)
        (UInt32.ofNat (c.length - room q)) (c.drop (room q)) := by
  have hpos := room_pos q
  obtain ⟨n, hn⟩ : ∃ n, c.length = n + 1 := ⟨c.length - 1, by omega⟩
  unfold writeStream
  rw [hn] at hsize hroom ⊢
  exact writeFrames_open hq hsize hroom

/-- From the first segment to behind the first anchor, with the second frame there. -/
theorem writeStream_two (hsegment : q < 0x4000) (hbehind : 0x4000 < q + c.length)
    (hsecond : q + c.length < 0x8000) :
    writeStream (q + 30) c = frameOctets 0x4000 ++ (c.take (0x4000 - q) ++
      (frameOctets (0xc000 + (c.drop (0x4000 - q)).length) ++ c.drop (0x4000 - q))) := by
  have hroom : room q = 0x4000 - q := by
    rw [room_off (by omega), Nat.mod_eq_of_lt (by omega)]
  have hleft : (c.drop (0x4000 - q)).length = c.length - (0x4000 - q) := length_drop
  have hanchor : q + (2 + (0x4000 - q)) = 0x4002 := by omega
  have hroom2 : room 0x4002 = 0x4000 := by decide
  obtain ⟨n, hn⟩ : ∃ n, c.length - 1 = n + 1 := ⟨c.length - 2, by omega⟩
  have hlast : writeFrames (c.length - 1) EFrameContinuation16 (q + (2 + (0x4000 - q)) + 30)
      (UInt32.ofNat (c.length - (0x4000 - q))) (c.drop (0x4000 - q)) =
        frameOctets (0xc000 + (c.drop (0x4000 - q)).length) ++ c.drop (0x4000 - q) := by
    rw [hn, ← hleft, hanchor]
    exact writeFrames_last (k := 3) rfl (by omega) (by omega) (by omega)
  rw [writeStream_open (by omega) (by omega) (by omega), hroom, hlast, List.append_assoc]

theorem writeStream_two_length (hsegment : q < 0x4000) (hbehind : 0x4000 < q + c.length)
    (hsecond : q + c.length < 0x8000) : (writeStream (q + 30) c).length = c.length + 4 := by
  rw [writeStream_two hsegment hbehind hsecond, length_append, length_append,
    length_append, length_take, length_drop, frameOctets_length, frameOctets_length]
  omega

end Stream


section Kept

variable {file : Bytes} {q : Nat} {c rest : Bytes}

/-- The octets of what was written are in the file from there on. -/
theorem drop_behind {p : Nat} {xs ys : Bytes} (h : file.drop p = xs ++ ys) :
    file.drop (p + xs.length) = ys := by
  rw [← drop_drop, h, drop_left' rfl]

/-- A stream off the anchors that is kept is read. -/
theorem framed_of_keptAt_off (hsize : q + 0x8020 < 2 ^ 32) (hoff : q % 0x4002 < 0x4000)
    (hkept : KeptAt q c rest) (hdrop : file.drop (q + 30) = writeStream (q + 30) c ++ rest) :
    Framed file true (q + 30) c := by
  obtain ⟨hpos, hkept⟩ := hkept
  rw [if_pos hoff] at hkept
  have hroom := room_off hoff
  rcases hkept with hbefore | ⟨hsegment, hbehind, hsecond⟩
  · rw [writeStream_last (by omega) hpos (by omega), List.append_assoc] at hdrop
    exact .of_last (by omega) hdrop (by rw [if_pos rfl]; omega) (by omega) hpos
  · have htake : (c.take (0x4000 - q)).length = 0x4000 - q := length_take_of_le (by omega)
    have hleft : (c.drop (0x4000 - q)).length = c.length - (0x4000 - q) := length_drop
    rw [writeStream_two hsegment hbehind hsecond, List.append_assoc, List.append_assoc,
      List.append_assoc] at hdrop
    have hnext := drop_behind (drop_behind hdrop)
    rw [frameOctets_length, htake] at hnext
    have hsecondFrame : Framed file false (q + 30 + 2 + (0x4000 - q)) (c.drop (0x4000 - q)) :=
      .of_last (by omega) hnext (by rw [if_neg (by simp)]; omega) (by omega) (by omega)
    have hlow := frameOf_le_of_lt hsegment
    have hopen : Framed file true (q + 30) _ := .of_open (k := 1) (by omega) hdrop rfl (by
      rw [htake]
      show openLength (q + 32) = 0x4000 - q
      rw [openLength_low (by omega) (by omega), hlow]) (by
      rw [htake]
      exact hsecondFrame)
    rwa [take_append_drop] at hopen

/-- A stream at an anchor that is kept is read from two octets on. -/
theorem framed_of_keptAt_on (hsize : q + 0x8020 < 2 ^ 32) (hon : 0x4000 ≤ q % 0x4002)
    (hkept : KeptAt q c rest) (hdrop : file.drop (q + 30) = writeStream (q + 30) c ++ rest) :
    Framed file true (q + 32) c := by
  obtain ⟨hpos, hkept⟩ := hkept
  rw [if_neg (by omega)] at hkept
  have hroom := room_on hon
  obtain ⟨hbefore, hkept⟩ := hkept
  rw [writeStream_last (by omega) hpos (by omega), List.append_assoc] at hdrop
  have hpayload := drop_behind hdrop
  rcases hkept with ⟨z, hz⟩ | ⟨hq, z, hz⟩
  · rw [← hz, List.append_assoc] at hpayload
    exact .of_last (by omega) hpayload (by rw [if_pos rfl]; omega) (by omega) hpos
  · subst hq
    rw [← hz, List.append_assoc, List.append_assoc] at hpayload
    have hnext := drop_behind hpayload
    have hopen : Framed file true _ ([] ++ c) := .of_open (k := 1) (by omega) hpayload rfl (by
        show openLength (0x4002 + 32) = 0
        decide) (.of_last (by omega) hnext (by
        rw [if_neg (by simp)]
        omega) (by omega) hpos)
    exact hopen

end Kept

/-- A list that begins with two octets and is itself again behind them takes them in turn. -/
theorem getElem?_of_alternating {a b : UInt8} {c rest z : Bytes}
    (h : a :: b :: (c ++ z) = c ++ rest) {j : Nat} (hj : j < c.length + 2) :
    (c ++ rest)[j]? = some (if j % 2 = 0 then a else b) := by
  induction j using Nat.strong_induction_on with
  | h j ih =>
      match j with
      | 0 =>
        rw [← h]
        rfl
      | 1 =>
        rw [← h]
        rfl
      | j + 2 =>
        have hbefore := ih j (by omega) (by omega)
        rw [getElem?_append_left (by omega)] at hbefore
        rw [← h, getElem?_cons_succ, getElem?_cons_succ,
          getElem?_append_left (by omega), hbefore, Nat.add_mod_right]

section Converse

variable {file : Bytes} {q : Nat} {c rest : Bytes}

/-- A stream off the anchors that is read is kept. -/
theorem keptAt_of_framed_off (hsize : file.length < 2 ^ 32) (hoff : q % 0x4002 < 0x4000)
    (hdrop : file.drop (q + 30) = writeStream (q + 30) c ++ rest)
    (h : Framed file true (q + 30) c) : KeptAt q c rest := by
  have hpos := h.pos
  have hlength := h.length_le
  have hroom := room_off hoff
  refine ⟨hpos, ?_⟩
  rw [if_pos hoff]
  by_cases hbefore : q % 0x4002 + c.length < 0x4000
  · exact .inl hbefore
  · right
    rw [writeStream_open (by omega) (by omega) (by omega), List.append_assoc,
      List.append_assoc] at hdrop
    obtain ⟨-, -, hopen⟩ := h.invert (by omega) hdrop
    obtain ⟨-, e, hc, he⟩ := hopen (by omega)
    by_cases hsegment : q < 0x4000
    · have hq : q % 0x4002 = q := Nat.mod_eq_of_lt (by omega)
      have hlow := frameOf_le_of_lt hsegment
      have hend : openLength (q + 30 + 2) = room q := by
        have hlow' := openLength_low (q := q) (by omega) (by omega)
        rw [hlow] at hlow'
        rw [hroom, hq]
        exact hlow'
      rw [hend] at hc he
      have hfirst : ((c.take (room q) ++ (writeFrames (c.length - 1) EFrameContinuation16
          (q + (2 + room q) + 30) (UInt32.ofNat (c.length - room q)) (c.drop (room q)) ++
            rest)).take (room q)).length = room q := by
        rw [length_take, length_append, length_take]
        omega
      have hcount := congrArg List.length hc
      rw [length_append, hfirst] at hcount
      have hpose := he.pos
      have hlt := he.length_lt_of_high hsize (q := q + 2 + room q) (by omega) (by omega)
      exact ⟨hsegment, by omega, by omega⟩
    · exfalso
      have hlt := h.length_lt_of_high hsize (q := q) rfl (by omega)
      by_cases hlow : frameOf q ≤ 0x4000
      · obtain ⟨hat, -⟩ := frameOf_eq_anchor hlow (by omega)
        omega
      · exact h.not_open_high hsize (Nat.lt_of_not_le hlow) (by omega) hdrop (by omega)

/-- A stream at an anchor that is read is kept. -/
theorem keptAt_of_framed_on (hsize : file.length < 2 ^ 32) (hon : 0x4000 ≤ q % 0x4002)
    (hdrop : file.drop (q + 30) = writeStream (q + 30) c ++ rest)
    (hnext : ∃ t behind, rest = frameOctets t ++ behind ∧ t < 0x10000 ∧ t / 0x4000 ≠ 3)
    (h : Framed file true (q + 32) c) : KeptAt q c rest := by
  have hpos := h.pos
  have hlength := h.length_le
  have hroom := room_on hon
  have hlt := h.length_lt_of_high hsize (q := q + 2) (by omega) (by omega)
  have hmod := Nat.mod_lt q (show 0 < 0x4002 by omega)
  -- the octets of the stream are where its frames are looked for
  have hpayload : file.drop (q + 32) = c ++ rest := by
    by_cases hbefore : c.length < room q
    · rw [writeStream_last (by omega) hpos hbefore, List.append_assoc] at hdrop
      exact drop_behind hdrop
    · have hall : c.length - room q = 0 := by omega
      have hwhole : c.take (room q) = c := take_of_length_le (by omega)
      rw [writeStream_open (by omega) (by omega) (by omega), hall, hwhole] at hdrop
      rw [show UInt32.ofNat 0 = 0 from rfl, writeFrames_nothing, append_nil,
        List.append_assoc] at hdrop
      exact drop_behind hdrop
  obtain ⟨b0, b1, behind, hframe⟩ := exists_frame h.lt_length
  have hvalue := frameValue_lt b0 b1
  obtain ⟨htype, hlast, hopen⟩ := h.invert hvalue hframe
  rw [if_pos rfl] at htype
  refine ⟨hpos, ?_⟩
  rw [if_neg (by omega)]
  by_cases hzero : frameValue b0 b1 % 0x4000 = 0
  · -- an open frame is read only at the first anchor, and takes nothing
    obtain ⟨-, e, hc, he⟩ := hopen hzero
    have hlow : frameOf (q + 2) ≤ 0x4000 := by
      by_contra hhigh
      exact h.not_open_high (q := q + 2) hsize (Nat.lt_of_not_le hhigh) hvalue hframe hzero
    obtain ⟨hat, hframeOf⟩ := frameOf_eq_anchor hlow (by omega)
    have hq : q = 0x4000 := by omega
    subst hq
    have hnone : openLength (0x4000 + 32 + 2) = 0 := by decide
    rw [hnone, take_zero, nil_append] at hc
    rw [hnone] at he
    subst hc
    have hbehind : behind = file.drop (0x4000 + 34) := (drop_behind hframe).symm
    obtain ⟨d0, d1, behind2, hframe2⟩ := exists_frame he.lt_length
    have hvalue2 := frameValue_lt d0 d1
    obtain ⟨htype2, hlast2, -⟩ := he.invert hvalue2 hframe2
    rw [if_neg (by simp)] at htype2
    have hnot := he.not_open_high (q := 0x4004) hsize (by decide) hvalue2 hframe2
    obtain ⟨hle, hc⟩ := hlast2 hnot
    have hcount := congrArg List.length hc
    rw [length_take_of_le hle] at hcount
    refine ⟨by omega, .inr ⟨rfl, ?_⟩⟩
    have h1 : frameValue b0 b1 = 0x4000 := by omega
    have h2 : frameValue d0 d1 = 0xc000 + c.length := by omega
    rw [h1, hbehind] at hframe
    rw [h2] at hframe2
    have hsplit : c = behind2.take c.length := by rw [hcount]; exact hc
    rw [← hpayload, hframe, List.append_assoc, prefix_append_right_inj]
    show frameOctets (0xc000 + c.length) ++ c <+: file.drop (0x4000 + 32 + 2 + 0)
    rw [hframe2, prefix_append_right_inj, hsplit]
    exact take_prefix _ _
  · obtain ⟨hle, hc⟩ := hlast hzero
    have hcount := congrArg List.length hc
    rw [length_take_of_le hle] at hcount
    have hframeValue : frameValue b0 b1 = 0x4000 + c.length := by omega
    have hsplit : c = behind.take c.length := by rw [hcount]; exact hc
    obtain ⟨z, hz⟩ : c <+: behind := by
      rw [hsplit]
      exact take_prefix _ _
    rw [hframeValue, hpayload] at hframe
    refine ⟨?_, .inl ⟨z, by rw [hframe, ← hz, List.append_assoc]⟩⟩
    -- a stream that ends at the anchor is followed by a continuation, and none is there
    by_contra hend
    have hfull : c.length = 0x3fff := by omega
    obtain ⟨t, behind2, hrest, ht, htype2⟩ := hnext
    rw [← hz, hfull] at hframe
    have hturn : 0xff :: 0x7f :: (c ++ z) = c ++ rest := hframe.symm
    have hlow := getElem?_of_alternating hturn (j := 0x3fff) (by omega)
    have hhigh := getElem?_of_alternating hturn (j := 0x4000) (by omega)
    rw [getElem?_append_right (by omega), hfull, hrest] at hlow hhigh
    have hlow' : ofNat t = 0x7f := Option.some.inj hlow
    have hhigh' : ofNat (t / 0x100) = 0xff := Option.some.inj hhigh
    have heq : frameOctets t = [0x7f, 0xff] := by rw [← hlow', ← hhigh']; rfl
    rw [frameOctets_eq_iff ht] at heq
    rw [heq] at htype2
    exact htype2 (by decide)

end Converse

end Certapp

end OsSecurity

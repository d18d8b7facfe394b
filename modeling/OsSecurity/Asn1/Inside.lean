/-
When an element that `InitL` accepts lies inside the string.

The test at the end of `InitL` is meant to say so, and it is made on 32-bit numbers: the
length octets are added up in a `TInt`, which keeps the low 32 bits of them, and the
position is added to that before the comparison.  `encodedLength` and `headerLength` are
the same quantities as the string has them, without a width.  The element is inside, with
the length that is written, exactly when their sum is a `TInt`.
-/
import OsSecurity.Asn1.Generic
import OsSecurity.Library.Der

namespace OsSecurity

open List TInt

/-! ### What a string says -/

/-- The octets of the tag at the start of a string. -/
def tagField : Bytes → Bytes
  | [] => []
  | b :: bs =>
    if b &&& 0x1f = 0x1f then
      b :: (bs.takeWhile (128 ≤ ·) ++ (bs.dropWhile (128 ≤ ·)).take 1)
    else [b]

/-- The octets of the length behind the tag. -/
def lengthField (aSource : Bytes) : Bytes :=
  match aSource.drop (tagField aSource).length with
  | [] => []
  | l :: rest => if 128 < l then l :: rest.take (l &&& 127).toNat else [l]

/-- The number that length octets stand for. -/
def lengthFieldValue : Bytes → Nat
  | [] => 0
  | [l] => l.toNat
  | _ :: ls => Der.value ls

def encodedLength (aSource : Bytes) : Nat := lengthFieldValue (lengthField aSource)

def headerLength (aSource : Bytes) : Nat :=
  (tagField aSource).length + (lengthField aSource).length

namespace TASN1DecGeneric

/-- What the callers of `InitL` take for granted. -/
structure Inside (aSource : Bytes) (g : TASN1DecGeneric) : Prop where
  start : 0 ≤ g.iStartOfContents
  length : 0 ≤ g.lengthDERContent
  contents : g.iStartOfContents + g.lengthDERContent ≤ aSource.length
  lengthDER : 0 < g.lengthDER
  /-- the length is the one that is written -/
  written : g.lengthDERContent = encodedLength aSource

end TASN1DecGeneric

/-! ### The fields of an accepted header -/

theorem TagOctets.tagField_eq {t : Bytes} {T : UInt32} (h : TagOctets t T) (rest : Bytes) :
    tagField (t ++ rest) = t := by
  cases h with
  | low hb => exact if_neg hb
  | @high b c cs hb hcs hc =>
      have hc' : ¬ 128 ≤ c := UInt8.not_le.mpr hc
      have htake : (cs ++ c :: rest).takeWhile (128 ≤ ·) = cs := by
        rw [takeWhile_append_of_pos (by simpa using hcs), takeWhile_cons]
        simp [hc']
      have hdrop : (cs ++ c :: rest).dropWhile (128 ≤ ·) = c :: rest := by
        rw [dropWhile_append_of_pos (by simpa using hcs), dropWhile_cons]
        simp [hc']
      show tagField (b :: (cs ++ [c] ++ rest)) = b :: cs ++ [c]
      rw [List.append_assoc, singleton_append, tagField, if_pos hb, htake, hdrop]
      rfl

theorem LengthOctets.lengthField_eq {t l : Bytes} {T : UInt32} {L : Int} (ht : TagOctets t T)
    (hl : LengthOctets l L) (rest : Bytes) : lengthField (t ++ l ++ rest) = l := by
  unfold lengthField
  rw [List.append_assoc, ht.tagField_eq, drop_left]
  cases hl with
  | short h => exact if_neg (UInt8.not_lt.mpr (UInt8.le_of_lt h))
  | @long x ls h hls =>
      show (if 128 < x then x :: (ls ++ rest).take (x &&& 127).toNat else [x]) = x :: ls
      rw [if_pos h, ← hls, take_left]

/-- Adding length octets up in 32 bits gives the low 32 bits of their number. -/
theorem lengthValue_eq (x : Int) (ls : Bytes) :
    lengthValue (wrap x) ls = wrap (x * 256 ^ ls.length + Der.value ls) := by
  induction ls generalizing x with
  | nil => simp [lengthValue, Der.value]
  | cons b ls ih =>
      have hstep : wrap (wrap (wrap x * 256) + b.toNat)
          = wrap (x * 256 + b.toNat) := by
        unfold wrap
        rw [Int.bmod_add_bmod, ← Int.bmod_add_bmod, Int.bmod_mul_bmod, Int.bmod_add_bmod]
      show lengthValue (wrap (wrap (wrap x * 256) + b.toNat)) ls = _
      rw [hstep, ih, Der.value_cons, length_cons, pow_succ]
      push_cast
      ring_nf

theorem LengthOctets.value_eq {l : Bytes} {L : Int} (h : LengthOctets l L) :
    L = wrap (lengthFieldValue l) := by
  cases h with
  | @short b h =>
      refine (wrap_of_range ?_ ?_).symm
      · unfold KMinTInt
        omega
      · have := b.toNat_lt
        show (b.toNat : Int) ≤ KMaxTInt
        unfold KMaxTInt
        omega
  | @long x ls h hls =>
      have hpos : 0 < ls.length := by
        rw [hls]
        exact long_count_pos h
      cases ls with
      | nil => exact absurd hpos (by simp)
      | cons b ls =>
        have := lengthValue_eq 0 (b :: ls)
        rw [Int.zero_mul, Int.zero_add] at this
        exact this

namespace TASN1DecGeneric

variable {aSource : Bytes} {g : TASN1DecGeneric}

/-- **An element that `InitL` accepts is inside the string, with the length that is written,
exactly when that length and the header add up to a `TInt`.** -/
theorem inside_iff (hlen : aSource.length ≤ KMaxTInt) (h : initL aSource = .ok g) :
    Inside aSource g ↔ (encodedLength aSource : Int) + headerLength aSource ≤ KMaxTInt := by
  obtain ⟨t, l, rest, h⟩ := initL_eq_ok.mp h
  have ht : tagField aSource = t := by
    rw [h.source, List.append_assoc]
    exact h.tag.tagField_eq _
  have hl : lengthField aSource = l := by
    rw [h.source]
    exact h.length.lengthField_eq h.tag rest
  have hstart : g.iStartOfContents = headerLength aSource := by
    rw [h.start, headerLength, ht, hl, length_append]
  have hvalue : g.iLength = TInt.wrap (encodedLength aSource) := by
    rw [encodedLength, hl]
    exact h.length.value_eq
  have hheader : 0 < headerLength aSource := by
    have := length_pos_iff.mpr h.tag.ne_nil
    rw [headerLength, ht]
    omega
  constructor
  · intro hin
    have hcontents := hin.contents
    rw [hin.written, hstart] at hcontents
    omega
  · intro hfits
    have hexact : g.iLength = encodedLength aSource := by
      rw [hvalue]
      exact TInt.wrap_of_range (by unfold KMinTInt; omega) (by omega)
    have hder : g.lengthDER = encodedLength aSource + headerLength aSource := by
      unfold lengthDER
      rw [hexact, hstart]
      exact TInt.wrap_of_range (by unfold KMinTInt; omega) hfits
    have hinside := h.fits
    rw [← h.start] at hinside
    change g.lengthDER ≤ aSource.length at hinside
    refine ⟨?_, ?_, ?_, ?_, hexact⟩
    · omega
    · exact h.nonneg
    · unfold lengthDERContent
      omega
    · omega

theorem inside_iff_null : Inside [5, 0] ⟨[5, 0], 2, 0, 5, .EUniversal⟩ ↔
    (encodedLength [5, 0] : Int) + headerLength [5, 0] ≤ KMaxTInt :=
  inside_iff (by decide) (by decide)

/-- Seven octets of which the last is the contents, and the contents said to be 2147483647
octets long. -/
theorem not_inside : ∃ g, initL [4, 0x84, 0x7f, 0xff, 0xff, 0xff, 0] = .ok g ∧
    ¬ Inside [4, 0x84, 0x7f, 0xff, 0xff, 0xff, 0] g := by
  refine ⟨⟨[4, 0x84, 0x7f, 0xff, 0xff, 0xff, 0], 6, 2147483647, 4, .EUniversal⟩, by decide, ?_⟩
  intro hin
  exact absurd hin.contents (by decide)

end TASN1DecGeneric

end OsSecurity

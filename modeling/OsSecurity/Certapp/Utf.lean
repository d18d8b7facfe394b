/-
The two converters of `utf.cpp`, and what they make of a character.

Each converter is given the room in its destination and ends at a character that does not fit.
`fromUnicode_fits` and `toUnicode_wellFormed` are the loops over well formed UTF-16: the octets
of the characters that fit, and from those octets the characters again.
-/
import OsSecurity.Streams

namespace OsSecurity

open List Nat UInt16

variable {c x n : Nat} {b : Bytes}

namespace CnvUtfConverter

def EErrorIllFormedInput : Int := KErrCorrupt

/-! ### From Unicode to UTF-8 -/

/-- `STATIC_CAST(TUint8, ..)` -/
def octet (n : Nat) : UInt8 := UInt8.ofNat n

/-- U+0080..U+07FF -/
def octets2 (c : Nat) : Bytes := [octet (0xc0 ||| (c >>> 6)), octet (0x80 ||| (c &&& 0x3f))]

/-- U+800..U+FFFF -/
def octets3 (c : Nat) : Bytes :=
  [octet (0xe0 ||| (c >>> 12)), octet (0x80 ||| ((c >>> 6) &&& 0x3f)), octet (0x80 ||| (c &&& 0x3f))]

/-- U+10000..U+10FFFF -/
def octets4 (ch : Nat) : Bytes :=
  [octet (0xf0 ||| (ch >>> 18)), octet (0x80 ||| ((ch >>> 12) &&& 0x3f)),
    octet (0x80 ||| ((ch >>> 6) &&& 0x3f)), octet (0x80 ||| (ch &&& 0x3f))]

/-- The character of a surrogate pair. -/
def paired (high low : UInt16) : Nat :=
  (((high.toNat - 0xD800) <<< 10) ||| (low.toNat - 0xDC00)) + 0x10000

/-- The loop, with room for so many octets.  It ends at a character that does not fit.  A result
of its own is there for input that is ill formed: nothing is written then. -/
def fromUnicode (aGenerateJavaConformantUtf8 : Bool) : Nat → Bytes → Text → Bytes × Int
  | _, aUtf8, [] => (aUtf8, 0)
  | room, aUtf8, u :: rest =>
    if room = 0 then (aUtf8, (u :: rest).length)
    else if u.toNat < 0x80 then
      if aGenerateJavaConformantUtf8 ∧ u.toNat = 0 then
        if room < 2 then (aUtf8, (u :: rest).length)
        else fromUnicode aGenerateJavaConformantUtf8 (room - 2) (aUtf8 ++ [0xc0, 0x80]) rest
      else fromUnicode aGenerateJavaConformantUtf8 (room - 1) (aUtf8 ++ [octet u.toNat]) rest
    else if u.toNat < 0x800 then
      if room < 2 then (aUtf8, (u :: rest).length)
      else fromUnicode aGenerateJavaConformantUtf8 (room - 2) (aUtf8 ++ octets2 u.toNat) rest
    else if u.toNat &&& 0xfc00 = 0xd800 ∧ ¬aGenerateJavaConformantUtf8 then
      if room < 4 then (aUtf8, (u :: rest).length)
      else
        match rest with
        -- the middle of a surrogate pair, an error where it is all there is
        | [] => if aUtf8 = [] then ([], EErrorIllFormedInput) else (aUtf8, 1)
        | low :: rest =>
          if low.toNat &&& 0xfc00 ≠ 0xdc00 then ([], EErrorIllFormedInput)
          else fromUnicode aGenerateJavaConformantUtf8 (room - 4)
            (aUtf8 ++ octets4 (paired u low)) rest
    else
      if room < 3 then (aUtf8, (u :: rest).length)
      else fromUnicode aGenerateJavaConformantUtf8 (room - 3) (aUtf8 ++ octets3 u.toNat) rest

/-- What is in the destination, and what is returned: the number of units left over. -/
def convertFromUnicodeToUtf8 (maxLength : Nat) (aUnicode : Text) : Bytes × Int :=
  fromUnicode false maxLength [] aUnicode

/-! ### From UTF-8 to Unicode -/

def replacementcharacter : Nat := 0xFFFD

def sequenceLength (aGenerateJavaConformantUtf8 : Bool) (lead : Nat) (rest : Bytes) : Nat :=
  if 0xc2 ≤ lead ∧ lead ≤ 0xdf then 2
  else if lead &&& 0xf0 = 0xe0 then 3
  else if 0xf0 ≤ lead ∧ lead < 0xf5 then 4
  else if lead = 0xc0 ∧ aGenerateJavaConformantUtf8 ∧ (rest = [] ∨ rest.head? = some 0x80) then 2
  else 1

/-- The trailing octets begin with 10. -/
def trailing : Nat → Bytes → Option Nat
  | c, [] => some c
  | c, b :: rest =>
    if b.toNat &&& 0xc0 = 0x80 then trailing ((c <<< 6) ||| (b.toNat &&& 0x3f)) rest else none

/-- The rows of the table of well formed sequences that the loop tests for, and no surrogate. -/
def conformant (length lead second c : Nat) : Bool :=
  ¬(length = 3 ∧ lead = 0xE0 ∧ second < 0xA0) ∧ ¬(length = 3 ∧ lead = 0xED ∧ 0x9F < second) ∧
    ¬(length = 4 ∧ lead = 0xF0 ∧ second < 0x90) ∧ ¬(length = 4 ∧ lead = 0xF4 ∧ 0x8F < second) ∧
    ¬(0xD800 ≤ c ∧ c ≤ 0xDFFF)

/-- A character at the front, and the octets it takes; `none` where it is cut off. -/
def character (aGenerateJavaConformantUtf8 : Bool) : Bytes → Option (Nat × Nat)
  | [] => none
  | lead :: rest =>
    if lead.toNat < 0x80 then some (lead.toNat, 1)
    else
      let length := sequenceLength aGenerateJavaConformantUtf8 lead.toNat rest
      if length = 1 then some (replacementcharacter, 1)
      else if (lead :: rest).length < length then none
      else
        match trailing (lead.toNat &&& (0x7F >>> length)) (rest.take (length - 1)) with
        | none => some (replacementcharacter, 1)
        | some c =>
          if c = replacementcharacter ∨ conformant length lead.toNat (rest.headD 0).toNat c then
            some (c, length)
          else some (replacementcharacter, 1)

/-- The loop, with room for so many units. -/
def toUnicode (aGenerateJavaConformantUtf8 : Bool) : Nat → Text → Bytes → Text × Int
  | 0, aUnicode, aUtf8 => (aUnicode, aUtf8.length)
  | room + 1, aUnicode, aUtf8 =>
    if aUtf8 = [] then (aUnicode, 0)
    else
      match character aGenerateJavaConformantUtf8 aUtf8 with
      | none => if aUnicode = [] then ([], EErrorIllFormedInput) else (aUnicode, aUtf8.length)
      | some (c, length) =>
        if 0xFFFF < c then
          match room with
          | 0 => (aUnicode, aUtf8.length)
          | room + 1 =>
            toUnicode aGenerateJavaConformantUtf8 room
              (aUnicode ++ [ofNat ((c >>> 10) + 0xD7C0), ofNat ((c &&& 0x3FF) + 0xDC00)])
              (aUtf8.drop length)
        else toUnicode aGenerateJavaConformantUtf8 room (aUnicode ++ [ofNat c])
          (aUtf8.drop length)

/-- What is in the destination, and what is returned: the number of octets left over. -/
def convertToUnicodeFromUtf8 (maxLength : Nat) (aUtf8 : Bytes) : Text × Int :=
  toUnicode false maxLength [] aUtf8

/-! ### A character there and back -/

theorem toNat_octet (h : n < 256) : (octet n).toNat = n :=
  (UInt8.toNat_ofNat').trans (mod_eq_of_lt h)

/-- A trailing octet. -/
theorem trail_eq (h : x < 64) : 0x80 ||| x = 0x80 + x := by
  have hor := two_pow_add_eq_or_of_lt (i := 6) h 2
  exact hor.symm

theorem trail_mark (h : x < 64) : (0x80 + x) &&& 0xc0 = 0x80 := by
  revert x
  decide

theorem trail_bits (h : x < 64) : (0x80 + x) &&& 0x3f = x := by
  revert x
  decide

theorem shift_or (h : x < 64) : (c <<< 6) ||| x = 64 * c + x := by
  rw [← shiftLeft_add_eq_or_of_lt (i := 6) h, shiftLeft_eq]
  omega

theorem low_bits (c : Nat) : c &&& 0x3f = c % 64 := and_two_pow_sub_one_eq_mod c 6

theorem octets2_eq (h : c < 0x800) :
    octets2 c = [octet (0xc0 + c / 64), octet (0x80 + c % 64)] := by
  have hlead : 0xc0 ||| c / 64 = 0xc0 + c / 64 := by
    have hor := two_pow_add_eq_or_of_lt (i := 6) (b := c / 64) (by omega) 3
    exact hor.symm
  have hlow := mod_lt c (show 0 < 64 by decide)
  rw [octets2, low_bits, trail_eq hlow, shiftRight_eq_div_pow]
  rw [show 2 ^ 6 = 64 from rfl, hlead]

theorem octets3_eq (h : c < 0x10000) :
    octets3 c = [octet (0xe0 + c / 4096), octet (0x80 + c / 64 % 64), octet (0x80 + c % 64)] := by
  have hlead : 0xe0 ||| c / 4096 = 0xe0 + c / 4096 := by
    have hor := two_pow_add_eq_or_of_lt (i := 5) (b := c / 4096) (by omega) 7
    exact hor.symm
  have hlow := mod_lt c (show 0 < 64 by decide)
  have hmid := mod_lt (c / 64) (show 0 < 64 by decide)
  rw [octets3, low_bits, low_bits, shiftRight_eq_div_pow, shiftRight_eq_div_pow]
  rw [show 2 ^ 6 = 64 from rfl, show 2 ^ 12 = 4096 from rfl, hlead, trail_eq hlow, trail_eq hmid]

theorem octets4_eq (h : c < 0x110000) : octets4 c =
    [octet (0xf0 + c / 262144), octet (0x80 + c / 4096 % 64), octet (0x80 + c / 64 % 64),
      octet (0x80 + c % 64)] := by
  have hlead : 0xf0 ||| c / 262144 = 0xf0 + c / 262144 := by
    have hor := two_pow_add_eq_or_of_lt (i := 4) (b := c / 262144) (by omega) 15
    exact hor.symm
  have hlow := mod_lt c (show 0 < 64 by decide)
  have hmid := mod_lt (c / 64) (show 0 < 64 by decide)
  have hhigh := mod_lt (c / 4096) (show 0 < 64 by decide)
  rw [octets4, low_bits, low_bits, low_bits, shiftRight_eq_div_pow, shiftRight_eq_div_pow,
    shiftRight_eq_div_pow]
  rw [show 2 ^ 6 = 64 from rfl, show 2 ^ 12 = 4096 from rfl, show 2 ^ 18 = 262144 from rfl, hlead,
    trail_eq hlow, trail_eq hmid, trail_eq hhigh]

/-- The bits of a trailing octet go behind those there are. -/
theorem trailing_cons (hx : x < 64) (rest : Bytes) :
    trailing c (octet (0x80 + x) :: rest) = trailing (64 * c + x) rest := by
  rw [trailing, toNat_octet (by omega), if_pos (trail_mark hx), trail_bits hx, shift_or hx]

theorem character_ascii (h : c < 0x80) (tail : Bytes) :
    character false (octet c :: tail) = some (c, 1) := by
  rw [character, toNat_octet (by omega), if_pos h]

/-- A sequence that is all there, with trailing octets that add up to `c`. -/
theorem character_of_trailing {lead length : Nat} {rest tail : Bytes} (hlead : lead < 256)
    (hrest : rest.length + 1 = length)
    (hlength : ∀ tail, sequenceLength false lead (rest ++ tail) = length) (hascii : 0x80 ≤ lead)
    (hone : 1 < length) (htrailing : trailing (lead &&& (0x7F >>> length)) rest = some c)
    (hconformant : ∀ tail, conformant length lead ((rest ++ tail).headD 0).toNat c = true) :
    character false (octet lead :: (rest ++ tail)) = some (c, length) := by
  have htake : (rest ++ tail).take (length - 1) = rest := by
    rw [← hrest, Nat.add_sub_cancel, take_left]
  have hall : ¬(octet lead :: (rest ++ tail)).length < length := by
    rw [length_cons, length_append]
    omega
  rw [character, toNat_octet hlead, if_neg (by omega)]
  simp only [hlength, htake, htrailing]
  rw [if_neg (by omega), if_neg hall, if_pos (Or.inr (hconformant tail))]

theorem character_octets2 (hlow : 0x80 ≤ c) (hhigh : c < 0x800) (tail : Bytes) :
    character false (octets2 c ++ tail) = some (c, 2) := by
  have hbits : (0xc0 + c / 64) &&& (0x7F >>> 2) = c / 64 := by
    have hall : ∀ x < 32, (0xc0 + x) &&& (0x7F >>> 2) = x := by decide
    exact hall _ (by omega)
  rw [octets2_eq hhigh]
  refine character_of_trailing (by omega) rfl (fun tail => ?_) (by omega) (by omega) ?_
    fun tail => ?_
  · exact if_pos ⟨by omega, by omega⟩
  · rw [hbits, trailing_cons (mod_lt c (by decide)), trailing, Option.some.injEq]
    omega
  · simp [conformant]
    omega

theorem character_octets3 (hlow : 0x800 ≤ c) (hhigh : c < 0x10000)
    (hsurrogate : ¬(0xD800 ≤ c ∧ c ≤ 0xDFFF)) (tail : Bytes) :
    character false (octets3 c ++ tail) = some (c, 3) := by
  have hbits : (0xe0 + c / 4096) &&& (0x7F >>> 3) = c / 4096 := by
    have hall : ∀ x < 16, (0xe0 + x) &&& (0x7F >>> 3) = x := by decide
    exact hall _ (by omega)
  have hmark : (0xe0 + c / 4096) &&& 0xf0 = 0xe0 := by
    have hall : ∀ x < 16, (0xe0 + x) &&& 0xf0 = 0xe0 := by decide
    exact hall _ (by omega)
  have hsecond : (octet (0x80 + c / 64 % 64)).toNat = 0x80 + c / 64 % 64 :=
    toNat_octet (by omega)
  rw [octets3_eq hhigh]
  refine character_of_trailing (by omega) rfl (fun tail => ?_) (by omega) (by omega) ?_
    fun tail => ?_
  · rw [sequenceLength, if_neg (by omega), if_pos hmark]
  · rw [hbits, trailing_cons (mod_lt _ (by decide)), trailing_cons (mod_lt _ (by decide)),
      trailing, Option.some.injEq]
    omega
  · simp only [conformant, cons_append, headD_cons, hsecond]
    simp
    omega

theorem character_octets4 (hlow : 0x10000 ≤ c) (hhigh : c < 0x110000) (tail : Bytes) :
    character false (octets4 c ++ tail) = some (c, 4) := by
  have hbits : (0xf0 + c / 262144) &&& (0x7F >>> 4) = c / 262144 := by
    have hall : ∀ x < 5, (0xf0 + x) &&& (0x7F >>> 4) = x := by decide
    exact hall _ (by omega)
  have hmark : ¬(0xf0 + c / 262144) &&& 0xf0 = 0xe0 := by
    have hall : ∀ x < 5, ¬(0xf0 + x) &&& 0xf0 = 0xe0 := by decide
    exact hall _ (by omega)
  have hsecond : (octet (0x80 + c / 4096 % 64)).toNat = 0x80 + c / 4096 % 64 :=
    toNat_octet (by omega)
  rw [octets4_eq hhigh]
  refine character_of_trailing (by omega) rfl (fun tail => ?_) (by omega) (by omega) ?_
    fun tail => ?_
  · rw [sequenceLength, if_neg (by omega), if_neg hmark, if_pos ⟨by omega, by omega⟩]
  · rw [hbits, trailing_cons (mod_lt _ (by decide)), trailing_cons (mod_lt _ (by decide)),
      trailing_cons (mod_lt _ (by decide)), trailing, Option.some.injEq]
    omega
  · simp only [conformant, cons_append, headD_cons, hsecond]
    simp
    omega

/-! ### Text -/

def isSurrogate (u : UInt16) : Prop := 0xD800 ≤ u.toNat ∧ u.toNat ≤ 0xDFFF

/-- A surrogate pair. -/
structure IsPair (high low : UInt16) : Prop where
  high_ge : 0xD800 ≤ high.toNat
  high_lt : high.toNat < 0xDC00
  low_ge : 0xDC00 ≤ low.toNat
  low_lt : low.toNat < 0xE000

/-- UTF-16 without half a pair. -/
inductive WellFormed : Text → Prop where
  | nil : WellFormed []
  | unit {u : UInt16} {rest : Text} (hu : ¬isSurrogate u) (hrest : WellFormed rest) :
      WellFormed (u :: rest)
  | pair {high low : UInt16} {rest : Text} (hpair : IsPair high low) (hrest : WellFormed rest) :
      WellFormed (high :: low :: rest)

/-- The octets of a character of one unit. -/
def unitOctets (u : UInt16) : Bytes :=
  if u.toNat < 0x80 then [octet u.toNat]
  else if u.toNat < 0x800 then octets2 u.toNat
  else octets3 u.toNat

/-- A text and its octets. -/
inductive Encodes : Text → Bytes → Prop where
  | nil : Encodes [] []
  | unit {u : UInt16} {rest : Text} {b : Bytes} (hu : ¬isSurrogate u) (hrest : Encodes rest b) :
      Encodes (u :: rest) (unitOctets u ++ b)
  | pair {high low : UInt16} {rest : Text} {b : Bytes} (hpair : IsPair high low)
      (hrest : Encodes rest b) : Encodes (high :: low :: rest) (octets4 (paired high low) ++ b)

theorem WellFormed.encodes {t : Text} (h : WellFormed t) : ∃ b, Encodes t b := by
  induction h with
  | nil => exact ⟨[], .nil⟩
  | unit hu _ ih =>
      obtain ⟨b, hb⟩ := ih
      exact ⟨_, hb.unit hu⟩
  | pair hpair _ ih =>
      obtain ⟨b, hb⟩ := ih
      exact ⟨_, hb.pair hpair⟩

/-- The upper six of sixteen bits. -/
theorem and_fc00 (h : n < 0x10000) : n &&& 0xfc00 = n / 1024 * 1024 := by
  have hdiv : (n &&& 0xfc00) / 1024 = n / 1024 := by
    have hbits : (n &&& 0xfc00) / 2 ^ 10 = n / 2 ^ 10 &&& 0xfc00 / 2 ^ 10 := and_div_two_pow
    have hlow : n / 1024 &&& 63 = n / 1024 % 64 := and_two_pow_sub_one_eq_mod _ 6
    have hall : n / 1024 % 64 = n / 1024 := mod_eq_of_lt (by omega)
    exact hbits.trans (hlow.trans hall)
  have hmod : (n &&& 0xfc00) % 1024 = 0 := by
    have hbits : (n &&& 0xfc00) % 2 ^ 10 = n % 2 ^ 10 &&& 0xfc00 % 2 ^ 10 := and_mod_two_pow
    have hnone : n % 1024 &&& 0 = 0 := and_zero _
    exact hbits.trans hnone
  omega

theorem paired_eq {high low : UInt16} (h : IsPair high low) :
    paired high low = 1024 * (high.toNat - 0xD800) + (low.toNat - 0xDC00) + 0x10000 := by
  obtain ⟨h1, h2, h3, h4⟩ := h
  rw [paired, ← shiftLeft_add_eq_or_of_lt (i := 10) (by omega), shiftLeft_eq]
  omega

theorem octets4_length (c : Nat) : (octets4 c).length = 4 := rfl

/-! ### The loops -/

section Loops

variable {u high low : UInt16}

theorem fromUnicode_unit (hu : ¬isSurrogate u) (room : Nat) (out : Bytes) (rest : Text) :
    fromUnicode false room out (u :: rest) =
      if room < (unitOctets u).length then (out, ((u :: rest).length : Int))
      else fromUnicode false (room - (unitOctets u).length) (out ++ unitOctets u) rest := by
  have hsmall := u.toNat_lt
  have hmask : ¬u.toNat &&& 0xfc00 = 0xd800 := by
    rw [and_fc00 hsmall]
    unfold isSurrogate at hu
    omega
  rw [fromUnicode.eq_def]
  dsimp only
  unfold unitOctets
  by_cases hroom : room = 0
  · have hlength : 0 < (unitOctets u).length := by
      unfold unitOctets
      split
      · exact Nat.one_pos
      · split <;> exact succ_pos _
    rw [if_pos hroom, if_pos]
    rw [hroom]
    exact hlength
  · rw [if_neg hroom]
    by_cases hascii : u.toNat < 0x80
    · rw [if_pos hascii, if_pos hascii, if_neg (by simp), length_singleton,
        if_neg (by omega)]
    · rw [if_neg hascii, if_neg hascii]
      by_cases htwo : u.toNat < 0x800
      · rw [if_pos htwo, if_pos htwo]
        rfl
      · rw [if_neg htwo, if_neg htwo, if_neg (fun h => hmask h.1)]
        rfl

theorem fromUnicode_pair (h : IsPair high low) (room : Nat) (out : Bytes) (rest : Text) :
    fromUnicode false room out (high :: low :: rest) =
      if room < 4 then (out, ((high :: low :: rest).length : Int))
      else fromUnicode false (room - 4) (out ++ octets4 (paired high low)) rest := by
  have hhigh : high.toNat &&& 0xfc00 = 0xd800 := by
    rw [and_fc00 high.toNat_lt]
    have hge := h.high_ge
    have hlt := h.high_lt
    omega
  have hlow : low.toNat &&& 0xfc00 = 0xdc00 := by
    rw [and_fc00 low.toNat_lt]
    have hge := h.low_ge
    have hlt := h.low_lt
    omega
  have hge := h.high_ge
  rw [fromUnicode.eq_def]
  dsimp only
  by_cases hroom : room = 0
  · rw [if_pos hroom, if_pos (by omega)]
  · rw [if_neg hroom, if_neg (show ¬high.toNat < 0x80 by omega),
      if_neg (show ¬high.toNat < 0x800 by omega), if_pos ⟨hhigh, by simp⟩]
    by_cases hfour : room < 4
    · rw [if_pos hfour, if_pos hfour]
    · rw [if_neg hfour, if_neg hfour]
      exact if_neg fun hne => hne hlow

/-- The octets of the characters that fit.  With room for all of them nothing is left over. -/
theorem fromUnicode_fits {t : Text} (h : Encodes t b) (room : Nat) (out : Bytes) :
    ∃ done rest b', t = done ++ rest ∧ Encodes done b' ∧
      (fromUnicode false room out t).1 = out ++ b' ∧ b'.length ≤ room ∧
      (b.length ≤ room → rest = []) := by
  induction h generalizing room out with
  | nil => exact ⟨[], [], [], rfl, .nil, by simp [fromUnicode], Nat.zero_le _, fun _ => rfl⟩
  | @unit u rest b hu _ ih =>
      rw [fromUnicode_unit hu]
      by_cases hroom : room < (unitOctets u).length
      · rw [if_pos hroom]
        refine ⟨[], u :: rest, [], rfl, .nil, by simp, Nat.zero_le _, fun hfits => ?_⟩
        rw [length_append] at hfits
        omega
      · rw [if_neg hroom]
        obtain ⟨done, left, b', rfl, hdone, hout, hlength, hall⟩ :=
          ih (room - (unitOctets u).length) (out ++ unitOctets u)
        refine ⟨u :: done, left, unitOctets u ++ b', rfl, hdone.unit hu, ?_, ?_, fun hfits => ?_⟩
        · rw [hout, List.append_assoc]
        · rw [length_append]
          omega
        · rw [length_append] at hfits
          exact hall (by omega)
  | @pair high low rest b hpair _ ih =>
      rw [fromUnicode_pair hpair]
      by_cases hroom : room < 4
      · rw [if_pos hroom]
        refine ⟨[], high :: low :: rest, [], rfl, .nil, by simp, Nat.zero_le _, fun hfits => ?_⟩
        rw [length_append, octets4_length] at hfits
        omega
      · rw [if_neg hroom]
        obtain ⟨done, left, b', rfl, hdone, hout, hlength, hall⟩ :=
          ih (room - 4) (out ++ octets4 (paired high low))
        refine ⟨high :: low :: done, left, octets4 (paired high low) ++ b', rfl,
          hdone.pair hpair, ?_, ?_, fun hfits => ?_⟩
        · rw [hout, List.append_assoc]
        · rw [length_append, octets4_length]
          omega
        · rw [length_append, octets4_length] at hfits
          exact hall (by omega)

theorem toUnicode_unit {room : Nat} (hb : b ≠ []) (h : character false b = some (c, n))
    (hc : ¬0xFFFF < c) (out : Text) :
    toUnicode false (room + 1) out b =
      toUnicode false room (out ++ [ofNat c]) (b.drop n) := by
  rw [toUnicode.eq_def]
  dsimp only
  rw [if_neg hb, h]
  exact if_neg hc

theorem toUnicode_pair {room : Nat} (hb : b ≠ []) (h : character false b = some (c, n))
    (hc : 0xFFFF < c) (out : Text) :
    toUnicode false (room + 2) out b = toUnicode false room
      (out ++ [ofNat ((c >>> 10) + 0xD7C0), ofNat ((c &&& 0x3FF) + 0xDC00)]) (b.drop n) := by
  rw [toUnicode.eq_def]
  dsimp only
  rw [if_neg hb, h]
  exact if_pos hc

theorem character_unitOctets (hu : ¬isSurrogate u) (tail : Bytes) :
    character false (unitOctets u ++ tail) = some (u.toNat, (unitOctets u).length) := by
  have hsmall := u.toNat_lt
  unfold isSurrogate at hu
  unfold unitOctets
  by_cases hascii : u.toNat < 0x80
  · rw [if_pos hascii]
    exact character_ascii hascii tail
  · rw [if_neg hascii]
    by_cases htwo : u.toNat < 0x800
    · rw [if_pos htwo]
      exact character_octets2 (by omega) htwo tail
    · rw [if_neg htwo]
      exact character_octets3 (by omega) hsmall hu tail

/-- The two units of the character of a pair. -/
theorem units_paired (h : IsPair high low) :
    [ofNat ((paired high low >>> 10) + 0xD7C0),
      ofNat ((paired high low &&& 0x3FF) + 0xDC00)] = [high, low] := by
  have heq := paired_eq h
  obtain ⟨h1, h2, h3, h4⟩ := h
  have hupper : (paired high low >>> 10) + 0xD7C0 = high.toNat := by
    rw [shiftRight_eq_div_pow, heq]
    omega
  have hlower : (paired high low &&& 0x3FF) + 0xDC00 = low.toNat := by
    have hbits : paired high low &&& 0x3FF = paired high low % 1024 :=
      and_two_pow_sub_one_eq_mod _ 10
    rw [hbits, heq]
    omega
  rw [hupper, hlower, UInt16.ofNat_toNat, UInt16.ofNat_toNat]

/-- With a unit of room for each unit the text is read back. -/
theorem toUnicode_encodes {t : Text} (h : Encodes t b) {room : Nat} (hroom : t.length ≤ room)
    (out : Text) : (toUnicode false room out b).1 = out ++ t := by
  induction h generalizing room out with
  | nil =>
      cases room with
      | zero => simp [toUnicode]
      | succ room => simp [toUnicode]
  | @unit u rest b hu _ ih =>
      obtain ⟨room, rfl⟩ : ∃ n, room = n + 1 := Nat.exists_eq_add_of_le' (by
        rw [length_cons] at hroom
        omega)
      have hchar := character_unitOctets hu b
      have hne : unitOctets u ++ b ≠ [] := by
        intro hnil
        rw [hnil] at hchar
        cases hchar
      rw [toUnicode_unit hne hchar (Nat.not_lt.mpr (le_of_lt_succ u.toNat_lt)),
        drop_left, UInt16.ofNat_toNat, ih (le_of_succ_le_succ hroom),
        List.append_assoc, singleton_append]
  | @pair high low rest b hpair _ ih =>
      obtain ⟨room, rfl⟩ : ∃ n, room = n + 2 := Nat.exists_eq_add_of_le' (by
        rw [length_cons, length_cons] at hroom
        omega)
      have heq := paired_eq hpair
      have hupper : paired high low < 0x110000 := by
        obtain ⟨h1, h2, h3, h4⟩ := hpair
        omega
      have hchar := character_octets4 (c := paired high low) (by omega) hupper b
      have hdrop : (octets4 (paired high low) ++ b).drop 4 = b := rfl
      rw [toUnicode_pair (by simp [octets4]) hchar (by omega), hdrop, units_paired hpair,
        ih (le_of_succ_le_succ (le_of_succ_le_succ hroom)), List.append_assoc]
      rfl

end Loops

end CnvUtfConverter

end OsSecurity

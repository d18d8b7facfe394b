/-
`stringconv.cpp`: the length of the result is found by a call with no room for it.

With no room both converters return the length of what they were given.  On the way from UTF-8
that is room enough.  On the way to UTF-8 it is an octet for each unit, so the octets end with
the last character that fits: only ASCII comes back whole.
-/
import OsSecurity.Certapp.Utf

namespace OsSecurity

open List

variable {b : Bytes}

namespace Certapp

open CnvUtfConverter

/-- `FatalError` is none. -/
def cstrFromUtf16 (aUtf16 : Text) : Option Bytes :=
  let len := (convertFromUnicodeToUtf8 0 aUtf16).2
  if len < 0 then none else some (convertFromUnicodeToUtf8 len.toNat aUtf16).1

def stringFromUtf16 (aUtf16 : Text) : Option Bytes := cstrFromUtf16 aUtf16

def utf16FromUtf8 (aUtf8 : Bytes) : Option Text :=
  let len := (convertToUnicodeFromUtf8 0 aUtf8).2
  if len < 0 then none else some (convertToUnicodeFromUtf8 len.toNat aUtf8).1

/-! ### Lengths -/

theorem unitOctets_pos (u : UInt16) : 1 ≤ (unitOctets u).length := by
  unfold unitOctets
  split
  · exact Nat.le_refl _
  · split <;> exact Nat.succ_le_succ (Nat.zero_le _)

theorem unitOctets_length_le {u : UInt16} : (unitOctets u).length ≤ 1 ↔ u.toNat < 0x80 := by
  unfold unitOctets
  by_cases hascii : u.toNat < 0x80
  · rw [if_pos hascii]
    exact iff_of_true (Nat.le_refl _) hascii
  · rw [if_neg hascii]
    refine iff_of_false ?_ hascii
    split
    · exact Nat.not_succ_le_self 1
    · exact Nat.not_le.mpr (show 1 < 3 by decide)

/-- There are at least as many octets as units. -/
theorem length_le_of_encodes {t : Text} (h : Encodes t b) : t.length ≤ b.length := by
  induction h with
  | nil => exact Nat.le_refl _
  | @unit u rest b _ _ ih =>
      have hpos := unitOctets_pos u
      rw [length_append, length_cons]
      omega
  | pair _ _ ih =>
      rw [length_append, octets4_length, length_cons, length_cons]
      omega

/-- There are no more of them where the text is ASCII. -/
theorem length_le_iff_ascii {t : Text} (h : Encodes t b) :
    b.length ≤ t.length ↔ ∀ u ∈ t, u.toNat < 0x80 := by
  induction h with
  | nil => simp
  | @unit u rest b _ hrest ih =>
      have hpos := unitOctets_pos u
      have hle := length_le_of_encodes hrest
      rw [length_append, length_cons, forall_mem_cons, ← ih, ← unitOctets_length_le]
      omega
  | @pair high low rest b hpair hrest _ =>
      have hle := length_le_of_encodes hrest
      have hge := hpair.high_ge
      rw [length_append, octets4_length, length_cons, length_cons]
      refine iff_of_false (by omega) fun hall => ?_
      have hhigh := hall high mem_cons_self
      omega

/-! ### Units -/

/-- The units that characters take, up to one that is cut off; so many octets are looked at. -/
def unitsIn : Nat → Bytes → Nat
  | 0, _ => 0
  | octets + 1, aUtf8 =>
    match character false aUtf8 with
    | none => 0
    | some (c, length) => (if 0xFFFF < c then 2 else 1) + unitsIn octets (aUtf8.drop length)

theorem sequenceLength_pos (aGenerateJavaConformantUtf8 : Bool) (lead : Nat) (rest : Bytes) :
    1 ≤ sequenceLength aGenerateJavaConformantUtf8 lead rest := by
  unfold sequenceLength
  split
  · exact Nat.le_succ 1
  split
  · exact Nat.le_add_left 1 2
  split
  · exact Nat.le_add_left 1 3
  split
  · exact Nat.le_succ 1
  · exact Nat.le_refl 1

/-- A character takes an octet, and two when it takes two units. -/
theorem character_takes {c length : Nat} (h : character false b = some (c, length)) :
    1 ≤ length ∧ length ≤ b.length ∧ (0xFFFF < c → 2 ≤ length) := by
  have hreplaced : some (replacementcharacter, 1) = some (c, length) → b ≠ [] →
      1 ≤ length ∧ length ≤ b.length ∧ (0xFFFF < c → 2 ≤ length) := by
    intro heq hb
    obtain ⟨rfl, rfl⟩ := Prod.mk.inj (Option.some.inj heq)
    exact ⟨Nat.le_refl 1, length_pos_iff.mpr hb, fun hlarge => absurd hlarge (by decide)⟩
  cases b with
  | nil => exact absurd h nofun
  | cons lead rest =>
      have hb : lead :: rest ≠ [] := cons_ne_nil lead rest
      unfold character at h
      dsimp only at h
      by_cases hascii : lead.toNat < 0x80
      · rw [if_pos hascii] at h
        obtain ⟨rfl, rfl⟩ := Prod.mk.inj (Option.some.inj h)
        exact ⟨Nat.le_refl 1, length_pos_iff.mpr hb, fun hlarge => by omega⟩
      rw [if_neg hascii] at h
      have hpos := sequenceLength_pos false lead.toNat rest
      generalize sequenceLength false lead.toNat rest = n at h hpos
      by_cases hone : n = 1
      · rw [if_pos hone] at h
        exact hreplaced h hb
      rw [if_neg hone] at h
      by_cases hcut : (lead :: rest).length < n
      · rw [if_pos hcut] at h
        exact absurd h nofun
      rw [if_neg hcut] at h
      cases htrailing : trailing (lead.toNat &&& (0x7F >>> n)) (rest.take (n - 1)) with
      | none =>
        rw [htrailing] at h
        exact hreplaced h hb
      | some code =>
        rw [htrailing] at h
        dsimp only at h
        split at h
        · obtain ⟨rfl, rfl⟩ := Prod.mk.inj (Option.some.inj h)
          exact ⟨hpos, Nat.not_lt.mp hcut, fun _ => by omega⟩
        · exact hreplaced h hb

theorem toUnicode_length {fuel room : Nat} (hfuel : b.length ≤ fuel) (hroom : b.length ≤ room)
    (out : Text) : (toUnicode false room out b).1.length = out.length + unitsIn fuel b := by
  induction fuel generalizing room b out with
  | zero =>
      have hnil := length_eq_zero_iff.mp (Nat.le_zero.mp hfuel)
      subst hnil
      cases room with
      | zero => simp [toUnicode, unitsIn]
      | succ room => simp [toUnicode, unitsIn]
  | succ fuel ih =>
      rw [unitsIn]
      by_cases hnil : b = []
      · subst hnil
        cases room with
        | zero => simp [toUnicode, character]
        | succ room => simp [toUnicode, character]
      have hpos := length_pos_iff.mpr hnil
      cases hchar : character false b with
      | none =>
        obtain ⟨room, rfl⟩ := Nat.exists_eq_add_of_le' (show 1 ≤ room by omega)
        rw [toUnicode.eq_def]
        dsimp only
        rw [if_neg hnil, hchar]
        dsimp only
        by_cases hout : out = []
        · rw [if_pos hout, hout]
          rfl
        · rw [if_neg hout]
          rfl
      | some p =>
        obtain ⟨c, length⟩ := p
        obtain ⟨hone, hle, htwo⟩ := character_takes hchar
        have hdrop : (b.drop length).length = b.length - length := length_drop
        dsimp only
        by_cases hlarge : 0xFFFF < c
        · have hlength := htwo hlarge
          obtain ⟨room, rfl⟩ := Nat.exists_eq_add_of_le' (show 2 ≤ room by omega)
          rw [toUnicode_pair hnil hchar hlarge, ih (by omega) (by omega), if_pos hlarge,
            length_append]
          simp only [length_cons, length_nil]
          omega
        · obtain ⟨room, rfl⟩ := Nat.exists_eq_add_of_le' (show 1 ≤ room by omega)
          rw [toUnicode_unit hnil hchar hlarge, ih (by omega) (by omega), if_neg hlarge,
            length_append, length_singleton]
          omega

/-! ### There and back -/

theorem lengthOf_fromUnicode (t : Text) : (convertFromUnicodeToUtf8 0 t).2 = t.length := by
  cases t with
  | nil => rfl
  | cons u rest =>
      rw [convertFromUnicodeToUtf8, fromUnicode.eq_def]
      rfl

theorem lengthOf_toUnicode (b : Bytes) : (convertToUnicodeFromUtf8 0 b).2 = b.length := by
  rw [convertToUnicodeFromUtf8, toUnicode.eq_def]

theorem stringFromUtf16_eq (t : Text) :
    stringFromUtf16 t = some (fromUnicode false t.length [] t).1 := by
  unfold stringFromUtf16 cstrFromUtf16
  rw [lengthOf_fromUnicode, if_neg (by omega), Int.toNat_natCast]
  rfl

/-- There is always an expansion, of as many units as the octets stand for. -/
theorem utf16FromUtf8_length (b : Bytes) :
    ∃ units, utf16FromUtf8 b = some units ∧ units.length = unitsIn b.length b := by
  unfold utf16FromUtf8
  rw [lengthOf_toUnicode, if_neg (by omega), Int.toNat_natCast]
  refine ⟨_, rfl, ?_⟩
  have hlength := toUnicode_length (Nat.le_refl b.length) (Nat.le_refl b.length) []
  rw [length_nil, Nat.zero_add] at hlength
  exact hlength

/-- The way from UTF-8 loses nothing. -/
theorem utf16FromUtf8_encodes {t : Text} (h : Encodes t b) : utf16FromUtf8 b = some t := by
  have hread := toUnicode_encodes h (length_le_of_encodes h) []
  unfold utf16FromUtf8
  rw [lengthOf_toUnicode, if_neg (by omega), Int.toNat_natCast]
  exact congrArg some hread

/-- **A text is the same there and back** where it is ASCII, and only there. -/
theorem roundTrip_iff {t : Text} (h : WellFormed t) :
    (stringFromUtf16 t).bind utf16FromUtf8 = some t ↔ ∀ u ∈ t, u.toNat < 0x80 := by
  obtain ⟨b, hb⟩ := h.encodes
  obtain ⟨done, rest, b', rfl, hdone, hout, hlength, hall⟩ :=
    fromUnicode_fits hb t.length []
  have hback : (stringFromUtf16 (done ++ rest)).bind utf16FromUtf8 = some done := by
    rw [stringFromUtf16_eq, hout, nil_append, Option.bind_some, utf16FromUtf8_encodes hdone]
  rw [hback, Option.some.injEq, ← length_le_iff_ascii hb]
  constructor
  · intro heq
    obtain rfl : rest = [] := by simpa using heq.symm
    rw [append_nil] at hb hlength ⊢
    exact (length_le_iff_ascii hb).mpr ((length_le_iff_ascii hdone).mp hlength)
  · intro hfits
    rw [hall hfits, append_nil]

/-- ASCII. -/
theorem roundTrip_ascii : (stringFromUtf16 [0x41, 0x42]).bind utf16FromUtf8 = some [0x41, 0x42] := by
  refine (roundTrip_iff (.unit ?_ (.unit ?_ .nil))).mpr ?_
  · unfold isSurrogate
    decide
  · unfold isSurrogate
    decide
  · simp

/-- The second of two characters takes two octets, and there is one left. -/
theorem not_roundTrip_latin1 : WellFormed [0x41, 0xE9] ∧
    stringFromUtf16 [0x41, 0xE9] = some [0x41] ∧
    (stringFromUtf16 [0x41, 0xE9]).bind utf16FromUtf8 ≠ some [0x41, 0xE9] := by
  refine ⟨.unit ?_ (.unit ?_ .nil), by decide, by decide⟩
  · unfold isSurrogate
    decide
  · unfold isSurrogate
    decide

end Certapp

end OsSecurity

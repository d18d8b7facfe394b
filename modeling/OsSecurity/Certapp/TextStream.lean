/-
Text in a stream, `us_func.cpp`.

A 16-bit descriptor is its length, as a `TCardinality` whose lowest bit is clear, and its
characters, compressed.  The reader is told by the length where the characters end.
-/
import OsSecurity.Certapp.UnicodeRoundTrip

namespace OsSecurity

open RWriteStream RReadStream

/-- The length of a descriptor has 28 bits. -/
def KMaskDesLength : Nat := 0x0fffffff

structure TDesC16 where
  text : Text
  length_le : text.length ≤ KMaskDesLength

namespace TDesC16

/-- `ExternalizeL` of a 16-bit descriptor. -/
def externalizeL (aDes16 : TDesC16) : Leaving Bytes := do
  let header ← writeCardinality (aDes16.text.length <<< 1)
  let octets ← TUnicodeCompressor.compressL aDes16.text
  return header ++ octets

/-- The octets of an 8-bit descriptor, each of them a character. -/
def readWideL : Nat → RReadStream Text
  | 0 => return []
  | len + 1 => do
    let octet ← readUint8L
    let text ← readWideL len
    return octet.toUInt16 :: text

/-- `InternalizeL` into a 16-bit descriptor that has room for so many characters. -/
def internalizeL (aMaxLength : Nat) : RReadStream Text := do
  let header ← readCardinality
  if aMaxLength < header >>> 1 then leaves KErrOverflow
  else if header % 2 = 0 then TUnicodeExpander.expandL (header >>> 1)
  else readWideL (header >>> 1)

theorem writeCardinality_length (aDes16 : TDesC16) :
    ∃ header, writeCardinality (aDes16.text.length <<< 1) = .ok header := by
  have hlength := aDes16.length_le
  unfold KMaskDesLength at hlength
  unfold writeCardinality
  rw [Nat.shiftLeft_eq]
  by_cases hone : aDes16.text.length * 2 ^ 1 ≤ 0x7f
  · exact ⟨_, if_pos hone⟩
  rw [if_neg hone]
  by_cases htwo : aDes16.text.length * 2 ^ 1 ≤ 0x3fff
  · exact ⟨_, if_pos htwo⟩
  rw [if_neg htwo]
  exact ⟨_, if_pos (by omega)⟩

/-- A descriptor is read back from what was written of it, and what follows it is left. -/
theorem internalizeL_externalizeL (aDes16 : TDesC16) {aMaxLength : Nat}
    (hfits : aDes16.text.length ≤ aMaxLength) :
    ∃ octets, aDes16.externalizeL = .ok octets ∧
      ReadsBack (internalizeL aMaxLength) octets aDes16.text := by
  obtain ⟨header, hheader⟩ := writeCardinality_length aDes16
  obtain ⟨octets, hcompress, -, hback⟩ := TUnicodeCompressor.compressL_back aDes16.text
  refine ⟨header ++ octets, ?_, (writeCardinality_back hheader).bind ?_⟩
  · unfold externalizeL
    rw [hheader, hcompress]
    rfl
  · have hhalf : (aDes16.text.length <<< 1) >>> 1 = aDes16.text.length := by
      rw [Nat.shiftLeft_eq, Nat.shiftRight_eq_div_pow]
      omega
    have heven : (aDes16.text.length <<< 1) % 2 = 0 := by
      rw [Nat.shiftLeft_eq]
      omega
    rw [hhalf, if_neg (Nat.not_lt.mpr hfits), if_pos heven]
    exact hback

/-- A letter, two Greek letters, an ideograph and a lone surrogate. -/
theorem internalizeL_externalizeL_mixed :
    ∃ octets, (TDesC16.mk [0x41, 0x3B1, 0x3B2, 0x4E00, 0xD800] (by decide)).externalizeL =
      .ok octets ∧
      ReadsBack (internalizeL 8) octets [0x41, 0x3B1, 0x3B2, 0x4E00, 0xD800] :=
  internalizeL_externalizeL (TDesC16.mk [0x41, 0x3B1, 0x3B2, 0x4E00, 0xD800] (by decide))
    (by decide)

end TDesC16

end OsSecurity

/-
The streams of the platform.

An `RWriteStream` is the list of the octets written to it, and an `RReadStream` takes them
from the front of such a list; numbers are little-endian.  A descriptor is preceded by a
header, a `TCardinality` whose lowest bit says that its elements are octets.  A
`TCardinality` takes one, two or four octets, and the lowest bits of the first say which.
-/
import OsSecurity.E32
import OsSecurity.Library.Packing
import OsSecurity.Library.Reading

namespace OsSecurity

open Nat Packing UInt32

def KErrCorrupt : Int := -20
def KErrEof : Int := -25

/-- What a function reads from an `RReadStream`. -/
abbrev RReadStream := Reader UInt8 Exit

namespace RWriteStream

def writeUint8L (aValue : UInt32) : Bytes := [aValue.toUInt8]

/-- The argument has 32 bits, and the low 16 are written. -/
def writeUint16L (aValue : UInt32) : Bytes := [aValue.toUInt8, (aValue >>> 8).toUInt8]

def writeUint32L (aValue : UInt32) : Bytes :=
  [aValue.toUInt8, (aValue >>> 8).toUInt8, (aValue >>> 16).toUInt8, (aValue >>> 24).toUInt8]

/-- `TCardinality::ExternalizeL` -/
def writeCardinality (aCount : Nat) : Leaving Bytes :=
  if aCount ≤ 0x7f then .ok (writeUint8L (ofNat (aCount <<< 1)))
  else if aCount ≤ 0x3fff then .ok (writeUint16L (ofNat ((aCount <<< 2) + 1)))
  else if aCount ≤ 0x1fffffff then .ok (writeUint32L (ofNat ((aCount <<< 3) + 3)))
  else panic

/-- `operator<<` on a descriptor of octets. -/
def writeDes8L (aDes : Bytes) : Leaving Bytes := do
  let header ← writeCardinality ((aDes.length <<< 1) + 1)
  return header ++ aDes

end RWriteStream

namespace RReadStream

open Packing

def readUint8L : RReadStream UInt8
  | [] => leave KErrEof
  | b :: bs => .ok (b, bs)

def readUint16L : RReadStream UInt16 := do
  let b0 ← readUint8L
  let b1 ← readUint8L
  return UInt16.ofNat (pack littleEndian 0 [b0, b1])

def readUint32L : RReadStream UInt32 := do
  let b0 ← readUint8L
  let b1 ← readUint8L
  let b2 ← readUint8L
  let b3 ← readUint8L
  return ofNat (pack littleEndian 0 [b0, b1, b2, b3])

/-- `ReadL` into a descriptor of `aLength` octets. -/
def readL (aLength : Nat) : RReadStream Bytes := fun octets =>
  if octets.length < aLength then leave KErrEof
  else .ok (octets.take aLength, octets.drop aLength)

def leaves {α : Type} (aError : Int) : RReadStream α := fun _ => leave aError

/-- `TCardinality::InternalizeL` -/
def readCardinality : RReadStream Nat := do
  let n ← readUint8L
  if n.toNat % 2 = 0 then return n.toNat / 2
  else if n.toNat % 4 = 1 then do
    let b1 ← readUint8L
    return pack littleEndian 0 [n, b1] / 4
  else if n.toNat % 8 = 3 then do
    let b1 ← readUint8L
    let b2 ← readUint8L
    let b3 ← readUint8L
    return pack littleEndian 0 [n, b1, b2, b3] / 8
  else leaves KErrCorrupt

/-- `HBufC8::NewL(RReadStream&, TInt)` -/
def readDes8L (aMaxLength : Nat) : RReadStream Bytes := do
  let header ← readCardinality
  if header % 2 = 0 then leaves KErrCorrupt
  else if aMaxLength < header / 2 then leaves KErrOverflow
  else readL (header / 2)

end RReadStream

open RWriteStream RReadStream

/-! ### What is written is read back -/

theorem readUint8L_back (b : UInt8) : ReadsBack readUint8L [b] b := by
  intro rest
  rfl

/-- Only the low half of the argument is in the stream. -/
theorem readUint16L_back (aValue : UInt32) :
    ReadsBack readUint16L (writeUint16L aValue) aValue.toUInt16 := by
  refine (readUint8L_back aValue.toUInt8).bind ((readUint8L_back _).map ?_)
  apply UInt16.toNat_inj.mp
  simp [pack_littleEndian, Der.value]
  omega

theorem readUint32L_back (aValue : UInt32) :
    ReadsBack readUint32L (writeUint32L aValue) aValue := by
  refine (readUint8L_back aValue.toUInt8).bind ((readUint8L_back _).bind
    ((readUint8L_back _).bind ((readUint8L_back _).map ?_)))
  apply UInt32.toNat_inj.mp
  have hlt : aValue.toNat < 4294967296 := aValue.toNat_lt
  simp [pack_littleEndian, Der.value]
  omega

theorem readL_back (aDes : Bytes) : ReadsBack (readL aDes.length) aDes aDes := by
  intro rest
  unfold readL
  rw [if_neg (by rw [List.length_append]; omega), List.take_left' rfl, List.drop_left' rfl]

theorem readCardinality_back {b : UInt8} (h : b.toNat % 2 = 0) :
    ReadsBack readCardinality [b] (b.toNat / 2) := by
  refine (readUint8L_back b).bind ?_
  rw [if_pos h]
  exact ReadsBack.pure _

/-- A count of any size that can be written. -/
theorem writeCardinality_back {aCount : Nat} {octets : Bytes}
    (h : writeCardinality aCount = .ok octets) : ReadsBack readCardinality octets aCount := by
  unfold writeCardinality at h
  by_cases hone : aCount ≤ 0x7f
  · rw [if_pos hone, Except.ok.injEq, shiftLeft_eq] at h
    subst h
    have hfirst : (ofNat (aCount * 2 ^ 1)).toUInt8.toNat = 2 * aCount := by
      simp
      omega
    have hback := readCardinality_back (b := (ofNat (aCount * 2 ^ 1)).toUInt8)
      (by rw [hfirst]; omega)
    rw [hfirst, Nat.mul_div_cancel_left _ (by decide)] at hback
    exact hback
  rw [if_neg hone] at h
  by_cases htwo : aCount ≤ 0x3fff
  · rw [if_pos htwo, Except.ok.injEq, shiftLeft_eq] at h
    subst h
    have hvalue : (ofNat (aCount * 2 ^ 2 + 1)).toNat = 4 * aCount + 1 := by
      simp
      omega
    generalize ofNat (aCount * 2 ^ 2 + 1) = value at hvalue
    have hfirst : value.toUInt8.toNat = (4 * aCount + 1) % 256 := by
      rw [toNat_toUInt8, hvalue]
    refine (readUint8L_back value.toUInt8).bind ?_
    rw [hfirst, if_neg (by omega), if_pos (by omega)]
    refine (readUint8L_back _).map ?_
    simp [pack_littleEndian, Der.value, hvalue]
    omega
  rw [if_neg htwo] at h
  by_cases hfour : aCount ≤ 0x1fffffff
  · rw [if_pos hfour, Except.ok.injEq, shiftLeft_eq] at h
    subst h
    have hvalue : (ofNat (aCount * 2 ^ 3 + 3)).toNat = 8 * aCount + 3 := by
      simp
      omega
    generalize ofNat (aCount * 2 ^ 3 + 3) = value at hvalue
    have hfirst : value.toUInt8.toNat = (8 * aCount + 3) % 256 := by
      rw [toNat_toUInt8, hvalue]
    refine (readUint8L_back value.toUInt8).bind ?_
    rw [hfirst, if_neg (by omega), if_neg (by omega), if_pos (by omega)]
    refine (readUint8L_back _).bind ((readUint8L_back _).bind ((readUint8L_back _).map ?_))
    simp [pack_littleEndian, Der.value, hvalue]
    omega
  · rw [if_neg hfour] at h
    exact absurd h (by simp [panic])

/-- A descriptor that is short enough has a header of one octet. -/
theorem writeDes8L_short {aDes : Bytes} (hshort : aDes.length ≤ 63) :
    writeDes8L aDes =
      .ok ((ofNat (((aDes.length <<< 1) + 1) <<< 1)).toUInt8 :: aDes) := by
  have hheader : (aDes.length <<< 1) + 1 ≤ 0x7f := by
    rw [shiftLeft_eq]
    omega
  unfold writeDes8L writeCardinality
  rw [if_pos hheader]
  rfl

theorem readDes8L_back {aDes octets : Bytes} {aMaxLength : Nat} (hshort : aDes.length ≤ 63)
    (hmax : aDes.length ≤ aMaxLength) (h : writeDes8L aDes = .ok octets) :
    ReadsBack (readDes8L aMaxLength) octets aDes := by
  rw [writeDes8L_short hshort, Except.ok.injEq] at h
  rw [← h]
  have hoctet : (ofNat (((aDes.length <<< 1) + 1) <<< 1)).toUInt8.toNat =
      2 * (2 * aDes.length + 1) := by
    simp [shiftLeft_eq]
    omega
  refine (readCardinality_back (by rw [hoctet]; omega)).bind ?_
  rw [hoctet, if_neg (by omega), if_neg (by omega)]
  have hlength : 2 * (2 * aDes.length + 1) / 2 / 2 = aDes.length := by omega
  rw [hlength]
  exact readL_back aDes

/-! ### What is left of the stream -/

theorem readUint8L_orderly : Orderly Exit.undefined readUint8L where
  length_le {input rest a} h := by
    cases input with
    | nil => exact absurd h nofun
    | cons b bs =>
      have hrest : bs = rest := congrArg Prod.snd (Except.ok.inj h)
      rw [← hrest]
      exact le_succ _
  safe input h := by
    cases input with
    | nil => exact absurd h nofun
    | cons b bs => exact absurd h nofun

theorem leaves_orderly {α : Type} (aError : Int) :
    Orderly Exit.undefined (leaves aError : RReadStream α) :=
  ⟨fun h => absurd h nofun, fun _ h => absurd h nofun⟩

theorem readCardinality_orderly : Orderly Exit.undefined readCardinality := by
  refine readUint8L_orderly.bind fun n => ?_
  by_cases hone : n.toNat % 2 = 0
  · rw [if_pos hone]
    exact .pure _
  rw [if_neg hone]
  by_cases htwo : n.toNat % 4 = 1
  · rw [if_pos htwo]
    exact readUint8L_orderly.bind fun _ => .pure _
  rw [if_neg htwo]
  by_cases hfour : n.toNat % 8 = 3
  · rw [if_pos hfour]
    exact readUint8L_orderly.bind fun _ => readUint8L_orderly.bind fun _ =>
      readUint8L_orderly.bind fun _ => .pure _
  · rw [if_neg hfour]
    exact leaves_orderly KErrCorrupt

/-- A reader that begins with an octet leaves less than it was given. -/
theorem readUint8L_bind_lt {α : Type} {next : UInt8 → RReadStream α}
    (hnext : ∀ b, Orderly Exit.undefined (next b)) {input rest : Bytes} {a : α}
    (h : (readUint8L >>= next) input = .ok (a, rest)) : rest.length < input.length := by
  cases input with
  | nil => exact absurd h nofun
  | cons b bs => exact lt_succ_of_le ((hnext b).length_le h)

end OsSecurity

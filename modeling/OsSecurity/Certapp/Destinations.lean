/-
Decoders that fill a place of fixed size: key identifiers, names and labels.

A place holds so many units, and a unit stored beyond them is outside it.  From text, the octets
of a key identifier are stored one after the other and counted afterwards, a name is copied
without being measured, and a label is measured first.  From a stream all three are descriptors,
measured by their header before anything is stored; the expander stops at that length.
-/
import OsSecurity.Certapp.StringConv
import OsSecurity.Certapp.MemStreamBuf
import OsSecurity.Certapp.TextStream

namespace OsSecurity

variable {aMaxLength : Nat} {stored : Bytes}

namespace Certapp

/-- A unit behind those stored. -/
def store {α : Type} (aMaxLength : Nat) (unit : α) (stored : List α) : Leaving (List α) :=
  if stored.length < aMaxLength then .ok (stored ++ [unit]) else .error .undefined

/-- `memcpy` to the start of a place. -/
def memcpy {α : Type} (aMaxLength : Nat) (units : List α) : Leaving (List α) :=
  if units.length ≤ aMaxLength then .ok units else .error .undefined

def KSHA1HashLengthInBytes : Nat := 20
def KMaxName : Nat := 0x80
def KMaxCertLabelLength : Nat := 64

/-! ### From text -/

/-- An upper case letter is made a lower case one first. -/
def fromHex (ch : UInt8) : Leaving UInt8 :=
  let ch := if 0x41 ≤ ch ∧ ch ≤ 0x46 then ch + 0x20 else ch
  if 0x61 ≤ ch ∧ ch ≤ 0x66 then .ok (ch - 0x61 + 10)
  else if 0x30 ≤ ch ∧ ch ≤ 0x39 then .ok (ch - 0x30)
  else fatalError

def colon : UInt8 := 0x3A
def quote : UInt8 := 0x27

/-- The loop over the digits: the octets that have been stored, and whether the text is bad. -/
def readDigits (aMaxLength : Nat) : Bytes → Bytes → Leaving (Bytes × Bool)
  | [], stored => .ok (stored, false)
  | [msb], stored => do
    let _ ← fromHex msb
    return (stored, true)
  | msb :: lsb :: text, stored => do
    let msb ← fromHex msb
    let lsb ← fromHex lsb
    let stored ← store aMaxLength ((msb <<< 4) ||| lsb) stored
    match text with
    | [] => return (stored, false)
    | separator :: text =>
      if separator ≠ colon then return (stored, true) else readDigits aMaxLength text stored

structure KeyIdentifierObject where
  iAutoKey : Bool
  iHash : Bytes

/-- `"auto"` -/
def autoToken : Bytes := [0x61, 0x75, 0x74, 0x6F]

/-- A token in single quotes. -/
def Quoted (tok : Bytes) : Prop :=
  tok.head? = some quote ∧ tok.getLast? = some quote ∧ 2 ≤ tok.length

instance (tok : Bytes) : Decidable (Quoted tok) := by
  unfold Quoted
  infer_instance

/-- A token without its quotes. -/
def inside (tok : Bytes) : Bytes := tok.tail.dropLast

/-- `DecodeHuman` of a key identifier. -/
def decodeHumanKeyIdentifier (tok : Bytes) : Leaving KeyIdentifierObject :=
  if tok = autoToken then .ok ⟨true, []⟩
  else if ¬Quoted tok then fatalError
  else do
    let (stored, bad) ← readDigits KSHA1HashLengthInBytes (inside tok) []
    if bad ∨ KSHA1HashLengthInBytes < stored.length then fatalError
    else return ⟨false, stored⟩

/-- `utf16FromUtf8` of a token, which ends the program where it fails. -/
def expanded (tok : Bytes) : Leaving Text :=
  match utf16FromUtf8 tok with
  | some units => .ok units
  | none => fatalError

/-- `DecodeHuman` of a name. -/
def decodeHumanName (tok : Bytes) : Leaving Text := do
  let units ← expanded tok
  let stored ← memcpy KMaxName units
  if KMaxName < units.length then fatalError else return stored

/-- `DecodeHuman` of a label. -/
def decodeHumanLabel (tok : Bytes) : Leaving Text := do
  let units ← expanded tok
  if KMaxCertLabelLength < units.length then fatalError
  else memcpy KMaxCertLabelLength units

/-! ### From a stream -/

open RReadStream TUnicodeExpander

/-- The units that are in the sink have been stored. -/
def checkStored (aMaxLength : Nat) (e : Expander) : Leaving Expander :=
  if e.sink.length ≤ aMaxLength then .ok e else .error .undefined

/-- The expander's loop, with its sink in a place of fixed size. -/
def expandLoopInto (aMaxLength iMaxUnicodeWords : Nat) : Nat → Expander → RReadStream Text
  | 0, _ => fun _ => .error .undefined
  | fuel + 1, e =>
    if e.sink.length + e.iOutputBuffer.length < iMaxUnicodeWords then do
      let e ← turn iMaxUnicodeWords e
      let e ← liftM (checkStored aMaxLength e)
      expandLoopInto aMaxLength iMaxUnicodeWords fuel e
    else return e.sink

def expandIntoL (aMaxLength len : Nat) : RReadStream Text := fun input =>
  expandLoopInto aMaxLength len (input.length + 1)
    ⟨TUnicodeCompressionState.initial, [], []⟩ input

/-- Octets, each of them stored as it is read. -/
def readIntoL {α : Type} (aMaxLength : Nat) (ofOctet : UInt8 → α) :
    Nat → List α → RReadStream (List α)
  | 0, stored => return stored
  | len + 1, stored => do
    let octet ← readUint8L
    let stored ← liftM (store aMaxLength (ofOctet octet) stored)
    readIntoL aMaxLength ofOctet len stored

/-- `TDesInternalizer`: the header is measured first. -/
def internalizeIntoL {α : Type} (aMaxLength : Nat) (ofOctet : UInt8 → α) (ofUnit : UInt16 → α) :
    RReadStream (List α) := do
  let header ← readCardinality
  if aMaxLength < header >>> 1 then leaves (-1)
  else if header % 2 = 0 then do
    let units ← expandIntoL aMaxLength (header >>> 1)
    return units.map ofUnit
  else readIntoL aMaxLength ofOctet (header >>> 1) []

/-- `TNarrowUnicodeSink` -/
def narrow (aValue : UInt16) : UInt8 := if 255 < aValue then 1 else aValue.toUInt8

def internalizeKeyIdentifier : RReadStream Bytes :=
  internalizeIntoL KSHA1HashLengthInBytes id narrow

def internalizeName : RReadStream Text := internalizeIntoL KMaxName UInt8.toUInt16 id

def internalizeLabel : RReadStream Text := internalizeIntoL KMaxCertLabelLength UInt8.toUInt16 id

/-! ### Digits beyond the last -/

/-- A digit in either case. -/
def IsHex (ch : UInt8) : Prop :=
  (0x30 ≤ ch ∧ ch ≤ 0x39) ∨ (0x41 ≤ ch ∧ ch ≤ 0x46) ∨ (0x61 ≤ ch ∧ ch ≤ 0x66)

theorem fromHex_isHex {ch : UInt8} (h : IsHex ch) : ∃ digit, fromHex ch = .ok digit := by
  unfold fromHex
  dsimp only
  by_cases hupper : 0x41 ≤ ch ∧ ch ≤ 0x46
  · have hlower : 0x61 ≤ ch + 0x20 ∧ ch + 0x20 ≤ 0x66 := by
      simp only [UInt8.le_iff_toNat_le, UInt8.toNat_add] at hupper ⊢
      simp at hupper ⊢
      omega
    rw [if_pos hupper, if_pos hlower]
    exact ⟨_, rfl⟩
  rw [if_neg hupper]
  by_cases hlower : 0x61 ≤ ch ∧ ch ≤ 0x66
  · rw [if_pos hlower]
    exact ⟨_, rfl⟩
  · have hdigit : 0x30 ≤ ch ∧ ch ≤ 0x39 := by
      unfold IsHex at h
      tauto
    rw [if_neg hlower, if_pos hdigit]
    exact ⟨_, rfl⟩

theorem fromHex_fatalError {ch : UInt8} (h : ¬IsHex ch) : fromHex ch = fatalError := by
  unfold IsHex at h
  have hupper : ¬(0x41 ≤ ch ∧ ch ≤ 0x46) := by tauto
  have hlower : ¬(0x61 ≤ ch ∧ ch ≤ 0x66) := by tauto
  have hdigit : ¬(0x30 ≤ ch ∧ ch ≤ 0x39) := by tauto
  unfold fromHex
  dsimp only
  rw [if_neg hupper, if_neg hlower, if_neg hdigit]

/-- So many pairs of digits with a colon behind each, and another pair. -/
def StartsWithPairs : Nat → Bytes → Prop
  | 0, msb :: lsb :: _ => IsHex msb ∧ IsHex lsb
  | pairs + 1, msb :: lsb :: separator :: text =>
    IsHex msb ∧ IsHex lsb ∧ separator = colon ∧ StartsWithPairs pairs text
  | _, _ => False

theorem readDigits_bad {msb lsb : UInt8} {text : Bytes} (h : ¬(IsHex msb ∧ IsHex lsb)) :
    readDigits aMaxLength (msb :: lsb :: text) stored = fatalError := by
  rw [readDigits]
  by_cases hmsb : IsHex msb
  · obtain ⟨digit, hdigit⟩ := fromHex_isHex hmsb
    rw [hdigit, fromHex_fatalError fun hlsb => h ⟨hmsb, hlsb⟩]
    rfl
  · rw [fromHex_fatalError hmsb]
    rfl

theorem readDigits_single (aMaxLength : Nat) (msb : UInt8) (stored : Bytes) :
    readDigits aMaxLength [msb] stored ≠ .error .undefined := by
  rw [readDigits]
  by_cases hmsb : IsHex msb
  · obtain ⟨digit, hdigit⟩ := fromHex_isHex hmsb
    rw [hdigit]
    exact nofun
  · rw [fromHex_fatalError hmsb]
    exact nofun

theorem readDigits_full {msb lsb : UInt8} {text : Bytes} (h : IsHex msb ∧ IsHex lsb)
    (hfull : stored.length = aMaxLength) :
    readDigits aMaxLength (msb :: lsb :: text) stored = .error .undefined := by
  obtain ⟨high, hhigh⟩ := fromHex_isHex h.1
  obtain ⟨low, hlow⟩ := fromHex_isHex h.2
  have hstore : store aMaxLength ((high <<< 4) ||| low) stored = .error .undefined :=
    if_neg (by omega)
  rw [readDigits, hhigh, hlow]
  show (store aMaxLength ((high <<< 4) ||| low) stored >>= _) = _
  rw [hstore]
  rfl

/-- A pair for which there is room leaves the loop at its end, at a character that is not a
colon, or at the pairs behind the colon. -/
theorem readDigits_pair {msb lsb : UInt8} (h : IsHex msb ∧ IsHex lsb)
    (hroom : stored.length < aMaxLength) (text : Bytes) :
    ∃ octet, readDigits aMaxLength (msb :: lsb :: text) stored =
      match text with
      | [] => .ok (stored ++ [octet], false)
      | separator :: text =>
        if separator ≠ colon then .ok (stored ++ [octet], true)
        else readDigits aMaxLength text (stored ++ [octet]) := by
  obtain ⟨high, hhigh⟩ := fromHex_isHex h.1
  obtain ⟨low, hlow⟩ := fromHex_isHex h.2
  have hstore : store aMaxLength ((high <<< 4) ||| low) stored =
      .ok (stored ++ [(high <<< 4) ||| low]) := if_pos hroom
  refine ⟨(high <<< 4) ||| low, ?_⟩
  rw [readDigits, hhigh, hlow]
  show (store aMaxLength ((high <<< 4) ||| low) stored >>= _) = _
  rw [hstore]
  cases text with
  | nil => rfl
  | cons separator text => rfl

/-- The loop stores beyond the place where as many pairs as there is room for are followed by
another, each behind a colon. -/
theorem readDigits_undefined_iff {pairs : Nat} (hroom : stored.length + pairs = aMaxLength)
    (text : Bytes) :
    readDigits aMaxLength text stored = .error .undefined ↔ StartsWithPairs pairs text := by
  induction pairs generalizing stored text with
  | zero =>
      match text with
      | [] => exact iff_of_false nofun nofun
      | [msb] => exact iff_of_false (readDigits_single aMaxLength msb stored) nofun
      | msb :: lsb :: text =>
        rw [StartsWithPairs]
        by_cases hhex : IsHex msb ∧ IsHex lsb
        · exact iff_of_true (readDigits_full hhex hroom) hhex
        · rw [readDigits_bad hhex]
          exact iff_of_false nofun hhex
  | succ pairs ih =>
      match text with
      | [] => exact iff_of_false nofun nofun
      | [msb] => exact iff_of_false (readDigits_single aMaxLength msb stored) nofun
      | msb :: lsb :: text =>
        by_cases hhex : IsHex msb ∧ IsHex lsb
        · obtain ⟨octet, hpair⟩ := readDigits_pair hhex
            (show stored.length < aMaxLength by omega) text
          rw [hpair]
          match text with
          | [] => exact iff_of_false nofun nofun
          | separator :: text =>
            rw [StartsWithPairs]
            by_cases hcolon : separator = colon
            · have hnext := ih (show (stored ++ [octet]).length + pairs = aMaxLength by
                rw [List.length_append, List.length_singleton]
                omega) text
              dsimp only
              rw [if_neg (not_not.mpr hcolon), hnext]
              tauto
            · dsimp only
              rw [if_pos hcolon]
              exact iff_of_false nofun fun h => hcolon h.2.2.1
        · rw [readDigits_bad hhex]
          refine iff_of_false nofun ?_
          match text with
          | [] => exact nofun
          | separator :: text =>
            rw [StartsWithPairs]
            exact fun h => hhex ⟨h.1, h.2.1⟩

/-- A key identifier that is too long by a pair, at least. -/
def Overlong (tok : Bytes) : Prop :=
  Quoted tok ∧ StartsWithPairs KSHA1HashLengthInBytes (inside tok)

theorem decodeHumanKeyIdentifier_undefined_iff (tok : Bytes) :
    decodeHumanKeyIdentifier tok = .error .undefined ↔ Overlong tok := by
  unfold decodeHumanKeyIdentifier Overlong
  by_cases hauto : tok = autoToken
  · rw [if_pos hauto]
    refine iff_of_false nofun fun h => ?_
    rw [hauto] at h
    exact absurd h.1 (by decide)
  rw [if_neg hauto]
  by_cases hquoted : Quoted tok
  · rw [if_neg (not_not.mpr hquoted)]
    have hdigits := readDigits_undefined_iff
      (show ([] : Bytes).length + KSHA1HashLengthInBytes = KSHA1HashLengthInBytes from
        Nat.zero_add _) (inside tok)
    rw [and_iff_right hquoted, ← hdigits]
    cases hread : readDigits KSHA1HashLengthInBytes (inside tok) [] with
    | ok result =>
      refine iff_of_false ?_ nofun
      show (if _ then fatalError else _) ≠ _
      by_cases hbad : result.2 = true ∨ KSHA1HashLengthInBytes < result.1.length
      · rw [if_pos hbad]
        exact nofun
      · rw [if_neg hbad]
        exact nofun
    | error e =>
      show Except.error e = _ ↔ _
      rw [Except.error.injEq, Except.error.injEq]
  · rw [if_pos hquoted]
    exact iff_of_false nofun fun h => hquoted h.1

theorem expanded_defined (tok : Bytes) : expanded tok ≠ .error .undefined := by
  unfold expanded
  cases utf16FromUtf8 tok with
  | some units => exact nofun
  | none => exact nofun

theorem decodeHumanName_undefined_iff (tok : Bytes) :
    decodeHumanName tok = .error .undefined ↔ KMaxName < unitsIn tok.length tok := by
  obtain ⟨units, hunits, hlength⟩ := utf16FromUtf8_length tok
  unfold decodeHumanName expanded memcpy
  rw [hunits, ← hlength]
  show (if units.length ≤ KMaxName then Except.ok units else .error .undefined) >>= _ =
    Except.error Exit.undefined ↔ _
  by_cases hlong : KMaxName < units.length
  · rw [if_neg (by omega)]
    exact iff_of_true rfl hlong
  · rw [if_pos (by omega)]
    refine iff_of_false ?_ hlong
    show (if KMaxName < units.length then fatalError else _) ≠ _
    rw [if_neg hlong]
    exact nofun

theorem decodeHumanLabel_defined (tok : Bytes) : decodeHumanLabel tok ≠ .error .undefined := by
  unfold decodeHumanLabel memcpy
  cases hunits : expanded tok with
  | ok units =>
      show (if KMaxCertLabelLength < units.length then fatalError else _) ≠ _
      by_cases hlong : KMaxCertLabelLength < units.length
      · rw [if_pos hlong]
        exact nofun
      · rw [if_neg hlong, if_pos (by omega)]
        exact nofun
  | error e =>
      have hdefined := expanded_defined tok
      rw [hunits] at hdefined
      exact fun h => hdefined (congrArg Except.error (Except.error.inj h))

/-! ### Descriptors stay in their place -/

theorem readIntoL_orderly {α : Type} {ofOctet : UInt8 → α} {len : Nat} {stored : List α}
    (hroom : stored.length + len ≤ aMaxLength) :
    Orderly Exit.undefined (readIntoL aMaxLength ofOctet len stored) := by
  induction len generalizing stored with
  | zero => exact .pure stored
  | succ len ih =>
      rw [readIntoL]
      refine readUint8L_orderly.bind fun octet => ?_
      have hstore : store aMaxLength (ofOctet octet) stored =
          .ok (stored ++ [ofOctet octet]) := if_pos (by omega)
      rw [hstore]
      exact ih (by rw [List.length_append, List.length_singleton]; omega)

/-- With an octet for each turn that is left, the loop neither runs out nor stores too much. -/
theorem expandLoopInto_defined {most fuel : Nat} {e : Expander} {input : Bytes}
    (hmost : most ≤ aMaxLength) (hsink : e.sink.length ≤ most) (hfuel : input.length < fuel) :
    expandLoopInto aMaxLength most fuel e input ≠ .error .undefined := by
  induction fuel generalizing e input with
  | zero => exact absurd hfuel (Nat.not_lt_zero _)
  | succ fuel ih =>
      rw [expandLoopInto]
      by_cases hmore : e.sink.length + e.iOutputBuffer.length < most
      · rw [if_pos hmore]
        change (turn most e input >>= _) ≠ _
        cases hturn : turn most e input with
        | ok p =>
          have hshorter := turn_length hturn
          have hstored := turn_sink hsink hturn
          have hcheck : checkStored aMaxLength p.1 = .ok p.1 := if_pos (by omega)
          show (do
            let e ← (liftM (checkStored aMaxLength p.1) : RReadStream Expander)
            expandLoopInto aMaxLength most fuel e) p.2 ≠ _
          rw [hcheck]
          exact ih hstored (by omega)
        | error e' =>
          intro h
          have hsafe := (turn_orderly most e).safe input
          rw [hturn] at hsafe
          exact hsafe (congrArg Except.error (Except.error.inj h))
      · rw [if_neg hmore]
        exact nofun

theorem expandIntoL_defined {len : Nat} (hlen : len ≤ aMaxLength) (input : Bytes) :
    expandIntoL aMaxLength len input ≠ .error .undefined :=
  expandLoopInto_defined hlen (Nat.zero_le len) (Nat.lt_succ_self _)

/-- Whatever is in the stream, no descriptor is stored beyond its place. -/
theorem internalizeIntoL_defined {α : Type} (aMaxLength : Nat) (ofOctet : UInt8 → α)
    (ofUnit : UInt16 → α) (input : Bytes) :
    internalizeIntoL aMaxLength ofOctet ofUnit input ≠ .error .undefined := by
  change (readCardinality input >>= _) ≠ _
  cases hheader : readCardinality input with
  | error e =>
      intro h
      have hsafe := readCardinality_orderly.safe input
      rw [hheader] at hsafe
      exact hsafe (congrArg Except.error (Except.error.inj h))
  | ok p =>
      show (if aMaxLength < p.1 >>> 1 then leaves (-1) else if p.1 % 2 = 0 then _ else _ :
        RReadStream (List α)) p.2 ≠ _
      by_cases hlong : aMaxLength < p.1 >>> 1
      · rw [if_pos hlong]
        exact nofun
      rw [if_neg hlong]
      by_cases hwide : p.1 % 2 = 0
      · rw [if_pos hwide]
        change (expandIntoL aMaxLength (p.1 >>> 1) p.2 >>= _) ≠ _
        have hexpand := expandIntoL_defined (Nat.not_lt.mp hlong) p.2
        cases hresult : expandIntoL aMaxLength (p.1 >>> 1) p.2 with
        | ok result => exact nofun
        | error e =>
          rw [hresult] at hexpand
          exact fun h => hexpand (congrArg Except.error (Except.error.inj h))
      · rw [if_neg hwide]
        exact (readIntoL_orderly (by rw [List.length_nil]; omega)).safe p.2

/-- **Where the decoders stay inside**: always from a stream and for a label, a key identifier
unless it is too long by a pair of digits, a name unless it has more units than there is room
for, and a run of calls of a stream unless one of its reads asks for more than is left. -/
theorem decoders_inside_iff (tok input : Bytes) (calls : List MemStreamBuf.Call)
    (s : MemStreamBuf) :
    (decodeHumanKeyIdentifier tok ≠ .error .undefined ↔ ¬Overlong tok) ∧
    (decodeHumanName tok ≠ .error .undefined ↔ unitsIn tok.length tok ≤ KMaxName) ∧
    decodeHumanLabel tok ≠ .error .undefined ∧
    (internalizeKeyIdentifier input ≠ .error .undefined ∧
      internalizeName input ≠ .error .undefined ∧
      internalizeLabel input ≠ .error .undefined) ∧
    (MemStreamBuf.run calls s ≠ .error .undefined ↔ MemStreamBuf.ReadsInside calls s) := by
  refine ⟨not_congr (decodeHumanKeyIdentifier_undefined_iff tok), ?_,
    decodeHumanLabel_defined tok, ⟨internalizeIntoL_defined _ _ _ input,
      internalizeIntoL_defined _ _ _ input, internalizeIntoL_defined _ _ _ input⟩, ?_⟩
  · rw [← Nat.not_lt]
    exact not_congr (decodeHumanName_undefined_iff tok)
  · rw [ne_eq, MemStreamBuf.run_undefined_iff, not_not]

/-- Twenty-one pairs between quotes, and a stream of one octet of which two are read. -/
theorem decoders_not_inside :
    decodeHumanKeyIdentifier
      (quote :: (List.replicate 20 [0x30, 0x30, colon]).flatten ++ [0x30, 0x30, quote]) =
        .error .undefined ∧
    decodeHumanName (List.replicate 129 0x61) = .error .undefined ∧
    MemStreamBuf.run [.read 2] ⟨0, 0, [0x61], by decide, by decide⟩ = .error .undefined := by
  refine ⟨rfl, ?_, rfl⟩
  exact (decodeHumanName_undefined_iff _).mpr (by decide +kernel)

end Certapp

end OsSecurity

/-
The decoders on top of `TASN1DecGeneric`: sequences, and the primitive types.

None of them looks at the tag of what it decodes; the caller either has checked it or
does not care.  `TASN1DecSequence` splits the contents of any element into elements,
`TASN1DecOctetString` takes the contents of any element, and `TASN1DecNull` asks for
two octets of which the first shares a bit with 5.

`Elements` says what splitting the contents means, and `decodeContents_eq_ok` is the
theorem that the loop does that, on every string short enough for a descriptor.
-/
import OsSecurity.Asn1.Generic

namespace OsSecurity

open List TASN1DecGeneric

variable {gs : List TASN1DecGeneric} {g : TASN1DecGeneric} {aSource body : Bytes}

/-! ### Sequences -/

namespace TASN1DecSequence

/-- `DecodeContentsL`, with `pos` kept as the suffix that starts there. -/
def decodeContents : Nat → Bytes → Leaving (List TASN1DecGeneric)
  | _, [] => .ok []
  -- a loop that makes no progress appends until the array cannot grow
  | 0, _ :: _ => leave KErrNoMemory
  | n + 1, b :: bs => do
    let Decoded ← TASN1DecGeneric.initL (b :: bs)
    -- a negative `pos` makes the next `aSource.Right(aSource.Length() - pos)` negative too
    if Decoded.lengthDER < 0 then
      panic
    let rest ← decodeContents n ((b :: bs).drop Decoded.lengthDER.toNat)
    return Decoded :: rest

def decodeContentsL (aSource : Bytes) : Leaving (List TASN1DecGeneric) :=
  decodeContents aSource.length aSource

/-- `DecodeDERLC(const TASN1DecGeneric&)` -/
def decodeGenericLC (aSource : TASN1DecGeneric) : Leaving (List TASN1DecGeneric) := do
  decodeContentsL (← aSource.getContentDER)

/-- `DecodeDERLC(const TDesC8&, TInt&)` -/
def decodeDERLC (aSource : Bytes) (aPos : Int) : Leaving (List TASN1DecGeneric × Int) := do
  let gen ← TASN1DecGeneric.initL (← TDes.right aSource (aSource.length - aPos))
  let ret ← decodeContentsL (← gen.getContentDER)
  return (ret, TInt.wrap (aPos + gen.lengthDER))

/-- `DecodeDERLC(const TDesC8&, TInt&, TInt, TInt)` -/
def decodeRangeLC (aSource : Bytes) (aPos aMin aMax : Int) :
    Leaving (List TASN1DecGeneric × Int) := do
  let (ret, aPos) ← decodeDERLC aSource aPos
  if (ret.length : Int) < aMin ∨ aMax < ret.length then
    leave KErrArgument
  return (ret, aPos)

end TASN1DecSequence

/-! ### What a sequence holds

`Elements` is the grammar: one element after another until the string is used up.  The
loop accepts that and nothing else, and one turn for each octet is always enough.
-/

/-- A decoded element whose contents and position the string holds. -/
structure Holds (aSource : Bytes) (g : TASN1DecGeneric) (enc body rest : Bytes) : Prop where
  source : aSource = enc ++ rest
  init : TASN1DecGeneric.initL aSource = .ok g
  content : g.getContentDER = .ok body
  encoding : g.encoding = .ok enc
  lengthDER : g.lengthDER = enc.length
  header : 2 + body.length ≤ enc.length

/-- A string that is a row of elements. -/
inductive Elements : Bytes → List TASN1DecGeneric → Prop
  | nil : Elements [] []
  | cons {aSource enc body rest : Bytes} {g : TASN1DecGeneric} {gs : List TASN1DecGeneric}
      (h : Holds aSource g enc body rest) (hs : Elements rest gs) : Elements aSource (g :: gs)

/-- The elements of `Holds` are the ones that have the form `Element` says. -/
theorem holds_iff {enc rest : Bytes} (hlen : aSource.length ≤ KMaxTInt) :
    Holds aSource g enc body rest ↔ ∃ t l T, enc = t ++ l ++ body ∧
      Element aSource t l body rest T ∧
        g = ⟨aSource, (t ++ l).length, body.length, T, TASN1Class.ofByte (aSource.headD 0)⟩ := by
  constructor
  · intro h
    have hpos : ¬ g.lengthDER < 0 := by rw [h.lengthDER]; omega
    obtain ⟨t, l, body', rest', T, he, rfl⟩ :=
      (initL_inside hlen).mp ⟨h.init, hpos⟩
    obtain ⟨-, hbody, henc, -⟩ :=
      TASN1DecGeneric.Element.accessors (TASN1Class.ofByte (aSource.headD 0)) hlen he
    have h1 : body' = body := by simpa using hbody.symm.trans h.content
    have h2 : t ++ l ++ body' = enc := Except.ok.inj (henc.symm.trans h.encoding)
    subst h1 h2
    have h3 : rest' = rest := append_cancel_left (he.source.symm.trans h.source)
    exact ⟨t, l, T, rfl, h3 ▸ he, rfl⟩
  · rintro ⟨t, l, T, rfl, he, rfl⟩
    obtain ⟨hder, hbody, henc, -⟩ :=
      TASN1DecGeneric.Element.accessors (TASN1Class.ofByte (aSource.headD 0)) hlen he
    have ht := length_pos_iff.mpr he.tag.ne_nil
    have hl := length_pos_iff.mpr he.length.ne_nil
    refine ⟨he.source, ((initL_inside hlen).mpr ⟨_, _, _, _, _, he, rfl⟩).1, hbody, henc, hder, ?_⟩
    simp only [length_append]
    omega

/-- A row of elements, as a grammar on the octets alone. -/
inductive ElementRow : Bytes → Prop
  | nil : ElementRow []
  | cons {s t l body rest : Bytes} {T : UInt32} (h : Element s t l body rest T)
      (hs : ElementRow rest) : ElementRow s

theorem elementRow_iff {s : Bytes} (hlen : s.length ≤ KMaxTInt) :
    ElementRow s ↔ ∃ gs, Elements s gs := by
  constructor
  · intro h
    induction h with
    | nil => exact ⟨[], .nil⟩
    | @cons s t l body rest T h hs ih =>
      have hsrc := congrArg List.length h.source
      simp only [length_append] at hsrc
      obtain ⟨gs, hgs⟩ := ih (by omega)
      exact ⟨_, .cons ((holds_iff hlen).mpr ⟨t, l, T, rfl, h, rfl⟩) hgs⟩
  · intro h
    obtain ⟨gs, hgs⟩ := h
    induction hgs with
    | nil => exact .nil
    | @cons s enc body rest g gs h hs ih =>
      have hsrc := congrArg List.length h.source
      simp only [length_append] at hsrc
      obtain ⟨t, l, T, -, he, -⟩ := (holds_iff hlen).mp h
      exact .cons he (ih (by omega))

/-- An element takes at least two octets. -/
theorem Elements.length_le {s : Bytes} (h : Elements s gs) : 2 * gs.length ≤ s.length := by
  induction h with
  | nil => exact Nat.le_refl _
  | @cons s enc body rest g gs h hs ih =>
      have h1 := congrArg List.length h.source
      have h2 := h.header
      rw [length_append] at h1
      rw [length_cons]
      omega

theorem Holds.of_initL (hlen : aSource.length ≤ KMaxTInt)
    (h : initL aSource = .ok g) (hpos : ¬ g.lengthDER < 0) :
    ∃ enc body rest, Holds aSource g enc body rest := by
  obtain ⟨t, l, body, rest, T, he, rfl⟩ := (initL_inside hlen).mp ⟨h, hpos⟩
  exact ⟨_, body, rest, (holds_iff hlen).mpr ⟨t, l, T, rfl, he, rfl⟩⟩

/-- Contents can only be taken out of an element the string holds. -/
theorem Holds.of_content (hlen : aSource.length ≤ KMaxTInt)
    (h : initL aSource = .ok g) (hbody : g.getContentDER = .ok body) :
    ∃ enc rest, Holds aSource g enc body rest := by
  obtain ⟨h0, h1, h2, -⟩ := TDes.mid_ok hbody
  obtain ⟨t, l, contents, hh⟩ := initL_eq_ok.mp h
  have hpos : ¬ g.lengthDER < 0 := by
    rw [hh.encoding] at h2
    unfold TASN1DecGeneric.lengthDER
    rw [TInt.wrap_of_range (by unfold KMinTInt; omega) (by omega)]
    omega
  obtain ⟨enc, body', rest, hg⟩ := Holds.of_initL hlen h hpos
  obtain rfl : body' = body := Except.ok.inj (hg.content.symm.trans hbody)
  exact ⟨enc, rest, hg⟩

theorem Holds.ne_nil {enc rest : Bytes} (h : Holds aSource g enc body rest) : aSource ≠ [] := by
  intro hnil
  have h1 := congrArg List.length h.source
  have h2 := h.header
  rw [hnil, length_append, length_nil] at h1
  omega

theorem Holds.drop {enc rest : Bytes} (h : Holds aSource g enc body rest) :
    aSource.drop g.lengthDER.toNat = rest := by
  rw [h.lengthDER, Int.toNat_natCast, h.source, drop_left]

namespace TASN1DecSequence

theorem decodeContents_eq_ok {n : Nat} (hn : aSource.length ≤ n)
    (hlen : aSource.length ≤ KMaxTInt) :
    decodeContents n aSource = .ok gs ↔ Elements aSource gs := by
  induction n generalizing aSource gs with
  | zero =>
      obtain rfl : aSource = [] := length_eq_zero_iff.mp (Nat.le_zero.mp hn)
      rw [decodeContents, Except.ok.injEq]
      constructor
      · rintro rfl
        exact .nil
      · intro h
        cases h with
        | nil => rfl
        | cons h hs => exact absurd rfl h.ne_nil
  | succ n ih =>
      cases aSource with
      | nil =>
        rw [decodeContents, Except.ok.injEq]
        constructor
        · rintro rfl
          exact .nil
        · intro h
          cases h with
          | nil => rfl
          | cons h hs => exact absurd rfl h.ne_nil
      | cons b bs =>
        have hrest : ∀ {g enc body rest}, Holds (b :: bs) g enc body rest →
            rest.length ≤ n ∧ (rest.length : Int) ≤ KMaxTInt := by
          intro g enc body rest h
          have h1 := congrArg List.length h.source
          have h2 := h.header
          rw [length_append] at h1
          omega
        simp only [decodeContents, bind_eq_ok]
        constructor
        · rintro ⟨g, hg, h⟩
          split at h
          · simp [panic] at h
          · rename_i hpos
            simp only [leaving_pure, bind_eq_ok, Except.ok.injEq] at h
            obtain ⟨gs', hgs, rfl⟩ := h
            obtain ⟨enc, body, rest, hh⟩ := Holds.of_initL hlen hg hpos
            rw [hh.drop] at hgs
            exact .cons hh ((ih (hrest hh).1 (hrest hh).2).mp hgs)
        · intro h
          cases h with
          | @cons _ enc body rest g gs' hh hs =>
            refine ⟨g, hh.init, ?_⟩
            rw [if_neg (by rw [hh.lengthDER]; omega)]
            simp only [leaving_pure, bind_eq_ok]
            rw [hh.drop]
            exact ⟨gs', (ih (hrest hh).1 (hrest hh).2).mpr hs, rfl⟩

theorem decodeContentsL_eq_ok (hlen : aSource.length ≤ KMaxTInt) :
    decodeContentsL aSource = .ok gs ↔ Elements aSource gs :=
  decodeContents_eq_ok (Nat.le_refl _) hlen

/-- **Decoding a sequence at the start of a string takes one element off it and splits
that element's contents.** -/
theorem decodeDERLC_eq_ok {aPos : Int} (hlen : aSource.length ≤ KMaxTInt) :
    decodeDERLC aSource 0 = .ok (gs, aPos) ↔ ∃ g enc body rest,
      Holds aSource g enc body rest ∧ Elements body gs ∧ aPos = enc.length := by
  have hright : TDes.right aSource ((aSource.length : Int) - 0) = .ok aSource := by
    unfold TDes.right
    rw [if_neg (by omega)]
    simp
  have hle : ∀ {g enc body rest}, Holds aSource g enc body rest →
      (body.length : Int) ≤ KMaxTInt ∧ TInt.wrap (0 + g.lengthDER) = enc.length := by
    intro g enc body rest h
    have h1 := congrArg List.length h.source
    have h2 := h.header
    rw [length_append] at h1
    rw [Int.zero_add, h.lengthDER]
    exact ⟨by omega, TInt.wrap_of_range (by unfold KMinTInt; omega) (by omega)⟩
  simp only [decodeDERLC, hright, ok_bind, bind_eq_ok, leaving_pure, Except.ok.injEq, Prod.mk.injEq]
  constructor
  · rintro ⟨g, hg, body, hbody, gs', hgs, rfl, rfl⟩
    obtain ⟨enc, rest, hh⟩ := Holds.of_content hlen hg hbody
    exact ⟨g, enc, body, rest, hh, (decodeContentsL_eq_ok (hle hh).1).mp hgs, (hle hh).2⟩
  · rintro ⟨g, enc, body, rest, hh, hgs, rfl⟩
    exact ⟨g, hh.init, body, hh.content, gs, (decodeContentsL_eq_ok (hle hh).1).mpr hgs, rfl,
      (hle hh).2⟩

theorem decodeRangeLC_eq_ok {aPos aMin aMax : Int} :
    decodeRangeLC aSource 0 aMin aMax = .ok (gs, aPos) ↔
      decodeDERLC aSource 0 = .ok (gs, aPos) ∧ aMin ≤ gs.length ∧ gs.length ≤ aMax := by
  simp only [decodeRangeLC, bind_eq_ok, leaving_pure, Prod.exists]
  constructor
  · intro h
    obtain ⟨gs', aPos', hdec, h⟩ := h
    split at h
    · simp [leave] at h
    · rename_i hrange
      rw [not_or] at hrange
      obtain ⟨rfl, rfl⟩ := Prod.mk.inj (Except.ok.inj h)
      exact ⟨hdec, Int.not_lt.mp hrange.1, Int.not_lt.mp hrange.2⟩
  · intro h
    obtain ⟨hdec, hmin, hmax⟩ := h
    refine ⟨gs, aPos, hdec, ?_⟩
    rw [if_neg (by omega)]

end TASN1DecSequence

/-! ### Object identifiers

An object identifier is decoded to its dotted decimal text, and the rest of the
repository compares texts.
-/

def KNumberOfIDs : Nat := 15

def appendNum (n : Int) : Text :=
  (if n < 0 then [45] else []) ++ (Nat.toDigits 10 n.natAbs).map fun c => c.toNat.toUInt16

/-- The arcs of an object identifier, joined by dots. -/
def dotted : List Int → Text
  | [] => []
  | [n] => appendNum n
  | n :: rest => appendNum n ++ 46 :: dotted rest

namespace TASN1DecObjectIdentifier

/-- The two nested loops over the octets behind the first, as one: `SubID` is the arc
read so far and `SIDn` the number of arcs before it. -/
def decodeArcs (SIDn : Nat) (SubID : Int) : Bytes → Leaving (List Int)
  | [] => .ok []
  | b :: rest =>
    -- if shifting by 7 does not increase the value its overflowed
    if SubID ≠ 0 ∧ TInt.wrap (SubID * 128) ≤ SubID then leave KErrOverflow
    else if 128 ≤ b then
      if rest = [] then leave KErrArgument
      else decodeArcs SIDn (TInt.wrap (SubID * 128) + (b &&& 0x7f).toNat) rest
    else if KNumberOfIDs ≤ SIDn then leave KErrOverflow
    else do
      let arcs ← decodeArcs (SIDn + 1) 0 rest
      return (TInt.wrap (SubID * 128) + b.toNat) :: arcs

def decodeContentsL : Bytes → Leaving (List Int)
  | [] => leave KErrArgument
  | b :: rest => do
    let arcs ← decodeArcs 2 0 rest
    if 80 ≤ b then
      return 2 :: (b.toNat - 80 : Int) :: arcs
    else if 40 ≤ b then
      return 1 :: (b.toNat - 40 : Int) :: arcs
    else
      return 0 :: (b.toNat : Int) :: arcs

def decodeDERL (aSource : TASN1DecGeneric) : Leaving Text := do
  return dotted (← decodeContentsL (← aSource.getContentDER))

theorem decodeDERL_of_content (h : g.getContentDER = .ok body) :
    decodeDERL g = (decodeContentsL body).map dotted := by
  unfold decodeDERL
  rw [h, ok_bind]
  cases decodeContentsL body <;> rfl

end TASN1DecObjectIdentifier

/-! ### The other primitive types -/

namespace TASN1DecNull

def decodeDERL (aSource : TASN1DecGeneric) : Leaving Unit := do
  let contents ← aSource.encoding
  match contents with
  | [b, c] => if c ≠ 0 ∨ b &&& 0x05 = 0 then leave KErrArgument else .ok ()
  | _ => leave KErrArgument

end TASN1DecNull

namespace TASN1DecOctetString

def decodeDERL (aSource : TASN1DecGeneric) : Leaving Bytes := aSource.getContentDER

end TASN1DecOctetString

namespace TASN1DecBoolean

def decodeDERL (aSource : TASN1DecGeneric) : Leaving Bool := do
  match ← aSource.getContentDER with
  | [b] => if b = 0 then .ok false else if b = 0xff then .ok true else leave KErrArgument
  | _ => leave KErrArgument

end TASN1DecBoolean

namespace TASN1DecInteger

/-- `DecodeDERShortL`, with `sizeof(TInt)` being 4. -/
def decodeDERShortL (aSource : TASN1DecGeneric) : Leaving Int := do
  match ← aSource.getContentDER with
  | [] => leave KErrArgument
  | b :: bs =>
    if 4 < (b :: bs).length then
      leave KErrTooBig
    else
      let res : Int := if b &&& 128 ≠ 0 then -1 else 0
      .ok ((b :: bs).foldl (fun res c => TInt.wrap (res * 256 + c.toNat)) res)

end TASN1DecInteger

namespace TASN1DecBitString

def extractOctetStringL (aSource : TASN1DecGeneric) : Leaving Bytes := do
  match ← aSource.getContentDER with
  | [] => .ok []
  | [_] => leave KErrArgument
  | paddingLength :: c :: cs =>
    if 7 < paddingLength then
      leave KErrArgument
    else
      let last := (c :: cs).getLastD 0 &&& (255 <<< paddingLength)
      .ok ((c :: cs).dropLast ++ [last])

end TASN1DecBitString

/-! ### Strings

The printable, IA5 and teletex decoders copy each octet to a character, whatever it
is: `CheckValid` is never called.
-/

/-- `TDes16::Copy(const TDesC8&)` -/
def widen (aSource : Bytes) : Text := aSource.map UInt8.toUInt16

namespace TASN1DecPrintableString

def decodeDERL (aSource : TASN1DecGeneric) : Leaving Text := do
  return widen (← aSource.getContentDER)

end TASN1DecPrintableString

namespace TASN1DecIA5String

def decodeDERL (aSource : TASN1DecGeneric) : Leaving Text := do
  return widen (← aSource.getContentDER)

end TASN1DecIA5String

namespace TASN1DecTeletexString

def decodeDERL (aSource : TASN1DecGeneric) : Leaving Text := do
  return widen (← aSource.getContentDER)

end TASN1DecTeletexString

namespace TASN1DecBMPString

/-- The octets as little-endian 16-bit characters; an odd one at the end is dropped. -/
def decodeContents : Bytes → Text
  | lo :: hi :: rest => (lo.toUInt16 + (hi.toUInt16 <<< 8)) :: decodeContents rest
  | _ => []

def decodeDERL (aSource : TASN1DecGeneric) : Leaving Text := do
  return decodeContents (← aSource.getContentDER)

end TASN1DecBMPString

end OsSecurity

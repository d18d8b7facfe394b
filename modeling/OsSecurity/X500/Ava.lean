/-
One attribute of a distinguished name: `CX520AttributeTypeAndValue`.

An attribute is its type, as the dotted text of an object identifier, and its value,
still encoded.  Decoding is done anew for each comparison: the type decides which string
types are allowed and how long the text may be.

Two attributes match when their types are equal and their trimmed texts are, and whether
case counts is decided by the left one alone: it does not for a PrintableString, nor for
three types.  Since the string type is not compared, a PrintableString and another string
of the same type apply different rules to the same pair of texts.
-/
import OsSecurity.Asn1.Utf8
import OsSecurity.Platform
import OsSecurity.Library.OneSided

namespace OsSecurity

open TASN1DecPrintableString

def KX520CountryName : Text := dotted [2, 5, 4, 6]
def KX520OrganizationName : Text := dotted [2, 5, 4, 10]
def KX520OrganizationalUnitName : Text := dotted [2, 5, 4, 11]
def KX520LocalityName : Text := dotted [2, 5, 4, 7]
def KX520StateOrProvinceName : Text := dotted [2, 5, 4, 8]
def KX520Title : Text := dotted [2, 5, 4, 12]
def KX520CommonName : Text := dotted [2, 5, 4, 3]
def KX520GivenName : Text := dotted [2, 5, 4, 42]
def KX520Surname : Text := dotted [2, 5, 4, 4]
def KX520Initials : Text := dotted [2, 5, 4, 43]
def KX520GenerationQualifier : Text := dotted [2, 5, 4, 44]
def KX520DNQualifier : Text := dotted [2, 5, 4, 46]
def KX520SerialNumber : Text := dotted [2, 5, 4, 5]
def KX520Description : Text := dotted [2, 5, 4, 13]
def KX520PostalCode : Text := dotted [2, 5, 4, 17]
def KRFC2247DomainComponent : Text := dotted [0, 9, 2342, 19200300, 100, 1, 25]
def KRFC2256Street : Text := dotted [2, 5, 4, 9]
def KPKCS9UnstructuredName : Text := dotted [1, 2, 840, 113549, 1, 9, 2]
def KPKCS9EmailAddress : Text := dotted [1, 2, 840, 113549, 1, 9, 1]

def KX520MaxCLength : Int := 2
def KX520MaxOLength : Int := 64
def KX520MaxOULength : Int := 64
def KX520MaxLLength : Int := 128
def KX520MaxSOPLength : Int := 128
def KX520MaxTLength : Int := 64
def KX520MaxCNLength : Int := 256
def KX520MaxGNLength : Int := 16
def KX520MaxSLength : Int := 40
def KX520MaxILength : Int := 5
def KX520MaxGQLength : Int := 3
def KX520MaxSNLength : Int := 64
def KX520MaxPostalCodeLength : Int := 40
def KPKCS9MaxEmailAddressLength : Int := 256
def KPKCS9MaxUnstructuredNameLength : Int := 256
def KRFC2247MaxDomainComponentLength : Int := 128
def KRFC2256StreetLength : Int := 128
def KX520MaxDescriptionLength : Int := 1024

/-- The check on a decoded text, wherever one is made. -/
def limitedTo (aMaxLength : Int) (res : Text) : Leaving Text :=
  if aMaxLength < res.length then leave KErrArgument else .ok res

namespace TASN1DecX500DirectoryString

/-- The switch on the string type. -/
def decodeChoiceL (aSource : TASN1DecGeneric) : Leaving Text :=
  if aSource.tag = EASN1TeletexString then TASN1DecTeletexString.decodeDERL aSource
  else if aSource.tag = EASN1PrintableString then TASN1DecPrintableString.decodeDERL aSource
  else if aSource.tag = EASN1IA5String then TASN1DecIA5String.decodeDERL aSource
  else if aSource.tag = EASN1UTF8String then TASN1DecUTF8String.decodeDERL aSource
  else if aSource.tag = EASN1BMPString then TASN1DecBMPString.decodeDERL aSource
  else leave KErrNotSupported

def decodeContentsL (aSource : TASN1DecGeneric) (aMaxLength : Int) : Leaving Text := do
  limitedTo aMaxLength (← decodeChoiceL aSource)

end TASN1DecX500DirectoryString

structure CX520AttributeTypeAndValue where
  iType : Text
  iValue : Bytes

namespace CX520AttributeTypeAndValue

/-- The types whose value is a DirectoryString, each with its `maxLength`. -/
def directoryStrings : List (Text × Int) :=
  [(KX520OrganizationName, KX520MaxOLength), (KX520OrganizationalUnitName, KX520MaxOULength),
    (KX520LocalityName, KX520MaxLLength), (KX520StateOrProvinceName, KX520MaxSOPLength),
    (KX520Title, KX520MaxTLength), (KX520CommonName, KX520MaxCNLength),
    (KX520Surname, KX520MaxSLength), (KX520GivenName, KX520MaxGNLength),
    (KX520Initials, KX520MaxILength), (KX520GenerationQualifier, KX520MaxGQLength),
    (KX520PostalCode, KX520MaxPostalCodeLength), (KRFC2256Street, KRFC2256StreetLength),
    (KX520Description, KX520MaxDescriptionLength)]

/-- The decoder `ValueL` picks for a type; it is called on the element in `iValue`. -/
def decoder (iType : Text) : Option (TASN1DecGeneric → Leaving Text) :=
  if iType = KX520CountryName then
    some fun gen => do limitedTo KX520MaxCLength (← TASN1DecPrintableString.decodeDERL gen)
  else if iType = KX520DNQualifier then
    some TASN1DecPrintableString.decodeDERL
  else if iType = KPKCS9EmailAddress then
    some fun gen => do
      limitedTo KPKCS9MaxEmailAddressLength (← TASN1DecIA5String.decodeDERL gen)
  else if iType = KRFC2247DomainComponent then
    some fun gen => do
      limitedTo KRFC2247MaxDomainComponentLength (← TASN1DecIA5String.decodeDERL gen)
  else if iType = KX520SerialNumber then
    some fun gen => do limitedTo KX520MaxSNLength (← TASN1DecPrintableString.decodeDERL gen)
  else if iType = KPKCS9UnstructuredName then
    some fun gen =>
      if gen.tag = EASN1IA5String then do
        limitedTo KPKCS9MaxUnstructuredNameLength (← TASN1DecIA5String.decodeDERL gen)
      else
        TASN1DecX500DirectoryString.decodeContentsL gen KPKCS9MaxUnstructuredNameLength
  else
    (directoryStrings.lookup iType).map fun maxLength gen =>
      TASN1DecX500DirectoryString.decodeContentsL gen maxLength

def valueL (self : CX520AttributeTypeAndValue) : Leaving Text :=
  match decoder self.iType with
  | some decode => do decode (← TASN1DecGeneric.initL self.iValue)
  | none => leave KErrNotSupported

def caseInsensitiveAttr (self : CX520AttributeTypeAndValue) : Bool :=
  self.iType = KPKCS9EmailAddress ∨ self.iType = KPKCS9UnstructuredName ∨
    self.iType = KX520Description

def isCaseInSensitiveL (self : CX520AttributeTypeAndValue) (aSource : Bytes) : Leaving Bool := do
  let gen ← TASN1DecGeneric.initL aSource
  return decide (gen.tag = EASN1PrintableString) || self.caseInsensitiveAttr

def exactMatchL (pf : Platform) (self aElement : CX520AttributeTypeAndValue) : Leaving Bool := do
  if self.iType ≠ aElement.iType then
    return false
  else
    let lhs ← self.valueL
    let rhs ← aElement.valueL
    let plhs := pf.trimAll lhs
    let prhs := pf.trimAll rhs
    if ← self.isCaseInSensitiveL self.iValue then
      return decide (pf.folded plhs = pf.folded prhs)
    else
      return decide (plhs = prhs)

/-- `ConstructL(const TDesC8&, TInt&)`: the attribute at a position, and the position
behind it. -/
def constructL (aBinaryData : Bytes) (aPos : Int) :
    Leaving (CX520AttributeTypeAndValue × Int) := do
  let dec ← TASN1DecGeneric.initL
    (← TDes.right aBinaryData (TInt.wrap (aBinaryData.length - aPos)))
  let end' := TInt.wrap (aPos + dec.lengthDER)
  let aPos := TInt.wrap (aPos + dec.lengthDERHeader)
  -- first element must be the id
  let first ← TASN1DecGeneric.initL
    (← TDes.right aBinaryData (TInt.wrap (aBinaryData.length - aPos)))
  let iType ← TASN1DecObjectIdentifier.decodeDERL first
  let aPos := TInt.wrap (aPos + first.lengthDER)
  -- second is the data
  let second ← TASN1DecGeneric.initL
    (← TDes.right aBinaryData (TInt.wrap (aBinaryData.length - aPos)))
  let iValue ← second.encoding
  let aPos := TInt.wrap (aPos + second.lengthDER)
  if aPos ≠ end' then
    leave KErrArgument
  return (⟨iType, iValue⟩, aPos)

/-! ### Attributes whose value decodes -/

/-- The value fits a descriptor and decodes. -/
def Decodes (self : CX520AttributeTypeAndValue) : Prop :=
  self.iValue.length ≤ KMaxTInt ∧ ∃ v, self.valueL = .ok v

/-- The text an attribute is compared by. -/
def trimmed (pf : Platform) (self : CX520AttributeTypeAndValue) : Text :=
  match self.valueL with
  | .ok v => pf.trimAll v
  | .error _ => []

/-- The rule an attribute applies when it stands on the left. -/
def Insensitive (self : CX520AttributeTypeAndValue) : Prop :=
  self.isCaseInSensitiveL self.iValue = .ok true

theorem Decodes.init {self : CX520AttributeTypeAndValue} (h : self.Decodes) :
    ∃ decode gen, decoder self.iType = some decode ∧
      TASN1DecGeneric.initL self.iValue = .ok gen ∧ self.valueL = decode gen := by
  obtain ⟨-, v, hv⟩ := h
  unfold valueL at hv ⊢
  split at hv
  · rename_i decode hdec
    obtain ⟨gen, hgen, -⟩ := bind_eq_ok.mp hv
    refine ⟨decode, gen, hdec, hgen, ?_⟩
    rw [hgen]
    rfl
  · exact absurd hv (leave_ne_ok _ _)

theorem insensitive_iff {self : CX520AttributeTypeAndValue} {gen : TASN1DecGeneric}
    (h : TASN1DecGeneric.initL self.iValue = .ok gen) :
    self.Insensitive ↔ gen.tag = EASN1PrintableString ∨ self.caseInsensitiveAttr = true := by
  unfold Insensitive isCaseInSensitiveL
  rw [h]
  simp

/-- **Attributes match by key, text and the rule of the left one.** -/
theorem exactMatchL_of_decodes (pf : Platform) {x y : CX520AttributeTypeAndValue}
    (hx : x.Decodes) (hy : y.Decodes) : ∃ res, x.exactMatchL pf y = .ok res ∧
      (res = true ↔ OneSided.Rel iType (trimmed pf) pf.folded Insensitive x y) := by
  obtain ⟨-, gen, -, hgen, -⟩ := hx.init
  obtain ⟨-, vx, hvx⟩ := hx
  obtain ⟨-, vy, hvy⟩ := hy
  unfold exactMatchL
  by_cases htype : x.iType = y.iType
  · rw [if_neg (not_not.mpr htype), hvx, hvy, ok_bind, ok_bind]
    have hrule : ∃ r, x.isCaseInSensitiveL x.iValue = .ok r := by
      unfold isCaseInSensitiveL
      rw [hgen]
      exact ⟨_, rfl⟩
    obtain ⟨r, hr⟩ := hrule
    have htx : x.trimmed pf = pf.trimAll vx := by unfold trimmed; rw [hvx]
    have hty : y.trimmed pf = pf.trimAll vy := by unfold trimmed; rw [hvy]
    rw [hr, ok_bind]
    cases r with
    | true =>
      refine ⟨_, rfl, ?_⟩
      simp [OneSided.Rel, htype, Insensitive, hr, htx, hty]
    | false =>
      refine ⟨_, rfl, ?_⟩
      simp [OneSided.Rel, htype, Insensitive, hr, htx, hty]
  · rw [if_pos htype]
    exact ⟨false, rfl, by simp [OneSided.Rel, htype]⟩

/-! ### Every PrintableString has a strict twin

The tag of a value only picks the decoder, and the printable and teletex decoders are
the same, so a PrintableString retagged as a TeletexString decodes to the same text and
is compared strictly.
-/

section

variable {iType : Text} {decode : TASN1DecGeneric → Leaving Text}
  (hdec : decoder iType = some decode)
include hdec

private theorem decoder_retag {g g' : TASN1DecGeneric} {body : Bytes}
    (hattr : iType ≠ KPKCS9UnstructuredName) (hg : g.getContentDER = .ok body)
    (hg' : g'.getContentDER = .ok body) (ht : g.tag = EASN1PrintableString)
    (ht' : g'.tag = EASN1TeletexString) : decode g' = decode g := by
  unfold decoder at hdec
  have hdir : ∀ n, TASN1DecX500DirectoryString.decodeContentsL g' n =
      TASN1DecX500DirectoryString.decodeContentsL g n := by
    intro n
    unfold TASN1DecX500DirectoryString.decodeContentsL TASN1DecX500DirectoryString.decodeChoiceL
    rw [ht, ht', if_pos rfl, if_neg (by decide), if_pos rfl]
    unfold TASN1DecTeletexString.decodeDERL decodeDERL
    rw [hg, hg']
  have hprint : decodeDERL g' = decodeDERL g := by
    unfold decodeDERL
    rw [hg, hg']
  have hia5 : TASN1DecIA5String.decodeDERL g' = TASN1DecIA5String.decodeDERL g := by
    unfold TASN1DecIA5String.decodeDERL
    rw [hg, hg']
  rw [if_neg hattr] at hdec
  split_ifs at hdec
  · cases hdec; simp only [hprint]
  · cases hdec; exact hprint
  · cases hdec; simp only [hia5]
  · cases hdec; simp only [hia5]
  · cases hdec; simp only [hprint]
  · obtain ⟨n, -, rfl⟩ := Option.map_eq_some_iff.mp hdec
    exact hdir n

/-- Whatever the decoder, it starts by taking the contents. -/
private theorem decoder_content {g : TASN1DecGeneric} {v : Text} (hok : decode g = .ok v) :
    ∃ body, g.getContentDER = .ok body := by
  cases hc : g.getContentDER with
  | ok body => exact ⟨body, rfl⟩
  | error e =>
      exfalso
      have hprint : decodeDERL g = .error e := by
        unfold decodeDERL
        rw [hc]
        rfl
      have hia5 : TASN1DecIA5String.decodeDERL g = .error e := by
        unfold TASN1DecIA5String.decodeDERL
        rw [hc]
        rfl
      have hdir : ∀ n, TASN1DecX500DirectoryString.decodeContentsL g n ≠ .ok v := by
        intro n hn
        obtain ⟨res, hres, -⟩ := bind_eq_ok.mp hn
        unfold TASN1DecX500DirectoryString.decodeChoiceL TASN1DecTeletexString.decodeDERL
          TASN1DecUTF8String.decodeDERL TASN1DecBMPString.decodeDERL at hres
        rw [hprint, hia5, hc] at hres
        split_ifs at hres <;> simp [leave] at hres
      unfold decoder at hdec
      split_ifs at hdec
      · cases hdec; simp [hprint] at hok
      · cases hdec; simp [hprint] at hok
      · cases hdec; simp [hia5] at hok
      · cases hdec; simp [hia5] at hok
      · cases hdec; simp [hprint] at hok
      · cases hdec
        by_cases htag : g.tag = EASN1IA5String
        · simp [htag, hia5] at hok
        · simp only [if_neg htag] at hok
          exact hdir _ hok
      · obtain ⟨n, -, rfl⟩ := Option.map_eq_some_iff.mp hdec
        exact hdir n hok

end

/-- **A PrintableString of a type whose rule depends on the string type has a strict twin.** -/
theorem exists_twin (pf : Platform) {y : CX520AttributeTypeAndValue} (hy : y.Decodes)
    (hloose : y.Insensitive)
    (hx : ∃ x : CX520AttributeTypeAndValue, x.Decodes ∧ ¬ x.Insensitive ∧ x.iType = y.iType) :
    ∃ y' : CX520AttributeTypeAndValue, y'.Decodes ∧ ¬ y'.Insensitive ∧ y'.iType = y.iType ∧
      y'.trimmed pf = y.trimmed pf := by
  obtain ⟨x, hxd, hxs, hxt⟩ := hx
  obtain ⟨-, gx, -, hgx, -⟩ := hxd.init
  have hattr : ¬ y.caseInsensitiveAttr = true := by
    intro h
    refine hxs ((insensitive_iff hgx).mpr (Or.inr ?_))
    simpa [caseInsensitiveAttr, hxt] using h
  obtain ⟨decode, g, hdec, hg, hval⟩ := hy.init
  have htag := ((insensitive_iff hg).mp hloose).resolve_right hattr
  obtain ⟨hlen, v, hv⟩ := hy
  rw [hval] at hv
  obtain ⟨body, hbody⟩ := decoder_content hdec hv
  obtain ⟨enc, rest, hh⟩ := Holds.of_content hlen hg hbody
  obtain ⟨t, l, T, -, he, hgeq⟩ := (holds_iff hlen).mp hh
  have hsrc := congrArg List.length he.source
  have ht := List.length_pos_iff.mpr he.tag.ne_nil
  simp only [List.length_append] at hsrc
  -- the same element, with the one-octet tag of a TeletexString
  have he' : Element ([0x14] ++ l ++ body ++ rest) [0x14] l body rest EASN1TeletexString :=
    ⟨rfl, .low (b := 0x14) (by decide), he.length, he.behind⟩
  have hlen' : (([0x14] ++ l ++ body ++ rest).length : Int) ≤ KMaxTInt := by
    simp only [List.length_append, List.length_singleton]
    omega
  have hh' := (holds_iff hlen').mpr ⟨[0x14], l, EASN1TeletexString, rfl, he', rfl⟩
  have hname : y.iType ≠ KPKCS9UnstructuredName := by
    intro h
    exact hattr (by simp [caseInsensitiveAttr, h])
  have hsame := decoder_retag hdec hname hh.content hh'.content htag rfl
  let y' : CX520AttributeTypeAndValue := ⟨y.iType, [0x14] ++ l ++ body ++ rest⟩
  have hval' : y'.valueL = .ok v := by
    unfold valueL
    rw [hdec]
    show (do decode (← TASN1DecGeneric.initL ([0x14] ++ l ++ body ++ rest))) = _
    rw [hh'.init, ok_bind, hsame, hv]
  refine ⟨y', ⟨hlen', v, hval'⟩, ?_, rfl, ?_⟩
  · rw [insensitive_iff hh'.init]
    rintro (h | h)
    · exact absurd h (show EASN1TeletexString ≠ EASN1PrintableString by decide)
    · exact hattr h
  · unfold trimmed
    rw [hval', hval, hv]

end CX520AttributeTypeAndValue

end OsSecurity

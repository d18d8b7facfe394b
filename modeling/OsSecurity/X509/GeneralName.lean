/-
Names other than distinguished names: `x509gn.cpp`.

A domain name is cut at its dots into a list of parts, in which the dots are parts too.
It lies in a subtree when the subtree's parts match its own last parts, one by one, as
wild card patterns.  An e-mail address puts its local host in front of the parts.

The host of a URI is looked for behind the first `@`, or else behind the first `//`;
that neither is there is not noticed, and the host then starts at the second character.
-/
import OsSecurity.Asn1.Decoders
import OsSecurity.Platform

namespace OsSecurity

def KX509MaxDNSNameLabelLength : Nat := 63

/-- A parsed domain name: the parts between the dots, and the dots. -/
structure CX509DomainName where
  iName : Text
  iRep : List Text

namespace CX509DomainName

/-- `KX509SubdomainSeparator` -/
def separator : Text := [46]

def isAlpha (aChar : UInt16) : Bool := (97 ≤ aChar ∧ aChar ≤ 122) ∨ (65 ≤ aChar ∧ aChar ≤ 90)

def isAlphaOrNum (aChar : UInt16) : Bool :=
  isAlpha aChar ∨ (48 ≤ aChar ∧ aChar ≤ 57) ∨ aChar = 42

def isValidChar (aChar : UInt16) : Bool := isAlphaOrNum aChar ∨ aChar = 45 ∨ aChar = 42

/-- `AddSubdomainL`: whether one was added, the position behind it, and the parts. -/
def addSubdomainL (pf : Platform) (isValidString : Text → Bool) (iName : Text) (aPos : Int)
    (iRep : List Text) : Bool × Int × List Text :=
  if iName.length ≤ aPos then (false, aPos, iRep)
  else
    let whatsLeft := iName.drop aPos.toNat
    let found := pf.findF whatsLeft separator
    if found = 0 then (false, aPos, iRep)
    else
      let subdomainEnd := if found = KErrNotFound then iName.length - aPos else found
      let subdomain := whatsLeft.take subdomainEnd.toNat
      if isValidString subdomain then (true, aPos + subdomainEnd, iRep ++ [subdomain])
      else (false, aPos + subdomainEnd, iRep)

/-- `AddSubdomainSeparatorL`: the position and the parts, with the dot when there is one. -/
def addSubdomainSeparatorL (pf : Platform) (iName : Text) (aPos : Int) (iRep : List Text) :
    Int × List Text :=
  if iName.length ≤ aPos then (aPos, iRep)
  else
    let whatsLeft := iName.drop aPos.toNat
    if pf.findF whatsLeft separator = 0 then (aPos + 1, iRep ++ [whatsLeft.take 1])
    else (aPos, iRep)

/-- The loop of `AddDomainL`: a subdomain, then a dot, until the end of the name. -/
def addDomain (pf : Platform) (isValidString : Text → Bool) (iName : Text) :
    Nat → Int → List Text → Leaving (List Text)
  -- a loop that makes no progress appends until the array cannot grow
  | 0, _, _ => leave KErrNoMemory
  | n + 1, aPos, iRep =>
    let (res, aPos, iRep) := addSubdomainL pf isValidString iName aPos iRep
    if ¬ res then leave KErrArgument
    else if aPos = iName.length then .ok iRep
    else
      let (aPos, iRep) := addSubdomainSeparatorL pf iName aPos iRep
      addDomain pf isValidString iName n aPos iRep

/-- `AddDomainL` and the `User::Leave(KErrArgument)` of each of its callers. -/
def addDomainL (pf : Platform) (isValidString : Text → Bool) (iName : Text) (aPos : Int)
    (iRep : List Text) : Leaving CX509DomainName := do
  return ⟨iName, ← addDomain pf isValidString iName (iName.length + 1) aPos iRep⟩

def isWithinSubtree (pf : Platform) (self aName : CX509DomainName) : Bool :=
  aName.iRep.length ≤ self.iRep.length ∧
    (self.iRep.reverse.zip aName.iRep.reverse).all fun (mine, other) =>
      pf.matchF mine other ≠ KErrNotFound

/-- The IA5String a name is constructed from. -/
def decodeNameL (aBinaryData : Bytes) : Leaving Text := do
  TASN1DecIA5String.decodeDERL (← TASN1DecGeneric.initL aBinaryData)

end CX509DomainName

/-! ### E-mail addresses -/

namespace CX509RFC822NameSubtree

def isValidChar (aChar : UInt16) : Bool :=
  aChar = 33 ∨ (35 ≤ aChar ∧ aChar ≤ 40) ∨ aChar = 42 ∨ aChar = 43 ∨
    (45 ≤ aChar ∧ aChar ≤ 57) ∨ aChar = 61 ∨ aChar = 63 ∨ (65 ≤ aChar ∧ aChar ≤ 90) ∨
    (94 ≤ aChar ∧ aChar ≤ 126)

def isValidString (aStr : Text) : Bool := aStr.all isValidChar

/-- `AddLocalHostL`, at the start of the name. -/
def addLocalHostL (pf : Platform) (iName : Text) : Option (Int × List Text) :=
  let localHostLength := pf.findF iName [64]
  if localHostLength ≠ KErrNotFound ∧ 0 < localHostLength then
    -- skip the @ symbol
    some (localHostLength + 1, [iName.take localHostLength.toNat])
  else none

def newL (pf : Platform) (aBinaryData : Bytes) : Leaving CX509DomainName := do
  let iName ← CX509DomainName.decodeNameL aBinaryData
  let (pos, iRep) := (addLocalHostL pf iName).getD (0, [])
  let (pos, iRep) := CX509DomainName.addSubdomainSeparatorL pf iName pos iRep
  CX509DomainName.addDomainL pf isValidString iName pos iRep

end CX509RFC822NameSubtree

namespace CX509RFC822Name

def newL (pf : Platform) (aBinaryData : Bytes) : Leaving CX509DomainName := do
  let iName ← CX509DomainName.decodeNameL aBinaryData
  match CX509RFC822NameSubtree.addLocalHostL pf iName with
  | some (pos, iRep) =>
    CX509DomainName.addDomainL pf CX509RFC822NameSubtree.isValidString iName pos iRep
  | none => leave KErrArgument

end CX509RFC822Name

/-! ### DNS names -/

namespace CX509DNSNameSubtree

def isValidString (aStr : Text) : Bool :=
  aStr.length ≤ KX509MaxDNSNameLabelLength ∧
    CX509DomainName.isAlphaOrNum (aStr.headD 0) ∧ CX509DomainName.isAlphaOrNum (aStr.getLastD 0) ∧
    aStr.all CX509DomainName.isValidChar

def newL (pf : Platform) (aBinaryData : Bytes) : Leaving CX509DomainName := do
  let iName ← CX509DomainName.decodeNameL aBinaryData
  -- a subtree may start with a period
  let (pos, iRep) := CX509DomainName.addSubdomainSeparatorL pf iName 0 []
  CX509DomainName.addDomainL pf isValidString iName pos iRep

end CX509DNSNameSubtree

namespace CX509DNSName

def newL (pf : Platform) (aBinaryData : Bytes) : Leaving CX509DomainName := do
  let iName ← CX509DomainName.decodeNameL aBinaryData
  CX509DomainName.addDomainL pf CX509DNSNameSubtree.isValidString iName 0 []

/-- `NewL(const TDesC&)` -/
def newFromStringL (pf : Platform) (aNameString : Text) : Leaving CX509DomainName :=
  let (pos, iRep) := CX509DomainName.addSubdomainSeparatorL pf aNameString 0 []
  CX509DomainName.addDomainL pf CX509DNSNameSubtree.isValidString aNameString pos iRep

end CX509DNSName

/-! ### URIs -/

namespace CX509IPBasedURI

def KX509URISchemeSpecificStartLength : Int := 2
def KX509URIUserPasswordEndLength : Int := 1

def extractHostNameL (pf : Platform) (iName : Text) : Leaving Text := do
  let schemeSpecificStart := pf.findF iName [47, 47] + KX509URISchemeSpecificStartLength
  let userPasswordEnd := pf.findF iName [64] + KX509URIUserPasswordEndLength
  let hostStart := if userPasswordEnd = 0 then schemeSpecificStart else userPasswordEnd
  if hostStart = KErrNotFound then
    leave KErrArgument
  let _ ← TDes.at' iName hostStart
  let whatsLeft := iName.drop hostStart.toNat
  let portStart := pf.findF whatsLeft [58]
  let urlPathStart := pf.findF whatsLeft [47]
  let hostEnd : Int :=
    if portStart = KErrNotFound then
      if urlPathStart = KErrNotFound then whatsLeft.length else urlPathStart
    else if urlPathStart = KErrNotFound then portStart
    -- both are there, choose the first one
    else if portStart < urlPathStart then portStart else urlPathStart
  return whatsLeft.take hostEnd.toNat

/-- The host of the URI, which is all that is compared. -/
def hostL (pf : Platform) (aBinaryData : Bytes) : Leaving CX509DomainName := do
  let iName ← CX509DomainName.decodeNameL aBinaryData
  CX509DNSName.newFromStringL pf (← extractHostNameL pf iName)

end CX509IPBasedURI

/-! ### IP addresses -/

namespace CX509IPSubnetMask

/-- The base address and the mask, one behind the other. -/
def newL (aBinaryData : Bytes) : Leaving Bytes := do
  let iName ← (← TASN1DecGeneric.initL aBinaryData).getContentDER
  if ¬ (iName.length = 8 ∨ iName.length = 32) then
    leave KErrArgument
  return iName

end CX509IPSubnetMask

namespace CX509IPAddress

def newL (aBinaryData : Bytes) : Leaving Bytes := do
  let iName ← (← TASN1DecGeneric.initL aBinaryData).getContentDER
  if ¬ (iName.length = 4 ∨ iName.length = 16) then
    leave KErrArgument
  return iName

def isWithinSubtree (iName aName : Bytes) : Bool :=
  aName.length / 2 = iName.length ∧
    List.zipWith (· &&& ·) iName (aName.drop iName.length) = aName.take iName.length

end CX509IPAddress

/-! ### General names -/

structure CX509GeneralName where
  iTag : UInt32
  iData : Bytes

namespace CX509GeneralName

/-- `ConstructL(const TDesC8&, TInt&)`: the name at a position, and the position behind it. -/
def constructL (aBinaryData : Bytes) (aPos : Int) : Leaving (CX509GeneralName × Int) := do
  let gen ← TASN1DecGeneric.initL (← TDes.right aBinaryData (TInt.wrap (aBinaryData.length - aPos)))
  let aPos := TInt.wrap (aPos + gen.lengthDER)
  if gen.cls ≠ .EContextSpecific then
    leave KErrArgument
  let iData ← if gen.tag = 4 then gen.getContentDER else gen.encoding
  return (⟨gen.tag, iData⟩, aPos)

def newL (aBinaryData : Bytes) : Leaving CX509GeneralName := do
  return (← constructL aBinaryData 0).1

def exactMatch (_self _aName : CX509GeneralName) : Bool := false

end CX509GeneralName

end OsSecurity

/-
Distinguished names: `CX500DistinguishedName`.

A name is the list of its attributes; which set each one came in is forgotten when the
name is decoded.  `ExactMatchL` counts the attributes of both names and then looks, for
each attribute of its argument, for some attribute of its own that the first one matches.

`matches_iff` reduces that to the one-sided matching of the library, for names whose
values decode, and `lawfulAt_iff` then says at which names it behaves like an equivalence.
-/
import OsSecurity.X500.Ava

namespace OsSecurity

open OneSided

structure CX500DistinguishedName where
  iElements : List CX520AttributeTypeAndValue

namespace CX500DistinguishedName

/-- The loop over the attributes of one set. -/
def constructRdnL : Nat → TASN1DecGeneric → Int → Int → Leaving (List CX520AttributeTypeAndValue)
  | 0, _, _, _ => leave KErrNoMemory
  | n + 1, rdn, rdnPos, rdnEnd =>
    if rdnPos < rdnEnd then do
      let (ava, rdnPos) ← CX520AttributeTypeAndValue.constructL (← rdn.encoding) rdnPos
      let others ← constructRdnL n rdn rdnPos rdnEnd
      return ava :: others
    else .ok []

/-- The loop over the sets, with the position it stops at. -/
def constructElementsL : Nat → Bytes → Int → Int →
    Leaving (List CX520AttributeTypeAndValue × Int)
  | 0, _, _, _ => leave KErrNoMemory
  | n + 1, aBinaryData, aPos, end' =>
    if aPos < end' then do
      let rdn ← TASN1DecGeneric.initL
        (← TDes.right aBinaryData (TInt.wrap (aBinaryData.length - aPos)))
      if rdn.tag ≠ EASN1Set then
        leave KErrArgument
      let rdnEnd := rdn.lengthDER
      let iElements ← constructRdnL (aBinaryData.length + 1) rdn rdn.lengthDERHeader rdnEnd
      let (others, aPos) ←
        constructElementsL n aBinaryData (TInt.wrap (aPos + rdnEnd)) end'
      return (iElements ++ others, aPos)
    else .ok ([], aPos)

/-- `ConstructL(const TDesC8&, TInt&)`.  An attribute and a set each take at least two
octets, so that the loops end within the length of the data. -/
def constructL (aBinaryData : Bytes) (aPos : Int) : Leaving (CX500DistinguishedName × Int) := do
  let dec ← TASN1DecGeneric.initL
    (← TDes.right aBinaryData (TInt.wrap (aBinaryData.length - aPos)))
  let end' := TInt.wrap (aPos + dec.lengthDER)
  let aPos := TInt.wrap (aPos + dec.lengthDERHeader)
  if dec.tag ≠ EASN1Sequence then
    leave KErrArgument
  let (iElements, aPos) ← constructElementsL (aBinaryData.length + 1) aBinaryData aPos end'
  if aPos ≠ end' then
    leave KErrArgument
  return (⟨iElements⟩, aPos)

def newL (aBinaryData : Bytes) : Leaving CX500DistinguishedName := do
  return (← constructL aBinaryData 0).1

def count (self : CX500DistinguishedName) : Nat := self.iElements.length

/-- `MatchElementL`, on the attributes of the name. -/
def matchElementL (pf : Platform) :
    List CX520AttributeTypeAndValue → CX520AttributeTypeAndValue → Leaving Bool
  | [], _ => .ok false
  | x :: xs, aElement => do
    if ← aElement.exactMatchL pf x then
      return true
    else
      matchElementL pf xs aElement

/-- The loop of `IsWithinSubtreeL` over the attributes of the argument. -/
def matchElementsL (pf : Platform) (self : CX500DistinguishedName) :
    List CX520AttributeTypeAndValue → Leaving Bool
  | [] => .ok true
  | e :: es => do
    if ← matchElementL pf self.iElements e then
      matchElementsL pf self es
    else
      return false

def isWithinSubtreeL (pf : Platform) (self aName : CX500DistinguishedName) : Leaving Bool :=
  matchElementsL pf self aName.iElements

def exactMatchL (pf : Platform) (self aName : CX500DistinguishedName) : Leaving Bool :=
  if self.count ≠ aName.count then .ok false
  else self.isWithinSubtreeL pf aName

/-! ### Names whose values decode -/

open CX520AttributeTypeAndValue (trimmed Insensitive)

def Decodes (self : CX500DistinguishedName) : Prop := ∀ x ∈ self.iElements, x.Decodes

theorem matchElementL_of_decodes (pf : Platform) {xs : List CX520AttributeTypeAndValue}
    {e : CX520AttributeTypeAndValue} (hxs : ∀ x ∈ xs, x.Decodes) (he : e.Decodes) :
    ∃ res, matchElementL pf xs e = .ok res ∧
      (res = true ↔ ∃ x ∈ xs, Rel (·.iType) (trimmed pf) pf.folded Insensitive e x) := by
  induction xs with
  | nil => exact ⟨false, rfl, by simp⟩
  | cons x xs ih =>
      obtain ⟨r, hr, hiff⟩ := CX520AttributeTypeAndValue.exactMatchL_of_decodes pf he
        (hxs x (List.mem_cons_self ..))
      rw [matchElementL, hr, ok_bind]
      cases r with
      | true => exact ⟨true, rfl, by simp [hiff.mp rfl]⟩
      | false =>
        obtain ⟨res, hres, hiff'⟩ := ih fun y hy => hxs y (List.mem_cons_of_mem _ hy)
        refine ⟨res, hres, ?_⟩
        have hx : ¬ Rel (·.iType) (trimmed pf) pf.folded Insensitive e x := by
          intro h
          exact absurd (hiff.mpr h) (by decide)
        rw [hiff']
        simp [hx]

theorem matchElementsL_of_decodes (pf : Platform) {self : CX500DistinguishedName}
    {es : List CX520AttributeTypeAndValue} (hself : self.Decodes) (hes : ∀ e ∈ es, e.Decodes) :
    ∃ res, matchElementsL pf self es = .ok res ∧ (res = true ↔ ∀ e ∈ es, ∃ x ∈ self.iElements,
      Rel (·.iType) (trimmed pf) pf.folded Insensitive e x) := by
  induction es with
  | nil => exact ⟨true, rfl, by simp⟩
  | cons e es ih =>
      obtain ⟨r, hr, hiff⟩ := matchElementL_of_decodes pf hself (hes e (List.mem_cons_self ..))
      obtain ⟨res, hres, hiff'⟩ := ih fun y hy => hes y (List.mem_cons_of_mem _ hy)
      rw [matchElementsL, hr, ok_bind]
      cases r with
      | true => exact ⟨res, hres, by rw [hiff', List.forall_mem_cons]; simp [hiff.mp rfl]⟩
      | false =>
        refine ⟨false, rfl, ?_⟩
        rw [List.forall_mem_cons, ← hiff]
        simp

/-- **On names whose values decode, `ExactMatchL` is the one-sided matching.** -/
theorem exactMatchL_iff (pf : Platform) (self aName : CX500DistinguishedName)
    (hself : self.Decodes) (hName : aName.Decodes) : self.exactMatchL pf aName = .ok true ↔
      Matches (·.iType) (trimmed pf) pf.folded Insensitive self.iElements
        aName.iElements := by
  unfold exactMatchL Matches count
  by_cases hcount : self.iElements.length = aName.iElements.length
  · rw [if_neg (not_not.mpr hcount)]
    obtain ⟨res, hres, hiff⟩ := matchElementsL_of_decodes pf hself hName
    unfold isWithinSubtreeL
    rw [hres, Except.ok.injEq, hiff]
    exact ⟨fun h => ⟨hcount, h⟩, fun h => h.2⟩
  · rw [if_pos hcount]
    simp [hcount]

/-! ### Where the matching is an equivalence -/

/-- The same attributes, each as often: equal types, and equal values under the case rule
of at least one of the two attributes. -/
def SameAttributes (pf : Platform) (A B : CX500DistinguishedName) : Prop :=
  OneSided.Same (·.iType) (trimmed pf) pf.folded Insensitive A.iElements B.iElements

/-- What an equivalence asks of the names that match `B`, and of those `B` matches. -/
structure EquivalenceAt (pf : Platform) (B : CX500DistinguishedName) : Prop where
  refl : B.exactMatchL pf B = .ok true
  symm : ∀ A : CX500DistinguishedName, A.Decodes → A.exactMatchL pf B = .ok true →
    B.exactMatchL pf A = .ok true
  trans : ∀ A C : CX500DistinguishedName, A.Decodes → C.Decodes →
    A.exactMatchL pf B = .ok true → B.exactMatchL pf C = .ok true →
    A.exactMatchL pf C = .ok true
  same : ∀ A : CX500DistinguishedName, A.Decodes → A.exactMatchL pf B = .ok true →
    A.SameAttributes pf B

/-- No attribute of the name matches another one, in either direction. -/
def NoRepeats (pf : Platform) (B : CX500DistinguishedName) : Prop :=
  OneSided.Distinct (·.iType) (trimmed pf) pf.folded Insensitive B.iElements

/-- An attribute compared without case has no variant of a string type compared with
case that is spelt differently. -/
def OneSpelling (pf : Platform) (B : CX500DistinguishedName) : Prop :=
  ∀ b ∈ B.iElements, b.Insensitive → ∀ d : CX520AttributeTypeAndValue, d.Decodes →
    ¬ d.Insensitive → d.iType = b.iType → pf.folded (d.trimmed pf) = pf.folded (b.trimmed pf) →
    d.trimmed pf = b.trimmed pf

/-- There are attributes of more than one type. -/
private theorem exists_other_type (k : Text) :
    ∃ z : CX520AttributeTypeAndValue, z.Decodes ∧ z.iType ≠ k := by
  have h : ∃ z : CX520AttributeTypeAndValue, z.Decodes ∧ z.iType = KX520CountryName :=
    ⟨⟨KX520CountryName, [0x13, 0x02, 0x47, 0x42]⟩, ⟨by decide, [0x47, 0x42], rfl⟩, rfl⟩
  have h' : ∃ z : CX520AttributeTypeAndValue, z.Decodes ∧ z.iType = KX520SerialNumber :=
    ⟨⟨KX520SerialNumber, [0x13, 0x01, 0x30]⟩, ⟨by decide, [0x30], rfl⟩, rfl⟩
  by_cases hk : k = KX520CountryName
  · obtain ⟨z, hz, ht⟩ := h'
    exact ⟨z, hz, by rw [ht, hk]; decide⟩
  · obtain ⟨z, hz, ht⟩ := h
    exact ⟨z, hz, by rw [ht]; exact fun e => hk e.symm⟩

private theorem equivalenceAt_iff_lawful (pf : Platform) {B : CX500DistinguishedName}
    (hB : B.Decodes) : B.EquivalenceAt pf ↔
      Lawful (·.iType) (trimmed pf) pf.folded Insensitive
        CX520AttributeTypeAndValue.Decodes B.iElements := by
  refine ⟨fun h => ⟨?_, fun A hA hm => ?_, fun A C hA hC hm hm' => ?_, fun A hA hm => ?_⟩,
    fun h => ⟨?_, fun A hA hm => ?_, fun A C hA hC hm hm' => ?_, fun A hA hm => ?_⟩⟩
  · exact (exactMatchL_iff pf B B hB hB).mp h.refl
  · exact (exactMatchL_iff pf B ⟨A⟩ hB hA).mp
      (h.symm ⟨A⟩ hA ((exactMatchL_iff pf ⟨A⟩ B hA hB).mpr hm))
  · exact (exactMatchL_iff pf ⟨A⟩ ⟨C⟩ hA hC).mp
      (h.trans ⟨A⟩ ⟨C⟩ hA hC ((exactMatchL_iff pf ⟨A⟩ B hA hB).mpr hm)
        ((exactMatchL_iff pf B ⟨C⟩ hB hC).mpr hm'))
  · exact h.same ⟨A⟩ hA ((exactMatchL_iff pf ⟨A⟩ B hA hB).mpr hm)
  · exact (exactMatchL_iff pf B B hB hB).mpr h.refl
  · exact (exactMatchL_iff pf B A hB hA).mpr
      (h.symm _ hA ((exactMatchL_iff pf A B hA hB).mp hm))
  · exact (exactMatchL_iff pf A C hA hC).mpr
      (h.trans _ _ hA hC ((exactMatchL_iff pf A B hA hB).mp hm)
        ((exactMatchL_iff pf B C hB hC).mp hm'))
  · exact h.same _ hA ((exactMatchL_iff pf A B hA hB).mp hm)

/-- **Matching is an equivalence at a name exactly when no two of its attributes match and
none that is compared without case has a differently spelt variant compared with case.** -/
theorem equivalenceAt_iff_of_decodes (pf : Platform) {B : CX500DistinguishedName}
    (hB : B.Decodes) : B.EquivalenceAt pf ↔ B.NoRepeats pf ∧ B.OneSpelling pf := by
  rw [equivalenceAt_iff_lawful pf hB]
  exact lawful_iff hB
    (fun y hy hloose hx => CX520AttributeTypeAndValue.exists_twin pf hy hloose hx)
    exists_other_type

end CX500DistinguishedName

end OsSecurity

/-
Whether the two ways the repository matches names are equivalences.

Issuers are chained to subjects, and self-signed certificates told from others, by
`CX500DistinguishedName::ExactMatchL`; alternative names are compared by
`CX509AltNameExt::Match`.  The first is an equivalence at some names, which
`DistinguishedName.lean` describes.  The second rests on `CX509GeneralName::ExactMatch`,
which is false of everything, and so holds of two empty lists and nothing else.
-/
import OsSecurity.X509.Extensions

namespace OsSecurity

namespace CX509AltNameExt

/-- What an equivalence asks of the lists that match `X`, and of those `X` matches. -/
structure EquivalenceAt (X : CX509AltNameExt) : Prop where
  refl : X.match' X = true
  symm : ∀ Y : CX509AltNameExt, Y.match' X = true → X.match' Y = true
  trans : ∀ Y Z : CX509AltNameExt, Y.match' X = true → X.match' Z = true → Y.match' Z = true

theorem match_eq_true (X Y : CX509AltNameExt) :
    X.match' Y = true ↔ X.iAuthorityName = [] ∧ Y.iAuthorityName = [] := by
  unfold match'
  cases hX : X.iAuthorityName with
  | nil =>
      cases hY : Y.iAuthorityName with
      | nil => simp
      | cons y ys => simp
  | cons x xs =>
      cases hY : Y.iAuthorityName with
      | nil => simp
      | cons y ys => simp [CX509GeneralName.exactMatch]

theorem equivalenceAt_iff (X : CX509AltNameExt) : X.EquivalenceAt ↔ X.iAuthorityName = [] := by
  refine ⟨fun h => ((match_eq_true X X).mp h.refl).1, fun hX => ⟨?_, fun Y h => ?_, ?_⟩⟩
  · exact (match_eq_true X X).mpr ⟨hX, hX⟩
  · exact (match_eq_true X Y).mpr ((match_eq_true Y X).mp h).symm
  · intro Y Z h h'
    exact (match_eq_true Y Z).mpr ⟨((match_eq_true Y X).mp h).1, ((match_eq_true X Z).mp h').2⟩

end CX509AltNameExt

/-- **Both matchings are equivalences, at a distinguished name and at a list of
alternative names, exactly when the name has no two attributes that match and none with a
differently spelt strict variant, and the list is empty.** -/
theorem nameMatch_equivalence_iff (pf : Platform) {B : CX500DistinguishedName}
    (hB : B.Decodes) (X : CX509AltNameExt) :
    (B.EquivalenceAt pf ∧ X.EquivalenceAt) ↔
      (B.NoRepeats pf ∧ B.OneSpelling pf) ∧ X.iAuthorityName = [] := by
  rw [CX500DistinguishedName.equivalenceAt_iff_of_decodes pf hB, X.equivalenceAt_iff]

/-- A common name as a UTF8String. -/
private def commonName (aText : Bytes) : CX520AttributeTypeAndValue :=
  ⟨KX520CommonName, 0x0c :: aText.length.toUInt8 :: aText⟩

/-- The theorem at a name with one attribute and the empty list. -/
theorem nameMatch_equivalence_iff_commonName :
    let B : CX500DistinguishedName := ⟨[commonName [0x61]]⟩
    let X : CX509AltNameExt := ⟨[]⟩
    (B.EquivalenceAt .ascii ∧ X.EquivalenceAt) ↔
      (B.NoRepeats .ascii ∧ B.OneSpelling .ascii) ∧ X.iAuthorityName = [] :=
  nameMatch_equivalence_iff .ascii (B := ⟨[commonName [0x61]]⟩)
    (fun x hx => by
      rw [List.mem_singleton.mp hx]
      exact ⟨by decide, [0x61], rfl⟩) ⟨[]⟩

/-- The name `a, b` matches the name `a, a` and not the other way round. -/
theorem nameMatch_not_equivalence :
    ¬ ((∀ B : CX500DistinguishedName, B.Decodes → B.EquivalenceAt .ascii) ∧
      ∀ X : CX509AltNameExt, X.EquivalenceAt) := by
  intro h
  have hdec : ∀ x ∈ [commonName [0x61], commonName [0x62]], x.Decodes := by
    intro x hx
    rcases List.mem_pair.mp hx with rfl | rfl
    · exact ⟨by decide, [0x61], rfl⟩
    · exact ⟨by decide, [0x62], rfl⟩
  have hsymm := (h.1 ⟨[commonName [0x61], commonName [0x61]]⟩
    (fun x hx => hdec x (by simp at hx; simp [hx]))).symm
    ⟨[commonName [0x61], commonName [0x62]]⟩ hdec (rfl)
  exact absurd hsymm (by decide)

end OsSecurity

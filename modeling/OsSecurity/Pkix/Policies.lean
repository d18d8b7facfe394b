/-
What the turns do to the policies, and where that leaves the two counters.

`PolicyTurn` says of a turn what becomes of each of the policies' members.  Three lists of
the certificate go into it: its policies, the mappings that are applied, and its
constraints.

The counters are taken down with the position and lowered by the constraints above, so that
what is left of a constraint at a position depends on how far above it stands.  `Counts`
says so of a counter without the history, as the set of the numbers it does not exceed, and
`Counts.lt_iff` is what the comparison of counter and position comes to.
-/
import Mathlib.Logic.Relation
import OsSecurity.Pkix.Reports

namespace OsSecurity

open CX509PolicyConstraintsExt List

namespace TPKIXPolicyConstraint

/-! ### Applying mappings -/

/-- The mappings of the certificate that are applied. -/
def appliedMappingsL (iPos : Int) (iState : Policies) (aCert : CX509Certificate) :
    Leaving (List CX509PolicyMapping) :=
  if iPos ≤ iState.iPolicyMapping then do
    match ← decodedL CX509PolicyMappingExt.newL KPolicyMapping aCert with
    | none => return []
    | some policyMappingExt => return policyMappingExt.iPolicies
  else .ok []

theorem mapPoliciesL_eq (iPos : Int) (iState : Policies) (aCert : CX509Certificate) :
    mapPoliciesL iPos iState aCert =
      (appliedMappingsL iPos iState aCert >>= fun mappings =>
        .ok (mappings.foldl mapPolicy iState)) := by
  unfold mapPoliciesL appliedMappingsL
  by_cases hpos : iPos ≤ iState.iPolicyMapping
  · rw [if_pos hpos, if_pos hpos]
    cases decodedL CX509PolicyMappingExt.newL KPolicyMapping aCert with
    | error e => rfl
    | ok ext => cases ext <;> rfl
  · rw [if_neg hpos, if_neg hpos]
    rfl

/-- The user's policies behind the mappings. -/
def mapUserPolicies (iUserPolicies : List Text) (mappings : List CX509PolicyMapping) :
    List Text :=
  mappings.foldl (fun user mapping =>
    if mapping.iIssuerPolicy ∈ user then user ++ [mapping.iSubjectPolicy] else user) iUserPolicies

theorem foldl_mapPolicy (iState : Policies) (mappings : List CX509PolicyMapping) :
    mappings.foldl mapPolicy iState =
      { iState with
        iMappedPolicies := iState.iMappedPolicies ++ mappings
        iUserPolicies := mapUserPolicies iState.iUserPolicies mappings } := by
  induction mappings generalizing iState with
  | nil => simp [mapUserPolicies]
  | cons mapping mappings ih =>
      rw [foldl_cons, ih]
      simp [mapPolicy, mapUserPolicies]

/-- Mappings only lead on from the user's policies, each by one of the mappings. -/
theorem mem_mapUserPolicies {iUserPolicies : List Text} {mappings : List CX509PolicyMapping}
    {v : Text} (h : v ∈ mapUserPolicies iUserPolicies mappings) :
    ∃ u ∈ iUserPolicies,
      Relation.ReflTransGen (fun a b => ⟨a, b⟩ ∈ mappings) u v := by
  induction mappings using reverseRecOn generalizing v with
  | nil => exact ⟨v, h, .refl⟩
  | append_singleton mappings mapping ih =>
      have hmono : ∀ {u v}, Relation.ReflTransGen (fun a b => ⟨a, b⟩ ∈ mappings) u v →
          Relation.ReflTransGen (fun a b => ⟨a, b⟩ ∈ mappings ++ [mapping]) u v :=
        Relation.ReflTransGen.mono (fun _ _ hm => mem_append_left _ hm) _ _
      simp only [mapUserPolicies, foldl_append, foldl_cons, foldl_nil] at h
      split at h
      · rename_i hissuer
        rcases mem_append.mp h with h | h
        · obtain ⟨u, hu, hpath⟩ := ih h
          exact ⟨u, hu, hmono hpath⟩
        · obtain rfl := mem_singleton.mp h
          obtain ⟨u, hu, hpath⟩ := ih hissuer
          exact ⟨u, hu, (hmono hpath).tail (mem_append_right _ (mem_singleton.mpr rfl))⟩
      · obtain ⟨u, hu, hpath⟩ := ih h
        exact ⟨u, hu, hmono hpath⟩

theorem subset_mapUserPolicies (iUserPolicies : List Text) (mappings : List CX509PolicyMapping) :
    iUserPolicies ⊆ mapUserPolicies iUserPolicies mappings := by
  induction mappings generalizing iUserPolicies with
  | nil => exact List.Subset.refl _
  | cons mapping mappings ih =>
      refine List.Subset.trans ?_ (ih _)
      by_cases hissuer : mapping.iIssuerPolicy ∈ iUserPolicies
      · simp only [if_pos hissuer]
        exact subset_append_left ..
      · simp only [if_neg hissuer]
        exact List.Subset.refl _

theorem mem_appliedMappingsL {iPos : Int} {iState : Policies} {aCert : CX509Certificate}
    {mappings : List CX509PolicyMapping} (h : appliedMappingsL iPos iState aCert = .ok mappings)
    {mapping : CX509PolicyMapping} (hmem : mapping ∈ mappings) :
    iPos ≤ iState.iPolicyMapping ∧ ∃ ext,
      decodedL CX509PolicyMappingExt.newL KPolicyMapping aCert = .ok (some ext) ∧
        mapping ∈ ext.iPolicies := by
  unfold appliedMappingsL at h
  split at h
  · rename_i hpos
    obtain ⟨ext, hext, h⟩ := bind_eq_ok.mp h
    cases ext with
    | none =>
      obtain rfl := Except.ok.inj h
      cases hmem
    | some ext =>
      obtain rfl := Except.ok.inj h
      exact ⟨hpos, ext, hext, hmem⟩
  · obtain rfl := Except.ok.inj h
    cases hmem

/-! ### The counters -/

/-- A counter behind the constraint of a certificate. -/
def counted (constraint : CX509PolicyConstraintsExt → TX509PolicyConstraint)
    (constraints : Option CX509PolicyConstraintsExt) (aCountdown : Int) : Int :=
  constraints.elim aCountdown fun ext => updateConstraint (constraint ext) aCountdown

theorem counted_le {constraint : CX509PolicyConstraintsExt → TX509PolicyConstraint}
    {constraints : Option CX509PolicyConstraintsExt} {aCountdown x : Int} :
    counted constraint constraints aCountdown ≤ x ↔ aCountdown ≤ x ∨
      ∃ ext ∈ constraints, (constraint ext).iRequired = true ∧ (constraint ext).iCountdown ≤ x := by
  cases constraints with
  | none => simp [counted]
  | some ext =>
      simp only [counted, Option.elim, updateConstraint, Option.mem_def, Option.some.injEq,
        exists_eq_left']
      split
      · rename_i hlower
        refine ⟨fun h => .inr ⟨hlower.1, h⟩, fun h => ?_⟩
        rcases h with h | h
        · omega
        · exact h.2
      · rename_i hlower
        refine ⟨.inl, fun h => ?_⟩
        rcases h with h | h
        · exact h
        · have hnot : ¬ (constraint ext).iCountdown < aCountdown := fun hlt => hlower ⟨h.1, hlt⟩
          omega

end TPKIXPolicyConstraint

namespace CPKIXCertChainAO

open TPKIXPolicyConstraint

/-! ### The turn of the policies -/

/-- What a turn makes of the policies, from the three lists of the certificate. -/
structure PolicyTurn (iPos : Int) (aCert : CX509Certificate)
    (policyExt : Option CX509CertPoliciesExt) (mappings : List CX509PolicyMapping)
    (constraints : Option CX509PolicyConstraintsExt) (p p' : Policies) : Prop where
  decodedPolicies : decodedL CX509CertPoliciesExt.newL KCertPolicies aCert = .ok policyExt
  required : (requirePolicyL iPos p policyExt).exit = .ok ()
  applied : appliedMappingsL iPos p aCert = .ok mappings
  decodedConstraints : decodedL CX509PolicyConstraintsExt.newL KPolicyConstraints aCert = .ok constraints
  mappingInRange : KMinTInt < p.iPolicyMapping
  requiredInRange : KMinTInt < p.iPolicyRequired
  iPolicyMapping : p'.iPolicyMapping =
    counted CX509PolicyConstraintsExt.iInhibitPolicyMapping constraints (p.iPolicyMapping - 1)
  iPolicyRequired : p'.iPolicyRequired =
    counted CX509PolicyConstraintsExt.iRequirePolicy constraints (p.iPolicyRequired - 1)
  iAnyAuthorityPolicy : p'.iAnyAuthorityPolicy =
    (authorityPoliciesL p policyExt).iAnyAuthorityPolicy
  iAuthorityConstrainedPolicies : p'.iAuthorityConstrainedPolicies =
    (authorityPoliciesL p policyExt).iAuthorityConstrainedPolicies
  iUserPolicies : p'.iUserPolicies = mapUserPolicies p.iUserPolicies mappings
  iMappedPolicies : p'.iMappedPolicies = p.iMappedPolicies ++ mappings

section

variable {iPos : Int} {aCert : CX509Certificate} {p p' : Policies}

/-- The first half of the check leaves these members as they are. -/
theorem authorityPoliciesL_keeps (p : Policies) (policyExt : Option CX509CertPoliciesExt) :
    (authorityPoliciesL p policyExt).iPolicyMapping = p.iPolicyMapping ∧
      (authorityPoliciesL p policyExt).iPolicyRequired = p.iPolicyRequired ∧
      (authorityPoliciesL p policyExt).iUserPolicies = p.iUserPolicies ∧
      (authorityPoliciesL p policyExt).iMappedPolicies = p.iMappedPolicies := by
  cases policyExt with
  | none =>
      by_cases hany : p.iAnyAuthorityPolicy = true
      · simp [authorityPoliciesL, hany]
      · simp [authorityPoliciesL, hany]
  | some policyExt => exact ⟨rfl, rfl, rfl, rfl⟩

theorem constrain_eq (p : Policies) (constraints : Option CX509PolicyConstraintsExt) :
    constrain p constraints =
      { p with
        iPolicyMapping :=
          counted iInhibitPolicyMapping constraints p.iPolicyMapping
        iPolicyRequired :=
          counted iRequirePolicy constraints p.iPolicyRequired } := by
  cases constraints <;> rfl

theorem policiesL_ok :
    policiesL iPos aCert p = .ok p' ↔
      ∃ policyExt mappings constraints,
        PolicyTurn iPos aCert policyExt mappings constraints p p' := by
  have hkeeps := authorityPoliciesL_keeps p
  have happlied : ∀ policyExt, appliedMappingsL iPos (authorityPoliciesL p policyExt) aCert =
      appliedMappingsL iPos p aCert := by
    intro policyExt
    rw [appliedMappingsL, (hkeeps policyExt).1]
    rfl
  refine ⟨fun h => ?_, fun h => ?_⟩
  · obtain ⟨policyExt, hext, h⟩ := bind_eq_ok.mp h
    obtain ⟨_, hrequired, h⟩ := bind_eq_ok.mp h
    rw [mapPoliciesL_eq, happlied] at h
    obtain ⟨mapped, hmapped, h⟩ := bind_eq_ok.mp h
    obtain ⟨mappings, hmappings, hmapped⟩ := bind_eq_ok.mp hmapped
    obtain rfl := Except.ok.inj hmapped
    obtain ⟨counters, hcounters, h⟩ := bind_eq_ok.mp h
    obtain ⟨constraints, hconstraints, h⟩ := bind_eq_ok.mp h
    obtain rfl := Except.ok.inj h
    rw [foldl_mapPolicy] at hcounters
    obtain ⟨m, hm, hcounters⟩ := bind_eq_ok.mp hcounters
    obtain ⟨r, hr, hcounters⟩ := bind_eq_ok.mp hcounters
    obtain rfl := Except.ok.inj hcounters
    obtain ⟨hmin, rfl⟩ := TInt.dec_ok.mp hm
    obtain ⟨hrin, rfl⟩ := TInt.dec_ok.mp hr
    obtain ⟨hkm, hkr, hku, hkp⟩ := hkeeps policyExt
    simp only [hkm, hkr] at hmin hrin
    refine ⟨policyExt, mappings, constraints, hext, hrequired, hmappings, hconstraints, hmin,
      hrin, ?_, ?_, ?_, ?_, ?_, ?_⟩
    all_goals simp only [constrain_eq, hkm, hkr, hku, hkp]
  · obtain ⟨policyExt, mappings, constraints, h⟩ := h
    obtain ⟨hkm, hkr, hku, hkp⟩ := hkeeps policyExt
    obtain ⟨m', r', any', authority', user', mapped'⟩ := p'
    obtain rfl := h.iPolicyMapping
    obtain rfl := h.iPolicyRequired
    obtain rfl := h.iAnyAuthorityPolicy
    obtain rfl := h.iAuthorityConstrainedPolicies
    obtain rfl := h.iUserPolicies
    obtain rfl := h.iMappedPolicies
    have hmap : mapPoliciesL iPos (authorityPoliciesL p policyExt) aCert =
        .ok (mappings.foldl mapPolicy (authorityPoliciesL p policyExt)) := by
      rw [mapPoliciesL_eq, happlied, h.applied]
      rfl
    have hm : TInt.dec p.iPolicyMapping = .ok (p.iPolicyMapping - 1) :=
      TInt.dec_ok.mpr ⟨h.mappingInRange, rfl⟩
    have hr : TInt.dec p.iPolicyRequired = .ok (p.iPolicyRequired - 1) :=
      TInt.dec_ok.mpr ⟨h.requiredInRange, rfl⟩
    unfold policiesL
    rw [h.decodedPolicies, ok_bind, h.required, ok_bind, hmap, ok_bind,
      foldl_mapPolicy, h.decodedConstraints]
    simp [countDownL, hkm, hkr, hku, hkp, hm, hr, constrain_eq]

end

/-! ### The constraints of a chain -/

/-- The certificate at position `p` has a constraint, with a countdown of `c`. -/
def Constrains (constraint : CX509PolicyConstraintsExt → TX509PolicyConstraint)
    (iChain : List CX509Certificate) (p : Nat) (c : Int) : Prop :=
  ∃ aCert ext, iChain[p]? = some aCert ∧
    decodedL CX509PolicyConstraintsExt.newL KPolicyConstraints aCert = .ok (some ext) ∧
    (constraint ext).iRequired = true ∧ (constraint ext).iCountdown = c

/-- The counter at position `q`: what the constraints above have left it at. -/
def Counts (constraint : CX509PolicyConstraintsExt → TX509PolicyConstraint)
    (iChain : List CX509Certificate) (q counter : Int) : Prop :=
  ∀ x, counter ≤ x ↔ q + 1 ≤ x ∨
    ∃ (p : Nat) (c : Int), q < p ∧ Constrains constraint iChain p c ∧ c - (p - 1 - q) ≤ x

section

variable {constraint : CX509PolicyConstraintsExt → TX509PolicyConstraint}
  {iChain : List CX509Certificate} {q counter : Int}

theorem counts_init : Counts constraint iChain (iChain.length - 1) iChain.length := by
  intro x
  refine ⟨fun h => .inl (by omega), fun h => ?_⟩
  rcases h with h | ⟨p, c, hp, ⟨aCert, ext, hcert, -⟩, -⟩
  · omega
  · have hlt := (List.getElem?_eq_some_iff.mp hcert).1
    omega

theorem Counts.step (h : Counts constraint iChain q counter) {i : Nat} (hi : q = i)
    {current : CX509Certificate} (hcurrent : iChain[i]? = some current)
    {constraints : Option CX509PolicyConstraintsExt}
    (hconstraints : decodedL newL KPolicyConstraints current =
      .ok constraints) :
    Counts constraint iChain (q - 1) (counted constraint constraints (counter - 1)) := by
  intro x
  have hprev := h (x + 1)
  rw [counted_le, show counter - 1 ≤ x ↔ counter ≤ x + 1 by omega, hprev]
  refine ⟨fun hle => ?_, fun hle => ?_⟩
  · rcases hle with (hle | ⟨p, c, hp, hc, hle⟩) | ⟨ext, hext, hrequired, hle⟩
    · exact .inl (by omega)
    · exact .inr ⟨p, c, by omega, hc, by omega⟩
    · obtain rfl := Option.mem_def.mp hext
      exact .inr ⟨i, _, by omega, ⟨current, ext, hcurrent, hconstraints, hrequired, rfl⟩, by omega⟩
  · rcases hle with hle | ⟨p, c, hp, hc, hle⟩
    · exact .inl (.inl (by omega))
    · by_cases hpi : p = i
      · obtain ⟨aCert, ext, hcert, hdecoded, hrequired, rfl⟩ := hc
        rw [hpi, hcurrent] at hcert
        obtain rfl := Option.some.inj hcert
        obtain rfl := Except.ok.inj (hconstraints.symm.trans hdecoded)
        exact .inr ⟨ext, rfl, hrequired, by omega⟩
      · exact .inl (.inr ⟨p, c, by omega, hc, by omega⟩)

/-- **The counter is below the position exactly when a certificate above has a countdown
that ends before its own position does.** -/
theorem Counts.lt_iff (h : Counts constraint iChain q counter) :
    counter < q ↔
      ∃ (p : Nat) (c : Int), q < p ∧ Constrains constraint iChain p c ∧ c < p - 1 := by
  rw [show counter < q ↔ counter ≤ q - 1 by omega, h]
  refine ⟨fun hle => ?_, fun hle => ?_⟩
  · rcases hle with hle | ⟨p, c, hp, hc, hle⟩
    · omega
    · exact ⟨p, c, hp, hc, by omega⟩
  · obtain ⟨p, c, hp, hc, hle⟩ := hle
    exact .inr ⟨p, c, hp, hc, by omega⟩

end

/-! ### The policies of a chain -/

/-- The certificate at position `p` carries these policies. -/
def Carries (iChain : List CX509Certificate) (p : Nat) (policyExt : CX509CertPoliciesExt) : Prop :=
  ∃ aCert, iChain[p]? = some aCert ∧
    decodedL CX509CertPoliciesExt.newL KCertPolicies aCert = .ok (some policyExt)

/-- The certificate at position `p` asserts that `u` maps to `v`. -/
def Asserts (iChain : List CX509Certificate) (p : Nat) (u v : Text) : Prop :=
  ∃ aCert ext, iChain[p]? = some aCert ∧
    decodedL CX509PolicyMappingExt.newL KPolicyMapping aCert = .ok (some ext) ∧
      ⟨u, v⟩ ∈ ext.iPolicies

/-- A certificate above inhibits the mappings of the one at position `p`. -/
def MappingInhibited (iChain : List CX509Certificate) (p : Nat) : Prop :=
  ∃ (p' : Nat) (m : Int), p < p' ∧
    Constrains CX509PolicyConstraintsExt.iInhibitPolicyMapping iChain p' m ∧ m < p' - p

/-- A certificate above position `q` maps `u` to `v`, and no one above inhibits it. -/
def MapsAbove (iChain : List CX509Certificate) (q : Int) (u v : Text) : Prop :=
  ∃ p : Nat, q < p ∧ ¬ MappingInhibited iChain p ∧ Asserts iChain p u v

/-- A policy that the mappings above position `q` lead to from an initial one. -/
def Acceptable (iChain : List CX509Certificate) (initial : List Text) (q : Int) (v : Text) :
    Prop :=
  ∃ u ∈ initial, Relation.ReflTransGen (MapsAbove iChain q) u v

theorem Acceptable.mono {iChain : List CX509Certificate} {initial : List Text} {q q' : Int}
    {v : Text} (hq : q' ≤ q) (h : Acceptable iChain initial q v) :
    Acceptable iChain initial q' v := by
  obtain ⟨u, hu, hpath⟩ := h
  refine ⟨u, hu, Relation.ReflTransGen.mono ?_ _ _ hpath⟩
  intro a b hmaps
  obtain ⟨p, hp, hfree, hasserts⟩ := hmaps
  exact ⟨p, by omega, hfree, hasserts⟩

/-- The policies behind the certificates above position `s.iPos`. -/
structure PoliciesAt (iChain : List CX509Certificate) (initial : List Text)
    (s : CPKIXValidationState) : Prop where
  required : Counts CX509PolicyConstraintsExt.iRequirePolicy iChain s.iPos s.iPolicyRequired
  mapping : Counts CX509PolicyConstraintsExt.iInhibitPolicyMapping iChain s.iPos s.iPolicyMapping
  user : initial ⊆ s.iUserPolicies
  /-- Above the leaf. -/
  acceptable : 0 ≤ s.iPos → ∀ v ∈ s.iUserPolicies, Acceptable iChain initial s.iPos v
  /-- Any policy is allowed until a certificate carries some. -/
  anyPolicy : s.iAnyAuthorityPolicy = true → ∀ (p : Nat) ext, s.iPos < p → ¬ Carries iChain p ext
  /-- Policies are left only while every further certificate carries some. -/
  carried : s.iAnyAuthorityPolicy = false → s.iAuthorityConstrainedPolicies ≠ [] →
    ∀ (p : Nat) ext, Carries iChain p ext → ∀ q : Nat, s.iPos < q → q < p →
      ∃ ext', Carries iChain q ext'

section

variable {pf : Platform} {verifySignatureL : CX509Certificate → Bytes → Leaving Bool}
  {iPKIXCertChain : CPKIXCertChainBase} {issuer : Option CX509Certificate}
  {current : CX509Certificate} {initial : List Text} {s s' : CPKIXValidationState}

/-- The mappings a turn applies are not inhibited, as long as the certificate is not the
leaf. -/
theorem not_mappingInhibited (h : PoliciesAt iPKIXCertChain.iChain initial s) {i : Nat}
    (hi : s.iPos = i) (hpos : 0 < i) (happlies : s.iPos ≤ s.iPolicyMapping) :
    ¬ MappingInhibited iPKIXCertChain.iChain i := by
  intro hinhibited
  obtain ⟨p, m, hp, hm, hle⟩ := hinhibited
  have hbelow := h.mapping.lt_iff.mpr ⟨p, m, by omega, hm, by omega⟩
  omega

/-- What is left of the authority's policies comes from the certificate. -/
theorem authorityPoliciesL_subset {p : Policies} {policyExt : Option CX509CertPoliciesExt}
    (hany : (authorityPoliciesL p policyExt).iAnyAuthorityPolicy = false) :
    ∀ info ∈ (authorityPoliciesL p policyExt).iAuthorityConstrainedPolicies,
      ∃ ext ∈ policyExt, info ∈ ext.iPolicies := by
  intro info hinfo
  cases policyExt with
  | none =>
      by_cases h : p.iAnyAuthorityPolicy = true
      · simp [authorityPoliciesL, h] at hany
      · simp [authorityPoliciesL, h] at hinfo
  | some ext =>
      refine ⟨ext, rfl, ?_⟩
      rcases mem_append.mp hinfo with hinfo | hinfo
      · split at hinfo
        · exact hinfo
        · obtain ⟨policy, hpolicy, hinfo⟩ := mem_flatMap.mp hinfo
          obtain ⟨other, -, hinfo⟩ := mem_flatMap.mp hinfo
          split at hinfo
          · rwa [mem_singleton.mp hinfo]
          · cases hinfo
      · obtain ⟨mapping, -, hinfo⟩ := mem_flatMap.mp hinfo
        obtain ⟨policy, -, hinfo⟩ := mem_flatMap.mp hinfo
        split at hinfo
        · exact (mem_filter.mp hinfo).1
        · cases hinfo

/-- Where nothing was left of the authority's policies, nothing comes back. -/
theorem authorityPoliciesL_nil {p : Policies} {policyExt : Option CX509CertPoliciesExt}
    (hany : p.iAnyAuthorityPolicy = false) (hnil : p.iAuthorityConstrainedPolicies = []) :
    (authorityPoliciesL p policyExt).iAuthorityConstrainedPolicies = [] := by
  cases policyExt with
  | none => simp [authorityPoliciesL, hany]
  | some ext =>
      simp [authorityPoliciesL, intersectCertPoliciesL, hany, hnil, intersectionLC, mappedTo]

/-- **One turn.** -/
theorem policiesAt_turn (h : PoliciesAt iPKIXCertChain.iChain initial s) {i : Nat}
    (hi : s.iPos = i) (hcurrent : iPKIXCertChain.iChain[i]? = some current)
    (hturn : Turn pf verifySignatureL iPKIXCertChain issuer current s s') :
    PoliciesAt iPKIXCertChain.iChain initial s' := by
  obtain ⟨policyExt, mappings, constraints, hpolicies⟩ := policiesL_ok.mp hturn.policies
  have hcarries : ∀ ext, Carries iPKIXCertChain.iChain i ext ↔ policyExt = some ext := by
    intro ext
    refine ⟨fun hc => ?_, fun hext => ⟨current, hcurrent, hext ▸ hpolicies.decodedPolicies⟩⟩
    obtain ⟨aCert, hcert, hdecoded⟩ := hc
    obtain rfl := Option.some.inj (hcurrent.symm.trans hcert)
    exact Except.ok.inj (hpolicies.decodedPolicies.symm.trans hdecoded)
  refine ⟨?_, ?_, ?_, ?_, ?_, ?_⟩
  · rw [hturn.iPos, hpolicies.iPolicyRequired]
    exact h.required.step hi hcurrent hpolicies.decodedConstraints
  · rw [hturn.iPos, hpolicies.iPolicyMapping]
    exact h.mapping.step hi hcurrent hpolicies.decodedConstraints
  · rw [hpolicies.iUserPolicies]
    exact List.Subset.trans h.user (subset_mapUserPolicies ..)
  · intro hpos v hv
    rw [hturn.iPos] at hpos ⊢
    rw [hpolicies.iUserPolicies] at hv
    obtain ⟨w, hw, hpath⟩ := mem_mapUserPolicies hv
    have hw : Acceptable iPKIXCertChain.iChain initial (s.iPos - 1) w :=
      (h.acceptable (by omega) w hw).mono (by omega)
    obtain ⟨u, hu, hprevious⟩ := hw
    refine ⟨u, hu, hprevious.trans (Relation.ReflTransGen.mono ?_ _ _ hpath)⟩
    intro a b hmapping
    obtain ⟨happlies, ext, hext, hmem⟩ := mem_appliedMappingsL hpolicies.applied hmapping
    exact ⟨i, by omega, not_mappingInhibited h hi (by omega) happlies,
      current, ext, hcurrent, hext, hmem⟩
  · intro hany p ext hp hc
    rw [hturn.iPos] at hp
    rw [hpolicies.iAnyAuthorityPolicy] at hany
    cases policyExt with
    | some policyExt => cases hany
    | none =>
      by_cases hany' : s.iAnyAuthorityPolicy = true
      · by_cases hpi : p = i
        · cases (hcarries ext).mp (hpi ▸ hc)
        · exact h.anyPolicy hany' p ext (by omega) hc
      · simp [authorityPoliciesL, hany'] at hany
  · intro hany hleft p ext hc q hq hqp
    rw [hturn.iPos] at hq
    rw [hpolicies.iAnyAuthorityPolicy] at hany
    rw [hpolicies.iAuthorityConstrainedPolicies] at hleft
    obtain ⟨info, hinfo⟩ := exists_mem_of_ne_nil _ hleft
    obtain ⟨policyExt, rfl, -⟩ := authorityPoliciesL_subset hany info hinfo
    by_cases hqi : q = i
    · exact ⟨policyExt, hqi ▸ (hcarries policyExt).mpr rfl⟩
    · cases hany' : s.iAnyAuthorityPolicy with
      | true => exact absurd hc (h.anyPolicy hany' p ext (by omega))
      | false =>
        refine h.carried hany' (fun hnil => hleft ?_) p ext hc q (by omega) hqp
        exact authorityPoliciesL_nil hany' hnil

variable {aValidationTime : Int} {aInitialPolicies : Option (List Text)}

/-- The initial policies, of which an empty array gives none. -/
theorem policiesAt_newL :
    PoliciesAt iPKIXCertChain.iChain (aInitialPolicies.getD [])
      (.newL aValidationTime iPKIXCertChain.iChain.length aInitialPolicies) := by
  have huser : (CPKIXValidationState.newL aValidationTime iPKIXCertChain.iChain.length
      aInitialPolicies).iUserPolicies = aInitialPolicies.getD [] := by
    cases aInitialPolicies with
    | none => rfl
    | some policies => cases policies <;> rfl
  have hnone : ∀ (p : Nat) ext, (iPKIXCertChain.iChain.length : Int) - 1 < p →
      ¬ Carries iPKIXCertChain.iChain p ext := by
    intro p ext hp hc
    obtain ⟨aCert, hcert, -⟩ := hc
    have hlt := (List.getElem?_eq_some_iff.mp hcert).1
    omega
  refine ⟨counts_init, counts_init, by rw [huser]; exact List.Subset.refl _, ?_,
    fun _ => hnone, fun hany => by cases hany⟩
  intro _ v hv
  rw [huser] at hv
  exact ⟨v, hv, .refl⟩

/-- **The policies at every position that a run reaches.** -/
theorem policiesAt_states {above : List CX509Certificate}
    (hsuffix : above <:+ iPKIXCertChain.iChain)
    (h : statesL pf verifySignatureL iPKIXCertChain
      (.newL aValidationTime iPKIXCertChain.iChain.length aInitialPolicies) above = .ok s) :
    s.iPos = iPKIXCertChain.iChain.length - 1 - above.length ∧
      PoliciesAt iPKIXCertChain.iChain (aInitialPolicies.getD []) s := by
  refine Descent.descend_invariant
    (P := fun above s => s.iPos = (iPKIXCertChain.iChain.length : Int) - 1 - above.length ∧
      PoliciesAt iPKIXCertChain.iChain (aInitialPolicies.getD []) s) ⟨?_, policiesAt_newL⟩ ?_
    hsuffix h
  · simp [CPKIXValidationState.newL]
  · intro above current s s' hsuffix hs hturn
    have hturn := turnL_ok.mp hturn
    obtain ⟨i, hi, rfl⟩ := Descent.cons_suffix_iff.mp hsuffix
    have hlt := (List.getElem?_eq_some_iff.mp hi).1
    have hpos : s.iPos = i := by
      rw [hs.1, length_drop]
      omega
    refine ⟨?_, policiesAt_turn hs.2 hpos hi hturn⟩
    rw [hturn.iPos, hs.1, length_cons]
    omega

end

end CPKIXCertChainAO

end OsSecurity

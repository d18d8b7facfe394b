/-
Where an explicit policy is demanded.

A certificate that requires an explicit policy after skipping `r` certificates demands one
of every certificate more than `r` positions below it.  The code compares the position with
a counter that has been taken down together with it, so that the distance between the two
cancels out: what it checks is whether `r` is less than the certificate's own position
less one, and then it checks every certificate below.

Which of a chain's certificates are checked is a matter of its policy constraints alone.
`explicitPolicy_iff` says of which constraints the code's demands are the ones required,
whatever else is in the chain.
-/
import OsSecurity.Pkix.PathValidation
import OsSecurity.Pkix.Policies

namespace OsSecurity

open Descent List

namespace CPKIXCertChainAO

open Logged TPKIXPolicyConstraint

/-- The certificate at position `p` requires an explicit policy after `r` certificates. -/
abbrev Requires : List CX509Certificate → Nat → Int → Prop :=
  Constrains CX509PolicyConstraintsExt.iRequirePolicy

/-- A policy is required at position `q`. -/
def Demands (iChain : List CX509Certificate) (q : Nat) : Prop :=
  ∃ (p : Nat) (r : Int), Requires iChain p r ∧ r < p - q

/-- A certificate above position `q` requires a policy there. -/
def DemandsAbove (iChain : List CX509Certificate) (q : Nat) : Prop :=
  ∃ (p : Nat) (r : Int), q < p ∧ Requires iChain p r ∧ r < p - q

/-- The code checks for a policy at position `q`. -/
def Checks (iChain : List CX509Certificate) (q : Nat) : Prop :=
  ∃ (p : Nat) (r : Int), q < p ∧ Requires iChain p r ∧ r < p - 1

/-- No countdown of a certificate above position `q` has run out of `TInt` there. -/
def InRange (constraint : CX509PolicyConstraintsExt → TX509PolicyConstraint)
    (iChain : List CX509Certificate) (q : Int) : Prop :=
  ∀ (p : Nat) (c : Int), q < p → Constrains constraint iChain p c → KMinTInt < c - (p - 1 - q)

/-- The policy constraints let a run get past the certificates above position `q`: they can
be decoded, and no countdown runs out of `TInt` on the way. -/
structure Reaches (iChain : List CX509Certificate) (q : Int) : Prop where
  decoded : ∀ (p : Nat) aCert, q < p → iChain[p]? = some aCert →
    ∃ constraints, decodedL CX509PolicyConstraintsExt.newL KPolicyConstraints aCert = .ok constraints
  required : InRange CX509PolicyConstraintsExt.iRequirePolicy iChain (q + 1)
  mapping : InRange CX509PolicyConstraintsExt.iInhibitPolicyMapping iChain (q + 1)

/-- **An explicit policy is enforced.**  In an accepted chain every certificate it is
required of carries policies, one of them acceptable when there are initial policies, and
without these no certificate is rejected for want of a policy that no one above requires. -/
structure ExplicitPolicy (pf : Platform)
    (verifySignatureL : CX509Certificate → Bytes → Leaving Bool)
    (iPKIXCertChain : CPKIXCertChainBase) (aValidationTime : Int)
    (aInitialPolicies : Option (List Text)) : Prop where
  enforced : (processCertsL pf verifySignatureL iPKIXCertChain (.newL aValidationTime
      iPKIXCertChain.iChain.length aInitialPolicies)).error.iReason = .EValidatedOK →
    ∀ (q : Nat) aCert, iPKIXCertChain.iChain[q]? = some aCert → Demands iPKIXCertChain.iChain q →
      ∃ ext, Carries iPKIXCertChain.iChain q ext ∧ (aInitialPolicies.getD [] ≠ [] →
        ∃ info ∈ ext.iPolicies,
          Acceptable iPKIXCertChain.iChain (aInitialPolicies.getD []) q info.iCertPolicyId)
  notRejected : aInitialPolicies.getD [] = [] → ∀ q : Nat,
    (processCertsL pf verifySignatureL iPKIXCertChain (.newL aValidationTime
      iPKIXCertChain.iChain.length aInitialPolicies)).error = ⟨.ERequiredPolicyNotFound, q⟩ →
    DemandsAbove iPKIXCertChain.iChain q

/-! ### Chains with the same policy constraints -/

/-- The data of a certificate's policy constraints. -/
def policyConstraints (aCert : CX509Certificate) : Option Bytes :=
  (aCert.extension KPolicyConstraints).map CX509CertExtension.iData

theorem decodedL_policyConstraints (aCert : CX509Certificate) :
    decodedL CX509PolicyConstraintsExt.newL KPolicyConstraints aCert =
      match policyConstraints aCert with
      | none => .ok none
      | some data => do return some (← CX509PolicyConstraintsExt.newL data) := by
  unfold decodedL policyConstraints
  cases aCert.extension KPolicyConstraints <;> rfl

/-- Position by position the certificates have the same policy constraints. -/
def SameConstraints (l l' : List CX509Certificate) : Prop :=
  l.map policyConstraints = l'.map policyConstraints

section

variable {l l' : List CX509Certificate}

section

variable (h : SameConstraints l l')
include h

theorem SameConstraints.symm : SameConstraints l' l := Eq.symm h

theorem SameConstraints.decoded {p : Nat} {aCert : CX509Certificate} (hp : l[p]? = some aCert) :
    ∃ aCert', l'[p]? = some aCert' ∧
      decodedL CX509PolicyConstraintsExt.newL KPolicyConstraints aCert' =
        decodedL CX509PolicyConstraintsExt.newL KPolicyConstraints aCert := by
  have hmap : (l'.map policyConstraints)[p]? = some (policyConstraints aCert) := by
    rw [← h, getElem?_map, hp]
    rfl
  rw [getElem?_map] at hmap
  obtain ⟨aCert', hp', heq⟩ := Option.map_eq_some_iff.mp hmap
  exact ⟨aCert', hp', by rw [decodedL_policyConstraints, decodedL_policyConstraints, heq]⟩

theorem SameConstraints.constrains
    {constraint : CX509PolicyConstraintsExt → TX509PolicyConstraint} {p : Nat} {c : Int}
    (hc : Constrains constraint l p c) : Constrains constraint l' p c := by
  obtain ⟨aCert, ext, hp, hext, hrequired, hcountdown⟩ := hc
  obtain ⟨aCert', hp', heq⟩ := h.decoded hp
  exact ⟨aCert', ext, hp', heq.trans hext, hrequired, hcountdown⟩

theorem SameConstraints.reaches {q : Int} (hq : Reaches l q) :
    Reaches l' q where
  decoded p aCert' hp hcert' := by
    obtain ⟨aCert, hcert, heq⟩ := h.symm.decoded hcert'
    obtain ⟨constraints, hconstraints⟩ := hq.decoded p aCert hp hcert
    exact ⟨constraints, heq ▸ hconstraints⟩
  required p c hp hc := hq.required p c hp (h.symm.constrains hc)
  mapping p c hp hc := hq.mapping p c hp (h.symm.constrains hc)

theorem SameConstraints.demands {q : Nat} (hq : Demands l q) : Demands l' q := by
  obtain ⟨p, r, hr, hlt⟩ := hq
  exact ⟨p, r, h.constrains hr, hlt⟩

theorem SameConstraints.demandsAbove {q : Nat} (hq : DemandsAbove l q) : DemandsAbove l' q := by
  obtain ⟨p, r, hp, hr, hlt⟩ := hq
  exact ⟨p, r, hp, h.constrains hr, hlt⟩

theorem SameConstraints.checks {q : Nat} (hq : Checks l q) : Checks l' q := by
  obtain ⟨p, r, hp, hr, hlt⟩ := hq
  exact ⟨p, r, hp, h.constrains hr, hlt⟩

end

theorem Reaches.mono {q q' : Int} (h : Reaches l q) (hq : q ≤ q') : Reaches l q' where
  decoded p aCert hp := h.decoded p aCert (by omega)
  required p c hp hc := by
    have hin := h.required p c (by omega) hc
    omega
  mapping p c hp hc := by
    have hin := h.mapping p c (by omega) hc
    omega

/-- A counter can be taken down where no countdown has run out. -/
theorem Counts.inRange {constraint : CX509PolicyConstraintsExt → TX509PolicyConstraint}
    {q counter : Int} (h : Counts constraint l q counter) (hq : 0 ≤ q) :
    KMinTInt < counter ↔ InRange constraint l q := by
  have hmin : KMinTInt < 0 := by decide
  rw [← Int.not_le, h]
  refine ⟨fun hnot p c hp hc => ?_, fun hin hle => ?_⟩
  · exact Int.not_le.mp fun hle => hnot (.inr ⟨p, c, hp, hc, hle⟩)
  · rcases hle with hle | ⟨p, c, hp, hc, hle⟩
    · omega
    · have hlt := hin p c hp hc
      omega

end

/-! ### What a run has been through -/

section

variable {pf : Platform} {verifySignatureL : CX509Certificate → Bytes → Leaving Bool}
  {iPKIXCertChain : CPKIXCertChainBase} {aValidationTime : Int}
  {aInitialPolicies : Option (List Text)} {above : List CX509Certificate}
  {s : CPKIXValidationState}

section

variable
  (h : statesL pf verifySignatureL iPKIXCertChain (.newL aValidationTime iPKIXCertChain.iChain.length aInitialPolicies) above = .ok s)
include h

/-- The turn of a certificate that a run has got past, with its policies. -/
theorem policyTurn_of_states (habove : above <:+ iPKIXCertChain.iChain) {p : Nat}
    {aCert : CX509Certificate} (hp : s.iPos < p) (hcert : iPKIXCertChain.iChain[p]? = some aCert) :
    ∃ (t : CPKIXValidationState) (policyExt : Option CX509CertPoliciesExt)
        (mappings : List CX509PolicyMapping) (constraints : Option CX509PolicyConstraintsExt)
        (p' : Policies), t.iPos = p ∧
      PoliciesAt iPKIXCertChain.iChain (aInitialPolicies.getD []) t ∧
      PolicyTurn t.iPos aCert policyExt mappings constraints t.toPolicies p' := by
  have hlt := (List.getElem?_eq_some_iff.mp hcert).1
  have hpos := (policiesAt_states habove h).1
  have hlength := habove.length_le
  -- the certificate and those above it are a suffix of the ones gone through
  have hsuffix : aCert :: iPKIXCertChain.iChain.drop (p + 1) <:+ above := by
    have hchain : aCert :: iPKIXCertChain.iChain.drop (p + 1) <:+ iPKIXCertChain.iChain :=
      cons_suffix_iff.mpr ⟨p, hcert, rfl⟩
    refine suffix_of_suffix_length_le hchain habove ?_
    rw [length_cons, length_drop]
    omega
  obtain ⟨t, t', ht, hturn, -⟩ := descend_step h hsuffix
  have hdrop : iPKIXCertChain.iChain.drop (p + 1) <:+ iPKIXCertChain.iChain := drop_suffix ..
  obtain ⟨htpos, hat⟩ := policiesAt_states hdrop ht
  obtain ⟨policyExt, mappings, constraints, hpolicies⟩ :=
    policiesL_ok.mp (turnL_ok.mp hturn).policies
  refine ⟨t, policyExt, mappings, constraints, _, ?_, hat, hpolicies⟩
  rw [htpos, length_drop]
  omega

theorem reaches_of_states (habove : above <:+ iPKIXCertChain.iChain) :
    Reaches iPKIXCertChain.iChain s.iPos := by
  have hpos := (policiesAt_states habove h).1
  have hlength := habove.length_le
  have hrange : ∀ constraint,
      (∀ t, PoliciesAt iPKIXCertChain.iChain (aInitialPolicies.getD []) t → t.iPos = s.iPos + 1 →
        ∀ aCert policyExt mappings constraints p',
          PolicyTurn t.iPos aCert policyExt mappings constraints t.toPolicies p' →
          InRange constraint iPKIXCertChain.iChain t.iPos) →
      InRange constraint iPKIXCertChain.iChain (s.iPos + 1) := by
    intro constraint hall p c hp hc
    have hlt : p < iPKIXCertChain.iChain.length := by
      obtain ⟨aCert, -, hcert, -⟩ := hc
      exact (List.getElem?_eq_some_iff.mp hcert).1
    -- the last turn, at the position next to `s.iPos`
    obtain ⟨i, hi⟩ : ∃ i : Nat, s.iPos + 1 = i := ⟨(s.iPos + 1).toNat, by omega⟩
    obtain ⟨next, hnext⟩ : ∃ next, iPKIXCertChain.iChain[i]? = some next :=
      ⟨_, getElem?_eq_getElem (by omega)⟩
    obtain ⟨t, policyExt, mappings, constraints, p', ht, hat, hturn⟩ :=
      policyTurn_of_states h habove (by omega) hnext
    have hin := hall t hat (by omega) _ _ _ _ _ hturn
    rw [ht, ← hi] at hin
    exact hin p c hp hc
  refine ⟨fun p aCert hp hcert => ?_, hrange _ ?_, hrange _ ?_⟩
  · obtain ⟨t, policyExt, mappings, constraints, p', -, -, hturn⟩ :=
      policyTurn_of_states h habove hp hcert
    exact ⟨constraints, hturn.decodedConstraints⟩
  · intro t hat ht aCert policyExt mappings constraints p' hturn
    exact (hat.required.inRange (by omega)).mp hturn.requiredInRange
  · intro t hat ht aCert policyExt mappings constraints p' hturn
    exact (hat.mapping.inRange (by omega)).mp hturn.mappingInRange

end

end

/-! ### A chain that lacks one policy -/

/-- The data of a policies extension with the policy 1.2.3. -/
def policyData : Bytes :=
  Der.element 4 (Der.element 0x30 (Der.element 0x30 (Der.element 6 [0x2a, 3])))

/-- An authority at position `i` with the policy constraints of `aCert`.  It carries a
policy unless it is the one at position `q`. -/
def authorityLacking (q i : Nat) (aCert : CX509Certificate) : CX509Certificate :=
  .bare (⟨KBasicConstraints, false, authorityData⟩ ::
    ((if i = q then [] else [⟨KCertPolicies, false, policyData⟩]) ++
      ((policyConstraints aCert).map fun data => ⟨KPolicyConstraints, false, data⟩).toList))

/-- The chain with the policy constraints of `l` that lacks a policy at position `q`. -/
def chainLacking (q : Nat) (l : List CX509Certificate) : CPKIXCertChainBase where
  iChain := l.mapIdx (authorityLacking q)
  iIntermediateCerts := []
  iChainHasRoot := true
  iSupportedCriticalExts := []
  iDateTimeCheckFatal := false

/-- The extensions of such an authority. -/
theorem authorityLacking_extension (q i : Nat) (aCert : CX509Certificate) :
    (authorityLacking q i aCert).extension KBasicConstraints =
        some ⟨KBasicConstraints, false, authorityData⟩ ∧
      (authorityLacking q i aCert).extension KCertPolicies =
        (if i = q then none else some ⟨KCertPolicies, false, policyData⟩) ∧
      (authorityLacking q i aCert).extension KPolicyConstraints =
        (policyConstraints aCert).map (⟨KPolicyConstraints, false, ·⟩) ∧
      (authorityLacking q i aCert).extension KPolicyMapping = none ∧
      (authorityLacking q i aCert).extension KNameConstraints = none ∧
      (authorityLacking q i aCert).extension KSubjectAltName = none ∧
      (authorityLacking q i aCert).extension KKeyUsage = none := by
  unfold authorityLacking
  cases policyConstraints aCert with
  | none =>
      by_cases hi : i = q
      · simp only [hi, if_true]
        exact ⟨rfl, rfl, rfl, rfl, rfl, rfl, rfl⟩
      · simp only [hi, if_false]
        exact ⟨rfl, rfl, rfl, rfl, rfl, rfl, rfl⟩
  | some data =>
      by_cases hi : i = q
      · simp only [hi, if_true]
        exact ⟨rfl, rfl, rfl, rfl, rfl, rfl, rfl⟩
      · simp only [hi, if_false]
        exact ⟨rfl, rfl, rfl, rfl, rfl, rfl, rfl⟩

theorem authorityLacking_policies (q i : Nat) (aCert : CX509Certificate) :
    decodedL CX509CertPoliciesExt.newL KCertPolicies (authorityLacking q i aCert) =
      .ok (if i = q then none else some ⟨[⟨dotted [1, 2, 3], []⟩]⟩) := by
  have hdata : CX509CertPoliciesExt.newL policyData = .ok ⟨[⟨dotted [1, 2, 3], []⟩]⟩ := by
    decide
  unfold decodedL
  rw [(authorityLacking_extension q i aCert).2.1]
  by_cases hi : i = q
  · simp only [hi, if_true]
  · simp only [hi, if_false, hdata]
    rfl

theorem authorityLacking_basicConstraints (q i : Nat) (aCert : CX509Certificate) :
    decodedL CX509BasicConstraintsExt.newL KBasicConstraints (authorityLacking q i aCert) =
      .ok (some ⟨true, KMaxTInt⟩) := by
  have hdata : CX509BasicConstraintsExt.newL authorityData = .ok ⟨true, KMaxTInt⟩ := by
    decide
  unfold decodedL
  rw [(authorityLacking_extension q i aCert).1]
  simp only [hdata]
  rfl

theorem authorityLacking_none {α : Type} (newL : Bytes → Leaving α) {aExtensionName : Text}
    {aCert : CX509Certificate} (h : aCert.extension aExtensionName = none) :
    decodedL newL aExtensionName aCert = .ok none := by
  rw [decodedL, h]

theorem sameConstraints_chainLacking (q : Nat) (l : List CX509Certificate) :
    SameConstraints l (chainLacking q l).iChain := by
  refine ext_getElem? fun i => ?_
  have hkept : ∀ aCert, policyConstraints (authorityLacking q i aCert) = policyConstraints aCert := by
    intro aCert
    rw [policyConstraints, (authorityLacking_extension q i aCert).2.2.1]
    cases policyConstraints aCert <;> rfl
  rw [getElem?_map, getElem?_map, chainLacking, getElem?_mapIdx]
  cases l[i]? with
  | none => rfl
  | some aCert => exact congrArg some (hkept aCert).symm

/-- The state behind certificates of such a chain. -/
structure Unconstrained (s : CPKIXValidationState) : Prop where
  iCriticalExts : s.iCriticalExts = []
  iExcluded : s.iExcluded = .empty
  iPermitted : s.iPermitted = .empty
  iUserPolicies : s.iUserPolicies = []
  iMaxPathLength : s.iMaxPathLength = s.iPos + 1

section

variable {pf : Platform} {q i : Nat} {l : List CX509Certificate} {aCert : CX509Certificate}
  {issuer : Option CX509Certificate} {s s' : CPKIXValidationState}

/-- All signatures are in order. -/
abbrev verifies : CX509Certificate → Bytes → Leaving Bool := fun _ _ => .ok true

theorem authorityLacking_signed {iPos : Int}
    (hissuer : ∀ aCert' ∈ issuer, aCert'.iSubjectName = ⟨[]⟩) :
    (checkSignatureAndNameL pf verifies issuer (authorityLacking q i aCert) iPos).exit =
      .ok () := by
  refine checkSignatureAndNameL_ok.mpr ⟨?_, fun _ => ⟨true, rfl⟩⟩
  cases issuer with
  | none => exact fun _ => rfl
  | some issuer =>
      refine ⟨?_, rfl⟩
      rw [hissuer issuer rfl]
      rfl

theorem authorityLacking_critical (h : Unconstrained s) :
    ∀ ext ∈ s.iCriticalExts ++
      (authorityLacking q i aCert).iExtensions.filter CX509CertExtension.iCritical,
      ext.iId ∈ (chainLacking q l).iSupportedCriticalExts := by
  have hnone : (authorityLacking q i aCert).iExtensions.filter CX509CertExtension.iCritical = [] := by
    unfold authorityLacking
    cases policyConstraints aCert <;> by_cases hi : i = q <;> simp [hi, CX509Certificate.bare]
  rw [h.iCriticalExts, hnone]
  nofun

theorem unconstrained_turn (h : Unconstrained s) (hlength : s.iPos ≤ KMaxTInt)
    (hturn : Turn pf verifies (chainLacking q l) issuer (authorityLacking q i aCert) s s') :
    Unconstrained s' := by
  obtain ⟨-, -, -, hmapping, hnames, -, -⟩ := authorityLacking_extension q i aCert
  obtain ⟨policyExt, mappings, constraints, hpolicies⟩ := policiesL_ok.mp hturn.policies
  obtain ⟨basic, hbasic, -, hmax⟩ := maxPathLengthL_ok.mp hturn.maxPathLength
  rw [authorityLacking_basicConstraints] at hbasic
  obtain rfl := Except.ok.inj hbasic
  have hsubtrees := hturn.subtrees
  simp only [subtreesL, authorityLacking_none _ hnames, ok_bind, h.iExcluded,
    h.iPermitted] at hsubtrees
  obtain ⟨hexcluded, hpermitted⟩ := Prod.mk.inj (Except.ok.inj hsubtrees)
  refine ⟨hturn.iCriticalExts, hexcluded.symm, hpermitted.symm, ?_, ?_⟩
  · have hnone : mappings = [] := by
      have happlied := hpolicies.applied
      unfold appliedMappingsL at happlied
      rw [authorityLacking_none _ hmapping] at happlied
      split at happlied
      · exact (Except.ok.inj happlied).symm
      · exact (Except.ok.inj happlied).symm
    rw [hpolicies.iUserPolicies, hnone, h.iUserPolicies]
    rfl
  · rw [hmax, hturn.iPos, h.iMaxPathLength]
    simp only [Option.elim]
    rw [if_neg (by omega)]
    omega

/-- A turn succeeds where it is not the missing policy that is checked for. -/
theorem exists_turn_chainLacking (pf : Platform) (h : Unconstrained s) (hi : s.iPos = i)
    (hat : PoliciesAt (chainLacking q l).iChain [] s)
    (hissuer : ∀ aCert' ∈ issuer, aCert'.iSubjectName = ⟨[]⟩)
    (hcert : (chainLacking q l).iChain[i]? = some (authorityLacking q i aCert))
    (hreaches : Reaches (chainLacking q l).iChain (i - 1))
    (hchecks : i = q → ¬ Checks (chainLacking q l).iChain q) :
    ∃ s', Turn pf verifies (chainLacking q l) issuer (authorityLacking q i aCert) s s' := by
  obtain ⟨-, -, -, hmapping, hnames, haltName, hkeyUsage⟩ := authorityLacking_extension q i aCert
  obtain ⟨constraints, hconstraints⟩ := hreaches.decoded i _ (by omega) hcert
  have hpos : 0 ≤ s.iPos := by omega
  have hprevious : (i : Int) - 1 + 1 = s.iPos := by omega
  have hrequired : (requirePolicyL s.iPos s.toPolicies
      (if i = q then none else some ⟨[⟨dotted [1, 2, 3], []⟩]⟩)).exit = .ok () := by
    unfold requirePolicyL
    by_cases hlt : s.iPos > s.iPolicyRequired
    · have hne : i ≠ q := by
        intro hiq
        obtain ⟨p, r, hp, hr, hle⟩ := hat.required.lt_iff.mp hlt
        exact hchecks hiq ⟨p, r, by omega, hr, hle⟩
      rw [if_pos hlt, if_neg hne]
      simp [h.iUserPolicies]
    · rw [if_neg hlt]
      rfl
  have happlied : appliedMappingsL s.iPos s.toPolicies (authorityLacking q i aCert) = .ok [] := by
    unfold appliedMappingsL
    rw [authorityLacking_none _ hmapping]
    split <;> rfl
  have hrequiredIn := (hat.required.inRange hpos).mpr (hprevious ▸ hreaches.required)
  have hmappingIn := (hat.mapping.inRange hpos).mpr (hprevious ▸ hreaches.mapping)
  obtain ⟨p, hpolicies⟩ :
      ∃ p, policiesL s.iPos (authorityLacking q i aCert) s.toPolicies = .ok p :=
    ⟨⟨_, _, _, _, _, _⟩, policiesL_ok.mpr ⟨_, _, _, authorityLacking_policies q i aCert,
      hrequired, happlied, hconstraints, hmappingIn, hrequiredIn, rfl, rfl, rfl, rfl, rfl, rfl⟩⟩
  have hsubtrees : subtreesL pf (authorityLacking q i aCert) s.iExcluded s.iPermitted =
      .ok (s.iExcluded, s.iPermitted) := by
    simp only [subtreesL, authorityLacking_none _ hnames, ok_bind]
    rfl
  refine exists_turn ?_ (authorityLacking_critical h) (authorityLacking_signed hissuer)
    (absurd · Bool.false_ne_true) hpolicies ?_ hsubtrees (keyUsageL_ok.mpr ⟨none, authorityLacking_none _ hkeyUsage, by simp⟩) ?_
    (maxPathLengthL_ok.mpr ⟨_, authorityLacking_basicConstraints q i aCert, ?_, rfl⟩)
  · rw [h.iMaxPathLength]
    omega
  · rw [h.iExcluded, h.iPermitted]
    exact checkNamesL_empty.mpr ⟨none, authorityLacking_none _ haltName, by simp⟩
  · exact fun _ => checkCertSubjectTypeL_ok.mpr
      ⟨_, authorityLacking_basicConstraints q i aCert, fun _ => ⟨_, rfl, rfl⟩⟩
  · intro ext hext
    obtain rfl := Option.some.inj hext
    decide

theorem chainLacking_get (hcert : (chainLacking q l).iChain[i]? = some aCert) :
    ∃ aCert', aCert = authorityLacking q i aCert' := by
  rw [chainLacking, getElem?_mapIdx] at hcert
  obtain ⟨aCert', -, rfl⟩ := Option.map_eq_some_iff.mp hcert
  exact ⟨aCert', rfl⟩

theorem chainLacking_subjectName (hcert : aCert ∈ (chainLacking q l).iChain) :
    aCert.iSubjectName = ⟨[]⟩ := by
  obtain ⟨i, hi⟩ := mem_iff_getElem?.mp hcert
  obtain ⟨aCert', rfl⟩ := chainLacking_get hi
  rfl

/-- The run down such a chain, as long as nobody checks for the policy it lacks. -/
theorem states_chainLacking (pf : Platform) {above : List CX509Certificate}
    (hlength : ((chainLacking q l).iChain.length : Int) ≤ KMaxTInt)
    (hsuffix : above <:+ (chainLacking q l).iChain)
    (hreaches : Reaches (chainLacking q l).iChain
      ((chainLacking q l).iChain.length - 1 - above.length))
    (hchecks : ((chainLacking q l).iChain.length : Int) - 1 - above.length < q →
      ¬ Checks (chainLacking q l).iChain q) :
    ∃ s, statesL pf verifies (chainLacking q l)
        (.newL 0 (chainLacking q l).iChain.length none) above = .ok s ∧ Unconstrained s := by
  induction above with
  | nil => exact ⟨_, rfl, rfl, rfl, rfl, rfl, by simp [CPKIXValidationState.newL]⟩
  | cons current above ih =>
      have habove := (suffix_cons current above).trans hsuffix
      rw [length_cons] at hreaches hchecks
      obtain ⟨s, hs, hunconstrained⟩ := ih habove (hreaches.mono (by omega))
        fun hlt => hchecks (by omega)
      obtain ⟨hpos, hat⟩ := policiesAt_states habove hs
      obtain ⟨i, hi, hdrop⟩ := cons_suffix_iff.mp hsuffix
      have hlt := (List.getElem?_eq_some_iff.mp hi).1
      have hposition : s.iPos = i := by
        rw [hpos, hdrop, length_drop]
        omega
      obtain ⟨aCert, rfl⟩ := chainLacking_get hi
      have hissuer : ∀ aCert' ∈ above.head?, aCert'.iSubjectName = ⟨[]⟩ := fun aCert' hhead =>
        chainLacking_subjectName (habove.subset (mem_of_mem_head? hhead))
      have hrest : ((chainLacking q l).iChain.length : Int) - 1 - (above.length + 1 : Nat) =
          i - 1 := by
        omega
      rw [hrest] at hreaches
      obtain ⟨s', hturn⟩ := exists_turn_chainLacking pf hunconstrained hposition hat
        hissuer hi hreaches fun hiq => hchecks (by omega)
      exact ⟨s', descend_cons_eq_ok.mpr ⟨s, hs, turnL_ok.mpr hturn⟩,
        unconstrained_turn hunconstrained (by omega) hturn⟩

/-- It is accepted when nobody checks for that policy. -/
theorem chainLacking_accepted (pf : Platform)
    (hlength : ((chainLacking q l).iChain.length : Int) ≤ KMaxTInt)
    (hreaches : Reaches (chainLacking q l).iChain (-1))
    (hchecks : ¬ Checks (chainLacking q l).iChain q) :
    (processCertsL pf verifies (chainLacking q l)
      (.newL 0 (chainLacking q l).iChain.length none)).error.iReason = .EValidatedOK := by
  obtain ⟨s, hs, -⟩ := states_chainLacking pf hlength (suffix_refl _)
    (hreaches.mono (by omega)) fun _ => hchecks
  rw [processCertsL_error rfl, processCertsL_exit rfl, hs, ok_bind]
  have huser : s.iUserConstrainedPolicies = none := (statesL_keeps hs).2
  rw [finishPolicyCheckL, if_pos huser]
  rfl

/-- It is rejected for want of that policy when it is checked for. -/
theorem chainLacking_rejected (pf : Platform)
    (hlength : ((chainLacking q l).iChain.length : Int) ≤ KMaxTInt)
    (hq : q < l.length) (hreaches : Reaches (chainLacking q l).iChain q)
    (hchecks : Checks (chainLacking q l).iChain q) :
    (processCertsL pf verifies (chainLacking q l)
      (.newL 0 (chainLacking q l).iChain.length none)).error = ⟨.ERequiredPolicyNotFound, q⟩ := by
  obtain ⟨aCert, hget⟩ : ∃ aCert, l[q]? = some aCert := ⟨_, getElem?_eq_getElem hq⟩
  have hcert : (chainLacking q l).iChain[q]? = some (authorityLacking q q aCert) := by
    rw [chainLacking, getElem?_mapIdx, hget]
    rfl
  have hsuffix := cons_suffix_iff.mpr ⟨q, hcert, rfl⟩
  have habove := (suffix_cons ..).trans hsuffix
  have hlt := (List.getElem?_eq_some_iff.mp hcert).1
  have hposition : ((chainLacking q l).iChain.length : Int) - 1 -
      ((chainLacking q l).iChain.drop (q + 1)).length = q := by
    rw [length_drop]
    omega
  obtain ⟨s, hs, hunconstrained⟩ := states_chainLacking pf hlength habove
    (hposition ▸ hreaches) fun hlt' => absurd hlt' (by omega)
  obtain ⟨hpos, hat⟩ := policiesAt_states habove hs
  rw [hposition] at hpos
  have hlacks : LacksPolicy s.iPos (authorityLacking q q aCert) s.toPolicies := by
    refine ⟨none, ?_, ?_⟩
    · rw [authorityLacking_policies, if_pos rfl]
    · obtain ⟨p, r, hp, hr, hle⟩ := hchecks
      have hcount := hat.required.lt_iff.mpr ⟨p, r, by omega, hr, hle⟩
      rw [requirePolicyL, if_pos hcount]
      intro hok
      cases hok
  have hissuer : ∀ aCert' ∈ ((chainLacking q l).iChain.drop (q + 1)).head?,
      aCert'.iSubjectName = ⟨[]⟩ := fun aCert' hhead =>
    chainLacking_subjectName (habove.subset (mem_of_mem_head? hhead))
  rw [error_of_failsWith (processCertsL_failsWith rfl hsuffix hs (turnL_failsWith
    (by rw [hunconstrained.iMaxPathLength]; omega) (authorityLacking_critical hunconstrained)
    (authorityLacking_signed hissuer) (absurd · Bool.false_ne_true) hlacks)), hpos]

end

/-! ### When the demands are the right ones -/

section

variable {pf : Platform} {verifySignatureL : CX509Certificate → Bytes → Leaving Bool}
  {iPKIXCertChain : CPKIXCertChainBase} {aValidationTime : Int}
  {aInitialPolicies : Option (List Text)}

/-- What the check of a certificate in an accepted chain has found. -/
theorem carries_of_checks
    (h : (processCertsL pf verifySignatureL iPKIXCertChain (.newL aValidationTime
      iPKIXCertChain.iChain.length aInitialPolicies)).error.iReason = .EValidatedOK)
    {q : Nat} {aCert : CX509Certificate} (hcert : iPKIXCertChain.iChain[q]? = some aCert)
    (hchecks : Checks iPKIXCertChain.iChain q) :
    ∃ ext, Carries iPKIXCertChain.iChain q ext ∧ (aInitialPolicies.getD [] ≠ [] →
      ∃ info ∈ ext.iPolicies,
        Acceptable iPKIXCertChain.iChain (aInitialPolicies.getD []) q info.iCertPolicyId) := by
  rw [processCertsL_error rfl, processCertsL_exit rfl] at h
  obtain ⟨s, hs, -⟩ := bind_eq_ok.mp h
  have hend := (policiesAt_states (suffix_refl _) hs).1
  obtain ⟨t, policyExt, mappings, constraints, p', ht, hat, hturn⟩ :=
    policyTurn_of_states hs (suffix_refl _) (by omega) hcert
  obtain ⟨p, r, hp, hr, hle⟩ := hchecks
  have hcount := hat.required.lt_iff.mpr ⟨p, r, by omega, hr, hle⟩
  have hrequired := hturn.required
  unfold requirePolicyL at hrequired
  rw [if_pos hcount] at hrequired
  cases policyExt with
  | none => cases hrequired
  | some ext =>
      refine ⟨ext, ⟨aCert, hcert, hturn.decodedPolicies⟩, fun hinitial => ?_⟩
      by_cases hpresent : t.iUserPolicies = [] ∨
          policyIsPresentL ext.iPolicies t.iUserPolicies = true
      · rcases hpresent with hnil | hpresent
        · exact absurd (eq_nil_of_subset_nil (hnil ▸ hat.user)) hinitial
        · obtain ⟨info, hinfo, hany⟩ := any_eq_true.mp hpresent
          obtain ⟨v, hv, heq⟩ := any_eq_true.mp hany
          rw [← of_decide_eq_true heq] at hv
          exact ⟨info, hinfo, ht ▸ hat.acceptable (by omega) _ hv⟩
      · simp only [if_neg hpresent] at hrequired
        cases hrequired

/-- Where the run is rejected for want of a policy, it has been checked for. -/
theorem checks_of_rejected (hpolicies : aInitialPolicies.getD [] = []) {q : Nat}
    (h : (processCertsL pf verifySignatureL iPKIXCertChain (.newL aValidationTime
      iPKIXCertChain.iChain.length aInitialPolicies)).error = ⟨.ERequiredPolicyNotFound, q⟩) :
    q < iPKIXCertChain.iChain.length ∧ Reaches iPKIXCertChain.iChain q ∧
      Checks iPKIXCertChain.iChain q := by
  have huser : (CPKIXValidationState.newL aValidationTime iPKIXCertChain.iChain.length
      aInitialPolicies).iUserConstrainedPolicies = none := by
    cases aInitialPolicies with
    | none => rfl
    | some policies =>
      obtain rfl : policies = [] := hpolicies
      rfl
  obtain ⟨current, above, s, hsuffix, hs, hq, policyExt, -, hlacks⟩ :=
    lacksPolicy_of_error rfl huser h
  have habove := (suffix_cons ..).trans hsuffix
  obtain ⟨hpos, hat⟩ := policiesAt_states habove hs
  refine ⟨by omega, hq ▸ reaches_of_states hs habove, ?_⟩
  by_cases hcount : s.iPos > s.iPolicyRequired
  · obtain ⟨p, r, hp, hr, hle⟩ := hat.required.lt_iff.mp hcount
    exact ⟨p, r, by omega, hr, hle⟩
  · unfold requirePolicyL at hlacks
    rw [if_neg hcount] at hlacks
    exact absurd rfl hlacks

end

/-- **An explicit policy is enforced in every chain with the policy constraints of `l`
exactly when wherever one is required the code checks for it, and wherever the code gets to
check for one a certificate above requires it.** -/
theorem explicitPolicy_iff (pf : Platform) {l : List CX509Certificate}
    (hlength : (l.length : Int) ≤ KMaxTInt) :
    (∀ verifySignatureL (iPKIXCertChain : CPKIXCertChainBase) aValidationTime aInitialPolicies,
      SameConstraints l iPKIXCertChain.iChain →
      ExplicitPolicy pf verifySignatureL iPKIXCertChain aValidationTime aInitialPolicies) ↔
    (Reaches l (-1) → ∀ q < l.length, Demands l q → Checks l q) ∧
      ∀ q < l.length, Reaches l q → Checks l q → DemandsAbove l q := by
  have hsame := fun q => sameConstraints_chainLacking q l
  have hlacking : ∀ q, ((chainLacking q l).iChain.length : Int) ≤ KMaxTInt := by
    intro q
    rwa [chainLacking, length_mapIdx]
  refine ⟨fun hall => ⟨fun hreaches q hq hdemands => ?_, fun q hq hreaches hchecks => ?_⟩, fun h => ?_⟩
  · by_contra hchecks
    have haccepted := chainLacking_accepted pf (hlacking q) ((hsame q).reaches hreaches)
      fun h => hchecks ((hsame q).symm.checks h)
    obtain ⟨aCert, hget⟩ : ∃ aCert, l[q]? = some aCert := ⟨_, getElem?_eq_getElem hq⟩
    have hcert : (chainLacking q l).iChain[q]? = some (authorityLacking q q aCert) := by
      rw [chainLacking, getElem?_mapIdx, hget]
      rfl
    obtain ⟨ext, ⟨aCert', hcert', hext⟩, -⟩ := (hall verifies (chainLacking q l) 0 none
      (hsame q)).enforced haccepted q _ hcert ((hsame q).demands hdemands)
    obtain rfl := Option.some.inj (hcert.symm.trans hcert')
    rw [authorityLacking_policies, if_pos rfl] at hext
    cases hext
  · have hrejected := chainLacking_rejected pf (hlacking q) hq ((hsame q).reaches hreaches)
      ((hsame q).checks hchecks)
    exact (hsame q).symm.demandsAbove
      ((hall verifies (chainLacking q l) 0 none (hsame q)).notRejected rfl q hrejected)
  · intro verifySignatureL iPKIXCertChain aValidationTime aInitialPolicies hl
    have hlen : l.length = iPKIXCertChain.iChain.length := by
      have hmap := congrArg List.length hl
      rwa [length_map, length_map] at hmap
    refine ⟨fun haccepted q aCert hcert hdemands => ?_, fun hpolicies q hrejected => ?_⟩
    · have hlt := (List.getElem?_eq_some_iff.mp hcert).1
      refine carries_of_checks haccepted hcert (hl.checks (h.1 ?_ q (by omega)
        (hl.symm.demands hdemands)))
      rw [processCertsL_error rfl, processCertsL_exit rfl] at haccepted
      obtain ⟨s, hs, -⟩ := bind_eq_ok.mp haccepted
      have hend := (policiesAt_states (suffix_refl _) hs).1
      have hreaches := reaches_of_states hs (suffix_refl _)
      exact hl.symm.reaches (hreaches.mono (by omega))
    · obtain ⟨hlt, hreaches, hchecks⟩ := checks_of_rejected hpolicies hrejected
      exact hl.demandsAbove
        (h.2 q (by omega) (hl.symm.reaches hreaches) (hl.symm.checks hchecks))

/-- An authority that requires an explicit policy of every certificate below. -/
def explicitAuthority : CX509Certificate :=
  .bare [⟨KBasicConstraints, false, authorityData⟩,
    ⟨KPolicyConstraints, false, Der.element 4 (Der.element 0x30 (Der.element 0x80 [0]))⟩]

/-- The theorem at such an authority and a root. -/
theorem explicitPolicy_iff_authority :
    let l := [explicitAuthority, .bare []]
    (∀ verifySignatureL (iPKIXCertChain : CPKIXCertChainBase) aValidationTime aInitialPolicies,
      SameConstraints l iPKIXCertChain.iChain →
      ExplicitPolicy .ascii verifySignatureL iPKIXCertChain aValidationTime aInitialPolicies) ↔
    (Reaches l (-1) → ∀ q < l.length, Demands l q → Checks l q) ∧
      ∀ q < l.length, Reaches l q → Checks l q → DemandsAbove l q :=
  explicitPolicy_iff .ascii (by decide)

/-- The authority right above the leaf requires a policy of it, and the chain is accepted
although the leaf carries none. -/
theorem not_explicitPolicy :
    let iChain := [.bare [], explicitAuthority, .bare []]
    let iPKIXCertChain : CPKIXCertChainBase := ⟨iChain, [], true, [], true⟩
    (processCertsL .ascii verifies iPKIXCertChain (.newL 1 3 none)).error.iReason =
      .EValidatedOK ∧ Demands iChain 0 ∧ ¬ ∃ ext, Carries iChain 0 ext := by
  refine ⟨rfl, ⟨1, 0, ⟨explicitAuthority, ⟨⟨true, 0⟩, ⟨false, 0⟩⟩, rfl,
    rfl, rfl, rfl⟩, by decide⟩, fun hcarries => ?_⟩
  obtain ⟨ext, aCert, hcert, hext⟩ := hcarries
  obtain rfl := Option.some.inj hcert
  cases hext

end CPKIXCertChainAO

end OsSecurity

/-
Everything one turn of the loop does.

A turn reads and writes four parts of the state that never meet: the policies, the
subtrees, the path length, and the critical extensions, which it leaves empty again.  So
`Turn` can say of each part on its own what becomes of it, and a proof about one part
never sees the others.

`turnL_ok` is the inversion: a turn returns a state exactly when it is a `Turn` to that
state.  `statesL_eq_loopL` turns the loop over positions into the descent along the chain,
and `statesL_turn` hands every later proof the turn of any certificate of an accepted
chain.
-/
import OsSecurity.Pkix.ProcessCerts

namespace OsSecurity

open Descent List Logged TPKIXBasicConstraint TPKIXConstraint

namespace CPKIXCertChainAO

open TPKIXPolicyConstraint TPKIXNameConstraint

/-! ### The parts of a turn -/

/-- The policies behind a certificate. -/
def policiesL (iPos : Int) (aCert : CX509Certificate) (p : Policies) : Leaving Policies := do
  let policyExt ← decodedL CX509CertPoliciesExt.newL KCertPolicies aCert
  (requirePolicyL iPos p policyExt).exit
  let mapped ← mapPoliciesL iPos (authorityPoliciesL p policyExt) aCert
  let counted ← countDownL mapped
  let constraints ← decodedL CX509PolicyConstraintsExt.newL KPolicyConstraints aCert
  return constrain counted constraints

/-- The names of the certificate against the subtrees above it. -/
def checkNamesL (pf : Platform) (iPos : Int) (aCert : CX509Certificate)
    (iExcluded iPermitted : SubtreeLists) : Leaving Unit := do
  (checkNameL pf iPos iExcluded iPermitted (.dN aCert.iSubjectName)).exit
  match ← decodedL CX509AltNameExt.newL KSubjectAltName aCert with
  | none => return ()
  | some altNameExt => (checkAltNamesL pf iPos iExcluded iPermitted altNameExt.iAuthorityName).exit

/-- The subtrees behind a certificate, the excluded and the permitted ones. -/
def subtreesL (pf : Platform) (aCert : CX509Certificate) (iExcluded iPermitted : SubtreeLists) :
    Leaving (SubtreeLists × SubtreeLists) := do
  match ← decodedL CX509NameConstraintsExt.newL KNameConstraints aCert with
  | none => return (iExcluded, iPermitted)
  | some nameCons =>
    let iExcluded ← nameCons.iExcludedSubtrees.foldlM (addSubtreeL pf) iExcluded
    return (iExcluded, ← nameCons.iPermittedSubtrees.foldlM (addSubtreeL pf) iPermitted)

/-- The key usage of a certificate that issues others. -/
def keyUsageL (iPos : Int) (aCert : CX509Certificate) : Leaving Unit := do
  match ← decodedL CX509KeyUsageExt.newL KKeyUsage aCert with
  | none => return ()
  | some keyUsage =>
    if iPos > 0 ∧ ¬ keyUsage.isSet .EX509KeyCertSign then leave KErrGeneral else return ()

/-- The path length behind a certificate. -/
def maxPathLengthL (iPos : Int) (aCert : CX509Certificate) (iMaxPathLength : Int) :
    Leaving Int := do
  match ← decodedL CX509BasicConstraintsExt.newL KBasicConstraints aCert with
  | none => return iMaxPathLength
  | some basic =>
    if basic.iMaxChainLen < 0 then leave KErrGeneral
    else return if iPos > basic.iMaxChainLen then basic.iMaxChainLen + 1 else iMaxPathLength

section

variable {pf : Platform} {verifySignatureL : CX509Certificate → Bytes → Leaving Bool}
  {iPKIXCertChain : CPKIXCertChainBase} {issuer : Option CX509Certificate}
  {current : CX509Certificate} {s s' : CPKIXValidationState}

/-! ### What each function leaves -/

theorem checkCriticalExtsL_ok {supported : List Text} {iPos : Int}
    {exts : List CX509CertExtension} :
    (checkCriticalExtsL supported iPos exts).exit = .ok () ↔
      ∀ ext ∈ exts, ext.iId ∈ supported := by
  have hwarn : ∀ extName, (warnOfCriticalL iPos extName).exit = .ok () := by
    intro extName
    unfold warnOfCriticalL
    split <;> rfl
  induction exts with
  | nil => simp [checkCriticalExtsL]
  | cons ext others ih =>
      by_cases h : ext.iId ∈ supported
      · simp [checkCriticalExtsL, checkCriticalExtL, h, hwarn, ih]
      · simp [checkCriticalExtsL, checkCriticalExtL, h, hwarn, Validating.setErrorAndLeaveL]

theorem checkValidityPeriodL_ok {aFatal : Bool} :
    (checkValidityPeriodL aFatal current s).exit = .ok () ↔
      (aFatal = true → current.iValidityPeriod.valid s.iValidationTime = true) := by
  unfold checkValidityPeriodL
  by_cases hv : current.iValidityPeriod.valid s.iValidationTime = true
  · simp [hv]
  · cases aFatal <;> simp [hv, Validating.setErrorAndLeaveL]

theorem checkCertPoliciesL_exit (s : CPKIXValidationState) (aCert : CX509Certificate) :
    ∃ iCriticalExts, (checkCertPoliciesL s aCert).exit = do
      let policyExt ← decodedL CX509CertPoliciesExt.newL KCertPolicies aCert
      (requirePolicyL s.iPos s.toPolicies policyExt).exit
      return { s with toPolicies := authorityPoliciesL s.toPolicies policyExt, iCriticalExts } := by
  have hwarn : ∀ policies, (warnOfQualifiersL policies).exit = .ok () := by
    intro policies
    unfold warnOfQualifiersL
    split <;> rfl
  unfold checkCertPoliciesL
  by_cases hc : (aCert.extension KCertPolicies).any CX509CertExtension.iCritical = true
  · refine ⟨remove s.iCriticalExts KCertPolicies, ?_⟩
    simp [hc, hwarn]
  · refine ⟨s.iCriticalExts, ?_⟩
    simp [hc]

theorem checkNameConstraintsL_exit (s : CPKIXValidationState) (aCert : CX509Certificate) :
    ∃ iCriticalExts, (checkNameConstraintsL pf s aCert).exit = do
      checkNamesL pf s.iPos aCert s.iExcluded s.iPermitted
      return { s with iCriticalExts } := by
  unfold checkNameConstraintsL checkNamesL
  cases decodedL CX509AltNameExt.newL KSubjectAltName aCert with
  | error e =>
      refine ⟨[], ?_⟩
      simp only [exit_bind, exit_lift, leaving_bind_error]
      cases (checkNameL pf s.iPos s.iExcluded s.iPermitted (.dN aCert.iSubjectName)).exit <;> rfl
  | ok altNameExt =>
      cases altNameExt with
      | none =>
        refine ⟨s.iCriticalExts, ?_⟩
        simp only [exit_bind, exit_lift, ok_bind, exit_pure]
        cases (checkNameL pf s.iPos s.iExcluded s.iPermitted (.dN aCert.iSubjectName)).exit <;>
          rfl
      | some ext =>
        refine ⟨remove s.iCriticalExts KSubjectAltName, ?_⟩
        simp only [exit_bind, exit_lift, ok_bind, exit_pure]
        cases (checkNameL pf s.iPos s.iExcluded s.iPermitted (.dN aCert.iSubjectName)).exit <;>
          rfl

theorem checkKeyUsageL_exit (s : CPKIXValidationState) (aCert : CX509Certificate) :
    ∃ iCriticalExts, (TPKIXKeyUsageConstraint.checkKeyUsageL s aCert).exit = do
      keyUsageL s.iPos aCert
      return { s with iCriticalExts } := by
  unfold TPKIXKeyUsageConstraint.checkKeyUsageL keyUsageL
  cases decodedL CX509KeyUsageExt.newL KKeyUsage aCert with
  | error e => exact ⟨[], rfl⟩
  | ok keyUsage =>
      cases keyUsage with
      | none => exact ⟨s.iCriticalExts, rfl⟩
      | some keyUsage =>
        refine ⟨remove s.iCriticalExts KKeyUsage, ?_⟩
        simp only [exit_bind, exit_lift, ok_bind]
        split <;> rfl

theorem updatePathLengthConstraintsL_exit (s : CPKIXValidationState) (aCert : CX509Certificate) :
    ∃ iCriticalExts, (updatePathLengthConstraintsL s aCert).exit = do
      let iMaxPathLength ← maxPathLengthL s.iPos aCert s.iMaxPathLength
      return { s with iMaxPathLength, iCriticalExts } := by
  unfold updatePathLengthConstraintsL maxPathLengthL
  cases decodedL CX509BasicConstraintsExt.newL KBasicConstraints aCert with
  | error e => exact ⟨[], rfl⟩
  | ok basic =>
      cases basic with
      | none => exact ⟨s.iCriticalExts, rfl⟩
      | some basic =>
        refine ⟨remove s.iCriticalExts KBasicConstraints, ?_⟩
        simp only [exit_bind, exit_lift, ok_bind]
        split <;> rfl

theorem updateNameConstraintsL_exit (s : CPKIXValidationState) (aCert : CX509Certificate) :
    ∃ iCriticalExts, updateNameConstraintsL pf s aCert = do
      let l ← subtreesL pf aCert s.iExcluded s.iPermitted
      return { s with iExcluded := l.1, iPermitted := l.2, iCriticalExts } := by
  unfold updateNameConstraintsL subtreesL
  cases decodedL CX509NameConstraintsExt.newL KNameConstraints aCert with
  | error e => exact ⟨[], rfl⟩
  | ok nameCons =>
      cases nameCons with
      | none => exact ⟨s.iCriticalExts, rfl⟩
      | some nameCons =>
        refine ⟨remove s.iCriticalExts KNameConstraints, ?_⟩
        simp only [ok_bind]
        cases nameCons.iExcludedSubtrees.foldlM (addSubtreeL pf) s.iExcluded with
        | error e => rfl
        | ok l => cases nameCons.iPermittedSubtrees.foldlM (addSubtreeL pf) s.iPermitted <;> rfl

/-! ### The turn -/

/-- Everything a turn does that returns the state `s'`. -/
structure Turn (pf : Platform) (verifySignatureL : CX509Certificate → Bytes → Leaving Bool)
    (iPKIXCertChain : CPKIXCertChainBase) (issuer : Option CX509Certificate)
    (current : CX509Certificate) (s s' : CPKIXValidationState) : Prop where
  pathLength : s.iPos < s.iMaxPathLength
  critical : ∀ ext ∈ s.iCriticalExts ++ current.iExtensions.filter CX509CertExtension.iCritical,
    ext.iId ∈ iPKIXCertChain.iSupportedCriticalExts
  signature : (checkSignatureAndNameL pf verifySignatureL issuer current s.iPos).exit = .ok ()
  validity : iPKIXCertChain.iDateTimeCheckFatal = true →
    current.iValidityPeriod.valid s.iValidationTime = true
  policies : policiesL s.iPos current s.toPolicies = .ok s'.toPolicies
  names : checkNamesL pf s.iPos current s.iExcluded s.iPermitted = .ok ()
  subtrees : subtreesL pf current s.iExcluded s.iPermitted = .ok (s'.iExcluded, s'.iPermitted)
  keyUsage : keyUsageL s.iPos current = .ok ()
  subjectType : s.iPos < iPKIXCertChain.iChain.length - 1 →
    (TPKIXBasicConstraint.checkCertSubjectTypeL s current).exit = .ok ()
  maxPathLength : maxPathLengthL s.iPos current (s.iMaxPathLength - 1) = .ok s'.iMaxPathLength
  iPos : s'.iPos = s.iPos - 1
  iCriticalExts : s'.iCriticalExts = []
  iValidationTime : s'.iValidationTime = s.iValidationTime
  iUserConstrainedPolicies : s'.iUserConstrainedPolicies = s.iUserConstrainedPolicies

/-- **A turn returns a state exactly when it is a `Turn` to it.** -/
theorem turnL_ok :
    (turnL pf verifySignatureL iPKIXCertChain issuer current s).exit = .ok s' ↔
      Turn pf verifySignatureL iPKIXCertChain issuer current s s' := by
  -- the states between the functions, each with what became of its critical extensions
  let s₁ := criticalExtsL { s with iMaxPathLength := s.iMaxPathLength - 1 } current
  refine ⟨fun h => ?_, fun h => ?_⟩
  · unfold turnL at h
    by_cases hpath : s.iMaxPathLength - 1 < s.iPos
    · simp [hpath, Validating.setErrorAndLeaveL] at h
    simp only [if_neg hpath, processCertL, exit_bind, exit_call, ok_bind, exit_lift, exit_pure] at h
    obtain ⟨s₇, h, hs'⟩ := bind_eq_ok.mp h
    obtain ⟨_, hcrit, h⟩ := bind_eq_ok.mp h
    obtain ⟨_, hsig, h⟩ := bind_eq_ok.mp h
    obtain ⟨_, hval, h⟩ := bind_eq_ok.mp h
    obtain ⟨s₂, h2, h⟩ := bind_eq_ok.mp h
    obtain ⟨s₃, h3, h⟩ := bind_eq_ok.mp h
    obtain ⟨s₄, h4, h⟩ := bind_eq_ok.mp h
    obtain ⟨_, htype, h⟩ := bind_eq_ok.mp h
    obtain ⟨s₅, h5, h⟩ := bind_eq_ok.mp h
    obtain ⟨s₆, h6, h⟩ := bind_eq_ok.mp h
    obtain ⟨s₈, h7, h⟩ := bind_eq_ok.mp h
    obtain rfl := Except.ok.inj h
    obtain rfl := Except.ok.inj hs'
    obtain ⟨E2, hE⟩ := checkCertPoliciesL_exit s₁ current
    obtain ⟨policyExt, hext, h2⟩ := bind_eq_ok.mp (hE.symm.trans h2)
    obtain ⟨_, hrequired, h2⟩ := bind_eq_ok.mp h2
    obtain rfl := Except.ok.inj h2
    obtain ⟨E3, hE⟩ := checkNameConstraintsL_exit _ current
    obtain ⟨_, hnames, h3⟩ := bind_eq_ok.mp (hE.symm.trans h3)
    obtain rfl := Except.ok.inj h3
    obtain ⟨E4, hE⟩ := checkKeyUsageL_exit _ current
    obtain ⟨_, husage, h4⟩ := bind_eq_ok.mp (hE.symm.trans h4)
    obtain rfl := Except.ok.inj h4
    obtain ⟨E5, hE⟩ := updatePathLengthConstraintsL_exit _ current
    obtain ⟨iMaxPathLength, hmax, h5⟩ := bind_eq_ok.mp (hE.symm.trans h5)
    obtain rfl := Except.ok.inj h5
    obtain ⟨E6, hE⟩ := updateNameConstraintsL_exit _ current
    obtain ⟨l, hl, h6⟩ := bind_eq_ok.mp (hE.symm.trans h6)
    obtain rfl := Except.ok.inj h6
    obtain ⟨mapped, hmapped, h7⟩ := bind_eq_ok.mp h7
    obtain ⟨counted, hcounted, h7⟩ := bind_eq_ok.mp h7
    obtain ⟨constraints, hconstraints, h7⟩ := bind_eq_ok.mp h7
    obtain rfl := Except.ok.inj h7
    refine ⟨by omega, checkCriticalExtsL_ok.mp hcrit, hsig, checkValidityPeriodL_ok.mp hval, ?_,
      hnames, hl, husage, ?_, hmax, rfl, rfl, rfl, rfl⟩
    · exact bind_eq_ok.mpr ⟨policyExt, hext, bind_eq_ok.mpr ⟨(), hrequired,
        bind_eq_ok.mpr ⟨mapped, hmapped, bind_eq_ok.mpr ⟨counted, hcounted,
          bind_eq_ok.mpr ⟨constraints, hconstraints, rfl⟩⟩⟩⟩⟩
    · intro hroot
      have htype' : (if s.iPos < iPKIXCertChain.iChain.length - 1 then
          checkCertSubjectTypeL s current
        else pure ()).exit = .ok () := htype
      rwa [if_pos hroot] at htype'
  · obtain ⟨policyExt, hext, hp⟩ := bind_eq_ok.mp h.policies
    obtain ⟨_, hrequired, hp⟩ := bind_eq_ok.mp hp
    obtain ⟨mapped, hmapped, hp⟩ := bind_eq_ok.mp hp
    obtain ⟨counted, hcounted, hp⟩ := bind_eq_ok.mp hp
    obtain ⟨constraints, hconstraints, hp⟩ := bind_eq_ok.mp hp
    obtain ⟨policies, aTime, iMaxPathLength, iPos, initial, iExcluded, iPermitted, exts⟩ := s'
    obtain rfl : constrain counted constraints = policies := Except.ok.inj hp
    obtain rfl : iPos = s.iPos - 1 := h.iPos
    obtain rfl : exts = [] := h.iCriticalExts
    obtain rfl : aTime = s.iValidationTime := h.iValidationTime
    obtain rfl : initial = s.iUserConstrainedPolicies := h.iUserConstrainedPolicies
    obtain ⟨E2, h2⟩ := checkCertPoliciesL_exit s₁ current
    let s₂ := { s₁ with
      toPolicies := authorityPoliciesL s₁.toPolicies policyExt, iCriticalExts := E2 }
    obtain ⟨E3, h3⟩ := checkNameConstraintsL_exit s₂ current
    let s₃ := { s₂ with iCriticalExts := E3 }
    obtain ⟨E4, h4⟩ := checkKeyUsageL_exit s₃ current
    let s₄ := { s₃ with iCriticalExts := E4 }
    obtain ⟨E5, h5⟩ := updatePathLengthConstraintsL_exit s₄ current
    let s₅ := { s₄ with iMaxPathLength := iMaxPathLength, iCriticalExts := E5 }
    obtain ⟨E6, h6⟩ := updateNameConstraintsL_exit s₅ current
    let s₆ := { s₅ with
      iExcluded := iExcluded, iPermitted := iPermitted, iCriticalExts := E6 }
    have h2' : (checkCertPoliciesL s₁ current).exit = .ok s₂ :=
      h2.trans (bind_eq_ok.mpr ⟨policyExt, hext, bind_eq_ok.mpr ⟨(), hrequired, rfl⟩⟩)
    have h3' : (checkNameConstraintsL pf s₂ current).exit = .ok s₃ :=
      h3.trans (bind_eq_ok.mpr ⟨(), h.names, rfl⟩)
    have h4' : (TPKIXKeyUsageConstraint.checkKeyUsageL s₃ current).exit = .ok s₄ :=
      h4.trans (bind_eq_ok.mpr ⟨(), h.keyUsage, rfl⟩)
    have h5' : (updatePathLengthConstraintsL s₄ current).exit = .ok s₅ :=
      h5.trans (bind_eq_ok.mpr ⟨iMaxPathLength, h.maxPathLength, rfl⟩)
    have h6' : updateNameConstraintsL pf s₅ current = .ok s₆ :=
      h6.trans (bind_eq_ok.mpr ⟨(iExcluded, iPermitted), h.subtrees, rfl⟩)
    have htype : (if s₄.iPos < iPKIXCertChain.iChain.length - 1 then
        checkCertSubjectTypeL s₄ current else pure ()).exit = .ok () := by
      by_cases hroot : s.iPos < iPKIXCertChain.iChain.length - 1
      · exact (congrArg exit (if_pos hroot)).trans (h.subjectType hroot)
      · exact congrArg exit (if_neg hroot)
    unfold turnL
    rw [if_neg (by have := h.pathLength; simp only; omega)]
    simp only [processCertL, exit_bind, exit_call, ok_bind, exit_lift, exit_pure]
    refine bind_eq_ok.mpr ⟨{ s₆ with
      toPolicies := constrain counted constraints, iCriticalExts := [] }, ?_, rfl⟩
    refine bind_eq_ok.mpr ⟨(), checkCriticalExtsL_ok.mpr h.critical, ?_⟩
    refine bind_eq_ok.mpr ⟨(), h.signature, ?_⟩
    refine bind_eq_ok.mpr ⟨(), checkValidityPeriodL_ok.mpr h.validity, ?_⟩
    refine bind_eq_ok.mpr ⟨s₂, h2', bind_eq_ok.mpr ⟨s₃, h3', ?_⟩⟩
    refine bind_eq_ok.mpr ⟨s₄, h4', bind_eq_ok.mpr ⟨(), htype, ?_⟩⟩
    refine bind_eq_ok.mpr ⟨s₅, h5', bind_eq_ok.mpr ⟨s₆, h6', ?_⟩⟩
    exact bind_eq_ok.mpr ⟨_, bind_eq_ok.mpr ⟨mapped, hmapped,
      bind_eq_ok.mpr ⟨counted, hcounted, bind_eq_ok.mpr ⟨constraints, hconstraints, rfl⟩⟩⟩, rfl⟩

/-- There is a turn when every one of its parts comes out. -/
theorem exists_turn {l : SubtreeLists × SubtreeLists} {p : Policies} {iMaxPathLength : Int}
    (pathLength : s.iPos < s.iMaxPathLength)
    (critical : ∀ ext ∈ s.iCriticalExts ++ current.iExtensions.filter CX509CertExtension.iCritical,
      ext.iId ∈ iPKIXCertChain.iSupportedCriticalExts)
    (signature : (checkSignatureAndNameL pf verifySignatureL issuer current s.iPos).exit = .ok ())
    (validity : iPKIXCertChain.iDateTimeCheckFatal = true →
      current.iValidityPeriod.valid s.iValidationTime = true)
    (policies : policiesL s.iPos current s.toPolicies = .ok p)
    (names : checkNamesL pf s.iPos current s.iExcluded s.iPermitted = .ok ())
    (subtrees : subtreesL pf current s.iExcluded s.iPermitted = .ok l)
    (keyUsage : keyUsageL s.iPos current = .ok ())
    (subjectType : s.iPos < iPKIXCertChain.iChain.length - 1 →
      (checkCertSubjectTypeL s current).exit = .ok ())
    (maxPathLength : maxPathLengthL s.iPos current (s.iMaxPathLength - 1) = .ok iMaxPathLength) :
    ∃ s', Turn pf verifySignatureL iPKIXCertChain issuer current s s' :=
  ⟨{ s with toPolicies := p, iExcluded := l.1, iPermitted := l.2, iMaxPathLength,
            iPos := s.iPos - 1, iCriticalExts := [] },
    { pathLength, critical, signature, validity, policies, names, subtrees, keyUsage,
      subjectType, maxPathLength, iPos := rfl, iCriticalExts := rfl, iValidationTime := rfl,
      iUserConstrainedPolicies := rfl }⟩

/-! ### The loop as a descent -/

variable {init : CPKIXValidationState}

/-- The states behind the certificates of a chain, from the last one on. -/
def statesL (pf : Platform) (verifySignatureL : CX509Certificate → Bytes → Leaving Bool)
    (iPKIXCertChain : CPKIXCertChainBase) (init : CPKIXValidationState) :
    List CX509Certificate → Leaving CPKIXValidationState :=
  descend (fun above current s =>
    (turnL pf verifySignatureL iPKIXCertChain above.head? current s).exit) init

theorem statesL_iPos {l : List CX509Certificate}
    (h : statesL pf verifySignatureL iPKIXCertChain init l = .ok s) :
    s.iPos = init.iPos - l.length := by
  refine descend_invariant (P := fun l s => s.iPos = init.iPos - l.length)
    (by simp) ?_ (suffix_refl l) h
  intro above current s s' _ hs hturn
  rw [(turnL_ok.mp hturn).iPos, hs, length_cons]
  omega

theorem statesL_cons {above : List CX509Certificate}
    (h : statesL pf verifySignatureL iPKIXCertChain init above = .ok s) :
    statesL pf verifySignatureL iPKIXCertChain init (current :: above) =
      (turnL pf verifySignatureL iPKIXCertChain above.head? current s).exit := by
  show (statesL pf verifySignatureL iPKIXCertChain init above >>= _) = _
  rw [h, ok_bind]

/-- A turn of the loop is the turn for the next certificate down. -/
theorem loopL_succ {below above : List CX509Certificate}
    (hchain : iPKIXCertChain.iChain = below ++ current :: above)
    (hinit : init.iPos = iPKIXCertChain.iChain.length - 1)
    (h : statesL pf verifySignatureL iPKIXCertChain init above = .ok s) :
    loopL pf verifySignatureL iPKIXCertChain (below.length + 1) s =
      (turnL pf verifySignatureL iPKIXCertChain above.head? current s >>=
        loopL pf verifySignatureL iPKIXCertChain below.length) := by
  have hpos : s.iPos = below.length := by
    rw [statesL_iPos h, hinit, hchain]
    simp only [length_append, length_cons]
    omega
  have hcurrent : iPKIXCertChain.iChain[s.iPos.toNat]? = some current := by
    rw [hpos, hchain]
    simp
  have hissuer : iPKIXCertChain.iChain[s.iPos.toNat + 1]? = above.head? := by
    rw [hpos, hchain, head?_eq_getElem?, Int.toNat_natCast,
      getElem?_append_right (by omega), Nat.add_sub_cancel_left]
    rfl
  rw [loopL, if_neg (by omega), hcurrent]
  simp only [hissuer]

/-- **The loop goes through the states of the descent.** -/
theorem statesL_eq_loopL {below above : List CX509Certificate}
    (hchain : iPKIXCertChain.iChain = below ++ above)
    (hinit : init.iPos = iPKIXCertChain.iChain.length - 1)
    (h : statesL pf verifySignatureL iPKIXCertChain init above = .ok s) :
    statesL pf verifySignatureL iPKIXCertChain init (below ++ above) =
      (loopL pf verifySignatureL iPKIXCertChain below.length s).exit := by
  induction below using reverseRecOn generalizing above s with
  | nil => exact h
  | append_singleton below current ih =>
      rw [List.append_assoc, singleton_append] at hchain ⊢
      have hstep : statesL pf verifySignatureL iPKIXCertChain init (current :: above) =
          (turnL pf verifySignatureL iPKIXCertChain above.head? current s).exit := statesL_cons h
      rw [length_append, length_singleton, loopL_succ hchain hinit h, exit_bind]
      cases hturn : (turnL pf verifySignatureL iPKIXCertChain above.head? current s).exit with
      | error e => exact descend_append_error (hstep.trans hturn)
      | ok s' => exact ih hchain (hstep.trans hturn)

theorem statesL_chain (pf : Platform) (verifySignatureL : CX509Certificate → Bytes → Leaving Bool)
    (hinit : init.iPos = iPKIXCertChain.iChain.length - 1) :
    statesL pf verifySignatureL iPKIXCertChain init iPKIXCertChain.iChain =
      (loopL pf verifySignatureL iPKIXCertChain iPKIXCertChain.iChain.length init).exit := by
  have hnil : statesL pf verifySignatureL iPKIXCertChain init [] = .ok init := rfl
  have h := statesL_eq_loopL (append_nil _).symm hinit hnil
  rwa [append_nil] at h

/-- The two members of the state no turn touches. -/
theorem statesL_keeps {l : List CX509Certificate}
    (h : statesL pf verifySignatureL iPKIXCertChain init l = .ok s) :
    s.iValidationTime = init.iValidationTime ∧
      s.iUserConstrainedPolicies = init.iUserConstrainedPolicies := by
  refine descend_invariant (P := fun _ s => s.iValidationTime = init.iValidationTime ∧
    s.iUserConstrainedPolicies = init.iUserConstrainedPolicies) ⟨rfl, rfl⟩ ?_
    (suffix_refl l) h
  intro above current s s' _ hs hturn
  have hturn := turnL_ok.mp hturn
  exact ⟨hturn.iValidationTime.trans hs.1, hturn.iUserConstrainedPolicies.trans hs.2⟩

/-- How `ProcessCertsL` is left. -/
theorem processCertsL_exit (hinit : init.iPos = iPKIXCertChain.iChain.length - 1) :
    (processCertsL pf verifySignatureL iPKIXCertChain init).exit =
      (statesL pf verifySignatureL iPKIXCertChain init iPKIXCertChain.iChain >>= fun s =>
        (finishPolicyCheckL s).exit) := by
  have hpolicies : ∀ policies, (appendPoliciesL policies).exit = .ok () := by
    intro policies
    induction policies with
    | nil => rfl
    | cons policy others ih => simp [appendPoliciesL, ih]
  rw [statesL_chain pf verifySignatureL hinit]
  simp only [processCertsL, checkChainL, exit_bind, exit_call, hpolicies]
  cases (loopL pf verifySignatureL iPKIXCertChain iPKIXCertChain.iChain.length init).exit with
  | error e => rfl
  | ok s => simp only [ok_bind]; cases (finishPolicyCheckL s).exit <;> rfl

end

end CPKIXCertChainAO

end OsSecurity

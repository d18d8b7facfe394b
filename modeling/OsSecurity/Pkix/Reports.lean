/-
What is reported on the way.

Everything up to the last line of `ProcessCertsL` reports failures only, so that the
result ends in `EValidatedOK` exactly when the function returns: `processCertsL_error`.

One of the failures is followed further.  `ERequiredPolicyNotFound` is reported for a
certificate only when the check of its policies fails, or at the very end:
`loopL_reports`.
-/
import OsSecurity.Pkix.Turn

namespace OsSecurity

open List

namespace CPKIXCertChainAO

open Logged Validating TPKIXPolicyConstraint TPKIXNameConstraint

/-- A turn may report any failure, a missing policy only under the condition `C` and for
its own position. -/
def TurnReport (iPos : Int) (C : Prop) : ResultCall → Prop
  | .setError aStatus => aStatus.iReason ≠ .EValidatedOK ∧
    (aStatus.iReason = .ERequiredPolicyNotFound → aStatus.iCert = iPos ∧ C)
  | _ => True

section

variable {pf : Platform} {verifySignatureL : CX509Certificate → Bytes → Leaving Bool}
  {iPKIXCertChain : CPKIXCertChainBase} {issuer : Option CX509Certificate}
  {current : CX509Certificate} {s s' : CPKIXValidationState} {iPos : Int} {C : Prop}

theorem setErrorAndLeaveL_reports {α : Type} {aError : TValidationError} {aCert : Int}
    (hok : aError ≠ .EValidatedOK) (hpolicy : aError ≠ .ERequiredPolicyNotFound) :
    Reports (TurnReport iPos C) (setErrorAndLeaveL aError aCert : Validating α) :=
  .failWith ⟨hok, fun h => absurd h hpolicy⟩

theorem checkCriticalExtsL_reports {supported : List Text} {exts : List CX509CertExtension} :
    Reports (TurnReport iPos C) (checkCriticalExtsL supported iPos exts) := by
  have hwarn : ∀ extName, Reports (TurnReport iPos C) (warnOfCriticalL iPos extName) := by
    intro extName
    unfold warnOfCriticalL
    split
    · exact .pure ()
    · exact .call trivial
  induction exts with
  | nil => exact .pure ()
  | cons ext others ih =>
      refine .bind ?_ fun _ _ => ih
      refine .ite (.bind (.call trivial) fun _ _ => hwarn _) (.bind (hwarn _) fun _ _ => ?_)
      exact setErrorAndLeaveL_reports (by decide) (by decide)

theorem checkSignatureAndNameL_reports :
    Reports (TurnReport iPos C)
      (checkSignatureAndNameL pf verifySignatureL issuer current iPos) := by
  have hsignature : ∀ key, Reports (TurnReport iPos C)
      (checkSignatureL verifySignatureL current key iPos) := fun key =>
    .bind (.lift _) fun _ _ =>
      .ite (.pure ()) (setErrorAndLeaveL_reports (by decide) (by decide))
  unfold checkSignatureAndNameL
  split
  · exact .bind (.lift _) fun _ _ => .ite (hsignature _) (.call trivial)
  · exact .bind (.lift _) fun _ _ =>
      .ite (hsignature _) (setErrorAndLeaveL_reports (by decide) (by decide))

theorem checkValidityPeriodL_reports {aFatal : Bool} :
    Reports (TurnReport iPos C) (checkValidityPeriodL aFatal current s) :=
  .ite (.pure ()) (.ite (setErrorAndLeaveL_reports (by decide) (by decide)) (.call trivial))

theorem requirePolicyL_reports {p : Policies} {policyExt : Option CX509CertPoliciesExt}
    (h : (requirePolicyL iPos p policyExt).exit ≠ .ok () → C) :
    Reports (TurnReport iPos C) (requirePolicyL iPos p policyExt) := by
  unfold requirePolicyL at h ⊢
  split
  · rename_i hpos
    rw [if_pos hpos] at h
    split
    · exact .failWith ⟨nofun, fun _ => ⟨rfl, h (by simp [setErrorAndLeaveL])⟩⟩
    · split
      · exact .pure ()
      · rename_i hpresent
        simp only [if_neg hpresent] at h
        exact .failWith ⟨nofun, fun _ => ⟨rfl, h (by simp [setErrorAndLeaveL])⟩⟩
  · exact .pure ()

/-- The policies of the certificate are decoded and are not what is required. -/
def LacksPolicy (iPos : Int) (aCert : CX509Certificate) (p : Policies) : Prop :=
  ∃ policyExt, decodedL CX509CertPoliciesExt.newL KCertPolicies aCert = .ok policyExt ∧
    (requirePolicyL iPos p policyExt).exit ≠ .ok ()

theorem checkCertPoliciesL_reports :
    Reports (TurnReport s.iPos (LacksPolicy s.iPos current s.toPolicies))
      (checkCertPoliciesL s current) := by
  refine .bind (.lift _) fun policyExt hext => .bind ?_ fun _ _ => ?_
  · exact requirePolicyL_reports fun h => ⟨policyExt, hext, h⟩
  · refine .ite (.bind ?_ fun _ _ => .pure _) (.pure _)
    unfold warnOfQualifiersL
    split
    · exact .pure ()
    · exact .call trivial

theorem checkNameL_reports {iExcluded iPermitted : SubtreeLists} {aName : TPKIXName} :
    Reports (TurnReport iPos C) (checkNameL pf iPos iExcluded iPermitted aName) := by
  refine .bind (.lift _) fun _ _ =>
    .ite (setErrorAndLeaveL_reports (by decide) (by decide)) (.ite (.pure ()) ?_)
  exact .bind (.lift _) fun _ _ =>
    .ite (.pure ()) (setErrorAndLeaveL_reports (by decide) (by decide))

theorem checkAltNamesL_reports {iExcluded iPermitted : SubtreeLists}
    {names : List CX509GeneralName} :
    Reports (TurnReport iPos C) (checkAltNamesL pf iPos iExcluded iPermitted names) := by
  induction names with
  | nil => exact .pure ()
  | cons gN others ih =>
      refine .bind (.lift _) fun name _ => ?_
      cases name with
      | none => exact ih
      | some name => exact .bind checkNameL_reports fun _ _ => ih

theorem checkNameConstraintsL_reports :
    Reports (TurnReport s.iPos C) (checkNameConstraintsL pf s current) := by
  refine .bind checkNameL_reports fun _ _ => .bind (.lift _) fun altNameExt _ => ?_
  cases altNameExt with
  | none => exact .pure _
  | some altNameExt => exact .bind checkAltNamesL_reports fun _ _ => .pure _

theorem checkKeyUsageL_reports :
    Reports (TurnReport s.iPos C) (TPKIXKeyUsageConstraint.checkKeyUsageL s current) := by
  refine .bind (.lift _) fun keyUsage _ => ?_
  cases keyUsage with
  | none => exact .pure _
  | some keyUsage => exact .ite (setErrorAndLeaveL_reports (by decide) (by decide)) (.pure _)

theorem checkCertSubjectTypeL_reports :
    Reports (TurnReport s.iPos C) (TPKIXBasicConstraint.checkCertSubjectTypeL s current) :=
  .bind (.lift _) fun _ _ =>
    .ite (setErrorAndLeaveL_reports (by decide) (by decide)) (.pure _)

theorem updatePathLengthConstraintsL_reports :
    Reports (TurnReport s.iPos C)
      (TPKIXBasicConstraint.updatePathLengthConstraintsL s current) := by
  refine .bind (.lift _) fun basic _ => ?_
  cases basic with
  | none => exact .pure _
  | some basic => exact .ite (setErrorAndLeaveL_reports (by decide) (by decide)) (.pure _)

/-! ### The turn, the loop and the chain -/

theorem processCertL_reports :
    Reports (TurnReport s.iPos (LacksPolicy s.iPos current s.toPolicies))
      (processCertL pf verifySignatureL iPKIXCertChain issuer current s) := by
  refine .bind (.call trivial) fun _ _ => .bind checkCriticalExtsL_reports fun _ _ => ?_
  refine .bind checkSignatureAndNameL_reports fun _ _ => ?_
  refine .bind checkValidityPeriodL_reports fun _ _ => ?_
  refine .bind checkCertPoliciesL_reports fun s₂ h2 => ?_
  obtain ⟨_, hE⟩ := checkCertPoliciesL_exit (criticalExtsL s current) current
  obtain ⟨_, -, h2⟩ := bind_eq_ok.mp (hE.symm.trans h2)
  obtain ⟨_, -, h2⟩ := bind_eq_ok.mp h2
  obtain rfl := Except.ok.inj h2
  refine .bind checkNameConstraintsL_reports fun s₃ h3 => ?_
  obtain ⟨_, hE⟩ := checkNameConstraintsL_exit _ current
  obtain ⟨_, -, h3⟩ := bind_eq_ok.mp (hE.symm.trans h3)
  obtain rfl := Except.ok.inj h3
  refine .bind checkKeyUsageL_reports fun s₄ h4 => ?_
  obtain ⟨_, hE⟩ := checkKeyUsageL_exit _ current
  obtain ⟨_, -, h4⟩ := bind_eq_ok.mp (hE.symm.trans h4)
  obtain rfl := Except.ok.inj h4
  refine .bind (.ite checkCertSubjectTypeL_reports (.pure ())) fun _ _ => ?_
  refine .bind updatePathLengthConstraintsL_reports fun _ _ => ?_
  exact .bind (.lift _) fun _ _ => .bind (.lift _) fun _ _ => .pure _

theorem turnL_reports :
    Reports (TurnReport s.iPos (LacksPolicy s.iPos current s.toPolicies))
      (turnL pf verifySignatureL iPKIXCertChain issuer current s) := by
  unfold turnL
  exact .ite (setErrorAndLeaveL_reports nofun nofun)
    (.bind processCertL_reports fun _ _ => .pure _)

variable {init : CPKIXValidationState}

/-- Where a missing policy is reported, the state there lacks it. -/
def ChainReport (pf : Platform) (verifySignatureL : CX509Certificate → Bytes → Leaving Bool)
    (iPKIXCertChain : CPKIXCertChainBase) (init : CPKIXValidationState) : ResultCall → Prop
  | .setError aStatus => aStatus.iReason ≠ .EValidatedOK ∧
    (aStatus.iReason = .ERequiredPolicyNotFound →
      init.iUserConstrainedPolicies ≠ none ∨
      ∃ current above s, current :: above <:+ iPKIXCertChain.iChain ∧
        statesL pf verifySignatureL iPKIXCertChain init above = .ok s ∧
          aStatus.iCert = s.iPos ∧ LacksPolicy s.iPos current s.toPolicies)
  | _ => True

theorem loopL_reports {below above : List CX509Certificate}
    (hchain : iPKIXCertChain.iChain = below ++ above)
    (hinit : init.iPos = iPKIXCertChain.iChain.length - 1)
    (h : statesL pf verifySignatureL iPKIXCertChain init above = .ok s) :
    Reports (ChainReport pf verifySignatureL iPKIXCertChain init)
      (loopL pf verifySignatureL iPKIXCertChain below.length s) := by
  induction below using reverseRecOn generalizing above s with
  | nil => exact .pure s
  | append_singleton below current ih =>
      rw [List.append_assoc, singleton_append] at hchain
      rw [length_append, length_singleton, loopL_succ hchain hinit h]
      refine .bind ?_ fun s' hs' => ih hchain ((statesL_cons h).trans hs')
      intro k hk
      have hreport := turnL_reports k hk
      match k with
      | .setError aStatus =>
        refine ⟨hreport.1, fun hreason => .inr ?_⟩
        obtain ⟨hcert, hlacks⟩ := hreport.2 hreason
        exact ⟨current, above, s, hchain ▸ suffix_append .., h, hcert, hlacks⟩
      | .appendWarning _ | .appendPolicy _ | .appendCertificateValidationObject _
      | .appendCriticalExtensionWarning _ => trivial

section

variable (hinit : init.iPos = iPKIXCertChain.iChain.length - 1)
include hinit

/-- A missing policy may be reported once more when the chain has been gone through. -/
theorem checkChainL_reports :
    Reports (ChainReport pf verifySignatureL iPKIXCertChain init)
      (checkChainL pf verifySignatureL iPKIXCertChain init) := by
  refine .bind (loopL_reports (append_nil _).symm hinit rfl) fun s hs =>
    .bind ?_ fun _ _ => ?_
  · have hkeeps := statesL_keeps ((statesL_chain pf verifySignatureL hinit).trans hs)
    by_cases huser : s.iUserConstrainedPolicies = none
    · rw [finishPolicyCheckL, if_pos huser]
      exact .pure ()
    · rw [finishPolicyCheckL, if_neg huser]
      exact .ite (.pure ()) (.failWith ⟨nofun, fun _ => .inl (hkeeps.2 ▸ huser)⟩)
  · generalize s.iAuthorityConstrainedPolicies = policies
    induction policies with
    | nil => exact .pure ()
    | cons policy others ih => exact .bind (.call trivial) fun _ _ => ih

/-- **The result ends in `EValidatedOK` exactly when `ProcessCertsL` returns.** -/
theorem processCertsL_error :
    (processCertsL pf verifySignatureL iPKIXCertChain init).error.iReason = .EValidatedOK ↔
      (processCertsL pf verifySignatureL iPKIXCertChain init).exit = .ok () := by
  have hsilent : ∀ k ∈ (checkChainL pf verifySignatureL iPKIXCertChain init).calls, Silent k := by
    intro k hk
    have hreport := checkChainL_reports hinit k hk
    cases k with
    | setError aStatus => exact hreport.1
    | _ => trivial
  have hprocess : processCertsL pf verifySignatureL iPKIXCertChain init =
      Logged.bind (checkChainL pf verifySignatureL iPKIXCertChain init) fun _ =>
        .call (.setError ⟨.EValidatedOK, 0⟩) := rfl
  rw [hprocess]
  unfold Logged.bind
  cases hexit : (checkChainL pf verifySignatureL iPKIXCertChain init).exit with
  | error e =>
      refine ⟨fun h => ?_, fun h => ?_⟩
      · exact absurd h (errorAfter_of_silent hsilent nofun)
      · cases h
  | ok a =>
      refine ⟨fun _ => rfl, fun _ => ?_⟩
      show (errorAfter _ (_ ++ _)).iReason = _
      rw [errorAfter_append]
      rfl

/-- An error that is set has been reported, and a missing policy where `ChainReport` says. -/
theorem lacksPolicy_of_error (huser : init.iUserConstrainedPolicies = none) {q : Int}
    (h : (processCertsL pf verifySignatureL iPKIXCertChain init).error = ⟨.ERequiredPolicyNotFound, q⟩) :
    ∃ current above s, current :: above <:+ iPKIXCertChain.iChain ∧
      statesL pf verifySignatureL iPKIXCertChain init above = .ok s ∧
        q = s.iPos ∧ LacksPolicy s.iPos current s.toPolicies := by
  have hreports : Reports (fun k => ChainReport pf verifySignatureL iPKIXCertChain init k ∨
      k = .setError ⟨.EValidatedOK, 0⟩)
      (processCertsL pf verifySignatureL iPKIXCertChain init) :=
    .bind ((checkChainL_reports hinit).mono fun _ => .inl) fun _ _ => .call (.inr rfl)
  have hmem : .setError ⟨.ERequiredPolicyNotFound, q⟩ ∈
      (processCertsL pf verifySignatureL iPKIXCertChain init).calls := by
    rw [← h]
    rcases setError_mem ⟨.EChainHasNoRoot, 0⟩
      (processCertsL pf verifySignatureL iPKIXCertChain init).calls with heq | hmem
    · exact absurd (heq.symm.trans h) nofun
    · exact hmem
  rcases hreports _ hmem with hreport | heq
  · rcases hreport.2 rfl with hinitial | hlacks
    · exact absurd huser hinitial
    · exact hlacks
  · cases heq

end

/-! ### A turn that fails for want of a policy -/

theorem requirePolicyL_failsWith {p : Policies} {policyExt : Option CX509CertPoliciesExt}
    (h : (requirePolicyL iPos p policyExt).exit ≠ .ok ()) :
    FailsWith (.setError ⟨.ERequiredPolicyNotFound, iPos⟩) (requirePolicyL iPos p policyExt) := by
  unfold requirePolicyL at h ⊢
  split
  · rename_i hpos
    rw [if_pos hpos] at h
    split
    · exact .failWith _
    · rename_i policyExt
      split
      · rename_i hpresent
        simp only [if_pos hpresent] at h
        exact absurd rfl h
      · exact .failWith _
  · rename_i hpos
    rw [if_neg hpos] at h
    exact absurd rfl h

/-- The checks ahead of the policies pass. -/
theorem turnL_failsWith (hpath : s.iPos < s.iMaxPathLength)
    (hcritical : ∀ ext ∈ s.iCriticalExts ++ current.iExtensions.filter CX509CertExtension.iCritical,
      ext.iId ∈ iPKIXCertChain.iSupportedCriticalExts)
    (hsignature : (checkSignatureAndNameL pf verifySignatureL issuer current s.iPos).exit = .ok ())
    (hvalidity : iPKIXCertChain.iDateTimeCheckFatal = true →
      current.iValidityPeriod.valid s.iValidationTime = true)
    (hlacks : LacksPolicy s.iPos current s.toPolicies) :
    FailsWith (.setError ⟨.ERequiredPolicyNotFound, s.iPos⟩)
      (turnL pf verifySignatureL iPKIXCertChain issuer current s) := by
  obtain ⟨policyExt, hext, hrequired⟩ := hlacks
  unfold turnL
  rw [if_neg (by simp only; omega)]
  refine .bind_left _ (.bind_right rfl (.bind_right (checkCriticalExtsL_ok.mpr hcritical) ?_))
  refine .bind_right hsignature (.bind_right (checkValidityPeriodL_ok.mpr hvalidity) ?_)
  exact .bind_left _ (.bind_right hext (.bind_left _ (requirePolicyL_failsWith hrequired)))

/-- The failure of a turn is that of the whole. -/
theorem processCertsL_failsWith {k : ResultCall} {above : List CX509Certificate}
    (hinit : init.iPos = iPKIXCertChain.iChain.length - 1)
    (hsuffix : current :: above <:+ iPKIXCertChain.iChain)
    (h : statesL pf verifySignatureL iPKIXCertChain init above = .ok s)
    (hfails : FailsWith k (turnL pf verifySignatureL iPKIXCertChain above.head? current s)) :
    FailsWith k (processCertsL pf verifySignatureL iPKIXCertChain init) := by
  have hloop : ∀ (above below : List CX509Certificate) {s : CPKIXValidationState},
      iPKIXCertChain.iChain = below ++ above →
      statesL pf verifySignatureL iPKIXCertChain init above = .ok s →
      FailsWith k (loopL pf verifySignatureL iPKIXCertChain below.length s) →
      FailsWith k (loopL pf verifySignatureL iPKIXCertChain iPKIXCertChain.iChain.length init) := by
    intro above
    induction above with
    | nil =>
      intro below s hchain hs hfails
      obtain rfl := Except.ok.inj hs
      rwa [hchain, append_nil]
    | cons current above ih =>
      intro below s hchain hs hfails
      obtain ⟨t, ht, hturn⟩ := Descent.descend_cons_eq_ok.mp hs
      refine ih (below ++ [current]) (by rw [hchain, List.append_assoc]; rfl) ht ?_
      rw [length_append, length_singleton, loopL_succ hchain hinit ht]
      exact .bind_right hturn hfails
  obtain ⟨below, hchain⟩ := hsuffix
  refine .bind_left _ (.bind_left _ (hloop above (below ++ [current]) ?_ h ?_))
  · rw [← hchain, List.append_assoc]
    rfl
  · rw [length_append, length_singleton, loopL_succ hchain.symm hinit h]
    exact .bind_left _ hfails

theorem error_of_failsWith {aStatus : TValidationStatus} {x : Validating Unit}
    (h : FailsWith (.setError aStatus) x) : x.error = aStatus := by
  obtain ⟨-, before, hcalls⟩ := h
  rw [error, hcalls, errorAfter_append]
  rfl

end

end CPKIXCertChainAO

end OsSecurity

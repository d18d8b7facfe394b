/-
What a chain reported as valid has passed, whatever is in it.

`DoValidateL` swallows the leave of a failed check, so the report is the only thing that its
caller can go by.  `EValidatedOK` stands there only when every turn of `ProcessCertsL` has come
back.
-/
import OsSecurity.Pkix.NamesNarrow
import OsSecurity.Pkix.PathValidation

namespace OsSecurity

open CPKIXValidationState Descent List Validating

namespace CPKIXCertChainAO

variable {pf : Platform} {verifySignatureL : CX509Certificate → Bytes → Leaving Bool}
  {iPKIXCertChain : CPKIXCertChainBase} {aValidationTime : Int}
  {aInitialPolicies : Option (List Text)}

/-- A report of success comes from `ProcessCertsL`. -/
theorem processCertsL_of_doValidateL {r r' : CPKIXValidationResultBase}
    (h : doValidateL pf verifySignatureL iPKIXCertChain r.reset aValidationTime aInitialPolicies =
      .ok r') (hok : r'.iError.iReason = .EValidatedOK) :
    iPKIXCertChain.iChainHasRoot = true ∧ (processCertsL pf verifySignatureL iPKIXCertChain
      (newL aValidationTime iPKIXCertChain.iChain.length aInitialPolicies)).error.iReason =
        .EValidatedOK := by
  unfold doValidateL at h
  by_cases hroot : iPKIXCertChain.iChainHasRoot = true
  · rw [if_neg (not_not_intro hroot)] at h
    obtain ⟨s, hs, h⟩ := bind_eq_ok.mp h
    have hsame : s = r' := by
      split at h
      · exact Except.ok.inj h
      · split at h
        · cases h
        · exact Except.ok.inj h
      · cases h
    refine ⟨hroot, ?_⟩
    rw [← hok, ← hsame, iError_of_apply hs]
    rfl
  · rw [if_pos hroot] at h
    obtain rfl := Except.ok.inj h
    cases hok

/-- What the turns of an accepted chain have asked of its certificates. -/
theorem basicChecks_of_accepted (h : (processCertsL pf verifySignatureL iPKIXCertChain
      (newL aValidationTime iPKIXCertChain.iChain.length aInitialPolicies)).error.iReason =
        .EValidatedOK) {i : Nat} {current : CX509Certificate}
    (hi : iPKIXCertChain.iChain[i]? = some current) :
    BasicChecks pf verifySignatureL iPKIXCertChain aValidationTime i
      iPKIXCertChain.iChain[i + 1]? current := by
  rw [processCertsL_error rfl, processCertsL_exit rfl] at h
  obtain ⟨s, hs, -⟩ := bind_eq_ok.mp h
  refine basicChecks_of_turns (fun current above hsuffix => ?_) hi
  obtain ⟨t, t', ht, hturn, -⟩ := descend_step hs hsuffix
  have hcounted : Counted iPKIXCertChain aValidationTime above t :=
    descend_invariant (descends_newL aInitialPolicies).counted
      (fun _ hs hturn => counted_turn hs (turnL_ok.mp hturn))
      ((suffix_cons ..).trans hsuffix) ht
  refine ownChecks_of_turn hcounted (turnL_ok.mp hturn) ?_
  have hlength := hsuffix.length_le
  rw [length_cons] at hlength
  rw [hcounted.iPos]
  omega

/-- What a report of success stands for: the chain has a root, every certificate passes the
basic checks of its place, and no name lies in a subtree that a certificate above excludes. -/
def Vouched (pf : Platform) (verifySignatureL : CX509Certificate → Bytes → Leaving Bool)
    (iPKIXCertChain : CPKIXCertChainBase) (aValidationTime : Int) : Prop :=
  iPKIXCertChain.iChainHasRoot = true ∧
    ∀ (i : Nat) current, iPKIXCertChain.iChain[i]? = some current →
      BasicChecks pf verifySignatureL iPKIXCertChain aValidationTime i
        iPKIXCertChain.iChain[i + 1]? current ∧
      ∃ names, namesL pf current = .ok names ∧ ∀ (j : Nat) issuer, i < j →
        iPKIXCertChain.iChain[j]? = some issuer → ∃ own, ownSubtreesL pf issuer = .ok own ∧
          ∀ name ∈ names, ¬ name.Lies pf own.1

/-- **Only a chain that has passed everything is reported as valid.** -/
theorem doValidateL_sound {r r' : CPKIXValidationResultBase}
    (h : doValidateL pf verifySignatureL iPKIXCertChain r.reset aValidationTime aInitialPolicies =
      .ok r') (hok : r'.iError.iReason = .EValidatedOK) :
    Vouched pf verifySignatureL iPKIXCertChain aValidationTime := by
  obtain ⟨hroot, haccepted⟩ := processCertsL_of_doValidateL h hok
  refine ⟨hroot, fun i current hi => ⟨basicChecks_of_accepted haccepted hi, ?_⟩⟩
  obtain ⟨t, names, hgathers, -, hnames, hall⟩ := names_of_accepted haccepted hi
  refine ⟨names, hnames, fun j issuer hij hj => ?_⟩
  obtain ⟨-, -, -, ⟨own, hown⟩, -, -⟩ := names_of_accepted haccepted hj
  refine ⟨own, hown, fun name hname hlies => (hall name hname).1 ?_⟩
  exact (hgathers.excluded name _).mpr ⟨issuer, mem_drop_succ.mpr ⟨j, hij, hj⟩, own, hown, hlies⟩

theorem doValidateL_sound_address : Vouched .ascii (fun _ _ => .ok true)
    ⟨[addressed [10, 0, 0, 1], addressAuthority [10, 0, 0, 0, 255, 0, 0, 0]], [], true, [], true⟩
    1 :=
  let r : CPKIXValidationResultBase := ⟨⟨.EPathTooLong, 0⟩, [], [], []⟩
  have hreport : doValidateL .ascii (fun _ _ => .ok true) _ r.reset 1 none =
      .ok ⟨⟨.EValidatedOK, 0⟩, [], [], [⟨1, [], []⟩, ⟨0, [], []⟩]⟩ := by
    rfl
  doValidateL_sound hreport rfl

end CPKIXCertChainAO

end OsSecurity

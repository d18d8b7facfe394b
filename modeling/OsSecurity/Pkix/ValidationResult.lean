/-
The result a validation is reported in: `pkixvalidationresult.cpp`.

`ProcessCertsL` and the constraints only ever write to `aResult`, so a function of theirs
is a `Validating`: the calls it makes on the result, and how it is left.  `SetErrorAndLeaveL`
is the one call that also leaves.
-/
import OsSecurity.Library.Logged
import OsSecurity.X509.Certificate

namespace OsSecurity

inductive TValidationError where
  | EValidatedOK | EChainHasNoRoot | ESignatureInvalid | EDateOutOfRange | ENameIsExcluded
  | ENameNotPermitted | ENotCACert | ECertificateRevoked | EUnrecognizedCriticalExtension
  | ENoBasicConstraintInCACert | ENoAcceptablePolicy | EPathTooLong
  | ENegativePathLengthSpecified | ENamesDontChain | ERequiredPolicyNotFound | EBadKeyUsage
  | ERootCertNotSelfSigned | ECriticalExtendedKeyUsage | ECriticalCertPoliciesWithQualifiers
  | ECriticalPolicyMapping | ECriticalDeviceId | ECriticalSid | ECriticalVid
  | ECriticalCapabilities
  deriving DecidableEq

structure TValidationStatus where
  iReason : TValidationError
  iCert : Int

structure CCertificateValidationWarnings where
  iCertIndex : Int
  iCriticalExtsFound : List Text
  iWarnings : List TValidationStatus

/-- A call on the result. -/
inductive ResultCall where
  | setError (aStatus : TValidationStatus)
  | appendWarning (aWarning : TValidationStatus)
  | appendPolicy (aPolicy : CX509CertPolicyInfo)
  | appendCertificateValidationObject (aCertIndex : Int)
  | appendCriticalExtensionWarning (aCriticalExt : Text)

structure CPKIXValidationResultBase where
  iError : TValidationStatus
  iWarnings : List TValidationStatus
  iPolicies : List CX509CertPolicyInfo
  iCertWarnings : List CCertificateValidationWarnings

namespace CPKIXValidationResultBase

/-- `iCertWarnings` is the one member that keeps what it has. -/
def reset (self : CPKIXValidationResultBase) : CPKIXValidationResultBase :=
  { self with iError := ⟨.EChainHasNoRoot, 0⟩, iWarnings := [], iPolicies := [] }

/-- The warnings that are not appended to the certificate's own. -/
def chainOnly : List TValidationError :=
  [.ECriticalExtendedKeyUsage, .ECriticalPolicyMapping, .ECriticalDeviceId, .ECriticalSid,
    .ECriticalVid, .ECriticalCapabilities]

/-- A change of the last of `iCertWarnings`, which panics when there is none. -/
def updateLast (self : CPKIXValidationResultBase)
    (f : CCertificateValidationWarnings → CCertificateValidationWarnings) :
    Leaving CPKIXValidationResultBase :=
  match self.iCertWarnings.getLast? with
  | none => panic
  | some w => .ok { self with iCertWarnings := self.iCertWarnings.dropLast ++ [f w] }

def apply (self : CPKIXValidationResultBase) : ResultCall → Leaving CPKIXValidationResultBase
  | .setError aStatus => .ok { self with iError := aStatus }
  | .appendWarning aWarning =>
    let self := { self with iWarnings := self.iWarnings ++ [aWarning] }
    if aWarning.iReason ∈ chainOnly then .ok self
    else self.updateLast fun w => { w with iWarnings := w.iWarnings ++ [aWarning] }
  | .appendPolicy aPolicy => .ok { self with iPolicies := self.iPolicies ++ [aPolicy] }
  | .appendCertificateValidationObject aCertIndex =>
    .ok { self with iCertWarnings := self.iCertWarnings ++ [⟨aCertIndex, [], []⟩] }
  | .appendCriticalExtensionWarning aCriticalExt =>
    self.updateLast fun w => { w with iCriticalExtsFound := w.iCriticalExtsFound ++ [aCriticalExt] }

end CPKIXValidationResultBase

/-- A function with a result to report in. -/
abbrev Validating (α : Type) := Logged ResultCall Exit α

namespace Validating

def setErrorAndLeaveL {α : Type} (aError : TValidationError) (aCert : Int) : Validating α :=
  .failWith (.setError ⟨aError, aCert⟩) (.leave KErrGeneral)

/-- The error a result shows after these calls. -/
def errorAfter (aStatus : TValidationStatus) (calls : List ResultCall) : TValidationStatus :=
  calls.foldl (fun aStatus k => match k with
    | .setError aStatus => aStatus
    | _ => aStatus) aStatus

/-- The error a result that was reset before shows afterwards. -/
def error {α : Type} (x : Validating α) : TValidationStatus :=
  errorAfter ⟨.EChainHasNoRoot, 0⟩ x.calls

theorem errorAfter_append (aStatus : TValidationStatus) (calls others : List ResultCall) :
    errorAfter aStatus (calls ++ others) = errorAfter (errorAfter aStatus calls) others :=
  List.foldl_append ..

/-- The error is the one from before or one that has been set. -/
theorem setError_mem (aStatus : TValidationStatus) (calls : List ResultCall) :
    errorAfter aStatus calls = aStatus ∨ .setError (errorAfter aStatus calls) ∈ calls := by
  induction calls generalizing aStatus with
  | nil => exact .inl rfl
  | cons k calls ih =>
      cases k with
      | setError aStatus' =>
        refine .inr ?_
        show ResultCall.setError (errorAfter aStatus' calls) ∈ _
        rcases ih aStatus' with heq | hmem
        · rw [heq]
          exact List.mem_cons_self ..
        · exact List.mem_cons_of_mem _ hmem
      | _ => exact (ih aStatus).imp id fun hmem => List.mem_cons_of_mem _ hmem

/-- Applying calls to a result leaves it with the error they end in. -/
theorem iError_of_apply {calls : List ResultCall} {r r' : CPKIXValidationResultBase}
    (h : calls.foldlM CPKIXValidationResultBase.apply r = .ok r') :
    r'.iError = errorAfter r.iError calls := by
  induction calls generalizing r with
  | nil =>
      obtain rfl := Except.ok.inj h
      rfl
  | cons k calls ih =>
      obtain ⟨s, hs, h⟩ := bind_eq_ok.mp h
      have hk : s.iError = errorAfter r.iError [k] := by
        cases k with
        | setError | appendPolicy | appendCertificateValidationObject =>
          obtain rfl := Except.ok.inj hs
          rfl
        | appendWarning aWarning =>
          simp only [CPKIXValidationResultBase.apply, CPKIXValidationResultBase.updateLast] at hs
          split at hs
          · obtain rfl := Except.ok.inj hs
            rfl
          · split at hs
            · exact absurd hs (panic_ne_ok _)
            · obtain rfl := Except.ok.inj hs
              rfl
        | appendCriticalExtensionWarning aCriticalExt =>
          simp only [CPKIXValidationResultBase.apply, CPKIXValidationResultBase.updateLast] at hs
          split at hs
          · exact absurd hs (panic_ne_ok _)
          · obtain rfl := Except.ok.inj hs
            rfl
      rw [ih h, hk, ← errorAfter_append]
      rfl

/-- No report of success, which is what everything but the end of `ProcessCertsL` keeps to. -/
def Silent : ResultCall → Prop
  | .setError aStatus => aStatus.iReason ≠ .EValidatedOK
  | _ => True

theorem errorAfter_of_silent {aStatus : TValidationStatus} {calls : List ResultCall}
    (h : ∀ k ∈ calls, Silent k) (hstart : aStatus.iReason ≠ .EValidatedOK) :
    (errorAfter aStatus calls).iReason ≠ .EValidatedOK := by
  induction calls generalizing aStatus with
  | nil => exact hstart
  | cons k calls ih =>
      refine ih (fun k' hk => h k' (List.mem_cons_of_mem k hk)) ?_
      cases k with
      | setError aStatus => exact h _ (List.mem_cons_self ..)
      | _ => exact hstart

end Validating

end OsSecurity

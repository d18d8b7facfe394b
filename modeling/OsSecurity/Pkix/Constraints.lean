/-
The constraints a chain is checked against: `pkixcons.cpp`, on the state of
`pkixCertState.cpp`.

The state is the source's, with its members grouped: `Policies` are those the policy
constraint reads and writes, and `SubtreeLists` is one list for each kind of name, once
for the excluded and once for the permitted subtrees.  The switches over the kind of a name
that `CheckNameConstraintsL` and `UpdateNameConstraintsL` repeat for either are one
function each here, `nameL` and `addSubtreeL`.
-/
import OsSecurity.Pkix.ValidationResult

namespace OsSecurity

def EX509RFC822Name : UInt32 := 1
def EX509DNSName : UInt32 := 2
def EX509DirectoryName : UInt32 := 4
def EX509URI : UInt32 := 6
def EX509IPAddress : UInt32 := 7

/-- The members of the state that belong to the policies. -/
structure Policies where
  iPolicyMapping : Int
  iPolicyRequired : Int
  iAnyAuthorityPolicy : Bool
  iAuthorityConstrainedPolicies : List CX509CertPolicyInfo
  iUserPolicies : List Text
  iMappedPolicies : List CX509PolicyMapping

/-- The subtrees of each kind of name; a URI's host counts as a DNS name. -/
structure SubtreeLists where
  iDNSubtrees : List CX500DistinguishedName
  iRFC822Subtrees : List CX509DomainName
  iDNSNameSubtrees : List CX509DomainName
  iIPAddressSubtrees : List Bytes

def SubtreeLists.empty : SubtreeLists := ⟨[], [], [], []⟩

structure CPKIXValidationState extends Policies where
  iValidationTime : Int
  iMaxPathLength : Int
  iPos : Int
  iUserConstrainedPolicies : Option (List Text)
  iExcluded : SubtreeLists
  iPermitted : SubtreeLists
  iCriticalExts : List CX509CertExtension

/-- `NewL`.  An empty array of initial policies is as good as none. -/
def CPKIXValidationState.newL (aValidationTime aChainLength : Int)
    (aInitialPolicies : Option (List Text)) : CPKIXValidationState :=
  let iUserConstrainedPolicies := aInitialPolicies.filter fun policies => policies ≠ []
  { iPolicyMapping := aChainLength
    iPolicyRequired := aChainLength
    iAnyAuthorityPolicy := true
    iAuthorityConstrainedPolicies := []
    iUserPolicies := iUserConstrainedPolicies.getD []
    iMappedPolicies := []
    iValidationTime := aValidationTime
    iMaxPathLength := aChainLength
    iPos := aChainLength - 1
    iUserConstrainedPolicies := iUserConstrainedPolicies
    iExcluded := .empty
    iPermitted := .empty
    iCriticalExts := [] }

/-- `aCert.Extension(..)`, and its data decoded when it is there. -/
def decodedL {α : Type} (newL : Bytes → Leaving α) (aExtensionName : Text)
    (aCert : CX509Certificate) : Leaving (Option α) :=
  match aCert.extension aExtensionName with
  | none => .ok none
  | some ext => do return some (← newL ext.iData)

namespace TPKIXConstraint

def remove (aCriticalExtensions : List CX509CertExtension) (aOID : Text) :
    List CX509CertExtension :=
  aCriticalExtensions.eraseP fun ext => ext.iId = aOID

end TPKIXConstraint

open TPKIXConstraint Validating

/-! ### Policies -/

namespace TPKIXPolicyConstraint

def policyIsPresentL (aPolicies : List CX509CertPolicyInfo) (aAcceptablePolicies : List Text) :
    Bool :=
  aPolicies.any fun certPolicy => aAcceptablePolicies.any fun chainPolicy =>
    certPolicy.iCertPolicyId = chainPolicy

/-- A policy of the first array for every policy of the second with its identifier. -/
def intersectionLC (aFirst aSecond : List CX509CertPolicyInfo) : List CX509CertPolicyInfo :=
  aFirst.flatMap fun policy1 => aSecond.flatMap fun policy2 =>
    if policy1.iCertPolicyId = policy2.iCertPolicyId then [policy1] else []

/-- The policies of the certificate a mapping leads to from an authority's policy. -/
def mappedTo (mappings : List CX509PolicyMapping) (authority policies : List CX509CertPolicyInfo) :
    List CX509CertPolicyInfo :=
  mappings.flatMap fun mapping => authority.flatMap fun aCP =>
    if aCP.iCertPolicyId = mapping.iIssuerPolicy then
      policies.filter fun cp => mapping.iSubjectPolicy = cp.iCertPolicyId
    else []

def intersectCertPoliciesL (iState : Policies) (aPolicyExt : CX509CertPoliciesExt) : Policies :=
  let newAP :=
    if iState.iAnyAuthorityPolicy then aPolicyExt.iPolicies
    else intersectionLC aPolicyExt.iPolicies iState.iAuthorityConstrainedPolicies
  { iState with
    iAnyAuthorityPolicy := false
    iAuthorityConstrainedPolicies := newAP ++
      mappedTo iState.iMappedPolicies iState.iAuthorityConstrainedPolicies aPolicyExt.iPolicies }

/-- The first half of `CheckCertPoliciesL`. -/
def requirePolicyL (iPos : Int) (iState : Policies) (policyExt : Option CX509CertPoliciesExt) :
    Validating Unit :=
  if iPos > iState.iPolicyRequired then
    match policyExt with
    | none => setErrorAndLeaveL .ERequiredPolicyNotFound iPos
    | some policyExt =>
      if iState.iUserPolicies = [] ∨
          policyIsPresentL policyExt.iPolicies iState.iUserPolicies then pure ()
      else setErrorAndLeaveL .ERequiredPolicyNotFound iPos
  else pure ()

/-- The authority's policies behind the certificate. -/
def authorityPoliciesL (iState : Policies) : Option CX509CertPoliciesExt → Policies
  | none =>
    if iState.iAnyAuthorityPolicy then iState
    else { iState with iAuthorityConstrainedPolicies := [] }
  | some policyExt => intersectCertPoliciesL iState policyExt

/-- What a critical extension is warned of: the place of the first policy with qualifiers. -/
def warnOfQualifiersL (policies : List CX509CertPolicyInfo) : Validating Unit :=
  match policies.findIdx? fun policy => policy.iQualifiers ≠ [] with
  | none => pure ()
  | some i => .call (.appendWarning ⟨.ECriticalCertPoliciesWithQualifiers, i⟩)

def checkCertPoliciesL (iState : CPKIXValidationState) (aCert : CX509Certificate) :
    Validating CPKIXValidationState := do
  let policyExt ← decodedL CX509CertPoliciesExt.newL KCertPolicies aCert
  requirePolicyL iState.iPos iState.toPolicies policyExt
  let policies := authorityPoliciesL iState.toPolicies policyExt
  if (aCert.extension KCertPolicies).any CX509CertExtension.iCritical then
    warnOfQualifiersL policies.iAuthorityConstrainedPolicies
    return { iState with
      toPolicies := policies, iCriticalExts := remove iState.iCriticalExts KCertPolicies }
  else
    return { iState with toPolicies := policies }

/-- One mapping: it is recorded, and the user's policies grow when they have its issuer's. -/
def mapPolicy (iState : Policies) (mapping : CX509PolicyMapping) : Policies :=
  { iState with
    iMappedPolicies := iState.iMappedPolicies ++ [mapping]
    iUserPolicies :=
      if mapping.iIssuerPolicy ∈ iState.iUserPolicies then
        iState.iUserPolicies ++ [mapping.iSubjectPolicy]
      else iState.iUserPolicies }

/-- The mappings of the certificate, as long as they are not inhibited. -/
def mapPoliciesL (iPos : Int) (iState : Policies) (aCert : CX509Certificate) :
    Leaving Policies :=
  if iPos ≤ iState.iPolicyMapping then do
    match ← decodedL CX509PolicyMappingExt.newL KPolicyMapping aCert with
    | none => return iState
    | some policyMappingExt => return policyMappingExt.iPolicies.foldl mapPolicy iState
  else .ok iState

def updateConstraint (aConstraint : TX509PolicyConstraint) (aCountdown : Int) : Int :=
  if aConstraint.iRequired ∧ aConstraint.iCountdown < aCountdown then aConstraint.iCountdown
  else aCountdown

/-- `iPolicyMapping --`, `iPolicyRequired --` -/
def countDownL (iState : Policies) : Leaving Policies := do
  let iPolicyMapping ← TInt.dec iState.iPolicyMapping
  let iPolicyRequired ← TInt.dec iState.iPolicyRequired
  return { iState with iPolicyMapping, iPolicyRequired }

/-- The constraints of the certificate on the two counters. -/
def constrain (iState : Policies) : Option CX509PolicyConstraintsExt → Policies
  | none => iState
  | some policyConstraintsExt =>
    { iState with
      iPolicyMapping :=
        updateConstraint policyConstraintsExt.iInhibitPolicyMapping iState.iPolicyMapping
      iPolicyRequired :=
        updateConstraint policyConstraintsExt.iRequirePolicy iState.iPolicyRequired }

def updatePolicyConstraintsL (iState : CPKIXValidationState) (aCert : CX509Certificate) :
    Leaving CPKIXValidationState := do
  let mapped ← mapPoliciesL iState.iPos iState.toPolicies aCert
  let counted ← countDownL mapped
  let constraints ← decodedL CX509PolicyConstraintsExt.newL KPolicyConstraints aCert
  let critical := (aCert.extension KPolicyConstraints).any CX509CertExtension.iCritical
  return { iState with
    toPolicies := constrain counted constraints
    iCriticalExts :=
      if critical then remove iState.iCriticalExts KPolicyConstraints else iState.iCriticalExts }

def finishPolicyCheckL (iState : CPKIXValidationState) : Validating Unit :=
  if iState.iUserConstrainedPolicies = none then pure ()
  else if ¬ iState.iAnyAuthorityPolicy ∧
      policyIsPresentL iState.iAuthorityConstrainedPolicies iState.iUserPolicies then pure ()
  else setErrorAndLeaveL .ERequiredPolicyNotFound iState.iPos

end TPKIXPolicyConstraint

/-! ### Names -/

/-- A name as the constraints know it. -/
inductive TPKIXName where
  | dN (name : CX500DistinguishedName)
  | rfc822 (name : CX509DomainName)
  | dns (name : CX509DomainName)
  | ip (name : Bytes)

/-- Whether the name lies in each of the subtrees of its kind. -/
def TPKIXName.within (pf : Platform) : TPKIXName → SubtreeLists → List (Leaving Bool)
  | .dN name, l => l.iDNSubtrees.map fun subtree => name.isWithinSubtreeL pf subtree
  | .rfc822 name, l => l.iRFC822Subtrees.map fun subtree => .ok (name.isWithinSubtree pf subtree)
  | .dns name, l => l.iDNSNameSubtrees.map fun subtree => .ok (name.isWithinSubtree pf subtree)
  | .ip name, l => l.iIPAddressSubtrees.map fun subtree =>
    .ok (CX509IPAddress.isWithinSubtree name subtree)

namespace TPKIXNameConstraint

/-- The loop of `NameIsPresentL`: it ends at the first subtree the name lies in. -/
def nameIsPresentL : List (Leaving Bool) → Leaving Bool
  | [] => .ok false
  | isWithin :: others => do
    if ← isWithin then .ok true else nameIsPresentL others

/-- One name against the subtrees gathered so far. -/
def checkNameL (pf : Platform) (iPos : Int) (iExcluded iPermitted : SubtreeLists)
    (aName : TPKIXName) : Validating Unit := do
  if ← nameIsPresentL (aName.within pf iExcluded) then
    setErrorAndLeaveL .ENameIsExcluded iPos
  else if aName.within pf iPermitted = [] then
    pure ()
  else if ← nameIsPresentL (aName.within pf iPermitted) then
    pure ()
  else
    setErrorAndLeaveL .ENameNotPermitted iPos

/-- An alternative name, when it is of a kind that can be constrained. -/
def nameL (pf : Platform) (gN : CX509GeneralName) : Leaving (Option TPKIXName) :=
  if gN.iTag = EX509DirectoryName then do
    return some (.dN (← CX500DistinguishedName.newL gN.iData))
  else if gN.iTag = EX509RFC822Name then do
    return some (.rfc822 (← CX509RFC822Name.newL pf gN.iData))
  else if gN.iTag = EX509URI then do
    return some (.dns (← CX509IPBasedURI.hostL pf gN.iData))
  else if gN.iTag = EX509DNSName then do
    return some (.dns (← CX509DNSName.newL pf gN.iData))
  else if gN.iTag = EX509IPAddress then do
    return some (.ip (← CX509IPAddress.newL gN.iData))
  else .ok none

/-- The loop over the alternative names. -/
def checkAltNamesL (pf : Platform) (iPos : Int) (iExcluded iPermitted : SubtreeLists) :
    List CX509GeneralName → Validating Unit
  | [] => pure ()
  | gN :: others => do
    match ← nameL pf gN with
    | none => checkAltNamesL pf iPos iExcluded iPermitted others
    | some name => do
      checkNameL pf iPos iExcluded iPermitted name
      checkAltNamesL pf iPos iExcluded iPermitted others

def checkNameConstraintsL (pf : Platform) (iState : CPKIXValidationState)
    (aCert : CX509Certificate) : Validating CPKIXValidationState := do
  checkNameL pf iState.iPos iState.iExcluded iState.iPermitted (.dN aCert.iSubjectName)
  match ← decodedL CX509AltNameExt.newL KSubjectAltName aCert with
  | none => return iState
  | some altNameExt => do
    checkAltNamesL pf iState.iPos iState.iExcluded iState.iPermitted altNameExt.iAuthorityName
    return { iState with iCriticalExts := remove iState.iCriticalExts KSubjectAltName }

/-- A subtree appended to the list for its kind. -/
def addSubtreeL (pf : Platform) (aSubtrees : SubtreeLists) (subtree : CX509GeneralSubtree) :
    Leaving SubtreeLists :=
  let gN := subtree.iName
  if gN.iTag = EX509DirectoryName then do
    let name ← CX500DistinguishedName.newL gN.iData
    return { aSubtrees with iDNSubtrees := aSubtrees.iDNSubtrees ++ [name] }
  else if gN.iTag = EX509RFC822Name then do
    let name ← CX509RFC822Name.newL pf gN.iData
    return { aSubtrees with iRFC822Subtrees := aSubtrees.iRFC822Subtrees ++ [name] }
  else if gN.iTag = EX509URI then do
    let domain ← CX509IPBasedURI.hostL pf gN.iData
    return { aSubtrees with iDNSNameSubtrees := aSubtrees.iDNSNameSubtrees ++ [domain] }
  else if gN.iTag = EX509DNSName then do
    let name ← CX509DNSName.newL pf gN.iData
    return { aSubtrees with iDNSNameSubtrees := aSubtrees.iDNSNameSubtrees ++ [name] }
  else if gN.iTag = EX509IPAddress then do
    let name ← CX509IPSubnetMask.newL gN.iData
    return { aSubtrees with iIPAddressSubtrees := aSubtrees.iIPAddressSubtrees ++ [name] }
  else leave KErrNotSupported

/-- The subtrees of the certificate join those gathered above it. -/
def updateNameConstraintsL (pf : Platform) (iState : CPKIXValidationState)
    (aCert : CX509Certificate) : Leaving CPKIXValidationState := do
  match ← decodedL CX509NameConstraintsExt.newL KNameConstraints aCert with
  | none => return iState
  | some nameCons => do
    let iExcluded ← nameCons.iExcludedSubtrees.foldlM (addSubtreeL pf) iState.iExcluded
    let iPermitted ← nameCons.iPermittedSubtrees.foldlM (addSubtreeL pf) iState.iPermitted
    return { iState with
      iExcluded, iPermitted
      iCriticalExts := remove iState.iCriticalExts KNameConstraints }

end TPKIXNameConstraint

/-! ### Basic constraints and key usage -/

namespace TPKIXBasicConstraint

def checkCertSubjectTypeL (iState : CPKIXValidationState) (aCert : CX509Certificate) :
    Validating Unit := do
  let basic ← decodedL CX509BasicConstraintsExt.newL KBasicConstraints aCert
  let markedAsCA := basic.any CX509BasicConstraintsExt.iIsCA
  if iState.iPos > 0 ∧ ¬ markedAsCA then setErrorAndLeaveL .ENotCACert iState.iPos else pure ()

def updatePathLengthConstraintsL (iState : CPKIXValidationState) (aCert : CX509Certificate) :
    Validating CPKIXValidationState := do
  match ← decodedL CX509BasicConstraintsExt.newL KBasicConstraints aCert with
  | none => return iState
  | some basic =>
    let pathLength := basic.iMaxChainLen
    if pathLength < 0 then
      setErrorAndLeaveL .ENegativePathLengthSpecified iState.iPos
    else
      return { iState with
        iMaxPathLength :=
          if iState.iPos > pathLength then pathLength + 1 else iState.iMaxPathLength
        iCriticalExts := remove iState.iCriticalExts KBasicConstraints }

end TPKIXBasicConstraint

namespace TPKIXKeyUsageConstraint

def checkKeyUsageL (iState : CPKIXValidationState) (aCert : CX509Certificate) :
    Validating CPKIXValidationState := do
  match ← decodedL CX509KeyUsageExt.newL KKeyUsage aCert with
  | none => return iState
  | some keyUsage =>
    if iState.iPos > 0 ∧ ¬ keyUsage.isSet .EX509KeyCertSign then
      setErrorAndLeaveL .EBadKeyUsage iState.iPos
    else
      return { iState with iCriticalExts := remove iState.iCriticalExts KKeyUsage }

end TPKIXKeyUsageConstraint

end OsSecurity

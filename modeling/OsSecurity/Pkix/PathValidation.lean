/-
What path validation comes to for a chain without policies and name constraints.

Then a turn asks the same of every certificate wherever it stands, but for one thing: the
path length.  A certificate may overwrite the count with its own limit, and the count is
looked at one turn later, so `Descends` says of the count behind a certificate what that
next look at it will find.

The checks are not all there is to it: the extensions have to be decoded before they can
be looked at, and a turn leaves when they cannot be.
-/
import OsSecurity.Pkix.Reports

namespace OsSecurity

open CX509BasicConstraintsExt Descent List

namespace CPKIXCertChainAO

open TPKIXPolicyConstraint TPKIXNameConstraint

/-- A certificate with no policy extension and no name constraints. -/
def Plain (aCert : CX509Certificate) : Prop :=
  aCert.extension KCertPolicies = none ∧ aCert.extension KPolicyMapping = none ∧
    aCert.extension KPolicyConstraints = none ∧ aCert.extension KNameConstraints = none

instance (aCert : CX509Certificate) : Decidable (Plain aCert) :=
  inferInstanceAs (Decidable (_ ∧ _ ∧ _ ∧ _))

/-- `CheckSignatureAndNameL` has no complaint: the names chain and the signature verifies,
and a root that is its own issuer verifies under its own key. -/
def Signed (pf : Platform) (verifySignatureL : CX509Certificate → Bytes → Leaving Bool)
    (issuer : Option CX509Certificate) (current : CX509Certificate) : Prop :=
  match issuer with
  | none => current.iIssuerName.exactMatchL pf current.iSubjectName = .ok true →
    verifySignatureL current current.iSubjectPublicKeyInfo.iEncodedKeyData = .ok true
  | some issuer => current.iIssuerName.exactMatchL pf issuer.iSubjectName = .ok true ∧
    verifySignatureL current issuer.iSubjectPublicKeyInfo.iEncodedKeyData = .ok true

/-- The basic checks that the turn of the certificate at position `i` makes itself. -/
structure OwnChecks (pf : Platform) (verifySignatureL : CX509Certificate → Bytes → Leaving Bool)
    (iPKIXCertChain : CPKIXCertChainBase) (aValidationTime : Int) (i : Nat)
    (issuer : Option CX509Certificate) (current : CX509Certificate) : Prop where
  signed : Signed pf verifySignatureL issuer current
  critical : ∀ ext ∈ current.iExtensions, ext.iCritical = true →
    ext.iId ∈ iPKIXCertChain.iSupportedCriticalExts
  validity : iPKIXCertChain.iDateTimeCheckFatal = true →
    current.iValidityPeriod.valid aValidationTime = true
  /-- Strictly between the leaf and the root. -/
  subjectType : 0 < i → issuer ≠ none → ∃ basic,
    decodedL CX509BasicConstraintsExt.newL KBasicConstraints current = .ok (some basic) ∧
      basic.iIsCA = true
  keyUsage : 0 < i → ∀ keyUsage,
    decodedL CX509KeyUsageExt.newL KKeyUsage current = .ok (some keyUsage) →
      keyUsage.isSet .EX509KeyCertSign = true
  nonnegative : ∀ basic,
    decodedL CX509BasicConstraintsExt.newL KBasicConstraints current = .ok (some basic) →
      0 ≤ basic.iMaxChainLen

/-- The path length of a certificate, which decodes as `KMaxTInt` when it gives none, lets
a certificate at position `i` pass. -/
def LimitAllows (i : Int) (aCert : CX509Certificate) : Prop :=
  ∀ basic, decodedL CX509BasicConstraintsExt.newL KBasicConstraints aCert = .ok (some basic) →
    i ≤ basic.iMaxChainLen

/-- The basic checks of the certificate at position `i`, with the one above it. -/
structure BasicChecks (pf : Platform) (verifySignatureL : CX509Certificate → Bytes → Leaving Bool)
    (iPKIXCertChain : CPKIXCertChainBase) (aValidationTime : Int) (i : Nat)
    (issuer : Option CX509Certificate) (current : CX509Certificate) : Prop extends
    OwnChecks pf verifySignatureL iPKIXCertChain aValidationTime i issuer current where
  pathLength : 1 ≤ i → LimitAllows (i - 1) current

/-- What the checks look at can be decoded, and at the root the comparison of its own two
names comes out. -/
structure Decodes (pf : Platform) (issuer : Option CX509Certificate) (current : CX509Certificate) :
    Prop where
  root : issuer = none → ∃ b, current.iIssuerName.exactMatchL pf current.iSubjectName = .ok b
  basicConstraints : ∃ basic,
    decodedL CX509BasicConstraintsExt.newL KBasicConstraints current = .ok basic
  keyUsage : ∃ keyUsage, decodedL CX509KeyUsageExt.newL KKeyUsage current = .ok keyUsage
  altNames : ∃ altNameExt, decodedL CX509AltNameExt.newL KSubjectAltName current = .ok altNameExt ∧
    ∀ ext ∈ altNameExt, ∀ gN ∈ ext.iAuthorityName, ∃ name, nameL pf gN = .ok name

section

variable {pf : Platform} {verifySignatureL : CX509Certificate → Bytes → Leaving Bool}
  {iPKIXCertChain : CPKIXCertChainBase} {issuer : Option CX509Certificate}
  {current : CX509Certificate} {iPos : Int}

/-! ### The parts of the turn -/

theorem checkSignatureAndNameL_ok :
    (checkSignatureAndNameL pf verifySignatureL issuer current iPos).exit = .ok () ↔
      Signed pf verifySignatureL issuer current ∧
        (issuer = none → ∃ b, current.iIssuerName.exactMatchL pf current.iSubjectName = .ok b) := by
  have hsignature : ∀ key, (checkSignatureL verifySignatureL current key iPos).exit = .ok () ↔
      verifySignatureL current key = .ok true := by
    intro key
    unfold checkSignatureL
    cases verifySignatureL current key with
    | error e => simp
    | ok b => cases b <;> simp [Validating.setErrorAndLeaveL]
  cases issuer with
  | none =>
      unfold checkSignatureAndNameL Signed
      cases hmatch : current.iIssuerName.exactMatchL pf current.iSubjectName with
      | error e => simp
      | ok b =>
        cases b with
        | false => simp
        | true => simpa using hsignature _
  | some issuer =>
      unfold checkSignatureAndNameL Signed
      cases hmatch : current.iIssuerName.exactMatchL pf issuer.iSubjectName with
      | error e => simp [hmatch]
      | ok b =>
        cases b with
        | false => simp [hmatch, Validating.setErrorAndLeaveL]
        | true => simpa [hmatch] using hsignature _

/-- With no subtrees above, a name only has to be decoded. -/
theorem checkNamesL_empty :
    checkNamesL pf iPos current .empty .empty = .ok () ↔
      ∃ altNameExt, decodedL CX509AltNameExt.newL KSubjectAltName current = .ok altNameExt ∧
        ∀ ext ∈ altNameExt, ∀ gN ∈ ext.iAuthorityName, ∃ name, nameL pf gN = .ok name := by
  have hname : ∀ name, (checkNameL pf iPos .empty .empty name).exit = .ok () := by
    intro name
    cases name <;> rfl
  have hnames : ∀ names, (checkAltNamesL pf iPos .empty .empty names).exit = .ok () ↔
      ∀ gN ∈ names, ∃ name, nameL pf gN = .ok name := by
    intro names
    induction names with
    | nil => simp [checkAltNamesL]
    | cons gN others ih =>
      rw [forall_mem_cons, ← ih]
      cases hgN : nameL pf gN with
      | error e => simp [checkAltNamesL, hgN]
      | ok name => cases name <;> simp [checkAltNamesL, hgN, hname]
  unfold checkNamesL
  rw [hname, ok_bind]
  cases decodedL CX509AltNameExt.newL KSubjectAltName current with
  | error e => simp
  | ok altNameExt =>
      cases altNameExt with
      | none => simp
      | some ext => simpa using hnames ext.iAuthorityName

theorem keyUsageL_ok :
    keyUsageL iPos current = .ok () ↔
      ∃ keyUsage, decodedL CX509KeyUsageExt.newL KKeyUsage current = .ok keyUsage ∧
        (0 < iPos → ∀ ext ∈ keyUsage, ext.isSet .EX509KeyCertSign = true) := by
  unfold keyUsageL
  cases decodedL CX509KeyUsageExt.newL KKeyUsage current with
  | error e => simp
  | ok keyUsage =>
      cases keyUsage with
      | none => simp
      | some ext =>
        by_cases hpos : 0 < iPos
        · cases hset : ext.isSet .EX509KeyCertSign <;> simp [hpos, hset]
        · simp [hpos]

theorem checkCertSubjectTypeL_ok {s : CPKIXValidationState} :
    (TPKIXBasicConstraint.checkCertSubjectTypeL s current).exit = .ok () ↔
      ∃ basic, decodedL newL KBasicConstraints current = .ok basic ∧
        (0 < s.iPos → ∃ ext, basic = some ext ∧ ext.iIsCA = true) := by
  unfold TPKIXBasicConstraint.checkCertSubjectTypeL
  cases decodedL newL KBasicConstraints current with
  | error e => simp
  | ok basic =>
      by_cases hpos : 0 < s.iPos
      · cases basic with
        | none => simp [hpos, Validating.setErrorAndLeaveL]
        | some ext => cases hca : ext.iIsCA <;> simp [hpos, hca, Validating.setErrorAndLeaveL]
      · simp [hpos]

theorem maxPathLengthL_ok {iMaxPathLength iMaxPathLength' : Int} :
    maxPathLengthL iPos current iMaxPathLength = .ok iMaxPathLength' ↔
      ∃ basic, decodedL newL KBasicConstraints current = .ok basic ∧
        (∀ ext ∈ basic, 0 ≤ ext.iMaxChainLen) ∧
        iMaxPathLength' = basic.elim iMaxPathLength fun ext =>
          if iPos > ext.iMaxChainLen then ext.iMaxChainLen + 1 else iMaxPathLength := by
  unfold maxPathLengthL
  cases decodedL newL KBasicConstraints current with
  | error e => simp
  | ok basic =>
      cases basic with
      | none => simp [eq_comm]
      | some ext =>
        by_cases hneg : ext.iMaxChainLen < 0
        · simp [hneg, Int.not_le.mpr hneg]
        · simp [hneg, Int.not_lt.mp hneg, eq_comm]

/-! ### The descent -/

/-- The state behind the certificates `above`. -/
structure Descends (iPKIXCertChain : CPKIXCertChainBase) (aValidationTime : Int)
    (above : List CX509Certificate) (s : CPKIXValidationState) : Prop where
  iPos : s.iPos = iPKIXCertChain.iChain.length - 1 - above.length
  iCriticalExts : s.iCriticalExts = []
  iValidationTime : s.iValidationTime = aValidationTime
  iExcluded : s.iExcluded = .empty
  iPermitted : s.iPermitted = .empty
  iPolicyRequired : s.iPolicyRequired = s.iPos + 1
  iPolicyMapping : s.iPolicyMapping = s.iPos + 1
  /-- What the next look at the count finds. -/
  pathLength : s.iPos < s.iMaxPathLength ↔ ∀ head ∈ above.head?, LimitAllows s.iPos head

/-- What the state counts, whatever the certificates above have in them. -/
structure Counted (iPKIXCertChain : CPKIXCertChainBase) (aValidationTime : Int)
    (above : List CX509Certificate) (s : CPKIXValidationState) : Prop where
  iPos : s.iPos = iPKIXCertChain.iChain.length - 1 - above.length
  iValidationTime : s.iValidationTime = aValidationTime
  pathLength : s.iPos < s.iMaxPathLength ↔ ∀ head ∈ above.head?, LimitAllows s.iPos head

theorem policiesL_plain {p : Policies} (hplain : Plain current) (hpos : 0 ≤ iPos)
    (hrequired : p.iPolicyRequired = iPos + 1) (hmapping : p.iPolicyMapping = iPos + 1) :
    ∃ p', policiesL iPos current p = .ok p' ∧ p'.iPolicyRequired = iPos ∧
      p'.iPolicyMapping = iPos := by
  obtain ⟨hpolicies, hmappings, hconstraints, -⟩ := hplain
  have hauthority : (authorityPoliciesL p none).iPolicyRequired = iPos + 1 ∧
      (authorityPoliciesL p none).iPolicyMapping = iPos + 1 := by
    by_cases hany : p.iAnyAuthorityPolicy = true
    · rw [authorityPoliciesL, if_pos hany]
      exact ⟨hrequired, hmapping⟩
    · rw [authorityPoliciesL, if_neg hany]
      exact ⟨hrequired, hmapping⟩
  refine ⟨{ authorityPoliciesL p none with iPolicyMapping := iPos, iPolicyRequired := iPos },
    ?_, rfl, rfl⟩
  have hdec : TInt.dec (iPos + 1) = .ok iPos :=
    TInt.dec_ok.mpr ⟨by unfold KMinTInt; omega, by omega⟩
  have hrequire : ¬ iPos > p.iPolicyRequired := by omega
  simp [policiesL, decodedL, hpolicies, hmappings, hconstraints, requirePolicyL, hrequire,
    mapPoliciesL, hauthority, countDownL, hdec, constrain]

variable {above : List CX509Certificate} {aValidationTime : Int} {s s' : CPKIXValidationState}

theorem Descends.counted (h : Descends iPKIXCertChain aValidationTime above s) :
    Counted iPKIXCertChain aValidationTime above s :=
  ⟨h.iPos, h.iValidationTime, h.pathLength⟩

section

variable (h : Counted iPKIXCertChain aValidationTime above s)
  (hturn : Turn pf verifySignatureL iPKIXCertChain above.head? current s s')
include h hturn

theorem counted_turn : Counted iPKIXCertChain aValidationTime (current :: above) s' := by
  refine ⟨?_, hturn.iValidationTime.trans h.iValidationTime, ?_⟩
  · rw [hturn.iPos, h.iPos, length_cons]
    omega
  · obtain ⟨basic, hbasic, -, hmax⟩ := maxPathLengthL_ok.mp hturn.maxPathLength
    have hlong := hturn.pathLength
    have hlimit : (∀ head ∈ (current :: above).head?, LimitAllows s'.iPos head) ↔
        ∀ ext ∈ basic, s'.iPos ≤ ext.iMaxChainLen := by
      simp [LimitAllows, hbasic]
    rw [hlimit, hturn.iPos, hmax]
    cases basic with
    | none => simp only [Option.elim]; simp; omega
    | some ext =>
      simp only [Option.elim, Option.mem_def, Option.some.injEq, forall_eq']
      split <;> omega

/-- What a turn that returns has asked of its certificate. -/
theorem ownChecks_of_turn {i : Nat} (hi : s.iPos = i) :
    (∀ head ∈ above.head?, LimitAllows i head) ∧
      OwnChecks pf verifySignatureL iPKIXCertChain aValidationTime i above.head? current := by
  obtain ⟨keyUsage, hkeyUsage, hsign⟩ := keyUsageL_ok.mp hturn.keyUsage
  obtain ⟨basic, hbasic, hnonneg, -⟩ := maxPathLengthL_ok.mp hturn.maxPathLength
  rw [← hi]
  refine ⟨h.pathLength.mp hturn.pathLength,
    ⟨(checkSignatureAndNameL_ok.mp hturn.signature).1, ?_, ?_, ?_, ?_, ?_⟩⟩
  · intro ext hext hcritical
    exact hturn.critical ext (mem_append_right _ (mem_filter.mpr ⟨hext, hcritical⟩))
  · intro hfatal
    rw [← h.iValidationTime]
    exact hturn.validity hfatal
  · intro hpos hissuer
    have hbelow : s.iPos < iPKIXCertChain.iChain.length - 1 := by
      rw [ne_eq, head?_eq_none_iff, ← length_eq_zero_iff] at hissuer
      have := h.iPos
      omega
    obtain ⟨basic', hbasic', htype⟩ := checkCertSubjectTypeL_ok.mp (hturn.subjectType hbelow)
    obtain ⟨ext, rfl, hca⟩ := htype (by omega)
    exact ⟨ext, hbasic', hca⟩
  · intro hpos ext hext
    obtain rfl := Except.ok.inj (hkeyUsage.symm.trans hext)
    exact hsign (by omega) ext rfl
  · intro ext hext
    obtain rfl := Except.ok.inj (hbasic.symm.trans hext)
    exact hnonneg ext rfl

end

theorem descends_turn (hplain : Plain current) (hsuffix : current :: above <:+ iPKIXCertChain.iChain)
    (h : Descends iPKIXCertChain aValidationTime above s)
    (hturn : Turn pf verifySignatureL iPKIXCertChain above.head? current s s') :
    Descends iPKIXCertChain aValidationTime (current :: above) s' := by
  have hlength := hsuffix.length_le
  rw [length_cons] at hlength
  have hpos : 0 ≤ s.iPos := by
    have := h.iPos
    omega
  have hsubtrees : (s'.iExcluded, s'.iPermitted) = (SubtreeLists.empty, SubtreeLists.empty) := by
    have hkept := hturn.subtrees
    simp only [subtreesL, decodedL, hplain.2.2.2, ok_bind, h.iExcluded, h.iPermitted] at hkept
    exact (Except.ok.inj hkept).symm
  obtain ⟨p, hp, hrequired, hmapping⟩ :=
    policiesL_plain hplain hpos h.iPolicyRequired h.iPolicyMapping
  obtain rfl : p = s'.toPolicies := Except.ok.inj (hp.symm.trans hturn.policies)
  have hcounted := counted_turn h.counted hturn
  refine ⟨hcounted.iPos, hturn.iCriticalExts, hcounted.iValidationTime,
    congrArg Prod.fst hsubtrees, congrArg Prod.snd hsubtrees, ?_, ?_, hcounted.pathLength⟩
  · rw [hrequired, hturn.iPos]
    omega
  · rw [hmapping, hturn.iPos]
    omega

/-- **What a turn asks of a certificate.** -/
theorem exists_turn_iff (hplain : Plain current)
    (h : Descends iPKIXCertChain aValidationTime above s) {i : Nat} (hi : s.iPos = i) :
    (∃ s', Turn pf verifySignatureL iPKIXCertChain above.head? current s s') ↔
      (∀ head ∈ above.head?, LimitAllows i head) ∧
        OwnChecks pf verifySignatureL iPKIXCertChain aValidationTime i above.head? current ∧
          Decodes pf above.head? current := by
  have hroot : s.iPos < iPKIXCertChain.iChain.length - 1 ↔ above.head? ≠ none := by
    rw [h.iPos, ne_eq, head?_eq_none_iff, ← length_eq_zero_iff]
    omega
  refine ⟨fun hex => ?_, fun hchecks => ?_⟩
  · obtain ⟨s', hturn⟩ := hex
    obtain ⟨keyUsage, hkeyUsage, -⟩ := keyUsageL_ok.mp hturn.keyUsage
    obtain ⟨basic, hbasic, -⟩ := maxPathLengthL_ok.mp hturn.maxPathLength
    have haltNames := hturn.names
    rw [h.iExcluded, h.iPermitted] at haltNames
    obtain ⟨hlimit, hown⟩ := ownChecks_of_turn h.counted hturn hi
    exact ⟨hlimit, hown, (checkSignatureAndNameL_ok.mp hturn.signature).2, ⟨basic, hbasic⟩,
      ⟨keyUsage, hkeyUsage⟩, checkNamesL_empty.mp haltNames⟩
  · rw [← hi] at hchecks
    obtain ⟨hlimit, hown, hdecodes⟩ := hchecks
    obtain ⟨basic, hbasic⟩ := hdecodes.basicConstraints
    obtain ⟨keyUsage, hkeyUsage⟩ := hdecodes.keyUsage
    obtain ⟨p, hp, -, -⟩ :=
      policiesL_plain hplain (by omega) h.iPolicyRequired h.iPolicyMapping
    have hsubtrees : subtreesL pf current s.iExcluded s.iPermitted =
        .ok (s.iExcluded, s.iPermitted) := by
      simp only [subtreesL, decodedL, hplain.2.2.2, ok_bind]
      rfl
    refine exists_turn (h.pathLength.mpr hlimit) ?_
      (checkSignatureAndNameL_ok.mpr ⟨hown.signed, hdecodes.root⟩) ?_ hp ?_ hsubtrees
      (keyUsageL_ok.mpr ⟨keyUsage, hkeyUsage, ?_⟩) ?_
      (maxPathLengthL_ok.mpr ⟨basic, hbasic, ?_, rfl⟩)
    · intro ext hext
      rw [h.iCriticalExts, nil_append] at hext
      obtain ⟨hext, hcritical⟩ := mem_filter.mp hext
      exact hown.critical ext hext hcritical
    · rw [h.iValidationTime]
      exact hown.validity
    · rw [h.iExcluded, h.iPermitted]
      exact checkNamesL_empty.mpr hdecodes.altNames
    · intro hpos ext hext
      obtain rfl := Option.mem_def.mp hext
      exact hown.keyUsage (by omega) ext hkeyUsage
    · intro hissuer
      refine checkCertSubjectTypeL_ok.mpr ⟨basic, hbasic, fun hpos => ?_⟩
      obtain ⟨ext, hext, hca⟩ := hown.subjectType (by omega) (hroot.mp hissuer)
      exact ⟨ext, Except.ok.inj (hbasic.symm.trans hext), hca⟩
    · intro ext hext
      obtain rfl := Option.mem_def.mp hext
      exact hown.nonnegative ext hbasic

/-- The state `DoValidateL` starts from meets the invariant. -/
theorem descends_newL (aInitialPolicies : Option (List Text)) :
    Descends iPKIXCertChain aValidationTime []
      (.newL aValidationTime iPKIXCertChain.iChain.length aInitialPolicies) where
  iPos := by simp [CPKIXValidationState.newL]
  iCriticalExts := rfl
  iValidationTime := rfl
  iExcluded := rfl
  iPermitted := rfl
  iPolicyRequired := by simp [CPKIXValidationState.newL]
  iPolicyMapping := by simp [CPKIXValidationState.newL]
  pathLength := by simp [CPKIXValidationState.newL]

/-- What the turn of a certificate asks of it, from the certificates above. -/
def TurnChecks (pf : Platform) (verifySignatureL : CX509Certificate → Bytes → Leaving Bool)
    (iPKIXCertChain : CPKIXCertChainBase) (aValidationTime : Int)
    (above : List CX509Certificate) (current : CX509Certificate) : Prop :=
  let i := iPKIXCertChain.iChain.length - 1 - above.length
  (∀ head ∈ above.head?, LimitAllows i head) ∧
    OwnChecks pf verifySignatureL iPKIXCertChain aValidationTime i above.head? current ∧
      Decodes pf above.head? current

theorem exists_statesL_iff (pf : Platform)
    (verifySignatureL : CX509Certificate → Bytes → Leaving Bool) (aValidationTime : Int)
    (aInitialPolicies : Option (List Text))
    (hplain : ∀ aCert ∈ iPKIXCertChain.iChain, Plain aCert) :
    (∃ s, statesL pf verifySignatureL iPKIXCertChain
        (.newL aValidationTime iPKIXCertChain.iChain.length aInitialPolicies)
        iPKIXCertChain.iChain = .ok s) ↔
      ∀ current above, current :: above <:+ iPKIXCertChain.iChain →
        TurnChecks pf verifySignatureL iPKIXCertChain aValidationTime above current := by
  refine descend_ok_iff (P := Descends iPKIXCertChain aValidationTime)
    (descends_newL aInitialPolicies) ?_ ?_
  · intro above current s s' hsuffix hs hturn
    exact descends_turn (hplain _ (hsuffix.subset (mem_cons_self ..))) hsuffix hs
      (turnL_ok.mp hturn)
  · intro above current s hsuffix hs
    simp only [turnL_ok]
    refine exists_turn_iff (hplain _ (hsuffix.subset (mem_cons_self ..))) hs ?_
    have hlength := hsuffix.length_le
    rw [length_cons] at hlength
    rw [hs.iPos]
    omega

/-- How far from the leaf the certificate at a position stands. -/
theorem length_sub_drop {i : Nat} (hi : iPKIXCertChain.iChain[i]? = some current) :
    iPKIXCertChain.iChain.length - 1 - (iPKIXCertChain.iChain.drop (i + 1)).length = i := by
  have hlt := (List.getElem?_eq_some_iff.mp hi).1
  rw [length_drop]
  omega

/-- From the certificates above to the positions in the chain, where the path length moves
from the certificate it lets pass to the one that gives it. -/
theorem basicChecks_of_turns (h : ∀ current above, current :: above <:+ iPKIXCertChain.iChain →
      let i := iPKIXCertChain.iChain.length - 1 - above.length
      (∀ head ∈ above.head?, LimitAllows i head) ∧
        OwnChecks pf verifySignatureL iPKIXCertChain aValidationTime i above.head? current)
    {i : Nat} (hi : iPKIXCertChain.iChain[i]? = some current) :
    BasicChecks pf verifySignatureL iPKIXCertChain aValidationTime i
      iPKIXCertChain.iChain[i + 1]? current := by
  have hown := (h current _ (cons_suffix_iff.mpr ⟨i, hi, rfl⟩)).2
  simp only [length_sub_drop hi, head?_drop] at hown
  refine ⟨hown, fun hpos => ?_⟩
  obtain ⟨j, rfl⟩ := Nat.exists_eq_add_of_le' hpos
  -- the turn of the certificate below looks at this one's path length
  have hlt := (List.getElem?_eq_some_iff.mp hi).1
  have hj := getElem?_eq_getElem (Nat.lt_of_succ_lt hlt)
  have hbelow := (h _ _ (cons_suffix_iff.mpr ⟨j, hj, rfl⟩)).1
  simp only [length_sub_drop hj, head?_drop] at hbelow
  have hallows := hbelow current hi
  rwa [Int.natCast_succ, Int.add_sub_cancel]

theorem turnChecks_iff_basicChecks :
    (∀ current above, current :: above <:+ iPKIXCertChain.iChain →
      TurnChecks pf verifySignatureL iPKIXCertChain aValidationTime above current) ↔
      ∀ (i : Nat) current, iPKIXCertChain.iChain[i]? = some current →
        BasicChecks pf verifySignatureL iPKIXCertChain aValidationTime i
          iPKIXCertChain.iChain[i + 1]? current ∧
        Decodes pf iPKIXCertChain.iChain[i + 1]? current := by
  refine ⟨fun h i current hi => ⟨basicChecks_of_turns
    (fun current above hsuffix => ⟨(h current above hsuffix).1, (h current above hsuffix).2.1⟩) hi,
    ?_⟩, fun h current above hsuffix => ?_⟩
  · have hdecodes := (h current _ (cons_suffix_iff.mpr ⟨i, hi, rfl⟩)).2.2
    rwa [head?_drop] at hdecodes
  · obtain ⟨i, hi, rfl⟩ := cons_suffix_iff.mp hsuffix
    obtain ⟨hbasic, hdecodes⟩ := h i current hi
    simp only [TurnChecks, length_sub_drop hi, head?_drop]
    refine ⟨fun head hhead => ?_, hbasic.toOwnChecks, hdecodes⟩
    have hallows := (h (i + 1) head hhead).1.pathLength (Nat.le_add_left ..)
    rwa [Int.natCast_succ, Int.add_sub_cancel] at hallows

/-- **Path validation without policies and name constraints succeeds exactly when every
certificate passes the basic checks and what they look at can be decoded.** -/
theorem processCertsL_ok_iff {aInitialPolicies : Option (List Text)}
    (hpolicies : aInitialPolicies.getD [] = [])
    (hplain : ∀ aCert ∈ iPKIXCertChain.iChain, Plain aCert) :
    (processCertsL pf verifySignatureL iPKIXCertChain
        (.newL aValidationTime iPKIXCertChain.iChain.length aInitialPolicies)).error.iReason =
          .EValidatedOK ↔
      ∀ (i : Nat) current, iPKIXCertChain.iChain[i]? = some current →
        BasicChecks pf verifySignatureL iPKIXCertChain aValidationTime i
          iPKIXCertChain.iChain[i + 1]? current ∧
        Decodes pf iPKIXCertChain.iChain[i + 1]? current := by
  have huser : aInitialPolicies.filter (fun policies => policies ≠ []) = none := by
    cases aInitialPolicies with
    | none => rfl
    | some policies =>
      obtain rfl : policies = [] := hpolicies
      rfl
  have hfinish : ∀ s : CPKIXValidationState, s.iUserConstrainedPolicies = none →
      (finishPolicyCheckL s).exit = .ok () := by
    intro s hs
    rw [finishPolicyCheckL, if_pos hs]
    rfl
  rw [processCertsL_error rfl, processCertsL_exit rfl, bind_eq_ok,
    ← turnChecks_iff_basicChecks,
    ← exists_statesL_iff pf verifySignatureL aValidationTime aInitialPolicies hplain]
  refine ⟨fun h => ?_, fun h => ?_⟩
  · obtain ⟨s, hs, -⟩ := h
    exact ⟨s, hs⟩
  · obtain ⟨s, hs⟩ := h
    exact ⟨s, hs, hfinish s ((statesL_keeps hs).2.trans huser)⟩

end

/-- The theorem at a chain of one certificate without extensions. -/
theorem processCertsL_ok_iff_one :
    let iPKIXCertChain : CPKIXCertChainBase := ⟨[.bare []], [], true, [], true⟩
    let init := CPKIXValidationState.newL 1 1 none
    (processCertsL .ascii (fun _ _ => .ok true) iPKIXCertChain init).error.iReason =
        .EValidatedOK ↔
      ∀ (i : Nat) current, iPKIXCertChain.iChain[i]? = some current →
        BasicChecks .ascii (fun _ _ => .ok true) iPKIXCertChain 1 i iPKIXCertChain.iChain[i + 1]?
          current ∧
        Decodes .ascii iPKIXCertChain.iChain[i + 1]? current :=
  processCertsL_ok_iff rfl (by decide)

/-- The alternative names of this certificate are no sequence, and validation fails for a
chain that passes all of the basic checks. -/
theorem processCertsL_not_basicChecks :
    let aCert := CX509Certificate.bare [⟨KSubjectAltName, false, [5, 0]⟩]
    let iPKIXCertChain : CPKIXCertChainBase := ⟨[aCert], [], true, [], true⟩
    let init := CPKIXValidationState.newL 1 1 none
    Plain aCert ∧
    (∀ (i : Nat) current, iPKIXCertChain.iChain[i]? = some current →
      BasicChecks .ascii (fun _ _ => .ok true) iPKIXCertChain 1 i iPKIXCertChain.iChain[i + 1]?
        current) ∧
    (processCertsL .ascii (fun _ _ => .ok true) iPKIXCertChain init).error.iReason ≠
      .EValidatedOK := by
  refine ⟨by decide, fun i current hi => ?_, by decide⟩
  obtain ⟨hlt, rfl⟩ := List.getElem?_eq_some_iff.mp hi
  obtain rfl : i = 0 := Nat.lt_one_iff.mp hlt
  exact
    { signed := fun _ => rfl
      critical := fun ext hext hcritical => by
        obtain rfl := mem_singleton.mp hext
        cases hcritical
      validity := fun _ => rfl
      subjectType := fun h => absurd h (Nat.lt_irrefl 0)
      keyUsage := fun h => absurd h (Nat.lt_irrefl 0)
      nonnegative := nofun
      pathLength := fun h => absurd h (Nat.not_succ_le_zero 0) }

end CPKIXCertChainAO

end OsSecurity

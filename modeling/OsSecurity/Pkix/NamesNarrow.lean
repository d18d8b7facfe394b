/-
Whether name constraints only narrow.

A certificate's own subtrees are appended to those gathered above it, the excluded to the
excluded ones and the permitted to the permitted ones.  For the excluded subtrees that is
what narrows: a name has to stay out of every one.  For the permitted ones it is not,
since a name has to lie in only one of them, and which certificate has listed it is
forgotten.

So a chain that is accepted keeps to the permitted subtrees of each of its certificates
exactly when these agree on every name: `namesNarrow_iff_agree`.
-/
import Mathlib.Data.List.ReduceOption
import OsSecurity.Pkix.Reports

namespace OsSecurity

open List Logged TPKIXNameConstraint Validating

/-! ### The subtrees a certificate adds -/

namespace SubtreeLists

/-- Each list with the other's behind it. -/
def append (l l' : SubtreeLists) : SubtreeLists where
  iDNSubtrees := l.iDNSubtrees ++ l'.iDNSubtrees
  iRFC822Subtrees := l.iRFC822Subtrees ++ l'.iRFC822Subtrees
  iDNSNameSubtrees := l.iDNSNameSubtrees ++ l'.iDNSNameSubtrees
  iIPAddressSubtrees := l.iIPAddressSubtrees ++ l'.iIPAddressSubtrees

@[simp] theorem append_empty (l : SubtreeLists) : l.append .empty = l := by
  simp [append, empty]

@[simp] theorem empty_append (l : SubtreeLists) : empty.append l = l := rfl

theorem append_assoc (l l' l'' : SubtreeLists) :
    (l.append l').append l'' = l.append (l'.append l'') := by
  simp [append]

end SubtreeLists

@[simp] theorem TPKIXName.within_empty (pf : Platform) (name : TPKIXName) :
    name.within pf .empty = [] := by
  cases name <;> rfl

@[simp] theorem TPKIXName.within_append (pf : Platform) (name : TPKIXName)
    (l l' : SubtreeLists) : name.within pf (l.append l') = name.within pf l ++ name.within pf l' := by
  cases name <;> exact map_append

/-- The name lies in one of the subtrees of its kind. -/
def TPKIXName.Lies (pf : Platform) (name : TPKIXName) (l : SubtreeLists) : Prop :=
  .ok true ∈ name.within pf l

namespace TPKIXNameConstraint

section

variable {pf : Platform} {l l' : SubtreeLists}

/-- What a subtree adds does not depend on what is there. -/
theorem addSubtreeL_append (subtree : CX509GeneralSubtree) :
    addSubtreeL pf l subtree = (addSubtreeL pf .empty subtree >>= fun own =>
      .ok (l.append own)) := by
  unfold addSubtreeL
  by_cases hdirectory : subtree.iName.iTag = EX509DirectoryName
  · simp only [if_pos hdirectory]
    cases CX500DistinguishedName.newL subtree.iName.iData <;>
      simp [SubtreeLists.append, SubtreeLists.empty]
  by_cases hrfc822 : subtree.iName.iTag = EX509RFC822Name
  · simp only [if_neg hdirectory, if_pos hrfc822]
    cases CX509RFC822Name.newL pf subtree.iName.iData <;>
      simp [SubtreeLists.append, SubtreeLists.empty]
  by_cases huri : subtree.iName.iTag = EX509URI
  · simp only [if_neg hdirectory, if_neg hrfc822, if_pos huri]
    cases CX509IPBasedURI.hostL pf subtree.iName.iData <;>
      simp [SubtreeLists.append, SubtreeLists.empty]
  by_cases hdns : subtree.iName.iTag = EX509DNSName
  · simp only [if_neg hdirectory, if_neg hrfc822, if_neg huri, if_pos hdns]
    cases CX509DNSName.newL pf subtree.iName.iData <;>
      simp [SubtreeLists.append, SubtreeLists.empty]
  by_cases hip : subtree.iName.iTag = EX509IPAddress
  · simp only [if_neg hdirectory, if_neg hrfc822, if_neg huri, if_neg hdns, if_pos hip]
    cases CX509IPSubnetMask.newL subtree.iName.iData <;>
      simp [SubtreeLists.append, SubtreeLists.empty]
  · simp [hdirectory, hrfc822, huri, hdns, hip]

theorem foldlM_addSubtreeL (subtrees : List CX509GeneralSubtree) :
    subtrees.foldlM (addSubtreeL pf) l =
      (subtrees.foldlM (addSubtreeL pf) .empty >>= fun own => .ok (l.append own)) := by
  induction subtrees generalizing l with
  | nil => simp
  | cons subtree subtrees ih =>
      rw [foldlM_cons, foldlM_cons, addSubtreeL_append]
      cases addSubtreeL pf .empty subtree with
      | error e => rfl
      | ok own =>
        simp only [ok_bind]
        rw [ih, ih (l := own)]
        cases subtrees.foldlM (addSubtreeL pf) .empty with
        | error e => rfl
        | ok others => simp only [ok_bind, SubtreeLists.append_assoc]

end

end TPKIXNameConstraint

namespace CPKIXCertChainAO

/-- The subtrees the certificate lists itself, the excluded and the permitted ones. -/
def ownSubtreesL (pf : Platform) (aCert : CX509Certificate) :
    Leaving (SubtreeLists × SubtreeLists) :=
  subtreesL pf aCert .empty .empty

/-- The names of the certificate that can be constrained: its subject, and the alternative
names of the kinds there are subtrees of. -/
def namesL (pf : Platform) (aCert : CX509Certificate) : Leaving (List TPKIXName) := do
  match ← decodedL CX509AltNameExt.newL KSubjectAltName aCert with
  | none => return [.dN aCert.iSubjectName]
  | some altNameExt =>
    return .dN aCert.iSubjectName :: (← altNameExt.iAuthorityName.mapM (nameL pf)).reduceOption

section

variable {pf : Platform} {iPos : Int} {iExcluded iPermitted : SubtreeLists}
  {current : CX509Certificate}

theorem subtreesL_ok {l : SubtreeLists × SubtreeLists} :
    subtreesL pf current iExcluded iPermitted = .ok l ↔
      ∃ own, ownSubtreesL pf current = .ok own ∧
        l = (iExcluded.append own.1, iPermitted.append own.2) := by
  unfold ownSubtreesL subtreesL
  cases decodedL CX509NameConstraintsExt.newL KNameConstraints current with
  | error e => simp
  | ok nameCons =>
      cases nameCons with
      | none => simp [eq_comm]
      | some nameCons =>
        simp only [ok_bind]
        rw [foldlM_addSubtreeL nameCons.iExcludedSubtrees,
          foldlM_addSubtreeL nameCons.iPermittedSubtrees]
        cases nameCons.iExcludedSubtrees.foldlM (addSubtreeL pf) .empty with
        | error e => simp
        | ok excluded =>
          cases nameCons.iPermittedSubtrees.foldlM (addSubtreeL pf) .empty with
          | error e => simp
          | ok permitted => simp [eq_comm]

/-! ### What a name is let through with -/

theorem nameIsPresentL_false {within : List (Leaving Bool)}
    (h : nameIsPresentL within = .ok false) : .ok true ∉ within := by
  induction within with
  | nil => exact not_mem_nil
  | cons isWithin others ih =>
      cases isWithin with
      | error e => cases h
      | ok b =>
        cases b with
        | true => cases h
        | false => simpa using ih h

theorem nameIsPresentL_true {within : List (Leaving Bool)}
    (h : nameIsPresentL within = .ok true) : .ok true ∈ within := by
  induction within with
  | nil => cases h
  | cons isWithin others ih =>
      cases isWithin with
      | error e => cases h
      | ok b =>
        cases b with
        | true => exact mem_cons_self ..
        | false => exact mem_cons_of_mem _ (ih h)

theorem checkNameL_ok {name : TPKIXName}
    (h : (checkNameL pf iPos iExcluded iPermitted name).exit = .ok ()) :
    ¬ name.Lies pf iExcluded ∧
      (name.within pf iPermitted ≠ [] → name.Lies pf iPermitted) := by
  unfold checkNameL at h
  simp only [exit_bind, exit_lift] at h
  obtain ⟨b, hb, h⟩ := bind_eq_ok.mp h
  cases b with
  | true => cases h
  | false =>
      refine ⟨nameIsPresentL_false hb, fun hlisted => ?_⟩
      simp only [Bool.false_eq_true, if_false, if_neg hlisted, exit_bind, exit_lift] at h
      obtain ⟨b, hb, h⟩ := bind_eq_ok.mp h
      cases b with
      | true => exact nameIsPresentL_true hb
      | false => cases h

theorem checkNamesL_ok
    (h : checkNamesL pf iPos current iExcluded iPermitted = .ok ()) :
    ∃ names, namesL pf current = .ok names ∧
      ∀ name ∈ names, ¬ name.Lies pf iExcluded ∧
        (name.within pf iPermitted ≠ [] → name.Lies pf iPermitted) := by
  have halt : ∀ {gNs : List CX509GeneralName},
      (checkAltNamesL pf iPos iExcluded iPermitted gNs).exit = .ok () →
      ∃ decoded, gNs.mapM (nameL pf) = .ok decoded ∧
        ∀ name ∈ decoded.reduceOption, ¬ name.Lies pf iExcluded ∧
          (name.within pf iPermitted ≠ [] → name.Lies pf iPermitted) := by
    intro gNs
    induction gNs with
    | nil => exact fun _ => ⟨[], rfl, fun name hname => by cases hname⟩
    | cons gN others ih =>
      intro h
      simp only [checkAltNamesL, exit_bind, exit_lift] at h
      obtain ⟨first, hfirst, h⟩ := bind_eq_ok.mp h
      cases first with
      | none =>
        obtain ⟨decoded, hdecoded, hall⟩ := ih h
        refine ⟨none :: decoded, ?_, ?_⟩
        · rw [mapM_cons, hfirst, ok_bind, hdecoded]
          rfl
        · rwa [reduceOption_cons_of_none]
      | some name =>
        simp only [exit_bind] at h
        obtain ⟨_, hname, h⟩ := bind_eq_ok.mp h
        obtain ⟨decoded, hdecoded, hall⟩ := ih h
        refine ⟨some name :: decoded, ?_, ?_⟩
        · rw [mapM_cons, hfirst, ok_bind, hdecoded]
          rfl
        · rw [reduceOption_cons_of_some, forall_mem_cons]
          exact ⟨checkNameL_ok hname, hall⟩
  unfold checkNamesL at h
  unfold namesL
  obtain ⟨_, hsubject, h⟩ := bind_eq_ok.mp h
  obtain ⟨altNameExt, hext, h⟩ := bind_eq_ok.mp h
  rw [hext, ok_bind]
  cases altNameExt with
  | none =>
      refine ⟨_, rfl, ?_⟩
      rw [forall_mem_singleton]
      exact checkNameL_ok hsubject
  | some altNameExt =>
      obtain ⟨decoded, hdecoded, hall⟩ := halt h
      refine ⟨.dN current.iSubjectName :: decoded.reduceOption, ?_, ?_⟩
      · simp only [hdecoded]
        rfl
      · rw [forall_mem_cons]
        exact ⟨checkNameL_ok hsubject, hall⟩

end

/-! ### The whole chain -/

/-- **Name constraints only narrow**: a name of a certificate lies in none of the excluded
subtrees of any certificate above and, where that one lists permitted subtrees of the name's
kind, in one of these. -/
def NamesNarrow (pf : Platform) (iChain : List CX509Certificate) : Prop :=
  ∀ (i j : Nat) issuer current, j < i → iChain[i]? = some issuer → iChain[j]? = some current →
    ∃ own names, ownSubtreesL pf issuer = .ok own ∧ namesL pf current = .ok names ∧
      ∀ name ∈ names, ¬ name.Lies pf own.1 ∧
        (name.within pf own.2 ≠ [] → name.Lies pf own.2)

/-- Of the certificates above a name, those that list permitted subtrees of its kind all
permit it as soon as one of them does. -/
def Agree (pf : Platform) (iChain : List CX509Certificate) : Prop :=
  ∀ (i i' j : Nat) issuer issuer' current own own' names, j < i → j < i' →
    iChain[i]? = some issuer → ownSubtreesL pf issuer = .ok own →
    iChain[i']? = some issuer' → ownSubtreesL pf issuer' = .ok own' →
    iChain[j]? = some current → namesL pf current = .ok names →
    ∀ name ∈ names, name.within pf own.2 ≠ [] → name.Lies pf own'.2 → name.Lies pf own.2

/-- The subtrees of the state are those of the certificates gone through. -/
structure Gathers (pf : Platform) (above : List CX509Certificate) (s : CPKIXValidationState) :
    Prop where
  excluded : ∀ name b, b ∈ TPKIXName.within pf name s.iExcluded ↔
    ∃ issuer ∈ above, ∃ own, ownSubtreesL pf issuer = .ok own ∧ b ∈ name.within pf own.1
  permitted : ∀ name b, b ∈ TPKIXName.within pf name s.iPermitted ↔
    ∃ issuer ∈ above, ∃ own, ownSubtreesL pf issuer = .ok own ∧ b ∈ name.within pf own.2

section

variable {pf : Platform} {verifySignatureL : CX509Certificate → Bytes → Leaving Bool}
  {iPKIXCertChain : CPKIXCertChainBase} {issuer : Option CX509Certificate}
  {current : CX509Certificate} {above : List CX509Certificate} {s s' : CPKIXValidationState}

theorem gathers_turn (h : Gathers pf above s)
    (hturn : Turn pf verifySignatureL iPKIXCertChain issuer current s s') :
    Gathers pf (current :: above) s' := by
  obtain ⟨own, hown, hlists⟩ := subtreesL_ok.mp hturn.subtrees
  obtain ⟨hexcluded, hpermitted⟩ := Prod.mk.inj hlists
  have hcurrent : ∀ {Q : SubtreeLists × SubtreeLists → Prop},
      (∃ l, ownSubtreesL pf current = .ok l ∧ Q l) ↔ Q own := by
    intro Q
    simp [hown]
  refine ⟨fun name b => ?_, fun name b => ?_⟩
  · rw [hexcluded, TPKIXName.within_append, mem_append, h.excluded, exists_mem_cons_iff,
      hcurrent, or_comm]
  · rw [hpermitted, TPKIXName.within_append, mem_append, h.permitted,
      exists_mem_cons_iff, hcurrent, or_comm]

/-- The certificates above a position. -/
theorem mem_drop_succ {α : Type} {l : List α} {a : α} {j : Nat} :
    a ∈ l.drop (j + 1) ↔ ∃ i, j < i ∧ l[i]? = some a := by
  rw [mem_iff_getElem?]
  refine ⟨fun h => ?_, fun h => ?_⟩
  · obtain ⟨k, hk⟩ := h
    rw [getElem?_drop] at hk
    exact ⟨j + 1 + k, by omega, hk⟩
  · obtain ⟨i, hij, hi⟩ := h
    obtain ⟨k, rfl⟩ := Nat.exists_eq_add_of_lt hij
    refine ⟨k, ?_⟩
    rw [getElem?_drop, ← hi]
    congr 1
    omega

variable {aValidationTime : Int} {aInitialPolicies : Option (List Text)}

/-- What an accepted chain keeps to: the names of a certificate, against the subtrees
gathered above it. -/
theorem names_of_accepted
    (h : (processCertsL pf verifySignatureL iPKIXCertChain (.newL aValidationTime
      iPKIXCertChain.iChain.length aInitialPolicies)).error.iReason = .EValidatedOK)
    {j : Nat} (hj : iPKIXCertChain.iChain[j]? = some current) :
    ∃ t names, Gathers pf (iPKIXCertChain.iChain.drop (j + 1)) t ∧
      (∃ own, ownSubtreesL pf current = .ok own) ∧ namesL pf current = .ok names ∧
        ∀ name ∈ names, ¬ name.Lies pf t.iExcluded ∧
          (name.within pf t.iPermitted ≠ [] → name.Lies pf t.iPermitted) := by
  rw [processCertsL_error rfl, processCertsL_exit rfl] at h
  obtain ⟨s, hs, -⟩ := bind_eq_ok.mp h
  obtain ⟨t, t', ht, hturn, -⟩ := Descent.descend_step hs (Descent.cons_suffix_iff.mpr ⟨j, hj, rfl⟩)
  have hturn := turnL_ok.mp hturn
  have hgathers : Gathers pf (iPKIXCertChain.iChain.drop (j + 1)) t := by
    refine Descent.descend_invariant (P := Gathers pf) ⟨?_, ?_⟩ ?_ (suffix_refl _) ht
    · exact fun name b => by simp [CPKIXValidationState.newL]
    · exact fun name b => by simp [CPKIXValidationState.newL]
    · intro above a s s' _ hs hturn
      exact gathers_turn hs (turnL_ok.mp hturn)
  obtain ⟨own, hown, -⟩ := subtreesL_ok.mp hturn.subtrees
  obtain ⟨names, hnames, hall⟩ := checkNamesL_ok hturn.names
  exact ⟨t, names, hgathers, ⟨own, hown⟩, hnames, hall⟩

/-- **An accepted chain keeps to every certificate's permitted subtrees exactly when its
certificates agree on them.** -/
theorem namesNarrow_iff_agree
    (h : (processCertsL pf verifySignatureL iPKIXCertChain (.newL aValidationTime
      iPKIXCertChain.iChain.length aInitialPolicies)).error.iReason = .EValidatedOK) :
    NamesNarrow pf iPKIXCertChain.iChain ↔ Agree pf iPKIXCertChain.iChain := by
  refine ⟨fun hnarrow => ?_, fun hagree => ?_⟩
  · intro i i' j issuer issuer' current own own' names hij hij' hi hown hi' hown' hj hnames
      name hname hlisted _
    obtain ⟨own₂, names₂, hown₂, hnames₂, hall⟩ := hnarrow i j issuer current hij hi hj
    obtain rfl := Except.ok.inj (hown.symm.trans hown₂)
    obtain rfl := Except.ok.inj (hnames.symm.trans hnames₂)
    exact (hall name hname).2 hlisted
  · intro i j issuer current hij hi hj
    obtain ⟨t, names, hgathers, -, hnames, hall⟩ := names_of_accepted h hj
    obtain ⟨-, -, -, ⟨own, hown⟩, -, -⟩ := names_of_accepted h hi
    refine ⟨own, names, hown, hnames, fun name hname => ⟨fun hlies => ?_, fun hlisted => ?_⟩⟩
    · have habove := mem_drop_succ.mpr ⟨i, hij, hi⟩
      exact (hall name hname).1 ((hgathers.excluded name _).mpr ⟨issuer, habove, own, hown, hlies⟩)
    · -- somebody above permits the name, and so does this issuer
      obtain ⟨b, hb⟩ := exists_mem_of_ne_nil _ hlisted
      have habove := mem_drop_succ.mpr ⟨i, hij, hi⟩
      have hb := (hgathers.permitted name b).mpr ⟨issuer, habove, own, hown, hb⟩
      have hlies := (hall name hname).2 (ne_nil_of_mem hb)
      obtain ⟨issuer', hissuer', own', hown', hlies'⟩ := (hgathers.permitted name _).mp hlies
      obtain ⟨i', hij', hi'⟩ := mem_drop_succ.mp hissuer'
      exact hagree i i' j issuer issuer' current own own' names hij hij' hi hown hi' hown' hj
        hnames name hname hlisted hlies'

end

/-- An authority that permits the addresses of a subnet: the address and its mask. -/
def addressAuthority (subnet : Bytes) : CX509Certificate :=
  .bare [⟨KBasicConstraints, false, authorityData⟩,
    ⟨KNameConstraints, false, Der.element 4 (Der.element 0x30 (Der.element 0xa0
      (Der.element 0x30 (Der.element 0x87 subnet))))⟩]

/-- A certificate for an address. -/
def addressed (address : Bytes) : CX509Certificate :=
  .bare [⟨KSubjectAltName, false, Der.element 4 (Der.element 0x30 (Der.element 0x87 address))⟩]

/-- The theorem at an address of the one subnet that is permitted. -/
theorem namesNarrow_iff_agree_one :
    let iChain := [addressed [10, 0, 0, 1], addressAuthority [10, 0, 0, 0, 255, 0, 0, 0]]
    NamesNarrow .ascii iChain ↔ Agree .ascii iChain :=
  let iPKIXCertChain : CPKIXCertChainBase :=
    ⟨[addressed [10, 0, 0, 1], addressAuthority [10, 0, 0, 0, 255, 0, 0, 0]], [], true, [], true⟩
  have haccepted : (processCertsL .ascii (fun _ _ => .ok true) iPKIXCertChain
      (.newL 1 2 none)).error.iReason = .EValidatedOK := by
    rfl
  namesNarrow_iff_agree haccepted

/-- The root permits 10.0.0.0/8 and the authority below it 192.168.0.0/16, and 192.168.1.1
is accepted. -/
theorem not_namesNarrow :
    let iChain := [addressed [192, 168, 1, 1], addressAuthority [192, 168, 0, 0, 255, 255, 0, 0],
      addressAuthority [10, 0, 0, 0, 255, 0, 0, 0]]
    let iPKIXCertChain : CPKIXCertChainBase := ⟨iChain, [], true, [], true⟩
    (processCertsL .ascii (fun _ _ => .ok true) iPKIXCertChain (.newL 1 3 none)).error.iReason =
      .EValidatedOK ∧ ¬ NamesNarrow .ascii iChain := by
  refine ⟨rfl, fun hnarrow => ?_⟩
  obtain ⟨own, names, hown, hnames, hall⟩ := hnarrow 2 0 _ _ Nat.two_pos rfl rfl
  have hroot : ownSubtreesL .ascii (addressAuthority [10, 0, 0, 0, 255, 0, 0, 0]) =
      .ok (.empty, ⟨[], [], [], [[10, 0, 0, 0, 255, 0, 0, 0]]⟩) := by
    rfl
  have hleaf : namesL .ascii (addressed [192, 168, 1, 1]) =
      .ok [.dN ⟨[]⟩, .ip [192, 168, 1, 1]] := by
    rfl
  obtain rfl := Except.ok.inj (hroot.symm.trans hown)
  obtain rfl := Except.ok.inj (hleaf.symm.trans hnames)
  have houtside : .ok true ∉ (TPKIXName.ip [192, 168, 1, 1]).within .ascii
      ⟨[], [], [], [[10, 0, 0, 0, 255, 0, 0, 0]]⟩ := by
    decide
  exact houtside ((hall (.ip [192, 168, 1, 1]) (by simp)).2 nofun)

end CPKIXCertChainAO

end OsSecurity

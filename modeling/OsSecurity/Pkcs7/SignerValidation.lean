/-
When validation vouches for the right data and the right certificate.

A call that returns true should mean that the signature verifies under a certificate the
signer info names, over what this very call was asked about.  A walk over the certificates is
first reduced to the certificate it picks (`searchL_eq_ok`), and verifying to the octets that
are verified (`chosen`); what is left is to compare them with the certificate that is named
and the octets that are asked for (`asked`).

They differ in three ways.  A CMS object verifies embedded content whatever it is supplied
with, and content that was supplied earlier whatever hash it is supplied with.  A PKCS#7
object takes the last certificate of the issuer, whatever its serial number.  And serial
numbers are compared as unsigned numbers, so that −1 and 255 are one.  `validations_vouch_iff` says
that a run of calls vouches for the right things exactly when none of this shows in it.
-/
import OsSecurity.Pkcs7.CertificateChains
import OsSecurity.X509.Pkcs1

namespace OsSecurity

open List Nat

/-- The number that the contents octets of an INTEGER stand for. -/
def integerValue (contents : Bytes) : Int :=
  if contents.headD 0 < 128 then Der.value contents
  else (Der.value contents : Int) - 256 ^ contents.length

/-- What a signature is verified over. -/
inductive Subject where
  | data (aData : Bytes)
  | hash (aHash : Bytes)

/-- The certificate of an issuer and a serial number. -/
structure CPKCS7IssuerAndSerialNumber.Names (pf : Platform) (name : CPKCS7IssuerAndSerialNumber)
    (c : CX509Certificate) : Prop where
  issuer : c.iIssuerName.exactMatchL pf name.iIssuerName = .ok true
  serialNumber : integerValue c.iSerialNumber = integerValue name.contents

/-! ### CMS: the certificate a call picks -/

def CCmsCertificateChoice.x509 {pf : Platform} :
    CCmsCertificateChoice pf → Option (DecodedCertificate pf)
  | .ECertificateX509 certificate => some certificate
  | .ECertificateAttribute _ => none

theorem encodings_x509 {pf : Platform} (certs : List (CCmsCertificateChoice pf)) :
    certs.map (·.encoding) = encodingsOf (certs.map (·.x509)) := by
  unfold encodingsOf
  rw [map_map]
  apply map_congr_left
  intro certificate _
  cases certificate <;> rfl

namespace CCmsSignedObject

variable {pf : Platform} {P : SignaturePrimitives} {self : CCmsSignedObject pf}
  {aSignerInfo : CCmsSignerInfo}

/-- The first X.509 certificate of a list that is taken for the one that is named. -/
structure Picks (signerId : CCmsSignerIdentifier) (certs : List (Option (DecodedCertificate pf)))
    (i : Nat) (c : DecodedCertificate pf) : Prop where
  at' : certs[i]? = some (some c)
  taken : matchesL pf signerId c.val = .ok true
  first : ∀ j < i, ∀ d, certs[j]? = some (some d) → matchesL pf signerId d.val = .ok false

/-- No certificate of a list is taken. -/
def NonePicked (signerId : CCmsSignerIdentifier)
    (certs : List (Option (DecodedCertificate pf))) : Prop :=
  ∀ d, some d ∈ certs → matchesL pf signerId d.val = .ok false

section

variable {signerId : CCmsSignerIdentifier} {certs : List (Option (DecodedCertificate pf))}
  {i : Nat} {c d : DecodedCertificate pf}

theorem picks_zero : Picks signerId (some c :: certs) 0 d ↔
    d = c ∧ matchesL pf signerId c.val = .ok true := by
  constructor
  · intro h
    have hat := h.at'
    simp only [getElem?_cons_zero, Option.some.injEq] at hat
    exact ⟨hat.symm, hat ▸ h.taken⟩
  · intro h
    obtain ⟨rfl, htaken⟩ := h
    exact ⟨rfl, htaken, fun j hj => absurd hj (Nat.not_lt_zero j)⟩

theorem picks_succ : Picks signerId (some c :: certs) (i + 1) d ↔
    matchesL pf signerId c.val = .ok false ∧ Picks signerId certs i d := by
  constructor
  · intro h
    refine ⟨h.first 0 (succ_pos i) c rfl, by simpa using h.at', h.taken, ?_⟩
    intro j hj e he
    exact h.first (j + 1) (succ_lt_succ hj) e (by simpa using he)
  · intro h
    obtain ⟨hfirst, h⟩ := h
    refine ⟨by simpa using h.at', h.taken, ?_⟩
    intro j hj e he
    cases j with
    | zero =>
      simp only [getElem?_cons_zero, Option.some.injEq] at he
      exact he ▸ hfirst
    | succ j => exact h.first j (lt_of_succ_lt_succ hj) e (by simpa using he)

theorem picks_none : Picks signerId (none :: certs) i d ↔
    ∃ k, i = k + 1 ∧ Picks signerId certs k d := by
  constructor
  · intro h
    cases i with
    | zero => exact absurd h.at' (by simp)
    | succ k =>
      refine ⟨k, rfl, by simpa using h.at', h.taken, ?_⟩
      intro j hj e he
      exact h.first (j + 1) (succ_lt_succ hj) e (by simpa using he)
  · intro h
    obtain ⟨k, rfl, h⟩ := h
    refine ⟨by simpa using h.at', h.taken, ?_⟩
    intro j hj e he
    cases j with
    | zero => simp at he
    | succ j => exact h.first j (lt_of_succ_lt_succ hj) e (by simpa using he)

end

/-- The walk once the end entity is found: it only counts. -/
theorem searchL_found {certs : List (CCmsCertificateChoice pf)} {n : Nat} {s : EndEntity}
    (hs : s.endEntityPos ≠ -1) : self.searchL P aSignerInfo n certs s =
      .ok { s with endEncodingSize :=
        s.endEncodingSize + (joined (encodingsOf (certs.map (·.x509)))).length } := by
  induction certs generalizing n s with
  | nil => rfl
  | cons certificate certs ih =>
      cases certificate with
      | ECertificateAttribute _ => exact ih hs
      | ECertificateX509 c =>
        have hturn : self.considerL P aSignerInfo n c.val s = .ok (s.count c.val.iEncoding) := by
          unfold considerL
          exact if_neg hs
        have hcounted : (s.count c.val.iEncoding).endEntityPos ≠ -1 := hs
        rw [searchL, hturn, ok_bind, ih hcounted]
        simp only [EndEntity.count, encodingsOf, map_cons, CCmsCertificateChoice.x509,
          Option.map_some, joined_cons_some, length_append, Nat.add_assoc]

/-- What the walk over a list ends with, started at `s`. -/
def Ends (P : SignaturePrimitives) (self : CCmsSignedObject pf) (aSignerInfo : CCmsSignerInfo)
    (certs : List (Option (DecodedCertificate pf))) (n : Nat) (s t : EndEntity) : Prop :=
  (NonePicked aSignerInfo.iSignerIdentifier certs ∧
    t = { s with endEncodingSize := s.endEncodingSize + (joined (encodingsOf certs)).length }) ∨
  ∃ i c valid, Picks aSignerInfo.iSignerIdentifier certs i c ∧
    self.validateSignatureL P aSignerInfo c.val = .ok valid ∧
    t = ⟨(n + i : Nat), s.endEncodingSize + (joined (encodingsOf certs)).length, c.val.iEncoding,
      valid⟩

theorem ends_none {certs : List (Option (DecodedCertificate pf))} {n : Nat} {s t : EndEntity} :
    Ends P self aSignerInfo (none :: certs) n s t ↔
      Ends P self aSignerInfo certs (n + 1) s t := by
  have hnone : NonePicked aSignerInfo.iSignerIdentifier (none :: certs) ↔
      NonePicked aSignerInfo.iSignerIdentifier certs := by
    simp [NonePicked]
  have hjoined : joined (encodingsOf (none :: certs)) = joined (encodingsOf certs) := rfl
  unfold Ends
  rw [hnone, hjoined]
  refine or_congr_right ⟨fun h => ?_, fun h => ?_⟩
  · obtain ⟨i, c, valid, hpick, hvalid, rfl⟩ := h
    obtain ⟨k, rfl, hpick'⟩ := picks_none.mp hpick
    refine ⟨k, c, valid, hpick', hvalid, ?_⟩
    rw [Nat.add_right_comm, Nat.add_assoc]
  · obtain ⟨i, c, valid, hpick, hvalid, rfl⟩ := h
    refine ⟨i + 1, c, valid, picks_none.mpr ⟨i, rfl, hpick⟩, hvalid, ?_⟩
    rw [Nat.add_right_comm, Nat.add_assoc]

/-- A certificate that is not taken. -/
theorem ends_passed {certs : List (Option (DecodedCertificate pf))} {n : Nat} {s t : EndEntity}
    {c : DecodedCertificate pf}
    (hpass : matchesL pf aSignerInfo.iSignerIdentifier c.val = .ok false) :
    Ends P self aSignerInfo (some c :: certs) n s t ↔
      Ends P self aSignerInfo certs (n + 1) (s.count c.val.iEncoding) t := by
  have hnone : NonePicked aSignerInfo.iSignerIdentifier (some c :: certs) ↔
      NonePicked aSignerInfo.iSignerIdentifier certs := by
    simp [NonePicked, hpass]
  have hjoined : s.endEncodingSize + (joined (encodingsOf (some c :: certs))).length =
      (s.count c.val.iEncoding).endEncodingSize + (joined (encodingsOf certs)).length := by
    simp [encodingsOf, EndEntity.count, Nat.add_assoc]
  unfold Ends
  rw [hnone, hjoined]
  refine or_congr Iff.rfl ⟨fun h => ?_, fun h => ?_⟩
  · obtain ⟨i, d, valid, hpick, hvalid, rfl⟩ := h
    cases i with
    | zero =>
      obtain ⟨rfl, htaken⟩ := picks_zero.mp hpick
      exact absurd (hpass.symm.trans htaken) (by simp)
    | succ i =>
      refine ⟨i, d, valid, (picks_succ.mp hpick).2, hvalid, ?_⟩
      rw [Nat.add_right_comm, Nat.add_assoc]
  · obtain ⟨i, d, valid, hpick, hvalid, rfl⟩ := h
    refine ⟨i + 1, d, valid, picks_succ.mpr ⟨hpass, hpick⟩, hvalid, ?_⟩
    rw [Nat.add_right_comm, Nat.add_assoc]

/-- A certificate that the walk leaves at. -/
theorem not_ends_error {certs : List (Option (DecodedCertificate pf))} {n : Nat}
    {s t : EndEntity} {c : DecodedCertificate pf} {e : Exit}
    (herror : matchesL pf aSignerInfo.iSignerIdentifier c.val = .error e) :
    ¬ Ends P self aSignerInfo (some c :: certs) n s t := by
  intro h
  rcases h with ⟨hnone, -⟩ | ⟨i, d, valid, hpick, -, -⟩
  · exact absurd (herror.symm.trans (hnone c (mem_cons_self ..))) (by simp)
  · cases i with
    | zero => exact absurd (herror.symm.trans (picks_zero.mp hpick).2) (by simp)
    | succ i => exact absurd (herror.symm.trans (picks_succ.mp hpick).1) (by simp)

/-- A certificate that is taken. -/
theorem ends_taken {certs : List (Option (DecodedCertificate pf))} {n : Nat} {s t : EndEntity}
    {c : DecodedCertificate pf}
    (htaken : matchesL pf aSignerInfo.iSignerIdentifier c.val = .ok true) :
    Ends P self aSignerInfo (some c :: certs) n s t ↔
      ∃ valid, self.validateSignatureL P aSignerInfo c.val = .ok valid ∧
        t = ⟨n, s.endEncodingSize + (joined (encodingsOf (some c :: certs))).length,
          c.val.iEncoding, valid⟩ := by
  constructor
  · intro h
    rcases h with ⟨hnone, -⟩ | ⟨i, d, valid, hpick, hvalid, rfl⟩
    · exact absurd (htaken.symm.trans (hnone c (mem_cons_self ..))) (by simp)
    · cases i with
      | zero =>
        obtain ⟨rfl, -⟩ := picks_zero.mp hpick
        exact ⟨valid, hvalid, rfl⟩
      | succ i => exact absurd (htaken.symm.trans (picks_succ.mp hpick).1) (by simp)
  · intro h
    obtain ⟨valid, hvalid, rfl⟩ := h
    exact .inr ⟨0, c, valid, picks_zero.mpr ⟨rfl, htaken⟩, hvalid, rfl⟩

/-- **The walk picks the first certificate that is taken**, and goes on counting. -/
theorem searchL_eq_ok {certs : List (CCmsCertificateChoice pf)} {n : Nat} {s t : EndEntity}
    (hs : s.endEntityPos = -1) : self.searchL P aSignerInfo n certs s = .ok t ↔
      Ends P self aSignerInfo (certs.map (·.x509)) n s t := by
  induction certs generalizing n s with
  | nil =>
      have hno : ∀ i (c : DecodedCertificate pf),
          ¬ Picks aSignerInfo.iSignerIdentifier [] i c := fun i c h => by simpa using h.at'
      simp [searchL, Ends, NonePicked, encodingsOf, eq_comm, hno]
  | cons certificate certs ih =>
      cases certificate with
      | ECertificateAttribute _ => exact (ih hs).trans ends_none.symm
      | ECertificateX509 c =>
        have hcounted : (s.count c.val.iEncoding).endEntityPos = -1 := hs
        rw [searchL, considerL]
        simp only [if_pos hcounted]
        cases hmatch : matchesL pf aSignerInfo.iSignerIdentifier c.val with
        | error e =>
          simp only [leaving_bind_error, reduceCtorEq, false_iff]
          exact not_ends_error hmatch
        | ok taken =>
          cases taken with
          | false =>
            simp only [ok_bind, Bool.false_eq_true, if_false, leaving_pure]
            exact (ih hcounted).trans (ends_passed hmatch).symm
          | true =>
            simp only [ok_bind, if_true]
            refine Iff.trans ?_ (ends_taken hmatch).symm
            cases hvalid : self.validateSignatureL P aSignerInfo c.val with
            | error e => simp
            | ok valid =>
              have hfound : ((s.count c.val.iEncoding).found n c.val.iEncoding
                  valid).endEntityPos ≠ -1 := by
                simp only [EndEntity.found]
                omega
              simp only [ok_bind, leaving_pure]
              rw [searchL_found hfound]
              simp [EndEntity.found, EndEntity.count, encodingsOf,
                CCmsCertificateChoice.x509, Nat.add_assoc, eq_comm]

/-- **What validation returns**: the verdict on the certificate that is picked, and its
chain. -/
theorem validateSignerInLC_eq_ok {certificates : List (CCmsCertificateChoice pf)} {valid : Bool}
    {chain : Bytes} :
    self.validateSignerInLC P aSignerInfo certificates = .ok (valid, chain) ↔
      ∃ i c, Picks aSignerInfo.iSignerIdentifier (certificates.map (·.x509)) i c ∧
        self.validateSignatureL P aSignerInfo c.val = .ok valid ∧
        chain = chainOf (certificates.map (·.x509)) i c := by
  unfold validateSignerInLC
  rw [encodings_x509, bind_eq_ok]
  constructor
  · intro h
    obtain ⟨t, ht, hchain⟩ := h
    rcases (searchL_eq_ok rfl).mp ht with ⟨-, rfl⟩ | ⟨i, c, valid', hpick, hvalid, rfl⟩
    · exact absurd hchain (by simp [chainEncodingL, EndEntity.start])
    · simp only [EndEntity.start, Nat.zero_add] at hchain
      rw [chainEncodingL_chainOf hpick.at'] at hchain
      cases hchain
      exact ⟨i, c, hpick, hvalid, rfl⟩
  · intro h
    obtain ⟨i, c, hpick, hvalid, rfl⟩ := h
    refine ⟨_, (searchL_eq_ok rfl).mpr (.inr ⟨i, c, valid, hpick, hvalid, rfl⟩), ?_⟩
    simp only [EndEntity.start, Nat.zero_add]
    exact chainEncodingL_chainOf hpick.at' valid

/-! ### CMS: the octets a call verifies -/

/-- The verdict on a signature over some octets, under the key of a certificate. -/
def verifiesL (P : SignaturePrimitives) (aSignerInfo : CCmsSignerInfo) (c : CX509Certificate)
    (subject : Subject) : Leaving Bool := do
  let signed ← signedObjectL P aSignerInfo c
  match subject with
  | .data aData => signed.verifySignatureL c.iSubjectPublicKeyInfo.iEncodedKeyData (.ok aData)
  | .hash aHash => signed.verifySignatureHashL c.iSubjectPublicKeyInfo.iEncodedKeyData aHash

/-- What the object verifies: embedded content, else content it remembers, else a hash. -/
def chosen (self : CCmsSignedObject pf) : Option Subject :=
  if self.iContentInfo.iIsContentDataPresent then some (.data self.iContentInfo.iContentData)
  else if self.iContentData ≠ [] then some (.data self.iContentData)
  else if self.iHash ≠ [] then some (.hash self.iHash)
  else none

/-- What the caller asks about: what it supplies, else the embedded content. -/
def asked (self : CCmsSignedObject pf) (call : Call pf) : Option Subject :=
  match call.supplied with
  | some (.content aContentData) => some (.data aContentData)
  | some (.hash aHash) => some (.hash aHash)
  | none =>
    if self.iContentInfo.iIsContentDataPresent then some (.data self.iContentInfo.iContentData)
    else none

theorem validateSignatureL_eq_true {c : CX509Certificate} :
    self.validateSignatureL P aSignerInfo c = .ok true ↔
      ∃ subject, self.chosen = some subject ∧ verifiesL P aSignerInfo c subject = .ok true := by
  unfold validateSignatureL chosen verifiesL signedDataL
  by_cases hpresent : self.iContentInfo.iIsContentDataPresent = true
  · simp [hpresent]
  · by_cases hdata : self.iContentData = []
    · by_cases hhash : self.iHash = []
      · simp [hpresent, hdata, hhash, bind_eq_ok]
      · simp [hpresent, hdata, hhash]
    · simp [hpresent, hdata]

end CCmsSignedObject

/-! ### CMS: names -/

namespace CCmsSignerIdentifier

variable {pf : Platform}

/-- The certificates that a signer identifier names. -/
def Names (pf : Platform) : CCmsSignerIdentifier → CX509Certificate → Prop
  | .EIssuerAndSerialNumber name, c => name.Names pf c
  | .ESubjectKeyIdentifier keyId, c => ∃ certExt ext, c.extension KSubjectKeyId = some certExt ∧
      CX509SubjectKeyIdExt.newL certExt.iData = .ok ext ∧ ext.iKeyIdentifier = keyId

/-- The serial number of a certificate is the number that is named, sign and all. -/
def SameNumber : CCmsSignerIdentifier → CX509Certificate → Prop
  | .EIssuerAndSerialNumber name, c => integerValue c.iSerialNumber = integerValue name.contents
  | .ESubjectKeyIdentifier _, _ => True

theorem names_iff {signerId : CCmsSignerIdentifier} {c : CX509Certificate}
    (h : CCmsSignedObject.matchesL pf signerId c = .ok true) :
    signerId.Names pf c ↔ signerId.SameNumber c := by
  cases signerId with
  | EIssuerAndSerialNumber name =>
      obtain ⟨same, hsame, h⟩ := bind_eq_ok.mp h
      cases same with
      | false => simp at h
      | true => exact ⟨fun hn => hn.serialNumber, fun hn => ⟨hsame, hn⟩⟩
  | ESubjectKeyIdentifier keyId =>
      unfold CCmsSignedObject.matchesL at h
      cases hext : c.extension KSubjectKeyId with
      | none => simp [hext] at h
      | some certExt =>
        simp only [hext] at h
        obtain ⟨ext, hnew, h⟩ := bind_eq_ok.mp h
        simp only [leaving_pure, Except.ok.injEq, decide_eq_true_eq] at h
        exact ⟨fun _ => trivial, fun _ => ⟨certExt, ext, hext, hnew, h.symm⟩⟩

end CCmsSignerIdentifier

/-! ### CMS: calls -/

namespace CCmsSignedObject

variable {pf : Platform} {P : SignaturePrimitives} {self : CCmsSignedObject pf} {call : Call pf}

/-- The X.509 certificates a call looks through, by position. -/
def x509sOf (self : CCmsSignedObject pf) (call : Call pf) : List (Option (DecodedCertificate pf)) :=
  (self.certificatesOf call).map (·.x509)

/-- What a certificate is that a call may vouch for: the signer info names it, and its key
verifies the signature over what the caller asks about. -/
structure Good (P : SignaturePrimitives) (object : CCmsSignedObject pf) (call : Call pf)
    (c : CX509Certificate) : Prop where
  named : call.aSignerInfo.iSignerIdentifier.Names pf c
  verified : ∃ subject, object.asked call = some subject ∧
    verifiesL P call.aSignerInfo c subject = .ok true

/-- **The property of a call**: if it returns true, its chain is that of a good certificate. -/
def Vouches (P : SignaturePrimitives) (self : CCmsSignedObject pf) (call : Call pf) : Prop :=
  ∀ chain, self.validateL P call = .ok (true, chain) →
    VouchedBy (Good P self call) (self.x509sOf call) chain

/-- If the signature verifies under the certificate that is picked, over the octets that are
chosen, then the serial number is the one that is named, and the octets are those the caller
asks about, or the signature verifies over those too. -/
def Faithful (P : SignaturePrimitives) (self : CCmsSignedObject pf) (call : Call pf) : Prop :=
  ∀ i c subject, Picks call.aSignerInfo.iSignerIdentifier (self.x509sOf call) i c →
    (self.after call).chosen = some subject →
    verifiesL P call.aSignerInfo c.val subject = .ok true →
      call.aSignerInfo.iSignerIdentifier.SameNumber c.val ∧
        (self.asked call = some subject ∨ ∃ other, self.asked call = some other ∧
          verifiesL P call.aSignerInfo c.val other = .ok true)

theorem good_tableFree : TableFree (Good P self call) := by
  intro c table h
  refine ⟨?_, h.verified⟩
  have hnamed := h.named
  cases hid : call.aSignerInfo.iSignerIdentifier with
  | EIssuerAndSerialNumber name =>
      rw [hid] at hnamed
      exact ⟨hnamed.issuer, hnamed.serialNumber⟩
  | ESubjectKeyIdentifier keyId =>
      rw [hid] at hnamed
      exact hnamed

/-- A call that returns true, by the certificate it picks. -/
theorem validateL_eq_true {chain : Bytes} : self.validateL P call = .ok (true, chain) ↔
    ∃ i c subject, Picks call.aSignerInfo.iSignerIdentifier (self.x509sOf call) i c ∧
      (self.after call).chosen = some subject ∧
      verifiesL P call.aSignerInfo c.val subject = .ok true ∧
      chain = chainOf (self.x509sOf call) i c := by
  have hbody : self.validateL P call =
      (self.after call).validateSignerInLC P call.aSignerInfo (self.certificatesOf call) := by
    have hcertificates : (self.after call).iCertificates = self.iCertificates := by
      unfold after setContentData setHash
      rcases call.supplied with _ | _ | _ <;> rfl
    unfold validateL certificatesOf validateSignerLC validateSignerWithLC
    cases call.aCertificates with
    | none => simp only [hcertificates]
    | some aCertificates => rfl
  rw [hbody, validateSignerInLC_eq_ok]
  constructor
  · intro h
    obtain ⟨i, c, hpick, hvalid, hchain⟩ := h
    obtain ⟨subject, hchosen, hverified⟩ := validateSignatureL_eq_true.mp hvalid
    exact ⟨i, c, subject, hpick, hchosen, hverified, hchain⟩
  · intro h
    obtain ⟨i, c, subject, hpick, hchosen, hverified, hchain⟩ := h
    exact ⟨i, c, hpick, validateSignatureL_eq_true.mpr ⟨subject, hchosen, hverified⟩, hchain⟩

/-- **A call vouches for the right things if and only if it is faithful.** -/
theorem vouches_iff : self.Vouches P call ↔ self.Faithful P call := by
  constructor
  · intro h i c subject hpick hchosen hverified
    have htrue := validateL_eq_true.mpr ⟨i, c, subject, hpick, hchosen, hverified, rfl⟩
    have hgood := (vouchedBy_chainOf good_tableFree hpick.at').mp (h _ htrue)
    obtain ⟨other, hasked, hother⟩ := hgood.verified
    exact ⟨(CCmsSignerIdentifier.names_iff hpick.taken).mp hgood.named,
      .inr ⟨other, hasked, hother⟩⟩
  · intro h chain htrue
    obtain ⟨i, c, subject, hpick, hchosen, hverified, rfl⟩ := validateL_eq_true.mp htrue
    obtain ⟨hnumber, hasked⟩ := h i c subject hpick hchosen hverified
    refine (vouchedBy_chainOf good_tableFree hpick.at').mpr
      ⟨(CCmsSignerIdentifier.names_iff hpick.taken).mpr hnumber, ?_⟩
    rcases hasked with hasked | ⟨other, hasked, hother⟩
    · exact ⟨subject, hasked, hverified⟩
    · exact ⟨other, hasked, hother⟩

end CCmsSignedObject

/-! ### PKCS#7 -/

namespace CPKCS7SignedObject

variable {pf : Platform} {P : SignaturePrimitives} {self : CPKCS7SignedObject pf}
  {aSignerInfo : CPKCS7SignerInfo}

/-- Whether a certificate has the issuer that a signer info names. -/
def issuedL (pf : Platform) (aSignerInfo : CPKCS7SignerInfo) (c : CX509Certificate) :
    Leaving Bool :=
  c.iIssuerName.exactMatchL pf aSignerInfo.iIssuerAndSerialNumber.iIssuerName

/-- The walk gets past a certificate. -/
def Passed (P : SignaturePrimitives) (self : CPKCS7SignedObject pf)
    (aSignerInfo : CPKCS7SignerInfo) (c : CX509Certificate) : Prop :=
  issuedL pf aSignerInfo c = .ok false ∨
    issuedL pf aSignerInfo c = .ok true ∧
      ∃ valid, self.validateSignatureL P aSignerInfo c = .ok valid

/-- The last certificate of a list that has the issuer. -/
structure Picks (P : SignaturePrimitives) (object : CPKCS7SignedObject pf)
    (aSignerInfo : CPKCS7SignerInfo) (certs : List (DecodedCertificate pf)) (i : Nat)
    (c : DecodedCertificate pf) : Prop where
  at' : certs[i]? = some c
  issued : issuedL pf aSignerInfo c.val = .ok true
  passed : ∀ j < i, ∀ d, certs[j]? = some d → Passed P object aSignerInfo d.val
  last : ∀ j > i, ∀ d, certs[j]? = some d → issuedL pf aSignerInfo d.val = .ok false

section

variable {certs : List (DecodedCertificate pf)} {i n : Nat} {c d : DecodedCertificate pf}
  {s t : EndEntity}

theorem picks_zero : Picks P self aSignerInfo (c :: certs) 0 d ↔
    d = c ∧ issuedL pf aSignerInfo c.val = .ok true ∧
      ∀ e ∈ certs, issuedL pf aSignerInfo e.val = .ok false := by
  constructor
  · intro h
    have hat := h.at'
    simp only [getElem?_cons_zero, Option.some.injEq] at hat
    refine ⟨hat.symm, hat ▸ h.issued, ?_⟩
    intro e he
    obtain ⟨j, hj⟩ := getElem?_of_mem he
    exact h.last (j + 1) (succ_pos j) e (by simpa using hj)
  · intro h
    obtain ⟨rfl, hissued, hnone⟩ := h
    refine ⟨rfl, hissued, fun j hj => absurd hj (Nat.not_lt_zero j), ?_⟩
    intro j hj e he
    cases j with
    | zero => exact absurd hj (Nat.lt_irrefl 0)
    | succ j => exact hnone e (mem_of_getElem? (by simpa using he))

theorem picks_succ : Picks P self aSignerInfo (c :: certs) (i + 1) d ↔
    Passed P self aSignerInfo c.val ∧ Picks P self aSignerInfo certs i d := by
  constructor
  · intro h
    refine ⟨h.passed 0 (succ_pos i) c rfl, by simpa using h.at', h.issued, ?_, ?_⟩
    · intro j hj e he
      exact h.passed (j + 1) (succ_lt_succ hj) e (by simpa using he)
    · intro j hj e he
      exact h.last (j + 1) (succ_lt_succ hj) e (by simpa using he)
  · intro h
    obtain ⟨hpassed, h⟩ := h
    refine ⟨by simpa using h.at', h.issued, ?_, ?_⟩
    · intro j hj e he
      cases j with
      | zero =>
        simp only [getElem?_cons_zero, Option.some.injEq] at he
        exact he ▸ hpassed
      | succ j => exact h.passed j (lt_of_succ_lt_succ hj) e (by simpa using he)
    · intro j hj e he
      cases j with
      | zero => exact absurd hj (Nat.not_lt_zero _)
      | succ j => exact h.last j (lt_of_succ_lt_succ hj) e (by simpa using he)

/-- What the walk over a list ends with, started at `s`. -/
def Ends (P : SignaturePrimitives) (self : CPKCS7SignedObject pf) (aSignerInfo : CPKCS7SignerInfo)
    (certs : List (DecodedCertificate pf)) (n : Nat) (s t : EndEntity) : Prop :=
  ((∀ e ∈ certs, issuedL pf aSignerInfo e.val = .ok false) ∧
    t = { s with endEncodingSize :=
      s.endEncodingSize + (joined (encodingsOf (certs.map some))).length }) ∨
  ∃ i c valid, Picks P self aSignerInfo certs i c ∧
    self.validateSignatureL P aSignerInfo c.val = .ok valid ∧
    t = ⟨(n + i : Nat), s.endEncodingSize + (joined (encodingsOf (certs.map some))).length,
      c.val.iEncoding, valid⟩

theorem count_cons : s.endEncodingSize + (joined (encodingsOf ((c :: certs).map some))).length =
    (s.count c.val.iEncoding).endEncodingSize +
      (joined (encodingsOf (certs.map some))).length := by
  simp [encodingsOf, EndEntity.count, Nat.add_assoc]

/-- A certificate of another issuer. -/
theorem ends_other (hother : issuedL pf aSignerInfo c.val = .ok false) :
    Ends P self aSignerInfo (c :: certs) n s t ↔
      Ends P self aSignerInfo certs (n + 1) (s.count c.val.iEncoding) t := by
  unfold Ends
  rw [forall_mem_cons, and_iff_right hother, count_cons]
  refine or_congr Iff.rfl ⟨fun h => ?_, fun h => ?_⟩
  · obtain ⟨i, d, valid, hpick, hvalid, rfl⟩ := h
    cases i with
    | zero => exact absurd (hother.symm.trans (picks_zero.mp hpick).2.1) (by simp)
    | succ i =>
      refine ⟨i, d, valid, (picks_succ.mp hpick).2, hvalid, ?_⟩
      rw [Nat.add_right_comm, Nat.add_assoc]
  · obtain ⟨i, d, valid, hpick, hvalid, rfl⟩ := h
    refine ⟨i + 1, d, valid, picks_succ.mpr ⟨.inl hother, hpick⟩, hvalid, ?_⟩
    rw [Nat.add_right_comm, Nat.add_assoc]

/-- A certificate of the issuer: it is the end entity until there is a later one. -/
theorem ends_issued {valid : Bool} (hissued : issuedL pf aSignerInfo c.val = .ok true)
    (hvalid : self.validateSignatureL P aSignerInfo c.val = .ok valid) :
    Ends P self aSignerInfo (c :: certs) n s t ↔ Ends P self aSignerInfo certs (n + 1)
      ((s.count c.val.iEncoding).found n c.val.iEncoding valid) t := by
  have hsize : ((s.count c.val.iEncoding).found n c.val.iEncoding valid).endEncodingSize =
      (s.count c.val.iEncoding).endEncodingSize := rfl
  unfold Ends
  rw [count_cons, hsize]
  constructor
  · intro h
    rcases h with ⟨hnone, -⟩ | ⟨i, d, valid', hpick, hvalid', rfl⟩
    · exact absurd (hissued.symm.trans (hnone c (mem_cons_self ..))) (by simp)
    · cases i with
      | zero =>
        obtain ⟨rfl, -, hnone⟩ := picks_zero.mp hpick
        obtain rfl : valid = valid' := Except.ok.inj (hvalid.symm.trans hvalid')
        exact .inl ⟨hnone, rfl⟩
      | succ i =>
        refine .inr ⟨i, d, valid', (picks_succ.mp hpick).2, hvalid', ?_⟩
        rw [Nat.add_right_comm, Nat.add_assoc]
  · intro h
    rcases h with ⟨hnone, rfl⟩ | ⟨i, d, valid', hpick, hvalid', rfl⟩
    · exact .inr ⟨0, c, valid, picks_zero.mpr ⟨rfl, hissued, hnone⟩, hvalid, rfl⟩
    · refine .inr ⟨i + 1, d, valid', picks_succ.mpr ⟨.inr ⟨hissued, valid, hvalid⟩, hpick⟩,
        hvalid', ?_⟩
      rw [Nat.add_right_comm, Nat.add_assoc]

/-- A certificate that the walk leaves at. -/
theorem not_ends (hpassed : ¬ Passed P self aSignerInfo c.val) :
    ¬ Ends P self aSignerInfo (c :: certs) n s t := by
  intro h
  rcases h with ⟨hnone, -⟩ | ⟨i, d, valid, hpick, hvalid, -⟩
  · exact hpassed (.inl (hnone c (mem_cons_self ..)))
  · cases i with
    | zero =>
      obtain ⟨rfl, hissued, -⟩ := picks_zero.mp hpick
      exact hpassed (.inr ⟨hissued, valid, hvalid⟩)
    | succ i => exact hpassed (picks_succ.mp hpick).1

/-- **The walk picks the last certificate of the issuer.** -/
theorem searchL_eq_ok :
    self.searchL P aSignerInfo n certs s = .ok t ↔ Ends P self aSignerInfo certs n s t := by
  induction certs generalizing n s with
  | nil =>
      have hno : ∀ i c, ¬ Picks P self aSignerInfo [] i c := fun i c h => by simpa using h.at'
      simp [searchL, Ends, encodingsOf, eq_comm, hno]
  | cons c certs ih =>
      rw [searchL, considerL]
      have hmatch : c.val.iIssuerName.exactMatchL pf
          aSignerInfo.iIssuerAndSerialNumber.iIssuerName = issuedL pf aSignerInfo c.val := rfl
      rw [hmatch]
      cases hissued : issuedL pf aSignerInfo c.val with
      | error e =>
        simp only [leaving_bind_error, reduceCtorEq, false_iff]
        exact not_ends fun h => by simp [Passed, hissued] at h
      | ok issued =>
        cases issued with
        | false =>
          simp only [ok_bind, Bool.false_eq_true, if_false, leaving_pure]
          exact ih.trans (ends_other hissued).symm
        | true =>
          simp only [ok_bind, if_true]
          cases hvalid : self.validateSignatureL P aSignerInfo c.val with
          | error e =>
            simp only [leaving_bind_error, reduceCtorEq, false_iff]
            exact not_ends fun h => by simp [Passed, hissued, hvalid] at h
          | ok valid =>
            simp only [ok_bind, leaving_pure]
            exact ih.trans (ends_issued hissued hvalid).symm

/-! ### PKCS#7: calls -/

/-- What a certificate is that validation may vouch for. -/
structure Good (P : SignaturePrimitives) (object : CPKCS7SignedObject pf)
    (aSignerInfo : CPKCS7SignerInfo) (c : CX509Certificate) : Prop where
  named : aSignerInfo.iIssuerAndSerialNumber.Names pf c
  verified : object.validateSignatureL P aSignerInfo c = .ok true

/-- **The property of a call**: if it returns true, its chain is that of a good certificate. -/
def Vouches (P : SignaturePrimitives) (self : CPKCS7SignedObject pf)
    (aSignerInfo : CPKCS7SignerInfo) : Prop :=
  ∀ chain, self.validateSignerL P aSignerInfo = .ok (true, chain) →
    VouchedBy (Good P self aSignerInfo) (self.iCertificates.map some) chain

/-- If the signature verifies under the certificate that is picked, then that has the serial
number that is named. -/
def Faithful (P : SignaturePrimitives) (self : CPKCS7SignedObject pf)
    (aSignerInfo : CPKCS7SignerInfo) : Prop :=
  ∀ i c, Picks P self aSignerInfo self.iCertificates i c →
    self.validateSignatureL P aSignerInfo c.val = .ok true →
      integerValue c.val.iSerialNumber = integerValue aSignerInfo.iIssuerAndSerialNumber.contents

theorem good_tableFree : TableFree (Good P self aSignerInfo) := by
  intro c table h
  exact ⟨⟨h.named.issuer, h.named.serialNumber⟩, h.verified⟩

/-- What validation returns: the verdict on the certificate that is picked, and its chain. -/
theorem validateSignerL_eq_ok {valid : Bool} {chain : Bytes} :
    self.validateSignerL P aSignerInfo = .ok (valid, chain) ↔
      ∃ i c, Picks P self aSignerInfo self.iCertificates i c ∧
        self.validateSignatureL P aSignerInfo c.val = .ok valid ∧
        chain = chainOf (self.iCertificates.map some) i c := by
  have hencodings : (self.iCertificates.map fun c => some c.val.iEncoding) =
      encodingsOf (self.iCertificates.map some) := by
    unfold encodingsOf
    rw [map_map]
    rfl
  have hat : ∀ {i c}, Picks P self aSignerInfo self.iCertificates i c →
      (self.iCertificates.map some)[i]? = some (some c) := by
    intro i c hpick
    rw [getElem?_map, hpick.at']
    rfl
  unfold validateSignerL
  rw [hencodings, bind_eq_ok]
  constructor
  · intro h
    obtain ⟨t, ht, hchain⟩ := h
    rcases searchL_eq_ok.mp ht with ⟨-, rfl⟩ | ⟨i, c, valid', hpick, hvalid, rfl⟩
    · exact absurd hchain (by simp [chainEncodingL, EndEntity.start])
    · simp only [EndEntity.start, Nat.zero_add] at hchain
      rw [chainEncodingL_chainOf (hat hpick)] at hchain
      cases hchain
      exact ⟨i, c, hpick, hvalid, rfl⟩
  · intro h
    obtain ⟨i, c, hpick, hvalid, rfl⟩ := h
    refine ⟨_, searchL_eq_ok.mpr (.inr ⟨i, c, valid, hpick, hvalid, rfl⟩), ?_⟩
    simp only [EndEntity.start, Nat.zero_add]
    exact chainEncodingL_chainOf (hat hpick) valid

/-- **A call vouches for the right things if and only if it is faithful.** -/
theorem vouches_iff : self.Vouches P aSignerInfo ↔ self.Faithful P aSignerInfo := by
  have hat : ∀ {i c}, Picks P self aSignerInfo self.iCertificates i c →
      (self.iCertificates.map some)[i]? = some (some c) := by
    intro i c hpick
    rw [getElem?_map, hpick.at']
    rfl
  constructor
  · intro h i c hpick hvalid
    have htrue := validateSignerL_eq_ok.mpr ⟨i, c, hpick, hvalid, rfl⟩
    exact ((vouchedBy_chainOf good_tableFree (hat hpick)).mp (h _ htrue)).named.serialNumber
  · intro h chain htrue
    obtain ⟨i, c, hpick, hvalid, rfl⟩ := validateSignerL_eq_ok.mp htrue
    exact (vouchedBy_chainOf good_tableFree (hat hpick)).mpr
      ⟨⟨hpick.issued, h i c hpick hvalid⟩, hvalid⟩

end

end CPKCS7SignedObject

/-! ### Runs -/

/-- **In a run of calls on a CMS object every call vouches for the right things exactly when
every call is faithful to the state it finds, and so for a PKCS#7 object, whose calls leave
nothing behind.** -/
theorem validations_vouch_iff (P : SignaturePrimitives) (pf : Platform) :
    (∀ (object : CCmsSignedObject pf) (calls : List (CCmsSignedObject.Call pf)),
      (∀ before call later, calls = before ++ call :: later →
        (object.afterAll before).Vouches P call) ↔
      ∀ before call later, calls = before ++ call :: later →
        (object.afterAll before).Faithful P call) ∧
    ∀ (object : CPKCS7SignedObject pf) (calls : List CPKCS7SignerInfo),
      (∀ call ∈ calls, object.Vouches P call) ↔ ∀ call ∈ calls, object.Faithful P call := by
  constructor
  · intro object calls
    simp only [CCmsSignedObject.vouches_iff]
  · intro object calls
    simp only [CPKCS7SignedObject.vouches_iff]

/-- Primitives with which some octets are their own digest and their own signature. -/
def plainPrimitives : SignaturePrimitives where
  final := fun _ aData => aData
  DSAParameters := Unit
  DSAPublicKey := Unit
  dsaParametersL := fun _ => .ok ()
  dsaPublicKeyL := fun _ _ => .ok ()
  dsaPublicKeyWithL := fun _ _ => .ok ()
  verifyDSAL := fun _ aSignature aHash => .ok (aSignature = aHash)
  verifyRSAL := fun _ aSignature _ aHash => .ok (aSignature = aHash)

/-- A detached object: a first call supplies the content that was signed, and a second one
that supplies the hash of something else returns true. -/
theorem validations_not_vouching : ¬ ∀ (P : SignaturePrimitives) (pf : Platform)
    (object : CCmsSignedObject pf) (calls : List (CCmsSignedObject.Call pf)) before call later,
    calls = before ++ call :: later → (object.afterAll before).Vouches P call := by
  intro hall
  have hparts : ((CX509Certificate.newL Platform.ascii (CX509Certificate.certificateWith
      CX509Certificate.noExtensions)).toOption.map fun c => (c.iIssuerName, c.iSerialNumber)) =
      some (⟨[]⟩, [1]) := by
    rfl
  cases hnew : CX509Certificate.newL Platform.ascii (CX509Certificate.certificateWith
      CX509Certificate.noExtensions) with
  | error e => rw [hnew] at hparts; cases hparts
  | ok certificate =>
      rw [hnew] at hparts
      simp only [Except.toOption, Option.map_some, Option.some.injEq, Prod.mk.injEq] at hparts
      obtain ⟨hissuer, hserial⟩ := hparts
      let c : DecodedCertificate Platform.ascii :=
        ⟨certificate, CX509Certificate.decoded_of_newL (by decide) hnew⟩
      let info : CCmsSignerInfo := {
        iVersion := 1
        iSignerIdentifier := .EIssuerAndSerialNumber (.construct ⟨[]⟩ [1])
        iDigestAlgorithm := ⟨.ESHA1, []⟩
        iSignedAttributesPresent := false
        iSignatureAlgorithm := ⟨.ERSA, []⟩
        iSignatureValue := [1, 2, 3]
        iUnsignedAttributesPresent := false }
      let object : CCmsSignedObject Platform.ascii :=
        ⟨⟨false, []⟩, [.ECertificateX509 c], [], []⟩
      let first : CCmsSignedObject.Call Platform.ascii := ⟨info, none, some (.content [1, 2, 3])⟩
      let second : CCmsSignedObject.Call Platform.ascii := ⟨info, none, some (.hash [9])⟩
      have hvouches := hall plainPrimitives Platform.ascii object [first, second] [first] second []
        rfl
      have htaken : CCmsSignedObject.matchesL Platform.ascii info.iSignerIdentifier certificate =
          .ok true := by
        show (do
          if ← certificate.iIssuerName.exactMatchL Platform.ascii ⟨[]⟩ then
            return sameSerialNumber certificate.iSerialNumber [1]
          else
            return false) = _
        rw [hissuer, hserial]
        decide
      obtain ⟨-, hasked⟩ := CCmsSignedObject.vouches_iff.mp hvouches 0 c (.data [1, 2, 3])
        ⟨rfl, htaken, fun j hj => absurd hj (Nat.not_lt_zero j)⟩ rfl rfl
      rcases hasked with hasked | ⟨other, hasked, hother⟩
      · cases hasked
      · cases hasked
        cases hother

/-! ### RSA signatures -/

open CPaddingPKCS1Signature TInteger

/-- RSA as `VerifyRSASignatureL` computes it, once the key has been decoded. -/
def SignaturePrimitives.withRSA (P : SignaturePrimitives)
    (modularExponentiateL : TInteger → TInteger → TInteger → TInteger) (key : RsaKey) :
    SignaturePrimitives :=
  { P with
    verifyRSAL := fun _ aSignature digestId aHash => do
      let publicDecryptOutput ←
        CRSAVerifierImpl.inverseSignL modularExponentiateL key (newDesL aSignature)
      CPKCS1SignatureResult.verifyL ⟨digestId, aHash⟩ publicDecryptOutput }

namespace CSignedObject

theorem trapRSA_eq_true {outcome : Leaving Bool} :
    trapRSA outcome = .ok true ↔ outcome = .ok true := by
  unfold trapRSA
  split
  next e => split <;> simp [leave]
  next => rfl

theorem isRSADigest_of_digestOid {d : TAlgorithmId} {oid : Text} (hd : d.digestOid = some oid) :
    isRSADigest d = true := by
  cases d <;> first | rfl | cases hd

variable {P : SignaturePrimitives} {d : TAlgorithmId} {oid : Text} {key : RsaKey}
  {modularExponentiateL : TInteger → TInteger → TInteger → TInteger}

/-- **A signature of a DigestInfo verifies for the data with its digest and for no other.** -/
theorem verifySignatureL_of_signL {digest : Bytes} (hd : d.digestOid = some oid)
    (hkey : Permutes modularExponentiateL ⟨key.n, key.d, key.e⟩)
    (hlen : (derDigestInfo d digest).length ≤ KMaxTInt)
    (hfits : (derDigestInfo d digest).length + MinPaddingLength ≤ key.n.byteCount) :
    ∃ s, CRSASignerImpl.signL modularExponentiateL key (derDigestInfo d digest) = .ok s ∧
      ∀ (self : CSignedObject (P.withRSA modularExponentiateL key)) aEncodedKey data,
        self.iSigningAlgorithm.iAsymmetricAlgorithm.iAlgorithmId = .ERSA →
        self.iSigningAlgorithm.iDigestAlgorithm = ⟨d, []⟩ →
        Der.value self.iSignature = s.magnitude →
        (self.verifySignatureL aEncodedKey (.ok data) = .ok true ↔ P.final d data = digest) := by
  obtain ⟨s, hs, hback⟩ := inverseSignL_of_signL hkey hfits
  refine ⟨s, hs, fun self aEncodedKey data hrsa hdigest hvalue => ?_⟩
  have hder := digestInfoLike_der hd hlen
  unfold verifySignatureL verifyRSASignatureL verifyRSASignatureHashL
  rw [if_neg (by rw [hrsa]; nofun), trapRSA_eq_true, if_neg (not_not_intro hrsa), hdigest,
    if_pos (isRSADigest_of_digestOid hd), ok_bind, if_neg (not_not_intro hrsa)]
  show CRSAVerifierImpl.inverseSignL modularExponentiateL key (newDesL self.iSignature) >>=
    CPKCS1SignatureResult.verifyL ⟨⟨d, []⟩, P.final d data⟩ = .ok true ↔ _
  rw [hback _ (isNegative_newDesL _) ((magnitude_newDesL _).trans hvalue), ok_bind,
    CPKCS1SignatureResult.verifyL_eq_true hd hlen]
  refine ⟨fun hother => digestInfoLike_unique hother hder, fun hsame => ?_⟩
  rw [hsame]
  exact hder

/-- With exponents of one a power is its base. -/
theorem verifySignatureL_of_signL_sha1 :
    let key : RsaKey := ⟨newDesL (replicate 40 255), newDesL [1], newDesL [1]⟩
    ∃ s, CRSASignerImpl.signL (fun x _ _ => x) key (derDigestInfo .ESHA1 [7]) = .ok s ∧
      CSignedObject.verifySignatureL (P := plainPrimitives.withRSA (fun x _ _ => x) key)
        ⟨⟨⟨.ERSA, []⟩, ⟨.ESHA1, []⟩⟩, Der.octets s.magnitude, none⟩ [] (.ok [7]) = .ok true := by
  intro key
  have hkey : Permutes (fun x _ _ => x) key :=
    ⟨rfl, fun _ h hx => ⟨h, hx⟩, fun _ _ _ _ hy hsame => ⟨hy, hsame⟩⟩
  obtain ⟨s, hs, hverify⟩ :=
    @verifySignatureL_of_signL plainPrimitives .ESHA1 _ key _ [7] rfl hkey (by decide) (by decide)
  exact ⟨s, hs, (hverify _ _ _ rfl rfl (Der.value_octets _)).mpr rfl⟩

end CSignedObject

end OsSecurity

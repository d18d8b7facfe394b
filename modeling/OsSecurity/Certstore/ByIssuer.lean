/-
What a listing by issuer does to the caller's array.

The array that the walk starts from is the same however the stores answer: what the caller had
and each store's own report, each thinned by the key checks of the stores after it.  From there
the entries kept so far and the entries ahead that the code retains are the same list
throughout, across every retrieval (`Account`).

That list is the caller's entries and the matching reports exactly under the three conditions of
`Exact`, of which the first is about entries that the listing should not have looked at: the
walk starts at the beginning of the array, not where the listing began to add to it.
-/
import OsSecurity.Certstore.Attempts
import OsSecurity.Certstore.Listing
import OsSecurity.Library.IndexedLists

namespace OsSecurity

open CX500DistinguishedName Commands Ends IndexedLists List Transitions

variable {x : ArrayEntry}

namespace Certstore

/-! ### What a listing is to return -/

/-- The hashes that the code makes of the names. -/
def hashesOf (hash : Bytes → Bytes) : Bytes → List Bytes → List Bytes
  | _, [] => []
  | aFed, name :: names => hash (aFed ++ name) :: hashesOf hash (aFed ++ name) names

namespace ListedStore

/-- The checked store has gone through the whole array. -/
def ChecksKeys (aFilter : CCertAttributeFilter) (s : ListedStore) : Prop :=
  aFilter.iKeyUsage ≠ EX509UsageAll ∧ aFilter.iOwnerTypeIsSet ∧
    aFilter.iOwnerType = EUserCertificate ∧ ¬ fails s.listed ∧ ¬ s.created < 0 ∧
      ¬ fails s.initialized ∧ ¬ fails s.keysListed

instance (aFilter : CCertAttributeFilter) (s : ListedStore) : Decidable (s.ChecksKeys aFilter) :=
  inferInstanceAs (Decidable (_ ∧ _))

/-- An entry that was in the array is still there. -/
def keeps (aFilter : CCertAttributeFilter) (s : ListedStore) (info : CCTCertInfo) : Bool :=
  !decide (s.ChecksKeys aFilter) || s.hasKey info

/-- The entries that the store reports for the filter. -/
def reported (aFilter : CCertAttributeFilter) (s : ListedStore) : List ArrayEntry :=
  (s.list aFilter []).2

theorem list_checked {aFilter : CCertAttributeFilter} {s : ListedStore}
    (h : s.ChecksKeys aFilter) (aCerts : List ArrayEntry) :
    (s.list aFilter aCerts).2 = s.buildCheckedCertificateList (aCerts ++ s.added) := by
  obtain ⟨husage, hset, howner, hlisted, hcreated, hinit, hkeys⟩ := h
  simp [list, husage, hset, howner, hlisted, hcreated, hinit, hkeys]

/-- Where nothing is checked, the array only grows. -/
theorem list_unchecked {aFilter : CCertAttributeFilter} {s : ListedStore}
    (h : ¬ s.ChecksKeys aFilter) : ∃ es, ∀ aCerts, (s.list aFilter aCerts).2 = aCerts ++ es := by
  by_cases hno : aFilter.iKeyUsage ≠ EX509UsageAll ∧
      (¬ aFilter.iOwnerTypeIsSet ∨ aFilter.iOwnerType ≠ EUserCertificate)
  · refine ⟨[], fun aCerts => ?_⟩
    unfold list
    rw [if_pos hno, append_nil]
  · refine ⟨s.added, fun aCerts => ?_⟩
    unfold list
    rw [if_neg hno]
    unfold ChecksKeys at h
    grind

theorem list_eq (aFilter : CCertAttributeFilter) (s : ListedStore) (aCerts : List ArrayEntry) :
    (s.list aFilter aCerts).2 =
      (aCerts.filter fun x => s.keeps aFilter x.info) ++ s.reported aFilter := by
  unfold reported
  by_cases h : s.ChecksKeys aFilter
  · rw [list_checked h, list_checked h]
    simp [buildCheckedCertificateList, keeps, h]
  · obtain ⟨es, hes⟩ := list_unchecked h
    rw [hes, hes]
    simp [keeps, h]

theorem reported_wasThere (aFilter : CCertAttributeFilter) (s : ListedStore) :
    ∀ x ∈ s.reported aFilter, x.wasThere = false := by
  intro x hx
  have hadded : x ∈ s.added := by
    revert hx
    unfold reported list buildCheckedCertificateList
    grind
  obtain ⟨info, -, rfl⟩ := mem_map.mp hadded
  rfl

end ListedStore

namespace ListPlatform

variable (p : ListPlatform) (aIssuers : List Bytes)

/-- A name that was parsed is `aName`. -/
def isNamed (aName : CX500DistinguishedName) : Leaving CX500DistinguishedName → Bool
  | .ok dn => decide (aName.exactMatchL p.pf dn = .ok true)
  | .error _ => false

/-- A certificate that was parsed was issued by one of the names. -/
def isIssuedBy : Leaving CX509Certificate → Bool
  | .ok cert => aIssuers.any fun name =>
      p.isNamed cert.iIssuerName (CX500DistinguishedName.newL name)
  | .error _ => false

/-- The distinguished name of the retrieved certificate is one of the names. -/
def matchesName (info : CCTCertInfo) : Bool :=
  p.isIssuedBy aIssuers (CX509Certificate.newL p.pf (p.retrieve info).2)

/-- The entry is of a URL or of a hardware token, and comes with the hash of its issuer. -/
def comparedByHash (info : CCTCertInfo) : Bool :=
  info.iIssuerHash.isSome &&
    (info.iCertificateFormat = EX509CertificateUrl || Listing.isHardware p info)

def matchesWith (hashes : List Bytes) (info : CCTCertInfo) : Bool :=
  if p.comparedByHash info then hashes.any fun h => info.iIssuerHash = some h
  else info.iCertificateFormat = EX509Certificate && p.matchesName aIssuers info

/-- The issuer is one of the names. -/
def issuerMatches (info : CCTCertInfo) : Bool :=
  p.matchesWith aIssuers (aIssuers.map p.hash) info

/-- What the walk does not remove. -/
def retains (info : CCTCertInfo) : Bool :=
  p.matchesWith aIssuers (hashesOf p.hash [] aIssuers) info

/-- The array after the listings of `stores`. -/
def listedBy (stores : List ListedStore) (aCerts : List ArrayEntry) : List ArrayEntry :=
  stores.foldl (fun a s => (s.list p.filter a).2) aCerts

/-- The entries that the stores report for the filter, in store order. -/
def reported : List ArrayEntry := p.iCertStores.flatMap fun s => s.reported p.filter

/-- The entries that the caller had. -/
def theirs (aCertInfos : List CCTCertInfo) : List ArrayEntry :=
  aCertInfos.map fun info => { info, wasThere := true }

/-- The caller's entries, then the matching ones of the stores. -/
def expected (aCertInfos : List CCTCertInfo) : List ArrayEntry :=
  theirs aCertInfos ++ p.reported.filter fun x => p.issuerMatches aIssuers x.info

/-- What the code leaves in the array. -/
def left (aCertInfos : List CCTCertInfo) : List ArrayEntry :=
  if p.iCertStores = [] then theirs aCertInfos
  else (p.listedBy p.iCertStores (theirs aCertInfos)).filter fun x => p.retains aIssuers x.info

/-! ### Where that is what is expected -/

variable {p} {aIssuers}

theorem listedBy_append (stores : List ListedStore) (A B : List ArrayEntry) :
    p.listedBy stores (A ++ B) =
      (A.filter fun x => stores.all fun s => s.keeps p.filter x.info) ++ p.listedBy stores B := by
  induction stores generalizing A B with
  | nil => simp [listedBy]
  | cons s stores ih =>
      have hstep : ∀ C, p.listedBy (s :: stores) C = p.listedBy stores
          ((C.filter fun x => s.keeps p.filter x.info) ++ s.reported p.filter) := by
        intro C
        change p.listedBy stores (s.list p.filter C).2 = _
        rw [ListedStore.list_eq]
      rw [hstep, hstep, filter_append, List.append_assoc, ih, filter_filter]
      congr 1
      apply filter_congr
      intro x _
      rw [all_cons, Bool.and_comm]

theorem listedBy_eq (stores : List ListedStore) (A : List ArrayEntry) :
    p.listedBy stores A =
      (A.filter fun x => stores.all fun s => s.keeps p.filter x.info) ++ p.listedBy stores [] := by
  have h := listedBy_append (p := p) stores A []
  rwa [append_nil] at h

theorem listedBy_cons (s : ListedStore) (stores : List ListedStore) :
    p.listedBy (s :: stores) [] =
      ((s.reported p.filter).filter fun x => stores.all fun s => s.keeps p.filter x.info) ++
        p.listedBy stores [] := by
  change p.listedBy stores (s.reported p.filter) = _
  exact listedBy_eq stores _

/-- What is left of the reports is a part of them. -/
theorem listedBy_sublist (stores : List ListedStore) :
    (p.listedBy stores []).Sublist (stores.flatMap fun s => s.reported p.filter) := by
  induction stores with
  | nil => exact .slnil
  | cons s stores ih =>
      rw [listedBy_cons, flatMap_cons]
      exact (filter_sublist).append ih

/-- No entry that is asked for is lost to the key check of a later store. -/
def NoneLost (p : ListPlatform) (aIssuers : List Bytes) (stores : List ListedStore) : Prop :=
  stores.Pairwise fun s later => ∀ x ∈ s.reported p.filter,
    p.issuerMatches aIssuers x.info = true → later.keeps p.filter x.info = true

theorem append_eq_of_sublist {α : Type} {a a' b b' : List α} (ha : a.Sublist a')
    (hb : b.Sublist b') : a ++ b = a' ++ b' ↔ a = a' ∧ b = b' := by
  constructor
  · intro h
    have hlength := congrArg List.length h
    simp only [length_append] at hlength
    have hale := ha.length_le
    have hble := hb.length_le
    exact ⟨ha.eq_of_length (by omega), hb.eq_of_length (by omega)⟩
  · rintro ⟨rfl, rfl⟩
    rfl

theorem filter_eq_filter_iff {α : Type} {xs : List α} {f g : α → Bool} :
    xs.filter f = xs.filter g ↔ ∀ x ∈ xs, f x = true ↔ g x = true := by
  constructor
  · intro h x hx
    have hmem : x ∈ xs.filter f ↔ x ∈ xs.filter g := by rw [h]
    simpa [mem_filter, hx] using hmem
  · intro h
    refine filter_congr fun x hx => ?_
    exact Bool.eq_iff_iff.mpr (h x hx)

theorem noneLost_iff (stores : List ListedStore) :
    (p.listedBy stores []).filter (fun x => p.issuerMatches aIssuers x.info) =
        (stores.flatMap fun s => s.reported p.filter).filter
          (fun x => p.issuerMatches aIssuers x.info) ↔
      NoneLost p aIssuers stores := by
  induction stores with
  | nil => simp [NoneLost, listedBy]
  | cons s stores ih =>
      rw [listedBy_cons, flatMap_cons, filter_append, filter_append]
      rw [append_eq_of_sublist (filter_sublist.filter _) ((listedBy_sublist stores).filter _)]
      rw [ih, NoneLost, NoneLost, pairwise_cons, filter_filter]
      refine and_congr_left fun _ => ?_
      rw [filter_eq_filter_iff]
      simp only [Bool.and_eq_true, all_eq_true]
      constructor
      · intro h later hlater x hx hmatch
        exact ((h x hx).mpr hmatch).2 later hlater
      · intro h x hx
        exact ⟨fun hboth => hboth.1, fun hmatch => ⟨hmatch, fun later hlater =>
          h later hlater x hx hmatch⟩⟩

/-- When the listing returns what it should. -/
structure Exact (p : ListPlatform) (aCertInfos : List CCTCertInfo) (aIssuers : List Bytes) :
    Prop where
  /-- what the caller had is retained like a listed entry, by the walk and by every key check -/
  theirs : ∀ info ∈ aCertInfos, p.retains aIssuers info = true ∧
    ∀ s ∈ p.iCertStores, s.keeps p.filter info = true
  noneLost : NoneLost p aIssuers p.iCertStores
  /-- the hashes of the names so far find the same entries as the hashes of the names -/
  hashes : ∀ x ∈ p.listedBy p.iCertStores [], p.comparedByHash x.info = true →
    ∀ h, x.info.iIssuerHash = some h →
      (h ∈ hashesOf p.hash [] aIssuers ↔ h ∈ aIssuers.map p.hash)

theorem matchesWith_hash {hashes : List Bytes} {info : CCTCertInfo} {h : Bytes}
    (hcompared : p.comparedByHash info = true) (hh : info.iIssuerHash = some h) :
    p.matchesWith aIssuers hashes info = true ↔ h ∈ hashes := by
  unfold matchesWith
  rw [if_pos hcompared, hh]
  simp

theorem retains_iff_issuerMatches (info : CCTCertInfo) :
    (p.retains aIssuers info = true ↔ p.issuerMatches aIssuers info = true) ↔
      (p.comparedByHash info = true → ∀ h, info.iIssuerHash = some h →
        (h ∈ hashesOf p.hash [] aIssuers ↔ h ∈ aIssuers.map p.hash)) := by
  cases hcompared : p.comparedByHash info with
  | false =>
      have hsame : p.retains aIssuers info = p.issuerMatches aIssuers info := by
        unfold retains issuerMatches matchesWith
        rw [hcompared]
        rfl
      simp [hsame]
  | true =>
      have hsome : ∃ h, info.iIssuerHash = some h := by
        unfold comparedByHash at hcompared
        exact Option.isSome_iff_exists.mp (Bool.and_eq_true_iff.mp hcompared).1
      obtain ⟨h, hh⟩ := hsome
      unfold retains issuerMatches
      rw [matchesWith_hash hcompared hh, matchesWith_hash hcompared hh]
      constructor
      · intro hiff _ k hk
        obtain rfl := Option.some.inj (hh.symm.trans hk)
        exact hiff
      · intro hall
        exact hall rfl h hh

theorem reported_wasThere {stores : List ListedStore}
    (hx : x ∈ stores.flatMap fun s => s.reported p.filter) : x.wasThere = false := by
  obtain ⟨s, -, hs⟩ := mem_flatMap.mp hx
  exact s.reported_wasThere p.filter x hs

theorem filter_wasThere {a b : List ArrayEntry} (ha : ∀ x ∈ a, x.wasThere = true)
    (hb : ∀ x ∈ b, x.wasThere = false) :
    (a ++ b).filter (fun x => x.wasThere) = a ∧ (a ++ b).filter (fun x => !x.wasThere) = b := by
  have hnone : b.filter (fun x => x.wasThere) = [] :=
    filter_eq_nil_iff.mpr fun x hx => by simp [hb x hx]
  have hnone' : a.filter (fun x => !x.wasThere) = [] :=
    filter_eq_nil_iff.mpr fun x hx => by simp [ha x hx]
  have hall : b.filter (fun x => !x.wasThere) = b :=
    filter_eq_self.mpr fun x hx => by simp [hb x hx]
  constructor
  · rw [filter_append, filter_eq_self.mpr ha, hnone, append_nil]
  · rw [filter_append, hnone', hall, nil_append]

/-- Entries that were there and entries that were not do not mix. -/
theorem append_eq_by_wasThere {a a' b b' : List ArrayEntry} (ha : ∀ x ∈ a, x.wasThere = true)
    (ha' : ∀ x ∈ a', x.wasThere = true) (hb : ∀ x ∈ b, x.wasThere = false)
    (hb' : ∀ x ∈ b', x.wasThere = false) : a ++ b = a' ++ b' ↔ a = a' ∧ b = b' := by
  constructor
  · intro h
    have hleft := filter_wasThere ha hb
    rw [h] at hleft
    have hright := filter_wasThere ha' hb'
    exact ⟨hleft.1.symm.trans hright.1, hleft.2.symm.trans hright.2⟩
  · rintro ⟨rfl, rfl⟩
    rfl

/-- What is left of the reports is what matches. -/
theorem reports_iff (stores : List ListedStore) :
    (p.listedBy stores []).filter (fun x => p.retains aIssuers x.info) =
        (stores.flatMap fun s => s.reported p.filter).filter
          (fun x => p.issuerMatches aIssuers x.info) ↔
      NoneLost p aIssuers stores ∧ ∀ x ∈ p.listedBy stores [],
        (p.retains aIssuers x.info = true ↔ p.issuerMatches aIssuers x.info = true) := by
  constructor
  · intro h
    have hsame : ∀ x ∈ p.listedBy stores [],
        (p.retains aIssuers x.info = true ↔ p.issuerMatches aIssuers x.info = true) := by
      intro x hx
      constructor
      · intro hretains
        have hmem : x ∈ (p.listedBy stores []).filter fun x => p.retains aIssuers x.info :=
          mem_filter.mpr ⟨hx, hretains⟩
        rw [h] at hmem
        exact (mem_filter.mp hmem).2
      · intro hmatch
        have hmem : x ∈ (stores.flatMap fun s => s.reported p.filter).filter
            fun x => p.issuerMatches aIssuers x.info :=
          mem_filter.mpr ⟨(listedBy_sublist stores).subset hx, hmatch⟩
        rw [← h] at hmem
        exact (mem_filter.mp hmem).2
    refine ⟨?_, hsame⟩
    rw [← noneLost_iff, ← h]
    exact (filter_eq_filter_iff.mpr hsame).symm
  · rintro ⟨hlost, hsame⟩
    rw [filter_eq_filter_iff.mpr hsame]
    exact (noneLost_iff stores).mpr hlost

theorem left_eq_expected_iff (aCertInfos : List CCTCertInfo) :
    p.left aIssuers aCertInfos = p.expected aIssuers aCertInfos ↔
      p.iCertStores = [] ∨ Exact p aCertInfos aIssuers := by
  unfold left expected reported
  by_cases hnone : p.iCertStores = []
  · simp [hnone]
  · rw [if_neg hnone, listedBy_eq, filter_append, filter_filter]
    have htheirs : ∀ x ∈ theirs aCertInfos, x.wasThere = true := by
      intro x hx
      obtain ⟨info, -, rfl⟩ := mem_map.mp hx
      rfl
    rw [append_eq_by_wasThere (fun x hx => htheirs x (mem_filter.mp hx).1) htheirs
      (fun x hx => reported_wasThere ((listedBy_sublist _).subset (mem_filter.mp hx).1))
      (fun x hx => reported_wasThere (mem_filter.mp hx).1), reports_iff, filter_eq_self]
    simp only [retains_iff_issuerMatches]
    have hkept : (∀ x ∈ theirs aCertInfos, (p.retains aIssuers x.info &&
          p.iCertStores.all fun s => s.keeps p.filter x.info) = true) ↔
        ∀ info ∈ aCertInfos, p.retains aIssuers info = true ∧
          ∀ s ∈ p.iCertStores, s.keeps p.filter info = true := by
      simp [theirs]
    rw [hkept]
    constructor
    · intro h
      exact .inr ⟨h.1, h.2.1, h.2.2⟩
    · intro h
      cases h with
      | inl h => exact absurd h hnone
      | inr h => exact ⟨h.theirs, h.noneLost, h.hashes⟩

end ListPlatform

namespace Listing

variable {p : ListPlatform} {aCertInfos : List CCTCertInfo} {aIssuers : List Bytes}
  {l t : Listing}

/-! ### The names, the comparison and the walk -/

/-- The names are parsed and hashed. -/
structure Named (p : ListPlatform) (aIssuers : List Bytes) (l : Listing) : Prop where
  names : l.iIssuerNames = aIssuers
  parsed : Forall₂ (fun name dn => CX500DistinguishedName.newL name = .ok dn) aIssuers
    l.iParsedIssuerNames
  hashed : l.iHashedIssuerNames = hashesOf p.hash [] aIssuers

/-- What each answer of `CompareCertInfoDN` says about an entry. -/
def Compared (p : ListPlatform) (aIssuers : List Bytes) (info : CCTCertInfo) :
    TCompareResults → Prop
  | .EYes => p.retains aIssuers info = true
  | .ENo => p.retains aIssuers info = false
  | .EMaybe => p.retains aIssuers info = p.matchesName aIssuers info

theorem compareCertInfoDN_spec (h : Named p aIssuers l) (info : CCTCertInfo) :
    Compared p aIssuers info (compareCertInfoDN p l info) := by
  unfold compareCertInfoDN
  cases hhash : info.iIssuerHash with
  | none =>
      have hcompared : p.comparedByHash info = false := by simp [ListPlatform.comparedByHash, hhash]
      dsimp only
      split
      · rename_i hformat
        simp [Compared, ListPlatform.retains, ListPlatform.matchesWith, hcompared, hformat]
      · rename_i hformat
        simp [Compared, ListPlatform.retains, ListPlatform.matchesWith, hcompared,
          not_not.mp hformat]
  | some aHash =>
      dsimp only
      split
      · rename_i hby
        have hcompared : p.comparedByHash info = true := by
          simp [ListPlatform.comparedByHash, hhash, hby]
        have hmem : p.matchesWith aIssuers (hashesOf p.hash [] aIssuers) info = true ↔
            aHash ∈ hashesOf p.hash [] aIssuers := ListPlatform.matchesWith_hash hcompared hhash
        rw [h.hashed]
        split
        · rename_i hany
          exact hmem.mpr (by simpa using hany)
        · rename_i hany
          refine Bool.eq_false_iff.mpr fun hretains => hany ?_
          simpa using hmem.mp hretains
      · rename_i hby
        have hcompared : p.comparedByHash info = false := by
          simpa [ListPlatform.comparedByHash, hhash] using hby
        split
        · rename_i hformat
          simp [Compared, ListPlatform.retains, ListPlatform.matchesWith, hcompared, hformat]
        · rename_i hformat
          simp [Compared, ListPlatform.retains, ListPlatform.matchesWith, hcompared,
            not_not.mp hformat]

/-- The walk keeps what it has passed and the retained entries ahead; it stops at an entry that
only its certificate can tell about. -/
theorem walk_spec (h : Named p aIssuers l) (kept rest : List ArrayEntry) :
    (walk p l kept rest).kept ++
        (walk p l kept rest).rest.filter (fun x => p.retains aIssuers x.info) =
      kept ++ rest.filter (fun x => p.retains aIssuers x.info) ∧
    ∀ x ys, (walk p l kept rest).rest = x :: ys →
      p.retains aIssuers x.info = p.matchesName aIssuers x.info := by
  induction rest generalizing kept with
  | nil => exact ⟨rfl, fun x ys hnil => by cases hnil⟩
  | cons x rest ih =>
      have hcompared := compareCertInfoDN_spec h x.info
      unfold walk
      cases hres : compareCertInfoDN p l x.info with
      | EYes =>
        rw [hres] at hcompared
        have hretains : p.retains aIssuers x.info = true := hcompared
        rw [filter_cons_of_pos (p := fun x : ArrayEntry => p.retains aIssuers x.info) hretains]
        have hstep := ih (kept ++ [x])
        rw [List.append_assoc] at hstep
        exact hstep
      | ENo =>
        rw [hres] at hcompared
        have hretains : p.retains aIssuers x.info = false := hcompared
        rw [filter_cons_of_neg (p := fun x : ArrayEntry => p.retains aIssuers x.info)
          (by simp [hretains])]
        exact ih kept
      | EMaybe =>
        rw [hres] at hcompared
        refine ⟨rfl, fun y ys hy => ?_⟩
        obtain ⟨rfl, -⟩ := List.cons.inj hy
        exact hcompared

theorem matchL_spec {aName : CX500DistinguishedName} {dns : List CX500DistinguishedName} {b : Bool}
    (h : Forall₂ (fun name dn => newL name = .ok dn) aIssuers dns)
    (hb : matchL p aName dns = .ok b) :
    b = aIssuers.any fun name => p.isNamed aName (newL name) := by
  induction h with
  | nil =>
      cases hb
      rfl
  | @cons name dn names dns hname _ ih =>
      obtain ⟨r, hr, hrest⟩ := bind_eq_ok.mp hb
      have hnamed : p.isNamed aName (newL name) =
          decide (aName.exactMatchL p.pf dn = .ok true) := by
        rw [hname]
        rfl
      rw [any_cons, hnamed, hr]
      cases r with
      | true =>
        cases hrest
        simp
      | false =>
        rw [← ih hrest]
        simp

/-! ### What one `RunL` does -/

/-- The names are not parsed yet. -/
structure Unparsed (aIssuers : List Bytes) (l : Listing) : Prop where
  names : l.iIssuerNames = aIssuers
  parsed : l.iParsedIssuerNames = []
  hashed : l.iHashedIssuerNames = []

/-- The entries passed and the retained entries ahead are what is to be left. -/
def Account (p : ListPlatform) (aCertInfos : List CCTCertInfo) (aIssuers : List Bytes)
    (l : Listing) : Prop :=
  l.iCertInfos.take l.iCertIndex ++
    (l.iCertInfos.drop l.iCertIndex).filter (fun x => p.retains aIssuers x.info) =
      p.left aIssuers aCertInfos

/-- Past the stores, with the names parsed. -/
structure Walking (p : ListPlatform) (aCertInfos : List CCTCertInfo) (aIssuers : List Bytes)
    (l : Listing) : Prop extends Named p aIssuers l where
  index : p.iCertStores.length ≤ l.iIndex
  account : Account p aCertInfos aIssuers l

/-- At an entry that only its certificate can tell about. -/
structure AtEntry (p : ListPlatform) (aCertInfos : List CCTCertInfo) (aIssuers : List Bytes)
    (l : Listing) (x : ArrayEntry) : Prop extends Walking p aCertInfos aIssuers l where
  entry : l.iCertInfos[l.iCertIndex]? = some x
  maybe : p.retains aIssuers x.info = p.matchesName aIssuers x.info

/-- Where a listing is. -/
inductive Stage (p : ListPlatform) (aCertInfos : List CCTCertInfo) (aIssuers : List Bytes)
    (l : Listing) : Prop
  | listing (k : Nat) (n : Int) (hk : k ≤ p.iCertStores.length) (hstate : l.iState = .EList)
      (hstatus : l.iStatus = .complete n) (hindex : l.iIndex = (k : Int) - 1)
      (harray : l.iCertInfos = p.listedBy (p.iCertStores.take k) (ListPlatform.theirs aCertInfos))
      (hcert : l.iCertIndex = if k = 0 then aCertInfos.length else 0)
      (hnames : Unparsed aIssuers l)
  | asked (k : Nat) (s : ListedStore) (hs : p.iCertStores[k]? = some s) (hstate : l.iState = .EList)
      (hstatus : l.iStatus = .KRequestPending (.list s)) (hindex : l.iIndex = k)
      (harray : l.iCertInfos = p.listedBy (p.iCertStores.take k) (ListPlatform.theirs aCertInfos))
      (hcert : l.iCertIndex = 0) (hnames : Unparsed aIssuers l)
  | walking (n : Int) (hat : Walking p aCertInfos aIssuers l) (hstate : l.iState = .EList)
      (hstatus : l.iStatus = .complete n)
  | asking (x : ArrayEntry) (hat : AtEntry p aCertInfos aIssuers l x)
      (hstate : l.iState = .ERetrieveForList)
      (hstatus : l.iStatus = .KRequestPending (.retrieve x.info))
  | retrieved (x : ArrayEntry) (n : Int) (hat : AtEntry p aCertInfos aIssuers l x)
      (hstate : l.iState = .ERetrieveForList) (hstatus : l.iStatus = .complete n)
      (hdes : l.iCertDesC = (p.retrieve x.info).2)

/-- A listing that is over, or that was left with a code that completes nothing. -/
structure Over (p : ListPlatform) (aCertInfos : List CCTCertInfo) (aIssuers : List Bytes)
    (l : Listing) : Prop where
  inactive : l.iActive = false
  array : l.answered = some KErrNone → l.iCertInfos = p.left aIssuers aCertInfos

/-- What a listing is at any time. -/
def Attempt (p : ListPlatform) (aCertInfos : List CCTCertInfo) (aIssuers : List Bytes)
    (l : Listing) : Prop :=
  (Stage p aCertInfos aIssuers l ∧ l.answered = none) ∨ Over p aCertInfos aIssuers l

/-- While `RunL` is running. -/
structure Running (l : Listing) : Prop where
  unanswered : l.answered = none
  inactive : l.iActive = false

/-- A function on the way, and a listing that it leaves. -/
def Proceeds (p : ListPlatform) (aCertInfos : List CCTCertInfo) (aIssuers : List Bytes)
    (r : Except Exit Unit × Listing) : Prop :=
  Ends (fun _ t => Attempt p aCertInfos aIssuers t) (fun _ t => Running t) r

theorem liftL_ends {α β : Type} {x : Leaving α} {f : α → Lister β} {Q : β → Listing → Prop}
    {E : Exit → Listing → Prop} (hf : ∀ a, x = .ok a → Ends Q E (f a l)) (hE : ∀ e, E e l) :
    Ends Q E ((liftL x >>= f) l) := by
  cases x with
  | ok a => exact hf a rfl
  | error e => exact hE e

/-- What `parseIssuerNamesL` changes. -/
theorem parseIssuerNamesL_ends (hrun : Running l) (aFed : Bytes) (names : List Bytes) :
    Ends (fun _ t => ∃ dns, Forall₂
        (fun name dn => newL name = .ok dn) names dns ∧
        t = { l with
          iParsedIssuerNames := l.iParsedIssuerNames ++ dns
          iHashedIssuerNames := l.iHashedIssuerNames ++ hashesOf p.hash aFed names })
      (fun _ t => Running t) (parseIssuerNamesL p aFed names l) := by
  induction names generalizing l aFed with
  | nil =>
      refine ⟨[], .nil, ?_⟩
      simp [hashesOf]
  | cons name names ih =>
      rw [parseIssuerNamesL]
      generalize hr : newL name = r
      refine liftL_ends (fun dn hdn => then_modify ?_) fun _ => hrun
      have hnext : Running { l with
          iParsedIssuerNames := l.iParsedIssuerNames ++ [dn]
          iHashedIssuerNames := l.iHashedIssuerNames ++ [p.hash (aFed ++ name)] } :=
        ⟨hrun.unanswered, hrun.inactive⟩
      refine (ih hnext (aFed ++ name)).mono (fun _ t ht => ?_) fun _ _ he => he
      obtain ⟨dns, hdns, rfl⟩ := ht
      refine ⟨dn :: dns, .cons (hr.trans hdn) hdns, ?_⟩
      simp [hashesOf, List.append_assoc]

theorem parseOnceL_ends (hrun : Running l) (hnames : Unparsed aIssuers l) :
    Ends (fun _ t => Named p aIssuers t ∧ ∃ dns hashes,
        t = { l with iParsedIssuerNames := dns, iHashedIssuerNames := hashes })
      (fun _ t => Running t) (parseOnceL p l l) := by
  unfold parseOnceL
  rw [if_pos hnames.parsed]
  refine (parseIssuerNamesL_ends hrun [] l.iIssuerNames).mono (fun _ t ht => ?_) fun _ _ he => he
  obtain ⟨dns, hdns, rfl⟩ := ht
  rw [hnames.names] at hdns
  refine ⟨⟨hnames.names, ?_, ?_⟩, _, _, rfl⟩
  · dsimp only
    rw [hnames.parsed]
    exact hdns
  · dsimp only
    rw [hnames.hashed, hnames.names]
    rfl

theorem over_complete {aError : Int} (hrun : Running l)
    (harray : aError = KErrNone → l.iCertInfos = p.left aIssuers aCertInfos) :
    Over p aCertInfos aIssuers (complete aError l) :=
  ⟨hrun.inactive, fun hok => harray (Option.some.inj hok)⟩

theorem retrieveForListL_proceeds (hrun : Running l) (hat : AtEntry p aCertInfos aIssuers l x) :
    Proceeds p aCertInfos aIssuers (retrieveForListL p x.info l) := by
  unfold retrieveForListL
  cases getCertStore p x.info with
  | none => exact hrun
  | some s =>
    refine leaveIfError_ends (fun _ => ?_) fun _ => hrun
    exact .inl ⟨.asking x ⟨⟨⟨hat.names, hat.parsed, hat.hashed⟩, hat.index, hat.account⟩, hat.entry,
      hat.maybe⟩ rfl rfl, hrun.unanswered⟩

theorem walkArrayL_proceeds (hrun : Running l) (hat : Walking p aCertInfos aIssuers l) :
    Proceeds p aCertInfos aIssuers (walkArrayL p l) := by
  obtain ⟨hcount, hstop⟩ := walk_spec hat.toNamed (l.iCertInfos.take l.iCertIndex)
    (l.iCertInfos.drop l.iCertIndex)
  refine then_get (then_modify ?_)
  generalize walk p l (l.iCertInfos.take l.iCertIndex) (l.iCertInfos.drop l.iCertIndex) = w at *
  rcases w with ⟨kept, rest⟩
  have htotal : kept ++ rest.filter (fun x => p.retains aIssuers x.info) =
      p.left aIssuers aCertInfos := hcount.trans hat.account
  have hrunning : Running { l with iCertInfos := kept ++ rest, iCertIndex := kept.length } :=
    ⟨hrun.unanswered, hrun.inactive⟩
  cases rest with
  | nil => exact .inr (over_complete hrunning fun _ => htotal)
  | cons x rest =>
      refine retrieveForListL_proceeds hrunning ⟨⟨⟨hat.names, hat.parsed, hat.hashed⟩, hat.index,
        ?_⟩, ?_, hstop x rest rfl⟩
      · unfold Account
        dsimp only
        rw [take_left, drop_left]
        exact htotal
      · dsimp only
        rw [getElem?_append_right (le_refl _), Nat.sub_self]
        rfl

theorem filterArrayL_proceeds (hne : aIssuers ≠ []) (hrun : Running l)
    (hnames : Unparsed aIssuers l) (hindex : p.iCertStores.length ≤ l.iIndex)
    (haccount : Account p aCertInfos aIssuers l) :
    Proceeds p aCertInfos aIssuers (filterArrayL p l) := by
  refine then_get ?_
  rw [hnames.names, if_pos hne]
  refine Ends.bind (parseOnceL_ends hrun hnames) fun _ t ht => ?_
  obtain ⟨hnamed, dns, hashes, rfl⟩ := ht
  exact walkArrayL_proceeds ⟨hrun.unanswered, hrun.inactive⟩ ⟨hnamed, hindex, haccount⟩

/-- The walk as it comes back from a retrieval. -/
theorem filterArrayL_walking (hne : aIssuers ≠ []) (hrun : Running l)
    (hat : Walking p aCertInfos aIssuers l) :
    Proceeds p aCertInfos aIssuers (filterArrayL p l) := by
  have hparsed : l.iParsedIssuerNames ≠ [] := by
    intro hnil
    have hlength := hat.parsed.length_eq
    rw [hnil] at hlength
    exact hne (length_eq_zero_iff.mp hlength)
  refine then_get ?_
  rw [hat.names, if_pos hne]
  unfold parseOnceL
  rw [if_neg hparsed]
  exact walkArrayL_proceeds hrun hat

/-- Before the walk, where the last listing has put its start. -/
theorem account_start
    (harray : l.iCertInfos = p.listedBy p.iCertStores (ListPlatform.theirs aCertInfos))
    (hcert : l.iCertIndex = if p.iCertStores.length = 0 then aCertInfos.length else 0) :
    Account p aCertInfos aIssuers l := by
  unfold Account ListPlatform.left
  by_cases hnone : p.iCertStores = []
  · have htheirs : l.iCertInfos = ListPlatform.theirs aCertInfos := by
      rw [harray, hnone]
      rfl
    have hlength : (ListPlatform.theirs aCertInfos).length = aCertInfos.length := by
      simp [ListPlatform.theirs]
    rw [hcert, if_pos (by rw [hnone]; rfl), if_pos hnone, htheirs, ← hlength, take_length,
      drop_length, filter_nil, append_nil]
  · have hlength : p.iCertStores.length ≠ 0 := fun h => hnone (length_eq_zero_iff.mp h)
    rw [hcert, if_neg hlength, if_neg hnone, harray, take_zero, drop_zero, nil_append]

theorem runList_listing {k : Nat} (hne : aIssuers ≠ []) (hrun : Running l)
    (hlist : l.iState = .EList) (hk : k ≤ p.iCertStores.length) (hindex : l.iIndex = (k : Int) - 1)
    (harray : l.iCertInfos = p.listedBy (p.iCertStores.take k) (ListPlatform.theirs aCertInfos))
    (hcert : l.iCertIndex = if k = 0 then aCertInfos.length else 0)
    (hnames : Unparsed aIssuers l) : Proceeds p aCertInfos aIssuers (runList p l) := by
  refine then_modify (then_get ?_)
  have hnext : l.iIndex + 1 = k := by omega
  dsimp only
  rw [hnext, Int.toNat_natCast]
  cases hs : p.iCertStores[k]? with
  | some s =>
      exact .inl ⟨.asked k s hs hlist rfl rfl harray rfl
        ⟨hnames.names, hnames.parsed, hnames.hashed⟩, hrun.unanswered⟩
  | none =>
      have hall : k = p.iCertStores.length :=
        le_antisymm hk (List.getElem?_eq_none_iff.mp hs)
      rw [hall, take_length] at harray
      rw [hall] at hcert
      refine filterArrayL_proceeds hne ⟨hrun.unanswered, hrun.inactive⟩
        ⟨hnames.names, hnames.parsed, hnames.hashed⟩ ?_ (account_start harray hcert)
      dsimp only
      omega

theorem runList_walking (hne : aIssuers ≠ []) (hrun : Running l)
    (hat : Walking p aCertInfos aIssuers l) : Proceeds p aCertInfos aIssuers (runList p l) := by
  refine then_modify (then_get ?_)
  have hindex := hat.index
  have hnone : p.iCertStores[(l.iIndex + 1).toNat]? = none :=
    List.getElem?_eq_none_iff.mpr (by omega)
  dsimp only
  rw [hnone]
  exact filterArrayL_walking hne ⟨hrun.unanswered, hrun.inactive⟩
    ⟨⟨hat.names, hat.parsed, hat.hashed⟩, by dsimp only; omega, hat.account⟩

theorem matchesName_of_cert {cert : CX509Certificate} {b : Bool} (hnamed : Named p aIssuers l)
    (hcert : CX509Certificate.newL p.pf (p.retrieve x.info).2 = .ok cert)
    (hb : matchL p cert.iIssuerName l.iParsedIssuerNames = .ok b) :
    p.matchesName aIssuers x.info = b := by
  unfold ListPlatform.matchesName
  rw [hcert]
  exact (matchL_spec hnamed.parsed hb).symm

theorem account_settle {b : Bool} (hat : AtEntry p aCertInfos aIssuers l x)
    (hb : p.retains aIssuers x.info = b) : Account p aCertInfos aIssuers (settle b l) := by
  have haccount := hat.account
  obtain ⟨hlt, hget⟩ := List.getElem?_eq_some_iff.mp hat.entry
  unfold Account at haccount
  rw [drop_eq_getElem_cons hlt, hget] at haccount
  unfold settle
  cases b with
  | true =>
      rw [filter_cons_of_pos (p := fun x : ArrayEntry => p.retains aIssuers x.info) hb]
        at haccount
      unfold Account
      rw [if_pos rfl]
      dsimp only
      rw [take_add_one, hat.entry, List.append_assoc]
      exact haccount
  | false =>
      rw [filter_cons_of_neg (p := fun x : ArrayEntry => p.retains aIssuers x.info)
        (by simp [hb])] at haccount
      unfold Account
      rw [if_neg (by simp)]
      dsimp only
      have hlength : (l.iCertInfos.take l.iCertIndex).length = l.iCertIndex := by
        rw [length_take]
        omega
      rw [eraseIdx_eq_take_drop_succ, take_left' hlength, drop_left' hlength]
      exact haccount

theorem runRetrieveForList_proceeds (hrun : Running l) (hat : AtEntry p aCertInfos aIssuers l x)
    (hdes : l.iCertDesC = (p.retrieve x.info).2) :
    Proceeds p aCertInfos aIssuers (runRetrieveForList p l) := by
  unfold Proceeds runRetrieveForList
  rw [bind_ok (get_apply l)]
  generalize hr : CX509Certificate.newL p.pf l.iCertDesC = r
  refine liftL_ends (fun cert hcert => ?_) fun _ => hrun
  refine liftL_ends (fun b hb => then_modify ?_) fun _ => hrun
  rw [← hr, hdes] at hcert
  have hb' : p.retains aIssuers x.info = b :=
    hat.maybe.trans (matchesName_of_cert hat.toNamed hcert hb)
  have haccount := account_settle hat hb'
  have hsettled : (settle b l).answered = none ∧ Named p aIssuers (settle b l) ∧
      (settle b l).iIndex = l.iIndex := by
    unfold settle
    split
    · exact ⟨hrun.unanswered, ⟨hat.names, hat.parsed, hat.hashed⟩, rfl⟩
    · exact ⟨hrun.unanswered, ⟨hat.names, hat.parsed, hat.hashed⟩, rfl⟩
  obtain ⟨hanswered, hnamed, hindex⟩ := hsettled
  refine .inl ⟨.walking KErrNone ⟨⟨hnamed.names, hnamed.parsed, hnamed.hashed⟩, ?_, haccount⟩ rfl
    rfl, hanswered⟩
  dsimp only
  rw [hindex]
  exact hat.index

/-! ### Runs -/

theorem trapped_attempt {f : Lister Unit} (hf : Proceeds p aCertInfos aIssuers (f l)) :
    Ends (fun _ t => Attempt p aCertInfos aIssuers t) (fun _ _ => True) (trapped f l) := by
  refine tryCatch hf fun e t ht => ?_
  cases e with
  | leave aError =>
      dsimp only
      split
      · refine .inr ⟨ht.inactive, fun hok => ?_⟩
        rw [ht.unanswered] at hok
        cases hok
      · rename_i hne
        exact .inr (over_complete ht fun hok => absurd hok hne)
  | panic => trivial
  | undefined => trivial

theorem runL_EList (hrun : Running l) (hstate : l.iState = .EList)
    (h : Proceeds p aCertInfos aIssuers (runList p l)) :
    Proceeds p aCertInfos aIssuers (runL p l) := by
  unfold Proceeds runL
  rw [bind_ok (get_apply l), hstate]
  exact leaveIfError_ends (fun _ => h) fun _ => hrun

theorem runL_ERetrieveForList (hrun : Running l) (hstate : l.iState = .ERetrieveForList)
    (h : Proceeds p aCertInfos aIssuers (runRetrieveForList p l)) :
    Proceeds p aCertInfos aIssuers (runL p l) := by
  unfold Proceeds runL
  rw [bind_ok (get_apply l), hstate]
  exact leaveIfError_ends (fun _ => h) fun _ => hrun

theorem runL_attempt {n : Int} (hne : aIssuers ≠ []) (h : Stage p aCertInfos aIssuers l)
    (hanswered : l.answered = none) (hstatus : l.iStatus = .complete n) :
    Ends (fun _ t => Attempt p aCertInfos aIssuers t) (fun _ _ => True)
      (trapped (runL p) (stopped l)) := by
  have hrun : Running (stopped l) := ⟨hanswered, rfl⟩
  refine trapped_attempt ?_
  cases h with
  | asked k s hs hstate hpending => cases hpending.symm.trans hstatus
  | asking x hat hstate hpending => cases hpending.symm.trans hstatus
  | listing k n hk hstate _ hindex harray hcert hnames =>
      exact runL_EList hrun hstate (runList_listing hne hrun hstate hk hindex harray hcert
        ⟨hnames.names, hnames.parsed, hnames.hashed⟩)
  | walking n hat hstate =>
      exact runL_EList hrun hstate (runList_walking hne hrun
        ⟨⟨hat.names, hat.parsed, hat.hashed⟩, hat.index, hat.account⟩)
  | retrieved x n hat hstate _ hdes =>
      have hat' : AtEntry p aCertInfos aIssuers (stopped l) x :=
        ⟨⟨⟨hat.names, hat.parsed, hat.hashed⟩, hat.index, hat.account⟩, hat.entry, hat.maybe⟩
      have hdes' : (stopped l).iCertDesC = (p.retrieve x.info).2 := hdes
      exact runL_ERetrieveForList hrun hstate (runRetrieveForList_proceeds hrun hat' hdes')

theorem deliver_attempt {r : ListRequest} (h : Stage p aCertInfos aIssuers l)
    (hanswered : l.answered = none) (hr : l.iStatus = .KRequestPending r) :
    Attempt p aCertInfos aIssuers (deliver p l r) := by
  cases h with
  | listing k n hk hstate hstatus => cases hstatus.symm.trans hr
  | walking n hat hstate hstatus => cases hstatus.symm.trans hr
  | retrieved x n hat hstate hstatus => cases hstatus.symm.trans hr
  | asked k s hs hstate hstatus hindex harray hcert hnames =>
      cases hstatus.symm.trans hr
      obtain ⟨hlt, hget⟩ := List.getElem?_eq_some_iff.mp hs
      refine .inl ⟨.listing (k + 1) _ hlt hstate rfl ?_ ?_ hcert
        ⟨hnames.names, hnames.parsed, hnames.hashed⟩, hanswered⟩
      · change l.iIndex = ((k + 1 : Nat) : Int) - 1
        omega
      · change (s.list p.filter l.iCertInfos).2 = _
        rw [take_add_one, hs, harray, ListPlatform.listedBy, ListPlatform.listedBy, foldl_append]
        rfl
  | asking x hat hstate hstatus =>
      cases hstatus.symm.trans hr
      exact .inl ⟨.retrieved x _ ⟨⟨⟨hat.names, hat.parsed, hat.hashed⟩, hat.index, hat.account⟩,
        hat.entry, hat.maybe⟩ hstate rfl rfl, hanswered⟩

theorem attempt_step {a : Act} (hne : aIssuers ≠ []) (h : Attempt p aCertInfos aIssuers l)
    (hstep : step p l a = some t) : Attempt p aCertInfos aIssuers t := by
  cases h with
  | inr h =>
      have hinactive := h.inactive
      cases a with
      | answer =>
        simp only [step, hinactive] at hstep
        split at hstep
        · cases hstep
        · cases hstep
      | run =>
        simp only [step, hinactive] at hstep
        split at hstep
        · cases hstep
        · cases hstep
      | cancelList =>
        simp only [step, hinactive] at hstep
        cases hstep
        exact .inr h
  | inl h =>
      obtain ⟨hstage, hanswered⟩ := h
      cases a with
      | answer =>
        simp only [step] at hstep
        split at hstep
        · rename_i r hr
          obtain ⟨-, hstep⟩ := Option.ite_none_right_eq_some.mp hstep
          cases hstep
          exact deliver_attempt hstage hanswered hr
        · cases hstep
      | run =>
        simp only [step] at hstep
        split at hstep
        · cases hstep
        · rename_i n hn
          obtain ⟨-, hstep⟩ := Option.ite_none_right_eq_some.mp hstep
          have hends := runL_attempt hne hstage hanswered hn
          revert hends hstep
          rcases trapped (runL p) (stopped l) with ⟨r, u⟩
          cases r with
          | ok _ =>
            intro hstep hends
            cases hstep
            exact hends
          | error e =>
            intro hstep
            cases hstep
      | cancelList =>
        simp only [step] at hstep
        split at hstep
        · cases hstep
          exact .inr (over_complete ⟨hanswered, rfl⟩ fun hok => absurd hok (by decide))
        · cases hstep
          exact .inl ⟨hstage, hanswered⟩

theorem started_attempt (hne : aIssuers ≠ []) (h : Started p aCertInfos aIssuers l) :
    Attempt p aCertInfos aIssuers l := by
  have hends : Ends (fun _ t => Attempt p aCertInfos aIssuers t) (fun _ _ => True)
      (trapped (listL p aIssuers)
        { iCertInfos := aCertInfos.map fun info => { info, wasThere := true }
          iCertIndex := 0
          iIssuerNames := [] }) := by
    refine trapped_attempt ?_
    unfold listL
    rw [if_neg hne]
    refine leaveIfError_ends (fun _ => ?_) fun _ => ⟨rfl, rfl⟩
    refine .inl ⟨.listing 0 KErrNone (Nat.zero_le _) rfl rfl rfl rfl ?_ ⟨rfl, rfl, rfl⟩, rfl⟩
    simp
  unfold Started at h
  revert hends h
  rcases trapped (listL p aIssuers)
    { iCertInfos := aCertInfos.map fun info => { info, wasThere := true }
      iCertIndex := 0
      iIssuerNames := [] } with ⟨r, u⟩
  cases r with
  | ok _ =>
      intro h hends
      cases h
      exact hends
  | error e =>
      intro h
      cases h

/-- However a listing runs, what it leaves in the array when it succeeds. -/
theorem left_of_run (hne : aIssuers ≠ [])
    (h : Reachable (Started p aCertInfos aIssuers) (step p) Anything l)
    (hok : l.answered = some KErrNone) : l.iCertInfos = p.left aIssuers aCertInfos := by
  have hattempt : Attempt p aCertInfos aIssuers l :=
    h.invariant (fun _ hstart => started_attempt hne hstart)
      fun _ _ _ hs _ hstep => attempt_step hne hs hstep
  cases hattempt with
  | inl hrunning =>
      rw [hrunning.2] at hok
      cases hok
  | inr hover => exact hover.array hok

/-- **A listing by issuer that succeeds returns what it should exactly when there is no store, or
the caller's entries pass for listed ones, no later key check takes an entry that matches, and
the hashes of the names run together find what the hashes of the names would.** -/
theorem list_by_issuer (hne : aIssuers ≠ [])
    (h : Reachable (Started p aCertInfos aIssuers) (step p) Anything l)
    (hok : l.answered = some KErrNone) :
    l.iCertInfos = p.expected aIssuers aCertInfos ↔
      p.iCertStores = [] ∨ ListPlatform.Exact p aCertInfos aIssuers := by
  rw [left_of_run hne h hok]
  exact ListPlatform.left_eq_expected_iff aCertInfos

/-- One store, on a software token, that lists `entries`. -/
def oneStore (entries : List CCTCertInfo) : ListPlatform where
  iCertStores :=
    [{ store := { iCertStore :=
         { id := 0
           token := { token := { handle := { iTokenTypeId := 7, iTokenId := 1 }, tokenType := 7 } }
           isWritable := true } }
       entries }]
  iHardwareTypeUids := []
  filter := {}
  hash b :=
    if b = [0x30, 0x00] then
      [0xf9, 0x44, 0xdc, 0xd6, 0x35, 0xf9, 0x80, 0x1f, 0x7a, 0xc9, 0x0a, 0x40, 0x7f, 0xbc, 0x47,
        0x99, 0x64, 0xde, 0xc0, 0x24]
    else []
  pf := .ascii
  allocates _ := KErrNone
  retrieve _ := (KErrNone, [])

/-- A URL of a certificate, with a hash of the name of its issuer or without. -/
def urlEntry (aIssuerHash : Option Bytes) : CCTCertInfo where
  iToken := { handle := { iTokenTypeId := 7, iTokenId := 1 }, tokenType := 7 }
  iCertificateId := 3
  iCertificateFormat := EX509CertificateUrl
  iIssuerHash := aIssuerHash
  iSize := 20

/-- A URL whose issuer has the empty name. -/
def emptyNameEntry : CCTCertInfo := urlEntry (some ((oneStore []).hash [0x30, 0x00]))

theorem list_by_issuer_empty_name :
    ∃ l : Listing, l.iCertInfos.length = 1 ∧
      (l.iCertInfos = (oneStore [emptyNameEntry]).expected [[0x30, 0x00]] [] ↔
        (oneStore [emptyNameEntry]).iCertStores = [] ∨
          ListPlatform.Exact (oneStore [emptyNameEntry]) [] [[0x30, 0x00]]) := by
  have hstart : Reachable (Started (oneStore [emptyNameEntry]) [] [[0x30, 0x00]])
      (step (oneStore [emptyNameEntry])) Anything _ := .start rfl
  have hrun := hstart.run (show run (step (oneStore [emptyNameEntry])) _ [.run, .answer, .run] =
    some _ from rfl)
  exact ⟨_, rfl, list_by_issuer (by decide) hrun rfl⟩

/-- An entry that the caller had, and that no name matches, is gone after a listing that finds
nothing. -/
theorem list_by_issuer_removes :
    ¬ ∀ (p : ListPlatform) (aCertInfos : List CCTCertInfo) (aIssuers : List Bytes) (l : Listing),
      aIssuers ≠ [] → Reachable (Started p aCertInfos aIssuers) (step p) Anything l →
        l.answered = some KErrNone → l.iCertInfos = p.expected aIssuers aCertInfos := by
  intro h
  have hstart : Reachable (Started (oneStore []) [urlEntry none] [[0x30, 0x00]])
      (step (oneStore [])) Anything _ := .start rfl
  have hrun := hstart.run (show run (step (oneStore [])) _ [.run, .answer, .run] = some _ from rfl)
  have harray := h _ _ _ _ (by decide) hrun rfl
  have hlength := congrArg List.length harray
  exact absurd hlength (by decide)

end Listing

end Certstore

end OsSecurity

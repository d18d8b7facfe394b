/-
What a WTLS chain that has been validated without an error is worth.

`Sound` is what a client may want to rely on.  Names, signatures and dates are checked in the
end, whichever way the chain came about.  The root is not: a certificate of the peer whose
modulus hashes to that of a root passes for the root, whatever its exponent, and a root that is
put behind the chain is not asked whether it may sign.  `Rooted` says of what is given to the
validation that neither makes a difference, and a chain that has been validated without an error
is sound exactly then.
-/
import OsSecurity.Wtls.CertChainAO

namespace OsSecurity

open List Transitions

variable {cert : CWTLSCertificate}

namespace CWTLSCertChainAO

section

variable (services : WTLSServices) (store : List StoreRoot)
  (chain clients : List CWTLSCertificate) (time : Int)

/-- The modulus and the exponent. -/
def publicKeyL (cert : CWTLSCertificate) : Leaving (Nat × Nat) := do
  let key ← CWTLSRSAPublicKey.newL cert.iKeyData
  return (key.iN.magnitude, key.iE.magnitude)

def SameKey (cert root : CWTLSCertificate) : Prop :=
  ∃ key, publicKeyL cert = .ok key ∧ publicKeyL root = .ok key

/-- The certificates that the store has roots for. -/
def storeRoots (store : List StoreRoot) : List CWTLSCertificate :=
  store.filterMap fun root => ((CWTLSCertificate.newL root.encoding).toOption).map (·.1)

/-- Self-signed or marked as a CA. -/
def MaySign (cert : CWTLSCertificate) : Prop :=
  cert.isSelfSignedL = true ∨ cert.isTCAL services.convertToUnicodeFromUtf8 = .ok true

def Authority (chain : List CWTLSCertificate) : Prop :=
  ∀ (i : Nat) cert, 0 < i → chain[i]? = some cert → MaySign services cert

/-- Names, signatures and dates. -/
structure Checked (chain : List CWTLSCertificate) : Prop where
  names : ∀ (i : Nat) cert issuer, chain[i]? = some cert → chain[i + 1]? = some issuer →
    cert.iIssuerName.exactMatchL issuer.iSubjectName = true
  signatures : ∀ (i : Nat) cert issuer, chain[i]? = some cert → chain[i + 1]? = some issuer →
    services.verifySignatureL cert issuer.iKeyData = .ok true
  dates : ∀ cert ∈ chain, cert.iValidityPeriod.valid time = true

/-- What a validated chain should be. -/
structure Sound (validated : List CWTLSCertificate) : Prop
    extends Checked services time validated where
  root : ∃ last root, validated.getLast? = some last ∧ root ∈ clients ++ storeRoots store ∧
    SameKey last root
  authority : Authority services validated

/-- The hash of its modulus is that of a client's root, or the key identifier of a stored one. -/
def trusted (cert : CWTLSCertificate) : Bool :=
  match generatePublicKeyHashL services cert with
  | .ok hash =>
    clients.any (fun root => (generatePublicKeyHashL services root).toOption = some hash) ∨
      store.any fun root => root.iSubjectKeyId = hash
  | .error _ => false

/-- The first certificate that is trusted has the key of a root.  Where none is, the root that the
last certificate names may sign. -/
def Rooted : Prop :=
  match chain.find? (trusted services store clients) with
  | some cert => ∃ root ∈ clients ++ storeRoots store, SameKey cert root
  | none =>
    ∀ last root, chain.getLast? = some last →
      rootNamed (clients ++ storeRoots store) last.iIssuerName = some root → MaySign services root

/-- How the chain that is checked in the end comes about. -/
inductive Route : List CWTLSCertificate → Prop
  | pruned {p : Nat} {cert : CWTLSCertificate} (hcert : chain[p]? = some cert)
      (hfirst : chain.find? (trusted services store clients) = some cert)
      (hauthority : Authority services (chain.take (p + 1))) : Route (chain.take (p + 1))
  | found {last root : CWTLSCertificate}
      (hnone : chain.find? (trusted services store clients) = none)
      (hlast : chain.getLast? = some last)
      (hroot : rootNamed (clients ++ storeRoots store) last.iIssuerName = some root)
      (hauthority : Authority services chain) : Route (chain ++ [root])

end

section

variable {services : WTLSServices} {store : List StoreRoot}
  {chain clients : List CWTLSCertificate} {time : Int}

theorem publicKeyL_ok :
    (∃ key, publicKeyL cert = .ok key) ↔ ∃ key, CWTLSRSAPublicKey.newL cert.iKeyData = .ok key := by
  constructor
  · rintro ⟨key, h⟩
    obtain ⟨k, hk, -⟩ := bind_eq_ok.mp h
    exact ⟨k, hk⟩
  · rintro ⟨k, hk⟩
    exact ⟨(k.iN.magnitude, k.iE.magnitude), by simp [publicKeyL, hk]⟩

theorem key_of_hash {hash : Bytes} (h : generatePublicKeyHashL services cert = .ok hash) :
    ∃ key, publicKeyL cert = .ok key := by
  obtain ⟨k, hk, -⟩ := bind_eq_ok.mp h
  exact publicKeyL_ok.mpr ⟨k, hk⟩

theorem key_of_storeRoots {root : CWTLSCertificate} (h : root ∈ storeRoots store) :
    ∃ key, publicKeyL root = .ok key := by
  obtain ⟨stored, -, hmap⟩ := mem_filterMap.mp h
  obtain ⟨⟨cert, rest⟩, hdecoded, rfl⟩ := Option.map_eq_some_iff.mp hmap
  cases hnew : CWTLSCertificate.newL stored.encoding with
  | error e =>
      rw [hnew] at hdecoded
      cases hdecoded
  | ok decoded =>
      rw [hnew] at hdecoded
      cases hdecoded
      exact publicKeyL_ok.mpr (CWTLSCertificate.newL_key hnew)

/-- **What a route is worth.** -/
theorem Route.sound_iff {validated : List CWTLSCertificate}
    (hroute : Route services store chain clients validated)
    (hchecked : Checked services time validated)
    (hkeys : ∀ root ∈ clients, ∃ key, publicKeyL root = .ok key) :
    Sound services store clients time validated ↔ Rooted services store chain clients := by
  cases hroute with
  | @pruned p cert hcert hfirst hauthority =>
      have hlast : (chain.take (p + 1)).getLast? = some cert := by
        obtain ⟨hp, hget⟩ := List.getElem?_eq_some_iff.mp hcert
        rw [getLast?_take, if_neg (Nat.succ_ne_zero p), Nat.add_sub_cancel, hcert]
        rfl
      unfold Rooted
      rw [hfirst]
      constructor
      · intro h
        obtain ⟨last, root, hl, hmem, hsame⟩ := h.root
        rw [hlast] at hl
        cases hl
        exact ⟨root, hmem, hsame⟩
      · intro h
        obtain ⟨root, hmem, hsame⟩ := h
        exact ⟨hchecked, ⟨cert, root, hlast, hmem, hsame⟩, hauthority⟩
  | @found last root hnone hlast hroot hauthority =>
      have hmem : root ∈ clients ++ storeRoots store := mem_of_find?_eq_some hroot
      have hkey : ∃ key, publicKeyL root = .ok key := by
        rcases mem_append.mp hmem with hclient | hstored
        · exact hkeys root hclient
        · exact key_of_storeRoots hstored
      have hpos : 0 < chain.length := by
        rw [length_pos_iff]
        intro heq
        rw [heq] at hlast
        cases hlast
      unfold Rooted
      rw [hnone]
      constructor
      · intro h last' root' hl hr
        rw [hlast] at hl
        cases hl
        rw [hroot] at hr
        cases hr
        exact h.authority chain.length root hpos (by simp)
      · intro h
        obtain ⟨key, hk⟩ := hkey
        refine ⟨hchecked, ⟨root, root, by simp, hmem, key, hk, hk⟩, ?_⟩
        intro i cert hi hget
        rcases Nat.lt_or_ge i chain.length with hlt | hge
        · rw [getElem?_append_left hlt] at hget
          exact hauthority i cert hi hget
        · rw [getElem?_append_right hge, getElem?_singleton] at hget
          split at hget
          · cases hget
            exact h last root hlast hroot
          · cases hget

end

/-! ### The checks at the end -/

section

variable {services : WTLSServices} {time : Int}

/-- What is checked of one certificate of a chain. -/
structure CheckedAt (services : WTLSServices) (time : Int) (chain : List CWTLSCertificate)
    (i : Nat) (cert : CWTLSCertificate) : Prop where
  issuer : ∀ issuer, chain[i + 1]? = some issuer →
    cert.iIssuerName.exactMatchL issuer.iSubjectName = true ∧
      services.verifySignatureL cert issuer.iKeyData = .ok true
  date : cert.iValidityPeriod.valid time = true

/-- A check changes the result only. -/
structure SameButResult (m r : CWTLSCertChainAO) : Prop where
  chain : r.iChain = m.iChain
  time : r.iValidationTime = m.iValidationTime

theorem setError_bad (m : CWTLSCertChainAO) {aError : TValidationError} {aCert : Int}
    (h : aError ≠ .EValidatedOK) :
    (m.setError aError aCert).iValidationResult.iError.iReason ≠ .EValidatedOK := h

theorem checkSignatureAndNameL_ok {m r : CWTLSCertChainAO} {i : Nat} {good : Bool}
    (h : checkSignatureAndNameL services m cert i = .ok (r, good)) :
    SameButResult m r ∧
      (good = true → ∀ issuer, m.iChain[i + 1]? = some issuer →
        cert.iIssuerName.exactMatchL issuer.iSubjectName = true ∧
          services.verifySignatureL cert issuer.iKeyData = .ok true) ∧
      (good = false → r.iValidationResult.iError.iReason ≠ .EValidatedOK) := by
  unfold checkSignatureAndNameL at h
  cases hissuer : m.iChain[i + 1]? with
  | none =>
      rw [hissuer] at h
      simp only at h
      split at h
      · obtain ⟨verified, -, h⟩ := bind_eq_ok.mp h
        cases verified with
        | false =>
          cases h
          exact ⟨⟨rfl, rfl⟩, nofun, fun _ => setError_bad m (nofun)⟩
        | true =>
          cases h
          exact ⟨⟨rfl, rfl⟩, fun _ => nofun, nofun⟩
      · cases h
        exact ⟨⟨rfl, rfl⟩, fun _ => nofun, nofun⟩
  | some issuer =>
      rw [hissuer] at h
      simp only at h
      split at h
      next hname =>
        obtain ⟨verified, hverified, h⟩ := bind_eq_ok.mp h
        cases verified with
        | false =>
          cases h
          exact ⟨⟨rfl, rfl⟩, nofun, fun _ => setError_bad m (nofun)⟩
        | true =>
          cases h
          refine ⟨⟨rfl, rfl⟩, fun _ issuer' hi => ?_, nofun⟩
          cases hi
          exact ⟨hname, hverified⟩
      next =>
        cases h
        exact ⟨⟨rfl, rfl⟩, nofun, fun _ => setError_bad m (nofun)⟩

/-- Where the loop ends without an error, it has checked every certificate. -/
theorem checkDownL_ok {n : Nat} {m r : CWTLSCertChainAO} (h : checkDownL services n m = .ok r) :
    SameButResult m r ∧ (r.iValidationResult.iError.iReason = .EValidatedOK →
      ∀ i < n, ∀ cert, m.iChain[i]? = some cert →
        CheckedAt services m.iValidationTime m.iChain i cert) := by
  induction n generalizing m with
  | zero =>
      cases h
      exact ⟨⟨rfl, rfl⟩, fun _ i hi => absurd hi (Nat.not_lt_zero i)⟩
  | succ n ih =>
      unfold checkDownL at h
      cases hcurrent : m.iChain[n]? with
      | none =>
        rw [hcurrent] at h
        cases h
      | some current =>
        rw [hcurrent] at h
        obtain ⟨⟨m', good⟩, hsignature, h⟩ := bind_eq_ok.mp h
        obtain ⟨⟨hchain, htime⟩, hgood, hbad⟩ := checkSignatureAndNameL_ok hsignature
        cases good with
        | false =>
          cases h
          exact ⟨⟨hchain, htime⟩, fun hok => absurd hok (hbad rfl)⟩
        | true =>
          simp only [checkValidityPeriod, Bool.not_true, Bool.false_eq_true, if_false] at h
          split at h
          next hdate =>
            obtain ⟨⟨hchain', htime'⟩, hrest⟩ := ih h
            refine ⟨⟨hchain'.trans hchain, htime'.trans htime⟩, fun hok i hi cert hget => ?_⟩
            rw [hchain, htime] at hrest
            rw [htime] at hdate
            rcases Nat.lt_succ_iff_lt_or_eq.mp hi with hlt | rfl
            · exact hrest hok i hlt cert hget
            · rw [hcurrent] at hget
              cases hget
              exact ⟨hgood rfl, hdate⟩
          next =>
            cases h
            exact ⟨⟨hchain, htime⟩, fun hok => absurd hok (setError_bad m' (nofun))⟩

theorem handleEValidateEndL_ok {m r : CWTLSCertChainAO}
    (h : m.handleEValidateEndL services = .ok r) :
    r.iOriginalRequest = some .complete ∧ r.iChain = m.iChain ∧
      (r.iValidationResult.iError.iReason = .EValidatedOK →
        Checked services m.iValidationTime m.iChain) := by
  obtain ⟨m', hdown, hr⟩ := bind_eq_ok.mp h
  cases hr
  obtain ⟨⟨hchain, -⟩, hall⟩ := checkDownL_ok hdown
  refine ⟨rfl, hchain, fun hok => ?_⟩
  have hat : ∀ (i : Nat) cert, m.iChain[i]? = some cert →
      CheckedAt services m.iValidationTime m.iChain i cert := by
    intro i cert hget
    exact hall hok i (List.getElem?_eq_some_iff.mp hget).1 cert hget
  refine ⟨fun i cert issuer hc hi => ((hat i cert hc).issuer issuer hi).1,
    fun i cert issuer hc hi => ((hat i cert hc).issuer issuer hi).2, fun cert hcert => ?_⟩
  obtain ⟨i, hget⟩ := mem_iff_getElem?.mp hcert
  exact (hat i cert hget).date

theorem notTCAL_none {i : Nat} {certs : List CWTLSCertificate}
    (h : notTCAL services i certs = .ok none) : ∀ cert ∈ certs, MaySign services cert := by
  induction certs generalizing i with
  | nil => exact fun cert hcert => absurd hcert not_mem_nil
  | cons first certs ih =>
      unfold notTCAL at h
      obtain ⟨marked, hmarked, h⟩ := bind_eq_ok.mp h
      split at h
      · cases h
      next hsign =>
        intro cert hcert
        rcases mem_cons.mp hcert with rfl | hcert
        · cases marked with
          | true => exact Or.inr hmarked
          | false => exact Or.inl (by simpa using hsign)
        · exact ih h cert hcert

theorem authority_of_notTCAL {chain : List CWTLSCertificate}
    (h : notTCAL services 1 (chain.drop 1) = .ok none) : Authority services chain := by
  intro i cert hi hget
  refine notTCAL_none h cert (mem_iff_getElem?.mpr ⟨i - 1, ?_⟩)
  rw [getElem?_drop, show 1 + (i - 1) = i by omega]
  exact hget

end

/-! ### The states of a validation -/

section

variable (services : WTLSServices) (store : List StoreRoot)
  (chain clients : List CWTLSCertificate) (time : Int)

/-- The client waits, and nothing is wrong so far. -/
structure Underway (m : CWTLSCertChainAO) : Prop where
  clients : m.iRootsFromClient = clients
  time : m.iValidationTime = time
  good : m.iValidationResult.iError.iReason = .EValidatedOK
  pending : m.iOriginalRequest = none

/-- No root has been looked at. -/
structure Fresh (m : CWTLSCertChainAO) : Prop where
  chain : m.iChain = chain
  rootsFromStore : m.iRootsFromStore = []
  clientHashes : m.iRootSubjectClientHashList = []
  storeHashes : m.iRootSubjectStoreHashList = []

/-- The lists of hashes are complete. -/
structure Hashed (m : CWTLSCertChainAO) : Prop where
  infos : m.iCertInfos = store
  keys : ∀ root ∈ clients, ∃ key, publicKeyL root = .ok key
  listed : ∀ cert hash, generatePublicKeyHashL services cert = .ok hash →
    m.listed hash = trusted services store clients cert

/-- No certificate of the chain is trusted, and all that should may sign. -/
structure Untrusted (m : CWTLSCertChainAO) : Prop extends Hashed services store clients m where
  whole : m.iChain = chain
  untrusted : chain.find? (trusted services store clients) = none
  authority : Authority services chain

/-- What is known in each state. -/
def Stage (m : CWTLSCertChainAO) : Prop :=
  match m.iState with
  | .EStoreManagerInitialization | .EStoreManagerInitialized => Fresh chain m ∧ m.iCertInfos = []
  | .EGetCertHashes => Fresh chain m ∧ m.iCertInfos = store
  | .EPruneList =>
    Hashed services store clients m ∧ m.iChain = chain ∧ m.iRootsFromStore = [] ∧
      m.iPruned = false ∧
      (chain.take m.iNextIndex).find? (trusted services store clients) = none
  | .EPruneListDone =>
    Hashed services store clients m ∧ m.iChain = chain ∧ m.iRootsFromStore = [] ∧
      ((m.iPruned = true ∧ ∃ cert, chain[m.iPrunedChainLength]? = some cert ∧
          chain.find? (trusted services store clients) = some cert) ∨
        (m.iPruned = false ∧ chain.find? (trusted services store clients) = none))
  | .ECheckTCA =>
    Hashed services store clients m ∧ m.iRootsFromStore = [] ∧
      ((m.iPruned = true ∧ ∃ (p : Nat) (cert : CWTLSCertificate), chain[p]? = some cert ∧
          chain.find? (trusted services store clients) = some cert ∧
          m.iChain = chain.take (p + 1)) ∨
        (m.iPruned = false ∧ chain.find? (trusted services store clients) = none ∧
          m.iChain = chain))
  | .EIsChainSelfSigned =>
    Untrusted services store chain clients m ∧ m.iRootsFromStore = []
  | .ERetrieveRoots =>
    Untrusted services store chain clients m ∧
      m.iRootsFromStore = storeRoots (store.take m.iNextIndex)
  | .EAddRootToList =>
    Untrusted services store chain clients m ∧ ∃ (i : Nat) (info : StoreRoot),
      m.iNextIndex = i + 1 ∧ store[i]? = some info ∧ m.iEncodedCert = info.encoding ∧
        m.iRootsFromStore = storeRoots (store.take i)
  | .EFindRoot =>
    Untrusted services store chain clients m ∧ m.iRootsFromStore = storeRoots store
  | .EValidateEnd =>
    (∀ root ∈ clients, ∃ key, publicKeyL root = .ok key) ∧
      Route services store chain clients m.iChain

/-- The validation has ended well. -/
structure Validated (m : CWTLSCertChainAO) : Prop where
  keys : ∀ root ∈ clients, ∃ key, publicKeyL root = .ok key
  route : Route services store chain clients m.iChain
  checked : Checked services time m.iChain

inductive Invariant (m : CWTLSCertChainAO) : Prop
  | underway (h : Underway clients time m) (hstage : Stage services store chain clients m)
  | failed (aError : Int) (h : m.iOriginalRequest = some (.error aError))
  | complete (h : m.iOriginalRequest = some .complete)
      (hgood : m.iValidationResult.iError.iReason = .EValidatedOK →
        Validated services store chain clients time m)

/-- What the handler of a state has to do. -/
def Keeps (state : WTLSState) (handle : CWTLSCertChainAO → Leaving CWTLSCertChainAO) : Prop :=
  ∀ m r, Underway clients time m → m.iState = state → Stage services store chain clients m →
    handle m = .ok r → Invariant services store chain clients time r

end

/-! ### What each state does -/

section

variable {services : WTLSServices} {store : List StoreRoot}
  {chain clients : List CWTLSCertificate} {time : Int} {m r : CWTLSCertChainAO}

theorem mapM_hashes {certs : List CWTLSCertificate} {hashes : List Bytes}
    (h : certs.mapM (generatePublicKeyHashL services) = .ok hashes) :
    (∀ hash, hash ∈ hashes ↔
      certs.any fun root => (generatePublicKeyHashL services root).toOption = some hash) ∧
      ∀ cert ∈ certs, ∃ key, publicKeyL cert = .ok key := by
  induction certs generalizing hashes with
  | nil =>
      cases h
      simp
  | cons cert certs ih =>
      rw [mapM_cons] at h
      obtain ⟨first, hfirst, h⟩ := bind_eq_ok.mp h
      obtain ⟨others, hothers, h⟩ := bind_eq_ok.mp h
      cases h
      obtain ⟨hmem, hkeys⟩ := ih hothers
      constructor
      · intro hash
        rw [mem_cons, hmem, any_cons, hfirst, Bool.or_eq_true, decide_eq_true_iff]
        show _ ↔ some first = some hash ∨ _
        rw [Option.some_inj, eq_comm]
      · intro other hother
        rcases mem_cons.mp hother with rfl | hother
        · exact key_of_hash hfirst
        · exact hkeys other hother

theorem stage_getCertHashes :
    Keeps services store chain clients time .EGetCertHashes (handleEGetCertHashesL services) := by
  intro m r h hstate hstage hstep
  simp only [Stage, hstate] at hstage
  obtain ⟨⟨hchain, hroots, hclient, hstore⟩, hinfos⟩ := hstage
  obtain ⟨hashes, hhashes, hr⟩ := bind_eq_ok.mp hstep
  cases hr
  rw [h.clients] at hhashes
  obtain ⟨hmem, hkeys⟩ := mapM_hashes hhashes
  refine .underway ⟨h.clients, h.time, h.good, h.pending⟩ ?_
  refine ⟨⟨hinfos, hkeys, ?_⟩, hchain, hroots, rfl, by simp⟩
  intro cert hash hhash
  simp only [CWTLSCertChainAO.listed, trusted, hhash, hclient, hstore, hinfos, nil_append,
    hmem, mem_map, any_eq_true, decide_eq_true_eq]

/-- The next certificate of the chain. -/
theorem find?_take_succ {p : CWTLSCertificate → Bool} {i : Nat} (hget : chain[i]? = some cert)
    (hnone : (chain.take i).find? p = none) :
    (p cert = true → chain.find? p = some cert) ∧
      (p cert = false → (chain.take (i + 1)).find? p = none) := by
  obtain ⟨hi, heq⟩ := List.getElem?_eq_some_iff.mp hget
  have hsplit : chain = chain.take i ++ cert :: chain.drop (i + 1) := by
    rw [← heq, getElem_cons_drop, take_append_drop]
  constructor
  · intro hp
    rw [hsplit, find?_append, hnone, find?_cons_of_pos hp]
    rfl
  · intro hp
    rw [take_add_one, hget, find?_append, hnone]
    simp [hp]

theorem stage_pruneList :
    Keeps services store chain clients time .EPruneList (handleEPruneListL services) := by
  intro m r h hstate hstage hstep
  simp only [Stage, hstate] at hstage
  obtain ⟨hhashed, hchain, hroots, hpruned, hnone⟩ := hstage
  unfold handleEPruneListL at hstep
  cases hnext : m.iChain[m.iNextIndex]? with
  | none =>
      rw [hnext] at hstep
      cases hstep
      have hcert : chain[m.iNextIndex]? = none := hchain ▸ hnext
      refine .underway ⟨h.clients, h.time, h.good, h.pending⟩ ?_
      refine ⟨⟨hhashed.infos, hhashed.keys, hhashed.listed⟩, hchain, hroots, ?_⟩
      rw [take_of_length_le (List.getElem?_eq_none_iff.mp hcert)] at hnone
      exact Or.inr ⟨hpruned, hnone⟩
  | some cert =>
      rw [hnext] at hstep
      have hcert : chain[m.iNextIndex]? = some cert := hchain ▸ hnext
      obtain ⟨hash, hhash, hstep⟩ := bind_eq_ok.mp hstep
      obtain ⟨hyes, hno⟩ := find?_take_succ hcert hnone
      rw [hhashed.listed cert hash hhash] at hstep
      split at hstep
      next htrusted =>
        cases hstep
        refine .underway ⟨h.clients, h.time, h.good, h.pending⟩ ?_
        exact ⟨⟨hhashed.infos, hhashed.keys, hhashed.listed⟩, hchain, hroots,
          Or.inl ⟨rfl, cert, hcert, hyes htrusted⟩⟩
      next htrusted =>
        cases hstep
        refine .underway ⟨h.clients, h.time, h.good, h.pending⟩ ?_
        exact ⟨⟨hhashed.infos, hhashed.keys, hhashed.listed⟩, hchain, hroots, hpruned,
          hno (by simpa using htrusted)⟩

theorem stage_pruneListDone :
    Keeps services store chain clients time .EPruneListDone (.ok ·.handleEPruneListDoneL) := by
  intro m r h hstate hstage hstep
  cases hstep
  simp only [Stage, hstate] at hstage
  obtain ⟨hhashed, hchain, hroots, hsearch⟩ := hstage
  refine .underway ⟨h.clients, h.time, h.good, h.pending⟩ ?_
  refine ⟨⟨hhashed.infos, hhashed.keys, hhashed.listed⟩, hroots, ?_⟩
  rcases hsearch with ⟨hpruned, cert, hcert, hfirst⟩ | ⟨hpruned, hnone⟩
  · refine Or.inl ⟨hpruned, m.iPrunedChainLength, cert, hcert, hfirst, ?_⟩
    simp [handleEPruneListDoneL, hpruned, hchain]
  · refine Or.inr ⟨hpruned, hnone, ?_⟩
    simp [handleEPruneListDoneL, hpruned, hchain]

theorem stage_checkTCA :
    Keeps services store chain clients time .ECheckTCA (handleECheckTCAL services) := by
  intro m r h hstate hstage hstep
  simp only [Stage, hstate] at hstage
  obtain ⟨hhashed, hroots, hsearch⟩ := hstage
  obtain ⟨found, hfound, hstep⟩ := bind_eq_ok.mp hstep
  cases found with
  | some i =>
      cases hstep
      exact .complete rfl fun hgood => absurd hgood (setError_bad m nofun)
  | none =>
      have hauthority := authority_of_notTCAL hfound
      rcases hsearch with ⟨hpruned, p, cert, hcert, hfirst, hchain⟩ | ⟨hpruned, hnone, hchain⟩
      · simp only [hpruned, if_true] at hstep
        cases hstep
        refine .underway ⟨h.clients, h.time, h.good, h.pending⟩ ⟨hhashed.keys, ?_⟩
        rw [hchain] at hauthority ⊢
        exact .pruned hcert hfirst hauthority
      · simp only [hpruned, Bool.false_eq_true, if_false] at hstep
        cases hstep
        refine .underway ⟨h.clients, h.time, h.good, h.pending⟩ ⟨?_, hroots⟩
        rw [hchain] at hauthority
        exact ⟨⟨hhashed.infos, hhashed.keys, hhashed.listed⟩, hchain, hnone, hauthority⟩

theorem stage_isChainSelfSigned :
    Keeps services store chain clients time .EIsChainSelfSigned handleEIsChainSelfSignedL := by
  intro m r h hstate hstage hstep
  simp only [Stage, hstate] at hstage
  obtain ⟨⟨⟨hinfos, hkeys, hlisted⟩, hchain, hnone, hauthority⟩, hroots⟩ := hstage
  unfold handleEIsChainSelfSignedL at hstep
  split at hstep
  · cases hstep
  split at hstep
  · cases hstep
    exact .complete rfl fun hgood => absurd hgood (setError_bad m nofun)
  · cases hstep
    exact .underway ⟨h.clients, h.time, h.good, h.pending⟩
      ⟨⟨⟨hinfos, hkeys, hlisted⟩, hchain, hnone, hauthority⟩, hroots⟩

theorem stage_retrieveRoots :
    Keeps services store chain clients time .ERetrieveRoots (.ok ·.handleERetrieveRootsL) := by
  intro m r h hstate hstage hstep
  cases hstep
  simp only [Stage, hstate] at hstage
  obtain ⟨⟨⟨hinfos, hkeys, hlisted⟩, hchain, hnone, hauthority⟩, hroots⟩ := hstage
  unfold handleERetrieveRootsL
  cases hnext : m.iCertInfos[m.iNextIndex]? with
  | some info =>
      have hinfo : store[m.iNextIndex]? = some info := hinfos ▸ hnext
      exact .underway ⟨h.clients, h.time, h.good, h.pending⟩
        ⟨⟨⟨hinfos, hkeys, hlisted⟩, hchain, hnone, hauthority⟩, m.iNextIndex, info, rfl, hinfo, rfl,
          hroots⟩
  | none =>
      have hinfo : store[m.iNextIndex]? = none := hinfos ▸ hnext
      rw [take_of_length_le (List.getElem?_eq_none_iff.mp hinfo)] at hroots
      exact .underway ⟨h.clients, h.time, h.good, h.pending⟩
        ⟨⟨⟨hinfos, hkeys, hlisted⟩, hchain, hnone, hauthority⟩, hroots⟩

theorem stage_addRootToList :
    Keeps services store chain clients time .EAddRootToList handleEAddRootToListL := by
  intro m r h hstate hstage hstep
  simp only [Stage, hstate] at hstage
  obtain ⟨⟨⟨hinfos, hkeys, hlisted⟩, hchain, hnone, hauthority⟩, i, info, hnext, hinfo, hencoded,
    hroots⟩ := hstage
  obtain ⟨⟨cert, rest⟩, hcert, hstep⟩ := bind_eq_ok.mp hstep
  cases hstep
  refine .underway ⟨h.clients, h.time, h.good, h.pending⟩
    ⟨⟨⟨hinfos, hkeys, hlisted⟩, hchain, hnone, hauthority⟩, ?_⟩
  show m.iRootsFromStore ++ [cert] = storeRoots (store.take m.iNextIndex)
  rw [hencoded] at hcert
  rw [hnext, hroots, take_add_one, hinfo]
  simp [storeRoots, hcert, Except.toOption]

theorem stage_findRoot : Keeps services store chain clients time .EFindRoot handleEFindRootL := by
  intro m r h hstate hstage hstep
  simp only [Stage, hstate] at hstage
  obtain ⟨⟨⟨hinfos, hkeys, hlisted⟩, hchain, hnone, hauthority⟩, hroots⟩ := hstage
  unfold handleEFindRootL at hstep
  cases hlast : m.iChain.getLast? with
  | none =>
      rw [hlast] at hstep
      cases hstep
  | some last =>
      rw [hlast] at hstep
      simp only at hstep
      have hfound : ∀ root, rootNamed (clients ++ storeRoots store) last.iIssuerName = some root →
          Invariant services store chain clients time
            { m with iFoundRoot := true, iChain := m.iChain ++ [root], iState := .EValidateEnd } := by
        intro root hroot
        refine .underway ⟨h.clients, h.time, h.good, h.pending⟩ ⟨hkeys, ?_⟩
        show Route services store chain clients (m.iChain ++ [root])
        rw [hchain] at hlast ⊢
        exact .found hnone hlast hroot hauthority
      have happend : rootNamed (clients ++ storeRoots store) last.iIssuerName =
          (rootNamed m.iRootsFromClient last.iIssuerName).or
            (rootNamed m.iRootsFromStore last.iIssuerName) := by
        rw [h.clients, hroots]
        exact find?_append
      rw [happend] at hfound
      cases hclient : rootNamed m.iRootsFromClient last.iIssuerName with
      | some root =>
        rw [hclient] at hstep hfound
        cases hstep
        exact hfound root rfl
      | none =>
        rw [hclient] at hstep hfound
        cases hstored : rootNamed m.iRootsFromStore last.iIssuerName with
        | some root =>
          rw [hstored] at hstep hfound
          cases hstep
          exact hfound root rfl
        | none =>
          rw [hstored] at hstep
          cases hstep
          exact .complete rfl fun hgood => absurd hgood (setError_bad _ nofun)

theorem stage_validateEnd :
    Keeps services store chain clients time .EValidateEnd (handleEValidateEndL services) := by
  intro m r h hstate hstage hstep
  simp only [Stage, hstate] at hstage
  obtain ⟨hkeys, hroute⟩ := hstage
  obtain ⟨hcomplete, hchain, hchecked⟩ := handleEValidateEndL_ok hstep
  refine .complete hcomplete fun hgood => ⟨hkeys, ?_, ?_⟩
  · rw [hchain]
    exact hroute
  · rw [hchain, ← h.time]
    exact hchecked hgood

/-- Whatever the state, `RunL` keeps the invariant. -/
theorem invariant_runL (h : Underway clients time m) (hstage : Stage services store chain clients m)
    {iStatus : Int} (hstep : m.runL services store iStatus = .ok r) :
    Invariant services store chain clients time r := by
  unfold runL at hstep
  split at hstep
  · cases hstep
  cases hstate : m.iState with
  | EStoreManagerInitialization =>
      rw [hstate] at hstep
      cases hstep
      simp only [Stage, hstate] at hstage
      obtain ⟨⟨hchain, hroots, hclient, hstore⟩, hinfos⟩ := hstage
      exact .underway ⟨h.clients, h.time, h.good, h.pending⟩
        ⟨⟨hchain, hroots, hclient, hstore⟩, hinfos⟩
  | EStoreManagerInitialized =>
      rw [hstate] at hstep
      cases hstep
      simp only [Stage, hstate] at hstage
      obtain ⟨⟨hchain, hroots, hclient, hstore⟩, hinfos⟩ := hstage
      refine .underway ⟨h.clients, h.time, h.good, h.pending⟩
        ⟨⟨hchain, hroots, hclient, hstore⟩, ?_⟩
      simp [handleEStoreManagerInitializedL, hinfos]
  | EGetCertHashes => exact stage_getCertHashes m r h hstate hstage (by simpa [hstate] using hstep)
  | EPruneList => exact stage_pruneList m r h hstate hstage (by simpa [hstate] using hstep)
  | EPruneListDone => exact stage_pruneListDone m r h hstate hstage (by simpa [hstate] using hstep)
  | ECheckTCA => exact stage_checkTCA m r h hstate hstage (by simpa [hstate] using hstep)
  | EIsChainSelfSigned =>
      exact stage_isChainSelfSigned m r h hstate hstage (by simpa [hstate] using hstep)
  | ERetrieveRoots => exact stage_retrieveRoots m r h hstate hstage (by simpa [hstate] using hstep)
  | EAddRootToList => exact stage_addRootToList m r h hstate hstage (by simpa [hstate] using hstep)
  | EFindRoot => exact stage_findRoot m r h hstate hstage (by simpa [hstate] using hstep)
  | EValidateEnd => exact stage_validateEnd m r h hstate hstage (by simpa [hstate] using hstep)

theorem Invariant.step {e : Event} (h : Invariant services store chain clients time m)
    (hstep : step services store m e = some r) : Invariant services store chain clients time r := by
  unfold CWTLSCertChainAO.step at hstep
  cases h with
  | failed aError hended =>
      rw [hended] at hstep
      cases hstep
  | complete hended hgood =>
      rw [hended] at hstep
      cases hstep
  | underway h hstage =>
      rw [h.pending] at hstep
      cases e with
      | noMemory =>
        cases hstep
        exact .failed _ rfl
      | cancel =>
        cases hstep
        exact .failed _ rfl
      | run iStatus =>
        simp only at hstep
        cases hrun : m.runL services store iStatus with
        | ok r' =>
          rw [hrun] at hstep
          cases hstep
          exact invariant_runL h hstage hrun
        | error e =>
          rw [hrun] at hstep
          cases e with
          | leave aError =>
            cases hstep
            exact .failed aError rfl
          | panic => cases hstep
          | undefined => cases hstep

theorem invariant_validate :
    Invariant services store chain clients time (validate chain clients time) :=
  .underway ⟨rfl, rfl, rfl, rfl⟩ ⟨⟨rfl, rfl, rfl, rfl⟩, rfl⟩

/-- **A chain that is validated without an error is sound exactly if its trust has a root.** -/
theorem sound_iff_rooted
    (h : Reachable (fun m => m = validate chain clients time) (step services store) Anything m)
    (hcomplete : m.iOriginalRequest = some .complete)
    (hgood : m.iValidationResult.iError.iReason = .EValidatedOK) :
    Sound services store clients time m.iChain ↔ Rooted services store chain clients := by
  have hinv : Invariant services store chain clients time m := by
    refine h.invariant ?_ fun _ _ _ hm _ hstep => hm.step hstep
    intro m' hm'
    rw [hm']
    exact invariant_validate
  cases hinv with
  | underway hu _ =>
      rw [hu.pending] at hcomplete
      cases hcomplete
  | failed aError hended =>
      rw [hended] at hcomplete
      cases hcomplete
  | complete _ hvalidated =>
      obtain ⟨hkeys, hroute, hchecked⟩ := hvalidated hgood
      exact hroute.sound_iff hchecked hkeys

end

/-! ### A root with another exponent -/

/-- A certificate for the modulus 77 that someone else has issued. -/
def certFor (exponent : UInt8) (subject : Bytes) : CWTLSCertificate where
  iIssuerName := ⟨CWTLSName.EWTLSText, [0, 4, 1, 65]⟩
  iValidityPeriod := ⟨0, 10⟩
  iSubjectName := ⟨CWTLSName.EWTLSText, subject⟩
  iKeyData := [0, 1, exponent, 0, 1, 77]
  iSignature := []
  iEncoding := []

def clientRoot : CWTLSCertificate := certFor 5 [0, 4, 1, 66]

/-- A certificate of the peer's, with the modulus of the root. -/
def peerCert (exponent : UInt8) : CWTLSCertificate := certFor exponent [0, 4, 1, 67]

/-- The digest of the one modulus there is; no signature is looked at. -/
def oneDigest : WTLSServices where
  convertToUnicodeFromUtf8 := fun _ => leave KErrNotSupported
  sha1 := fun bytes =>
    if bytes = [77] then
      [198, 58, 230, 221, 79, 201, 249, 221, 166, 105, 112, 232, 39, 209, 63, 124, 115, 254, 132, 28]
    else []
  verifySignatureL := fun _ _ => .ok false

/-- From the request to its end, with a chain of one certificate. -/
def validated (exponent : UInt8) : Option CWTLSCertChainAO :=
  run (step oneDigest []) (validate [peerCert exponent] [clientRoot] 5)
    (replicate 7 (.run KErrNone))

def outcome (m : CWTLSCertChainAO) : Option WTLSEnding × TValidationError × List CWTLSCertificate :=
  (m.iOriginalRequest, m.iValidationResult.iError.iReason, m.iChain)

theorem validated_outcome (exponent : UInt8) (h : exponent = 3 ∨ exponent = 5) :
    (validated exponent).map outcome =
      some (some .complete, .EValidatedOK, [peerCert exponent]) := by
  rcases h with rfl | rfl <;> rfl

theorem publicKeyL_peerCert : publicKeyL (peerCert 3) = .ok (77, 3) := by rfl

theorem publicKeyL_clientRoot : publicKeyL clientRoot = .ok (77, 5) := by rfl

theorem outcome_eq {m : CWTLSCertChainAO} {chain : List CWTLSCertificate}
    (h : outcome m = (some .complete, .EValidatedOK, chain)) :
    m.iOriginalRequest = some .complete ∧
      m.iValidationResult.iError.iReason = .EValidatedOK ∧ m.iChain = chain := by
  obtain ⟨hcomplete, hrest⟩ := Prod.ext_iff.mp h
  obtain ⟨hgood, hchain⟩ := Prod.ext_iff.mp hrest
  exact ⟨hcomplete, hgood, hchain⟩

/-- The certificate with the exponent 3 passes for the root, whose exponent is 5. -/
theorem not_sound_exponent : ¬ ∀ services store chain clients time m,
    Reachable (fun m => m = validate chain clients time) (step services store) Anything m →
      m.iOriginalRequest = some .complete →
      m.iValidationResult.iError.iReason = .EValidatedOK →
        Sound services store clients time m.iChain := by
  intro h
  obtain ⟨m, hrun, houtcome⟩ := Option.map_eq_some_iff.mp (validated_outcome 3 (Or.inl rfl))
  obtain ⟨hcomplete, hgood, hchain⟩ := outcome_eq houtcome
  have hreach : Reachable (fun m => m = validate [peerCert 3] [clientRoot] 5) (step oneDigest [])
      Anything m := Reachable.run (.start rfl) hrun
  obtain ⟨last, root, hlast, hmem, key, hcert, hroot⟩ :=
    (h oneDigest [] _ _ 5 m hreach hcomplete hgood).root
  rw [hchain] at hlast
  cases hlast
  rw [show root = clientRoot from mem_singleton.mp hmem, publicKeyL_clientRoot] at hroot
  have hthree := publicKeyL_peerCert.symm.trans hcert
  cases hroot
  cases hthree

theorem sound_iff_rooted_exponent : ∃ m, outcome m = (some .complete, .EValidatedOK, [peerCert 5]) ∧
    (Sound oneDigest [] [clientRoot] 5 m.iChain ↔
      Rooted oneDigest [] [peerCert 5] [clientRoot]) := by
  obtain ⟨m, hrun, houtcome⟩ := Option.map_eq_some_iff.mp (validated_outcome 5 (Or.inr rfl))
  obtain ⟨hcomplete, hgood, -⟩ := outcome_eq houtcome
  have hreach : Reachable (fun m => m = validate [peerCert 5] [clientRoot] 5) (step oneDigest [])
      Anything m := Reachable.run (.start rfl) hrun
  exact ⟨m, houtcome, sound_iff_rooted hreach hcomplete hgood⟩

end CWTLSCertChainAO

end OsSecurity

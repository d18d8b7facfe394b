/-
What the key data manager keeps in step, whatever fails.

`Synchronised` is what the manager owes its callers: that memory and the committed store say
the same, and that every key has its streams.  A run may break it in two ways.  A removal
forgets the key before the commit, and when the index cannot be written it puts the key back
behind the others; and an addition that fails over the index leaves it uncommitted in the
store, for the next call to commit.  `Undisturbed` says of one call that it does neither, and
runs of such calls keep `Invariant`.
-/
import OsSecurity.Library.IndexedLists
import OsSecurity.Tokens.KeyDataManager

namespace OsSecurity

open IndexedLists List TransactionalStore Transitions

variable {s : Session} {id : StreamId}

namespace CFileKeyDataManager

/-- Memory and the committed store say the same. -/
structure Synchronised (m : CFileKeyDataManager) : Prop where
  index : m.iFileStore.committed m.iInfoStreamId =
    some (.index m.iPassStreamId m.iTimeoutStreamId m.iKeys)
  timeout : m.iFileStore.committed m.iTimeoutStreamId = some (.timeout m.iTimeout)
  streams : ∀ key ∈ m.iKeys, ∀ id ∈ key.streams, (m.iFileStore.committed id).isSome
  passphrase : m.iPassStreamId = KNullStreamId ↔ m.iKeys = []

/-- What a call that leaves must not have changed. -/
structure Unchanged (m r : CFileKeyDataManager) : Prop where
  keys : r.iKeys = m.iKeys
  passphrase : r.iPassStreamId = m.iPassStreamId
  timeout : r.iTimeout = m.iTimeout
  committed : r.iFileStore.committed = m.iFileStore.committed
  infoStream : r.iInfoStreamId = m.iInfoStreamId
  timeoutStream : r.iTimeoutStreamId = m.iTimeoutStreamId

/-- The working content of the index is the committed one. -/
def IndexKept (m : CFileKeyDataManager) : Prop :=
  m.iFileStore.working m.iInfoStreamId = m.iFileStore.committed m.iInfoStreamId

/-- A call that leads to neither of the two defects. -/
def Undisturbed (m : CFileKeyDataManager) : Call → Prop
  | .storeKey _ _ => True
  | .remove o aObjectId =>
    let index := m.iKeys.findIdx fun key => key.iObjectId = aObjectId
    index < m.iKeys.length → o.privateData = .done → o.publicData = .done → o.infoData = .done →
      (m.iKeys.length = 1 → o.passphrase = .done) →
        (o.index = .done → o.commit = .done) ∧
          (o.index ≠ .done → index + 1 = m.iKeys.length ∧ o.append = .done)
  | .safeWriteKeyInfo write commit aObjectId _ =>
    (∃ key ∈ m.iKeys, key.iObjectId = aObjectId) → write = .done → commit = .done → m.IndexKept
  | .setPassphraseTimeout write commit _ => write = .done → commit = .done → m.IndexKept

/-- The store hands out streams that it does not have yet, and the passphrase has a stream of
its own. -/
def Allowed (m : CFileKeyDataManager) : Call → Prop
  | .storeKey _ k =>
    m.iFileStore.working k.infoData = none ∧ m.iFileStore.working k.publicKeyData = none ∧
      m.iFileStore.working k.privateKeyData = none ∧
      [k.infoData, k.publicKeyData, k.privateKeyData].Nodup ∧
      k.aPassStreamId ≠ KNullStreamId ∧ k.aPassStreamId ≠ m.iInfoStreamId ∧
      k.aPassStreamId ≠ m.iTimeoutStreamId
  | _ => True

instance (m : CFileKeyDataManager) : DecidablePred m.Allowed := fun c => by
  cases c <;> unfold Allowed <;> infer_instance

/-- A manager, and the handles of all the keys it has had. -/
structure Session where
  manager : CFileKeyDataManager
  issued : List Int

/-- The handles that a call has put on the list. -/
def issuedBy (m : CFileKeyDataManager) : Call → Leaving Unit → List Int
  | .storeKey _ _, .ok () => [m.iKeyIdentifier + 1]
  | _, _ => []

/-- A call that returns or leaves. -/
def step (s : Session) (c : Call) : Option Session :=
  if s.manager.Allowed c then
    match s.manager.call c with
    | (r, .ok ()) => some ⟨r, s.issued ++ issuedBy s.manager c (.ok ())⟩
    | (r, .error (.leave e)) => some ⟨r, s.issued ++ issuedBy s.manager c (leave e)⟩
    | (_, .error _) => none
  else none

/-! ### The invariant -/

structure Invariant (s : Session) : Prop extends Synchronised s.manager where
  /-- nothing that is committed is gone from the working content -/
  kept : ∀ id, (s.manager.iFileStore.committed id).isSome → (s.manager.iFileStore.working id).isSome
  timeoutKept : s.manager.iFileStore.working s.manager.iTimeoutStreamId =
    s.manager.iFileStore.committed s.manager.iTimeoutStreamId
  infoStream : s.manager.iInfoStreamId ≠ KNullStreamId
  timeoutStream : s.manager.iTimeoutStreamId ≠ KNullStreamId
  twoStreams : s.manager.iInfoStreamId ≠ s.manager.iTimeoutStreamId
  passApart : s.manager.iPassStreamId ≠ s.manager.iInfoStreamId ∧
    s.manager.iPassStreamId ≠ s.manager.iTimeoutStreamId
  apart : ∀ key ∈ s.manager.iKeys, ∀ id ∈ key.streams,
    id ≠ s.manager.iInfoStreamId ∧ id ≠ s.manager.iTimeoutStreamId
  distinct : (s.manager.iKeys.flatMap CFileKeyData.streams).Nodup
  handles : ∀ key ∈ s.manager.iKeys, key.iObjectId ∈ s.issued
  handlesApart : (s.manager.iKeys.map CFileKeyData.iObjectId).Nodup
  issuedOnce : s.issued.Nodup
  issuedBefore : ∀ handle ∈ s.issued, handle ≤ s.manager.iKeyIdentifier

/-- A call that leaves, and leaves the store fit for the next one. -/
structure Left (m r : CFileKeyDataManager) : Prop extends Unchanged m r where
  identifier : m.iKeyIdentifier ≤ r.iKeyIdentifier
  kept : ∀ id, (r.iFileStore.committed id).isSome → (r.iFileStore.working id).isSome
  timeoutKept : r.iFileStore.working r.iTimeoutStreamId =
    r.iFileStore.committed r.iTimeoutStreamId

theorem Invariant.left (h : Invariant s) {r : CFileKeyDataManager} (hr : Left s.manager r) :
    Invariant ⟨r, s.issued⟩ := by
  obtain ⟨⟨hkeys, hpass, htimeout, hcommitted, hinfo, htimeoutStream⟩, hid, hkept, htk⟩ := hr
  refine ⟨⟨?_, ?_, ?_, ?_⟩, hkept, htk, ?_, ?_, ?_, ?_, ?_, ?_, ?_, ?_, h.issuedOnce, ?_⟩
  · simpa only [hkeys, hpass, hcommitted, hinfo, htimeoutStream] using h.index
  · simpa only [htimeout, hcommitted, htimeoutStream] using h.timeout
  · simpa only [hkeys, hcommitted] using h.streams
  · simpa only [hkeys, hpass] using h.passphrase
  · simpa only [hinfo] using h.infoStream
  · simpa only [htimeoutStream] using h.timeoutStream
  · simpa only [hinfo, htimeoutStream] using h.twoStreams
  · simpa only [hpass, hinfo, htimeoutStream] using h.passApart
  · simpa only [hkeys, hinfo, htimeoutStream] using h.apart
  · simpa only [hkeys] using h.distinct
  · simpa only [hkeys] using h.handles
  · simpa only [hkeys] using h.handlesApart
  · intro handle hhandle
    exact Int.le_trans (h.issuedBefore handle hhandle) hid

/-! ### Streams written before the index -/

/-- Nothing but the working content of some streams is another, and no stream is gone. -/
structure Grown (ids : List StreamId) (m r : CFileKeyDataManager) : Prop extends Unchanged m r where
  identifier : r.iKeyIdentifier = m.iKeyIdentifier
  elsewhere : ∀ id ∉ ids, r.iFileStore.working id = m.iFileStore.working id
  grown : ∀ id, (m.iFileStore.working id).isSome → (r.iFileStore.working id).isSome

theorem Unchanged.refl (m : CFileKeyDataManager) : Unchanged m m := ⟨rfl, rfl, rfl, rfl, rfl, rfl⟩

theorem Unchanged.trans {m r t : CFileKeyDataManager} (h : Unchanged m r) (h' : Unchanged r t) :
    Unchanged m t :=
  ⟨h'.keys.trans h.keys, h'.passphrase.trans h.passphrase, h'.timeout.trans h.timeout,
    h'.committed.trans h.committed, h'.infoStream.trans h.infoStream,
    h'.timeoutStream.trans h.timeoutStream⟩

variable {ids : List StreamId} {m r t : CFileKeyDataManager}

theorem Grown.refl (ids : List StreamId) (m : CFileKeyDataManager) : Grown ids m m :=
  ⟨.refl m, rfl, fun _ _ => rfl, fun _ h => h⟩

theorem Grown.trans (h : Grown ids m r) (h' : Grown ids r t) : Grown ids m t :=
  ⟨h.toUnchanged.trans h'.toUnchanged, h'.identifier.trans h.identifier,
    fun id hid => (h'.elsewhere id hid).trans (h.elsewhere id hid),
    fun id hid => h'.grown id (h.grown id hid)⟩

theorem grown_write (hid : id ∈ ids) (b : KeyStream) (m : CFileKeyDataManager) :
    Grown ids m { m with iFileStore := m.iFileStore.write id b } := by
  refine ⟨⟨rfl, rfl, rfl, rfl, rfl, rfl⟩, rfl, ?_, fun _ h => Store.isSome_write h⟩
  intro i hi
  exact Store.write_of_ne fun heq => hi (heq ▸ hid)

/-- A stream is written, or the call leaves here. -/
theorem perform_write {P : KeyCallResult → Prop} {o : Outcome} {b : KeyStream}
    {rest : CFileKeyDataManager → KeyCallResult} (hid : id ∈ ids)
    (hleave : ∀ r e, Grown ids m r → P (r, leave e))
    (hrest : ∀ r, Grown ids m r → (r.iFileStore.working id).isSome → P (rest r)) :
    P (m.perform o (fun s => s.write id b) rest) := by
  cases o with
  | done => exact hrest _ (grown_write hid b m) (by simp)
  | failed e => exact hleave m e (.refl ids m)
  | late e => exact hleave _ e (grown_write hid b m)

theorem createWriteStreamL_ind {P : KeyCallResult → Prop} {o : Outcome}
    {rest : CFileKeyDataManager → KeyCallResult} (hid : id ∈ ids)
    (hleave : ∀ r e, Grown ids m r → P (r, leave e))
    (hrest : ∀ r, Grown ids m r → (r.iFileStore.working id).isSome → P (rest r)) :
    P (m.createWriteStreamL o id rest) := by
  refine perform_write hid hleave ?_
  intro r hr hsome
  by_cases hnull : id = KNullStreamId
  · simp only [if_pos hnull]
    exact hleave r _ hr
  · simp only [if_neg hnull]
    exact hrest r hr hsome

/-! ### An addition -/

/-- The list with a key more, written and committed. -/
def added (m : CFileKeyDataManager) (key : CFileKeyData) : CFileKeyDataManager :=
  let pass := if (m.iKeys ++ [key]).length = 1 then key.iPassphraseId else m.iPassStreamId
  { m with
    iKeys := m.iKeys ++ [key]
    iPassStreamId := pass
    iFileStore := (m.iFileStore.write m.iInfoStreamId
      (.index pass m.iTimeoutStreamId (m.iKeys ++ [key]))).commit }

theorem addL_cases (m : CFileKeyDataManager) (append index commit : Outcome) (key : CFileKeyData) :
    (∃ r e, m.addL append index commit key = (r, leave e) ∧ Unchanged m r ∧
      r.iKeyIdentifier = m.iKeyIdentifier ∧
      (Grown [m.iInfoStreamId] m r ∨ r.iFileStore.working = m.iFileStore.committed)) ∨
    m.addL append index commit key = (m.added key, .ok ()) := by
  have hback : (m.iKeys ++ [key]).dropLast = m.iKeys := dropLast_concat
  cases append with
  | failed e => exact Or.inl ⟨m, e, rfl, .refl m, rfl, Or.inl (.refl _ m)⟩
  | late e => exact Or.inl ⟨m, e, rfl, .refl m, rfl, Or.inl (.refl _ m)⟩
  | done =>
      cases index with
      | failed e =>
        refine Or.inl ⟨_, e, rfl, ⟨hback, rfl, rfl, rfl, rfl, rfl⟩, rfl, Or.inl ?_⟩
        exact ⟨⟨hback, rfl, rfl, rfl, rfl, rfl⟩, rfl, fun _ _ => rfl, fun _ h => h⟩
      | late e =>
        have hmem : m.iInfoStreamId ∈ [m.iInfoStreamId] := mem_singleton.mpr rfl
        have hgrown := grown_write hmem
          (.index (if (m.iKeys ++ [key]).length = 1 then key.iPassphraseId else m.iPassStreamId)
            m.iTimeoutStreamId (m.iKeys ++ [key])) m
        refine Or.inl ⟨_, e, rfl, ⟨hback, rfl, rfl, rfl, rfl, rfl⟩, rfl, Or.inl ?_⟩
        exact ⟨⟨hback, rfl, rfl, rfl, rfl, rfl⟩, rfl, hgrown.elsewhere, hgrown.grown⟩
      | done =>
        cases commit with
        | failed e =>
          exact Or.inl ⟨_, e, rfl, ⟨hback, rfl, rfl, rfl, rfl, rfl⟩, rfl, Or.inr rfl⟩
        | late e =>
          exact Or.inl ⟨_, e, rfl, ⟨hback, rfl, rfl, rfl, rfl, rfl⟩, rfl, Or.inr rfl⟩
        | done => exact Or.inr rfl

theorem Grown.mono {ids' : List StreamId} (hsub : ∀ id ∈ ids, id ∈ ids') (h : Grown ids m r) :
    Grown ids' m r :=
  ⟨h.toUnchanged, h.identifier, fun id hid => h.elsewhere id fun hmem => hid (hsub id hmem),
    h.grown⟩

/-- The streams that the manager needs are there to begin with. -/
theorem Invariant.workingIndex (h : Invariant s) :
    (s.manager.iFileStore.working s.manager.iInfoStreamId).isSome :=
  h.kept _ (by rw [h.index]; rfl)

theorem Invariant.workingTimeout (h : Invariant s) :
    (s.manager.iFileStore.working s.manager.iTimeoutStreamId).isSome :=
  h.kept _ (by rw [h.timeout]; rfl)

theorem Invariant.left_of_grown (h : Invariant s) {i : Int} (hi : s.manager.iKeyIdentifier ≤ i)
    (htimeout : s.manager.iTimeoutStreamId ∉ ids)
    (hr : Grown ids { s.manager with iKeyIdentifier := i } r) : Left s.manager r := by
  have hcommitted := hr.committed
  refine ⟨⟨hr.keys, hr.passphrase, hr.timeout, hcommitted, hr.infoStream, hr.timeoutStream⟩, ?_,
    ?_, ?_⟩
  · rw [hr.identifier]
    exact hi
  · intro id hid
    rw [hcommitted] at hid
    exact hr.grown id (h.kept id hid)
  · rw [hcommitted, hr.timeoutStream]
    exact (hr.elsewhere _ htimeout).trans h.timeoutKept

/-- A new key with its three streams, put on the list and committed. -/
theorem Invariant.added (h : Invariant s) {k : NewKey} {o : AddOutcomes}
    (hk : s.manager.Allowed (.storeKey o k))
    (hr : Grown [k.infoData, k.publicKeyData, k.privateKeyData] { s.manager with iKeyIdentifier := s.manager.iKeyIdentifier + 1 } r)
    (hsome : ∀ id ∈ (k.data (s.manager.iKeyIdentifier + 1)).streams, (r.iFileStore.working id).isSome) :
    Invariant ⟨r.added (k.data (s.manager.iKeyIdentifier + 1)),
      s.issued ++ [s.manager.iKeyIdentifier + 1]⟩ := by
  obtain ⟨hinfo, hpublic, hprivate, hnodup, hpass, hpassInfo, hpassTimeout⟩ := hk
  have hfresh : ∀ id ∈ [k.infoData, k.publicKeyData, k.privateKeyData],
      s.manager.iFileStore.working id = none := by
    simp only [forall_mem_cons]
    exact ⟨hinfo, hpublic, hprivate, by simp⟩
  have hother : ∀ id ∈ [k.infoData, k.publicKeyData, k.privateKeyData], ∀ j,
      (s.manager.iFileStore.working j).isSome → id ≠ j := by
    rintro id hid j hj rfl
    rw [hfresh id hid] at hj
    cases hj
  have hold : ∀ key ∈ s.manager.iKeys, ∀ id ∈ key.streams,
      (s.manager.iFileStore.working id).isSome :=
    fun key hkey id hid => h.kept id (h.streams key hkey id hid)
  obtain ⟨⟨hkeys, hrpass, htimeout, hcommitted, hrinfo, hrtimeout⟩, hidentifier, helsewhere,
    hgrown⟩ := hr
  simp only at hkeys hrpass htimeout hcommitted hrinfo hrtimeout hidentifier helsewhere hgrown
  have hfinal : ∀ id, (r.iFileStore.working id).isSome →
      ((r.added (k.data (s.manager.iKeyIdentifier + 1))).iFileStore.committed id).isSome :=
    fun id hid => Store.isSome_write hid
  have htimeoutFree : s.manager.iTimeoutStreamId ∉
      [k.infoData, k.publicKeyData, k.privateKeyData] :=
    fun hmem => hother _ hmem _ h.workingTimeout rfl
  have htwo : r.iTimeoutStreamId ≠ r.iInfoStreamId := by
    rw [hrinfo, hrtimeout]
    exact h.twoStreams.symm
  have htimeoutStream : (r.added (k.data (s.manager.iKeyIdentifier + 1))).iFileStore.committed
      r.iTimeoutStreamId = some (.timeout r.iTimeout) := by
    have hsame := Store.write_of_ne htwo (s := r.iFileStore)
      (b := .index (r.added (k.data (s.manager.iKeyIdentifier + 1))).iPassStreamId
        r.iTimeoutStreamId (r.iKeys ++ [k.data (s.manager.iKeyIdentifier + 1)]))
    refine hsame.trans ?_
    rw [hrtimeout, helsewhere _ htimeoutFree, h.timeoutKept, h.timeout, htimeout]
  have hpassCases : (s.manager.iKeys = [] ∧
      (r.added (k.data (s.manager.iKeyIdentifier + 1))).iPassStreamId = k.aPassStreamId) ∨
      (s.manager.iKeys ≠ [] ∧ (r.added (k.data (s.manager.iKeyIdentifier + 1))).iPassStreamId =
        s.manager.iPassStreamId) := by
    by_cases hempty : s.manager.iKeys = []
    · refine Or.inl ⟨hempty, if_pos ?_⟩
      rw [hkeys, hempty]
      rfl
    · refine Or.inr ⟨hempty, (if_neg ?_).trans hrpass⟩
      rw [hkeys, length_append, length_singleton]
      have hpos := length_pos_iff.mpr hempty
      omega
  refine ⟨⟨?_, htimeoutStream, ?_, ?_⟩, fun _ hid => hid, rfl, ?_, ?_, ?_, ?_, ?_, ?_, ?_, ?_, ?_,
    ?_⟩
  · exact Store.write_same
  · intro key hkey id hid
    apply hfinal
    rcases mem_append.mp hkey with hkey | hkey
    · rw [hkeys] at hkey
      exact hgrown id (hold key hkey id hid)
    · rw [mem_singleton.mp hkey] at hid
      exact hsome id hid
  · have hlist : (r.added (k.data (s.manager.iKeyIdentifier + 1))).iKeys ≠ [] := by
      show r.iKeys ++ [_] ≠ []
      simp
    refine ⟨fun hnull => ?_, fun hempty => absurd hempty hlist⟩
    rcases hpassCases with ⟨hempty, heq⟩ | ⟨hne, heq⟩
    · exact absurd (heq.symm.trans hnull) hpass
    · exact absurd (h.passphrase.mp (heq.symm.trans hnull)) hne
  · show r.iInfoStreamId ≠ KNullStreamId
    rw [hrinfo]
    exact h.infoStream
  · show r.iTimeoutStreamId ≠ KNullStreamId
    rw [hrtimeout]
    exact h.timeoutStream
  · exact htwo.symm
  · show _ ≠ r.iInfoStreamId ∧ _ ≠ r.iTimeoutStreamId
    rw [hrinfo, hrtimeout]
    rcases hpassCases with ⟨-, heq⟩ | ⟨-, heq⟩
    · rw [heq]
      exact ⟨hpassInfo, hpassTimeout⟩
    · rw [heq]
      exact h.passApart
  · intro key hkey id hid
    show id ≠ r.iInfoStreamId ∧ id ≠ r.iTimeoutStreamId
    rw [hrinfo, hrtimeout]
    rcases mem_append.mp hkey with hkey | hkey
    · rw [hkeys] at hkey
      exact h.apart key hkey id hid
    · rw [mem_singleton.mp hkey] at hid
      exact ⟨hother id hid _ h.workingIndex, hother id hid _ h.workingTimeout⟩
  · show ((r.iKeys ++ [_]).flatMap CFileKeyData.streams).Nodup
    rw [hkeys, flatMap_append, flatMap_singleton, nodup_append]
    refine ⟨h.distinct, hnodup, fun id hid j hj => ?_⟩
    obtain ⟨key, hkey, hmem⟩ := mem_flatMap.mp hid
    exact fun heq => hother j hj id (hold key hkey id hmem) heq.symm
  · intro key hkey
    rcases mem_append.mp hkey with hkey | hkey
    · rw [hkeys] at hkey
      exact mem_append_left _ (h.handles key hkey)
    · rw [mem_singleton.mp hkey]
      exact mem_append_right _ (mem_singleton.mpr rfl)
  · show ((r.iKeys ++ [_]).map CFileKeyData.iObjectId).Nodup
    rw [hkeys, map_append, map_singleton, nodup_append]
    refine ⟨h.handlesApart, by simp, fun handle hhandle j hj => ?_⟩
    obtain ⟨key, hkey, heq⟩ := mem_map.mp hhandle
    have hle := h.issuedBefore _ (h.handles key hkey)
    have hnew : j = s.manager.iKeyIdentifier + 1 := mem_singleton.mp hj
    omega
  · rw [nodup_append]
    refine ⟨h.issuedOnce, by simp, fun handle hhandle j hj => ?_⟩
    have hle := h.issuedBefore handle hhandle
    rw [mem_singleton.mp hj]
    omega
  · intro handle hhandle
    show handle ≤ r.iKeyIdentifier
    rw [hidentifier]
    rcases mem_append.mp hhandle with hhandle | hhandle
    · have hle := h.issuedBefore handle hhandle
      omega
    · rw [mem_singleton.mp hhandle]

/-- How a key addition ends, where it ends. -/
theorem storeKeyL_cases (h : Invariant s) {k : NewKey} {o : AddOutcomes}
    (hk : s.manager.Allowed (.storeKey o k)) :
    (∃ r, s.manager.storeKeyL o k = (r, .error .undefined)) ∨
    (∃ r e, s.manager.storeKeyL o k = (r, leave e) ∧ Left s.manager r) ∨
    (∃ r, s.manager.storeKeyL o k = (r, .ok ()) ∧
      Invariant ⟨r, s.issued ++ [s.manager.iKeyIdentifier + 1]⟩) := by
  unfold storeKeyL
  by_cases hmax : KMaxTInt ≤ s.manager.iKeyIdentifier
  · exact Or.inl ⟨s.manager, if_pos hmax⟩
  rw [if_neg hmax]
  refine Or.inr ?_
  have hfree : s.manager.iTimeoutStreamId ∉
      [k.infoData, k.publicKeyData, k.privateKeyData] := by
    intro hmem
    have hsome := h.workingTimeout
    obtain ⟨hinfo, hpublic, hprivate, -⟩ := hk
    simp only [mem_cons, not_mem_nil, or_false] at hmem
    rcases hmem with heq | heq | heq
    · rw [heq, hinfo] at hsome
      cases hsome
    · rw [heq, hpublic] at hsome
      cases hsome
    · rw [heq, hprivate] at hsome
      cases hsome
  let P : KeyCallResult → Prop := fun result =>
    (∃ r e, result = (r, leave e) ∧ Left s.manager r) ∨
      (∃ r, result = (r, .ok ()) ∧ Invariant ⟨r, s.issued ++ [s.manager.iKeyIdentifier + 1]⟩)
  let new := [k.infoData, k.publicKeyData, k.privateKeyData]
  have hleave : ∀ r e, Grown new
      { s.manager with iKeyIdentifier := s.manager.iKeyIdentifier + 1 } r → P (r, leave e) :=
    fun r e hr => Or.inl ⟨r, e, rfl, h.left_of_grown (by omega) hfree hr⟩
  have hinfo : k.infoData ∈ new := by simp [new]
  have hpublic : k.publicKeyData ∈ new := by simp [new]
  have hprivate : k.privateKeyData ∈ new := by simp [new]
  show P _
  refine createWriteStreamL_ind hinfo hleave ?_
  intro r₁ h₁ hsome₁
  refine createWriteStreamL_ind hpublic (fun r e hr => hleave r e (h₁.trans hr)) ?_
  intro r₂ h₂ hsome₂
  refine createWriteStreamL_ind hprivate (fun r e hr => hleave r e ((h₁.trans h₂).trans hr)) ?_
  intro r₃ h₃ hsome₃
  have h₁₃ := (h₁.trans h₂).trans h₃
  refine perform_write hprivate (fun r e hr => hleave r e (h₁₃.trans hr)) ?_
  intro r₄ h₄ _
  refine perform_write hpublic (fun r e hr => hleave r e ((h₁₃.trans h₄).trans hr)) ?_
  intro r₅ h₅ _
  have h₁₅ := (h₁₃.trans h₄).trans h₅
  refine perform_write hinfo (fun r e hr => hleave r e (h₁₅.trans hr)) ?_
  intro r₆ h₆ _
  have h₁₆ := h₁₅.trans h₆
  have hstreams : ∀ id ∈ (k.data (s.manager.iKeyIdentifier + 1)).streams,
      (r₆.iFileStore.working id).isSome := by
    have hlater : ∀ id, (r₃.iFileStore.working id).isSome → (r₆.iFileStore.working id).isSome :=
      fun id hid => h₆.grown id (h₅.grown id (h₄.grown id hid))
    show ∀ id ∈ [k.infoData, k.publicKeyData, k.privateKeyData], _
    simp only [forall_mem_cons]
    exact ⟨hlater _ (h₃.grown _ (h₂.grown _ hsome₁)), hlater _ (h₃.grown _ hsome₂),
      hlater _ hsome₃, by simp⟩
  rcases addL_cases r₆ o.append o.index o.commit (k.data (s.manager.iKeyIdentifier + 1)) with
    ⟨r, e, heq, hsame, hid, hstore⟩ | heq
  · rw [heq]
    refine Or.inl ⟨r, e, rfl, ?_⟩
    rcases hstore with hgrown | hreverted
    · have hall : Grown (r₆.iInfoStreamId :: new)
          { s.manager with iKeyIdentifier := s.manager.iKeyIdentifier + 1 } r :=
        (h₁₆.mono fun id hmem => mem_cons_of_mem _ hmem).trans
          (hgrown.mono fun id hmem => mem_cons.mpr (Or.inl (mem_singleton.mp hmem)))
      refine h.left_of_grown (by omega) ?_ hall
      rw [h₁₆.infoStream]
      intro hmem
      rcases mem_cons.mp hmem with heq | hmem
      · exact h.twoStreams heq.symm
      · exact hfree hmem
    · have hboth := h₁₆.toUnchanged.trans hsame
      have hcommitted : r.iFileStore.working = r.iFileStore.committed := by
        rw [hreverted, hsame.committed]
      refine ⟨⟨hboth.keys, hboth.passphrase, hboth.timeout, hboth.committed, hboth.infoStream,
        hboth.timeoutStream⟩, ?_, ?_, ?_⟩
      · rw [hid, h₁₆.identifier]
        show _ ≤ s.manager.iKeyIdentifier + 1
        omega
      · intro id hid
        rw [hcommitted]
        exact hid
      · rw [hcommitted]
  · rw [heq]
    exact Or.inr ⟨_, rfl, h.added hk h₁₆ hstreams⟩

/-! ### Calls under the cleanup item -/

theorem left_of_reverted (hr : Unchanged m r) (hid : r.iKeyIdentifier = m.iKeyIdentifier) :
    Left m r.revertStore :=
  ⟨⟨hr.keys, hr.passphrase, hr.timeout, hr.committed, hr.infoStream, hr.timeoutStream⟩,
    Int.le_of_eq hid.symm, fun _ h => h, rfl⟩

/-- A stream is deleted, or the call leaves here. -/
theorem perform_delete {P : KeyCallResult → Prop} {o : Outcome}
    {rest : CFileKeyDataManager → KeyCallResult}
    (hleave : ∀ r e, Unchanged m r → r.iKeyIdentifier = m.iKeyIdentifier → P (r, leave e))
    (hrest : o = .done → P (rest { m with iFileStore := m.iFileStore.delete id })) :
    P (m.perform o (fun s => s.delete id) rest) := by
  cases o with
  | done => exact hrest rfl
  | failed e => exact hleave m e (.refl m) rfl
  | late e => exact hleave _ e ⟨rfl, rfl, rfl, rfl, rfl, rfl⟩ rfl

/-- The committed store without the key. -/
theorem Invariant.removed (h : Invariant s) {front back : List CFileKeyData} {key : CFileKeyData}
    (hkeys : s.manager.iKeys = front ++ key :: back) {content : StreamId → Option KeyStream}
    {pass : StreamId}
    (hindex : content s.manager.iInfoStreamId = some (.index pass s.manager.iTimeoutStreamId (front ++ back)))
    (hsame : ∀ id, id ≠ s.manager.iInfoStreamId → id ∉ key.streams → (s.manager.iKeys.length = 1 → id ≠ s.manager.iPassStreamId) → content id = s.manager.iFileStore.working id)
    (hpass : pass = if s.manager.iKeys.length = 1 then KNullStreamId else s.manager.iPassStreamId) :
    Invariant ⟨{ s.manager with
      iKeys := front ++ back
      iPassStreamId := pass
      iFileStore := ⟨content, content⟩ }, s.issued⟩ := by
  have hmem : ∀ other ∈ front ++ back, other ∈ s.manager.iKeys := by
    intro other hother
    rw [hkeys]
    rcases mem_append.mp hother with hother | hother
    · exact mem_append_left _ hother
    · exact mem_append_right _ (mem_cons_of_mem _ hother)
  have hkey : key ∈ s.manager.iKeys := by
    rw [hkeys]
    simp
  have hdistinct := h.distinct
  rw [hkeys, flatMap_append, flatMap_cons, ← List.append_assoc] at hdistinct
  have hapart : ∀ other ∈ front ++ back, ∀ id ∈ other.streams, id ∉ key.streams := by
    intro other hother id hid hkeyId
    rw [nodup_append, nodup_append] at hdistinct
    obtain ⟨⟨-, -, hfront⟩, -, hback⟩ := hdistinct
    rcases mem_append.mp hother with hother | hother
    · exact hfront id (mem_flatMap.mpr ⟨other, hother, hid⟩) id hkeyId rfl
    · exact hback id (mem_append_right _ hkeyId) id
        (mem_flatMap.mpr ⟨other, hother, hid⟩) rfl
  have htimeout : content s.manager.iTimeoutStreamId = some (.timeout s.manager.iTimeout) := by
    rw [hsame _ h.twoStreams.symm (fun hid => (h.apart key hkey _ hid).2 rfl)
      (fun _ heq => h.passApart.2 heq.symm), h.timeoutKept]
    exact h.timeout
  have hone : s.manager.iKeys.length = 1 ↔ front ++ back = [] := by
    rw [hkeys, length_append, length_cons, ← length_eq_zero_iff, length_append]
    omega
  refine ⟨⟨hindex, htimeout, ?_, ?_⟩, fun _ hid => hid, rfl, h.infoStream, h.timeoutStream,
    h.twoStreams, ?_, ?_, ?_, ?_, ?_, h.issuedOnce, h.issuedBefore⟩
  · intro other hother id hid
    have hworking : content id = s.manager.iFileStore.working id := by
      refine hsame id (h.apart other (hmem other hother) id hid).1 (hapart other hother id hid) ?_
      intro hlength
      rw [hone.mp hlength] at hother
      cases hother
    show (content id).isSome
    rw [hworking]
    exact h.kept id (h.streams other (hmem other hother) id hid)
  · show pass = KNullStreamId ↔ front ++ back = []
    rw [hpass, ← hone]
    by_cases hlength : s.manager.iKeys.length = 1
    · simp [hlength]
    · rw [if_neg hlength, h.passphrase]
      refine ⟨fun hempty => ?_, fun heq => absurd heq hlength⟩
      rw [hempty] at hkey
      cases hkey
  · show pass ≠ s.manager.iInfoStreamId ∧ pass ≠ s.manager.iTimeoutStreamId
    rw [hpass]
    split
    · exact ⟨h.infoStream.symm, h.timeoutStream.symm⟩
    · exact h.passApart
  · exact fun other hother => h.apart other (hmem other hother)
  · show ((front ++ back).flatMap CFileKeyData.streams).Nodup
    rw [flatMap_append]
    refine hdistinct.sublist ?_
    exact Sublist.append (sublist_append_left _ _) (Sublist.refl _)
  · exact fun other hother => h.handles other (hmem other hother)
  · have hapart := h.handlesApart
    rw [hkeys] at hapart
    exact hapart.sublist (((Sublist.refl _).append (sublist_cons_self _ _)).map _)

theorem unlistL_cases (d : CFileKeyDataManager) (o : RemoveOutcomes) {index : Nat}
    {key : CFileKeyData} (oldPassphraseId : StreamId) (hcommit : o.index = .done → o.commit = .done)
    (hback : o.index ≠ .done → d.iKeys.eraseIdx index ++ [key] = d.iKeys ∧ o.append = .done) :
    (∃ r e, d.unlistL o index key oldPassphraseId = (r, leave e) ∧
      Unchanged { d with iPassStreamId := oldPassphraseId } r ∧
        r.iKeyIdentifier = d.iKeyIdentifier) ∨
    d.unlistL o index key oldPassphraseId = ({ d with
      iKeys := d.iKeys.eraseIdx index
      iFileStore := (d.iFileStore.write d.iInfoStreamId
        (.index d.iPassStreamId d.iTimeoutStreamId (d.iKeys.eraseIdx index))).commit }, .ok ()) := by
  unfold unlistL
  cases hindex : o.index with
  | done =>
      rw [hcommit hindex]
      exact Or.inr rfl
  | failed e =>
      obtain ⟨hkeys, happend⟩ := hback (by simp [hindex])
      rw [happend]
      exact Or.inl ⟨_, e, rfl, ⟨hkeys, rfl, rfl, rfl, rfl, rfl⟩, rfl⟩
  | late e =>
      obtain ⟨hkeys, happend⟩ := hback (by simp [hindex])
      rw [happend]
      exact Or.inl ⟨_, e, rfl, ⟨hkeys, rfl, rfl, rfl, rfl, rfl⟩, rfl⟩

theorem Invariant.left_refl (h : Invariant s) : Left s.manager s.manager :=
  ⟨.refl _, Int.le_refl _, h.kept, h.timeoutKept⟩

/-- How an undisturbed removal ends. -/
theorem removeL_cases (h : Invariant s) {o : RemoveOutcomes} {aObjectId : Int}
    (hok : s.manager.Undisturbed (.remove o aObjectId)) :
    (∃ r e, s.manager.removeL o aObjectId = (r, leave e) ∧ Left s.manager r) ∨
    (∃ r, s.manager.removeL o aObjectId = (r, .ok ()) ∧ Invariant ⟨r, s.issued⟩) := by
  unfold removeL
  simp only
  generalize hindex : (s.manager.iKeys.findIdx fun key => key.iObjectId = aObjectId) = index
  cases hkey : s.manager.iKeys[index]? with
  | none => exact Or.inl ⟨s.manager, _, rfl, h.left_refl⟩
  | some key =>
      have hlt : index < s.manager.iKeys.length := (List.getElem?_eq_some_iff.mp hkey).1
      obtain ⟨hsplit, herase⟩ := eraseIdx_split hkey
      simp only [Undisturbed, hindex] at hok
      let P : KeyCallResult → Prop := fun result =>
        (∃ r e, reverting result = (r, leave e) ∧ Left s.manager r) ∨
          (∃ r, reverting result = (r, .ok ()) ∧ Invariant ⟨r, s.issued⟩)
      have hleave : ∀ r e, Unchanged s.manager r →
          r.iKeyIdentifier = s.manager.iKeyIdentifier → P (r, leave e) :=
        fun r e hr hid => Or.inl ⟨_, e, rfl, left_of_reverted hr hid⟩
      show P _
      refine perform_delete hleave fun hprivate => ?_
      refine perform_delete (fun r e hr => hleave r e ⟨hr.keys, hr.passphrase, hr.timeout,
        hr.committed, hr.infoStream, hr.timeoutStream⟩) fun hpublic => ?_
      refine perform_delete (fun r e hr => hleave r e ⟨hr.keys, hr.passphrase, hr.timeout,
        hr.committed, hr.infoStream, hr.timeoutStream⟩) fun hinfo => ?_
      have hok' := hok hlt hprivate hpublic hinfo
      have hlast : ∀ hpass : s.manager.iKeys.length = 1 → o.passphrase = .done,
          o.index ≠ .done → s.manager.iKeys.eraseIdx index ++ [key] = s.manager.iKeys ∧
            o.append = .done := by
        intro hpass hne
        obtain ⟨hend, happend⟩ := (hok' hpass).2 hne
        exact ⟨eraseIdx_last hkey hend, happend⟩
      have hin : ∀ id ∉ key.streams, id ≠ key.iInfoData ∧ id ≠ key.iPublicKeyData ∧
          id ≠ key.iPrivateKeyData := by
        intro id hid
        simpa [CFileKeyData.streams] using hid
      let deleted := ((s.manager.iFileStore.delete key.iPrivateKeyData).delete
        key.iPublicKeyData).delete key.iInfoData
      by_cases hone : s.manager.iKeys.length = 1
      · simp only [if_pos hone]
        refine perform_delete (fun r e hr => hleave r e ⟨hr.keys, hr.passphrase, hr.timeout,
          hr.committed, hr.infoStream, hr.timeoutStream⟩) fun hpassphrase => ?_
        have hpass : s.manager.iKeys.length = 1 → o.passphrase = .done := fun _ => hpassphrase
        let d : CFileKeyDataManager := { s.manager with
          iFileStore := deleted.delete s.manager.iPassStreamId
          iPassStreamId := KNullStreamId }
        show P (d.unlistL o index key s.manager.iPassStreamId)
        rcases unlistL_cases d o s.manager.iPassStreamId (hok' hpass).1 (hlast hpass) with
          ⟨r, e, heq, hr, hid⟩ | heq
        · rw [heq]
          exact hleave r e ⟨hr.keys, hr.passphrase, hr.timeout, hr.committed, hr.infoStream,
            hr.timeoutStream⟩ hid
        · rw [heq]
          refine Or.inr ⟨_, rfl, ?_⟩
          have hd : d.iKeys.eraseIdx index = s.manager.iKeys.take index ++
              s.manager.iKeys.drop (index + 1) := herase
          rw [hd]
          refine h.removed hsplit Store.write_same ?_ (if_pos hone).symm
          intro id hid hstreams hnotPass
          obtain ⟨hi, hpu, hpr⟩ := hin id hstreams
          rw [Store.write_of_ne hid, Store.delete_of_ne (hnotPass hone), Store.delete_of_ne hi,
            Store.delete_of_ne hpu, Store.delete_of_ne hpr]
      · simp only [if_neg hone]
        have hpass : s.manager.iKeys.length = 1 → o.passphrase = .done :=
          fun heq => absurd heq hone
        let d : CFileKeyDataManager := { s.manager with iFileStore := deleted }
        show P (d.unlistL o index key s.manager.iPassStreamId)
        rcases unlistL_cases d o s.manager.iPassStreamId (hok' hpass).1 (hlast hpass) with
          ⟨r, e, heq, hr, hid⟩ | heq
        · rw [heq]
          exact hleave r e ⟨hr.keys, hr.passphrase, hr.timeout, hr.committed, hr.infoStream,
            hr.timeoutStream⟩ hid
        · rw [heq]
          refine Or.inr ⟨_, rfl, ?_⟩
          have hd : d.iKeys.eraseIdx index = s.manager.iKeys.take index ++
              s.manager.iKeys.drop (index + 1) := herase
          rw [hd]
          refine h.removed hsplit Store.write_same ?_ (if_neg hone).symm
          intro id hid hstreams _
          obtain ⟨hi, hpu, hpr⟩ := hin id hstreams
          rw [Store.write_of_ne hid, Store.delete_of_ne hi, Store.delete_of_ne hpu,
            Store.delete_of_ne hpr]

/-! ### Calls that leave the list alone -/

/-- The working content is committed, with the index that was committed before. -/
theorem Invariant.worked (h : Invariant s) {content : StreamId → Option KeyStream} {timeout : Int}
    (hindex : content s.manager.iInfoStreamId = s.manager.iFileStore.committed s.manager.iInfoStreamId)
    (htimeout : content s.manager.iTimeoutStreamId = some (.timeout timeout))
    (hgrown : ∀ id, (s.manager.iFileStore.working id).isSome → (content id).isSome) :
    Invariant ⟨{ s.manager with
      iTimeout := timeout
      iFileStore := ⟨content, content⟩ }, s.issued⟩ :=
  ⟨⟨hindex.trans h.index, htimeout,
      fun key hkey id hid => hgrown id (h.kept id (h.streams key hkey id hid)), h.passphrase⟩,
    fun _ hid => hid, rfl, h.infoStream, h.timeoutStream, h.twoStreams, h.passApart, h.apart,
    h.distinct, h.handles, h.handlesApart, h.issuedOnce, h.issuedBefore⟩

theorem safeWriteKeyInfoL_cases (h : Invariant s) {write commit : Outcome} {aObjectId : Int}
    {aKeyInfo : Bytes}
    (hok : s.manager.Undisturbed (.safeWriteKeyInfo write commit aObjectId aKeyInfo)) :
    (∃ r e, s.manager.safeWriteKeyInfoL write commit aObjectId aKeyInfo = (r, leave e) ∧
      Left s.manager r) ∨
    (∃ r, s.manager.safeWriteKeyInfoL write commit aObjectId aKeyInfo = (r, .ok ()) ∧
      Invariant ⟨r, s.issued⟩) := by
  unfold safeWriteKeyInfoL
  cases hfind : s.manager.iKeys.find? fun key => key.iObjectId = aObjectId with
  | none => exact Or.inl ⟨s.manager, _, rfl, h.left_refl⟩
  | some key =>
      have hkey : key ∈ s.manager.iKeys := mem_of_find?_eq_some hfind
      have hhandle : key.iObjectId = aObjectId := by simpa using find?_some hfind
      obtain ⟨hinfo, htimeout⟩ := h.apart key hkey key.iInfoData (by simp [CFileKeyData.streams])
      cases write with
      | failed e => exact Or.inl ⟨_, e, rfl, left_of_reverted (.refl _) rfl⟩
      | late e =>
        exact Or.inl ⟨_, e, rfl, left_of_reverted ⟨rfl, rfl, rfl, rfl, rfl, rfl⟩ rfl⟩
      | done =>
        cases commit with
        | failed e =>
          exact Or.inl ⟨_, e, rfl, left_of_reverted ⟨rfl, rfl, rfl, rfl, rfl, rfl⟩ rfl⟩
        | late e =>
          exact Or.inl ⟨_, e, rfl, left_of_reverted ⟨rfl, rfl, rfl, rfl, rfl, rfl⟩ rfl⟩
        | done =>
          have hindex := hok ⟨key, hkey, hhandle⟩ rfl rfl
          refine Or.inr ⟨_, rfl, h.worked ?_ ?_ fun id hid => Store.isSome_write hid⟩
          · exact (Store.write_of_ne hinfo.symm).trans hindex
          · exact (Store.write_of_ne htimeout.symm).trans (h.timeoutKept.trans h.timeout)

theorem setPassphraseTimeoutL_cases (h : Invariant s) {write commit : Outcome} {aTimeout : Int}
    (hok : s.manager.Undisturbed (.setPassphraseTimeout write commit aTimeout)) :
    (∃ r e, s.manager.setPassphraseTimeoutL write commit aTimeout = (r, leave e) ∧
      Left s.manager r) ∨
    (∃ r, s.manager.setPassphraseTimeoutL write commit aTimeout = (r, .ok ()) ∧
      Invariant ⟨r, s.issued⟩) := by
  have hleft : ∀ working, Left s.manager
      { s.manager with iFileStore := ⟨s.manager.iFileStore.committed, working⟩ }.revertStore :=
    fun _ => ⟨⟨rfl, rfl, rfl, rfl, rfl, rfl⟩, Int.le_refl _, fun _ hid => hid, rfl⟩
  cases write with
  | failed e => exact Or.inl ⟨_, e, rfl, hleft s.manager.iFileStore.working⟩
  | late e => exact Or.inl ⟨_, e, rfl, hleft s.manager.iFileStore.working⟩
  | done =>
      cases commit with
      | failed e => exact Or.inl ⟨_, e, rfl, hleft s.manager.iFileStore.working⟩
      | late e => exact Or.inl ⟨_, e, rfl, hleft s.manager.iFileStore.working⟩
      | done =>
        have hindex := hok rfl rfl
        refine Or.inr ⟨_, rfl, h.worked ?_ Store.write_same fun id hid => Store.isSome_write hid⟩
        exact (Store.write_of_ne h.twoStreams).trans hindex

/-! ### Runs -/

/-- **A call.**  It is undefined, or leaves and changes nothing, or returns and keeps everything
in step. -/
theorem call_cases (h : Invariant s) {c : Call} (hallowed : s.manager.Allowed c)
    (hok : s.manager.Undisturbed c) :
    (∃ r, s.manager.call c = (r, .error .undefined)) ∨
    (∃ r e, s.manager.call c = (r, leave e) ∧ Left s.manager r) ∨
    (∃ r, s.manager.call c = (r, .ok ()) ∧
      Invariant ⟨r, s.issued ++ issuedBy s.manager c (.ok ())⟩) := by
  have hnone : s.issued = s.issued ++ [] := (append_nil _).symm
  cases c with
  | storeKey o k => exact storeKeyL_cases h hallowed
  | remove o aObjectId =>
      have hcases := removeL_cases h hok
      rw [hnone] at hcases
      exact Or.inr hcases
  | safeWriteKeyInfo write commit aObjectId aKeyInfo =>
      have hcases := safeWriteKeyInfoL_cases h hok
      rw [hnone] at hcases
      exact Or.inr hcases
  | setPassphraseTimeout write commit aTimeout =>
      have hcases := setPassphraseTimeoutL_cases h hok
      rw [hnone] at hcases
      exact Or.inr hcases

theorem Invariant.step {t : Session} {c : Call} (h : Invariant s) (hok : s.manager.Undisturbed c)
    (hstep : step s c = some t) : Invariant t := by
  unfold CFileKeyDataManager.step at hstep
  split at hstep
  next hallowed =>
    rcases call_cases h hallowed hok with ⟨r, heq⟩ | ⟨r, e, heq, hleft⟩ | ⟨r, heq, hr⟩
    · rw [heq] at hstep
      cases hstep
    · rw [heq] at hstep
      cases hstep
      have hissued : issuedBy s.manager c (leave e) = [] := by
        cases c <;> rfl
      rw [hissued, append_nil]
      exact h.left hleft
    · rw [heq] at hstep
      cases hstep
      exact hr
  next => cases hstep

/-- The manager has been constructed from a store that is in order, and no call has been made. -/
structure Opened (s : Session) : Prop where
  constructed : ∃ content, constructL ⟨content, content⟩ s.manager.iInfoStreamId = .ok s.manager
  streams : ∀ key ∈ s.manager.iKeys, ∀ id ∈ key.streams,
    (s.manager.iFileStore.committed id).isSome
  passphrase : s.manager.iPassStreamId = KNullStreamId ↔ s.manager.iKeys = []
  infoStream : s.manager.iInfoStreamId ≠ KNullStreamId
  timeoutStream : s.manager.iTimeoutStreamId ≠ KNullStreamId
  passApart : s.manager.iPassStreamId ≠ s.manager.iInfoStreamId ∧
    s.manager.iPassStreamId ≠ s.manager.iTimeoutStreamId
  apart : ∀ key ∈ s.manager.iKeys, ∀ id ∈ key.streams,
    id ≠ s.manager.iInfoStreamId ∧ id ≠ s.manager.iTimeoutStreamId
  distinct : (s.manager.iKeys.flatMap CFileKeyData.streams).Nodup
  handlesApart : (s.manager.iKeys.map CFileKeyData.iObjectId).Nodup
  issued : s.issued = s.manager.iKeys.map CFileKeyData.iObjectId

/-- Where construction succeeds, memory is what was read. -/
theorem constructL_ok {content : StreamId → Option KeyStream} {info : StreamId}
    (h : constructL ⟨content, content⟩ info = .ok m) :
    m.iFileStore = ⟨content, content⟩ ∧ m.iInfoStreamId = info ∧
      content info = some (.index m.iPassStreamId m.iTimeoutStreamId m.iKeys) ∧
      content m.iTimeoutStreamId = some (.timeout m.iTimeout) ∧
      m.iKeyIdentifier = m.iKeys.foldl (fun i keyData => max i keyData.iObjectId) 0 := by
  unfold constructL at h
  split at h
  next pass timeoutStream keys hindex =>
    split at h
    next timeout htimeout =>
      cases h
      exact ⟨rfl, rfl, hindex, htimeout, rfl⟩
    next => cases h
  next => cases h

theorem Opened.invariant (h : Opened s) : Invariant s := by
  obtain ⟨content, hconstruct⟩ := h.constructed
  obtain ⟨hstore, -, hindex, htimeout, hidentifier⟩ := constructL_ok hconstruct
  refine ⟨⟨?_, ?_, h.streams, h.passphrase⟩, ?_, ?_, h.infoStream, h.timeoutStream, ?_,
    h.passApart, h.apart, h.distinct, ?_, h.handlesApart, ?_, ?_⟩
  · rw [hstore]
    exact hindex
  · rw [hstore]
    exact htimeout
  · rw [hstore]
    exact fun _ hid => hid
  · rw [hstore]
  · intro heq
    rw [heq, htimeout] at hindex
    cases hindex
  · rw [h.issued]
    exact fun key hkey => mem_map_of_mem hkey
  · rw [h.issued]
    exact h.handlesApart
  · intro handle hhandle
    rw [h.issued] at hhandle
    obtain ⟨key, hkey, rfl⟩ := mem_map.mp hhandle
    rw [hidentifier]
    exact (le_foldl_max _ _ _).2 key hkey

/-- **The key data manager is transactional in every run without the two defects.** -/
theorem reachable_synchronised {s : Session}
    (h : Reachable Opened step (fun s c => s.manager.Undisturbed c) s) :
    Synchronised s.manager ∧ s.issued.Nodup ∧
      (s.manager.iKeys.map CFileKeyData.iObjectId).Nodup ∧
      (∀ key ∈ s.manager.iKeys, key.iObjectId ∈ s.issued) ∧
      ∀ c r e, s.manager.Allowed c → s.manager.Undisturbed c → s.manager.call c = (r, leave e) →
        Unchanged s.manager r := by
  have hinv : Invariant s :=
    h.invariant (fun _ hs => hs.invariant) fun _ _ _ hs hok hstep => hs.step hok hstep
  refine ⟨hinv.toSynchronised, hinv.issuedOnce, hinv.handlesApart, hinv.handles, ?_⟩
  intro c r e hallowed hok hcall
  rcases call_cases hinv hallowed hok with ⟨r', heq⟩ | ⟨r', e', heq, hleft⟩ | ⟨r', heq, -⟩
  · rw [heq] at hcall
    cases hcall
  · rw [heq] at hcall
    cases hcall
    exact hleft.toUnchanged
  · rw [heq] at hcall
    cases hcall

/-- A call, or a restart of the server, which reads the committed store. -/
def stepOrRestart (s : Session) : Option Call → Option Session
  | some c => step s c
  | none =>
    match constructL ⟨s.manager.iFileStore.committed, s.manager.iFileStore.committed⟩
      s.manager.iInfoStreamId with
    | .ok m => some ⟨m, m.iKeys.map CFileKeyData.iObjectId⟩
    | .error _ => none

/-- Whatever calls have left uncommitted, a restart finds what is in memory. -/
def Restarts (s : Session) : Prop := ∃ t, stepOrRestart s none = some t ∧
  t.manager.iKeys = s.manager.iKeys ∧ t.manager.iPassStreamId = s.manager.iPassStreamId ∧
    t.manager.iTimeout = s.manager.iTimeout ∧ Opened t

theorem Invariant.restarts (h : Invariant s) : Restarts s := by
  let m : CFileKeyDataManager := { s.manager with
    iFileStore := ⟨s.manager.iFileStore.committed, s.manager.iFileStore.committed⟩
    iKeyIdentifier := s.manager.iKeys.foldl (fun i keyData => max i keyData.iObjectId) 0 }
  have hconstruct : constructL ⟨s.manager.iFileStore.committed, s.manager.iFileStore.committed⟩
      s.manager.iInfoStreamId = .ok m := by
    simp only [constructL, h.index, h.timeout]
    rfl
  refine ⟨⟨m, m.iKeys.map CFileKeyData.iObjectId⟩, ?_, rfl, rfl, rfl, ⟨_, hconstruct⟩, h.streams,
    h.passphrase, h.infoStream, h.timeoutStream, h.passApart, h.apart, h.distinct, h.handlesApart,
    rfl⟩
  simp only [stepOrRestart, hconstruct]

/-- **Restarts lose nothing**, wherever they come between the calls. -/
theorem restarts_synchronised
    (h : Reachable Opened stepOrRestart (fun s e => ∀ c ∈ e, s.manager.Undisturbed c) s) :
    Synchronised s.manager ∧ Restarts s := by
  have hinv : Invariant s := by
    refine h.invariant (fun _ hs => hs.invariant) ?_
    intro s e t hs hok hstep
    cases e with
    | some c => exact hs.step (hok c rfl) hstep
    | none =>
      obtain ⟨t', ht, -, -, -, hopened⟩ := hs.restarts
      obtain rfl := Option.some.inj (ht.symm.trans hstep)
      exact hopened.invariant
  exact ⟨hinv.toSynchronised, hinv.restarts⟩

/-! ### A run with a removal whose commit fails -/

/-- A new store, as `CreateStoreInFileL` leaves it. -/
def created : StreamId → Option KeyStream
  | 1 => some (.timeout 30)
  | 2 => some (.index KNullStreamId 1 [])
  | _ => none

def emptyManager : CFileKeyDataManager where
  iFileStore := ⟨created, created⟩
  iInfoStreamId := 2
  iTimeoutStreamId := 1
  iPassStreamId := KNullStreamId
  iTimeout := 30
  iKeys := []
  iKeyIdentifier := 0

theorem opened_empty : Opened ⟨emptyManager, []⟩ where
  constructed := ⟨created, rfl⟩
  streams := by simp [emptyManager]
  passphrase := by simp [emptyManager]
  infoStream := by decide
  timeoutStream := by decide
  passApart := by decide
  apart := by simp [emptyManager]
  distinct := by simp [emptyManager]
  handlesApart := by simp [emptyManager]
  issued := rfl

def additionDone : AddOutcomes :=
  ⟨.done, .done, .done, .done, .done, .done, .done, .done, .done⟩

def firstKey : NewKey where
  aLabel := []
  aPassStreamId := 3
  infoData := 4
  publicKeyData := 5
  privateKeyData := 6
  info := [1]
  publicKey := [2]
  privateKey := [3]

def storeFirst : Call := .storeKey additionDone firstKey

/-- Everything is done but the commit. -/
def removeUncommitted : Call :=
  .remove ⟨.done, .done, .done, .done, .done, .done, .failed KErrNoMemory⟩ 1

/-- The handles that memory lists and those that the committed index lists. -/
def listed (s : Session) : List Int × Option (List Int) :=
  (s.manager.iKeys.map CFileKeyData.iObjectId,
    match s.manager.iFileStore.committed s.manager.iInfoStreamId with
    | some (.index _ _ keys) => some (keys.map CFileKeyData.iObjectId)
    | _ => none)

theorem Synchronised.listed (h : Synchronised s.manager) : (listed s).2 = some (listed s).1 := by
  simp [CFileKeyDataManager.listed, h.index]

theorem listed_removed :
    (run step ⟨emptyManager, []⟩ [storeFirst, removeUncommitted]).map listed =
      some ([], some [1]) := rfl

theorem listed_stored :
    (run step ⟨emptyManager, []⟩ [storeFirst]).map listed = some ([1], some [1]) := by
  rfl

theorem reachable_not_synchronised :
    ¬ ∀ s, Reachable Opened step Anything s → Synchronised s.manager := by
  intro h
  obtain ⟨s, hrun, hlisted⟩ := Option.map_eq_some_iff.mp listed_removed
  have hs := (h s ((Reachable.start opened_empty).run hrun)).listed
  rw [hlisted] at hs
  cases hs

theorem reachable_synchronised_stored : ∃ s, listed s = ([1], some [1]) ∧
    (Synchronised s.manager ∧ s.issued.Nodup ∧
      (s.manager.iKeys.map CFileKeyData.iObjectId).Nodup ∧
      (∀ key ∈ s.manager.iKeys, key.iObjectId ∈ s.issued) ∧
      ∀ c r e, s.manager.Allowed c → s.manager.Undisturbed c → s.manager.call c = (r, leave e) →
        Unchanged s.manager r) := by
  obtain ⟨s, hrun, hlisted⟩ := Option.map_eq_some_iff.mp listed_stored
  have hstep : step ⟨emptyManager, []⟩ storeFirst = some s := by
    simpa [run] using hrun
  exact ⟨s, hlisted, reachable_synchronised
    (.next (a := storeFirst) (.start opened_empty) trivial hstep)⟩

/-- A restart behind the first key, whose handle is read again. -/
theorem restarts_synchronised_stored : ∃ s, listed s = ([1], some [1]) ∧
    Synchronised s.manager ∧ Restarts s := by
  obtain ⟨s, hrun, hlisted⟩ := Option.map_eq_some_iff.mp listed_stored
  have hstep : stepOrRestart ⟨emptyManager, []⟩ (some storeFirst) = some s := by
    simpa [run, stepOrRestart] using hrun
  refine ⟨s, hlisted, restarts_synchronised (.next (.start opened_empty) ?_ hstep)⟩
  rintro c ⟨⟩
  trivial

end CFileKeyDataManager

end OsSecurity

/-
What the certificate store server keeps in step, whatever fails.

`Synchronised` is what the server owes its clients.  A request that leaves should have had no
effect, and since nothing uncommitted is ever left in the store, that says that the server is as
it was.  A removal breaks this in two ways: where the list cannot be written, the entry is put
back behind the others, and where the compaction that follows the commit fails, the request
leaves although the entry is gone.  `Undisturbed` says of one request that it does neither.
-/
import OsSecurity.Library.IndexedLists
import OsSecurity.Tokens.CertStoreServer

namespace OsSecurity

open CCertStoreEntryList IndexedLists List TransactionalStore Transitions

namespace CFSCertStoreServer

/-- A server, and the certificate that each handle was last given for. -/
structure Session where
  server : CFSCertStoreServer
  given : Int → Bytes

/-- Memory and the committed store say the same, and nothing else is in the store's way. -/
structure Synchronised (s : Session) : Prop where
  entries : s.server.iStore.committed s.server.iStreamId = some (.entries s.server.iEntryList)
  nothingUncommitted : s.server.iStore.working = s.server.iStore.committed
  certificates : ∀ entry ∈ s.server.iEntryList,
    s.server.iStore.committed entry.iDataStreamId = some (.data (s.given entry.handle))
  sizes : ∀ entry ∈ s.server.iEntryList, entry.iCertInfo.iSize = (s.given entry.handle).length
  handles : (s.server.iEntryList.map CCertStoreEntry.handle).Nodup
  labels : (s.server.iEntryList.map CCertStoreEntry.label).Nodup

/-- A request that leads to neither of the two defects. -/
def Undisturbed (m : CFSCertStoreServer) (aMessage : RMessage2) : Request → Prop
  | .remove o aHandle =>
    ∀ index entry, m.iEntryList.indexForHandle aHandle = some index →
      m.iEntryList[index]? = some entry →
      (addRemovePolicy entry.iCertInfo.iCertificateOwnerType).checkPolicy aMessage →
      o.delete = .done →
        (o.index = .done ∧ o.commit = .done → o.compact = .done) ∧
          (¬ (o.index = .done ∧ o.commit = .done) → index + 1 = m.iEntryList.length)
  | _ => True

/-- The store hands out a stream that it does not have yet. -/
def Allowed (m : CFSCertStoreServer) : Request → Bool
  | .add _ dataStreamId _ _ => (m.iStore.working dataStreamId).isNone
  | _ => true

/-- What the handles are given for after a request that returns. -/
def givenBy (s : Session) : Request → Int → Bytes
  | .add _ _ _ aCert => Function.update s.given (s.server.iEntryList.maxHandle + 1) aCert
  | _ => s.given

/-- A request that returns or leaves. -/
def step (s : Session) (call : RMessage2 × Request) : Option Session :=
  if s.server.Allowed call.2 then
    match s.server.serve call.1 call.2 with
    | (r, .ok ()) => some ⟨r, givenBy s call.2⟩
    | (r, .error (.leave _)) => some ⟨r, s.given⟩
    | (_, .error _) => none
  else none

/-! ### The entry list -/

section

variable {iEntries : CCertStoreEntryList} {aHandle : Int} {aLabel : Text}

theorem labelExists_eq_false :
    iEntries.labelExists aLabel = false ↔ aLabel ∉ iEntries.map CCertStoreEntry.label := by
  simp [labelExists, any_eq_false]

theorem le_maxHandle : ∀ entry ∈ iEntries, entry.handle ≤ iEntries.maxHandle :=
  (le_foldl_max CCertStoreEntry.handle iEntries (-1)).2

theorem nextFreeHandle_fresh {handle : Int} (h : iEntries.nextFreeHandle = .ok handle) :
    handle = iEntries.maxHandle + 1 ∧ handle ∉ iEntries.map CCertStoreEntry.handle := by
  unfold nextFreeHandle at h
  split at h
  · cases h
  · cases h
    refine ⟨rfl, fun hmem => ?_⟩
    obtain ⟨entry, hentry, heq⟩ := mem_map.mp hmem
    have hle := le_maxHandle entry hentry
    omega

end

/-! ### Steps on a store with nothing uncommitted -/

section

variable {m : CFSCertStoreServer}

section

variable (hclean : m.iStore.working = m.iStore.committed)
include hclean

/-- Whatever has been done to the working content, a revert takes it back. -/
theorem revert_eq {working : StreamId → Option CertStream} :
    { m with iStore := ⟨m.iStore.committed, working⟩ }.revert = m := by
  obtain ⟨⟨committed, before⟩, iStreamId, iEntryList⟩ := m
  cases hclean
  rfl

theorem commit_eq : { m with iStore := m.iStore.commit } = m := by
  obtain ⟨⟨committed, before⟩, iStreamId, iEntryList⟩ := m
  cases hclean
  rfl

theorem compactStoreL_eq (o : Outcome) :
    (o = .done ∧ m.compactStoreL o = (m, .ok ())) ∨
      (o ≠ .done ∧ ∃ e, m.compactStoreL o = (m, leave e)) := by
  cases o with
  | done => exact Or.inl ⟨rfl, by simp [compactStoreL, commitL, commit_eq hclean]⟩
  | failed e => exact Or.inr ⟨by simp, e, rfl⟩
  | late e => exact Or.inr ⟨by simp, e, rfl⟩

end

/-- The server after its list has been written and committed. -/
def updated (m : CFSCertStoreServer) : CFSCertStoreServer :=
  { m with iStore := (m.iStore.write m.iStreamId (.entries m.iEntryList)).commit }

theorem updateStoreL_cases (m : CFSCertStoreServer) (index commit : Outcome) :
    ((index = .done ∧ commit = .done) ∧ m.updateStoreL index commit = (m.updated, .ok ())) ∨
    (¬ (index = .done ∧ commit = .done) ∧ ∃ working e, m.updateStoreL index commit =
      ({ m with iStore := ⟨m.iStore.committed, working⟩ }, leave e)) := by
  cases index with
  | failed e => exact Or.inr ⟨by simp, _, e, rfl⟩
  | late e => exact Or.inr ⟨by simp, _, e, rfl⟩
  | done =>
      cases commit with
      | done => exact Or.inl ⟨⟨rfl, rfl⟩, rfl⟩
      | failed e => exact Or.inr ⟨by simp, _, e, rfl⟩
      | late e => exact Or.inr ⟨by simp, _, e, rfl⟩

end

/-! ### How a request ends -/

/-- The server with a new entry, written and committed with its certificate. -/
def added (m : CFSCertStoreServer) (entry : CCertStoreEntry) (aCert : Bytes) :
    CFSCertStoreServer :=
  { m with
    iStore := m.iStore.write entry.iDataStreamId (.data aCert)
    iEntryList := m.iEntryList ++ [entry] }.updated

/-- The server without one of its entries, written and committed. -/
def removed (m : CFSCertStoreServer) (index : Nat) (entry : CCertStoreEntry) :
    CFSCertStoreServer :=
  { m with
    iStore := m.iStore.delete entry.iDataStreamId
    iEntryList := m.iEntryList.eraseIdx index }.updated

/-- The server with another entry in the place of one of its entries, written and committed. -/
def replaced (m : CFSCertStoreServer) (index : Nat) (entry : CCertStoreEntry) :
    CFSCertStoreServer :=
  { m with iEntryList := m.iEntryList.set index entry }.updated

/-- A new entry for a certificate, under a label and a handle that no entry has. -/
structure NewEntry (m : CFSCertStoreServer) (entry : CCertStoreEntry) (aCert : Bytes) : Prop where
  label : entry.label ∉ m.iEntryList.map CCertStoreEntry.label
  handle : entry.handle = m.iEntryList.maxHandle + 1
  fresh : entry.handle ∉ m.iEntryList.map CCertStoreEntry.handle
  size : entry.iCertInfo.iSize = aCert.length

/-- A change of an entry that leaves its handle, its label and its certificate alone. -/
structure SameCertificate (entry new : CCertStoreEntry) : Prop where
  certInfo : new.iCertInfo = entry.iCertInfo
  dataStream : new.iDataStreamId = entry.iDataStreamId

section

variable {m : CFSCertStoreServer}

section

variable (hclean : m.iStore.working = m.iStore.committed)
include hclean

theorem doAddL_cases (o : AddOutcomes) (dataStreamId : StreamId) (info : CCertInfo)
    (aCert : Bytes) :
    (∃ e, revertOnLeave (m.doAddL o dataStreamId info aCert) = (m, leave e)) ∨
    (∃ r, revertOnLeave (m.doAddL o dataStreamId info aCert) = (r, panic)) ∨
    revertOnLeave (m.doAddL o dataStreamId info aCert) =
      (m.added ⟨info, [], false, dataStreamId⟩ aCert, .ok ()) := by
  unfold doAddL perform
  cases o.data with
  | failed e => exact Or.inl ⟨e, Prod.ext (revert_eq hclean) rfl⟩
  | late e => exact Or.inl ⟨e, Prod.ext (revert_eq hclean) rfl⟩
  | done =>
      simp only
      cases o.entry with
      | some e => exact Or.inl ⟨e, Prod.ext (revert_eq hclean) rfl⟩
      | none =>
        simp only
        by_cases hnull : dataStreamId = KNullStreamId
        · rw [if_pos hnull]
          exact Or.inr (Or.inl ⟨_, rfl⟩)
        rw [if_neg hnull]
        cases o.append with
        | some e => exact Or.inl ⟨e, Prod.ext (revert_eq hclean) rfl⟩
        | none =>
          simp only
          rcases updateStoreL_cases { m with
            iStore := m.iStore.write dataStreamId (.data aCert)
            iEntryList := m.iEntryList ++ [⟨info, [], false, dataStreamId⟩] } o.index o.commit
            with ⟨-, heq⟩ | ⟨-, working, e, heq⟩
          · rw [heq]
            exact Or.inr (Or.inr rfl)
          · rw [heq]
            refine Or.inl ⟨e, Prod.ext ?_ rfl⟩
            have hlist : ∀ entry, (m.iEntryList ++ [entry]).eraseIdx m.iEntryList.length =
                m.iEntryList := by
              intro entry
              simp [eraseIdx_append_of_length_le]
            show { m with
              iStore := ⟨m.iStore.committed, m.iStore.committed⟩
              iEntryList := (m.iEntryList ++ [_]).eraseIdx m.iEntryList.length } = m
            rw [hlist]
            exact revert_eq hclean

/-- How an addition ends. -/
theorem addL_cases (o : AddOutcomes) (dataStreamId : StreamId) (aInfo : TAddCertDataStruct)
    (aCert : Bytes) (aMessage : RMessage2) :
    (∃ e, m.addL o dataStreamId aInfo aCert aMessage = (m, leave e)) ∨
    (∃ r e, m.addL o dataStreamId aInfo aCert aMessage = (r, .error e) ∧ ∀ x, e ≠ .leave x) ∨
    (∃ entry, m.addL o dataStreamId aInfo aCert aMessage = (m.added entry aCert, .ok ()) ∧
      entry.iDataStreamId = dataStreamId ∧ NewEntry m entry aCert) := by
  unfold addL
  by_cases hlabel : m.iEntryList.labelExists aInfo.iLabel
  · exact Or.inl ⟨_, if_pos hlabel⟩
  rw [if_neg hlabel]
  by_cases hnull : aInfo.iSubjectKeyId = [] ∨ aCert = []
  · exact Or.inl ⟨_, if_pos hnull⟩
  rw [if_neg hnull]
  cases hhandle : m.iEntryList.nextFreeHandle with
  | error e =>
      refine Or.inr (Or.inl ⟨m, e, rfl, ?_⟩)
      unfold nextFreeHandle at hhandle
      split at hhandle
      · cases hhandle
        exact fun x h => by cases h
      · cases hhandle
  | ok aCertificateId =>
      obtain ⟨hnext, hfresh⟩ := nextFreeHandle_fresh hhandle
      cases o.certInfo with
      | some e => exact Or.inl ⟨e, rfl⟩
      | none =>
        simp only
        split
        · exact Or.inl ⟨_, rfl⟩
        split
        · exact Or.inl ⟨_, rfl⟩
        rcases compactStoreL_eq hclean o.compact with ⟨-, hcompact⟩ | ⟨-, e, hcompact⟩
        · rw [hcompact]
          simp only
          rcases doAddL_cases hclean o dataStreamId ⟨aInfo.iLabel, aCertificateId, aInfo.iFormat,
            aInfo.iCertificateOwnerType, aCert.length, aInfo.iSubjectKeyId, aInfo.iIssuerKeyId,
            aInfo.iDeletable⟩ aCert with ⟨e, heq⟩ | ⟨r, heq⟩ | heq
          · exact Or.inl ⟨e, heq⟩
          · exact Or.inr (Or.inl ⟨r, .panic, heq, fun x h => by cases h⟩)
          · refine Or.inr (Or.inr ⟨_, heq, rfl, ?_, hnext, hfresh, rfl⟩)
            exact labelExists_eq_false.mp (Bool.not_eq_true _ ▸ hlabel)
        · rw [hcompact]
          exact Or.inl ⟨e, rfl⟩

/-- How an undisturbed removal ends. -/
theorem removeL_cases {o : RemoveOutcomes} {aHandle : Int} {aMessage : RMessage2}
    (hok : m.Undisturbed aMessage (.remove o aHandle)) :
    (∃ e, m.removeL o aHandle aMessage = (m, leave e)) ∨
    (∃ r, m.removeL o aHandle aMessage = (r, panic)) ∨
    (∃ index entry, m.removeL o aHandle aMessage = (m.removed index entry, .ok ()) ∧
      m.iEntryList[index]? = some entry) := by
  unfold removeL
  cases hindex : m.iEntryList.indexForHandle aHandle with
  | none => exact Or.inl ⟨_, rfl⟩
  | some index =>
      cases hentry : m.iEntryList[index]? with
      | none => exact Or.inr (Or.inl ⟨m, by simp only [hentry]⟩)
      | some entry =>
        simp only [hentry]
        cases hpolicy : (addRemovePolicy entry.iCertInfo.iCertificateOwnerType).checkPolicy
            aMessage with
        | false => exact Or.inl ⟨_, rfl⟩
        | true =>
          have hok' := hok index entry hindex hentry hpolicy
          simp only [Bool.not_true, Bool.false_eq_true, if_false]
          unfold doRemoveL perform
          cases hdelete : o.delete with
          | failed e =>
            refine Or.inl ⟨e, ?_⟩
            exact Prod.ext (revert_eq hclean) rfl
          | late e =>
            refine Or.inl ⟨e, ?_⟩
            exact Prod.ext (revert_eq hclean) rfl
          | done =>
            obtain ⟨hcompact, hlast⟩ := hok' hdelete
            simp only
            rcases updateStoreL_cases { m with
              iStore := m.iStore.delete entry.iDataStreamId
              iEntryList := m.iEntryList.eraseIdx index } o.index o.commit with
              ⟨hdone, heq⟩ | ⟨hnot, working, e, heq⟩
            · refine Or.inr (Or.inr ⟨index, entry, ?_, hentry⟩)
              rw [heq]
              show (m.removed index entry).compactStoreL o.compact = _
              have hremoved : (m.removed index entry).iStore.working =
                  (m.removed index entry).iStore.committed := rfl
              rcases compactStoreL_eq hremoved o.compact with ⟨-, heq'⟩ | ⟨hne, -⟩
              · exact heq'
              · exact absurd (hcompact hdone) hne
            · refine Or.inl ⟨e, ?_⟩
              rw [heq]
              refine Prod.ext ?_ rfl
              show { m with
                iStore := ⟨m.iStore.committed, m.iStore.committed⟩
                iEntryList := m.iEntryList.eraseIdx index ++ [entry] } = m
              rw [eraseIdx_last hentry (hlast hnot)]
              exact revert_eq hclean

/-- How a change of an entry ends. -/
theorem changeEntryL_cases (o : ChangeOutcomes) (aHandle : Int) (aMessage : RMessage2)
    (change : CCertStoreEntry → CCertStoreEntry) :
    (∃ e, m.changeEntryL o aHandle aMessage change = (m, leave e)) ∨
    (∃ r, m.changeEntryL o aHandle aMessage change = (r, panic)) ∨
    (∃ index entry, m.changeEntryL o aHandle aMessage change =
      (m.replaced index (change entry), .ok ()) ∧ m.iEntryList[index]? = some entry) := by
  unfold changeEntryL
  cases hindex : m.iEntryList.indexForHandle aHandle with
  | none => exact Or.inl ⟨_, rfl⟩
  | some index =>
      cases hentry : m.iEntryList[index]? with
      | none => exact Or.inr (Or.inl ⟨m, by simp only [hentry]⟩)
      | some entry =>
        simp only [hentry]
        split
        · exact Or.inl ⟨_, rfl⟩
        split
        · exact Or.inl ⟨_, rfl⟩
        rcases compactStoreL_eq hclean o.compact with ⟨-, hcompact⟩ | ⟨-, e, hcompact⟩
        · rw [hcompact]
          cases o.entry with
          | some e => exact Or.inl ⟨e, rfl⟩
          | none =>
            simp only [replaceCertEntryL]
            rcases updateStoreL_cases { m with
              iEntryList := m.iEntryList.set index (change entry) } o.index o.commit with
              ⟨-, heq⟩ | ⟨-, working, e, heq⟩
            · rw [heq]
              exact Or.inr (Or.inr ⟨index, entry, rfl, hentry⟩)
            · rw [heq]
              refine Or.inl ⟨e, Prod.ext ?_ rfl⟩
              have hlist : (m.iEntryList.set index (change entry)).set index entry =
                  m.iEntryList := by
                obtain ⟨hi, hget⟩ := List.getElem?_eq_some_iff.mp hentry
                rw [set_set, ← hget, set_getElem_self]
              show { m with
                iStore := ⟨m.iStore.committed, m.iStore.committed⟩
                iEntryList := (m.iEntryList.set index (change entry)).set index entry } = m
              rw [hlist]
              exact revert_eq hclean
        · rw [hcompact]
          exact Or.inl ⟨e, rfl⟩

end

end

/-! ### The invariant -/

structure Invariant (s : Session) : Prop extends Synchronised s where
  apart : (s.server.iEntryList.map CCertStoreEntry.iDataStreamId).Nodup

section

variable {s : Session}

section

variable (h : Invariant s)
include h

/-- The list and a certificate are not in the same stream. -/
theorem Invariant.elsewhere : ∀ entry ∈ s.server.iEntryList,
    entry.iDataStreamId ≠ s.server.iStreamId := by
  intro entry hentry heq
  have hdata := h.certificates entry hentry
  rw [heq, h.entries] at hdata
  cases hdata

theorem Invariant.added {entry : CCertStoreEntry} {aCert : Bytes}
    (hstream : s.server.iStore.working entry.iDataStreamId = none)
    (hnew : NewEntry s.server entry aCert) :
    Invariant ⟨s.server.added entry aCert,
      Function.update s.given (s.server.iEntryList.maxHandle + 1) aCert⟩ := by
  have hfresh : ∀ id, (s.server.iStore.committed id).isSome → id ≠ entry.iDataStreamId := by
    intro id hid heq
    rw [heq, ← h.nothingUncommitted, hstream] at hid
    cases hid
  have hlist : s.server.iStreamId ≠ entry.iDataStreamId := hfresh _ (by rw [h.entries]; rfl)
  generalize hupdate : Function.update s.given (s.server.iEntryList.maxHandle + 1) aCert = given
  have hgiven : given entry.handle = aCert := by
    rw [← hupdate, hnew.handle]
    exact Function.update_self _ _ _
  have hold : ∀ other ∈ s.server.iEntryList,
      given other.handle = s.given other.handle ∧ other.iDataStreamId ≠ entry.iDataStreamId := by
    intro other hother
    refine ⟨?_, hfresh _ (by rw [h.certificates other hother]; rfl)⟩
    have hne : other.handle ≠ entry.handle :=
      fun heq => hnew.fresh (heq ▸ mem_map_of_mem hother)
    rw [← hupdate, ← hnew.handle, Function.update_of_ne hne]
  refine ⟨⟨Store.write_same, rfl, ?_, ?_, ?_, ?_⟩, ?_⟩
  · intro other hother
    show _ = some (CertStream.data (given other.handle))
    rcases mem_append.mp hother with hother | hother
    · obtain ⟨hsame, hne⟩ := hold other hother
      refine (Store.write_of_ne (h.elsewhere other hother)).trans ?_
      rw [Store.write_of_ne hne, hsame, h.nothingUncommitted]
      exact h.certificates other hother
    · rw [mem_singleton.mp hother, hgiven]
      exact (Store.write_of_ne hlist.symm).trans Store.write_same
  · intro other hother
    show _ = ((given other.handle).length : Int)
    rcases mem_append.mp hother with hother | hother
    · rw [(hold other hother).1]
      exact h.sizes other hother
    · rw [mem_singleton.mp hother, hgiven]
      exact hnew.size
  · show ((s.server.iEntryList ++ [entry]).map CCertStoreEntry.handle).Nodup
    rw [map_append, map_singleton, nodup_append_comm]
    exact nodup_cons.mpr ⟨hnew.fresh, h.handles⟩
  · show ((s.server.iEntryList ++ [entry]).map CCertStoreEntry.label).Nodup
    rw [map_append, map_singleton, nodup_append_comm]
    exact nodup_cons.mpr ⟨hnew.label, h.labels⟩
  · show ((s.server.iEntryList ++ [entry]).map CCertStoreEntry.iDataStreamId).Nodup
    rw [map_append, map_singleton, nodup_append_comm]
    refine nodup_cons.mpr ⟨fun hmem => ?_, h.apart⟩
    obtain ⟨other, hother, heq⟩ := mem_map.mp hmem
    exact (hold other hother).2 heq

theorem Invariant.removed {index : Nat} {entry : CCertStoreEntry}
    (hentry : s.server.iEntryList[index]? = some entry) :
    Invariant ⟨s.server.removed index entry, s.given⟩ := by
  obtain ⟨hsplit, herase⟩ := eraseIdx_split hentry
  have hsub : (s.server.iEntryList.eraseIdx index).Sublist s.server.iEntryList :=
    eraseIdx_sublist _ _
  have hother : ∀ other ∈ s.server.iEntryList.eraseIdx index,
      other.iDataStreamId ≠ entry.iDataStreamId := by
    intro other hmem
    have hapart := h.apart
    rw [hsplit, map_append, map_cons] at hapart
    have hnot := (nodup_middle.mp hapart).notMem
    rw [← map_append, ← herase] at hnot
    exact fun heq => hnot (heq ▸ mem_map_of_mem hmem)
  refine ⟨⟨Store.write_same, rfl, ?_, ?_, ?_, ?_⟩, ?_⟩
  · intro other hmem
    have hmem' := hsub.subset hmem
    refine (Store.write_of_ne (h.elsewhere other hmem')).trans ?_
    rw [Store.delete_of_ne (hother other hmem), h.nothingUncommitted]
    exact h.certificates other hmem'
  · exact fun other hmem => h.sizes other (hsub.subset hmem)
  · exact h.handles.sublist (hsub.map _)
  · exact h.labels.sublist (hsub.map _)
  · exact h.apart.sublist (hsub.map _)

theorem Invariant.replaced {index : Nat} {entry new : CCertStoreEntry}
    (hentry : s.server.iEntryList[index]? = some entry) (hnew : SameCertificate entry new) :
    Invariant ⟨s.server.replaced index new, s.given⟩ := by
  have hkept : ∀ other ∈ s.server.iEntryList.set index new, ∃ old ∈ s.server.iEntryList,
      SameCertificate old other := by
    intro other hmem
    rcases mem_or_eq_of_mem_set hmem with hmem | rfl
    · exact ⟨other, hmem, rfl, rfl⟩
    · exact ⟨entry, mem_of_getElem? hentry, hnew⟩
  have hhandle : new.handle = entry.handle := by
    unfold CCertStoreEntry.handle
    rw [hnew.certInfo]
  have hlabel : new.label = entry.label := by
    unfold CCertStoreEntry.label
    rw [hnew.certInfo]
  refine ⟨⟨Store.write_same, rfl, ?_, ?_, ?_, ?_⟩, ?_⟩
  · intro other hmem
    obtain ⟨old, hold, hinfo, hstream⟩ := hkept other hmem
    unfold CCertStoreEntry.handle
    rw [hstream, hinfo]
    refine (Store.write_of_ne (h.elsewhere old hold)).trans ?_
    rw [h.nothingUncommitted]
    exact h.certificates old hold
  · intro other hmem
    obtain ⟨old, hold, hinfo, hstream⟩ := hkept other hmem
    unfold CCertStoreEntry.handle
    rw [hinfo]
    exact h.sizes old hold
  · show ((s.server.iEntryList.set index new).map _).Nodup
    rw [map_set_of_eq hentry hhandle]
    exact h.handles
  · show ((s.server.iEntryList.set index new).map _).Nodup
    rw [map_set_of_eq hentry hlabel]
    exact h.labels
  · show ((s.server.iEntryList.set index new).map _).Nodup
    rw [map_set_of_eq hentry hnew.dataStream]
    exact h.apart

/-- **A request.**  It leaves with the server as it was, or ends the server, or returns and keeps
everything in step. -/
theorem serve_cases {aMessage : RMessage2} {request : Request}
    (hallowed : s.server.Allowed request) (hok : s.server.Undisturbed aMessage request) :
    (∃ e, s.server.serve aMessage request = (s.server, leave e)) ∨
    (∃ r e, s.server.serve aMessage request = (r, .error e) ∧ ∀ x, e ≠ .leave x) ∨
    (∃ r, s.server.serve aMessage request = (r, .ok ()) ∧ Invariant ⟨r, givenBy s request⟩) := by
  have hclean := h.nothingUncommitted
  have hpanic : ∀ x, Exit.panic ≠ .leave x := fun x heq => by cases heq
  have hchange : ∀ o aHandle change, (∀ entry, SameCertificate entry (change entry)) →
      (∃ e, s.server.changeEntryL o aHandle aMessage change = (s.server, leave e)) ∨
      (∃ r e, s.server.changeEntryL o aHandle aMessage change = (r, .error e) ∧
        ∀ x, e ≠ .leave x) ∨
      (∃ r, s.server.changeEntryL o aHandle aMessage change = (r, .ok ()) ∧
        Invariant ⟨r, s.given⟩) := by
    intro o aHandle change hsame
    rcases changeEntryL_cases hclean o aHandle aMessage change with
      hleft | ⟨r, heq⟩ | ⟨index, entry, heq, hentry⟩
    · exact Or.inl hleft
    · exact Or.inr (Or.inl ⟨r, .panic, heq, hpanic⟩)
    · exact Or.inr (Or.inr ⟨_, heq, h.replaced hentry (hsame entry)⟩)
  cases request with
  | add o dataStreamId aInfo aCert =>
      rcases addL_cases hclean o dataStreamId aInfo aCert aMessage with
        hleft | hended | ⟨entry, heq, hstream, hnew⟩
      · exact Or.inl hleft
      · exact Or.inr (Or.inl hended)
      · refine Or.inr (Or.inr ⟨_, heq, h.added ?_ hnew⟩)
        rw [hstream]
        exact Option.isNone_iff_eq_none.mp hallowed
  | remove o aHandle =>
      rcases removeL_cases hclean hok with hleft | ⟨r, heq⟩ | ⟨index, entry, heq, hentry⟩
      · exact Or.inl hleft
      · exact Or.inr (Or.inl ⟨r, .panic, heq, hpanic⟩)
      · exact Or.inr (Or.inr ⟨_, heq, h.removed hentry⟩)
  | setApplicability o aHandle aApps => exact hchange o aHandle _ fun _ => ⟨rfl, rfl⟩
  | setTrust o aHandle aTrusted => exact hchange o aHandle _ fun _ => ⟨rfl, rfl⟩

theorem Invariant.step {t : Session} {call : RMessage2 × Request}
    (hok : s.server.Undisturbed call.1 call.2) (hstep : step s call = some t) : Invariant t := by
  unfold CFSCertStoreServer.step at hstep
  split at hstep
  next hallowed =>
    rcases serve_cases h hallowed hok with ⟨e, heq⟩ | ⟨r, e, heq, hne⟩ | ⟨r, heq, hr⟩
    · rw [heq] at hstep
      cases hstep
      exact h
    · rw [heq] at hstep
      cases e with
      | leave x => exact absurd rfl (hne x)
      | panic => cases hstep
      | undefined => cases hstep
    · rw [heq] at hstep
      cases hstep
      exact hr
  next => cases hstep

end

end

/-! ### Runs -/

/-- The server has been constructed from a store that is in order, and no request has been
made. -/
structure Opened (s : Session) : Prop where
  restored : ∃ content, restoreL ⟨content, content⟩ s.server.iStreamId = .ok s.server
  certificates : ∀ entry ∈ s.server.iEntryList,
    s.server.iStore.committed entry.iDataStreamId = some (.data (s.given entry.handle))
  sizes : ∀ entry ∈ s.server.iEntryList, entry.iCertInfo.iSize = (s.given entry.handle).length
  labels : (s.server.iEntryList.map CCertStoreEntry.label).Nodup
  apart : (s.server.iEntryList.map CCertStoreEntry.iDataStreamId).Nodup

/-- A list that is accepted has been taken as it is, and has no handle twice. -/
theorem internalizeL_ok {entries iEntries : List CCertStoreEntry}
    (h : internalizeL entries = .ok iEntries) :
    iEntries = entries ∧ (entries.map CCertStoreEntry.handle).Nodup := by
  have hfrom : ∀ (rest acc : List CCertStoreEntry), (acc.map CCertStoreEntry.handle).Nodup →
      rest.foldlM (fun (iEntries : CCertStoreEntryList) entry =>
        if (indexForHandle iEntries entry.handle).isSome then
          leave KErrCorrupt
        else Except.ok (iEntries ++ [entry])) acc = .ok iEntries →
      iEntries = acc ++ rest ∧ ((acc ++ rest).map CCertStoreEntry.handle).Nodup := by
    intro rest
    induction rest with
    | nil =>
      intro acc hacc hfold
      cases hfold
      simpa using hacc
    | cons entry rest ih =>
      intro acc hacc hfold
      rw [foldlM_cons] at hfold
      split at hfold
      next => cases hfold
      next hfound =>
        have hnot : entry.handle ∉ acc.map CCertStoreEntry.handle := by
          simpa [indexForHandle] using hfound
        have hacc' : ((acc ++ [entry]).map CCertStoreEntry.handle).Nodup := by
          rw [map_append, map_singleton, nodup_append_comm]
          exact nodup_cons.mpr ⟨hnot, hacc⟩
        obtain ⟨heq, hnodup⟩ := ih (acc ++ [entry]) hacc' hfold
        rw [List.append_assoc, singleton_append] at heq hnodup
        exact ⟨heq, hnodup⟩
  exact hfrom entries [] (by simp) h

theorem restoreL_ok {content : StreamId → Option CertStream} {iStreamId : StreamId}
    {m : CFSCertStoreServer} (h : restoreL ⟨content, content⟩ iStreamId = .ok m) :
    m.iStore = ⟨content, content⟩ ∧ content m.iStreamId = some (.entries m.iEntryList) ∧
      (m.iEntryList.map CCertStoreEntry.handle).Nodup := by
  unfold restoreL at h
  split at h
  next entries hentries =>
    cases hlist : internalizeL entries with
    | error e =>
      rw [hlist] at h
      cases h
    | ok iEntries =>
      rw [hlist] at h
      obtain ⟨rfl, hnodup⟩ := internalizeL_ok hlist
      cases h
      exact ⟨rfl, hentries, hnodup⟩
  next => cases h

theorem Opened.invariant {s : Session} (h : Opened s) : Invariant s := by
  obtain ⟨content, hrestore⟩ := h.restored
  obtain ⟨hstore, hentries, hhandles⟩ := restoreL_ok hrestore
  refine ⟨⟨?_, ?_, h.certificates, h.sizes, hhandles, h.labels⟩, h.apart⟩
  · rw [hstore]
    exact hentries
  · rw [hstore]

/-- **The certificate store is transactional in every run without the two defects.** -/
theorem reachable_transactional {s : Session}
    (h : Reachable Opened step (fun s call => s.server.Undisturbed call.1 call.2) s) :
    Synchronised s ∧
      ∀ aMessage request r e, s.server.Allowed request → s.server.Undisturbed aMessage request →
        s.server.serve aMessage request = (r, leave e) → r = s.server := by
  have hinv : Invariant s :=
    h.invariant (fun _ hs => hs.invariant) fun _ _ _ hs hok hstep => hs.step hok hstep
  refine ⟨hinv.toSynchronised, ?_⟩
  intro aMessage request r e hallowed hok hserve
  rcases serve_cases hinv hallowed hok with ⟨e', heq⟩ | ⟨r', e', heq, hne⟩ | ⟨r', heq, -⟩
  · rw [heq] at hserve
    cases hserve
    rfl
  · rw [heq] at hserve
    cases hserve
    exact absurd rfl (hne e)
  · rw [heq] at hserve
    cases hserve

/-! ### A run with a removal that fails -/

/-- A new store, as `DoCreateStoreFileL` leaves it. -/
def created : StreamId → Option CertStream
  | 1 => some (.entries [])
  | _ => none

def emptySession : Session := ⟨⟨⟨created, created⟩, 1, []⟩, fun _ => []⟩

theorem opened_empty : Opened emptySession where
  restored := ⟨created, rfl⟩
  certificates := by simp [emptySession]
  sizes := by simp [emptySession]
  labels := by simp [emptySession]
  apart := by simp [emptySession]

def deviceManager : RMessage2 := ⟨[.writeDeviceData]⟩

def addDone : AddOutcomes := ⟨none, .done, .done, none, none, .done, .done⟩

/-- A root certificate of one octet, under a label of one letter. -/
def addRoot (dataStreamId : StreamId) (x : UInt8) : RMessage2 × Request :=
  (deviceManager,
    .add addDone dataStreamId ⟨[x.toUInt16], EX509Certificate, ECACertificate, [x], [], true⟩ [x])

/-- The entry list cannot be written. -/
def removeUnwritten : RMessage2 × Request :=
  (deviceManager, .remove ⟨.done, .failed KErrNoMemory, .done, .done⟩ 0)

/-- The handles that memory lists and those that the committed store lists. -/
def listed (s : Session) : List Int × Option (List Int) :=
  (s.server.iEntryList.map CCertStoreEntry.handle,
    match s.server.iStore.committed s.server.iStreamId with
    | some (.entries iEntries) => some (iEntries.map CCertStoreEntry.handle)
    | _ => none)

theorem Synchronised.listed {s : Session} (h : Synchronised s) :
    (listed s).2 = some (listed s).1 := by
  simp [CFSCertStoreServer.listed, h.entries]

theorem listed_added : (run step emptySession [addRoot 2 65]).map listed = some ([0], some [0]) := by
  rfl

theorem listed_reordered :
    (run step emptySession [addRoot 2 65, addRoot 3 66, removeUnwritten]).map listed =
      some ([1, 0], some [0, 1]) := by
  rfl

theorem reachable_not_transactional :
    ¬ ∀ s, Reachable Opened step Anything s → Synchronised s := by
  intro h
  obtain ⟨s, hrun, hlisted⟩ := Option.map_eq_some_iff.mp listed_reordered
  have hs := (h s ((Reachable.start opened_empty).run hrun)).listed
  rw [hlisted] at hs
  revert hs
  decide

theorem reachable_transactional_added : ∃ s, listed s = ([0], some [0]) ∧ Synchronised s ∧
    ∀ aMessage request r e, s.server.Allowed request → s.server.Undisturbed aMessage request →
      s.server.serve aMessage request = (r, leave e) → r = s.server := by
  obtain ⟨s, hrun, hlisted⟩ := Option.map_eq_some_iff.mp listed_added
  have hstep : step emptySession (addRoot 2 65) = some s := by
    simpa [run] using hrun
  exact ⟨s, hlisted, reachable_transactional
    (.next (a := addRoot 2 65) (.start opened_empty) trivial hstep)⟩

end CFSCertStoreServer

end OsSecurity

/-
What the store for software installation reads from a store file.

A list is read with the ids and the index that its entries are to have, so the same file gives
different entries each time.  `numberFrom` is the difference: reading a list with any ids is
reading it on its own and numbering what was read, unless the ids leave the range of `TInt`.
-/
import OsSecurity.Certstore.SwiStore

namespace OsSecurity

open Commands FirstByKey List

namespace Swicertstore

open CSWICertStoreImpl CSWICertStoreEntryList

/-! ### What reading a list gives -/

/-- `P` holds of what a function returns, and one that does not return leaves. -/
def Leaves {α : Type} (P : α → Prop) : Leaving α → Prop
  | .ok a => P a
  | .error e => ∃ k, e = .leave k

theorem Leaves.bind {α β : Type} {P : α → Prop} {Q : β → Prop} {x : Leaving α}
    {next : α → Leaving β} (h : Leaves P x) (hnext : ∀ a, P a → Leaves Q (next a)) :
    Leaves Q (x >>= next) := by
  cases x with
  | error e => exact h
  | ok a => exact hnext a h

theorem Leaves.mono {α : Type} {P Q : α → Prop} {x : Leaving α} (h : Leaves P x)
    (hQ : ∀ a, P a → Q a) : Leaves Q x := by
  cases x with
  | error e => exact h
  | ok a => exact hQ a h

/-- `P` holds of what is read, and a reading that fails leaves. -/
def Gives {α : Type} (P : α → Prop) (read : RReadStream α) : Prop :=
  ∀ octets, Leaves (fun p => P p.1) (read octets)

namespace Gives

variable {α β : Type} {P : α → Prop} {Q : β → Prop}

theorem returns {a : α} (ha : P a) : Gives P (pure a : RReadStream α) := fun _ => ha

theorem bind {read : RReadStream α} {next : α → RReadStream β} (h : Gives P read)
    (hnext : ∀ a, P a → Gives Q (next a)) : Gives Q (read >>= next) := by
  intro octets
  exact (h octets).bind fun p hp => hnext p.1 hp p.2

theorem ite {c : Prop} [Decidable c] {f g : RReadStream α} (hf : c → Gives P f)
    (hg : ¬ c → Gives P g) : Gives P (if c then f else g) := by
  split
  · rename_i hc
    exact hf hc
  · rename_i hc
    exact hg hc

theorem leaves (e : Int) : Gives P (RReadStream.leaves e : RReadStream α) := fun _ => ⟨e, rfl⟩

theorem of_onlyLeaves {read : RReadStream α} (h : OnlyLeaves read) :
    Gives (fun _ => True) read := by
  intro octets
  cases hr : read octets with
  | error e => exact h octets e hr
  | ok p => trivial

theorem onlyLeaves {read : RReadStream α} (h : Gives P read) : OnlyLeaves read := by
  intro octets e he
  have hread := h octets
  rw [he] at hread
  exact hread

end Gives

section Readers

open RReadStream

theorem gives_readUint8L : Gives (fun _ => True) readUint8L := by
  intro octets
  cases octets with
  | nil => exact ⟨KErrEof, rfl⟩
  | cons b bs => trivial

theorem gives_readUint32L : Gives (fun _ => True) readUint32L := by
  unfold readUint32L
  refine gives_readUint8L.bind fun _ _ => gives_readUint8L.bind fun _ _ => ?_
  exact gives_readUint8L.bind fun _ _ => gives_readUint8L.bind fun _ _ => Gives.returns trivial

theorem gives_readInt32L : Gives (fun n : Int => n ≤ KMaxTInt) readInt32L := by
  refine gives_readUint32L.bind fun n _ => Gives.returns ?_
  have hlt := n.toInt32.toInt_lt
  unfold KMaxTInt
  omega

theorem gives_readL (aLength : Nat) : Gives (fun _ => True) (readL aLength) := by
  intro octets
  by_cases hshort : octets.length < aLength
  · simp only [readL, if_pos hshort]
    exact ⟨KErrEof, rfl⟩
  · simp only [readL, if_neg hshort]
    trivial

theorem gives_readCardinality : Gives (fun _ => True) readCardinality := by
  refine gives_readUint8L.bind fun n _ => ?_
  refine Gives.ite (fun _ => Gives.returns trivial) fun _ => ?_
  refine Gives.ite (fun _ => gives_readUint8L.bind fun _ _ => Gives.returns trivial) fun _ => ?_
  refine Gives.ite (fun _ => ?_) fun _ => Gives.leaves _
  refine gives_readUint8L.bind fun _ _ => gives_readUint8L.bind fun _ _ => ?_
  exact gives_readUint8L.bind fun _ _ => Gives.returns trivial

theorem gives_readDes8L (aMaxLength : Nat) : Gives (fun _ => True) (readDes8L aMaxLength) := by
  refine gives_readCardinality.bind fun header _ => ?_
  refine Gives.ite (fun _ => Gives.leaves _) fun _ => ?_
  exact Gives.ite (fun _ => Gives.leaves _) fun _ => gives_readL _

theorem gives_readMany {α : Type} {read : RReadStream α} {P : α → Prop} (h : Gives P read)
    (n : Nat) : Gives (fun as => ∀ a ∈ as, P a) (readMany read n) := by
  induction n with
  | zero => exact Gives.returns (by simp)
  | succ n ih =>
      refine h.bind fun a ha => ih.bind fun as has => Gives.returns ?_
      simpa using ⟨ha, has⟩

end Readers

variable (f : StreamFormats)

theorem gives_certInfo : Gives (fun info => info.valid = true) (MCertInfo.internalizeL f) := by
  refine gives_readUint8L.bind fun _ _ => gives_readInt32L.bind fun _ _ => ?_
  refine (Gives.of_onlyLeaves f.leaves.1).bind fun _ _ => gives_readInt32L.bind fun _ _ => ?_
  refine gives_readUint8L.bind fun _ _ => (gives_readDes8L _).bind fun _ _ => ?_
  refine (gives_readDes8L _).bind fun _ _ => Gives.ite (fun h => Gives.returns h) fun _ => ?_
  exact Gives.leaves _

namespace CSWICertStoreEntry

/-- An entry with another id, for another store. -/
def numbered (entry : CSWICertStoreEntry) (aCertIndex : Int) (aStoreIndex : Nat) :
    CSWICertStoreEntry :=
  { entry with
    iCertInfo := { entry.iCertInfo with iCertificateId := aCertIndex }
    iStoreIndex := aStoreIndex }

@[simp] theorem numbered_handle (e : CSWICertStoreEntry) (i : Int) (j : Nat) :
    (e.numbered i j).handle = i := rfl

@[simp] theorem numbered_label (e : CSWICertStoreEntry) (i : Int) (j : Nat) :
    (e.numbered i j).label = e.label := rfl

/-- Whether the certificate information is valid, but for the id. -/
def Sound (e : CSWICertStoreEntry) : Prop :=
  ∀ i j, 0 ≤ i → (e.numbered i j).newL = .ok (e.numbered i j)

theorem internalizeL_numbered (i : Int) (j : Nat) :
    internalizeL f i j = (fun e => e.numbered i j) <$> internalizeL f 0 0 := by
  simp only [internalizeL, map_bind, map_pure]
  rfl

theorem gives_entry (i : Int) (j : Nat) : Gives Sound (internalizeL f i j) := by
  refine (gives_certInfo f).bind fun info hinfo => gives_readInt32L.bind fun _ _ => ?_
  refine (gives_readMany gives_readUint32L _).bind fun _ _ => gives_readUint8L.bind fun _ _ => ?_
  refine gives_readUint32L.bind fun _ _ => (Gives.of_onlyLeaves f.leaves.2).bind fun _ _ => ?_
  refine gives_readUint8L.bind fun _ _ => Gives.returns ?_
  intro k l hk
  have hvalid : CCertInfo.valid { info with iCertificateId := k } = true := by
    unfold CCertInfo.valid at hinfo ⊢
    rw [decide_eq_true_eq] at hinfo ⊢
    exact ⟨hinfo.1, hk, hinfo.2.2⟩
  exact if_pos hvalid

end CSWICertStoreEntry

/-- Ids from `i` on. -/
def numberFrom (j : Nat) : Int → CSWICertStoreEntryList → CSWICertStoreEntryList
  | _, [] => []
  | i, e :: es => e.numbered i j :: numberFrom j (i + 1) es

@[simp] theorem numberFrom_length (j : Nat) (i : Int) (es : CSWICertStoreEntryList) :
    (numberFrom j i es).length = es.length := by
  induction es generalizing i with
  | nil => rfl
  | cons e es ih => simp [numberFrom, ih]

@[simp] theorem numberFrom_labels (j : Nat) (i : Int) (es : CSWICertStoreEntryList) :
    (numberFrom j i es).map CSWICertStoreEntry.label = es.map CSWICertStoreEntry.label := by
  induction es generalizing i with
  | nil => rfl
  | cons e es ih => simp [numberFrom, ih]

theorem numberFrom_handles (j : Nat) (i : Int) (es : CSWICertStoreEntryList) :
    (numberFrom j i es).map CSWICertStoreEntry.handle =
      (range es.length).map fun k : Nat => i + (k : Int) := by
  induction es generalizing i with
  | nil => rfl
  | cons e es ih =>
      simp only [numberFrom, map_cons, CSWICertStoreEntry.numbered_handle, ih,
        length_cons, range_succ_eq_map, map_map]
      congr 1
      · simp
      · refine map_congr_left fun k _ => ?_
        simp only [Function.comp_apply]
        omega

theorem numberFrom_newL {j : Nat} {i : Int} {es : CSWICertStoreEntryList} (hi : 0 ≤ i)
    (hes : ∀ e ∈ es, e.Sound) : ∀ e ∈ numberFrom j i es, e.newL = .ok e := by
  induction es generalizing i with
  | nil => simp [numberFrom]
  | cons e es ih =>
      intro e' he'
      rcases mem_cons.mp he' with heq | hmem
      · rw [heq]
        exact hes e mem_cons_self i j hi
      · exact ih (by omega) (fun x hx => hes x (mem_cons_of_mem _ hx)) e' hmem

/-- Ids and the index of the store aside, a list is the same wherever the numbers start, unless
they run out. -/
theorem internalizeEntriesL_cases (n : Nat) (i k : Int) (j : Nat) (hk : k + n ≤ KMaxTInt + 1)
    (octets : Bytes) :
    internalizeEntriesL f j n i octets =
        (internalizeEntriesL f 0 n k octets).map (fun p => (numberFrom j i p.1, p.2)) ∨
      internalizeEntriesL f j n i octets = .error .undefined ∧ KMaxTInt + 1 < i + n := by
  induction n generalizing i k octets with
  | zero => exact .inl rfl
  | succ n ih =>
      unfold internalizeEntriesL
      by_cases hi : KMaxTInt < i
      · rw [if_pos hi]
        exact .inr ⟨rfl, by omega⟩
      · rw [if_neg hi, if_neg (by omega), CSWICertStoreEntry.internalizeL_numbered f i j,
          CSWICertStoreEntry.internalizeL_numbered f k 0]
        simp only [map_eq_pure_bind, bind_assoc, pure_bind]
        change (CSWICertStoreEntry.internalizeL f 0 0 octets >>= fun p => _) =
            (CSWICertStoreEntry.internalizeL f 0 0 octets >>= fun p => _).map _ ∨
          (CSWICertStoreEntry.internalizeL f 0 0 octets >>= fun p => _) = _ ∧ _
        cases CSWICertStoreEntry.internalizeL f 0 0 octets with
        | error e => exact .inl rfl
        | ok p =>
          change (internalizeEntriesL f j n (i + 1) p.2 >>= fun q => _) =
              (internalizeEntriesL f 0 n (k + 1) p.2 >>= fun q => _).map _ ∨
            (internalizeEntriesL f j n (i + 1) p.2 >>= fun q => _) = _ ∧ _
          rcases ih (i + 1) (k + 1) (by omega) p.2 with hrest | ⟨hrest, hout⟩
          · rw [hrest]
            cases internalizeEntriesL f 0 n (k + 1) p.2 with
            | error e => exact .inl rfl
            | ok q => exact .inl rfl
          · rw [hrest]
            exact .inr ⟨rfl, by omega⟩

theorem gives_entries (n : Nat) (k : Int) (hk : k + n ≤ KMaxTInt + 1) :
    Gives (fun es => es.length = n ∧ ∀ e ∈ es, e.Sound) (internalizeEntriesL f 0 n k) := by
  induction n generalizing k with
  | zero => exact Gives.returns (by simp)
  | succ n ih =>
      unfold internalizeEntriesL
      rw [if_neg (by omega)]
      refine (CSWICertStoreEntry.gives_entry f k 0).bind fun e he => ?_
      refine (ih (k + 1) (by omega)).bind fun es hes => Gives.returns ⟨?_, ?_⟩
      · rw [length_cons, hes.1]
      · intro e' he'
        rcases mem_cons.mp he' with heq | hmem
        · rw [heq]
          exact he
        · exact hes.2 e' hmem

/-- A count that fits a `TInt` is one that ids from 0 on do. -/
theorem count_fits {n : Int} (hn : n ≤ KMaxTInt) : (0 : Int) + (n.toNat : Int) ≤ KMaxTInt + 1 := by
  unfold KMaxTInt at hn ⊢
  omega

theorem gives_newL : Gives (fun es => ∀ e ∈ es, e.Sound) (newL f 0 0) :=
  gives_readInt32L.bind fun _ hn octets =>
    (gives_entries f _ 0 (count_fits hn) octets).mono fun _ hes => hes.2

theorem newL_cases (i : Int) (j : Nat) (octets : Bytes) :
    newL f i j octets =
        (newL f 0 0 octets).map (fun p => (numberFrom j i p.1, p.2)) ∨
      newL f i j octets = .error .undefined ∧
        ∀ p, newL f 0 0 octets = .ok p → KMaxTInt + 1 < i + p.1.length := by
  unfold newL
  change (readInt32L octets >>= fun p => internalizeEntriesL f j p.1.toNat i p.2) =
      (readInt32L octets >>= fun p => internalizeEntriesL f 0 p.1.toNat 0 p.2).map _ ∨
    (readInt32L octets >>= fun p => internalizeEntriesL f j p.1.toNat i p.2) = _ ∧
      ∀ p, (readInt32L octets >>= fun p => internalizeEntriesL f 0 p.1.toNat 0 p.2) = .ok p → _
  have hcount := gives_readInt32L octets
  cases hr : readInt32L octets with
  | error e => exact .inl rfl
  | ok p =>
      rw [hr] at hcount
      have hfits := count_fits hcount
      rcases internalizeEntriesL_cases f p.1.toNat i 0 j hfits p.2 with hsame | ⟨hout, hlt⟩
      · exact .inl hsame
      · refine .inr ⟨hout, fun q hq => ?_⟩
        have hlength := gives_entries f p.1.toNat 0 hfits p.2
        rw [ok_bind] at hq
        rw [hq] at hlength
        rw [hlength.1]
        exact hlt

/-- The list of a store, as it is read on its own. -/
def listOf (s : CPermanentFileStore) : Leaving CSWICertStoreEntryList := readEntriesL f s 0 0

theorem readEntriesL_cases (s : CPermanentFileStore) (i : Int) (j : Nat) :
    readEntriesL f s i j = (listOf f s).map (numberFrom j i) ∨
      readEntriesL f s i j = .error .undefined ∧
        ∀ es, listOf f s = .ok es → KMaxTInt + 1 < i + es.length := by
  unfold listOf readEntriesL
  cases s.openLC s.root with
  | error e => exact .inl rfl
  | ok root =>
      simp only [ok_bind]
      cases readFrom root RReadStream.readUint32L with
      | error e => exact .inl rfl
      | ok streamId =>
        simp only [ok_bind]
        cases s.openLC streamId with
        | error e => exact .inl rfl
        | ok octets =>
          simp only [ok_bind, readFrom]
          rcases newL_cases f i j octets with hsame | ⟨hout, hlt⟩
          · rw [hsame]
            cases newL f 0 0 octets with
            | error e => exact .inl rfl
            | ok p => exact .inl rfl
          · refine .inr ⟨by rw [hout]; rfl, fun es hes => ?_⟩
            obtain ⟨p, hp, heq⟩ := bind_eq_ok.mp hes
            rw [← Except.ok.inj heq]
            exact hlt p hp

theorem Gives.readFrom {α : Type} {P : α → Prop} {read : RReadStream α} (h : Gives P read)
    (octets : Bytes) : Leaves P (Swicertstore.readFrom octets read) :=
  (h octets).bind fun _ hp => hp

theorem leaves_openLC (s : CPermanentFileStore) (id : StreamId) :
    Leaves (fun _ => True) (s.openLC id) := by
  unfold CPermanentFileStore.openLC
  split
  · trivial
  · exact ⟨KErrNotFound, rfl⟩

theorem leaves_listOf (s : CPermanentFileStore) :
    Leaves (fun es => ∀ e ∈ es, e.Sound) (listOf f s) := by
  refine (leaves_openLC s s.root).bind fun root _ => ?_
  refine (gives_readUint32L.readFrom root).bind fun streamId _ => ?_
  exact (leaves_openLC s streamId).bind fun octets _ => (gives_newL f).readFrom octets

end Swicertstore

end OsSecurity

/-
Which certificates the store for software installation shows.

The list of the entries in ROM is `firsts` of all of them.  The walk that then takes the eclipsed
ones out does not hold its index back after a removal, so it panics unless nothing but the last
entry has to go, and only construction makes it: a notification replaces the writable list and
leaves the entries of ROM as construction left them.  `Kept` is what stays true of those.
-/
import OsSecurity.Certstore.NumberedEntries

namespace OsSecurity

open Commands Ends FirstByKey List

variable {cs : List Certificate} {es : CSWICertStoreEntryList} {e : CSWICertStoreEntry}
  {c : Certificate}

namespace Swicertstore

open CSWICertStoreImpl CSWICertStoreEntry CSWICertStoreEntryList

/-! ### What the store is meant to show -/

/-- A certificate and the store file it is in. -/
abbrev Certificate := CSWICertStoreEntry × CPermanentFileStore

def Certificate.label (c : Certificate) : Text := c.1.label

def labels (cs : List Certificate) : List Text := cs.map Certificate.label

section Meaning

variable (f : StreamFormats) (rom : Rom)

/-- The certificates of a store file whose list can be read. -/
def certificates (s : CPermanentFileStore) : List Certificate :=
  match listOf f s with
  | .ok es => es.map fun e => (e, s)
  | .error _ => []

/-- The current writable list. -/
def writable (looks : Looks) : List Certificate :=
  match looks.opened with
  | some s => certificates f s
  | none => []

/-- The files in ROM that are stores, in the order of their names. -/
def CSWICertStoreImpl.Rom.stores : List CPermanentFileStore :=
  match rom.composite.getDir with
  | .ok filenameList => filenameList.filterMap rom.composite.fromL
  | .error _ => []

/-- For each label in ROM, the entry of the first file that has it. -/
def composite : List Certificate :=
  firsts Certificate.label (rom.stores.flatMap (certificates f))

def expected (looks : Looks) : List Certificate :=
  writable f looks ++ (composite f rom).filter fun c => c.label ∉ labels (writable f looks)

def CSWICertStoreImpl.visible (m : CSWICertStoreImpl) : CSWICertStoreEntryList :=
  m.iCEntryList.getD [] ++ m.iZEntryList

/-- The entry is the certificate's, and its handle retrieves it from the file it is in. -/
structure Shows (m : CSWICertStoreImpl) (e : CSWICertStoreEntry) (c : Certificate) : Prop where
  entry : e = c.1.numbered e.handle e.iStoreIndex
  retrieved : ∀ aMaxLength, m.retrieveL e.handle aMaxLength = c.1.retrieveFromL c.2 aMaxLength

structure Eclipses (looks : Looks) (m : CSWICertStoreImpl) : Prop where
  entries : ∃ cs, cs.Perm (expected f rom looks) ∧ Forall₂ (Shows m) m.visible cs
  handles : (m.visible.map CSWICertStoreEntry.handle).Nodup

def EclipsesAfter (m : CSWICertStoreImpl) : List Looks → Prop
  | [] => True
  | looks :: later =>
      ∃ t, runL f looks m = (.ok (), t) ∧ Eclipses f rom looks t ∧ EclipsesAfter t later

/-- After construction and after each notification. -/
def AlwaysEclipses (first : Looks) (later : List Looks) : Prop :=
  ∃ m, constructL f rom first { iPatchableConst := true } = (.ok (), m) ∧
    Eclipses f rom first m ∧ EclipsesAfter f rom m later

/-- The files in ROM can be read, so that construction does not leave. -/
structure CSWICertStoreImpl.Rom.Readable : Prop where
  attached : 0 ≤ rom.attached
  opens : ∃ filenameList, rom.composite.getDir = .ok filenameList ∧
    ∀ iName ∈ filenameList, 0 ≤ rom.composite.openFile iName
  lists : ∀ s ∈ rom.stores, ∃ es, listOf f s = .ok es

/-! ### When it shows that -/

/-- Ids from `i` on are enough to read the list of a store. -/
def Numbers (i : Int) (s : CPermanentFileStore) : Prop :=
  match listOf f s with
  | .ok es => i + es.length ≤ KMaxTInt
  | .error _ => readEntriesL f s i 0 ≠ .error .undefined

def Fits : Int → List CPermanentFileStore → Prop
  | _, [] => True
  | i, s :: ss => Numbers f i s ∧ Fits (i + (certificates f s).length) ss

/-- No label in ROM but the last is in the first writable list, every later list has the same
labels of ROM as the first, and the ids do not run out. -/
structure EclipsesAlike (first : Looks) (later : List Looks) : Prop where
  last : ∀ c ∈ (composite f rom).dropLast, c.label ∉ labels (writable f first)
  same : ∀ looks ∈ later, ∀ c ∈ composite f rom,
    c.label ∈ labels (writable f looks) ↔ c.label ∈ labels (writable f first)
  fits : Fits f 0 (rom.stores ++ (first :: later).filterMap Looks.opened)

end Meaning

/-! ### The writable store -/

section Step

variable (f : StreamFormats) {m : CSWICertStoreImpl}

/-- What `SetupWritableCertStoreL` leaves. -/
def updated (looks : Looks) (m : CSWICertStoreImpl) : CSWICertStoreImpl :=
  { m with
    iCEntryList :=
      (looks.opened.bind fun s => (listOf f s).toOption).map (numberFrom 0 m.iCertIndex)
    iCStore := looks.opened
    iCertIndex := m.iCertIndex + (writable f looks).length }

/-- Ids from `i` on are enough for what is opened, if something is. -/
def NumbersOpened (i : Int) (looks : Looks) : Prop := ∀ s, looks.opened = some s → Numbers f i s

theorem may_ends {α β : Type} {x : Leaving α} {g : α → Impl β} {Q : β → CSWICertStoreImpl → Prop}
    {E : Exit → CSWICertStoreImpl → Prop} (hok : ∀ a, x = .ok a → Ends Q E (g a m))
    (herror : ∀ e, x = .error e → E e m) : Ends Q E ((may x >>= g) m) := by
  cases x with
  | ok a => exact hok a rfl
  | error e => exact herror e rfl

theorem advance_ends {n : Nat} {Q : Unit → CSWICertStoreImpl → Prop}
    {E : Exit → CSWICertStoreImpl → Prop}
    (hok : m.iCertIndex + n ≤ KMaxTInt → Q () { m with iCertIndex := m.iCertIndex + n })
    (herror : KMaxTInt < m.iCertIndex + n → E .undefined m) : Ends Q E (advance n m) := by
  unfold advance
  refine then_get ?_
  by_cases hn : KMaxTInt < m.iCertIndex + n
  · rw [if_pos hn]
    exact herror hn
  · rw [if_neg hn]
    exact hok (by omega)

theorem setup_ends (looks : Looks) :
    Ends (fun _ t => t = updated f looks m ∧ NumbersOpened f m.iCertIndex looks)
      (fun e t => (∃ k, e = .leave k) ∧ t = updated f looks m ∧
          NumbersOpened f m.iCertIndex looks ∨
        e = .undefined ∧ ¬ NumbersOpened f m.iCertIndex looks)
      (setupWritableCertStoreL f looks m) := by
  unfold setupWritableCertStoreL NumbersOpened
  refine then_modify ?_
  cases ho : looks.opened with
  | none => exact ⟨by simp [updated, ho, writable], by simp⟩
  | some s =>
      simp only [Option.some.injEq, forall_eq', Numbers]
      refine then_modify (then_get (may_ends ?_ ?_))
      · intro entries hread
        rcases readEntriesL_cases f s m.iCertIndex 0 with hsame | ⟨hout, -⟩
        · rw [hsame] at hread
          cases hlist : listOf f s with
          | error e => simp [hlist, Except.map] at hread
          | ok es =>
            simp only [hlist, Except.map, Except.ok.injEq] at hread
            refine then_modify (advance_ends ?_ ?_)
            · intro hle
              rw [← hread, numberFrom_length] at hle
              refine ⟨?_, hle⟩
              simp [updated, ho, hlist, writable, certificates, Except.toOption, ← hread]
            · intro hlt
              rw [← hread, numberFrom_length] at hlt
              exact .inr ⟨rfl, by simpa using hlt⟩
        · simp [hout] at hread
      · intro e hread
        rcases readEntriesL_cases f s m.iCertIndex 0 with hsame | ⟨hout, hlt⟩
        · rw [hsame] at hread
          have hleave := leaves_listOf f s
          cases hlist : listOf f s with
          | ok es => simp [hlist, Except.map] at hread
          | error e' =>
            rw [hlist] at hleave
            obtain ⟨k, hk⟩ := hleave
            simp only [hlist, Except.map, Except.error.injEq] at hread
            refine .inl ⟨⟨k, hread ▸ hk⟩, ?_, ?_⟩
            · simp [updated, ho, hlist, writable, certificates, Except.toOption]
            · simp [hsame, hlist, Except.map, hk]
        · refine .inr ⟨?_, ?_⟩
          · rw [hout] at hread
            exact (Except.error.inj hread).symm
          · cases hlist : listOf f s with
            | ok es =>
              have hes := hlt es hlist
              simp only [not_le]
              omega
            | error e' => simp [hout]

/-- Only the end of `TInt` gets past the trap. -/
theorem trapped_setup_ends (looks : Looks) :
    Ends (fun _ t => t = updated f looks m ∧ NumbersOpened f m.iCertIndex looks)
      (fun e _ => e = .undefined ∧ ¬ NumbersOpened f m.iCertIndex looks)
      (trapIgnore (setupWritableCertStoreL f looks) m) := by
  refine tryCatch (setup_ends f looks) fun e t he => ?_
  rcases he with ⟨⟨k, hk⟩, ht⟩ | ⟨he, hnot⟩
  · rw [hk]
    exact ht
  · rw [he]
    exact ⟨rfl, hnot⟩

/-! ### The stores in ROM -/

/-- The entries of the files in ROM as they are read, one file after the other. -/
def romEntries : Int → Nat → List CPermanentFileStore → CSWICertStoreEntryList
  | _, _, [] => []
  | i, j, s :: ss =>
      numberFrom j i ((certificates f s).map Prod.fst) ++
        romEntries (i + (certificates f s).length) (j + 1) ss

theorem romEntries_concat (i : Int) (j : Nat) (ss : List CPermanentFileStore)
    (s : CPermanentFileStore) :
    romEntries f i j (ss ++ [s]) = romEntries f i j ss ++
      numberFrom (j + ss.length) (i + (ss.flatMap (certificates f)).length)
        ((certificates f s).map Prod.fst) := by
  induction ss generalizing i j with
  | nil => simp [romEntries]
  | cons s' ss ih =>
      rw [cons_append, romEntries, ih, romEntries, List.append_assoc, length_cons,
        flatMap_cons, length_append]
      congr 3
      · omega
      · push_cast
        omega

theorem fits_append (i : Int) (ss ss' : List CPermanentFileStore) :
    Fits f i (ss ++ ss') ↔
      Fits f i ss ∧ Fits f (i + (ss.flatMap (certificates f)).length) ss' := by
  induction ss generalizing i with
  | nil => simp [Fits]
  | cons s ss ih =>
      rw [cons_append, Fits, Fits, ih, and_assoc, flatMap_cons, length_append]
      push_cast
      rw [add_assoc]

/-- Where the stores `done` are in. -/
structure Loaded (done : List CPermanentFileStore) (m : CSWICertStoreImpl) : Prop where
  aggregating : m.iPatchableConst = true
  array : m.iZArrayOfStores = done
  index : m.iCertIndex = (done.flatMap (certificates f)).length
  entries : m.iZEntryList = firsts CSWICertStoreEntry.label (romEntries f 0 0 done)

theorem mergeIntoZ_all (pre es : CSWICertStoreEntryList) (hes : ∀ e ∈ es, e.newL = .ok e) :
    es.foldlM mergeIntoZ (firsts label pre) =
      .ok (firsts label (pre ++ es)) := by
  induction es generalizing pre with
  | nil =>
      rw [append_nil]
      rfl
  | cons e es ih =>
      have hmerge : mergeIntoZ (firsts label pre) e =
          .ok (firsts label (pre ++ [e])) := by
        unfold mergeIntoZ labelExists
        rw [firsts_concat, hes e mem_cons_self]
        by_cases he : e.label ∈ (firsts label pre).map label
        · rw [if_pos he, if_pos (by simpa using mem_map.mp he)]
        · have hnew : ∀ x ∈ firsts label pre, ¬ x.label = e.label :=
            fun x hx hlabel => he (mem_map.mpr ⟨x, hx, hlabel⟩)
          rw [if_neg he, if_neg (by simpa using hnew)]
          rfl
      have hes' : ∀ x ∈ es, x.newL = .ok x := fun x hx => hes x (mem_cons_of_mem _ hx)
      rw [foldlM_cons, hmerge, ok_bind, ih _ hes', List.append_assoc]
      rfl

theorem addZStoreL_ends {done : List CPermanentFileStore} {s : CPermanentFileStore}
    (h : Loaded f done m) (hlist : listOf f s = .ok es) :
    Ends (fun _ t => Loaded f (done ++ [s]) t ∧ Numbers f m.iCertIndex s)
      (fun e _ => e = .undefined ∧ ¬ Numbers f m.iCertIndex s) (addZStoreL f s done.length m) := by
  have hcerts : (certificates f s).map Prod.fst = es := by
    simp [certificates, hlist, Function.comp_def]
  have hcount : (certificates f s).length = es.length := by
    rw [← hcerts, length_map]
  have hindex : 0 ≤ m.iCertIndex := by
    rw [h.index]
    omega
  have hsound := leaves_listOf f s
  rw [hlist] at hsound
  unfold addZStoreL Numbers
  simp only [hlist]
  refine then_modify (then_get ?_)
  have hat : (m.iZArrayOfStores ++ [s])[done.length]? = some s := by
    rw [h.array]
    simp
  simp only [hat]
  rcases readEntriesL_cases f s m.iCertIndex done.length with hsame | ⟨hout, hlt⟩
  · rw [hsame, hlist]
    refine may_ends (fun entries hentries => ?_) fun e he => by cases he
    rw [← Except.ok.inj hentries, numberFrom_length]
    refine Ends.bind (Q := fun _ t => t = _ ∧ m.iCertIndex + es.length ≤ KMaxTInt)
      (advance_ends (fun hle => ⟨rfl, hle⟩) fun hlt => ⟨rfl, by simpa using hlt⟩) ?_
    rintro - t ⟨ht, hle⟩
    rw [ht]
    refine then_get (may_ends ?_ ?_)
    · intro z hz
      rw [h.entries, mergeIntoZ_all _ _ (numberFrom_newL hindex hsound)] at hz
      refine ⟨⟨h.aggregating, ?_, ?_, ?_⟩, hle⟩
      · simp [h.array]
      · simp [h.index, hcount]
      · rw [romEntries_concat, hcerts]
        simp only [zero_add]
        rw [← h.index]
        exact (Except.ok.inj hz).symm
    · intro e he
      rw [h.entries, mergeIntoZ_all _ _ (numberFrom_newL hindex hsound)] at he
      cases he
  · rw [hout]
    refine may_ends (fun entries hentries => by cases hentries) fun e he => ?_
    have hes := hlt es hlist
    exact ⟨(Except.error.inj he).symm, by omega⟩

/-- `names` are the files ahead; the ones that are no stores are passed over. -/
theorem addZStoresL_ends {d : Directory} {names : List Text} {i corruptCount : Nat}
    {done : List CPermanentFileStore} (hopens : ∀ iName ∈ names, 0 ≤ d.openFile iName)
    (hlists : ∀ s ∈ names.filterMap d.fromL, ∃ es, listOf f s = .ok es)
    (hi : i - corruptCount = done.length) (hle : corruptCount ≤ i) (h : Loaded f done m) :
    Ends (fun _ t => Loaded f (done ++ names.filterMap d.fromL) t ∧
        Fits f m.iCertIndex (names.filterMap d.fromL))
      (fun e _ => e = .undefined ∧ ¬ Fits f m.iCertIndex (names.filterMap d.fromL))
      (addZStoresL f d names i corruptCount m) := by
  induction names generalizing i corruptCount done m with
  | nil => exact ⟨by simpa using h, trivial⟩
  | cons iName names ih =>
      have hopen : ¬ d.openFile iName < 0 := by
        have := hopens iName mem_cons_self
        omega
      have hopens' : ∀ iName ∈ names, 0 ≤ d.openFile iName :=
        fun n hn => hopens n (mem_cons_of_mem _ hn)
      unfold addZStoresL leaveIfError
      rw [if_neg hopen, bind_ok (pure_apply () m)]
      cases hfile : d.fromL iName with
      | none =>
        rw [filterMap_cons_none hfile] at hlists ⊢
        exact ih hopens' hlists (by omega) (by omega) h
      | some s =>
        rw [filterMap_cons_some hfile] at hlists ⊢
        obtain ⟨es, hlist⟩ := hlists s mem_cons_self
        simp only [hi, Fits]
        refine Ends.bind ((addZStoreL_ends f h hlist).mono (fun _ _ ht => ht) ?_) ?_
        · rintro e t ⟨he, hnot⟩
          exact ⟨he, fun hfits => hnot hfits.1⟩
        · rintro - t ⟨ht, hnumbers⟩
          have hindex : t.iCertIndex = m.iCertIndex + (certificates f s).length := by
            rw [ht.index, h.index]
            simp
          have hi' : i + 1 - corruptCount = (done ++ [s]).length := by
            rw [length_append, length_singleton]
            omega
          have hrest := ih hopens' (fun s' hs' => hlists s' (mem_cons_of_mem _ hs')) hi'
            (by omega) ht
          rw [hindex, List.append_assoc] at hrest
          refine hrest.mono ?_ ?_
          · rintro _ t' ⟨ht', hfits⟩
            exact ⟨ht', hnumbers, hfits⟩
          · rintro e t' ⟨he, hnot⟩
            exact ⟨he, fun hfits => hnot hfits.2⟩

end Step

/-! ### The entries of ROM that construction left -/

/-- The entry is the certificate's, and its index is that of the file it is in. -/
structure FromRom (stores : List CPermanentFileStore) (e : CSWICertStoreEntry) (c : Certificate) :
    Prop where
  entry : e = c.1.numbered e.handle e.iStoreIndex
  store : stores[e.iStoreIndex]? = some c.2

theorem FromRom.label {stores : List CPermanentFileStore} (h : FromRom stores e c) :
    e.label = c.label := by
  rw [h.entry]
  rfl

structure Kept (cs : List Certificate) (m : CSWICertStoreImpl) : Prop where
  aggregating : m.iPatchableConst = true
  entries : Forall₂ (FromRom m.iZArrayOfStores) m.iZEntryList cs
  nodup : (m.iZEntryList.map CSWICertStoreEntry.handle).Nodup
  below : ∀ e ∈ m.iZEntryList, e.handle < m.iCertIndex

section Rom

variable (f : StreamFormats) {m : CSWICertStoreImpl}

theorem forall₂_numberFrom {P : Certificate → Prop} (i : Int) (j : Nat) (hP : ∀ c ∈ cs, P c) :
    Forall₂ (fun e c => e = c.1.numbered e.handle j ∧ P c)
      (numberFrom j i (cs.map Prod.fst)) cs := by
  induction cs generalizing i with
  | nil => exact .nil
  | cons c cs ih =>
      exact .cons ⟨rfl, hP c mem_cons_self⟩
        (ih (i + 1) fun c' hc' => hP c' (mem_cons_of_mem _ hc'))

theorem certificates_store {s : CPermanentFileStore} (hc : c ∈ certificates f s) : c.2 = s := by
  unfold certificates at hc
  split at hc
  · obtain ⟨e, -, heq⟩ := mem_map.mp hc
    rw [← heq]
  · cases hc

theorem forall₂_romEntries {stores : List CPermanentFileStore} (i : Int) (j : Nat)
    (ss : List CPermanentFileStore) (hj : stores.drop j = ss) :
    Forall₂ (FromRom stores) (romEntries f i j ss) (ss.flatMap (certificates f)) := by
  induction ss generalizing i j with
  | nil => exact .nil
  | cons s ss ih =>
      have hat : stores[j]? = some s := by
        rw [← head?_drop, hj]
        rfl
      have hdrop : stores.drop (j + 1) = ss := by
        rw [← tail_drop, hj]
        rfl
      rw [flatMap_cons]
      refine rel_append ?_ (ih _ _ hdrop)
      refine (forall₂_numberFrom i j fun c hc => certificates_store f hc).imp ?_
      intro e c hec
      have hindex : e.iStoreIndex = j := by
        rw [hec.1]
        rfl
      exact ⟨hindex ▸ hec.1, by rw [hindex, hec.2, hat]⟩

theorem romEntries_handles (i : Int) (j : Nat) (ss : List CPermanentFileStore) :
    (romEntries f i j ss).map handle =
      (range (ss.flatMap (certificates f)).length).map fun k : Nat => i + (k : Int) := by
  induction ss generalizing i j with
  | nil => rfl
  | cons s ss ih =>
      rw [romEntries, map_append, numberFrom_handles, ih, length_map, flatMap_cons,
        length_append, range_add, map_append, map_map]
      congr 1
      refine map_congr_left fun k _ => ?_
      simp only [Function.comp_apply]
      push_cast
      omega

theorem nodup_from (i : Int) (n : Nat) : ((range n).map fun k : Nat => i + (k : Int)).Nodup := by
  refine Nodup.map (fun a b hab => ?_) nodup_range
  have heq : i + (a : Int) = i + (b : Int) := hab
  omega

theorem kept_of_loaded {ss : List CPermanentFileStore} (h : Loaded f ss m) :
    Kept (firsts Certificate.label (ss.flatMap (certificates f))) m := by
  have hsub : m.iZEntryList.Sublist (romEntries f 0 0 ss) := by
    rw [h.entries]
    exact firsts_sublist _ _
  have hhandles := romEntries_handles f 0 0 ss
  refine ⟨h.aggregating, ?_, ?_, ?_⟩
  · rw [h.entries, h.array]
    exact forall₂_firsts _ _ (fun _ _ hc => hc.label) (forall₂_romEntries f 0 0 ss rfl)
  · refine Nodup.sublist (hsub.map _) ?_
    rw [hhandles]
    exact nodup_from 0 _
  · intro e he
    have hmem : e.handle ∈ (romEntries f 0 0 ss).map handle :=
      mem_map_of_mem (hsub.subset he)
    rw [hhandles] at hmem
    obtain ⟨k, hk, heq⟩ := mem_map.mp hmem
    rw [mem_range] at hk
    rw [h.index, ← heq]
    omega

/-- What is left of them when the eclipsed ones are taken out. -/
theorem Kept.filter (h : Kept cs m) (p : Text → Bool) :
    Kept (cs.filter fun c => p c.label)
      { m with iZEntryList := m.iZEntryList.filter fun e => p e.label } := by
  refine ⟨h.aggregating, ?_, ?_, ?_⟩
  · refine rel_filter (fun e c hc => ?_) h.entries
    change p e.label = true ↔ p c.label = true
    rw [hc.label]
  · exact h.nodup.sublist (filter_sublist.map _)
  · exact fun e he => h.below e (mem_filter.mp he).1

/-- A notification leaves them. -/
theorem Kept.updated (h : Kept cs m) (looks : Looks) : Kept cs (updated f looks m) := by
  refine ⟨h.aggregating, h.entries, h.nodup, fun e he => ?_⟩
  have hlt := h.below e he
  simp only [Swicertstore.updated]
  omega

/-! ### What is visible, and when it is what it is meant to be -/

theorem find_handle (hnodup : (es.map handle).Nodup) (he : e ∈ es) :
    es.find? (fun entry => e.handle = entry.handle) = some e := by
  induction es with
  | nil => cases he
  | cons x xs ih =>
      rw [map_cons, nodup_cons] at hnodup
      rcases mem_cons.mp he with heq | hmem
      · rw [heq, find?_cons_of_pos (by simp)]
      · have hne : e.handle ≠ x.handle := fun h => hnodup.1 (h ▸ mem_map_of_mem hmem)
        rw [find?_cons_of_neg (by simpa using hne)]
        exact ih hnodup.2 hmem

theorem find_handle_none {aHandle : Int} (h : aHandle ∉ es.map handle) :
    es.find? (fun entry => aHandle = entry.handle) = none := by
  rw [find?_eq_none]
  intro x hx hp
  exact h (mem_map.mpr ⟨x, hx, (of_decide_eq_true hp).symm⟩)

/-- The entries of the writable store after an update. -/
def fresh (i : Int) (looks : Looks) : CSWICertStoreEntryList :=
  numberFrom 0 i ((writable f looks).map Prod.fst)

theorem updated_entries (looks : Looks) :
    (updated f looks m).iCEntryList.getD [] = fresh f m.iCertIndex looks := by
  cases ho : looks.opened with
  | none => simp [updated, fresh, writable, ho, numberFrom]
  | some s =>
      cases hlist : listOf f s with
      | error e =>
        simp [updated, fresh, writable, certificates, ho, hlist, numberFrom, Except.toOption]
      | ok es =>
        simp [updated, fresh, writable, certificates, ho, hlist, Except.toOption,
          Function.comp_def]

/-- Every certificate of the writable list is in the file that was opened. -/
theorem writable_store {looks : Looks} (hc : c ∈ writable f looks) : looks.opened = some c.2 := by
  unfold writable at hc
  split at hc
  · rename_i s ho
    rw [ho, certificates_store f hc]
  · cases hc

theorem handles_nodup (h : Kept cs m) (looks : Looks) :
    ((fresh f m.iCertIndex looks ++ m.iZEntryList).map handle).Nodup := by
  rw [map_append, fresh, numberFrom_handles]
  refine Nodup.append (nodup_from _ _) h.nodup ?_
  intro x hx hx'
  obtain ⟨k, -, hk⟩ := mem_map.mp hx
  obtain ⟨e, he, heq⟩ := mem_map.mp hx'
  have hlt := h.below e he
  omega

theorem updated_visible (looks : Looks) :
    (updated f looks m).visible = fresh f m.iCertIndex looks ++ m.iZEntryList := by
  unfold visible
  rw [updated_entries]
  rfl

theorem retrieveL_fresh (h : Kept cs m) {looks : Looks} (he : e ∈ fresh f m.iCertIndex looks)
    (hec : e = c.1.numbered e.handle 0) (hstore : looks.opened = some c.2) (aMaxLength : Nat) :
    (updated f looks m).retrieveL e.handle aMaxLength = c.1.retrieveFromL c.2 aMaxLength := by
  have hlist := updated_entries (m := m) f looks
  cases hc : (updated f looks m).iCEntryList with
  | none =>
      rw [hc, Option.getD_none] at hlist
      rw [← hlist] at he
      cases he
  | some es =>
      rw [hc, Option.getD_some] at hlist
      have hnodup : (es.map handle).Nodup := by
        have hall := handles_nodup f h looks
        rw [map_append, ← hlist] at hall
        exact hall.of_append_left
      have hfind : (updated f looks m).findInC e.handle = some e := by
        unfold findInC
        rw [hc]
        simp only [getByHandleL]
        rw [find_handle hnodup (hlist ▸ he)]
        rfl
      have hstoreOf : (updated f looks m).storeOf e true = .ok c.2 := by
        have hopened : (updated f looks m).iCStore = some c.2 := hstore
        unfold storeOf
        rw [hc, hopened]
        rfl
      unfold retrieveL getCSWICertStoreEntryL
      rw [hfind]
      simp only [ok_bind, hstoreOf]
      rw [hec]
      rfl

theorem retrieveL_rom (h : Kept cs m) {looks : Looks} (he : e ∈ m.iZEntryList)
    (hec : FromRom m.iZArrayOfStores e c) (aMaxLength : Nat) :
    (updated f looks m).retrieveL e.handle aMaxLength = c.1.retrieveFromL c.2 aMaxLength := by
  have hlist := updated_entries (m := m) f looks
  have hnone : (updated f looks m).findInC e.handle = none := by
    unfold findInC
    cases hc : (updated f looks m).iCEntryList with
    | none => rfl
    | some es =>
      rw [hc, Option.getD_some] at hlist
      have hall := handles_nodup f h looks
      rw [map_append, ← hlist] at hall
      have hnot : e.handle ∉ es.map handle := fun hmem =>
        (disjoint_of_nodup_append hall) hmem (mem_map_of_mem he)
      simp only [getByHandleL]
      rw [find_handle_none hnot]
      rfl
  have hfind : (updated f looks m).iZEntryList.getByHandleL e.handle = .ok e := by
    unfold getByHandleL
    rw [show (updated f looks m).iZEntryList = m.iZEntryList from rfl, find_handle h.nodup he]
  have hstoreOf : (updated f looks m).storeOf e false = .ok c.2 := by
    have harray : (updated f looks m).iZArrayOfStores[e.iStoreIndex]? = some c.2 := hec.store
    have hagg : (updated f looks m).iPatchableConst = true := h.aggregating
    simp only [storeOf, Bool.false_eq_true, and_false, if_false, hagg, if_true, harray]
  unfold retrieveL getCSWICertStoreEntryL
  rw [hnone, hfind]
  simp only [ok_bind, leaving_pure, hstoreOf]
  rw [hec.entry]
  rfl

theorem shows_updated (h : Kept cs m) (looks : Looks) :
    Forall₂ (Shows (updated f looks m)) (updated f looks m).visible
      (writable f looks ++ cs) := by
  rw [updated_visible]
  refine rel_append ?_ ?_
  · have hall := forall₂_numberFrom m.iCertIndex 0 fun c (hc : c ∈ writable f looks) =>
      writable_store f hc
    refine ((forall₂_and_left _ _).mpr ⟨fun e he => he, hall⟩).imp ?_
    intro e c hec
    have hindex : e.iStoreIndex = 0 := by
      rw [hec.2.1]
      rfl
    exact ⟨hindex.symm ▸ hec.2.1, retrieveL_fresh f h hec.1 hec.2.1 hec.2.2⟩
  · refine ((forall₂_and_left _ _).mpr ⟨fun e he => he, h.entries⟩).imp ?_
    intro e c hec
    exact ⟨hec.2.entry, retrieveL_rom f h hec.1 hec.2⟩

end Rom

section Runs

variable (f : StreamFormats) (rom : Rom) {m : CSWICertStoreImpl}

theorem forall₂_labels {R : CSWICertStoreEntry → Certificate → Prop}
    (hR : ∀ e c, R e c → e.label = c.label) (h : Forall₂ R es cs) : es.map label = labels cs := by
  induction h with
  | nil => rfl
  | cons hec _ ih =>
      rw [map_cons, ih, hR _ _ hec]
      rfl

theorem shows_labels {t : CSWICertStoreImpl} (h : Forall₂ (Shows t) es cs) :
    es.map label = labels cs := by
  refine forall₂_labels (fun e c hec => ?_) h
  rw [hec.entry]
  rfl

theorem nodup_composite : (labels (composite f rom)).Nodup := nodup_firsts _ _

theorem eclipses_updated (h : Kept cs m) (hsub : cs.Sublist (composite f rom)) (looks : Looks) :
    Eclipses f rom looks (updated f looks m) ↔
      cs = (composite f rom).filter fun c => c.label ∉ labels (writable f looks) := by
  have hshows := shows_updated f h looks
  constructor
  · rintro ⟨⟨cs', hperm, hcs'⟩, -⟩
    have hlabels : (labels (writable f looks ++ cs)).Perm (labels (expected f rom looks)) := by
      rw [← shows_labels hshows, shows_labels hcs']
      exact hperm.map _
    simp only [expected, labels, map_append, perm_append_left_iff] at hlabels
    rw [sublist_eq_filter _ (nodup_composite f rom) hsub]
    refine filter_congr fun c hc => ?_
    rw [decide_eq_decide, hlabels.mem_iff, mem_map]
    constructor
    · rintro ⟨c', hc', hlabel⟩
      rw [← hlabel]
      exact of_decide_eq_true (mem_filter.mp hc').2
    · intro hnot
      exact ⟨c, mem_filter.mpr ⟨hc, decide_eq_true hnot⟩, rfl⟩
  · intro hcs
    refine ⟨⟨writable f looks ++ cs, ?_, hshows⟩, ?_⟩
    · rw [hcs]
      exact Perm.refl _
    · rw [updated_visible]
      exact handles_nodup f h looks

theorem fits_opened (i : Int) (looks : Looks) (later : List Looks) :
    Fits f i ((looks :: later).filterMap Looks.opened) ↔
      NumbersOpened f i looks ∧
        Fits f (i + (writable f looks).length) (later.filterMap Looks.opened) := by
  unfold NumbersOpened writable
  cases ho : looks.opened with
  | none => simp [ho]
  | some s => simp [ho, Fits]

/-- The same entries are left when the same labels are. -/
theorem left_eq_iff (now first : List Text) :
    ((composite f rom).filter fun c => c.label ∉ first) =
        ((composite f rom).filter fun c => c.label ∉ now) ↔
      ∀ c ∈ composite f rom, c.label ∈ now ↔ c.label ∈ first := by
  constructor
  · intro heq c hc
    have hmem : c ∈ ((composite f rom).filter fun c => c.label ∉ first) ↔
        c ∈ (composite f rom).filter fun c => c.label ∉ now := by rw [heq]
    simp only [mem_filter, hc, true_and, decide_eq_true_eq] at hmem
    exact (not_iff_not.mp hmem).symm
  · intro hsame
    refine filter_congr fun c hc => ?_
    rw [decide_eq_decide, hsame c hc]

/-- Later lists eclipse what the first one did. -/
theorem eclipsesAfter_iff {first : Looks} (later : List Looks)
    (h : Kept ((composite f rom).filter fun c => c.label ∉ labels (writable f first)) m) :
    EclipsesAfter f rom m later ↔
      (∀ looks ∈ later, ∀ c ∈ composite f rom,
        c.label ∈ labels (writable f looks) ↔ c.label ∈ labels (writable f first)) ∧
      Fits f m.iCertIndex (later.filterMap Looks.opened) := by
  induction later generalizing m with
  | nil => simp [EclipsesAfter, Fits]
  | cons looks later ih =>
      have hsame := eclipses_updated f rom h filter_sublist looks
      have hrest := ih (h.updated f looks)
      have hstep := trapped_setup_ends (m := m) f looks
      rw [left_eq_iff] at hsame
      rw [fits_opened, forall_mem_cons, and_and_and_comm]
      unfold EclipsesAfter runL
      rcases hrun : trapIgnore (setupWritableCertStoreL f looks) m with ⟨r, t⟩
      rw [hrun] at hstep
      cases r with
      | error e =>
        have hnot := hstep.2
        constructor
        · rintro ⟨t', ht', -⟩
          cases ht'
        · intro hall
          exact absurd hall.1.2 hnot
      | ok u =>
        obtain ⟨ht, hnumbers⟩ := hstep
        constructor
        · rintro ⟨t', ht', hnow, hafter⟩
          rw [← (Prod.mk.inj ht').2, ht] at hnow hafter
          exact ⟨⟨hsame.mp hnow, hnumbers⟩, hrest.mp hafter⟩
        · rintro ⟨⟨hnow, -⟩, hafter⟩
          exact ⟨updated f looks m, by rw [ht], hsame.mpr hnow, hrest.mpr hafter⟩

/-! ### Construction -/

theorem setupZL_ends (hrom : rom.Readable f) (hm : Loaded f [] m) :
    Ends (fun _ t => Loaded f rom.stores t ∧ Fits f 0 rom.stores)
      (fun e _ => e = .undefined ∧ ¬ Fits f 0 rom.stores) (setupZL f rom m) := by
  obtain ⟨names, hnames, hopens⟩ := hrom.opens
  have hstores : rom.stores = names.filterMap rom.composite.fromL := by
    simp [Rom.stores, hnames]
  have hlists := hrom.lists
  have hindex : m.iCertIndex = 0 := hm.index
  unfold setupZL setupCompositeROMCertStoreL
  refine then_get ?_
  rw [if_pos hm.aggregating, hnames]
  rw [hstores] at hlists ⊢
  have hall := addZStoresL_ends f hopens hlists (i := 0) rfl (le_refl 0) hm
  rw [hindex] at hall
  exact hall

/-- The walk over the entries of ROM: all is well unless it has to remove one before the last. -/
theorem removeFromZ_iff (c z : CSWICertStoreEntryList) :
    removeFromZ c z =
      if ∀ e ∈ z.dropLast, c.labelExists e.label = false then
        .ok (z.filter fun e => !c.labelExists e.label)
      else panic := by
  have hall : removeAt (fun e : CSWICertStoreEntry => c.labelExists e.label) z.length
      ([] : CSWICertStoreEntryList).length ([] ++ z) = _ := removeAt_all
  rw [nil_append, length_nil] at hall
  unfold removeFromZ
  rw [hall]
  by_cases hlast : ∀ e ∈ z.dropLast, c.labelExists e.label = false
  · rw [if_pos hlast, if_pos hlast]
    rfl
  · rw [if_neg hlast, if_neg hlast]

theorem labelExists_iff (c : CSWICertStoreEntryList) (aLabel : Text) :
    c.labelExists aLabel = true ↔ aLabel ∈ c.map label := by
  simp [labelExists, mem_map]

theorem fresh_labels (i : Int) (looks : Looks) :
    (fresh f i looks).map label = labels (writable f looks) := by
  rw [fresh, numberFrom_labels, map_map]
  rfl

/-- The entries of ROM whose labels are not in the writable list. -/
def uneclipsed (looks : Looks) (m : CSWICertStoreImpl) : CSWICertStoreImpl :=
  { m with iZEntryList := m.iZEntryList.filter fun e => e.label ∉ labels (writable f looks) }

/-- What has to go before the last of the entries of ROM, said of the certificates. -/
theorem Kept.dropLast (h : Kept cs m) (P : Text → Prop) :
    (∀ e ∈ m.iZEntryList.dropLast, P e.label) ↔ ∀ c ∈ cs.dropLast, P c.label := by
  have hmap : m.iZEntryList.dropLast.map label =
      cs.dropLast.map Certificate.label := by
    rw [map_dropLast, forall₂_labels (fun _ _ hec => hec.label) h.entries, labels, map_dropLast]
  rw [← forall_mem_map (P := P), hmap, forall_mem_map]

theorem eclipseZL_ends (h : Kept cs m) (looks : Looks) :
    Ends (fun _ t => t = updated f looks (uneclipsed f looks m) ∧
        ∀ c ∈ cs.dropLast, c.label ∉ labels (writable f looks))
      (fun _ _ => ¬ ∀ c ∈ cs.dropLast, c.label ∉ labels (writable f looks))
      (eclipseZL (updated f looks m)) := by
  have hlist := updated_entries (m := m) f looks
  have hlabels := fresh_labels f m.iCertIndex looks
  rw [← h.dropLast fun l => l ∉ labels (writable f looks)]
  unfold eclipseZL
  refine then_get ?_
  cases hc : (updated f looks m).iCEntryList with
  | none =>
      rw [hc, Option.getD_none] at hlist
      rw [← hlist, map_nil] at hlabels
      refine ⟨?_, by simp [← hlabels]⟩
      simp [uneclipsed, ← hlabels]
  | some es =>
      rw [hc, Option.getD_some] at hlist
      have hexists : ∀ e : CSWICertStoreEntry,
          es.labelExists e.label = decide (e.label ∈ labels (writable f looks)) := by
        intro e
        rw [Bool.eq_iff_iff, labelExists_iff, hlist, hlabels, decide_eq_true_eq]
      have hagg : (updated f looks m).iPatchableConst = true := h.aggregating
      have hZ : (updated f looks m).iZEntryList = m.iZEntryList := rfl
      simp only [hagg, if_true]
      unfold mergeZEntryListL
      refine then_get ?_
      rw [removeFromZ_iff]
      simp only [hexists, hZ, decide_eq_false_iff_not]
      by_cases hlast : ∀ e ∈ m.iZEntryList.dropLast, e.label ∉ labels (writable f looks)
      · rw [if_pos hlast]
        refine ⟨?_, hlast⟩
        simp [uneclipsed, updated]
      · rw [if_neg hlast]
        exact hlast

theorem constructL_ends (hrom : rom.Readable f) (first : Looks) :
    Ends (fun _ t => (∃ m, Loaded f rom.stores m ∧ t = updated f first (uneclipsed f first m)) ∧
        (∀ c ∈ (composite f rom).dropLast, c.label ∉ labels (writable f first)) ∧
        Fits f 0 rom.stores ∧
        NumbersOpened f (rom.stores.flatMap (certificates f)).length first)
      (fun _ _ => ¬ ((∀ c ∈ (composite f rom).dropLast, c.label ∉ labels (writable f first)) ∧
        Fits f 0 rom.stores ∧
        NumbersOpened f (rom.stores.flatMap (certificates f)).length first))
      (constructL f rom first { iPatchableConst := true }) := by
  unfold constructL leaveIfError
  have hattached : ¬ rom.attached < 0 := by
    have := hrom.attached
    omega
  have hempty : Loaded f [] { iPatchableConst := true } := ⟨rfl, rfl, rfl, rfl⟩
  rw [if_neg hattached, bind_ok (pure_apply () _)]
  refine Ends.bind ((setupZL_ends f rom hrom hempty).mono (fun _ _ h => h) ?_) ?_
  · rintro e t ⟨-, hnot⟩ hall
    exact hnot hall.2.1
  · rintro - m ⟨hm, hfits⟩
    have hindex := hm.index
    refine Ends.bind ((trapped_setup_ends f first).mono (fun _ _ h => h) ?_) ?_
    · rintro e t ⟨-, hnot⟩ hall
      exact hnot (hindex ▸ hall.2.2)
    · rintro - t ⟨ht, hnumbers⟩
      rw [ht]
      refine (eclipseZL_ends f (kept_of_loaded f hm) first).mono ?_ ?_
      · rintro - t' ⟨ht', hlast⟩
        exact ⟨⟨m, hm, ht'⟩, hlast, hfits, hindex ▸ hnumbers⟩
      · intro e t' hnot hall
        exact hnot hall.1

/-- The store eclipses by label after construction and after every notification exactly when every
writable list has the labels of ROM that the first one has, that is at most the last of them. -/
theorem eclipses_by_label (hrom : rom.Readable f) (first : Looks) (later : List Looks) :
    AlwaysEclipses f rom first later ↔ EclipsesAlike f rom first later := by
  have hconstruct := constructL_ends f rom hrom first
  have hfits : Fits f 0 (rom.stores ++ (first :: later).filterMap Looks.opened) ↔ _ :=
    fits_append f 0 _ _
  rw [zero_add, fits_opened] at hfits
  rcases hrun : constructL f rom first { iPatchableConst := true } with ⟨r, t⟩
  rw [hrun] at hconstruct
  cases r with
  | error e =>
      constructor
      · rintro ⟨m, hm, -⟩
        rw [hrun] at hm
        cases hm
      · intro hall
        have hids := hfits.mp hall.fits
        exact absurd ⟨hall.last, hids.1, hids.2.1⟩ hconstruct
  | ok u =>
      obtain ⟨⟨m, hm, ht⟩, hlast, hrom', hnumbers⟩ := hconstruct
      have hkept := (kept_of_loaded f hm).filter fun l => l ∉ labels (writable f first)
      have hnow : Eclipses f rom first (updated f first (uneclipsed f first m)) :=
        (eclipses_updated f rom hkept filter_sublist first).mpr rfl
      have hafter := eclipsesAfter_iff f rom later (hkept.updated f first)
      have hindex : (updated f first (uneclipsed f first m)).iCertIndex =
          (rom.stores.flatMap (certificates f)).length + (writable f first).length := by
        rw [← hm.index]
        rfl
      constructor
      · rintro ⟨t', ht', -, hlater⟩
        rw [hrun] at ht'
        rw [← (Prod.mk.inj ht').2, ht] at hlater
        obtain ⟨hsame, hids⟩ := hafter.mp hlater
        exact ⟨hlast, hsame, hfits.mpr ⟨hrom', hnumbers, hindex ▸ hids⟩⟩
      · intro hall
        have hids := (hfits.mp hall.fits).2.2
        refine ⟨_, hrun, ?_⟩
        rw [ht]
        exact ⟨hnow, hafter.mpr ⟨hall.same, hindex ▸ hids⟩⟩

end Runs

/-! ### One certificate in ROM, and one with its label in a later writable store -/

section Example

open RReadStream

/-- What the platform reads, for labels of ASCII characters. -/
def asciiFormats : StreamFormats where
  readLabel := do
    let header ← readCardinality
    let octets ← readL (header / 2)
    return octets.map UInt8.toUInt16
  readCapabilities := readDes8L 32
  leaves := by
    have hlabel : Gives (fun _ => True) (do
        let header ← readCardinality
        let octets ← readL (header / 2)
        return octets.map UInt8.toUInt16 : RReadStream Text) :=
      gives_readCardinality.bind fun _ _ => (gives_readL _).bind fun _ _ => Gives.returns trivial
    exact ⟨hlabel.onlyLeaves, (gives_readDes8L 32).onlyLeaves⟩

/-- A certificate of one octet with the label A. -/
def storeWithA (certificate : UInt8) : CPermanentFileStore where
  root := 1
  stream id :=
    if id = 1 then some [2, 0, 0, 0]
    else if id = 2 then
      some [1, 0, 0, 0, 0, 1, 0, 0, 0, 4, 65, 0, 0, 0, 0, 0, 2, 2, 0, 0, 0, 0, 1, 3, 0, 0, 0, 2, 0]
    else if id = 3 then some [certificate]
    else none

def directoryOf (s : CPermanentFileStore) : Directory where
  getDir := .ok [[49]]
  openFile _ := KErrNone
  fromL _ := some s

def romWithA : CSWICertStoreImpl.Rom where
  attached := KErrNone
  composite := directoryOf (storeWithA 7)
  single := .error KErrNotFound

def nothingThere : Looks := ⟨[{ directoryOf (storeWithA 9) with getDir := .ok [] }], rfl⟩

def storeThere : Looks := ⟨[directoryOf (storeWithA 9)], rfl⟩

theorem romWithA_readable : romWithA.Readable asciiFormats := by
  refine ⟨by decide, ⟨_, rfl, fun _ _ => le_refl (0 : Int)⟩, ?_⟩
  intro s hs
  have hs' : s = storeWithA 7 := mem_singleton.mp hs
  rw [hs']
  exact ⟨_, rfl⟩

theorem eclipses_by_label_of_one : romWithA.Readable asciiFormats ∧
    (AlwaysEclipses asciiFormats romWithA nothingThere [storeThere] ↔
      EclipsesAlike asciiFormats romWithA nothingThere [storeThere]) :=
  ⟨romWithA_readable, eclipses_by_label asciiFormats romWithA romWithA_readable _ _⟩

/-- The store does not take the certificate in ROM away. -/
theorem notification_does_not_eclipse :
    ¬ AlwaysEclipses asciiFormats romWithA nothingThere [storeThere] := by
  rintro ⟨m, hm, -, t, ht, ⟨⟨cs, hperm, hshows⟩, -⟩, -⟩
  have hboth : t.visible.length = 2 := by
    have hm' : m =
        (constructL asciiFormats romWithA nothingThere { iPatchableConst := true }).2 := by
      rw [hm]
    have ht' : t = (runL asciiFormats storeThere m).2 := by rw [ht]
    rw [ht', hm']
    decide
  have hone : (expected asciiFormats romWithA storeThere).length = 1 := by decide
  have hlength := hshows.length_eq
  rw [hboth, hperm.length_eq, hone] at hlength
  cases hlength

end Example

end Swicertstore

end OsSecurity

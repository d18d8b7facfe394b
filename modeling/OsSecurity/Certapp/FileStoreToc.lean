/-
The table of contents of a store, as it is written and as it is read.
-/
import OsSecurity.Certapp.FileStoreKept

namespace OsSecurity

open List UInt32

namespace Certapp

open Anchors CPermanentFileStore RWriteStream RReadStream FileStreamBuf TPermanentStoreHeader

/-! ### What is read back -/

theorem TCheckedUid.internalizeL_back (aUidType : TUidType) :
    ReadsBack internalizeL (ofType aUidType).externalizeL (ofType aUidType) := by
  unfold externalizeL TUidType.octets
  rw [List.append_assoc, List.append_assoc]
  refine (readUint32L_back aUidType.uid1).bind ((readUint32L_back aUidType.uid2).bind
    ((readUint32L_back aUidType.uid3).bind ((readUint32L_back (check aUidType)).map ?_)))
  rw [if_pos rfl]
  rfl

theorem internalizeL_back (h : TPermanentStoreHeader) :
    ReadsBack internalizeL h.externalizeL h := by
  unfold externalizeL octets
  rw [List.append_assoc, List.append_assoc]
  refine (readUint32L_back h.iBackup).bind ((readUint32L_back h.iHandle).bind
    ((readUint32L_back h.iRef).bind ((readUint16L_back h.iCrc.toUInt32).map ?_)))
  rw [UInt16.toUInt16_toUInt32]

theorem TocHeader.internalizeL_back (h : TocHeader) :
    ReadsBack TocHeader.internalizeL h.externalizeL h := by
  unfold TocHeader.externalizeL
  rw [List.append_assoc]
  exact (readUint32L_back h.iPrimary).bind ((readUint32L_back h.iAvail).bind
    ((readUint32L_back h.iCount).map rfl))

/-- An entry with no flags. -/
def entryOf (ref : UInt32) : STocEntry where
  handle := 0
  ref := ref

theorem STocEntry.internalizeL_back (ref : UInt32) :
    ReadsBack STocEntry.internalizeL (entryOf ref).externalizeL (entryOf ref) :=
  (readUint8L_back ((0 : UInt32) >>> 24).toUInt8).bind ((readUint32L_back ref).map rfl)

/-! ### Numbers of 32 bits -/

theorem tint_eq {x : UInt32} (h : 0 ≤ tint x) : tint x = x.toNat := by
  have hlt := x.toNat_lt
  unfold tint TInt.wrap at h ⊢
  rw [Int.bmod_def] at h ⊢
  grind

theorem tint_of_lt {x : UInt32} (h : x.toNat < 2 ^ 31) : tint x = x.toNat :=
  TInt.wrap_of_range (by unfold KMinTInt; omega) (by unfold KMaxTInt; omega)

theorem entryOf_isThere (ref : UInt32) :
    (entryOf ref).isThere = if tint ref < 0 then fatalError else .ok true := by
  have hzero : tint 0 = 0 := by decide
  unfold STocEntry.isThere entryOf
  simp only [hzero]
  by_cases href : tint ref < 0
  · rw [if_pos href]
    simp [href]
  · rw [if_neg href, if_neg (by simp; omega), if_neg (by simp), if_neg (by simp; omega)]

/-- A reference that is backed up leaves the header clean and valid. -/
theorem ofToc_isValid (ref : UInt32) :
    ((ofToc ref).setBackupToc ref).isDirty = false ∧
      ((ofToc ref).setBackupToc ref).isValid = true := by
  have hclean : ((ofToc ref).setBackupToc ref).isDirty = false := by
    have heven : ((ref <<< 1) &&& 1 : UInt32).toNat = 0 := by
      rw [UInt32.toNat_and, UInt32.toNat_shiftLeft]
      simp [Nat.shiftLeft_eq, Nat.and_one_is_mod]
    unfold isDirty
    rw [decide_eq_false_iff_not]
    intro hdirty
    change (ref <<< 1) &&& 1 = 1 at hdirty
    rw [hdirty] at heven
    exact absurd heven (by decide)
  refine ⟨hclean, ?_⟩
  unfold isValid
  rw [hclean, Bool.not_false, Bool.true_and, decide_eq_true_eq]
  rfl

/-- The reference is the one to the table of contents, whether or not it is backed up. -/
theorem toc_ofToc (ref : UInt32) :
    ((ofToc ref).setBackupToc 0).toc =
      if tint ref < 0 then fatalError else .ok ref := by
  have hvalid := (ofToc_isValid ref).2
  have hagain : ((ofToc ref).setBackupToc 0).setBackupToc ref =
      (ofToc ref).setBackupToc ref := rfl
  have hclean : ((ofToc ref).setBackupToc 0).isDirty = false := by
    show decide ((0 : UInt32) <<< 1 &&& 1 = 1) = false
    decide
  have hbackup : ((ofToc ref).setBackupToc 0).backupToc = 0 := by
    show ((0 : UInt32) <<< 1) >>> 1 = 0
    decide
  have hhandle : ((ofToc ref).setBackupToc 0).iHandle = 0 := rfl
  have hiRef : ((ofToc ref).setBackupToc 0).iRef = ref := rfl
  unfold toc
  simp only [hclean, hbackup, hhandle, hiRef]
  by_cases href : ref = 0
  · subst href
    simp [hvalid]
  · have hother : ¬ 0 = ref := fun h => href h.symm
    simp [hother, hagain, hvalid]

/-! ### The table of contents -/

/-- Streams with the identifiers from `k + 1` on. -/
def numbered : Nat → List Bytes → List (UInt32 × Bytes)
  | _, [] => []
  | k, d :: ds => (ofNat (k + 1), d) :: numbered (k + 1) ds

section Opening

variable {file : Bytes} {o o' : Opening} {m : Nat} {id ref : UInt32}

theorem readStreamData_of_framed (ho : o.iFileIn = atMark file m)
    (hseek : 0 ≤ tint (frame2File ref - 2)) {d : Bytes}
    (hframed : Framed file true (frame2File ref - 2).toNat d) (hnew : o.iStreams.lookup id = none) :
    ∃ mark, readStreamData id ref o =
      .ok { o with iFileIn := atMark file mark, iStreams := o.iStreams ++ [(id, d)] } := by
  obtain ⟨mark, hmark⟩ : ∃ mark, readFrames file.length true
      (atMark file (frame2File ref - 2).toNat) [] = .ok ([] ++ d, atMark file mark) :=
    readFrames_of_framed hframed (by omega)
  refine ⟨mark, ?_⟩
  unfold readStreamData
  rw [ho, seekL_at hseek, ok_bind, tint_eq hseek, Int.toNat_natCast, atMark_iFile, hmark, ok_bind]
  unfold insertStream
  rw [hnew]
  rfl

theorem framed_of_readStreamData (ho : o.iFileIn = atMark file m)
    (h : readStreamData id ref o = .ok o') :
    0 ≤ tint (frame2File ref - 2) ∧ ∃ d mark, Framed file true (frame2File ref - 2).toNat d ∧
      o' = { o with iFileIn := atMark file mark, iStreams := o.iStreams ++ [(id, d)] } := by
  unfold readStreamData at h
  rw [ho] at h
  by_cases hseek : 0 ≤ tint (frame2File ref - 2)
  · rw [seekL_at hseek, ok_bind, tint_eq hseek, Int.toNat_natCast, atMark_iFile, bind_eq_ok] at h
    obtain ⟨⟨d, iFileIn⟩, hread, h⟩ := h
    obtain ⟨held, mark, hframed, hd, hmark⟩ := framed_of_readFrames hread
    rw [nil_append] at hd
    subst hd hmark
    refine ⟨hseek, d, mark, hframed, ?_⟩
    rw [bind_eq_ok] at h
    obtain ⟨iStreams, hinsert, h⟩ := h
    unfold insertStream at hinsert
    by_cases hold : (o.iStreams.lookup id).isSome
    · rw [if_pos hold] at hinsert
      exact absurd hinsert (leave_ne_ok _ _)
    · rw [if_neg hold, Except.ok.injEq] at hinsert
      rw [← hinsert, leaving_pure, Except.ok.injEq] at h
      exact h.symm
  · rw [seekL_neg (by omega)] at h
    exact absurd h (leave_ne_ok _ _)

/-- One turn of the table of contents. -/
theorem readEntries_turn {t : UInt32} {n k : Nat} {z : Bytes} (ho : o.iFileIn = atMark file m)
    (hnew : ofNat (k + 1) ∉ o.idsRead) (hseek : 0 ≤ tint (t + 12 + 5 * ofNat k))
    (hplace : file.drop (t + 12 + 5 * ofNat k).toNat = (entryOf ref).externalizeL ++ z) :
    ∃ mark, readEntries t (n + 1) (ofNat k) o =
      (if tint ref < 0 then fatalError
        else readStreamData (ofNat (k + 1)) ref
          { o with iFileIn := atMark file mark
                   idsRead := o.idsRead ++ [ofNat (k + 1)] }) >>= fun o =>
        readEntries t n (ofNat (k + 1)) o := by
  have hnext : ofNat k + 1 = ofNat (k + 1) := (ofNat_add k 1).symm
  have hread := get_at (STocEntry.internalizeL_back ref) hplace
  refine ⟨(t + 12 + 5 * ofNat k).toNat + (entryOf ref).externalizeL.length, ?_⟩
  rw [readEntries]
  dsimp only
  rw [hnext, if_neg hnew, ho, seekL_at hseek, ok_bind, tint_eq hseek, Int.toNat_natCast,
    hread, ok_bind]
  dsimp only
  rw [entryOf_isThere]
  by_cases href : tint ref < 0
  · rw [if_pos href, if_pos href]
    rfl
  · rw [if_neg href, if_neg href]
    have hor : ofNat (k + 1) ||| (entryOf ref).handle = ofNat (k + 1) :=
      UInt32.or_zero
    rw [ok_bind, if_pos rfl, hor]
    rfl

end Opening

section Entries

variable {file z : Bytes} {t : UInt32} {refs : List UInt32} {ds : List Bytes} {k m : Nat}
  {o o' : Opening}

/-- The identifiers so far are the first ones. -/
structure UpTo (k : Nat) (o : Opening) : Prop where
  ids : ∀ id ∈ o.idsRead, id.toNat ≤ k
  keys : ∀ p ∈ o.iStreams, p.1.toNat ≤ k

theorem UpTo.not_mem (h : UpTo k o) (hk : k + 1 < 2 ^ 32) : ofNat (k + 1) ∉ o.idsRead := by
  intro hmem
  have hle := h.ids _ hmem
  rw [toNat_ofNat'] at hle
  omega

theorem UpTo.lookup (h : UpTo k o) (hk : k + 1 < 2 ^ 32) :
    o.iStreams.lookup (ofNat (k + 1)) = none := by
  rw [lookup_eq_none_iff]
  intro p hp
  have hle := h.keys p hp
  rw [bne_iff_ne]
  intro heq
  rw [← heq, toNat_ofNat'] at hle
  omega

theorem UpTo.next (h : UpTo k o) (iFileIn : FileStreamBuf) (d : Bytes) :
    UpTo (k + 1)
      { iFileIn := iFileIn
        iStreams := o.iStreams ++ [(ofNat (k + 1), d)]
        idsRead := o.idsRead ++ [ofNat (k + 1)] } where
  ids id hid := by
    rcases mem_append.mp hid with hid | hid
    · exact Nat.le_succ_of_le (h.ids id hid)
    · rw [mem_singleton.mp hid, toNat_ofNat']
      exact Nat.mod_le _ _
  keys p hp := by
    rcases mem_append.mp hp with hp | hp
    · exact Nat.le_succ_of_le (h.keys p hp)
    · rw [mem_singleton.mp hp, toNat_ofNat']
      exact Nat.mod_le _ _

/-- The place of an entry, as far as it has 32 bits. -/
theorem entryPlace_toNat (h : t.toNat + 12 + 5 * k < 2 ^ 32) :
    (t + 12 + 5 * ofNat k).toNat = t.toNat + 12 + 5 * k := by
  simp only [UInt32.toNat_add, UInt32.toNat_mul, toNat_ofNat', toNat_ofNat]
  omega

theorem readEntries_of_framed (ho : o.iFileIn = atMark file m) (hupTo : UpTo k o)
    (ht : t.toNat + 12 + 5 * (k + refs.length) < 2 ^ 31)
    (hplace : file.drop (t.toNat + 12 + 5 * k) =
      (refs.flatMap fun ref => (entryOf ref).externalizeL) ++ z)
    (hframed : Forall₂ (fun ref d => 0 ≤ tint ref ∧ 0 ≤ tint (frame2File ref - 2) ∧
      Framed file true (frame2File ref - 2).toNat d) refs ds) :
    ∃ o', readEntries t refs.length (ofNat k) o = .ok o' ∧
      o'.iStreams = o.iStreams ++ numbered k ds := by
  induction hframed generalizing k m o with
  | nil => exact ⟨o, rfl, (append_nil _).symm⟩
  | @cons ref d refs ds hfirst hrest ih =>
      obtain ⟨href, hseek, hframed⟩ := hfirst
      rw [length_cons] at ht ⊢
      rw [flatMap_cons, List.append_assoc] at hplace
      have hwhere := entryPlace_toNat (t := t) (k := k) (by omega)
      obtain ⟨mark, hturn⟩ := readEntries_turn (t := t) (n := refs.length) ho
        (hupTo.not_mem (by omega)) (by rw [tint_of_lt (by omega)]; omega)
        (by rw [hwhere]; exact hplace)
      obtain ⟨mark', hread⟩ := readStreamData_of_framed
        (o := { o with iFileIn := atMark file mark
                       idsRead := o.idsRead ++ [ofNat (k + 1)] })
        rfl hseek hframed (hupTo.lookup (by omega))
      rw [hturn, if_neg (by omega), hread, ok_bind]
      have hnext := drop_behind hplace
      have hfive : (entryOf ref).externalizeL.length = 5 := rfl
      rw [hfive] at hnext
      obtain ⟨o', hrun, hstreams⟩ := ih (k := k + 1) rfl (hupTo.next _ d) (by omega)
        (by rw [← hnext, Nat.mul_add, Nat.mul_one, ← Nat.add_assoc])
      refine ⟨o', hrun, ?_⟩
      rw [hstreams, numbered, List.append_assoc, singleton_append]

theorem framed_of_readEntries (ho : o.iFileIn = atMark file m) (hupTo : UpTo k o)
    (ht : t.toNat + 12 + 5 * (k + refs.length) < 2 ^ 32)
    (hplace : file.drop (t.toNat + 12 + 5 * k) =
      (refs.flatMap fun ref => (entryOf ref).externalizeL) ++ z)
    (h : readEntries t refs.length (ofNat k) o = .ok o') :
    ∃ ds, Forall₂ (fun ref d => Framed file true (frame2File ref - 2).toNat d) refs ds ∧
      o'.iStreams = o.iStreams ++ numbered k ds := by
  induction refs generalizing k m o with
  | nil =>
      have hsame := Except.ok.inj h
      exact ⟨[], .nil, by rw [← hsame]; exact (append_nil _).symm⟩
  | cons ref refs ih =>
      rw [length_cons] at ht h
      rw [flatMap_cons, List.append_assoc] at hplace
      have hwhere := entryPlace_toNat (t := t) (k := k) (by omega)
      by_cases hseek : 0 ≤ tint (t + 12 + 5 * ofNat k)
      · obtain ⟨mark, hturn⟩ := readEntries_turn (n := refs.length) ho
          (hupTo.not_mem (by omega)) hseek (by rw [hwhere]; exact hplace)
        rw [hturn, bind_eq_ok] at h
        obtain ⟨o1, hread, h⟩ := h
        by_cases href : tint ref < 0
        · rw [if_pos href] at hread
          exact absurd hread (leave_ne_ok _ _)
        · rw [if_neg href] at hread
          obtain ⟨-, d, mark', hframed, rfl⟩ := framed_of_readStreamData rfl hread
          have hnext := drop_behind hplace
          have hfive : (entryOf ref).externalizeL.length = 5 := rfl
          rw [hfive] at hnext
          obtain ⟨ds, hds, hstreams⟩ := ih (k := k + 1) rfl (hupTo.next _ d) (by omega)
            (by rw [← hnext, Nat.mul_add, Nat.mul_one, ← Nat.add_assoc]) h
          refine ⟨d :: ds, .cons hframed hds, ?_⟩
          rw [hstreams, numbered, List.append_assoc, singleton_append]
      · rw [readEntries] at h
        dsimp only at h
        have hnext : ofNat k + 1 = ofNat (k + 1) := (ofNat_add k 1).symm
        rw [hnext] at h
        rw [if_neg (hupTo.not_mem (by omega)), ho] at h
        rw [seekL_neg (by omega)] at h
        exact absurd h (leave_ne_ok _ _)

end Entries

end Certapp

end OsSecurity

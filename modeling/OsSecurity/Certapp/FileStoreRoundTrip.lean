/-
When a store that was committed is opened again as it was.

The root has to be an identifier, every stream to be kept, and the table of contents to be off
the anchors.  From 2^32 octets on the places in a file come round, and nothing is said of what
is then read.
-/
import OsSecurity.Certapp.FileStoreToc

namespace OsSecurity

open List UInt32

namespace Certapp

open Anchors CPermanentFileStore RWriteStream RReadStream FileStreamBuf TPermanentStoreHeader

/-- A new store with a root and streams. -/
def created (root : UInt32) (streams : List Bytes) : Leaving CPermanentFileStore :=
  streams.foldlM (fun s iData => s.createStoreWriteStream iData) (replaceLC root)

/-- The file is opened as a store with the same root and the same octets in every stream. -/
def Reopens (file : Bytes) (s : CPermanentFileStore) : Prop :=
  ∃ s', readInData file = .ok s' ∧ s'.iRoot = s.iRoot ∧
    ∀ id, s'.iStreams.lookup id = s.iStreams.lookup id

/-- What is written of the table of contents before its entries. -/
def tocStart (root : UInt32) (streams : List Bytes) : Bytes :=
  frameOctets (0x8000 + (12 + 5 * streams.length)) ++ writeUint32L root

/-- The root is an identifier of a stream, and the streams are kept. -/
def Kept (root : UInt32) (streams : List Bytes) : Prop :=
  root.toNat < 2 ^ 28 ∧ KeptStreams (tocStart root streams) 0 streams

/-! ### Streams by their numbers -/

section Numbered

theorem numbered_length (k : Nat) (ds : List Bytes) : (numbered k ds).length = ds.length := by
  induction ds generalizing k with
  | nil => rfl
  | cons d ds ih => rw [numbered, length_cons, ih, length_cons]

theorem numbered_snd (k : Nat) (ds : List Bytes) : (numbered k ds).map Prod.snd = ds := by
  induction ds generalizing k with
  | nil => rfl
  | cons d ds ih => rw [numbered, map_cons, ih]

/-- No number before the first, or behind the last, is one of theirs. -/
theorem lookup_numbered {k j : Nat} {ds : List Bytes} (hj : j ≤ k ∨ k + ds.length < j)
    (hlt : j < 2 ^ 32) (hk : k + ds.length < 2 ^ 32) : (numbered k ds).lookup (ofNat j) = none := by
  induction ds generalizing k with
  | nil => rfl
  | cons d ds ih =>
      rw [length_cons] at hk hj
      have hne : (ofNat j == ofNat (k + 1)) = false := by
        rw [beq_eq_false_iff_ne, ne_eq, ← UInt32.toNat_inj, toNat_ofNat', toNat_ofNat']
        omega
      rw [numbered, lookup_cons, hne]
      exact ih (by omega) (by omega)

/-- Streams that are found alike are the same. -/
theorem numbered_inj {k : Nat} {ds cs : List Bytes} (hlength : ds.length = cs.length)
    (hk : k + cs.length < 2 ^ 32)
    (h : ∀ id, (numbered k ds).lookup id = (numbered k cs).lookup id) : ds = cs := by
  induction ds generalizing k cs with
  | nil => exact (length_eq_zero_iff.mp hlength.symm).symm
  | cons d ds ih =>
      cases cs with
      | nil => exact absurd hlength (by simp)
      | cons c cs =>
        rw [length_cons, length_cons] at hlength
        rw [length_cons] at hk
        have hfirst := h (ofNat (k + 1))
        rw [numbered, numbered, lookup_cons, lookup_cons, beq_self_eq_true] at hfirst
        have hd : d = c := Option.some.inj hfirst
        have hds : ds = cs := by
          refine ih (k := k + 1) (by omega) (by omega) fun id => ?_
          by_cases hid : id = ofNat (k + 1)
          · rw [hid, lookup_numbered (.inl (Nat.le_refl _)) (by omega) (by omega),
              lookup_numbered (.inl (Nat.le_refl _)) (by omega) (by omega)]
          · have hid' := h id
            rwa [numbered, numbered, lookup_cons, lookup_cons,
              beq_eq_false_iff_ne.mpr hid] at hid'
        rw [hd, hds]

theorem numbered_append (k : Nat) (ds : List Bytes) (d : Bytes) :
    numbered k (ds ++ [d]) = numbered k ds ++ [(ofNat (k + ds.length + 1), d)] := by
  induction ds generalizing k with
  | nil => rfl
  | cons e ds ih =>
      have hnext : k + 1 + ds.length + 1 = k + (ds.length + 1) + 1 := by omega
      rw [cons_append, numbered, ih, numbered, length_cons, hnext, cons_append]

end Numbered

/-! ### The file -/

/-- The store with these streams. -/
def storeOf (root : UInt32) (streams : List Bytes) : CPermanentFileStore where
  iWritable := true
  iRoot := root
  iLastStreamIdCreated := ofNat streams.length
  iStreams := numbered 0 streams

theorem created_eq (root : UInt32) {streams : List Bytes} (h : streams.length < 2 ^ 32) :
    created root streams = .ok (storeOf root streams) := by
  induction streams using reverseRecOn with
  | nil => rfl
  | append_singleton ds d ih =>
      rw [length_append, length_singleton] at h
      have hbefore := ih (by omega)
      have hnext : ofNat ds.length + 1 = ofNat (ds.length + 1) :=
        (ofNat_add _ 1).symm
      have hnew : (numbered 0 ds).lookup (ofNat (ds.length + 1)) = none :=
        lookup_numbered (.inr (by omega)) h (by omega)
      have hlast : (storeOf root ds).createStoreWriteStream d =
          .ok (storeOf root (ds ++ [d])) := by
        unfold createStoreWriteStream insertStream storeOf
        dsimp only
        rw [hnext, hnew, if_neg (by simp), ok_bind, numbered_append, length_append,
          length_singleton, Nat.zero_add]
        rfl
      unfold created at hbefore ⊢
      rw [foldlM_append, hbefore, ok_bind, foldlM_cons, hlast]
      rfl

/-- The reference to the table of contents, behind `p` octets of frames. -/
def tocRef (p : Nat) : UInt32 := file2Frame (ofNat (p + 32)) + 12

def tocHeader (root : UInt32) (streams : List Bytes) : TocHeader where
  iPrimary := root
  iAvail := 0
  iCount := ofNat streams.length

/-- The references to the streams. -/
def refs (streams : List Bytes) : List UInt32 :=
  (places 0 streams).map fun q => file2Frame (ofNat (q + 32))

/-- What is behind the frames of the streams. -/
def tocPart (root : UInt32) (streams : List Bytes) : Bytes :=
  frameOctets (0x8000 + (12 + 5 * streams.length)) ++
    ((tocHeader root streams).externalizeL ++
      (refs streams).flatMap fun ref => (entryOf ref).externalizeL)

def storeFile (root : UInt32) (streams : List Bytes) : Bytes :=
  (TCheckedUid.ofType KPermanentFileStoreLayoutUid).externalizeL ++
    (((TPermanentStoreHeader.ofToc (tocRef (writeStreams 30 streams).length)).setBackupToc
        0).externalizeL ++
      (writeStreams 30 streams ++ tocPart root streams))

theorem commitL_storeOf (root : UInt32) {streams : List Bytes}
    (htoc : 12 + 5 * streams.length ≤ 0x3fff) :
    (storeOf root streams).commitL = .ok (storeFile root streams) := by
  have hlength : (storeOf root streams).iStreams.length = streams.length := numbered_length 0 _
  have hdata : (storeOf root streams).iStreams.map Prod.snd = streams := numbered_snd 0 _
  have hstart : ((TCheckedUid.ofType KPermanentFileStoreLayoutUid).externalizeL ++
      (ofToc 0).externalizeL).length = 30 := rfl
  have hcount : (ofNat (12 + streams.length * 5)).toNat = 12 + 5 * streams.length := by
    rw [toNat_ofNat']
    omega
  have hfits : ¬ (0x3fff : Int) < tint (ofNat (12 + streams.length * 5)) := by
    rw [tint_of_lt (by omega), hcount]
    omega
  have hframe : ((ofNat (12 + streams.length * 5)).toUInt16 |||
      EFrameDescriptive16).toNat = 0x8000 + (12 + 5 * streams.length) := by
    have hlow : (ofNat (12 + streams.length * 5)).toUInt16.toNat =
        12 + 5 * streams.length := by
      rw [toNat_toUInt16, hcount]
      omega
    rw [UInt16.or_comm, type_or_toNat (k := 2) rfl (by omega), hlow]
    rfl
  have hoffsets : streamOffsets 30 streams =
      (places 0 streams).map fun q => ofNat (q + 32) := streamOffsets_eq 0 streams
  have hplace : 30 + (writeStreams 30 streams).length + 2 =
      (writeStreams 30 streams).length + 32 := by omega
  unfold commitL
  simp only [hlength, hdata, hstart, if_neg hfits, writeUint16L_frame, hframe, frameOctets_length,
    hplace, hoffsets, flatMap_map]
  rw [if_neg (by simp [storeOf])]
  unfold storeFile tocPart refs
  simp only [List.append_assoc, flatMap_map]
  rfl

section File

variable {root : UInt32} {streams : List Bytes}

/-- How many octets the frames of the streams take. -/
abbrev framesLength (streams : List Bytes) : Nat := (writeStreams 30 streams).length

theorem storeFile_frames (root : UInt32) (streams : List Bytes) :
    (storeFile root streams).drop 30 = writeStreams (0 + 30) streams ++ tocPart root streams := by
  unfold storeFile
  rw [← List.append_assoc]
  exact drop_left' rfl

theorem storeFile_toc (root : UInt32) (streams : List Bytes) :
    (storeFile root streams).drop (framesLength streams + 30) = tocPart root streams := by
  have h := drop_behind (storeFile_frames root streams)
  rwa [Nat.add_comm] at h

theorem refs_length (streams : List Bytes) : (refs streams).length = streams.length := by
  unfold refs
  rw [length_map, places_length]

theorem entries_length (refs : List UInt32) :
    (refs.flatMap fun ref => (entryOf ref).externalizeL).length = 5 * refs.length := by
  induction refs with
  | nil => rfl
  | cons ref refs ih =>
      have hfive : (entryOf ref).externalizeL.length = 5 := rfl
      rw [flatMap_cons, length_append, hfive, ih, length_cons]
      omega

theorem storeFile_length (root : UInt32) (streams : List Bytes) :
    (storeFile root streams).length = framesLength streams + 44 + 5 * streams.length := by
  have hstart : ((TCheckedUid.ofType KPermanentFileStoreLayoutUid).externalizeL).length = 16 := rfl
  have hheader : ∀ h : TPermanentStoreHeader, h.externalizeL.length = 14 := fun _ => rfl
  have htocHeader : (tocHeader root streams).externalizeL.length = 12 := rfl
  unfold storeFile tocPart framesLength
  rw [length_append, length_append, length_append, length_append,
    length_append, hstart, hheader, frameOctets_length, htocHeader, entries_length, refs_length]
  omega

/-- What is read of the file up to the table of contents. -/
theorem readInData_storeFile (root : UInt32) (streams : List Bytes) :
    readInData (storeFile root streams) =
      if tint (tocRef (framesLength streams)) < 0 then fatalError
      else readToc (tocRef (framesLength streams)) (atMark (storeFile root streams) 30) := by
  have hid : (atMark (storeFile root streams) 0).get TCheckedUid.internalizeL =
      .ok (TCheckedUid.ofType KPermanentFileStoreLayoutUid, atMark _ 16) :=
    get_at (TCheckedUid.internalizeL_back _) rfl
  have hheader : (atMark (storeFile root streams) 16).get internalizeL =
      .ok ((ofToc (tocRef (framesLength streams))).setBackupToc 0,
        atMark _ 30) :=
    get_at (internalizeL_back _) (drop_left' rfl)
  have hopened : opened (storeFile root streams) = atMark (storeFile root streams) 0 := rfl
  unfold readInData
  rw [hopened, hid, ok_bind]
  dsimp only
  rw [if_neg (fun h => h rfl), hheader, ok_bind]
  dsimp only
  rw [toc_ofToc]
  by_cases hneg : tint (tocRef (framesLength streams)) < 0
  · rw [if_pos hneg, if_pos hneg]
    rfl
  · rw [if_neg hneg, if_neg hneg, ok_bind]

theorem tocRef_sub (p : Nat) : tocRef p - 12 = file2Frame (ofNat (p + 32)) := by
  unfold tocRef
  exact UInt32.add_sub_cancel _ _

/-- A reference to an octet is to it, or to two behind it. -/
theorem frame2File_file2Frame {q : Nat} (h : q + 34 < 2 ^ 32) :
    (frame2File (file2Frame (ofNat (q + 32)))).toNat = framesAt q + 2 := by
  have hframe := file2Frame_toNat (q := q) (by omega)
  unfold framesAt
  by_cases hoff : q % 0x4002 < 0x4000
  · have hpad : pad 0x4000 2 (frameOf q) = q := pad_strip hoff
    rw [frame2File_toNat (by rw [hframe, hpad]; omega), hframe, hpad, if_pos hoff]
  · have hpad : pad 0x4000 2 (frameOf q) = q + 2 :=
      pad_strip_of_le (by omega) (by omega) (Nat.le_of_not_lt hoff)
    rw [frame2File_toNat (by rw [hframe, hpad]; omega), hframe, hpad, if_neg hoff]

theorem framesAt_sub {q : Nat} (h : q + 34 < 2 ^ 32) :
    (frame2File (file2Frame (ofNat (q + 32))) - 2).toNat = framesAt q := by
  have hplace := frame2File_file2Frame h
  rw [UInt32.toNat_sub_of_le _ _ (by
    rw [le_iff_toNat_le, hplace]
    show 2 ≤ _
    omega), hplace]
  rfl

/-- What a root is read as, and when it is taken. -/
theorem root_lt_iff :
    root.toNat < 2 ^ 28 ↔ root &&& ~~~0x8fffffff = 0 ∧ root &&& ~~~0x80000000 = root := by
  have hlow : (root &&& ~~~0x80000000).toNat = root.toNat % 2 ^ 31 := by
    rw [UInt32.toNat_and]
    exact Nat.and_two_pow_sub_one_eq_mod _ 31
  have hhigh : root.toNat < 2 ^ 31 →
      (root &&& ~~~0x8fffffff).toNat = root.toNat - root.toNat % 2 ^ 28 := by
    intro hlt
    rw [UInt32.toNat_and]
    refine Packing.and_high ?_ (by decide)
    show root.toNat &&& (2 ^ 31 - 1) = _
    rw [Nat.and_two_pow_sub_one_eq_mod, Nat.mod_eq_of_lt hlt]
  rw [← UInt32.toNat_inj, ← UInt32.toNat_inj (a := root &&& ~~~0x80000000), hlow]
  constructor
  · intro hlt
    rw [hhigh (by omega)]
    exact ⟨by rw [Nat.mod_eq_of_lt hlt, Nat.sub_self]; rfl, by omega⟩
  · intro ⟨hzero, hsame⟩
    rw [hhigh (by omega)] at hzero
    change root.toNat - root.toNat % 2 ^ 28 = 0 at hzero
    omega

/-- A root that is taken is not the mark of a delta. -/
theorem root_lt_delta (h : root.toNat < 2 ^ 28) : root &&& 0x80000000 = 0 := by
  have hwhole : root.toNat &&& (2 ^ 32 - 1) = root.toNat := by
    rw [Nat.and_two_pow_sub_one_eq_mod, Nat.mod_eq_of_lt (by omega)]
  have hhigh : root.toNat &&& 2 ^ 31 = root.toNat - root.toNat % 2 ^ 31 :=
    Packing.and_high hwhole (by decide)
  apply UInt32.toNat_inj.mp
  rw [UInt32.toNat_and]
  show root.toNat &&& 2 ^ 31 = 0
  omega

end File

section Open

variable {root : UInt32} {streams : List Bytes}

/-- What is read before any stream. -/
def atEntries (root : UInt32) (streams : List Bytes) : Opening where
  iFileIn := atMark (storeFile root streams) (framesLength streams + 44)
  iStreams := []
  idsRead := []

theorem storeFile_tocHeader (root : UInt32) (streams : List Bytes) :
    (storeFile root streams).drop (framesLength streams + 32) =
      (tocHeader root streams).externalizeL ++
        (refs streams).flatMap fun ref => (entryOf ref).externalizeL := by
  have h := storeFile_toc root streams
  unfold tocPart at h
  exact drop_behind h

/-- There is no delta to a root that is an identifier. -/
theorem readAnyDelta_root (h : root.toNat < 2 ^ 28) (toc : UInt32) (o : Opening) :
    readAnyDelta toc (tocHeader root streams) o = .ok (frame2File (toc - 12), o) := by
  unfold readAnyDelta
  exact if_neg (not_not.mpr (root_lt_delta h))

/-- A table of contents off the anchors is read where it is. -/
theorem readToc_off (hoff : framesLength streams % 0x4002 < 0x4000)
    (hsize : framesLength streams + 34 < 2 ^ 32) (htoc : 12 + 5 * streams.length ≤ 0x3fff)
    (hseek : 0 ≤ tint (frame2File (tocRef (framesLength streams) - 12))) :
    readToc (tocRef (framesLength streams)) (atMark (storeFile root streams) 30) =
      if root &&& ~~~0x8fffffff ≠ 0 then fatalError
      else do
        let (tocFileOffset, o) ← readAnyDelta (tocRef (framesLength streams))
          (tocHeader root streams) (atEntries root streams)
        let o ← readEntries tocFileOffset streams.length 0 o
        return {
          iWritable := false
          iRoot := root &&& ~~~0x80000000
          iLastStreamIdCreated := 0
          iStreams := o.iStreams } := by
  have hplace : (frame2File (tocRef (framesLength streams) - 12)).toNat =
      framesLength streams + 32 := by
    rw [tocRef_sub, frame2File_file2Frame hsize]
    unfold framesAt
    rw [if_pos hoff]
  have hread : (atMark (storeFile root streams) (framesLength streams + 32)).get
      TocHeader.internalizeL = .ok (tocHeader root streams, atMark _ (framesLength streams + 44)) :=
    get_at (TocHeader.internalizeL_back _) (storeFile_tocHeader root streams)
  have hcount : (ofNat streams.length).toNat = streams.length := by
    rw [toNat_ofNat']
    omega
  have hfits : ofNat streams.length &&& ~~~0x00ffffff = 0 := by
    have hwhole : streams.length &&& (2 ^ 32 - 1) = streams.length := by
      rw [Nat.and_two_pow_sub_one_eq_mod, Nat.mod_eq_of_lt (by omega)]
    have hhigh : streams.length &&& 0xff000000 = streams.length - streams.length % 2 ^ 24 :=
      Packing.and_high hwhole (by decide)
    apply UInt32.toNat_inj.mp
    rw [UInt32.toNat_and, hcount]
    show streams.length &&& 0xff000000 = 0
    omega
  have hzero : tint 0 = 0 := by decide
  unfold readToc
  dsimp only
  rw [seekL_at hseek, ok_bind, tint_eq hseek, Int.toNat_natCast, hplace, hread, ok_bind]
  dsimp only
  have hprimary : (tocHeader root streams).iPrimary = root := rfl
  have havail : (tocHeader root streams).iAvail = 0 := rfl
  have hiCount : (tocHeader root streams).iCount = ofNat streams.length := rfl
  rw [hprimary, havail, hiCount, hcount, hzero, hfits]
  by_cases hroot : root &&& ~~~0x8fffffff = 0
  · have hchecks : ¬ (root &&& ~~~0x8fffffff ≠ 0 ∨ (0 : Int) < 0 ∨
        (0 : UInt32) &&& 0x30000000 ≠ 0 ∨ (0 : UInt32) ≠ 0) := by
      simp [hroot]
    rw [if_neg hchecks, if_neg (not_not.mpr hroot)]
    rfl
  · rw [if_pos (.inl hroot), if_pos hroot]

theorem shiftRight_shiftRight (x : UInt32) :
    x >>> 16 >>> 8 = x >>> 24 ∧ x >>> 16 >>> 16 = 0 ∧ x >>> 16 >>> 24 = 0 := by
  have hlt := x.toNat_lt
  simp only [← UInt32.toNat_inj, UInt32.toNat_shiftRight, ← Nat.shiftRight_add]
  refine ⟨rfl, ?_, ?_⟩ <;> simp [Nat.shiftRight_eq_div_pow] <;> omega

theorem shiftLeft_octets (x : UInt32) :
    (x <<< 16).toUInt8 = 0 ∧ (x <<< 16 >>> 8).toUInt8 = 0 ∧
      (x <<< 16 >>> 16).toUInt8 = x.toUInt8 ∧ (x <<< 16 >>> 24).toUInt8 = (x >>> 8).toUInt8 := by
  simp only [← UInt8.toNat_inj, toNat_toUInt8, UInt32.toNat_shiftRight, UInt32.toNat_shiftLeft]
  simp [Nat.shiftRight_eq_div_pow, Nat.shiftLeft_eq]
  omega

/-- A table of contents at an anchor is read from two octets on, where its count is in the place
of a number that has to be 0. -/
theorem readToc_on (hon : 0x4000 ≤ framesLength streams % 0x4002)
    (hsize : framesLength streams + 34 < 2 ^ 32) (htoc : 12 + 5 * streams.length ≤ 0x3fff)
    (r : CPermanentFileStore) :
    readToc (tocRef (framesLength streams)) (atMark (storeFile root streams) 30) ≠ .ok r := by
  intro h
  have hsome : 0 < streams.length := by
    rcases streams with _ | ⟨c, cs⟩
    · exact absurd hon (by decide)
    · exact Nat.succ_pos _
  have hplace : (frame2File (tocRef (framesLength streams) - 12)).toNat =
      framesLength streams + 34 := by
    rw [tocRef_sub, frame2File_file2Frame hsize]
    unfold framesAt
    rw [if_neg (Nat.not_lt.mpr hon)]
  -- the octets there, in fours
  have hprimary : (storeFile root streams).drop (framesLength streams + 34) =
      writeUint32L (root >>> 16) ++ (writeUint32L (ofNat streams.length <<< 16) ++
        ((ofNat streams.length >>> 16).toUInt8 ::
          (ofNat streams.length >>> 24).toUInt8 ::
            (refs streams).flatMap fun ref => (entryOf ref).externalizeL)) := by
    have h2 : (storeFile root streams).drop (framesLength streams + 34) =
        ((storeFile root streams).drop (framesLength streams + 32)).drop 2 := by
      rw [drop_drop]
    rw [h2, storeFile_tocHeader]
    unfold tocHeader TocHeader.externalizeL writeUint32L
    obtain ⟨hr1, hr2, hr3⟩ := shiftRight_shiftRight root
    obtain ⟨hn0, hn1, hn2, hn3⟩ := shiftLeft_octets (ofNat streams.length)
    rw [hr1, hr2, hr3, hn0, hn1, hn2, hn3]
    have h8 : (0 : UInt32) >>> 8 = 0 := by decide
    have h16 : (0 : UInt32) >>> 16 = 0 := by decide
    have h24 : (0 : UInt32) >>> 24 = 0 := by decide
    have hoctet : toUInt8 0 = 0 := by decide
    dsimp only
    rw [h8, h16, h24, hoctet]
    rfl
  unfold readToc at h
  dsimp only at h
  by_cases hseek : 0 ≤ tint (frame2File (tocRef (framesLength streams) - 12))
  · rw [seekL_at hseek, ok_bind, tint_eq hseek, Int.toNat_natCast, hplace] at h
    obtain ⟨⟨toc, buf⟩, hread, h⟩ := bind_eq_ok.mp h
    have havail : toc.iAvail = ofNat streams.length <<< 16 := by
      obtain ⟨behind, hget⟩ := get_ok hread
      rw [hprimary] at hget
      unfold TocHeader.internalizeL at hget
      obtain ⟨iPrimary, middle, h1, hget⟩ := Reader.bind_ok hget
      rw [readUint32L_back, Except.ok.injEq, Prod.mk.injEq] at h1
      rw [← h1.2] at hget
      obtain ⟨iAvail, middle, h2, hget⟩ := Reader.bind_ok hget
      rw [readUint32L_back, Except.ok.injEq, Prod.mk.injEq] at h2
      obtain ⟨iCount, middle, -, hget⟩ := Reader.bind_ok hget
      have htoc := congrArg (fun p => p.1.iAvail) (Except.ok.inj hget)
      exact (h2.1.trans htoc).symm
    have hpositive : 0 < tint toc.iAvail := by
      have hvalue : (ofNat streams.length <<< 16).toNat = 65536 * streams.length := by
        rw [UInt32.toNat_shiftLeft, toNat_ofNat']
        simp [Nat.shiftLeft_eq]
        omega
      rw [havail, tint_of_lt (by omega), hvalue]
      omega
    dsimp only at h
    rw [if_pos (.inr (.inl hpositive))] at h
    exact leave_ne_ok _ _ h
  · rw [seekL_neg (by omega)] at h
    exact leave_ne_ok _ _ h

/-- A relation along two lists, with what is known of the members of the first. -/
theorem forall₂_of_mem {α β : Type} {R S : α → β → Prop} {P : α → Prop} {xs : List α}
    {ys : List β} (h : Forall₂ R xs ys) (hP : ∀ x ∈ xs, P x)
    (himp : ∀ x y, P x → R x y → S x y) : Forall₂ S xs ys := by
  induction h with
  | nil => exact .nil
  | cons hfirst hrest ih =>
      exact .cons (himp _ _ (hP _ mem_cons_self) hfirst)
        (ih fun x hx => hP x (mem_cons_of_mem _ hx))

theorem tocStart_prefix (root : UInt32) (streams : List Bytes) :
    tocStart root streams <+: tocPart root streams := by
  refine (prefix_append_right_inj _).mpr ?_
  unfold tocHeader TocHeader.externalizeL
  rw [List.append_assoc, List.append_assoc]
  exact prefix_append _ _

/-- A root and streams that are kept are read. -/
theorem reopens_of_kept (htoc : 12 + 5 * streams.length ≤ 0x3fff) (h : Kept root streams) :
    Reopens (storeFile root streams) (storeOf root streams) := by
  obtain ⟨hroot, hstreams⟩ := h
  have htail := tocStart_prefix root streams
  obtain ⟨hframed, hoff, hlength⟩ := hstreams.framed htail (by omega)
    (storeFile_frames root streams)
  rw [Nat.zero_add] at hoff
  have hle : framesLength streams ≤ 0x8004 * streams.length := hlength
  have hframe := file2Frame_toNat (q := framesLength streams) (by omega)
  have hframeLe : frameOf (framesLength streams) ≤ framesLength streams := strip_le _
  have href : ¬ tint (tocRef (framesLength streams)) < 0 := by
    have hvalue : (tocRef (framesLength streams)).toNat = frameOf (framesLength streams) + 12 := by
      unfold tocRef
      rw [UInt32.toNat_add, hframe]
      show (_ + 12) % 2 ^ 32 = _
      omega
    rw [tint_of_lt (by omega)]
    omega
  have hplace : (frame2File (tocRef (framesLength streams) - 12)).toNat =
      framesLength streams + 32 := by
    rw [tocRef_sub, frame2File_file2Frame (by omega)]
    unfold framesAt
    rw [if_pos hoff]
  have hread : Forall₂ (fun ref d => 0 ≤ tint ref ∧ 0 ≤ tint (frame2File ref - 2) ∧
      Framed (storeFile root streams) true (frame2File ref - 2).toNat d)
        (refs streams) streams := by
    unfold refs
    rw [forall₂_map_left_iff]
    refine forall₂_of_mem hframed (fun _ => places_le) fun q c hq hc => ?_
    have hq' := file2Frame_toNat (q := q) (by omega)
    have hle : frameOf q ≤ q := strip_le _
    have hsub := framesAt_sub (q := q) (by omega)
    have hat : framesAt q ≤ q + 32 := by
      unfold framesAt
      by_cases hoff : q % 0x4002 < 0x4000
      · rw [if_pos hoff]
        omega
      · rw [if_neg hoff]
    exact ⟨by rw [tint_of_lt (by omega)]; omega, by rw [tint_of_lt (by omega)]; omega,
      by rw [hsub]; exact hc⟩
  obtain ⟨o, hrun, ho⟩ := readEntries_of_framed
    (t := frame2File (tocRef (framesLength streams) - 12)) (o := atEntries root streams) (k := 0)
    (z := []) rfl ⟨by simp [atEntries], by simp [atEntries]⟩ (by rw [hplace, refs_length]; omega)
    (by
      have hentries := drop_behind (storeFile_tocHeader root streams)
      rw [hplace, append_nil]
      exact hentries) hread
  rw [refs_length] at hrun
  obtain ⟨hhigh, hsame⟩ := root_lt_iff.mp hroot
  have hopen : readInData (storeFile root streams) = .ok {
      iWritable := false
      iRoot := root
      iLastStreamIdCreated := 0
      iStreams := o.iStreams } := by
    rw [readInData_storeFile, if_neg href, readToc_off hoff (by omega) htoc
      (by rw [tint_of_lt (by omega)]; omega), if_neg (not_not.mpr hhigh),
      readAnyDelta_root hroot, ok_bind]
    dsimp only
    have hzero : ofNat 0 = 0 := rfl
    rw [hzero] at hrun
    rw [hrun, ok_bind, hsame]
    rfl
  exact ⟨_, hopen, rfl, fun id => by rw [ho]; rfl⟩

/-- A root and streams that are read are kept, in a file whose places have 32 bits. -/
theorem kept_of_reopens (htoc : 12 + 5 * streams.length ≤ 0x3fff)
    (hsize : (storeFile root streams).length < 2 ^ 32)
    (h : Reopens (storeFile root streams) (storeOf root streams)) : Kept root streams := by
  obtain ⟨s, hread, hroot, hlookup⟩ := h
  rw [storeFile_length] at hsize
  rw [readInData_storeFile] at hread
  by_cases href : tint (tocRef (framesLength streams)) < 0
  · rw [if_pos href] at hread
    exact absurd hread (leave_ne_ok _ _)
  rw [if_neg href] at hread
  by_cases hoff : framesLength streams % 0x4002 < 0x4000
  swap
  · exact absurd hread (readToc_on (Nat.le_of_not_lt hoff) (by omega) htoc s)
  by_cases hseek : 0 ≤ tint (frame2File (tocRef (framesLength streams) - 12))
  swap
  · unfold readToc at hread
    rw [seekL_neg (by omega)] at hread
    exact absurd hread (leave_ne_ok _ _)
  rw [readToc_off hoff (by omega) htoc hseek] at hread
  by_cases hhigh : root &&& ~~~0x8fffffff = 0
  swap
  · rw [if_pos hhigh] at hread
    exact absurd hread (leave_ne_ok _ _)
  rw [if_neg (not_not.mpr hhigh), bind_eq_ok] at hread
  obtain ⟨⟨tocFileOffset, o⟩, hdelta, hread⟩ := hread
  obtain ⟨o', hrun, hs⟩ := bind_eq_ok.mp hread
  rw [leaving_pure, Except.ok.injEq] at hs
  have hlt : root.toNat < 2 ^ 28 := by
    rw [← hs] at hroot
    exact root_lt_iff.mpr ⟨hhigh, hroot⟩
  rw [readAnyDelta_root hlt, Except.ok.injEq, Prod.mk.injEq] at hdelta
  obtain ⟨rfl, rfl⟩ := hdelta
  have hplace : (frame2File (tocRef (framesLength streams) - 12)).toNat =
      framesLength streams + 32 := by
    rw [tocRef_sub, frame2File_file2Frame (by omega)]
    unfold framesAt
    rw [if_pos hoff]
  have hentries := drop_behind (storeFile_tocHeader root streams)
  have hrunAll : readEntries (frame2File (tocRef (framesLength streams) - 12))
      (refs streams).length 0 (atEntries root streams) = .ok o' := by
    rw [refs_length]
    exact hrun
  obtain ⟨ds, hframed, hstreams⟩ := framed_of_readEntries (k := 0) (z := []) rfl
    ⟨by simp [atEntries], by simp [atEntries]⟩ (by rw [hplace, refs_length]; omega)
    (by rw [hplace, append_nil]; exact hentries) hrunAll
  have hlength := hframed.length_eq
  rw [refs_length] at hlength
  have hsame : ds = streams := by
    refine numbered_inj (k := 0) hlength.symm (by omega) fun id => ?_
    have hid := hlookup id
    rw [← hs] at hid
    rw [hstreams] at hid
    exact hid
  subst hsame
  refine ⟨hlt, ?_⟩
  have htail : tocStart root ds <+: tocPart root ds := tocStart_prefix root ds
  have hframes := storeFile_frames root ds
  refine keptStreams_of_framed htail (show 4 ≤ 6 by omega)
    (by rw [storeFile_length]; exact hsize)
    ⟨_, _, rfl, by omega, by omega⟩ hframes (by rw [Nat.zero_add]; exact hoff) ?_
  unfold refs at hframed
  rw [forall₂_map_left_iff] at hframed
  refine forall₂_of_mem hframed (fun _ => places_le) fun q c hq hc => ?_
  have hle : q ≤ framesLength ds := by
    rw [Nat.zero_add] at hq
    exact hq
  rwa [framesAt_sub (by omega)] at hc

end Open

instance decidableKeptStreams (tail : Bytes) :
    (q : Nat) → (cs : List Bytes) → Decidable (KeptStreams tail q cs)
  | q, [] => inferInstanceAs (Decidable (q % 0x4002 < 0x4000))
  | q, c :: cs =>
    have := decidableKeptStreams tail (placeAfter q c) cs
    inferInstanceAs (Decidable (KeptAt q c _ ∧ KeptStreams tail (placeAfter q c) cs))

instance (root : UInt32) (streams : List Bytes) : Decidable (Kept root streams) :=
  inferInstanceAs (Decidable (_ ∧ _))

/-- A store is made of any root and any streams whose table of contents fits its frame, and what
is committed is opened as that store when its root is an identifier and its streams are kept.  In
a file whose places have 32 bits it is not opened as that store otherwise. -/
theorem commitL_reopens_iff (root : UInt32) (streams : List Bytes)
    (htoc : 12 + 5 * streams.length ≤ 0x3fff) :
    ∃ s file, created root streams = .ok s ∧ s.commitL = .ok file ∧
      (Kept root streams → Reopens file s) ∧
      (file.length < 2 ^ 32 → Reopens file s → Kept root streams) :=
  ⟨storeOf root streams, storeFile root streams, created_eq root (by omega),
    commitL_storeOf root htoc, reopens_of_kept htoc, kept_of_reopens htoc⟩

/-- Two streams in one segment. -/
theorem commitL_reopens_two :
    ∃ s file, created 2 [[1, 2, 3], [4]] = .ok s ∧ s.commitL = .ok file ∧ Reopens file s := by
  obtain ⟨s, file, hs, hfile, hreopens, -⟩ := commitL_reopens_iff 2 [[1, 2, 3], [4]] (by decide)
  exact ⟨s, file, hs, hfile, hreopens (by decide)⟩

/-- A store whose only stream is empty is not opened: the frame there is the one of the table of
contents. -/
theorem commitL_not_reopens :
    ¬ ∀ (root : UInt32) (streams : List Bytes), 12 + 5 * streams.length ≤ 0x3fff →
      ∃ s file, created root streams = .ok s ∧ s.commitL = .ok file ∧ Reopens file s := by
  intro h
  obtain ⟨s, file, hs, hfile, s', hread, -⟩ := h 1 [[]] (by decide)
  have hnot : readInData (storeFile 1 [[]]) = .error (.leave (-1)) := rfl
  rw [created_eq 1 (by decide), Except.ok.injEq] at hs
  rw [← hs, commitL_storeOf 1 (by decide), Except.ok.injEq] at hfile
  rw [← hfile, hnot] at hread
  exact absurd hread nofun

end Certapp

end OsSecurity

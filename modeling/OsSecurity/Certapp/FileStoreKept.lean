/-
The streams of a store that are kept, one after the other.

Where a stream begins depends on every one before it.  Behind the first anchor each has one frame,
so that what is behind it is told by the streams alone.
-/
import OsSecurity.Certapp.FileStoreStreams

namespace OsSecurity

open List

namespace Certapp

open Anchors CPermanentFileStore RWriteStream FileStreamBuf

/-! ### Where the streams are -/

/-- Where the first octet of each stream is, from `q` on. -/
def places : Nat → List Bytes → List Nat
  | _, [] => []
  | q, c :: cs => q :: places (q + (writeStream (q + 30) c).length) cs

theorem streamOffsets_eq (q : Nat) (cs : List Bytes) :
    streamOffsets (q + 30) cs = (places q cs).map fun q => UInt32.ofNat (q + 32) := by
  induction cs generalizing q with
  | nil => rfl
  | cons c cs ih =>
      have htell : q + 30 + (writeStream (q + 30) c).length =
          q + (writeStream (q + 30) c).length + 30 := by omega
      rw [streamOffsets, places, map_cons, ofNat_add_two, htell, ih]

theorem places_length (q : Nat) (cs : List Bytes) : (places q cs).length = cs.length := by
  induction cs generalizing q with
  | nil => rfl
  | cons c cs ih => rw [places, length_cons, ih, length_cons]

theorem writeStreams_cons (q : Nat) (c : Bytes) (cs : List Bytes) :
    writeStreams (q + 30) (c :: cs) = writeStream (q + 30) c ++
      writeStreams (q + (writeStream (q + 30) c).length + 30) cs := by
  have htell : q + 30 + (writeStream (q + 30) c).length =
      q + (writeStream (q + 30) c).length + 30 := by omega
  rw [writeStreams, htell]

/-- No stream begins behind the frames. -/
theorem places_le {q p : Nat} {cs : List Bytes} (h : p ∈ places q cs) :
    p ≤ q + (writeStreams (q + 30) cs).length := by
  induction cs generalizing q with
  | nil => exact absurd h not_mem_nil
  | cons c cs ih =>
      rw [writeStreams_cons, length_append]
      rcases mem_cons.mp h with rfl | h
      · omega
      · have hle := ih h
        omega

/-- The first octet of a stream behind one that is kept. -/
def placeAfter (q : Nat) (c : Bytes) : Nat :=
  q + 2 + c.length + if q < 0x4000 ∧ 0x4000 ≤ q + c.length then 2 else 0

/-- The streams from `q` on are kept, with `tail` behind the frames of the last, and the place
behind them is off the anchors. -/
def KeptStreams (tail : Bytes) : Nat → List Bytes → Prop
  | q, [] => q % 0x4002 < 0x4000
  | q, c :: cs =>
    KeptAt q c ((cs.flatMap fun c => frameOctets (0x4000 + c.length) ++ c) ++ tail) ∧
      KeptStreams tail (placeAfter q c) cs

theorem placeAfter_on {q : Nat} (h : 0x4000 ≤ q) (c : Bytes) :
    placeAfter q c = q + 2 + c.length := by
  unfold placeAfter
  rw [if_neg (by omega), Nat.add_zero]

theorem placeAfter_le (q : Nat) (c : Bytes) : placeAfter q c ≤ q + 4 + c.length := by
  unfold placeAfter
  by_cases hcross : q < 0x4000 ∧ 0x4000 ≤ q + c.length
  · rw [if_pos hcross]
    omega
  · rw [if_neg hcross]
    omega

section Kept

variable {q : Nat} {c after rest tail : Bytes} {cs : List Bytes}

theorem KeptAt.length_lt (h : KeptAt q c rest) : c.length < 0x8000 := by
  obtain ⟨-, hkept⟩ := h
  by_cases hoff : q % 0x4002 < 0x4000
  · rw [if_pos hoff] at hkept
    omega
  · rw [if_neg hoff] at hkept
    omega

theorem KeptAt.writeStream_length (h : KeptAt q c rest) (hq : q + 32 < 2 ^ 32) :
    q + (writeStream (q + 30) c).length = placeAfter q c := by
  obtain ⟨hpos, hkept⟩ := h
  unfold placeAfter
  by_cases hoff : q % 0x4002 < 0x4000
  · rw [if_pos hoff] at hkept
    have hroom := room_off hoff
    by_cases hbefore : q % 0x4002 + c.length < 0x4000
    · rw [writeStream_last (by omega) hpos (by omega), if_neg (by omega), length_append,
        frameOctets_length]
      omega
    · have hmod : q % 0x4002 = q := Nat.mod_eq_of_lt (by omega)
      rw [writeStream_two_length (by omega) (by omega) (by omega), if_pos (by omega)]
      omega
  · rw [if_neg hoff] at hkept
    have hroom := room_on (Nat.le_of_not_lt hoff)
    have hle := Nat.mod_le q 0x4002
    rw [writeStream_last (by omega) hpos (by omega), if_neg (by omega), length_append,
      frameOctets_length]
    omega

/-- More behind a stream keeps it. -/
theorem KeptAt.mono (h : KeptAt q c after) (hpre : after <+: rest) : KeptAt q c rest := by
  obtain ⟨hpos, hkept⟩ := h
  have hall : c ++ after <+: c ++ rest := (prefix_append_right_inj c).mpr hpre
  refine ⟨hpos, ?_⟩
  by_cases hoff : q % 0x4002 < 0x4000
  · rw [if_pos hoff] at hkept ⊢
    exact hkept
  · rw [if_neg hoff] at hkept ⊢
    exact ⟨hkept.1, hkept.2.imp (fun h => h.trans hall) fun h => ⟨h.1, h.2.trans hall⟩⟩

/-- Of what is behind a stream, four octets matter. -/
theorem KeptAt.of_four (h : KeptAt q c rest) (hpre : after <+: rest)
    (hlength : 4 ≤ after.length) : KeptAt q c after := by
  obtain ⟨hpos, hkept⟩ := h
  have hall : c ++ after <+: c ++ rest := (prefix_append_right_inj c).mpr hpre
  refine ⟨hpos, ?_⟩
  by_cases hoff : q % 0x4002 < 0x4000
  · rw [if_pos hoff] at hkept ⊢
    exact hkept
  · rw [if_neg hoff] at hkept ⊢
    refine ⟨hkept.1, hkept.2.imp (fun h => ?_) fun h => ⟨h.1, ?_⟩⟩
    · refine prefix_of_prefix_length_le h hall ?_
      rw [length_append, length_append, frameOctets_length]
      omega
    · refine prefix_of_prefix_length_le h.2 hall ?_
      rw [length_append, length_append, length_append, frameOctets_length, frameOctets_length]
      omega

/-- What is behind a stream off the anchors does not matter. -/
theorem KeptAt.of_off (h : KeptAt q c rest) (hoff : q % 0x4002 < 0x4000) : KeptAt q c after := by
  obtain ⟨hpos, hkept⟩ := h
  rw [if_pos hoff] at hkept
  exact ⟨hpos, by rwa [if_pos hoff]⟩

end Kept

/-! ### The streams, one after the other -/

section Streams

variable {q : Nat} {tail behind file : Bytes} {cs : List Bytes}

/-- Behind the first anchor every stream that is kept has one frame. -/
theorem KeptStreams.writeStreams_eq (h : KeptStreams tail q cs) (hq : 0x4000 ≤ q)
    (hsize : q + (writeStreams (q + 30) cs).length + 32 < 2 ^ 32) :
    writeStreams (q + 30) cs = cs.flatMap fun c => frameOctets (0x4000 + c.length) ++ c := by
  induction cs generalizing q with
  | nil => rfl
  | cons c cs ih =>
      obtain ⟨hc, hcs⟩ := h
      have hlength := hc.writeStream_length (by omega)
      have hafter := placeAfter_on hq c
      rw [writeStreams_cons, hlength, length_append] at hsize
      obtain ⟨hpos, hroom⟩ := hc
      have hone : c.length < room q := by
        by_cases hoff : q % 0x4002 < 0x4000
        · rw [if_pos hoff] at hroom
          rw [room_off hoff]
          omega
        · rw [if_neg hoff] at hroom
          rw [room_on (Nat.le_of_not_lt hoff)]
          omega
      rw [writeStreams_cons, hlength, ih hcs (by omega) (by omega), flatMap_cons,
        writeStream_last (by omega) hpos hone]

/-- Streams that are kept are read, and there is room behind them. -/
theorem KeptStreams.framed (h : KeptStreams tail q cs) (htail : tail <+: behind)
    (hsize : q + 0x8004 * cs.length + 0x8020 < 2 ^ 32)
    (hdrop : file.drop (q + 30) = writeStreams (q + 30) cs ++ behind) :
    Forall₂ (fun q c => Framed file true (framesAt q) c) (places q cs) cs ∧
      (q + (writeStreams (q + 30) cs).length) % 0x4002 < 0x4000 ∧
      (writeStreams (q + 30) cs).length ≤ 0x8004 * cs.length := by
  induction cs generalizing q with
  | nil => exact ⟨.nil, h, Nat.zero_le _⟩
  | cons c cs ih =>
      obtain ⟨hc, hcs⟩ := h
      rw [length_cons] at hsize
      have hlt := hc.length_lt
      have hlength := hc.writeStream_length (by omega)
      have hafter := placeAfter_le q c
      rw [writeStreams_cons, hlength] at hdrop ⊢
      rw [List.append_assoc] at hdrop
      have hnext := drop_behind hdrop
      have hplace : q + 30 + (writeStream (q + 30) c).length = placeAfter q c + 30 := by omega
      rw [hplace] at hnext
      obtain ⟨hframed, hroom, hcount⟩ := ih hcs (by omega) hnext
      have hfirst : Framed file true (framesAt q) c := by
        unfold framesAt
        by_cases hoff : q % 0x4002 < 0x4000
        · rw [if_pos hoff]
          exact framed_of_keptAt_off (by omega) hoff (hc.of_off hoff) hdrop
        · rw [if_neg hoff]
          have hle := Nat.mod_le q 0x4002
          have hmore := placeAfter_on (show 0x4000 ≤ q by omega) c
          rw [hcs.writeStreams_eq (by omega) (by omega)] at hdrop
          exact framed_of_keptAt_on (by omega) (Nat.le_of_not_lt hoff)
            (hc.mono ((prefix_append_right_inj _).mpr htail)) hdrop
      rw [places, hlength, length_append, length_cons]
      exact ⟨.cons hfirst hframed, by rwa [← Nat.add_assoc, hlength], by omega⟩

/-- What is behind a stream begins with a frame, and not with a continuation. -/
theorem exists_frame_behind (hsize : q + 32 < 2 ^ 32)
    (hcs : ∀ c ∈ cs, 0 < c.length ∧ c.length < 2 ^ 32)
    (hbehind : ∃ t more, behind = frameOctets t ++ more ∧ t < 0x10000 ∧ t / 0x4000 ≠ 3) :
    ∃ t more, writeStreams (q + 30) cs ++ behind = frameOctets t ++ more ∧ t < 0x10000 ∧
      t / 0x4000 ≠ 3 := by
  cases cs with
  | nil => exact hbehind
  | cons c cs =>
      obtain ⟨hpos, hlt⟩ := hcs c mem_cons_self
      rw [writeStreams_cons]
      by_cases hroom : c.length < room q
      · have hle := room_le q
        rw [writeStream_last hsize hpos hroom]
        exact ⟨0x4000 + c.length, _, by simp only [List.append_assoc]; rfl, by omega, by omega⟩
      · rw [writeStream_open hsize hlt (Nat.le_of_not_lt hroom)]
        exact ⟨0x4000, _, by simp only [List.append_assoc]; rfl, by omega, by omega⟩

theorem framed_lengths {qs : List Nat} {ds : List Bytes}
    (h : Forall₂ (fun q c => Framed file true (framesAt q) c) qs ds) :
    ∀ c ∈ ds, 0 < c.length ∧ c.length ≤ file.length := by
  induction h with
  | nil => simp
  | cons hfirst hrest ih =>
      intro c hc
      rcases mem_cons.mp hc with rfl | hc
      · have hle := hfirst.length_le
        exact ⟨hfirst.pos, by omega⟩
      · exact ih c hc

/-- Streams that are read are kept. -/
theorem keptStreams_of_framed (htail : tail <+: behind) (hfour : 4 ≤ tail.length)
    (hsize : file.length < 2 ^ 32)
    (hbehind : ∃ t more, behind = frameOctets t ++ more ∧ t < 0x10000 ∧ t / 0x4000 ≠ 3)
    (hdrop : file.drop (q + 30) = writeStreams (q + 30) cs ++ behind)
    (hroom : (q + (writeStreams (q + 30) cs).length) % 0x4002 < 0x4000)
    (h : Forall₂ (fun q c => Framed file true (framesAt q) c) (places q cs) cs) :
    KeptStreams tail q cs := by
  induction cs generalizing q with
  | nil => exact hroom
  | cons c cs ih =>
      have hlong := htail.length_le
      have hwhole := congrArg List.length hdrop
      rw [writeStreams_cons] at hdrop hroom hwhole
      rw [length_drop, length_append, length_append] at hwhole
      rw [List.append_assoc] at hdrop
      rw [places] at h
      cases h with
      | cons hfirst hrest =>
        have hnext := drop_behind hdrop
        have hplace : q + 30 + (writeStream (q + 30) c).length =
            q + (writeStream (q + 30) c).length + 30 := by omega
        rw [hplace] at hnext
        have hframe := exists_frame_behind (q := q + (writeStream (q + 30) c).length) (by omega)
          (fun d hd => by
            have hlengths := framed_lengths hrest d hd
            omega) hbehind
        have hcs := ih hnext (by rwa [length_append, ← Nat.add_assoc] at hroom) hrest
        have hkept : KeptAt q c
            (writeStreams (q + (writeStream (q + 30) c).length + 30) cs ++ behind) := by
          unfold framesAt at hfirst
          by_cases hoff : q % 0x4002 < 0x4000
          · rw [if_pos hoff] at hfirst
            exact keptAt_of_framed_off hsize hoff hdrop hfirst
          · rw [if_neg hoff] at hfirst
            exact keptAt_of_framed_on hsize (Nat.le_of_not_lt hoff) hdrop hframe hfirst
        have hlength := hkept.writeStream_length (by omega)
        rw [hlength] at hcs hkept hwhole
        refine ⟨?_, hcs⟩
        by_cases hoff : q % 0x4002 < 0x4000
        · exact hkept.of_off hoff
        · have hle := Nat.mod_le q 0x4002
          have hon := placeAfter_on (show 0x4000 ≤ q by omega) c
          rw [hcs.writeStreams_eq (by omega) (by omega)] at hkept
          refine hkept.of_four ((prefix_append_right_inj _).mpr htail) ?_
          rw [length_append]
          omega

end Streams

end Certapp

end OsSecurity

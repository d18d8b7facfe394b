/-
A stream of a store, in memory: `MemStreamBuf` in `s32file.cpp`, behind `RReadStream::ReadL`.

Both marks stay inside the data or at its end, since a seek that would leave one anywhere else
ends the program and a write moves the end.  A read takes the octet at its mark whether or not
there is one.  The marks have 32 bits and come round.
-/
import OsSecurity.E32

namespace OsSecurity

open UInt32

namespace Certapp

/-- `FatalError` ends the program, with -1. -/
def fatalError {α : Type} : Leaving α := leave (-1)

structure MemStreamBuf where
  iCurrentReadIndex : UInt32
  iCurrentWriteIndex : UInt32
  iData : Bytes
  read_le : iCurrentReadIndex.toNat ≤ iData.length
  write_le : iCurrentWriteIndex.toNat ≤ iData.length

inductive TStreamLocation where
  | EStreamBeginning
  | EStreamMark
  | EStreamEnd

/-- A mark that both bits, or neither, are set in is another. -/
inductive TMark where
  | ERead
  | EWrite
  | other

namespace MemStreamBuf

/-- The next place of a mark is not beyond the end behind it. -/
theorem succ_le {index : UInt32} {size : Nat} (h : index.toNat < size) :
    (index + 1).toNat ≤ size := by
  rw [UInt32.toNat_add]
  have hmod := Nat.mod_le (index.toNat + toNat 1) (2 ^ 32)
  have hone : toNat 1 = 1 := rfl
  omega

def readNext (s : MemStreamBuf) : Leaving (UInt8 × MemStreamBuf) :=
  if h : s.iCurrentReadIndex.toNat < s.iData.length then
    .ok (s.iData[s.iCurrentReadIndex.toNat],
      { s with
        iCurrentReadIndex := s.iCurrentReadIndex + 1
        read_le := succ_le h })
  else .error .undefined

def doReadL : Nat → MemStreamBuf → Leaving (Bytes × MemStreamBuf)
  | 0, s => .ok ([], s)
  | aMaxLength + 1, s => do
    let (octet, s) ← s.readNext
    let (octets, s) ← doReadL aMaxLength s
    return (octet :: octets, s)

/-- `RReadStream::ReadL`.  All that was asked for has been read, so the stream is never short. -/
def readL (aLength : Int) (s : MemStreamBuf) : Leaving (Bytes × MemStreamBuf) :=
  if aLength < 0 then fatalError
  else if aLength = 0 then .ok ([], s)
  else do
    let (octets, s) ← doReadL aLength.toNat s
    if octets.length < aLength.toNat then fatalError else return (octets, s)

def writeNext (octet : UInt8) (s : MemStreamBuf) : MemStreamBuf :=
  if h : s.iCurrentWriteIndex.toNat = s.iData.length then
    { s with
      iCurrentWriteIndex := s.iCurrentWriteIndex + 1
      iData := s.iData ++ [octet]
      read_le := by
        have hread := s.read_le
        rw [List.length_append]
        omega
      write_le := by
        rw [List.length_append]
        exact succ_le (by rw [h]; exact Nat.lt_succ_self _) }
  else
    { s with
      iCurrentWriteIndex := s.iCurrentWriteIndex + 1
      iData := s.iData.set s.iCurrentWriteIndex.toNat octet
      read_le := by
        rw [List.length_set]
        exact s.read_le
      write_le := by
        have hwrite := s.write_le
        rw [List.length_set]
        exact succ_le (by omega) }

def doWriteL (aPtr : Bytes) (s : MemStreamBuf) : MemStreamBuf :=
  aPtr.foldl (fun s octet => s.writeNext octet) s

/-- The place that is sought, from where a mark is. -/
def sought (aLocation : TStreamLocation) (anOffset : Int) (mark : UInt32) (s : MemStreamBuf) :
    UInt32 :=
  match aLocation with
  | .EStreamBeginning => ofInt anOffset
  | .EStreamMark => mark + ofInt anOffset
  | .EStreamEnd => ofInt (s.iData.length + anOffset)

def doSeekL (aMark : TMark) (aLocation : TStreamLocation) (anOffset : Int) (s : MemStreamBuf) :
    Leaving (UInt32 × MemStreamBuf) :=
  match aMark with
  | .ERead =>
    let p := s.sought aLocation anOffset s.iCurrentReadIndex
    if h : p.toNat ≤ s.iData.length then
      .ok (p, { s with
        iCurrentReadIndex := p
        read_le := h })
    else fatalError
  | .EWrite =>
    let p := s.sought aLocation anOffset s.iCurrentWriteIndex
    if h : p.toNat ≤ s.iData.length then
      .ok (p, { s with
        iCurrentWriteIndex := p
        write_le := h })
    else fatalError
  | .other => fatalError

/-- A call of the stream. -/
inductive Call where
  | read (aLength : Int)
  | write (aPtr : Bytes)
  | seek (aMark : TMark) (aLocation : TStreamLocation) (anOffset : Int)

/-- The stream after a call. -/
def after (s : MemStreamBuf) : Call → Leaving MemStreamBuf
  | .read aLength => do
    let (_, s) ← s.readL aLength
    return s
  | .write aPtr => return s.doWriteL aPtr
  | .seek aMark aLocation anOffset => do
    let (_, s) ← s.doSeekL aMark aLocation anOffset
    return s

def run : List Call → MemStreamBuf → Leaving MemStreamBuf
  | [], s => .ok s
  | call :: calls, s => do
    let s ← s.after call
    run calls s

/-! ### Reads that stay inside -/

/-- The octets from the read mark on are all there. -/
def Holds (s : MemStreamBuf) (aLength : Nat) : Prop :=
  ∀ k < aLength, (s.iCurrentReadIndex + ofNat k).toNat < s.iData.length

theorem readNext_defined {s : MemStreamBuf} (h : s.iCurrentReadIndex.toNat < s.iData.length) :
    ∃ octet s', s.readNext = .ok (octet, s') ∧ s'.iData = s.iData ∧
      s'.iCurrentReadIndex = s.iCurrentReadIndex + 1 := by
  unfold readNext
  rw [dif_pos h]
  exact ⟨_, _, rfl, rfl, rfl⟩

theorem holds_succ_iff {s s' : MemStreamBuf} (hdata : s'.iData = s.iData)
    (hindex : s'.iCurrentReadIndex = s.iCurrentReadIndex + 1) (n : Nat) :
    s.Holds (n + 1) ↔ s.iCurrentReadIndex.toNat < s.iData.length ∧ s'.Holds n := by
  have hnext : ∀ k, s'.iCurrentReadIndex + ofNat k =
      s.iCurrentReadIndex + ofNat (k + 1) := by
    intro k
    rw [hindex, UInt32.add_assoc, ofNat_add, UInt32.add_comm 1]
    rfl
  unfold Holds
  rw [hdata]
  constructor
  · intro h
    refine ⟨?_, fun k hk => ?_⟩
    · have hfirst := h 0 (Nat.succ_pos n)
      rwa [show ofNat 0 = 0 from rfl, UInt32.add_zero] at hfirst
    · rw [hnext]
      exact h (k + 1) (Nat.succ_lt_succ hk)
  · rintro ⟨hfirst, hrest⟩ k hk
    cases k with
    | zero => rwa [show ofNat 0 = 0 from rfl, UInt32.add_zero]
    | succ k =>
      rw [← hnext]
      exact hrest k (Nat.lt_of_succ_lt_succ hk)

theorem doReadL_holds {n : Nat} {s : MemStreamBuf} (h : s.Holds n) :
    ∃ octets s', doReadL n s = .ok (octets, s') ∧ octets.length = n := by
  induction n generalizing s with
  | zero => exact ⟨[], s, rfl, rfl⟩
  | succ n ih =>
      have hfirst := h 0 (Nat.succ_pos n)
      rw [show ofNat 0 = 0 from rfl, UInt32.add_zero] at hfirst
      obtain ⟨octet, s₁, hnext, hdata, hindex⟩ := readNext_defined hfirst
      obtain ⟨octets, s₂, hrest, hlength⟩ := ih ((holds_succ_iff hdata hindex n).mp h).2
      refine ⟨octet :: octets, s₂, ?_, by rw [List.length_cons, hlength]⟩
      rw [doReadL, hnext]
      show (doReadL n s₁ >>= _) = _
      rw [hrest]
      rfl

theorem doReadL_undefined {n : Nat} {s : MemStreamBuf} (h : ¬s.Holds n) :
    doReadL n s = .error .undefined := by
  induction n generalizing s with
  | zero => exact absurd (fun k hk => absurd hk (Nat.not_lt_zero k)) h
  | succ n ih =>
      rw [doReadL]
      by_cases hfirst : s.iCurrentReadIndex.toNat < s.iData.length
      · obtain ⟨octet, s₁, hnext, hdata, hindex⟩ := readNext_defined hfirst
        rw [holds_succ_iff hdata hindex] at h
        rw [hnext]
        show (doReadL n s₁ >>= _) = _
        rw [ih fun hrest => h ⟨hfirst, hrest⟩]
        rfl
      · unfold readNext
        rw [dif_neg hfirst]
        rfl

/-- What a call reads. -/
def Call.length : Call → Nat
  | .read aLength => aLength.toNat
  | _ => 0

theorem holds_zero (s : MemStreamBuf) : s.Holds 0 := fun k hk => absurd hk (Nat.not_lt_zero k)

theorem doSeekL_defined (aMark : TMark) (aLocation : TStreamLocation) (anOffset : Int)
    (s : MemStreamBuf) : s.doSeekL aMark aLocation anOffset ≠ .error .undefined := by
  cases aMark with
  | ERead =>
      unfold doSeekL
      dsimp only
      by_cases h : (s.sought aLocation anOffset s.iCurrentReadIndex).toNat ≤ s.iData.length
      · rw [dif_pos h]
        exact nofun
      · rw [dif_neg h]
        exact nofun
  | EWrite =>
      unfold doSeekL
      dsimp only
      by_cases h : (s.sought aLocation anOffset s.iCurrentWriteIndex).toNat ≤ s.iData.length
      · rw [dif_pos h]
        exact nofun
      · rw [dif_neg h]
        exact nofun
  | other => exact nofun

theorem readL_undefined_iff (aLength : Int) (s : MemStreamBuf) :
    s.readL aLength = .error .undefined ↔ ¬s.Holds aLength.toNat := by
  unfold readL
  by_cases hneg : aLength < 0
  · rw [if_pos hneg, Int.toNat_of_nonpos (by omega)]
    exact iff_of_false nofun (not_not.mpr s.holds_zero)
  rw [if_neg hneg]
  by_cases hzero : aLength = 0
  · rw [if_pos hzero, hzero]
    exact iff_of_false nofun (not_not.mpr s.holds_zero)
  rw [if_neg hzero]
  by_cases h : s.Holds aLength.toNat
  · obtain ⟨octets, s', hread, hlength⟩ := doReadL_holds h
    rw [hread]
    refine iff_of_false ?_ (not_not.mpr h)
    show (if octets.length < aLength.toNat then _ else _) ≠ _
    rw [if_neg (by omega)]
    exact nofun
  · rw [doReadL_undefined h]
    exact iff_of_true rfl h

theorem bind_undefined_iff {α : Type} (x : Leaving (α × MemStreamBuf)) :
    (x >>= fun result => Except.ok result.2) = .error .undefined ↔ x = .error .undefined := by
  cases x with
  | ok result => exact iff_of_false nofun nofun
  | error e =>
      show Except.error e = _ ↔ _
      rw [Except.error.injEq, Except.error.injEq]

theorem after_undefined_iff (s : MemStreamBuf) (call : Call) :
    s.after call = .error .undefined ↔ ¬s.Holds call.length := by
  cases call with
  | read aLength => exact (bind_undefined_iff _).trans (readL_undefined_iff aLength s)
  | write aPtr => exact iff_of_false nofun (not_not.mpr s.holds_zero)
  | seek aMark aLocation anOffset =>
      have hseek := doSeekL_defined aMark aLocation anOffset s
      exact iff_of_false (fun h => hseek ((bind_undefined_iff _).mp h)) (not_not.mpr s.holds_zero)

/-- Every read of a run has the octets it asks for. -/
def ReadsInside : List Call → MemStreamBuf → Prop
  | [], _ => True
  | call :: calls, s =>
    s.Holds call.length ∧ ∀ s', s.after call = .ok s' → ReadsInside calls s'

/-- A run reads past the data where one of its reads asks for more than is left, and nowhere
else. -/
theorem run_undefined_iff (calls : List Call) (s : MemStreamBuf) :
    run calls s = .error .undefined ↔ ¬ReadsInside calls s := by
  induction calls generalizing s with
  | nil => exact iff_of_false nofun (not_not.mpr trivial)
  | cons call calls ih =>
      have hcall := after_undefined_iff s call
      rw [run, ReadsInside]
      cases hafter : s.after call with
      | ok s₁ =>
        rw [hafter] at hcall
        have hholds : s.Holds call.length := by
          by_contra hn
          exact absurd (hcall.mpr hn) nofun
        have hall : (∀ s', (Except.ok s₁ : Leaving MemStreamBuf) = .ok s' → ReadsInside calls s') ↔
            ReadsInside calls s₁ :=
          ⟨fun h => h s₁ rfl, fun h s' hs' => Except.ok.inj hs' ▸ h⟩
        rw [hall]
        show run calls s₁ = _ ↔ _
        rw [ih s₁]
        exact not_congr ⟨fun h => ⟨hholds, h⟩, fun h => h.2⟩
      | error e =>
        rw [hafter] at hcall
        show Except.error e = _ ↔ _
        rw [show (Except.error e : Leaving MemStreamBuf) = .error .undefined ↔
          ¬s.Holds call.length from hcall]
        exact not_congr ⟨fun h => ⟨h, fun s' hs' => absurd hs' nofun⟩, fun h => h.1⟩

end MemStreamBuf

end Certapp

end OsSecurity

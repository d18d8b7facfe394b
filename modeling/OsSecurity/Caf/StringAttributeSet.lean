/-
The set of string attributes of the content access framework: `stringattributeset.cpp`.

An attribute is set where it is, and added behind the others when that fails.  So it gets in
twice when there was no memory to replace its value and then there is some to add it; and
`InternalizeL` keeps what it has set before it leaves.
-/
import OsSecurity.Caf.VirtualPath
import OsSecurity.Library.Transitions

namespace OsSecurity

open List Transitions

namespace Caf

open RWriteStream RReadStream TCafUtils

def KErrCANotSupported : Int32 := -17450

structure CStringAttribute where
  iAttribute : Int32
  iValue : Text
  iError : Int32
  /-- There is no longer descriptor. -/
  short : iValue.length < 2 ^ 31

abbrev RStringAttributeSet := List CStringAttribute

/-- The allocations for one attribute that come off. -/
structure Memory where
  /-- in `ReadDescriptor16L` -/
  buffer : Bool
  /-- in `CStringAttribute::NewL`, called from `SetValue` -/
  replacement : Bool
  /-- in `CStringAttribute::NewL`, called from `AddL` -/
  element : Bool
  /-- in `Append` -/
  place : Bool

namespace RStringAttributeSet

/-- `GetValue`, with what is in its descriptor afterwards. -/
def getValue (s : RStringAttributeSet) (aAttribute : Int32) (aMaxLength : Nat) :
    Int × Option Text :=
  match s.find? (·.iAttribute = aAttribute) with
  | none => (KErrNotFound, none)
  | some a =>
    if aMaxLength < a.iValue.length then (KErrOverflow, none) else (a.iError.toInt, some a.iValue)

/-- `SetValue`, with the values that it makes an attribute of. -/
def setValue (memory : Bool) (temp : CStringAttribute) :
    RStringAttributeSet → Int × RStringAttributeSet
  | [] => (KErrNotFound, [])
  | a :: s =>
    if a.iAttribute = temp.iAttribute then
      if memory then (KErrNone, temp :: s) else (KErrNoMemory, a :: s)
    else ((setValue memory temp s).1, a :: (setValue memory temp s).2)

/-- No array has `2 ^ 31` elements. -/
def appends (m : Memory) (s : RStringAttributeSet) : Bool :=
  m.element && m.place && s.length + 1 < 2 ^ 31

/-- `SetValue`, and the private `AddL` after any error. -/
def setOrAddL (m : Memory) (element : CStringAttribute) (s : RStringAttributeSet) :
    Leaving Unit × RStringAttributeSet :=
  let (err, s) := setValue m.replacement element s
  if err ≠ KErrNone then
    if appends m s then (.ok (), s ++ [element]) else (leave KErrNoMemory, s)
  else (.ok (), s)

/-- What `AddL` makes of an attribute. -/
def unset (aAttribute : Int32) : CStringAttribute :=
  ⟨aAttribute, [], KErrCANotSupported, by decide⟩

def addL (m : Memory) (aAttribute : Int32) (s : RStringAttributeSet) :
    Leaving Unit × RStringAttributeSet := setOrAddL m (unset aAttribute) s

def writeAttributeL (a : CStringAttribute) : Bytes :=
  writeUint32L a.iAttribute.toUInt32 ++
    (writeDescriptor16L a.iValue ++ writeUint32L a.iError.toUInt32)

def externalizeL (s : RStringAttributeSet) : Bytes :=
  writeUint32L (UInt32.ofNat s.length) ++ s.flatMap writeAttributeL

def readValueL (memory : Bool) : RReadStream Text :=
  if memory then readDescriptor16L else readUint32L >>= fun dataLength =>
    if 2 ^ 31 ≤ dataLength.toNat then liftM (panic : Leaving Text) else leaves KErrNoMemory

def readAttributeL (m : Memory) : RReadStream CStringAttribute := do
  let aAttribute ← readUint32L
  let value ← readValueL m.buffer
  let errorCode ← readUint32L
  if h : value.length < 2 ^ 31 then return ⟨aAttribute.toInt32, value, errorCode.toInt32, h⟩
  else liftM (panic : Leaving CStringAttribute)

/-- The loop of `InternalizeL`, with the stream it ends at. -/
def readAttributesL (memory : Nat → Memory) :
    Nat → Nat → RStringAttributeSet → Bytes → Leaving Bytes × RStringAttributeSet
  | 0, _, s, octets => (.ok octets, s)
  | n + 1, i, s, octets =>
    match readAttributeL (memory i) octets with
    | .error e => (.error e, s)
    | .ok (element, rest) =>
      match setOrAddL (memory i) element s with
      | (.error e, s) => (.error e, s)
      | (.ok _, s) => readAttributesL memory n (i + 1) s rest

def internalizeL (memory : Nat → Memory) (s : RStringAttributeSet) (octets : Bytes) :
    Leaving Bytes × RStringAttributeSet :=
  match readUint32L octets with
  | .error e => (.error e, s)
  | .ok (count, rest) => readAttributesL memory count.toInt32.toInt.toNat 0 s rest

/-! ### Setting or adding -/

/-- What setting or adding is for: the values are in the set, once. -/
def put (element : CStringAttribute) : RStringAttributeSet → RStringAttributeSet
  | [] => [element]
  | a :: s => if a.iAttribute = element.iAttribute then element :: s else a :: put element s

def attributes (s : RStringAttributeSet) : List Int32 := s.map (·.iAttribute)

structure Sound (s : RStringAttributeSet) : Prop where
  distinct : (attributes s).Nodup
  short : s.length < 2 ^ 31

variable {m : Memory} {memory : Nat → Memory} {element : CStringAttribute}
  {s s' start : RStringAttributeSet}

theorem setValue_absent (memory : Bool) (h : element.iAttribute ∉ attributes s) :
    setValue memory element s = (KErrNotFound, s) ∧ put element s = s ++ [element] := by
  induction s with
  | nil => exact ⟨rfl, rfl⟩
  | cons a s ih =>
      obtain ⟨hne, hrest⟩ := not_or.mp (mt mem_cons.mpr h)
      obtain ⟨hset, hput⟩ := ih hrest
      unfold setValue put
      rw [if_neg (Ne.symm hne), if_neg (Ne.symm hne), hset, hput]
      exact ⟨rfl, rfl⟩

theorem setValue_present (memory : Bool) (h : element.iAttribute ∈ attributes s) :
    setValue memory element s =
        (if memory then (KErrNone, put element s) else (KErrNoMemory, s)) ∧
      attributes (put element s) = attributes s := by
  induction s with
  | nil => exact absurd h not_mem_nil
  | cons a s ih =>
      unfold setValue put
      by_cases ha : a.iAttribute = element.iAttribute
      · rw [if_pos ha, if_pos ha]
        exact ⟨rfl, congrArg (· :: attributes s) ha.symm⟩
      · obtain ⟨hset, hput⟩ := ih ((mem_cons.mp h).resolve_left (Ne.symm ha))
        rw [if_neg ha, if_neg ha, hset]
        exact ⟨by cases memory <;> rfl, congrArg (a.iAttribute :: ·) hput⟩

/-- No attribute is added that could not be replaced. -/
def Spare (m : Memory) (aAttribute : Int32) (s : RStringAttributeSet) : Prop :=
  aAttribute ∈ attributes s → m.replacement ∨ ¬appends m s

/-- There is memory for one of the two. -/
def Takes (m : Memory) (aAttribute : Int32) (s : RStringAttributeSet) : Prop :=
  aAttribute ∈ attributes s ∧ m.replacement ∨ appends m s

theorem setOrAddL_eq (h : Spare m element.iAttribute s) :
    (Takes m element.iAttribute s ∧ setOrAddL m element s = (.ok (), put element s)) ∨
      (¬Takes m element.iAttribute s ∧
        setOrAddL m element s = (leave KErrNoMemory, s)) := by
  unfold Takes setOrAddL
  by_cases hmem : element.iAttribute ∈ attributes s
  · rw [(setValue_present _ hmem).1]
    cases hm : m.replacement with
    | true => exact .inl ⟨.inl ⟨hmem, rfl⟩, rfl⟩
    | false =>
      have hnone : ¬appends m s := (h hmem).resolve_left (by simp [hm])
      refine .inr ⟨by simp [hnone], ?_⟩
      simp [hnone, KErrNoMemory, KErrNone]
  · rw [(setValue_absent _ hmem).1, (setValue_absent true hmem).2]
    by_cases happ : appends m s
    · exact .inl ⟨.inr happ, by simp [happ, KErrNotFound, KErrNone]⟩
    · exact .inr ⟨by simp [hmem, happ], by simp [happ, KErrNotFound, KErrNone]⟩

theorem Sound.put (h : Sound s) (htakes : Takes m element.iAttribute s) :
    Sound (put element s) := by
  by_cases hmem : element.iAttribute ∈ attributes s
  · have hsame := (setValue_present true hmem).2
    refine ⟨hsame ▸ h.distinct, ?_⟩
    have hlen := congrArg length hsame
    unfold attributes at hlen
    rw [length_map, length_map] at hlen
    exact hlen ▸ h.short
  · have happ : appends m s := htakes.resolve_left fun hboth => hmem hboth.1
    rw [(setValue_absent true hmem).2]
    refine ⟨?_, ?_⟩
    · unfold attributes
      rw [map_append, nodup_append_comm]
      exact nodup_cons.mpr ⟨hmem, h.distinct⟩
    · unfold appends at happ
      rw [Bool.and_eq_true, decide_eq_true_iff] at happ
      rw [length_append]
      exact happ.2

/-! ### A failed call -/

def SameValues (s s' : RStringAttributeSet) : Prop :=
  ∀ aAttribute aMaxLength, getValue s' aAttribute aMaxLength = getValue s aAttribute aMaxLength

/-- Of what was read, the last first, the last values are those of the set. -/
def Unchanging (start : RStringAttributeSet) (done : List CStringAttribute) : Prop :=
  ∀ aAttribute element, done.find? (·.iAttribute = aAttribute) = some element →
    start.find? (·.iAttribute = aAttribute) = some element

/-- No attribute of the stream is added that could not be replaced; and where the loop leaves,
it has read no attribute with another value. -/
def Spares (memory : Nat → Memory) (start : RStringAttributeSet) :
    Nat → List CStringAttribute → Bytes → Prop
  | 0, _, _ => True
  | n + 1, done, octets =>
    match readAttributeL (memory done.length) octets with
    | .error _ => Unchanging start done
    | .ok (element, rest) =>
      let s := done.foldr put start
      Spare (memory done.length) element.iAttribute s ∧
        (Takes (memory done.length) element.iAttribute s →
          Spares memory start n (element :: done) rest) ∧
        (¬Takes (memory done.length) element.iAttribute s → Unchanging start done)

theorem find_put (element : CStringAttribute) (s : RStringAttributeSet) (aAttribute : Int32) :
    (put element s).find? (·.iAttribute = aAttribute) =
      if element.iAttribute = aAttribute then some element
      else s.find? (·.iAttribute = aAttribute) := by
  induction s with
  | nil =>
      by_cases he : element.iAttribute = aAttribute <;> simp [put, he]
  | cons a s ih =>
      unfold put
      by_cases ha : a.iAttribute = element.iAttribute
      · rw [if_pos ha]
        by_cases he : element.iAttribute = aAttribute <;> simp [ha, he]
      · rw [if_neg ha, find?_cons, find?_cons, ih]
        by_cases he : element.iAttribute = aAttribute
        · simp [← he, ha]
        · simp [he]

theorem Unchanging.sameValues {done : List CStringAttribute} (h : Unchanging start done) :
    SameValues start (done.foldr put start) := by
  have hfind : ∀ aAttribute, (done.foldr put start).find? (·.iAttribute = aAttribute) =
      (done.find? (·.iAttribute = aAttribute)).or (start.find? (·.iAttribute = aAttribute)) := by
    intro aAttribute
    clear h
    induction done with
    | nil => rfl
    | cons a done ih =>
      rw [foldr_cons, find_put, ih, find?_cons]
      by_cases ha : a.iAttribute = aAttribute <;> simp [ha]
  intro aAttribute aMaxLength
  unfold getValue
  rw [hfind]
  cases hdone : done.find? (·.iAttribute = aAttribute) with
  | none => rfl
  | some element =>
      rw [h aAttribute element hdone]
      rfl

theorem readAttributesL_spared (done : List CStringAttribute) {n : Nat} {octets : Bytes}
    (hset : Sound (done.foldr put start)) (h : Spares memory start n done octets) :
    Sound (readAttributesL memory n done.length (done.foldr put start) octets).2 ∧
      ∀ e, (readAttributesL memory n done.length (done.foldr put start) octets).1 = .error e →
        SameValues start
          (readAttributesL memory n done.length (done.foldr put start) octets).2 := by
  induction n generalizing done octets with
  | zero => exact ⟨hset, fun e he => absurd he (by simp [readAttributesL])⟩
  | succ n ih =>
      unfold readAttributesL
      unfold Spares at h
      cases hread : readAttributeL (memory done.length) octets with
      | error e =>
        rw [hread] at h
        exact ⟨hset, fun _ _ => h.sameValues⟩
      | ok p =>
        rw [hread] at h
        obtain ⟨hspare, hon, hleft⟩ := h
        rcases setOrAddL_eq hspare with ⟨htakes, hcall⟩ | ⟨hnot, hcall⟩
        · simp only [hcall]
          exact ih (p.1 :: done) (hset.put htakes) (hon htakes)
        · simp only [hcall, leave]
          exact ⟨hset, fun _ _ => (hleft hnot).sameValues⟩

/-! ### What is written is read back -/

/-- Nothing fails, in what an attribute that the set does not have needs. -/
def Plenty (m : Memory) : Prop := m.buffer ∧ m.element ∧ m.place

/-- `InternalizeL` reads the set back, unless it leaves for want of memory. -/
def RoundTrips (s : RStringAttributeSet) : Prop :=
  ∀ memory rest,
    (∃ s', internalizeL memory [] (externalizeL s ++ rest) = (.ok rest, s') ∧
      SameValues s s') ∨
    (∃ i, ¬Plenty (memory i)) ∧
      (internalizeL memory [] (externalizeL s ++ rest)).1 = leave KErrNoMemory

theorem readAttributeL_back (a : CStringAttribute) (h : m.buffer) :
    ReadsBack (readAttributeL m) (writeAttributeL a) a := by
  have hvalue := readDescriptor16L_back a.short
  refine (readUint32L_back _).bind (ReadsBack.bind (by unfold readValueL; rwa [if_pos h]) ?_)
  intro rest
  rw [Reader.bind_run (readUint32L_back _ rest), dif_pos a.short, Int32.toInt32_toUInt32,
    Int32.toInt32_toUInt32]
  rfl

theorem readAttributeL_leaves (a : CStringAttribute) (rest : Bytes) (h : ¬m.buffer) :
    readAttributeL m (writeAttributeL a ++ rest) = leave KErrNoMemory := by
  have hlength : (UInt32.ofNat a.iValue.length).toNat = a.iValue.length :=
    UInt32.toNat_ofNat_of_lt' (Nat.lt_trans a.short (by decide))
  have hvalue (octets : Bytes) :
      readValueL m.buffer (writeUint32L (UInt32.ofNat a.iValue.length) ++ octets) =
        leave KErrNoMemory := by
    unfold readValueL
    rw [if_neg h, Reader.bind_run (readUint32L_back _ _), hlength, if_neg (Nat.not_le.mpr a.short)]
    rfl
  unfold readAttributeL writeAttributeL writeDescriptor16L
  rw [append_assoc, Reader.bind_run (readUint32L_back _ _), append_assoc, append_assoc]
  show (readValueL m.buffer _ >>= _) = _
  rw [hvalue]
  rfl

theorem readAttributesL_back (memory : Nat → Memory) (rest : Bytes) (i : Nat)
    (hs : Sound (s ++ s')) :
    readAttributesL memory s'.length i s (s'.flatMap writeAttributeL ++ rest) =
        (.ok rest, s ++ s') ∨
      (∃ i, ¬Plenty (memory i)) ∧
        (readAttributesL memory s'.length i s (s'.flatMap writeAttributeL ++ rest)).1 =
          leave KErrNoMemory := by
  induction s' generalizing s i with
  | nil => exact .inl (by rw [append_nil]; rfl)
  | cons a s' ih =>
      rw [flatMap_cons, append_assoc, length_cons]
      unfold readAttributesL
      by_cases hbuffer : (memory i).buffer
      · rw [readAttributeL_back a hbuffer]
        have habsent : a.iAttribute ∉ attributes s := by
          have hd := hs.distinct
          unfold attributes at hd
          rw [map_append, map_cons, nodup_middle] at hd
          exact fun hmem => (nodup_cons.mp hd).1 (mem_append_left _ hmem)
        rcases setOrAddL_eq (m := memory i) fun hmem => absurd hmem habsent with
          ⟨-, hcall⟩ | ⟨hnot, hcall⟩
        · simp only [hcall]
          rw [(setValue_absent true habsent).2]
          rw [append_cons s a s'] at hs ⊢
          exact ih (i + 1) hs
        · simp only [hcall]
          refine .inr ⟨⟨i, fun hplenty => hnot (.inr ?_)⟩, rfl⟩
          have hshort := hs.short
          rw [length_append, length_cons] at hshort
          simp [appends, hplenty.2.1, hplenty.2.2]
          omega
      · rw [readAttributeL_leaves a _ hbuffer]
        exact .inr ⟨⟨i, fun hplenty => hbuffer hplenty.1⟩, rfl⟩

theorem Sound.roundTrips (h : Sound s) : RoundTrips s := by
  intro memory rest
  have hcount : (UInt32.ofNat s.length).toInt32.toInt.toNat = s.length := by
    rw [UInt32.toInt32_ofNat', Int32.toInt_ofNat_of_lt h.short]
    exact Int.toNat_natCast _
  unfold internalizeL externalizeL
  rw [append_assoc, readUint32L_back]
  simp only [hcount]
  rcases readAttributesL_back (s := []) memory rest 0 h with hback | hleft
  · exact .inl ⟨s, hback, fun _ _ => rfl⟩
  · exact .inr hleft

/-! ### Runs -/

end RStringAttributeSet

inductive AttributeCall where
  | addL (m : Memory) (aAttribute : Int32)
  | setValue (memory : Bool) (temp : CStringAttribute)
  | internalizeL (memory : Nat → Memory) (aStream : Bytes)

namespace RStringAttributeSet

variable {call : AttributeCall}

/-- What the call returns or leaves with, and the set after it. -/
def perform (s : RStringAttributeSet) : AttributeCall → Leaving Int × RStringAttributeSet
  | .addL m aAttribute => ((addL m aAttribute s).1.map fun _ => KErrNone, (addL m aAttribute s).2)
  | .setValue memory temp => (.ok (setValue memory temp s).1, (setValue memory temp s).2)
  | .internalizeL memory aStream =>
    ((internalizeL memory s aStream).1.map fun _ => KErrNone, (internalizeL memory s aStream).2)

/-- Nothing follows a panic. -/
def step (s : RStringAttributeSet) (call : AttributeCall) : Option RStringAttributeSet :=
  if (perform s call).1 = panic then none else some (perform s call).2

/-- `SetValue` never goes wrong. -/
def CallSpares (s : RStringAttributeSet) : AttributeCall → Prop
  | .addL m aAttribute => Spare m aAttribute s
  | .setValue _ _ => True
  | .internalizeL memory aStream => ∀ count rest, readUint32L aStream = .ok (count, rest) →
      Spares memory s count.toInt32.toInt.toNat [] rest

theorem perform_spared (hs : Sound s) (h : CallSpares s call) :
    Sound (perform s call).2 ∧
      ((perform s call).1 ≠ .ok KErrNone → SameValues s (perform s call).2) := by
  cases call with
  | addL m aAttribute =>
      have hspare : Spare m (unset aAttribute).iAttribute s := h
      simp only [perform, addL]
      rcases setOrAddL_eq hspare with ⟨htakes, hcall⟩ | ⟨-, hcall⟩
      · rw [hcall]
        exact ⟨hs.put htakes, fun hne => absurd rfl hne⟩
      · rw [hcall]
        exact ⟨hs, fun _ _ _ => rfl⟩
  | setValue memory temp =>
      simp only [perform]
      by_cases hmem : temp.iAttribute ∈ attributes s
      · rw [(setValue_present memory hmem).1]
        cases memory with
        | true =>
          have htakes : Takes ⟨true, true, true, true⟩ temp.iAttribute s := .inl ⟨hmem, rfl⟩
          exact ⟨hs.put htakes, fun hne => absurd rfl hne⟩
        | false => exact ⟨hs, fun _ _ _ => rfl⟩
      · rw [(setValue_absent memory hmem).1]
        exact ⟨hs, fun _ _ _ => rfl⟩
  | internalizeL memory aStream =>
      simp only [perform, internalizeL]
      cases hread : readUint32L aStream with
      | error e => exact ⟨hs, fun _ _ _ => rfl⟩
      | ok p =>
        obtain ⟨hsound, hfail⟩ := readAttributesL_spared [] hs (h p.1 p.2 hread)
        refine ⟨hsound, fun hne => ?_⟩
        cases hloop : (readAttributesL memory p.1.toInt32.toInt.toNat 0 s p.2).1 with
        | error e => exact hfail e hloop
        | ok octets => exact absurd (by simp only [hloop]; rfl) hne

/-- **The set of attributes**, in a run whose calls add no attribute that they could not replace
and leave before they change a value. -/
theorem attributes_kept (h : Reachable (· = []) step CallSpares s) :
    (attributes s).Nodup ∧ RoundTrips s ∧
      ∀ call, CallSpares s call → (perform s call).1 ≠ .ok KErrNone →
        SameValues s (perform s call).2 := by
  have hsound : Sound s := by
    refine h.invariant ?_ ?_
    · rintro _ rfl
      exact ⟨nodup_nil, by decide⟩
    · intro s call t hs hspares hstep
      obtain ⟨-, ht⟩ := Option.ite_none_left_eq_some.mp hstep
      cases ht
      exact (perform_spared hs hspares).1
  exact ⟨hsound.distinct, hsound.roundTrips, fun call hspares => (perform_spared hsound hspares).2⟩

/-- An attribute is set, and no other value is put in when there is no memory. -/
theorem attributes_kept_one : ∃ s : RStringAttributeSet, s.length = 1 ∧ RoundTrips s ∧
    SameValues s (perform s (.setValue false (unset 5))).2 := by
  have hadded : Reachable (· = []) step CallSpares _ :=
    .next (a := AttributeCall.addL ⟨true, true, true, true⟩ 5) (.start rfl)
      (fun hmem => absurd hmem not_mem_nil) rfl
  have hset := hadded.next (a := AttributeCall.setValue true ⟨5, [65], 0, by decide⟩) trivial rfl
  obtain ⟨-, hback, hfailed⟩ := attributes_kept hset
  exact ⟨_, rfl, hback, hfailed (.setValue false (unset 5)) trivial (by decide)⟩

/-- An attribute is added, and added again when there is no memory to replace it. -/
theorem added_twice : ∃ s, Reachable (· = []) step Anything s ∧ ¬(attributes s).Nodup := by
  have hadded : Reachable (· = []) step Anything _ :=
    .next (a := AttributeCall.addL ⟨true, true, true, true⟩ 5) (.start rfl) trivial rfl
  have htwice := hadded.next (a := AttributeCall.addL ⟨true, false, true, true⟩ 5) trivial rfl
  exact ⟨_, htwice, by decide⟩

end RStringAttributeSet

end Caf

end OsSecurity

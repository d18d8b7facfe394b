/-
Virtual paths: `virtualpath.cpp` and `Virtualpathptr.cpp` of the content access framework.

A URI and a unique id are kept apart in a `CVirtualPath` and written apart to a stream, but also
joined with a separator.  The joined form is taken apart at its last separator, unless the tail
is too long for an id; and the bound for that is two short of the longest id.
-/
import OsSecurity.Streams

namespace OsSecurity

open List

namespace Caf

open RWriteStream RReadStream

def KCafVirtualPathSeparator : UInt16 := 124
def KMaxCafUniqueId : Nat := 1024

/-- `DEFAULT` -/
def KDefaultContentObject : Text := [68, 69, 70, 65, 85, 76, 84]

/-- `TDesC16::LocateReverse` -/
def locateReverse (aText : Text) (aChar : UInt16) : Int :=
  match aText.reverse.findIdx? (· == aChar) with
  | some i => (aText.length : Int) - 1 - i
  | none => KErrNotFound

namespace TCafUtils

def writeDescriptor16L (aDescriptor : Text) : Bytes :=
  writeUint32L (UInt32.ofNat aDescriptor.length) ++
    aDescriptor.flatMap fun c => writeUint16L c.toUInt32

/-- `ReadL` into a descriptor of text. -/
def readTextL : Nat → RReadStream Text
  | 0 => return []
  | n + 1 => do
    let c ← readUint16L
    let rest ← readTextL n
    return c :: rest

/-- A negative length is none that `HBufC::NewL` takes. -/
def readDescriptor16L : RReadStream Text := do
  let dataLength ← readUint32L
  if 2 ^ 31 ≤ dataLength.toNat then liftM (panic : Leaving Text)
  else readTextL dataLength.toNat

theorem readTextL_back (aText : Text) :
    ReadsBack (readTextL aText.length) (aText.flatMap fun c => writeUint16L c.toUInt32) aText := by
  induction aText with
  | nil => exact .pure []
  | cons c cs ih =>
      have hunit := readUint16L_back c.toUInt32
      rw [UInt16.toUInt16_toUInt32] at hunit
      exact hunit.bind (ih.map rfl)

theorem readDescriptor16L_back {aText : Text} (h : aText.length < 2 ^ 31) :
    ReadsBack readDescriptor16L (writeDescriptor16L aText) aText := by
  refine (readUint32L_back _).bind ?_
  have hlength : (UInt32.ofNat aText.length).toNat = aText.length :=
    UInt32.toNat_ofNat_of_lt' (by rw [UInt32.size]; omega)
  rw [hlength, if_neg (by omega)]
  exact readTextL_back aText

end TCafUtils

structure TVirtualPathPtr where
  iUri : Text
  iUniqueId : Text

/-- The constructor from a URI with or without a unique id behind it. -/
def TVirtualPathPtr.ofCombined (aCombinedUriUniqueId : Text) : TVirtualPathPtr :=
  let pos := locateReverse aCombinedUriUniqueId KCafVirtualPathSeparator
  if pos ≠ KErrNotFound ∧ (aCombinedUriUniqueId.length : Int) - pos < KMaxCafUniqueId then
    ⟨aCombinedUriUniqueId.take pos.toNat, aCombinedUriUniqueId.drop (pos + 1).toNat⟩
  else ⟨aCombinedUriUniqueId, KDefaultContentObject⟩

structure CVirtualPath where
  iURI : Text
  iUniqueId : Text
  iCombinedUriUniqueId : Text
  iVirtualPathPtr : TVirtualPathPtr

namespace CVirtualPath

open TCafUtils

def createCombinedUriUniqueIdL (aUri aUniqueId : Text) : Text :=
  aUri ++ [KCafVirtualPathSeparator] ++ aUniqueId

def newL (aUri aUniqueId : Text) : CVirtualPath :=
  ⟨aUri, aUniqueId, createCombinedUriUniqueIdL aUri aUniqueId, ⟨aUri, aUniqueId⟩⟩

def externalizeL (self : CVirtualPath) : Bytes :=
  writeDescriptor16L self.iURI ++ writeDescriptor16L self.iUniqueId

def internalizeL : RReadStream CVirtualPath := do
  let iURI ← readDescriptor16L
  let iUniqueId ← readDescriptor16L
  return ⟨iURI, iUniqueId, createCombinedUriUniqueIdL iURI iUniqueId, ⟨iURI, iUniqueId⟩⟩

/-- Both ways lead back to the URI and the unique id. -/
def Faithful (aUri aUniqueId : Text) : Prop :=
  TVirtualPathPtr.ofCombined (newL aUri aUniqueId).iCombinedUriUniqueId = ⟨aUri, aUniqueId⟩ ∧
    ReadsBack internalizeL (newL aUri aUniqueId).externalizeL (newL aUri aUniqueId)

variable {aUri aUniqueId : Text}

theorem locateReverse_combined (hid : KCafVirtualPathSeparator ∉ aUniqueId) :
    locateReverse (createCombinedUriUniqueIdL aUri aUniqueId) KCafVirtualPathSeparator =
      aUri.length := by
  have hnone : aUniqueId.reverse.findIdx? (· == KCafVirtualPathSeparator) = none := by
    rw [findIdx?_eq_none_iff]
    intro c hc
    refine beq_false_of_ne ?_
    rintro rfl
    exact hid (mem_reverse.mp hc)
  have hindex : (createCombinedUriUniqueIdL aUri aUniqueId).reverse.findIdx?
      (· == KCafVirtualPathSeparator) = some aUniqueId.length := by
    unfold createCombinedUriUniqueIdL
    rw [reverse_append, reverse_append, findIdx?_append, hnone]
    simp [findIdx?_cons]
  unfold locateReverse
  rw [hindex]
  simp only [createCombinedUriUniqueIdL, length_append, length_singleton]
  omega

theorem ofCombined_combined (hid : KCafVirtualPathSeparator ∉ aUniqueId) :
    TVirtualPathPtr.ofCombined (createCombinedUriUniqueIdL aUri aUniqueId) =
      if aUniqueId.length + 1 < KMaxCafUniqueId then ⟨aUri, aUniqueId⟩
      else ⟨createCombinedUriUniqueIdL aUri aUniqueId, KDefaultContentObject⟩ := by
  have hlength : ((createCombinedUriUniqueIdL aUri aUniqueId).length : Int) - aUri.length =
      aUniqueId.length + 1 := by
    simp only [createCombinedUriUniqueIdL, length_append, length_singleton]
    omega
  have hfound : (aUri.length : Int) ≠ KErrNotFound := by
    unfold KErrNotFound
    omega
  have hbound : ((aUniqueId.length : Int) + 1 < KMaxCafUniqueId) ↔
      aUniqueId.length + 1 < KMaxCafUniqueId := by omega
  unfold TVirtualPathPtr.ofCombined
  simp only [locateReverse_combined hid, hlength, hfound, ne_eq, not_false_eq_true, true_and, hbound]
  split
  · have hafter : ((aUri.length : Int) + 1).toNat = (aUri ++ [KCafVirtualPathSeparator]).length := by
      rw [length_append, length_singleton]
      omega
    unfold createCombinedUriUniqueIdL
    rw [hafter, drop_left, List.append_assoc, Int.toNat_natCast, take_left]
  · rfl

theorem internalizeL_back (huri : aUri.length < 2 ^ 31) (hid : aUniqueId.length < 2 ^ 31) :
    ReadsBack internalizeL (newL aUri aUniqueId).externalizeL (newL aUri aUniqueId) :=
  (readDescriptor16L_back huri).bind ((readDescriptor16L_back hid).map rfl)

/-- **The joined form leads back, unless the id is one of the two longest.**  The joined form is
a descriptor, whose length has 28 bits. -/
theorem faithful_iff (hcombined : (createCombinedUriUniqueIdL aUri aUniqueId).length < 2 ^ 28)
    (hid : KCafVirtualPathSeparator ∉ aUniqueId) :
    Faithful aUri aUniqueId ↔ aUniqueId.length + 1 < KMaxCafUniqueId := by
  simp only [createCombinedUriUniqueIdL, length_append, length_singleton] at hcombined
  have hback : ReadsBack _ (newL aUri aUniqueId).externalizeL _ :=
    internalizeL_back (by omega) (by omega)
  unfold Faithful newL
  rw [ofCombined_combined hid]
  constructor
  · intro h
    by_contra hlong
    have huri := congrArg (fun p => p.iUri.length) h.1
    rw [if_neg hlong] at huri
    simp only [createCombinedUriUniqueIdL, length_append, length_singleton] at huri
    omega
  · intro h
    rw [if_pos h]
    exact ⟨rfl, hback⟩

/-- The URI `a|b` with the id `c`. -/
theorem faithful_iff_two_separators : Faithful [97, 124, 98] [99] :=
  (faithful_iff (by decide) (by decide)).mpr (by decide)

/-- An id of the greatest length is taken for a part of the URI. -/
theorem not_faithful_longest :
    (replicate 1024 (99 : UInt16)).length ≤ KMaxCafUniqueId ∧
      KCafVirtualPathSeparator ∉ replicate 1024 (99 : UInt16) ∧
        ¬Faithful [97] (replicate 1024 99) := by
  have hid : KCafVirtualPathSeparator ∉ replicate 1024 (99 : UInt16) := by
    intro h
    exact absurd (eq_of_mem_replicate h) (by decide)
  refine ⟨Nat.le_of_eq length_replicate, hid, ?_⟩
  rw [Faithful, newL, ofCombined_combined hid, length_replicate, if_neg (by decide)]
  intro h
  have huri := congrArg (fun p => p.iUri.length) h.1
  simp only [createCombinedUriUniqueIdL, length_append, length_replicate,
    length_singleton] at huri
  omega

end CVirtualPath

end Caf

end OsSecurity

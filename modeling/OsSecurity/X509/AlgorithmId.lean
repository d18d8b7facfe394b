/-
Algorithm identifiers: `CAlgorithmIdentifier` and the X.509 decoder for it.

The decoder compares the dotted text of the object identifier with the constants of
`x509cert.h`.  For RSA and the digests it then asks the second element of the sequence
to be a NULL and throws it away; what comes after that element it never looks at.
-/
import OsSecurity.Asn1.Decoders

namespace OsSecurity

open TASN1DecObjectIdentifier

variable {d : TAlgorithmId} {oid : Text}

inductive TAlgorithmId where
  | ERSA | EDSA | EDH | EMD2 | EMD5 | ESHA1 | ESHA224 | ESHA256 | ESHA384 | ESHA512
  deriving DecidableEq

structure CAlgorithmIdentifier where
  iAlgorithmId : TAlgorithmId
  iEncodedParams : Bytes
  deriving DecidableEq

def KRSA : Text := dotted [1, 2, 840, 113549, 1, 1, 1]
def KDSA : Text := dotted [1, 2, 840, 10040, 4, 1]
def KDH : Text := dotted [1, 2, 840, 10046, 2, 1]
def KMD5 : Text := dotted [1, 2, 840, 113549, 2, 5]
def KMD2 : Text := dotted [1, 2, 840, 113549, 2, 2]
def KSHA256 : Text := dotted [2, 16, 840, 1, 101, 3, 4, 2, 1]
def KSHA384 : Text := dotted [2, 16, 840, 1, 101, 3, 4, 2, 2]
def KSHA512 : Text := dotted [2, 16, 840, 1, 101, 3, 4, 2, 3]
def KSHA224 : Text := dotted [2, 16, 840, 1, 101, 3, 4, 2, 4]
def KSHA1 : Text := dotted [1, 3, 14, 3, 2, 26]

namespace CX509AlgorithmIdentifier

/-- The identifiers whose branches differ in the algorithm alone, in the order they are
compared. -/
def nullAlgorithms : List (Text × TAlgorithmId) :=
  [(KRSA, .ERSA), (KMD5, .EMD5), (KMD2, .EMD2), (KSHA1, .ESHA1), (KSHA224, .ESHA224),
    (KSHA256, .ESHA256), (KSHA384, .ESHA384), (KSHA512, .ESHA512)]

/-- The branch of an algorithm without parameters: the element must be a NULL. -/
def withNullL (aAlgorithmId : TAlgorithmId) (gen : TASN1DecGeneric) :
    Leaving CAlgorithmIdentifier := do
  TASN1DecNull.decodeDERL gen
  return ⟨aAlgorithmId, []⟩

/-- `InitializeL`, on the elements of the sequence. -/
def initializeSeqL : List TASN1DecGeneric → Leaving CAlgorithmIdentifier
  | [] => leave KErrArgument
  | first :: others => do
    let oidDes ← TASN1DecObjectIdentifier.decodeDERL first
    match others with
    | [] =>
      if oidDes = KDSA then
        return ⟨.EDSA, []⟩
      else
        leave KErrNotSupported
    | gen :: _ =>
      if oidDes = KDSA then
        return ⟨.EDSA, ← gen.encoding⟩
      else if oidDes = KDH then
        return ⟨.EDH, ← gen.encoding⟩
      else match nullAlgorithms.lookup oidDes with
        | some aAlgorithmId => withNullL aAlgorithmId gen
        | none => leave KErrNotSupported

/-- `InitializeL`: the identifier and the position behind it. -/
def initializeL (aBinaryData : Bytes) (aPos : Int) : Leaving (CAlgorithmIdentifier × Int) := do
  let (seq, aPos) ← TASN1DecSequence.decodeRangeLC aBinaryData aPos 1 KMaxTInt
  return (← initializeSeqL seq, aPos)

/-- `NewLC(const TDesC8&)` -/
def newLC (aBinaryData : Bytes) : Leaving CAlgorithmIdentifier := do
  return (← initializeL aBinaryData 0).1

end CX509AlgorithmIdentifier

/-! ### The digests

Seven of the algorithms are digests.  Their branches of `InitializeL` are the same up
to the constant, so one lemma serves all seven.
-/

namespace TAlgorithmId

/-- The constant a digest's object identifier is compared with. -/
def digestOid : TAlgorithmId → Option Text
  | .EMD2 => some KMD2
  | .EMD5 => some KMD5
  | .ESHA1 => some KSHA1
  | .ESHA224 => some KSHA224
  | .ESHA256 => some KSHA256
  | .ESHA384 => some KSHA384
  | .ESHA512 => some KSHA512
  | .ERSA | .EDSA | .EDH => none

/-- The DER contents octets of a digest's object identifier. -/
def digestOctets : TAlgorithmId → Bytes
  | .EMD2 => [0x2a, 0x86, 0x48, 0x86, 0xf7, 0x0d, 0x02, 0x02]
  | .EMD5 => [0x2a, 0x86, 0x48, 0x86, 0xf7, 0x0d, 0x02, 0x05]
  | .ESHA1 => [0x2b, 0x0e, 0x03, 0x02, 0x1a]
  | .ESHA224 => [0x60, 0x86, 0x48, 0x01, 0x65, 0x03, 0x04, 0x02, 0x04]
  | .ESHA256 => [0x60, 0x86, 0x48, 0x01, 0x65, 0x03, 0x04, 0x02, 0x01]
  | .ESHA384 => [0x60, 0x86, 0x48, 0x01, 0x65, 0x03, 0x04, 0x02, 0x02]
  | .ESHA512 => [0x60, 0x86, 0x48, 0x01, 0x65, 0x03, 0x04, 0x02, 0x03]
  | .ERSA | .EDSA | .EDH => []

theorem digestOctets_decode (h : d.digestOid = some oid) :
    (decodeContentsL d.digestOctets).map dotted = .ok oid := by
  cases d <;> cases h <;> decide +kernel

end TAlgorithmId

namespace CX509AlgorithmIdentifier

theorem withNullL_eq_ok {aAlgorithmId : TAlgorithmId} {gen : TASN1DecGeneric}
    {r : CAlgorithmIdentifier} :
    withNullL aAlgorithmId gen = .ok r ↔
      TASN1DecNull.decodeDERL gen = .ok () ∧ r = ⟨aAlgorithmId, []⟩ := by
  unfold withNullL
  simp only [bind_eq_ok, leaving_pure, Except.ok.injEq]
  constructor
  · intro h
    obtain ⟨_, hnull, hr⟩ := h
    exact ⟨hnull, hr.symm⟩
  · intro h
    exact ⟨(), h.1, h.2.symm⟩

section

variable (hd : d.digestOid = some oid)
include hd

/-- With a digest's identifier and two elements, only the digest's own branch is left. -/
private theorem initializeSeqL_of_digest {first gen : TASN1DecGeneric}
    {others : List TASN1DecGeneric} (hoid : decodeDERL first = .ok oid) :
    initializeSeqL (first :: gen :: others) = withNullL d gen := by
  simp only [initializeSeqL, hoid, ok_bind]
  cases d <;> cases hd <;> rfl

/-- No two rows of the table have the same identifier or the same algorithm. -/
private theorem nullAlgorithms_digest {oid' : Text} (h : nullAlgorithms.lookup oid' = some d) :
    oid' = oid := by
  obtain ⟨l, r, hrow, -⟩ := List.lookup_eq_some_iff.mp h
  have hmem : (oid', d) ∈ nullAlgorithms := by
    rw [hrow]
    exact List.mem_append_right _ (List.mem_cons_self ..)
  cases d <;> cases hd <;> simpa [nullAlgorithms] using hmem

/-- A branch that yields a digest without parameters is entered on its identifier. -/
private theorem digest_of_initializeSeqL {first gen : TASN1DecGeneric}
    {others : List TASN1DecGeneric} {oid' : Text} (hoid : decodeDERL first = .ok oid')
    (h : initializeSeqL (first :: gen :: others) = .ok ⟨d, []⟩) : oid' = oid := by
  simp only [initializeSeqL, hoid, ok_bind] at h
  have hparams : ∀ {d' : TAlgorithmId}, d'.digestOid = none →
      ¬ (do return (⟨d', ← gen.encoding⟩ : CAlgorithmIdentifier)) = .ok ⟨d, []⟩ := by
    intro d' hnone hr
    obtain ⟨p, -, hr⟩ := bind_eq_ok.mp hr
    obtain rfl : d' = d := congrArg CAlgorithmIdentifier.iAlgorithmId (Except.ok.inj hr)
    rw [hd] at hnone
    cases hnone
  by_cases hdsa : oid' = KDSA
  · rw [if_pos hdsa] at h
    exact absurd h (hparams rfl)
  by_cases hdh : oid' = KDH
  · rw [if_neg hdsa, if_pos hdh] at h
    exact absurd h (hparams rfl)
  rw [if_neg hdsa, if_neg hdh] at h
  split at h
  · rename_i aAlgorithmId hrow
    obtain ⟨-, hr⟩ := withNullL_eq_ok.mp h
    obtain rfl : d = aAlgorithmId := congrArg CAlgorithmIdentifier.iAlgorithmId hr
    exact nullAlgorithms_digest hd hrow
  · exact absurd h (leave_ne_ok _ _)

/-- **A sequence is taken for a digest exactly when its first element decodes to the
digest's object identifier and its second passes for a NULL.** -/
theorem initializeSeqL_digest {seq : List TASN1DecGeneric} :
    initializeSeqL seq = .ok ⟨d, []⟩ ↔ ∃ first gen others, seq = first :: gen :: others ∧
      decodeDERL first = .ok oid ∧
      TASN1DecNull.decodeDERL gen = .ok () := by
  constructor
  · intro h
    match seq with
    | [] => exact absurd h (leave_ne_ok _ _)
    | [first] =>
      simp only [initializeSeqL] at h
      obtain ⟨oid', -, h⟩ := bind_eq_ok.mp h
      by_cases hdsa : oid' = KDSA
      · rw [if_pos hdsa] at h
        obtain rfl : .EDSA = d :=
          congrArg CAlgorithmIdentifier.iAlgorithmId (Except.ok.inj h)
        cases hd
      · rw [if_neg hdsa] at h
        exact absurd h (leave_ne_ok _ _)
    | first :: gen :: others =>
      obtain ⟨oid', hoid, -⟩ := bind_eq_ok.mp h
      obtain rfl := digest_of_initializeSeqL hd hoid h
      rw [initializeSeqL_of_digest hd hoid] at h
      exact ⟨first, gen, others, rfl, hoid, (withNullL_eq_ok.mp h).1⟩
  · intro h
    obtain ⟨first, gen, others, rfl, hoid, hnull⟩ := h
    rw [initializeSeqL_of_digest hd hoid]
    exact withNullL_eq_ok.mpr ⟨hnull, rfl⟩

end

end CX509AlgorithmIdentifier

end OsSecurity

/-
PKCS#1 signature results: `CPKCS1SignatureResult::VerifyL`.

What an RSA signature decrypts to is a DigestInfo, and DER gives each digest exactly one:
`derDigestInfo`.  `VerifyL` does not compare octets.  It takes the string apart with the
general decoder and compares the pieces, so it accepts every string that falls apart into
the same pieces: `DigestInfoLike`.

The difference is room a forger can fill: tags nobody looks at, lengths in up to 127
octets of which 32 bits count, and a row of arbitrary elements behind the NULL.
`verifyL_eq_true` says that `DigestInfoLike` is exactly what is accepted, and
`verifyL_iff_der` draws the conclusion for the one accepted form.
-/
import OsSecurity.Crypto.RsaSignature
import OsSecurity.X509.AlgorithmId

namespace OsSecurity

open CX509AlgorithmIdentifier Der List TASN1DecSequence

variable {d : TAlgorithmId} {s : Bytes} {oid : Text}

structure CPKCS1SignatureResult where
  iDigestAlgorithm : CAlgorithmIdentifier
  iDigest : Bytes

namespace CPKCS1SignatureResult

def doVerifyL (self : CPKCS1SignatureResult) (aResult : Bytes) : Leaving Bool := do
  let (seq, pos) ← TASN1DecSequence.decodeDERLC aResult 0
  match seq with
  | [gen1, gen2] =>
    let algId ← CX509AlgorithmIdentifier.newLC (← gen1.encoding)
    let digest ← gen2.getContentDER
    return decide (algId = self.iDigestAlgorithm ∧ digest = self.iDigest ∧
      pos = aResult.length)
  | _ => return false

def verifyL (self : CPKCS1SignatureResult) (aResult : Bytes) : Leaving Bool :=
  match self.doVerifyL aResult with
  | .error (.leave err) => if err ≠ KErrNone ∧ err ≠ KErrArgument then leave err else .ok false
  | res => res

end CPKCS1SignatureResult

/-! ### The one DER form, and the form that is accepted -/

/-- The DER DigestInfo of a digest: the algorithm with NULL parameters, then the digest. -/
def derDigestInfo (d : TAlgorithmId) (digest : Bytes) : Bytes :=
  Der.element 0x30 (Der.element 0x30 (Der.element 0x06 d.digestOctets ++ [0x05, 0x00]) ++
    Der.element 0x04 digest)

/-- The contents of what passes for an algorithm identifier: an element whose contents
decode to the identifier, two octets that pass for a NULL, and any elements at all. -/
def AlgorithmLike (oid : Text) (c : Bytes) : Prop :=
  ∃ t l o n extra T, Element c t l o (n :: 0 :: extra) T ∧
    (TASN1DecObjectIdentifier.decodeContentsL o).map dotted = .ok oid ∧
    n &&& 0x1f ≠ 0x1f ∧ n &&& 0x05 ≠ 0 ∧ ElementRow extra

/-- What passes for a DigestInfo: an element around two, the first of them around
something like the algorithm and the second around the digest. -/
def DigestInfoLike (oid : Text) (digest s : Bytes) : Prop :=
  ∃ t l a d T, Element s t l (a ++ d) [] T ∧
    (∃ t l c T, Element a t l c [] T ∧ AlgorithmLike oid c) ∧
    ∃ t l T, Element d t l digest [] T

/-! ### DER is one of the forms -/

private theorem lengthValue_append (L : Int) (ls : Bytes) (b : UInt8) :
    lengthValue L (ls ++ [b]) = TInt.wrap (TInt.wrap (lengthValue L ls * 256) + b.toNat) := by
  simp [lengthValue]

theorem lengthValue_octets (n : Nat) (h : (n : Int) ≤ KMaxTInt) : lengthValue 0 (octets n) = n := by
  induction n using Nat.strongRecOn with
  | _ n ih =>
      rcases Nat.eq_zero_or_pos n with h0 | hpos
      · rw [h0, octets_zero]
        rfl
      · have hdiv := ih (n / 256) (by omega) (by omega)
        have hlow : (n % 256).toUInt8.toNat = n % 256 := by
          rw [Nat.toUInt8_eq, UInt8.toNat_ofNat']
          omega
        unfold KMaxTInt at h
        have hshift : TInt.wrap (((n / 256 : Nat) : Int) * 256) = (n / 256 : Nat) * 256 :=
          TInt.wrap_of_range (by unfold KMinTInt; omega) (by unfold KMaxTInt; omega)
        rw [octets_succ hpos, lengthValue_append, hdiv, hlow,
          hshift, TInt.wrap_of_range (by unfold KMinTInt; omega) (by unfold KMaxTInt; omega)]
        omega

theorem lengthOctets_der (n : Nat) (h : (n : Int) ≤ KMaxTInt) :
    LengthOctets (lengthOctets n) n := by
  unfold lengthOctets
  by_cases hshort : n < 128
  · rw [if_pos hshort]
    have hn : n.toUInt8.toNat = n := by
      rw [Nat.toUInt8_eq, UInt8.toNat_ofNat']
      omega
    have hlt : n.toUInt8 < 128 := by
      rw [UInt8.lt_iff_toNat_lt, hn]
      exact hshort
    have := LengthOctets.short hlt
    rwa [hn] at this
  · rw [if_neg hshort, ← lengthValue_octets n h]
    have hpos : 0 < (octets n).length := octets_length_pos (by omega)
    have hle : (octets n).length ≤ 4 :=
      octets_length_le (by unfold KMaxTInt at h; omega)
    have hcount : ∀ k, 0 < k → k ≤ 4 → 128 < (128 + k).toUInt8 ∧
        k = ((128 + k).toUInt8 &&& 127).toNat := by
      intro k h1 h2
      interval_cases k <;> decide
    exact .long (hcount _ hpos hle).1 (hcount _ hpos hle).2

/-- A DER element with something in it is an element to the decoder. -/
theorem element_der {tag : UInt8} (contents rest : Bytes) (htag : tag &&& 0x1f ≠ 0x1f)
    (h : (contents.length : Int) ≤ KMaxTInt) :
    Element (element tag contents ++ rest) [tag] (lengthOctets contents.length) contents
      rest (tag &&& 0x1f).toUInt32 := by
  refine ⟨by simp [element], .low htag, lengthOctets_der _ h, ?_⟩
  intro hlong hnil
  rw [(append_eq_nil_iff.mp hnil).1] at hlong
  exact absurd hlong (by decide)

theorem element_length (tag : UInt8) (contents : Bytes) :
    contents.length ≤ (element tag contents).length := by
  simp [element]
  omega

theorem digestInfoLike_der {digest : Bytes} (hd : d.digestOid = some oid)
    (hlen : (derDigestInfo d digest).length ≤ KMaxTInt) :
    DigestInfoLike oid digest (derDigestInfo d digest) := by
  have h1 := element_length 0x30 (element 0x30 (element 0x06 d.digestOctets ++
    [0x05, 0x00]) ++ element 0x04 digest)
  have h2 := element_length 0x30 (element 0x06 d.digestOctets ++ [0x05, 0x00])
  have h3 := element_length 0x04 digest
  have h4 := element_length 0x06 d.digestOctets
  simp only [length_append] at h1 h2
  unfold derDigestInfo at hlen ⊢
  have h30 : (0x30 : UInt8) &&& 0x1f ≠ 0x1f := by decide
  have houter := element_der (element 0x30 (element 0x06 d.digestOctets ++
    [0x05, 0x00]) ++ element 0x04 digest) [] h30 (by simp only [length_append] at hlen ⊢; omega)
  have halg := element_der (element 0x06 d.digestOctets ++ [0x05, 0x00]) [] h30
    (by simp only [length_append]; omega)
  have hdig := element_der digest [] (show (0x04 : UInt8) &&& 0x1f ≠ 0x1f by decide) (by omega)
  have hoid := element_der d.digestOctets [0x05, 0x00]
    (show (0x06 : UInt8) &&& 0x1f ≠ 0x1f by decide) (by omega)
  rw [append_nil] at houter halg hdig
  exact ⟨_, _, _, _, _, houter, ⟨_, _, _, _, halg, _, _, _, 0x05, [], _, hoid,
    TAlgorithmId.digestOctets_decode hd, by decide, by decide, .nil⟩, _, _, _, hdig⟩

/-! ### What `VerifyL` accepts -/

/-- The octets of an element that passes for a NULL. -/
private theorem null_ok {enc body rest : Bytes} {g : TASN1DecGeneric} (hlen : s.length ≤ KMaxTInt)
    (h : Holds s g enc body rest) :
    TASN1DecNull.decodeDERL g = .ok () ↔
      ∃ n, enc = [n, 0] ∧ n &&& 0x1f ≠ 0x1f ∧ n &&& 0x05 ≠ 0 := by
  unfold TASN1DecNull.decodeDERL
  rw [h.encoding, ok_bind]
  refine ⟨fun hok => ?_, fun hn => ?_⟩
  · match enc, h, hok with
    | [b, c], h, hok =>
      simp only at hok
      split at hok
      · exact absurd hok (leave_ne_ok _ _)
      · rename_i hbc
        simp only [ne_eq, not_or, not_not] at hbc
        obtain ⟨rfl, hb⟩ := hbc
        obtain ⟨t, l, T, henc, he, -⟩ := (holds_iff hlen).mp h
        -- two octets are a tag and a length, so the tag is in the low form
        cases he.tag with
        | @low b' hb' =>
          simp only [cons_append, List.cons.injEq] at henc
          exact ⟨b, rfl, henc.1 ▸ hb', hb⟩
        | @high b' c' cs hb' hcs hc' =>
          have hl := length_pos_iff.mpr he.length.ne_nil
          have := congrArg List.length henc
          simp at this
          omega
    | [], h, hok => exact absurd hok (leave_ne_ok _ _)
    | [b], h, hok => exact absurd hok (leave_ne_ok _ _)
    | b :: c :: e :: bs, h, hok => exact absurd hok (leave_ne_ok _ _)
  · obtain ⟨n, rfl, -, hn5⟩ := hn
    simp only
    rw [if_neg (by simp only [ne_eq, not_true_eq_false, false_or]; exact hn5)]

/-- A row of exactly two elements, as octets. -/
private theorem elements_pair {g1 g2 : TASN1DecGeneric} (h : Elements s [g1, g2]) :
    ∃ a d c e, s = a ++ d ∧ Holds s g1 a c d ∧ Holds d g2 d e [] := by
  cases h with
  | @cons _ a c d _ _ h1 hs =>
      cases hs with
      | @cons _ d' e r _ _ h2 hs =>
        cases hs with
        | nil =>
          have hd : d = d' := by rw [h2.source, append_nil]
          subst hd
          exact ⟨a, d, c, e, h1.source, h1, h2⟩

theorem algorithmLike_iff {c : Bytes} (hd : d.digestOid = some oid) (hlen : c.length ≤ KMaxTInt) :
    (∃ seq, Elements c seq ∧ initializeSeqL seq = .ok ⟨d, []⟩) ↔
      AlgorithmLike oid c := by
  refine ⟨fun h => ?_, fun h => ?_⟩
  · obtain ⟨seq, hseq, hinit⟩ := h
    obtain ⟨first, gen, others, rfl, hoid, hnull⟩ :=
      (initializeSeqL_digest hd).mp hinit
    cases hseq with
    | @cons _ enc o rest _ _ hfirst hs =>
      cases hs with
      | @cons _ enc' body' extra _ _ hgen hs =>
        have h1 := congrArg List.length hfirst.source
        have h2 := congrArg List.length hgen.source
        rw [length_append] at h1 h2
        obtain ⟨n, rfl, hn, hn5⟩ := (null_ok (by omega) hgen).mp hnull
        obtain ⟨t, l, T, -, he, -⟩ := (holds_iff hlen).mp hfirst
        rw [hgen.source] at he
        rw [TASN1DecObjectIdentifier.decodeDERL_of_content hfirst.content] at hoid
        exact ⟨t, l, o, n, extra, T, he, hoid, hn, hn5, (elementRow_iff (by omega)).mpr ⟨_, hs⟩⟩
  · obtain ⟨t, l, o, n, extra, T, he, hoid, hn, hn5, hrow⟩ := h
    have h1 := congrArg List.length he.source
    simp only [length_append, length_cons] at h1
    obtain ⟨gs, hgs⟩ := (elementRow_iff (by omega)).mp hrow
    have hnull : Element (n :: 0 :: extra) [n] [0] [] extra (n &&& 0x1f).toUInt32 :=
      ⟨rfl, .low hn, .short (by decide), by simp⟩
    have hfirst := (holds_iff hlen).mpr ⟨t, l, T, rfl, he, rfl⟩
    have hgen := (holds_iff (by simp only [length_cons]; omega)).mpr ⟨_, _, _, rfl, hnull, rfl⟩
    refine ⟨_, .cons hfirst (.cons hgen hgs),
      (initializeSeqL_digest hd).mpr ⟨_, _, gs, rfl, ?_, ?_⟩⟩
    · rw [TASN1DecObjectIdentifier.decodeDERL_of_content hfirst.content]
      exact hoid
    · exact (null_ok (by simp only [length_cons]; omega) hgen).mpr ⟨n, rfl, hn, hn5⟩

/-- The encoding of one element, decoded again as an algorithm identifier. -/
private theorem newLC_digest {a t l c : Bytes} {T : UInt32} {rest : Bytes}
    (hd : d.digestOid = some oid) (hlen : s.length ≤ KMaxTInt) (hs : s = a ++ rest)
    (henc : a = t ++ l ++ c) (he : Element s t l c rest T) :
    newLC a = .ok ⟨d, []⟩ ↔
      Element a t l c [] T ∧ AlgorithmLike oid c := by
  have hs' := congrArg List.length hs
  rw [length_append] at hs'
  have hc : (c.length : Int) ≤ KMaxTInt := by
    have := congrArg List.length henc
    simp only [length_append] at this
    omega
  simp only [newLC, initializeL,
    bind_eq_ok, leaving_pure, Except.ok.injEq, Prod.exists, Prod.mk.injEq, decodeRangeLC_eq_ok]
  refine ⟨fun h => ?_, fun h => ?_⟩
  · obtain ⟨d', pos', ⟨seq, pos, ⟨hdec, -, -⟩, d'', hinit, rfl, rfl⟩, rfl⟩ := h
    obtain ⟨g, enc, body, r, hg, hseq, -⟩ :=
      (decodeDERLC_eq_ok (by omega)).mp hdec
    obtain ⟨t', l', T', -, he', -⟩ := (holds_iff (by omega)).mp hg
    -- the element is the same one whether or not something follows it
    have hext := TASN1DecGeneric.Element.extend he' rest
    rw [← hs] at hext
    obtain ⟨rfl, rfl, rfl, hr, rfl⟩ := TASN1DecGeneric.Element.unique he hext
    obtain rfl : r = [] := append_left_eq_self.mp hr.symm
    exact ⟨he', (algorithmLike_iff hd hc).mp ⟨seq, hseq, hinit⟩⟩
  · obtain ⟨he', hlike⟩ := h
    obtain ⟨seq, hseq, hinit⟩ := (algorithmLike_iff hd hc).mpr hlike
    have hg := (holds_iff (by omega)).mpr ⟨t, l, T, rfl, he', rfl⟩
    have hcount := hseq.length_le
    obtain ⟨first, gen, others, rfl, -, -⟩ :=
      (initializeSeqL_digest hd).mp hinit
    refine ⟨_, _, ⟨_, _, ⟨(decodeDERLC_eq_ok (by omega)).mpr
      ⟨_, _, _, _, hg, hseq, rfl⟩, ?_, by omega⟩, _, hinit, rfl, rfl⟩, rfl⟩
    simp only [length_cons]
    omega

namespace CPKCS1SignatureResult

private theorem verifyL_eq_true_iff {self : CPKCS1SignatureResult} {aResult : Bytes} :
    self.verifyL aResult = .ok true ↔ self.doVerifyL aResult = .ok true := by
  unfold verifyL
  split
  · rename_i err h
    rw [h]
    split
    · simp [leave]
    · simp
  · rfl

/-- **`VerifyL` accepts exactly the strings that fall apart into the digest's pieces.** -/
theorem verifyL_eq_true {digest : Bytes} (hd : d.digestOid = some oid)
    (hlen : s.length ≤ KMaxTInt) :
    verifyL ⟨⟨d, []⟩, digest⟩ s = .ok true ↔ DigestInfoLike oid digest s := by
  rw [verifyL_eq_true_iff]
  unfold doVerifyL
  simp only [bind_eq_ok, Prod.exists]
  refine ⟨fun h => ?_, fun h => ?_⟩
  · obtain ⟨seq, pos, hdec, h⟩ := h
    obtain ⟨g, enc, body, rest, hg, hseq, rfl⟩ :=
      (decodeDERLC_eq_ok hlen).mp hdec
    split at h
    · rename_i gen1 gen2
      obtain ⟨a, dd, c, e, hbody, h1, h2⟩ := elements_pair hseq
      simp only [h1.encoding, h2.content, ok_bind, bind_eq_ok, leaving_pure,
        Except.ok.injEq, decide_eq_true_eq] at h
      obtain ⟨algId, hnew, rfl, rfl, hpos⟩ := h
      have hs := congrArg List.length hg.source
      have hb := congrArg List.length hbody
      have hh := hg.header
      simp only [length_append] at hs hb
      obtain rfl : rest = [] := length_eq_zero_iff.mp (by omega)
      obtain ⟨t, l, T, -, he, -⟩ := (holds_iff hlen).mp hg
      obtain ⟨t1, l1, T1, ha, he1, -⟩ := (holds_iff (by omega)).mp h1
      obtain ⟨t2, l2, T2, -, he2, -⟩ := (holds_iff (by omega)).mp h2
      rw [hbody] at he
      exact ⟨t, l, a, dd, T, he, ⟨t1, l1, c, T1,
        (newLC_digest hd (by omega) hbody ha he1).mp hnew⟩, t2, l2, T2, he2⟩
    · simp at h
  · obtain ⟨t, l, a, dd, T, he, ⟨t1, l1, c, T1, he1, hlike⟩, t2, l2, T2, he2⟩ := h
    have hs := congrArg List.length he.source
    simp only [length_append] at hs
    have hg := (holds_iff hlen).mpr ⟨t, l, T, rfl, he, rfl⟩
    have hext := TASN1DecGeneric.Element.extend he1 dd
    rw [nil_append] at hext
    have ha : a = t1 ++ l1 ++ c := by
      have := he1.source
      rwa [append_nil] at this
    have h1 := (holds_iff (by rw [length_append]; omega)).mpr
      ⟨t1, l1, T1, rfl, hext, rfl⟩
    have h2 := (holds_iff (by omega)).mpr ⟨t2, l2, T2, rfl, he2, rfl⟩
    refine ⟨_, _, (decodeDERLC_eq_ok hlen).mpr ⟨_, _, _, _, hg, .cons h1 (.cons h2 .nil), rfl⟩, ?_⟩
    simp only [h1.encoding, h2.content, ok_bind]
    rw [← ha, (newLC_digest hd (by rw [length_append]; omega) rfl ha hext).mpr ⟨he1, hlike⟩,
      ok_bind]
    simp only [leaving_pure, Except.ok.injEq, decide_eq_true_eq, true_and]
    simp only [length_append, length_nil] at hs ⊢
    omega

/-- **`VerifyL` is right about a string exactly when the string is not another spelling of
the DER DigestInfo.** -/
theorem verifyL_iff_der {d : TAlgorithmId} {oid : Text} {digest s : Bytes}
    (hd : d.digestOid = some oid) (hlen : s.length ≤ KMaxTInt) :
    (verifyL ⟨⟨d, []⟩, digest⟩ s = .ok true ↔ s = derDigestInfo d digest) ↔
      ¬ (DigestInfoLike oid digest s ∧ s ≠ derDigestInfo d digest) := by
  rw [verifyL_eq_true hd hlen]
  refine ⟨fun h hbad => hbad.2 (h.mp hbad.1), fun h => ⟨fun hlike => ?_, fun hs => ?_⟩⟩
  · exact Classical.byContradiction fun hne => h ⟨hlike, hne⟩
  · rw [hs] at hlen ⊢
    exact digestInfoLike_der hd hlen

/-- The theorem at a SHA-1 digest of all zeros and its DER DigestInfo. -/
theorem verifyL_iff_der_sha1 :
    let digest := replicate 20 0
    let s := derDigestInfo .ESHA1 digest
    (verifyL ⟨⟨.ESHA1, []⟩, digest⟩ s = .ok true ↔ s = derDigestInfo .ESHA1 digest) ↔
      ¬ (DigestInfoLike KSHA1 digest s ∧ s ≠ derDigestInfo .ESHA1 digest) :=
  verifyL_iff_der (d := .ESHA1) rfl (by decide)

/-- Two octets of the sender's choice, as a third element of the algorithm identifier. -/
theorem verifyL_free_octets :
    let digest := replicate 20 0
    let s := [0x30, 0x25, 0x30, 0x0d, 0x06, 0x05, 0x2b, 0x0e, 0x03, 0x02, 0x1a, 0x05, 0x00,
      0x04, 0x02, 0xde, 0xad, 0x04, 0x14] ++ digest
    ¬ (verifyL ⟨⟨.ESHA1, []⟩, digest⟩ s = .ok true ↔ s = derDigestInfo .ESHA1 digest) := by
  decide

end CPKCS1SignatureResult

open TASN1DecGeneric in
/-- What passes for a DigestInfo does so for one digest. -/
theorem digestInfoLike_unique {digest digest' : Bytes} (h : DigestInfoLike oid digest s)
    (h' : DigestInfoLike oid digest' s) : digest = digest' := by
  obtain ⟨_, _, a, b, _, hs, ⟨_, _, _, _, ha, -⟩, _, _, _, hb⟩ := h
  obtain ⟨_, _, a', b', _, hs', ⟨_, _, _, _, ha', -⟩, _, _, _, hb'⟩ := h'
  obtain ⟨-, -, hcontents, -⟩ := Element.unique hs hs'
  have hfirst := Element.extend ha b
  rw [hcontents] at hfirst
  obtain ⟨-, -, -, hrest, -⟩ := Element.unique hfirst (Element.extend ha' b')
  rw [nil_append, nil_append] at hrest
  rw [hrest] at hb
  exact (Element.unique hb hb').2.2.1

end OsSecurity

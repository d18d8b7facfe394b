/-
The chain that validation returns, and why it says which certificate signed.

The chain is the encodings of the certificates one behind the other, the signer's first.
`chainEncodingL_found` is what the two loops over the array build, in a buffer that is just
long enough.  An encoding is one element and shows where it ends, so two chains that are equal
begin with the same certificate: `Decoded.eq_of_append`.
-/
import OsSecurity.Pkcs7.SignedObject
import OsSecurity.X509.DataElements

namespace OsSecurity

open List TASN1DecSequence

variable {encodings : List (Option Bytes)}

/-! ### The buffer -/

/-- The encodings one behind the other. -/
def joined (encodings : List (Option Bytes)) : Bytes := encodings.flatMap (·.getD [])

@[simp] theorem joined_nil : joined [] = [] := rfl

@[simp] theorem joined_cons_none (encodings : List (Option Bytes)) :
    joined (none :: encodings) = joined encodings := rfl

@[simp] theorem joined_cons_some (aEncoding : Bytes) (encodings : List (Option Bytes)) :
    joined (some aEncoding :: encodings) = aEncoding ++ joined encodings := rfl

theorem joined_length {i : Nat} {aEncoding : Bytes} (h : encodings[i]? = some (some aEncoding)) :
    (joined encodings).length = aEncoding.length + (joined (encodings.eraseIdx i)).length := by
  induction encodings generalizing i with
  | nil => simp at h
  | cons e encodings ih =>
      cases i with
      | zero =>
        simp only [getElem?_cons_zero, Option.some.injEq] at h
        rw [h, eraseIdx_cons_zero, joined_cons_some, length_append]
      | succ i =>
        have hrest := ih (by simpa using h)
        cases e with
        | none => simpa using hrest
        | some e =>
          simp only [eraseIdx_cons_succ, joined_cons_some, length_append]
          omega

theorem appendWithin_ok {n : Nat} {d aDes : Bytes} (h : d.length + aDes.length ≤ n) :
    appendWithin n d aDes = .ok (d ++ aDes) := if_neg (Nat.not_lt.mpr h)

/-- Behind the end entity nothing is left out. -/
theorem appendOthers_behind {n cert : Nat} {endEntityPos : Int} {encodingPtr : Bytes}
    (hpos : endEntityPos < cert) (hfit : encodingPtr.length + (joined encodings).length ≤ n) :
    appendOthers n endEntityPos cert encodings encodingPtr =
      .ok (encodingPtr ++ joined encodings) := by
  induction encodings generalizing cert encodingPtr with
  | nil => simp [appendOthers]
  | cons e encodings ih =>
      cases e with
      | none => exact ih (by omega) hfit
      | some aEncoding =>
        rw [joined_cons_some, length_append] at hfit
        have hne : (cert : Int) ≠ endEntityPos := by omega
        rw [appendOthers, if_neg hne, appendWithin_ok (by omega), ok_bind,
          ih (by omega) (by rw [length_append]; omega), joined_cons_some,
          List.append_assoc]

theorem appendOthers_eq {n cert k : Nat} {encodingPtr : Bytes}
    (hfit : encodingPtr.length + (joined (encodings.eraseIdx k)).length ≤ n) :
    appendOthers n ((cert + k : Nat) : Int) cert encodings encodingPtr =
      .ok (encodingPtr ++ joined (encodings.eraseIdx k)) := by
  induction encodings generalizing cert k encodingPtr with
  | nil => simp [appendOthers]
  | cons e encodings ih =>
      cases k with
      | zero =>
        have hpos : (cert : Int) < ((cert + 1 : Nat) : Int) := by omega
        rw [eraseIdx_cons_zero] at hfit ⊢
        rw [Nat.add_zero]
        cases e with
        | none =>
          rw [appendOthers]
          exact appendOthers_behind hpos hfit
        | some aEncoding =>
          rw [appendOthers, if_pos rfl]
          exact appendOthers_behind hpos hfit
      | succ k =>
        have hmove : cert + (k + 1) = cert + 1 + k := by omega
        rw [eraseIdx_cons_succ] at hfit ⊢
        rw [hmove]
        cases e with
        | none => exact ih hfit
        | some aEncoding =>
          rw [joined_cons_some, length_append] at hfit
          have hne : (cert : Int) ≠ ((cert + 1 + k : Nat) : Int) := by omega
          rw [appendOthers, if_neg hne, appendWithin_ok (by omega), ok_bind,
            ih (by rw [length_append]; omega), joined_cons_some, List.append_assoc]

/-- **The chain**: the end entity, and then all the others in order. -/
theorem chainEncodingL_found {i : Nat} {aEncoding : Bytes}
    (h : encodings[i]? = some (some aEncoding)) (valid : Bool) :
    chainEncodingL ⟨i, (joined encodings).length, aEncoding, valid⟩ encodings =
      .ok (valid, aEncoding ++ joined (encodings.eraseIdx i)) := by
  have hlen := joined_length h
  have hne : (i : Int) ≠ -1 := by omega
  have hothers : appendOthers (joined encodings).length i 0 encodings aEncoding =
      .ok (aEncoding ++ joined (encodings.eraseIdx i)) := by
    have heq : appendOthers (joined encodings).length ((0 + i : Nat) : Int) 0 encodings
        aEncoding = .ok (aEncoding ++ joined (encodings.eraseIdx i)) :=
      appendOthers_eq (Nat.le_of_eq hlen.symm)
    rwa [Nat.zero_add] at heq
  unfold chainEncodingL
  simp only [if_neg hne]
  rw [appendWithin_ok (by simp; omega), ok_bind, nil_append, hothers]
  rfl

/-! ### Certificates and their encodings -/

namespace CX509Certificate

variable {pf : Platform} {c d : CX509Certificate} {aBinaryData : Bytes}

/-- What `NewL` has looked at before it decodes the parts. -/
theorem newL_row (h : newL pf aBinaryData = .ok c) :
    (∃ pos, encodingL aBinaryData 0 = .ok (c.iEncoding, pos)) ∧
      ∃ row, decodeRangeLC c.iEncoding 0 3 3 = .ok row := by
  obtain ⟨⟨r, pos⟩, hr, h⟩ := bind_eq_ok.mp h
  obtain ⟨⟨iEncoding, aPos⟩, henc, hr⟩ := bind_eq_ok.mp hr
  obtain ⟨row, hrow, hr⟩ := bind_eq_ok.mp hr
  cases h
  split at hr
  · obtain ⟨_, -, hr⟩ := bind_eq_ok.mp hr
    obtain ⟨_, -, hr⟩ := bind_eq_ok.mp hr
    obtain ⟨_, -, hr⟩ := bind_eq_ok.mp hr
    obtain ⟨r', hr', hr⟩ := bind_eq_ok.mp hr
    cases hr
    obtain ⟨seq, hseq, hr'⟩ := bind_eq_ok.mp hr'
    obtain ⟨⟨iVersion, version, fields⟩, hv, hr'⟩ := bind_eq_ok.mp hr'
    obtain ⟨hcert, -⟩ := constructFieldsL_ok hr'
    rw [hcert]
    exact ⟨⟨_, henc⟩, row, hrow⟩
  · exact absurd hr (panic_ne_ok _)

theorem encodingL_iff {enc : Bytes} (hlen : aBinaryData.length ≤ KMaxTInt) :
    (∃ pos, encodingL aBinaryData 0 = .ok (enc, pos)) ↔
      ∃ gen, TASN1DecGeneric.initL aBinaryData = .ok gen ∧ gen.tag = EASN1Sequence ∧
        gen.encoding = .ok enc := by
  have hright : TDes.right aBinaryData (TInt.wrap (aBinaryData.length - 0)) = .ok aBinaryData := by
    rw [Int.sub_zero, TInt.wrap_of_range (by unfold KMinTInt; omega) hlen]
    unfold TDes.right
    rw [if_neg (by omega)]
    simp
  unfold encodingL
  rw [hright, ok_bind]
  constructor
  · intro h
    obtain ⟨pos, h⟩ := h
    obtain ⟨gen, hgen, h⟩ := bind_eq_ok.mp h
    by_cases htag : gen.tag ≠ EASN1Sequence
    · simp [htag] at h
    · simp only [if_neg htag] at h
      obtain ⟨enc', henc, h⟩ := bind_eq_ok.mp h
      cases h
      exact ⟨gen, hgen, not_not.mp htag, henc⟩
  · intro h
    obtain ⟨gen, hgen, htag, henc⟩ := h
    refine ⟨TInt.wrap (0 + gen.lengthDER), ?_⟩
    rw [hgen, ok_bind, henc]
    simp [htag]

/-- Behind the encoding nothing of the data is looked at. -/
theorem newL_congr {aBinaryData' enc : Bytes} {pos pos' : Int}
    (h : encodingL aBinaryData 0 = .ok (enc, pos))
    (h' : encodingL aBinaryData' 0 = .ok (enc, pos')) :
    newL pf aBinaryData = newL pf aBinaryData' := by
  unfold newL constructL
  rw [h, h', ok_bind, ok_bind]
  cases hrow : decodeRangeLC enc 0 3 3 with
  | error e => simp only [hrow, leaving_bind_error]
  | ok row =>
      simp only [hrow, ok_bind]
      split
      · simp only [bind_assoc, leaving_pure, ok_bind]
      · rfl

/-- The element that a certificate's data begins with. -/
theorem newL_holds (hlen : aBinaryData.length ≤ KMaxTInt) (h : newL pf aBinaryData = .ok c) :
    ∃ g body rest, Holds aBinaryData g c.iEncoding body rest ∧ g.tag = EASN1Sequence := by
  obtain ⟨henc, -⟩ := newL_row h
  obtain ⟨g, hinit, htag, henc⟩ := (encodingL_iff hlen).mp henc
  have hpos : ¬ g.lengthDER < 0 := by
    intro hneg
    unfold TASN1DecGeneric.encoding TDes.left at henc
    rw [if_pos hneg] at henc
    exact absurd henc (panic_ne_ok _)
  obtain ⟨enc, body, rest, hg⟩ := Holds.of_initL hlen hinit hpos
  obtain rfl : enc = c.iEncoding := Except.ok.inj (hg.encoding.symm.trans henc)
  exact ⟨g, body, rest, hg, htag⟩

/-- An encoding is one element and nothing behind it. -/
theorem newL_element (hlen : c.iEncoding.length ≤ KMaxTInt)
    (h : newL pf c.iEncoding = .ok d) (hsame : d.iEncoding = c.iEncoding) :
    ∃ t l body T, c.iEncoding = t ++ l ++ body ∧ Element c.iEncoding t l body [] T := by
  obtain ⟨henc, ⟨items, pos'⟩, hrow⟩ := newL_row h
  rw [hsame] at henc hrow
  obtain ⟨hder, -⟩ := decodeRangeLC_eq_ok.mp hrow
  obtain ⟨g, enc, body, rest, hg, -, -⟩ := (decodeDERLC_eq_ok hlen).mp hder
  obtain ⟨gen, hinit, -, hgen⟩ := (encodingL_iff hlen).mp henc
  obtain rfl : gen = g := Except.ok.inj (hinit.symm.trans hg.init)
  obtain rfl : enc = c.iEncoding := Except.ok.inj (hg.encoding.symm.trans hgen)
  obtain rfl : rest = [] := by simpa using hg.source
  obtain ⟨t, l, T, henc, he, -⟩ := (holds_iff hlen).mp hg
  exact ⟨t, l, body, T, henc, he⟩

/-- **Every certificate that `NewL` makes is what its encoding decodes to.** -/
theorem decoded_of_newL (hlen : aBinaryData.length ≤ KMaxTInt)
    (h : newL pf aBinaryData = .ok c) : c.Decoded pf := by
  obtain ⟨g, body, rest, hg, htag⟩ := newL_holds hlen h
  have hshort : c.iEncoding.length ≤ KMaxTInt := by
    have hsource := congrArg List.length hg.source
    rw [length_append] at hsource
    omega
  obtain ⟨⟨pos, henc⟩, ⟨items, pos'⟩, hrow⟩ := newL_row h
  obtain ⟨hder, -⟩ := decodeRangeLC_eq_ok.mp hrow
  obtain ⟨g', enc, body', rest', hg', -, -⟩ :=
    (decodeDERLC_eq_ok hshort).mp hder
  obtain ⟨t, l, T, ht, he, rfl⟩ := (holds_iff hlen).mp hg
  obtain ⟨t', l', T', ht', he', rfl⟩ := (holds_iff hshort).mp hg'
  -- the element of the encoding is the element of the data
  have hextend := TASN1DecGeneric.Element.extend he' rest
  rw [← hg.source] at hextend
  obtain ⟨rfl, rfl, rfl, -, rfl⟩ := TASN1DecGeneric.Element.unique he hextend
  rw [← ht] at ht'
  obtain ⟨pos'', hagain⟩ := (encodingL_iff hshort).mpr ⟨_, hg'.init, htag, ht' ▸ hg'.encoding⟩
  exact ⟨hshort, c.iDataElements, by rw [← newL_congr henc hagain, h]⟩

end CX509Certificate

namespace CX509Certificate.Decoded

variable {pf : Platform} {c d : CX509Certificate}

/-- The first of two rows that are equal shows in its encoding. -/
theorem encoding_eq {x y : Bytes} (hc : c.Decoded pf) (hd : d.Decoded pf)
    (h : c.iEncoding ++ x = d.iEncoding ++ y) : c.iEncoding = d.iEncoding := by
  obtain ⟨tc, hcnew⟩ := hc.newL
  obtain ⟨td, hdnew⟩ := hd.newL
  obtain ⟨t, l, body, T, henc, he⟩ := newL_element hc.length hcnew rfl
  obtain ⟨t', l', body', T', henc', he'⟩ := newL_element hd.length hdnew rfl
  have hx := TASN1DecGeneric.Element.extend he x
  have hy := TASN1DecGeneric.Element.extend he' y
  rw [h] at hx
  obtain ⟨rfl, rfl, rfl, -, -⟩ := TASN1DecGeneric.Element.unique hx hy
  rw [henc, henc']

/-- The certificate that an encoding stands for, but for the table. -/
theorem eq_of_encoding (hc : c.Decoded pf) (hd : d.Decoded pf)
    (h : c.iEncoding = d.iEncoding) : c = { d with iDataElements := c.iDataElements } := by
  obtain ⟨tc, hcnew⟩ := hc.newL
  obtain ⟨td, hdnew⟩ := hd.newL
  have hnew := congrArg (CX509Certificate.newL pf) h
  have hsame := Except.ok.inj (hcnew.symm.trans (hnew.trans hdnew))
  exact congrArg (fun e : CX509Certificate => { e with iDataElements := c.iDataElements }) hsame

end CX509Certificate.Decoded

/-! ### Chains and who they vouch for -/

section

variable {pf : Platform} {certs : List (Option (DecodedCertificate pf))} {i : Nat}
  {c : DecodedCertificate pf}

/-- The encodings of the X.509 certificates of a list, by position. -/
def encodingsOf (certs : List (Option (DecodedCertificate pf))) : List (Option Bytes) :=
  certs.map (Option.map (·.val.iEncoding))

/-- A certificate of a list, followed by all the others in order. -/
def chainOf (certs : List (Option (DecodedCertificate pf))) (i : Nat)
    (c : DecodedCertificate pf) : Bytes :=
  c.val.iEncoding ++ joined (encodingsOf (certs.eraseIdx i))

theorem chainEncodingL_chainOf (h : certs[i]? = some (some c)) (valid : Bool) :
    chainEncodingL ⟨i, (joined (encodingsOf certs)).length, c.val.iEncoding, valid⟩
      (encodingsOf certs) = .ok (valid, chainOf certs i c) := by
  have hi : (encodingsOf certs)[i]? = some (some c.val.iEncoding) := by
    unfold encodingsOf
    rw [getElem?_map, h]
    rfl
  rw [chainEncodingL_found hi]
  unfold chainOf encodingsOf
  rw [eraseIdx_map]

/-- The chain is that of a certificate of the list that is as it should be. -/
def VouchedBy (good : CX509Certificate → Prop) (certs : List (Option (DecodedCertificate pf)))
    (chain : Bytes) : Prop :=
  ∃ i c, certs[i]? = some (some c) ∧ good c.val ∧ chain = chainOf certs i c

/-- The table of data elements does not matter. -/
def TableFree (good : CX509Certificate → Prop) : Prop :=
  ∀ c table, good c → good { c with iDataElements := table }

/-- **A chain vouches for the certificate it begins with.** -/
theorem vouchedBy_chainOf {good : CX509Certificate → Prop} (hfree : TableFree good)
    (h : certs[i]? = some (some c)) : VouchedBy good certs (chainOf certs i c) ↔ good c.val := by
  refine ⟨fun hv => ?_, fun hgood => ⟨i, c, h, hgood, rfl⟩⟩
  obtain ⟨j, d, -, hgood, hchain⟩ := hv
  have henc := c.property.encoding_eq d.property hchain
  rw [c.property.eq_of_encoding d.property henc]
  exact hfree _ _ hgood

end

end OsSecurity

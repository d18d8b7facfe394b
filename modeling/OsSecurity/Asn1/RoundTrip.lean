/-
What the encoders write is what the decoders read.

`Yields` compares an encoder with a decoder: the tag, the class and the contents, and for a
constructed encoder its children with the elements that the contents split into.
`RoundTrips` is that for the element that `WriteDERL` writes.

It holds exactly of the trees that are `Current`: at every node the length of the contents
that the node keeps is what its children take now.  Every way of building a tree keeps that
but one.  `SetTag` on a node that has a parent already may change the number of octets of
its tag, and no node above hears of it.  The parent then cuts out too little of the buffer,
and the assertion in `WriteDERL` of a child fails, or too much, and octets follow the
children that nobody has written.
-/
import OsSecurity.Asn1.WrittenDER
import Mathlib.Data.List.Forall2

namespace OsSecurity

open List

variable {self : CASN1EncBase}

namespace CASN1EncBase

/-! ### Reading it back -/

/-- A decoder finds what the encoder stands for: the same tag and class, of a leaf the same
contents, and of a constructed node the same children in the same order. -/
inductive Yields : CASN1EncBase → TASN1DecGeneric → Prop
  | leaf {d : CASN1EncData} {contents : CASN1EncLeaf} {g : TASN1DecGeneric}
      (htag : g.tag = d.iType) (hcls : g.cls = d.iClass)
      (hcontents : g.getContentDER = .ok contents.writeContentsDERL) : Yields (leaf d contents) g
  | constructed {d : CASN1EncData} {isContainer : Bool} {iChildren : List CASN1EncBase}
      {g : TASN1DecGeneric} {gs : List TASN1DecGeneric}
      (htag : g.tag = d.iType) (hcls : g.cls = d.iClass)
      (hdecode : TASN1DecSequence.decodeGenericLC g = .ok gs)
      (hcount : iChildren.length = gs.length) (h : ∀ p ∈ iChildren.zip gs, Yields p.1 p.2) :
      Yields (constructed d isContainer iChildren) g

/-- Writing the tree into a buffer succeeds, and the octets written are one element, which
yields the tree. -/
def RoundTrips (self : CASN1EncBase) (aBuf : Bytes) (aPos : Nat) : Prop :=
  ∃ out pos g, writeDERL self aBuf aPos = .ok (out, pos) ∧
    TASN1DecGeneric.initL ((out.drop aPos).take (pos - aPos)) = .ok g ∧
    g.lengthDER = (pos - aPos : Nat) ∧ Yields self g

/-- The element that a node has written. -/
theorem Wrote.holds {w : Bytes} (h : Wrote self w) (hsized : Sized self) (rest : Bytes)
    (hmax : ((w ++ rest).length : Int) ≤ KMaxTInt) :
    ∃ g body, Holds (w ++ rest) g w body rest ∧ g.tag = self.data.iType ∧
      g.cls = self.data.iClass := by
  cases h with
  | leaf d contents =>
      cases hsized with
      | leaf hd hlength =>
        obtain ⟨g, hg, htag, hcls⟩ := CASN1EncData.holds hd _ rest
          (contents.writeContentsDERL_length.trans hlength.symm) hmax
        exact ⟨g, _, hg, htag, hcls⟩
  | constructed ws left hlength hcount h =>
      cases hsized with
      | constructed hd _ =>
        obtain ⟨g, hg, htag, hcls⟩ := CASN1EncData.holds hd _ rest hlength hmax
        exact ⟨g, _, hg, htag, hcls⟩

/-- A decoder over a string that starts with what a node has written. -/
def DecodedFrom (self : CASN1EncBase) (g : TASN1DecGeneric) : Prop :=
  ∃ w rest, Wrote self w ∧ ((w ++ rest).length : Int) ≤ KMaxTInt ∧
    TASN1DecGeneric.initL (w ++ rest) = .ok g

section

variable {iChildren : List CASN1EncBase} {ws : List Bytes} (hws : Forall₂ Wrote iChildren ws)
include hws

section

variable (hsized : ∀ child ∈ iChildren, Sized child)
include hsized

/-- As many elements as children are the children's, and nothing is left. -/
theorem wrote_split {left : Bytes} (hmax : ((ws.flatten ++ left).length : Int) ≤ KMaxTInt)
    {gs : List TASN1DecGeneric} (h : Elements (ws.flatten ++ left) gs)
    (hgs : iChildren.length = gs.length) : left = [] ∧ Forall₂ DecodedFrom iChildren gs := by
  induction hws generalizing gs with
  | nil =>
      obtain rfl := length_eq_zero_iff.mp hgs.symm
      refine ⟨?_, .nil⟩
      cases left with
      | nil => rfl
      | cons b bs => cases h
  | @cons child w iChildren ws hw _ ih =>
      rw [flatten_cons, List.append_assoc] at hmax h
      obtain ⟨g, body, hg, -, -⟩ :=
        hw.holds (hsized child mem_cons_self) (ws.flatten ++ left) hmax
      generalize hs : w ++ (ws.flatten ++ left) = s at h hg
      cases h with
      | nil => exact absurd rfl hg.ne_nil
      | @cons _ enc body' rest g' gs hhead htail =>
        obtain rfl := Except.ok.inj (hhead.init.symm.trans hg.init)
        obtain rfl := Except.ok.inj (hhead.encoding.symm.trans hg.encoding)
        have hrest : rest = ws.flatten ++ left :=
          append_cancel_left (hhead.source.symm.trans hs.symm)
        rw [hrest] at htail
        rw [length_append] at hmax
        obtain ⟨hleft, hforall⟩ := ih (fun n hn => hsized n (mem_cons_of_mem _ hn)) (by omega)
          htail (Nat.succ.inj hgs)
        refine ⟨hleft, .cons ⟨enc, ws.flatten ++ left, hw, ?_, hs ▸ hg.init⟩ hforall⟩
        rw [length_append]
        exact hmax

/-- What the children write, and nothing behind it, splits into their elements. -/
theorem wrote_join (hmax : (ws.flatten.length : Int) ≤ KMaxTInt) :
    ∃ gs, Elements ws.flatten gs ∧ Forall₂ DecodedFrom iChildren gs := by
  induction hws with
  | nil => exact ⟨[], .nil, .nil⟩
  | @cons child w iChildren ws hw _ ih =>
      rw [flatten_cons] at hmax ⊢
      obtain ⟨g, body, hg, -, -⟩ := hw.holds (hsized child mem_cons_self) ws.flatten hmax
      have hsize := hmax
      rw [length_append] at hsize
      obtain ⟨gs, helements, hforall⟩ := ih (fun n hn => hsized n (mem_cons_of_mem _ hn))
        (by omega)
      exact ⟨g :: gs, .cons hg helements, .cons ⟨w, ws.flatten, hw, hmax, hg.init⟩ hforall⟩

/-- The octets that the children write are the sum of their lengths. -/
theorem wrote_sum : ws.flatten.length = sumLengths iChildren := by
  induction hws with
  | nil => rfl
  | @cons child w iChildren ws hw _ ih =>
      rw [flatten_cons, length_append, hw.length (hsized child mem_cons_self),
        ih fun n hn => hsized n (mem_cons_of_mem _ hn)]
      simp [sumLengths]

end

end

theorem exists_zip {α β : Type} {as : List α} {bs : List β} (h : as.length = bs.length) {a : α}
    (ha : a ∈ as) : ∃ b, (a, b) ∈ as.zip bs := by
  obtain ⟨i, hi, rfl⟩ := mem_iff_getElem.mp ha
  have hi' : i < (as.zip bs).length := by
    rw [length_zip]
    omega
  exact ⟨bs[i], getElem_zip (h := hi') ▸ getElem_mem hi'⟩

/-- **What a node has written yields the node exactly when its numbers are right.** -/
theorem DecodedFrom.yields_iff {g : TASN1DecGeneric} (h : DecodedFrom self g)
    (hsized : Sized self) : Yields self g ↔ Current self := by
  induction self using CASN1EncBase.induct generalizing g with
  | leaf d contents =>
      refine ⟨fun _ => .leaf d contents, fun _ => ?_⟩
      obtain ⟨w, rest, hw, hmax, hinit⟩ := h
      cases hw with
      | leaf =>
        cases hsized with
        | leaf hd hlength =>
          obtain ⟨g', hg, htag, hcls⟩ := CASN1EncData.holds hd _ rest
            (contents.writeContentsDERL_length.trans hlength.symm) hmax
          obtain rfl := Except.ok.inj (hinit.symm.trans hg.init)
          exact .leaf htag hcls hg.content
  | constructed d isContainer iChildren ih =>
      obtain ⟨w, rest, hw, hmax, hinit⟩ := h
      cases hsized with
      | constructed hd hchildren =>
      cases hw with
      | constructed ws left hlength hcount hws =>
      obtain ⟨g', hg, htag, hcls⟩ := CASN1EncData.holds hd true rest hlength hmax
      obtain rfl := Except.ok.inj (hinit.symm.trans hg.init)
      have hbody : ((ws.flatten ++ left).length : Int) ≤ KMaxTInt := by
        simp only [length_append] at hmax ⊢
        omega
      have hdecode : ∀ gs, TASN1DecSequence.decodeGenericLC g = .ok gs ↔
          Elements (ws.flatten ++ left) gs := by
        intro gs
        unfold TASN1DecSequence.decodeGenericLC
        rw [hg.content]
        exact TASN1DecSequence.decodeContentsL_eq_ok hbody
      constructor
      · intro hyields
        cases hyields with
        | constructed _ _ hgs hcount' hyields =>
        have helements := (hdecode _).mp hgs
        rcases hcount with ⟨hzero, rfl⟩ | hcount
        · -- no room for contents: there are no elements, hence no children
          obtain rfl : left = [] := length_eq_zero_iff.mp (hlength.trans hzero)
          cases helements with
          | nil =>
            obtain rfl := length_eq_zero_iff.mp hcount'
            exact .constructed hzero (fun child hmem => absurd hmem (by simp))
          | cons hhead _ => exact absurd rfl hhead.ne_nil
        · have hwrote := forall₂_iff_zip.mpr ⟨hcount, fun hp => hws _ hp⟩
          obtain ⟨rfl, hforall⟩ := wrote_split hwrote hchildren hbody helements hcount'
          refine .constructed ?_ fun child hmem => ?_
          · rw [← hlength, append_nil, wrote_sum hwrote hchildren]
          · obtain ⟨g', hzip⟩ := exists_zip hcount' hmem
            have hfrom := (forall₂_iff_zip.mp hforall).2 hzip
            exact (ih child hmem hfrom (hchildren child hmem)).mp (hyields _ hzip)
      · intro hcurrent
        cases hcurrent with
        | constructed hsum hcurrent =>
        rcases hcount with ⟨hzero, rfl⟩ | hcount
        · obtain rfl : left = [] := length_eq_zero_iff.mp (hlength.trans hzero)
          have hnone : iChildren = [] := by
            cases iChildren with
            | nil => rfl
            | cons child iChildren =>
              have := (hchildren child mem_cons_self).two_le
              simp only [sumLengths, map_cons, sum_cons] at hsum
              omega
          subst hnone
          exact .constructed htag hcls ((hdecode []).mpr .nil) rfl (fun p hp => absurd hp (by simp))
        · have hwrote := forall₂_iff_zip.mpr ⟨hcount, fun hp => hws _ hp⟩
          have hflat := wrote_sum hwrote hchildren
          obtain rfl : left = [] := by
            rw [length_append] at hlength
            exact length_eq_zero_iff.mp (by omega)
          rw [append_nil] at hbody hdecode
          obtain ⟨gs, helements, hforall⟩ := wrote_join hwrote hchildren hbody
          obtain ⟨hgs, hfrom⟩ := forall₂_iff_zip.mp hforall
          refine .constructed htag hcls ((hdecode gs).mpr helements) hgs fun p hp => ?_
          have hmem := (of_mem_zip hp).1
          exact (ih p.1 hmem (hfrom hp) (hchildren p.1 hmem)).mpr (hcurrent p.1 hmem)

/-- **A tree round-trips exactly when every node keeps the length its contents have now.** -/
theorem roundTrips_iff {self : CASN1EncBase} (h : Built self) {aBuf : Bytes} {aPos : Nat}
    (hmax : (self.lengthDER : Int) ≤ KMaxTInt) (hroom : aPos + self.lengthDER ≤ aBuf.length) :
    RoundTrips self aBuf aPos ↔ Current self := by
  have hsized := h.sized
  -- what a successful run has written is decoded from the node
  have hfrom : ∀ {out pos}, writeDERL self aBuf aPos = .ok (out, pos) →
      ∃ w g, Wrote self w ∧ (out.drop aPos).take (pos - aPos) = w ∧
        pos - aPos = self.lengthDER ∧ TASN1DecGeneric.initL w = .ok g ∧
        g.lengthDER = self.lengthDER ∧ DecodedFrom self g := by
    intro out pos hout
    obtain ⟨-, rfl, w, hw, rfl⟩ := hsized.writes hout
    have hlen := hw.length hsized
    have hmax' : ((w ++ []).length : Int) ≤ KMaxTInt := by
      rw [append_nil, hlen]
      exact hmax
    obtain ⟨g, body, hg, -, -⟩ := hw.holds hsized [] hmax'
    have hinit := hg.init
    have hder := hg.lengthDER
    rw [append_nil] at hinit
    rw [hlen] at hder
    refine ⟨w, g, hw, ?_, Nat.add_sub_cancel_left .., hinit, hder, w, [], hw, hmax', hg.init⟩
    rw [Nat.add_sub_cancel_left, ← hlen]
    exact overwrite_slice (by omega)
  constructor
  · rintro ⟨out, pos, g, hout, hinit, -, hyields⟩
    obtain ⟨w, g', -, hslice, -, hinit', -, hg⟩ := hfrom hout
    rw [hslice] at hinit
    obtain rfl := Except.ok.inj (hinit.symm.trans hinit')
    exact (hg.yields_iff hsized).mp hyields
  · intro hcurrent
    obtain ⟨⟨out, pos⟩, hout⟩ := hcurrent.writeDERL_ok hsized aBuf aPos hroom
    obtain ⟨w, g, -, hslice, hpos, hinit, hder, hg⟩ := hfrom hout
    refine ⟨out, pos, g, hout, ?_, ?_, (hg.yields_iff hsized).mpr hcurrent⟩
    · rw [hslice]
      exact hinit
    · rw [hder, hpos]

theorem roundTrips_iff_null : RoundTrips (leaf (.construct 5 .EUniversal 0) .null) [0, 0] 0 ↔
    Current (leaf (.construct 5 .EUniversal 0) .null) :=
  roundTrips_iff (.leaf .null) (by decide) (by decide)

/-- A null is added to a sequence and then given the tag 31, which takes two octets. -/
theorem not_roundTrips : ∃ self, Built self ∧ self.lengthDER = 4 ∧
    ¬ RoundTrips self [0, 0, 0, 0] 0 := by
  refine ⟨constructed ⟨EASN1Sequence, .EUniversal, 1, 1, 2⟩ true
    [leaf ⟨31, .EContextSpecific, 2, 1, 0⟩ .null], ?_, by decide, ?_⟩
  · exact .setTag [0] 31 .EContextSpecific (.addChildL [] .sequence (.leaf .null) rfl) rfl
  · rintro ⟨out, pos, g, hout, -⟩
    have hpanic : writeDERL (constructed ⟨EASN1Sequence, .EUniversal, 1, 1, 2⟩ true
        [leaf ⟨31, .EContextSpecific, 2, 1, 0⟩ .null]) [0, 0, 0, 0] 0 = panic := rfl
    rw [hpanic] at hout
    exact panic_ne_ok _ hout

theorem Current.addChildL {self self' aChild : CASN1EncBase} (h : Current self)
    (hchild : Current aChild) (hadd : addChildL aChild self = some self') : Current self' := by
  cases h with
  | leaf d contents => cases hadd
  | @constructed d isContainer iChildren hlength h =>
      cases isContainer with
      | false => cases hadd
      | true =>
        obtain rfl := Option.some.inj hadd
        refine .constructed rfl fun child hmem => ?_
        rcases mem_append.mp hmem with hmem | hmem
        · exact h child hmem
        · exact mem_singleton.mp hmem ▸ hchild

/-- Telling the nodes above leaves them with the right numbers. -/
theorem Current.update {f : CASN1EncBase → Option CASN1EncBase}
    (hf : ∀ {n n'}, Current n → f n = some n' → Current n') {path : List Nat}
    {self self' : CASN1EncBase} (h : Current self) (hupdate : update true f path self = some self') :
    Current self' := by
  induction path generalizing self self' with
  | nil => cases self <;> exact hf h hupdate
  | cons i path ih =>
      cases h with
      | leaf d contents => cases hupdate
      | @constructed d isContainer iChildren hlength h =>
        simp only [CASN1EncBase.update, Option.bind_eq_bind, Option.bind_eq_some_iff] at hupdate
        obtain ⟨child, hchild, child', hchild', hself⟩ := hupdate
        obtain rfl := Option.some.inj hself
        refine .constructed rfl fun n hn => ?_
        rcases mem_or_eq_of_mem_set hn with hn | hn
        · exact h n hn
        · exact hn ▸ ih (h child (mem_of_getElem? hchild)) hchild'

end CASN1EncBase

end OsSecurity

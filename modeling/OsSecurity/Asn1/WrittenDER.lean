/-
What `WriteDERL` writes.

A node cuts its part of the buffer into three by the numbers it keeps and hands the third to
its children.  `Sized` is what every operation keeps of these numbers: those of the header
belong to the tag and to the length that is kept of the contents.  `Wrote` is what a run can
leave in a node's part of the buffer, and `Sized.writes` that a run which succeeds leaves
that, and touches nothing else.  Where in addition the lengths of the contents are
`Current`, the run succeeds.
-/
import OsSecurity.Asn1.EncodedHeader

namespace OsSecurity

open CASN1EncData List

variable {self : CASN1EncBase}

/-! ### Trees whose numbers are right -/

namespace CASN1EncLeaf

private theorem appendNumFixedWidth_length (aVal aWidth : Nat) :
    (appendNumFixedWidth aVal aWidth).length = aWidth := by
  induction aWidth generalizing aVal with
  | zero => rfl
  | succ aWidth ih => rw [appendNumFixedWidth, length_append, ih, length_singleton]

/-- Every leaf writes as many octets as it says. -/
theorem writeContentsDERL_length (contents : CASN1EncLeaf) :
    contents.writeContentsDERL.length = contents.calculateContentsLengthDER := by
  cases contents with
  | int iInt => exact base256_length _ _
  | bitString iContents iPadding =>
      simp only [writeContentsDERL, calculateContentsLengthDER]
      split <;> rfl
  | objectIdentifier iFirstOctet iData =>
      simp only [writeContentsDERL, calculateContentsLengthDER, length_cons,
        length_flatMap, TASN1EncBase128DER.writeDERL_length]
      exact Nat.add_comm _ _
  | generalizedTime t =>
      simp only [writeContentsDERL, calculateContentsLengthDER, appendField, length_append,
        appendNumFixedWidth_length]
      by_cases hsecond : t.iSecond ≠ 0
      · rw [if_pos hsecond, if_pos hsecond, appendNumFixedWidth_length]
        rfl
      · rw [if_neg hsecond, if_neg hsecond]
        rfl
  | _ => rfl

end CASN1EncLeaf

namespace CASN1EncBase

/-- Induction over the nodes of a tree. -/
theorem induct {P : CASN1EncBase → Prop} (leaf : ∀ d contents, P (.leaf d contents))
    (constructed : ∀ d isContainer iChildren, (∀ child ∈ iChildren, P child) →
      P (.constructed d isContainer iChildren)) (self : CASN1EncBase) : P self :=
  match self with
  | .leaf d contents => leaf d contents
  | .constructed d isContainer iChildren =>
    constructed d isContainer iChildren fun child _ => induct leaf constructed child

/-- What no operation breaks: a node's numbers belong to its own tag and to the length it
keeps of its contents. -/
inductive Sized : CASN1EncBase → Prop
  | leaf {d : CASN1EncData} {contents : CASN1EncLeaf} (hd : d.Sized)
      (hlength : d.iContentsLengthDER = contents.calculateContentsLengthDER) :
      Sized (leaf d contents)
  | constructed {d : CASN1EncData} {isContainer : Bool} {iChildren : List CASN1EncBase}
      (hd : d.Sized) (h : ∀ child ∈ iChildren, Sized child) :
      Sized (constructed d isContainer iChildren)

/-- At every node the length that is kept of the contents is what the children take now. -/
inductive Current : CASN1EncBase → Prop
  | leaf (d : CASN1EncData) (contents : CASN1EncLeaf) : Current (leaf d contents)
  | constructed {d : CASN1EncData} {isContainer : Bool} {iChildren : List CASN1EncBase}
      (hlength : d.iContentsLengthDER = sumLengths iChildren)
      (h : ∀ child ∈ iChildren, Current child) : Current (constructed d isContainer iChildren)

theorem Sized.data (h : Sized self) : self.data.Sized := by
  cases h with
  | leaf hd _ => exact hd
  | constructed hd _ => exact hd

theorem Sized.contentsLengthChanged (h : Sized self) : Sized self.contentsLengthChanged := by
  cases h with
  | leaf hd _ => exact .leaf ⟨hd.tag, rfl⟩ rfl
  | constructed hd h => exact .constructed ⟨hd.tag, rfl⟩ h

theorem Sized.setTag (h : Sized self) (aType : UInt32) (aClass : TASN1Class) :
    Sized (self.setTag aType aClass) := by
  cases h with
  | leaf hd hlength => exact .leaf ⟨rfl, hd.length⟩ hlength
  | constructed hd h => exact .constructed ⟨rfl, hd.length⟩ h

theorem Sized.addChildL {self' aChild : CASN1EncBase} (h : Sized self) (hchild : Sized aChild)
    (hadd : addChildL aChild self = some self') : Sized self' := by
  cases h with
  | leaf hd hlength => cases hadd
  | @constructed d isContainer iChildren hd h =>
      cases isContainer with
      | false => cases hadd
      | true =>
        obtain rfl := Option.some.inj hadd
        refine .contentsLengthChanged (.constructed hd fun child hmem => ?_)
        rcases mem_append.mp hmem with hmem | hmem
        · exact h child hmem
        · exact mem_singleton.mp hmem ▸ hchild

theorem Sized.update {notify : Bool} {f : CASN1EncBase → Option CASN1EncBase}
    (hf : ∀ {n n'}, Sized n → f n = some n' → Sized n') {path : List Nat} {self' : CASN1EncBase}
    (h : Sized self) (hupdate : update notify f path self = some self') : Sized self' := by
  induction path generalizing self self' with
  | nil =>
      cases self with
      | leaf d contents => exact hf h hupdate
      | constructed d isContainer iChildren => exact hf h hupdate
  | cons i path ih =>
      cases h with
      | leaf hd hlength => cases hupdate
      | @constructed d isContainer iChildren hd h =>
        simp only [CASN1EncBase.update, Option.bind_eq_bind, Option.bind_eq_some_iff] at hupdate
        obtain ⟨child, hchild, child', hchild', hself⟩ := hupdate
        obtain rfl := Option.some.inj hself
        have hnode : Sized (CASN1EncBase.constructed d isContainer (iChildren.set i child')) := by
          refine .constructed hd fun n hn => ?_
          rcases mem_or_eq_of_mem_set hn with hn | hn
          · exact h n hn
          · exact hn ▸ ih (h child (mem_of_getElem? hchild)) hchild'
        cases notify with
        | false => exact hnode
        | true => exact hnode.contentsLengthChanged

theorem Built.sized (h : Built self) : Sized self := by
  induction h with
  | leaf contents => exact .leaf ⟨rfl, rfl⟩ rfl
  | encoding _ _ => exact .leaf ⟨rfl, rfl⟩ rfl
  | sequence => exact .constructed ⟨rfl, rfl⟩ (fun _ hn => absurd hn (by simp))
  | set => exact .constructed ⟨rfl, rfl⟩ (fun _ hn => absurd hn (by simp))
  | explicitTag aType aClass h ih =>
      exact .constructed ⟨rfl, rfl⟩ fun n hn => mem_singleton.mp hn ▸ ih
  | addChildL path h hchild hadd ih ihchild =>
      exact ih.update (fun hn hadd => hn.addChildL ihchild hadd) hadd
  | setTag path aType aClass h hset ih =>
      exact ih.update (fun hn hset => Option.some.inj hset ▸ hn.setTag aType aClass) hset

/-! ### What is written -/

/-- What `WriteDERL` can leave in the octets it is responsible for.  `left` is what it does
not touch of the contents of a constructed node; without room for contents no child is
written at all. -/
inductive Wrote : CASN1EncBase → Bytes → Prop
  | leaf (d : CASN1EncData) (contents : CASN1EncLeaf) :
      Wrote (leaf d contents) (d.writeTagDERL contents.isConstructed ++ d.writeLengthDER ++
        contents.writeContentsDERL)
  | constructed {d : CASN1EncData} {isContainer : Bool} {iChildren : List CASN1EncBase}
      (ws : List Bytes) (left : Bytes)
      (hlength : (ws.flatten ++ left).length = d.iContentsLengthDER)
      (hcount : d.iContentsLengthDER = 0 ∧ ws = [] ∨ iChildren.length = ws.length)
      (h : ∀ p ∈ iChildren.zip ws, Wrote p.1 p.2) :
      Wrote (constructed d isContainer iChildren) (d.writeTagDERL true ++ d.writeLengthDER ++
        (ws.flatten ++ left))

theorem Wrote.length {w : Bytes} (h : Wrote self w) (hsized : Sized self) :
    w.length = self.lengthDER := by
  have hd := hsized.data
  cases h with
  | leaf d contents =>
      cases hsized with
      | leaf hd hlength =>
        rw [length_append, length_append, writeTagDERL_length hd,
          writeLengthDER_length hd, contents.writeContentsDERL_length, ← hlength]
        rfl
  | @constructed d _ _ ws left hlength hcount h =>
      change d.Sized at hd
      rw [length_append, length_append, writeTagDERL_length hd, writeLengthDER_length hd, hlength]
      rfl

/-- A node takes two octets at least. -/
theorem Sized.two_le (h : Sized self) : 2 ≤ self.lengthDER := by
  have hd := h.data
  have htag := length_pos_iff.mpr (self.data.writeTagDERL_tagOctets true).1.ne_nil
  rw [writeTagDERL_length hd] at htag
  have hlength : 0 < self.data.iLengthLengthDER := by
    rw [hd.length]
    unfold calculateLengthLengthDER
    split <;> omega
  unfold lengthDER CASN1EncData.lengthDER
  omega

/-- A buffer with the octets from `aPos` on replaced. -/
def overwrite (aBuf : Bytes) (aPos : Nat) (w : Bytes) : Bytes :=
  aBuf.take aPos ++ w ++ aBuf.drop (aPos + w.length)

section Overwrite

variable {aBuf w : Bytes} {aPos : Nat}

theorem overwrite_nil (aBuf : Bytes) (aPos : Nat) : overwrite aBuf aPos [] = aBuf := by
  unfold overwrite
  rw [append_nil, length_nil, Nat.add_zero, take_append_drop]

section

variable (h : aPos + w.length ≤ aBuf.length)
include h

theorem overwrite_length : (overwrite aBuf aPos w).length = aBuf.length := by
  simp only [overwrite, length_append, length_take, length_drop]
  omega

theorem overwrite_drop (n : Nat) :
    (overwrite aBuf aPos w).drop (aPos + w.length + n) = aBuf.drop (aPos + w.length + n) := by
  have hfront : (aBuf.take aPos ++ w).length = aPos + w.length := by
    rw [length_append, length_take]
    omega
  unfold overwrite
  rw [drop_append, hfront, drop_eq_nil_of_le (by omega), nil_append,
    drop_drop, Nat.add_sub_cancel_left]

theorem overwrite_overwrite (u : Bytes) :
    overwrite (overwrite aBuf aPos w) (aPos + w.length) u = overwrite aBuf aPos (w ++ u) := by
  have hfront : (aBuf.take aPos ++ w).length = aPos + w.length := by
    rw [length_append, length_take]
    omega
  have hdrop := overwrite_drop h u.length
  unfold overwrite at hdrop ⊢
  rw [hdrop, take_left' hfront, length_append, List.append_assoc _ w u, Nat.add_assoc]

theorem overwrite_slice : ((overwrite aBuf aPos w).drop aPos).take w.length = w := by
  have hfront : (aBuf.take aPos).length = aPos := by
    rw [length_take]
    omega
  unfold overwrite
  rw [List.append_assoc, drop_left' hfront, take_left]

end

end Overwrite

/-- A section that is written in full. -/
theorem writeHelperL_full (aBuf : Bytes) (aPos : Nat) (w : Bytes)
    (hroom : aPos + w.length ≤ aBuf.length) :
    writeHelperL aBuf aPos w.length (fun _ => .ok w) =
      .ok (overwrite aBuf aPos w, aPos + w.length) := by
  unfold writeHelperL
  by_cases hzero : w.length = 0
  · rw [if_pos hzero, length_eq_zero_iff.mp hzero, overwrite_nil]
    rfl
  · rw [if_neg hzero, if_neg (by omega)]
    rfl

/-- The part of the buffer that a node leaves for its contents. -/
def contentsOf (d : CASN1EncData) (aBuf : Bytes) (aPos : Nat) : Bytes :=
  (aBuf.drop (aPos + d.iTagLengthDER + d.iLengthLengthDER)).take d.iContentsLengthDER

/-- What is made of the part for the contents, if there is one. -/
def writtenContents (d : CASN1EncData) (writeContentsDERL : Bytes → Leaving Bytes) (aBuf : Bytes)
    (aPos : Nat) : Leaving Bytes :=
  if d.iContentsLengthDER = 0 then .ok [] else writeContentsDERL (contentsOf d aBuf aPos)

/-- A node that has the room writes its header and what is made of the contents. -/
theorem writeSectionsDERL_eq_ok {d : CASN1EncData} (hd : d.Sized) (isConstructed : Bool)
    {write : Bytes → Leaving Bytes} (hwrite : ∀ ptr body, ptr.length = d.iContentsLengthDER →
      write ptr = .ok body → body.length = d.iContentsLengthDER)
    {aBuf out : Bytes} {aPos pos : Nat} :
    writeSectionsDERL d isConstructed write aBuf aPos = .ok (out, pos) ↔
      aPos + d.lengthDER ≤ aBuf.length ∧ pos = aPos + d.lengthDER ∧
        ∃ body, writtenContents d write aBuf aPos = .ok body ∧
          out = overwrite aBuf aPos
            (d.writeTagDERL isConstructed ++ d.writeLengthDER ++ body) := by
  have htag := writeTagDERL_length hd isConstructed
  have hlen := writeLengthDER_length hd
  unfold writeSectionsDERL
  by_cases hroom : aPos + d.lengthDER ≤ aBuf.length
  · have hsum : d.lengthDER = d.iTagLengthDER + d.iLengthLengthDER + d.iContentsLengthDER := rfl
    have h1 := writeHelperL_full aBuf aPos (d.writeTagDERL isConstructed) (by omega)
    rw [htag] at h1
    generalize hT : d.writeTagDERL isConstructed = T at htag h1 ⊢
    generalize hL : d.writeLengthDER = L at hlen ⊢
    have h2 := writeHelperL_full (overwrite aBuf aPos T) (aPos + d.iTagLengthDER) L
      (by rw [overwrite_length (by omega)]; omega)
    rw [hlen, ← htag, overwrite_overwrite (by omega), htag] at h2
    have hTL : aPos + (T ++ L).length = aPos + d.iTagLengthDER + d.iLengthLengthDER := by
      rw [length_append, htag, hlen]
      omega
    rw [if_neg (by omega), h1]
    simp only [ok_bind]
    rw [h2]
    simp only [ok_bind, writeHelperL, writtenContents]
    by_cases hzero : d.iContentsLengthDER = 0
    · rw [if_pos hzero, if_pos hzero]
      simp only [Except.ok.injEq, Prod.mk.injEq]
      constructor
      · rintro ⟨rfl, rfl⟩
        exact ⟨hroom, by omega, [], rfl, by rw [append_nil]⟩
      · rintro ⟨-, rfl, body, rfl, rfl⟩
        exact ⟨by rw [append_nil], by omega⟩
    · have hdrop : ∀ n, (overwrite aBuf aPos (T ++ L)).drop (aPos + (T ++ L).length + n)
          = aBuf.drop (aPos + (T ++ L).length + n) := overwrite_drop (by omega)
      have hslice : ((overwrite aBuf aPos (T ++ L)).drop
          (aPos + d.iTagLengthDER + d.iLengthLengthDER)).take d.iContentsLengthDER
          = contentsOf d aBuf aPos := by
        rw [← hTL]
        have := hdrop 0
        rw [Nat.add_zero] at this
        rw [this, hTL]
        rfl
      rw [if_neg hzero, if_neg hzero, if_neg (by rw [overwrite_length (by omega)]; omega), hslice]
      simp only [bind_eq_ok, leaving_pure, Except.ok.injEq, Prod.mk.injEq]
      -- replacing the contents extends what the header has replaced
      have hjoin : ∀ body, write (contentsOf d aBuf aPos) = .ok body →
          (overwrite aBuf aPos (T ++ L)).take (aPos + d.iTagLengthDER + d.iLengthLengthDER) ++
            body ++ (overwrite aBuf aPos (T ++ L)).drop
              (aPos + d.iTagLengthDER + d.iLengthLengthDER + d.iContentsLengthDER)
          = overwrite aBuf aPos (T ++ L ++ body) := by
        intro body hbody
        have hsize : body.length = d.iContentsLengthDER := by
          refine hwrite _ _ ?_ hbody
          rw [contentsOf, length_take, length_drop]
          omega
        have hover : overwrite (overwrite aBuf aPos (T ++ L)) (aPos + (T ++ L).length) body
            = overwrite aBuf aPos (T ++ L ++ body) := overwrite_overwrite (by omega) body
        rw [← hover, hTL, ← hsize]
        rfl
      constructor
      · rintro ⟨body, hbody, rfl, rfl⟩
        exact ⟨hroom, by omega, body, hbody, hjoin body hbody⟩
      · rintro ⟨-, rfl, body, hbody, rfl⟩
        exact ⟨body, hbody, hjoin body hbody, by omega⟩
  · rw [if_pos (by omega)]
    constructor
    · intro h
      cases h
    · rintro ⟨h, -⟩
      exact absurd h hroom

/-- What a leaf or a constructed node makes of the part for its contents is as long. -/
theorem leaf_contents_length {d : CASN1EncData} {contents : CASN1EncLeaf}
    (h : Sized (leaf d contents)) (ptr body : Bytes) (_ : ptr.length = d.iContentsLengthDER)
    (hbody : (Except.ok contents.writeContentsDERL : Leaving Bytes) = .ok body) :
    body.length = d.iContentsLengthDER := by
  cases h with
  | leaf _ hlength =>
      obtain rfl := Except.ok.inj hbody
      rw [hlength, contents.writeContentsDERL_length]

/-- What `WriteDERL` promises of a node: it has the room, and writes what it should there. -/
def Writes (self : CASN1EncBase) : Prop :=
  ∀ {aBuf out : Bytes} {aPos pos : Nat}, writeDERL self aBuf aPos = .ok (out, pos) →
    aPos + self.lengthDER ≤ aBuf.length ∧ pos = aPos + self.lengthDER ∧
      ∃ w, Wrote self w ∧ out = overwrite aBuf aPos w

theorem writeChildrenDERL_wrote {iChildren : List CASN1EncBase}
    (hsized : ∀ child ∈ iChildren, Sized child) (hwrites : ∀ child ∈ iChildren, Writes child)
    {aBuf out : Bytes} {pos pos' : Nat} (hpos : pos ≤ aBuf.length)
    (h : writeChildrenDERL iChildren aBuf pos = .ok (out, pos')) :
    ∃ ws : List Bytes, Forall₂ Wrote iChildren ws ∧ pos + ws.flatten.length ≤ aBuf.length ∧
      out = overwrite aBuf pos ws.flatten := by
  induction iChildren generalizing aBuf pos with
  | nil =>
      obtain ⟨rfl, rfl⟩ := Prod.mk.inj (Except.ok.inj h)
      exact ⟨[], .nil, hpos, (overwrite_nil _ _).symm⟩
  | cons child iChildren ih =>
      obtain ⟨⟨aBuf', next⟩, hchild, h⟩ := bind_eq_ok.mp h
      obtain ⟨hroom, rfl, w, hw, rfl⟩ := hwrites child mem_cons_self hchild
      have hlen := hw.length (hsized child mem_cons_self)
      have hbuf : (overwrite aBuf pos w).length = aBuf.length := overwrite_length (by omega)
      obtain ⟨ws, hws, hfits, rfl⟩ := ih
        (fun n hn => hsized n (mem_cons_of_mem _ hn))
        (fun n hn => hwrites n (mem_cons_of_mem _ hn)) (by rw [hbuf]; omega) h
      refine ⟨w :: ws, .cons hw hws, ?_, ?_⟩
      · rw [hbuf] at hfits
        rw [flatten_cons, length_append]
        omega
      · rw [flatten_cons, ← hlen, overwrite_overwrite (by omega)]

/-- The contents of a constructed node: what the children write, and what is left. -/
theorem constructed_contents {d : CASN1EncData} {isContainer : Bool}
    {iChildren : List CASN1EncBase} (hsized : Sized (constructed d isContainer iChildren))
    (hwrites : ∀ child ∈ iChildren, Writes child) (ptr body : Bytes)
    (hbody : (do return (← writeChildrenDERL iChildren ptr 0).1 : Leaving Bytes) = .ok body) :
    body.length = ptr.length ∧ ∃ (ws : List Bytes) (left : Bytes), body = ws.flatten ++ left ∧
      Forall₂ Wrote iChildren ws := by
  cases hsized with
  | constructed _ hsized =>
      obtain ⟨⟨out, pos⟩, hout, hbody⟩ := bind_eq_ok.mp hbody
      obtain rfl := Except.ok.inj hbody
      obtain ⟨ws, hws, hfits, rfl⟩ := writeChildrenDERL_wrote hsized hwrites (Nat.zero_le _) hout
      exact ⟨overwrite_length hfits, ws, _, rfl, hws⟩

theorem Sized.writes (h : Sized self) : Writes self := by
  induction self using CASN1EncBase.induct with
  | leaf d contents =>
      intro aBuf out aPos pos hout
      obtain ⟨hroom, hpos, body, hbody, rfl⟩ :=
        (writeSectionsDERL_eq_ok h.data _ (leaf_contents_length h)).mp hout
      refine ⟨hroom, hpos, _, ?_, rfl⟩
      have hcontents : body = contents.writeContentsDERL := by
        unfold writtenContents at hbody
        split at hbody
        · rename_i hzero
          cases h with
          | leaf _ hlength =>
            obtain rfl := Except.ok.inj hbody
            have hnone : d.iContentsLengthDER = 0 := hzero
            rw [hlength, ← contents.writeContentsDERL_length] at hnone
            exact (length_eq_zero_iff.mp hnone).symm
        · exact (Except.ok.inj hbody).symm
      rw [hcontents]
      exact .leaf d contents
  | constructed d isContainer iChildren ih =>
      intro aBuf out aPos pos hout
      have hwrites : ∀ child ∈ iChildren, Writes child := by
        cases h with
        | constructed _ hchildren => exact fun child hmem => ih child hmem (hchildren child hmem)
      obtain ⟨hroom, hpos, body, hbody, rfl⟩ := (writeSectionsDERL_eq_ok h.data _
        fun ptr body hptr hbody =>
          (constructed_contents h hwrites ptr body hbody).1.trans hptr).mp hout
      refine ⟨hroom, hpos, _, ?_, rfl⟩
      unfold writtenContents at hbody
      split at hbody
      · rename_i hzero
        obtain rfl := Except.ok.inj hbody
        have hzero' : d.iContentsLengthDER = 0 := hzero
        exact .constructed [] [] hzero'.symm (.inl ⟨hzero', rfl⟩)
          (fun p hp => absurd hp (by simp))
      · obtain ⟨hlength, ws, left, rfl, hws⟩ := constructed_contents h hwrites _ _ hbody
        obtain ⟨hcount, hws⟩ := forall₂_iff_zip.mp hws
        refine .constructed ws left ?_ (.inr hcount) fun _ => hws
        have hsum : d.lengthDER = d.iTagLengthDER + d.iLengthLengthDER + d.iContentsLengthDER := rfl
        change aPos + d.lengthDER ≤ aBuf.length at hroom
        rw [hlength, contentsOf, length_take, length_drop]
        show min d.iContentsLengthDER
          (aBuf.length - (aPos + d.iTagLengthDER + d.iLengthLengthDER)) = d.iContentsLengthDER
        omega

/-! ### Writing a tree whose numbers are right -/

theorem writeChildrenDERL_ok {iChildren : List CASN1EncBase}
    (hsized : ∀ child ∈ iChildren, Sized child)
    (hok : ∀ child ∈ iChildren, ∀ aBuf aPos, aPos + child.lengthDER ≤ aBuf.length →
      ∃ r, writeDERL child aBuf aPos = .ok r) {aBuf : Bytes} {pos : Nat}
    (hroom : pos + sumLengths iChildren ≤ aBuf.length) :
    ∃ r, writeChildrenDERL iChildren aBuf pos = .ok r := by
  induction iChildren generalizing aBuf pos with
  | nil => exact ⟨_, rfl⟩
  | cons child iChildren ih =>
      have hsum : sumLengths (child :: iChildren) = child.lengthDER + sumLengths iChildren := by
        simp [sumLengths]
      obtain ⟨⟨out, next⟩, hout⟩ := hok child mem_cons_self aBuf pos (by omega)
      have hchild := hsized child mem_cons_self
      obtain ⟨hfits, rfl, w, hw, rfl⟩ := hchild.writes hout
      have hlen := hw.length hchild
      have hbuf : (overwrite aBuf pos w).length = aBuf.length := overwrite_length (by omega)
      obtain ⟨r, hr⟩ := ih (fun n hn => hsized n (mem_cons_of_mem _ hn))
        (fun n hn => hok n (mem_cons_of_mem _ hn))
        (by rw [hbuf]; omega : pos + child.lengthDER + sumLengths iChildren
          ≤ (overwrite aBuf pos w).length)
      exact ⟨r, bind_eq_ok.mpr ⟨_, hout, hr⟩⟩

theorem Current.writeDERL_ok (h : Current self) (hsized : Sized self) (aBuf : Bytes) (aPos : Nat)
    (hroom : aPos + self.lengthDER ≤ aBuf.length) : ∃ r, writeDERL self aBuf aPos = .ok r := by
  induction self using CASN1EncBase.induct generalizing aBuf aPos with
  | leaf d contents =>
      refine ⟨_, (writeSectionsDERL_eq_ok hsized.data _ (leaf_contents_length hsized)).mpr
        ⟨hroom, rfl, if d.iContentsLengthDER = 0 then [] else contents.writeContentsDERL, ?_, rfl⟩⟩
      unfold writtenContents
      show (if d.iContentsLengthDER = 0 then _ else _) = _
      split <;> rfl
  | constructed d isContainer iChildren ih =>
      have hnode := hsized
      cases h with
      | constructed hlength hcurrent =>
        cases hsized with
        | constructed hd hchildren =>
          have hwrites : ∀ child ∈ iChildren, Writes child :=
            fun child hmem => (hchildren child hmem).writes
          have hcontents : ∃ body, writtenContents d
              (fun ptr => do return (← writeChildrenDERL iChildren ptr 0).1) aBuf aPos
              = .ok body := by
            unfold writtenContents
            split
            · exact ⟨_, rfl⟩
            · have hsum : d.lengthDER
                = d.iTagLengthDER + d.iLengthLengthDER + d.iContentsLengthDER := rfl
              change aPos + d.lengthDER ≤ aBuf.length at hroom
              obtain ⟨⟨out, pos⟩, hout⟩ := writeChildrenDERL_ok hchildren
                (fun child hmem buf pos hfits =>
                  ih child hmem (hcurrent child hmem) (hchildren child hmem) buf pos hfits)
                (by
                  rw [contentsOf, length_take, length_drop]
                  omega : 0 + sumLengths iChildren ≤ (contentsOf d aBuf aPos).length)
              exact ⟨out, bind_eq_ok.mpr ⟨_, hout, rfl⟩⟩
          obtain ⟨body, hbody⟩ := hcontents
          exact ⟨_, (writeSectionsDERL_eq_ok hd _ fun ptr body hptr hbody =>
            (constructed_contents hnode hwrites ptr body hbody).1.trans hptr).mpr
              ⟨hroom, rfl, body, hbody, rfl⟩⟩

end CASN1EncBase

end OsSecurity

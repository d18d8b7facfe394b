/-
The lengths that encoders keep are the lengths they write.

`Runs` of the interface start without encoders, construct them, add one to another and give
them tags.  In a state of a run `LengthsRight` asks of every node that the octets it puts into
a buffer are as many as its `LengthDER` says, and that the length in its header is that of
the contents behind it.

A parent whose children have outgrown its length cannot be written.  One whose children have
become shorter is written, but the last octets of its part of the buffer are not: they are
what the buffer held before.  `Puts` tells the two apart from a node that writes its octets,
since these do not depend on the buffer.
-/
import OsSecurity.Asn1.RoundTrip

namespace OsSecurity

open CASN1EncData List Option

variable {self n self' : CASN1EncBase} {iChildren : List CASN1EncBase} {path : List Nat}
  {d : CASN1EncData} {w : Bytes} {isContainer : Bool} {i : Nat}

namespace CASN1EncBase

/-! ### Runs of the interface -/

/-- The node at a path. -/
def nodeAt : List Nat → CASN1EncBase → Option CASN1EncBase
  | [], self => some self
  | i :: path, constructed _ _ iChildren => do nodeAt path (← iChildren[i]?)
  | _ :: _, leaf _ _ => none

/-- `SetTag` on the node at a path. -/
def setTagAt (aType : UInt32) (aClass : TASN1Class) (path : List Nat) (self : CASN1EncBase) :
    Option CASN1EncBase :=
  update false (fun n => some (n.setTag aType aClass)) path self

/-- A call.  Encoders that have no parent are numbered, and the other nodes are found from
these by a path. -/
inductive Call where
  | newLeaf (contents : CASN1EncLeaf)
  | newEncoding (aEncoding : Bytes)
  | newSequence
  | newSet
  | newExplicitTag (aEncoder : Nat) (aType : UInt32) (aClass : TASN1Class)
  | addChildL (root : Nat) (path : List Nat) (aChild : Nat)
  | setTag (root : Nat) (path : List Nat) (aType : UInt32) (aClass : TASN1Class)

/-- What a call makes of the encoders without a parent; `none` where it cannot be made or
leaves.  An encoder that is given a parent is no longer among them. -/
def step (roots : List CASN1EncBase) : Call → Option (List CASN1EncBase)
  | .newLeaf contents =>
    some (roots ++
      [leaf (.construct contents.type .EUniversal contents.calculateContentsLengthDER) contents])
  | .newEncoding aEncoding =>
    match TASN1DecGeneric.initL aEncoding with
    | .ok decoder =>
      match decoder.getContentDER with
      | .ok body =>
        some (roots ++ [leaf (.construct decoder.tag decoder.cls body.length) (.encoding body)])
      | .error _ => none
    | .error _ => none
  | .newSequence => some (roots ++ [constructed (.construct EASN1Sequence .EUniversal 0) true []])
  | .newSet => some (roots ++ [constructed (.construct EASN1Set .EUniversal 0) true []])
  | .newExplicitTag aEncoder aType aClass => do
    let encoder ← roots[aEncoder]?
    return roots.eraseIdx aEncoder ++
      [constructed (.construct aType aClass encoder.lengthDER) false [encoder]]
  | .addChildL root path aChild =>
    if root = aChild then none
    else do
      let child ← roots[aChild]?
      let self ← update true (addChildL child) path (← roots[root]?)
      return (roots.set root self).eraseIdx aChild
  | .setTag root path aType aClass => do
    let self ← setTagAt aType aClass path (← roots[root]?)
    return roots.set root self

/-- `P` holds in every state of the run. -/
def Always (P : List CASN1EncBase → Prop) : List CASN1EncBase → List Call → Prop
  | roots, [] => P roots
  | roots, call :: calls => P roots ∧ ∀ roots' ∈ step roots call, Always P roots' calls

theorem Always.first {P : List CASN1EncBase → Prop} {roots : List CASN1EncBase}
    {calls : List Call} (h : Always P roots calls) : P roots := by
  cases calls with
  | nil => exact h
  | cons call calls => exact h.1

/-! ### Lengths that are right -/

/-- `WriteDERL` replaces octets of a buffer by `w`, whatever the buffer holds, if only there is
the room that the node asks for. -/
def Puts (self : CASN1EncBase) (w : Bytes) : Prop :=
  ∀ (aBuf : Bytes) (aPos : Nat), aPos + self.lengthDER ≤ aBuf.length →
    ∃ pos, writeDERL self aBuf aPos = .ok (overwrite aBuf aPos w, pos)

/-- The node puts as many octets as it says: its header, which gives the length of the
contents, and the contents.  A header has no length for contents beyond a `TInt`, nor has a
descriptor. -/
def LengthRight (self : CASN1EncBase) : Prop :=
  ∃ contents : Bytes,
    Puts self (self.data.writeTagDERL self.isConstructed ++ self.data.writeLengthDER ++ contents) ∧
    (self.data.writeTagDERL self.isConstructed ++ self.data.writeLengthDER ++ contents).length =
      self.lengthDER ∧
    ((contents.length : Int) ≤ KMaxTInt → LengthOctets self.data.writeLengthDER contents.length)

/-- All nodes of all trees. -/
def LengthsRight (roots : List CASN1EncBase) : Prop :=
  ∀ root ∈ roots, ∀ path n, nodeAt path root = some n → LengthRight n

/-- No `SetTag` gives a node that has a parent a tag of another number of octets. -/
def KeepsTagLength (roots : List CASN1EncBase) : Call → Prop
  | .setTag root path aType _ =>
    path ≠ [] → ∀ self n, roots[root]? = some self → nodeAt path self = some n →
      calculateTagLengthDER aType = calculateTagLengthDER n.data.iType
  | _ => True

/-- Every call of the run keeps the lengths of tags. -/
def TagLengthsKept : List CASN1EncBase → List Call → Prop
  | _, [] => True
  | roots, call :: calls =>
    ∀ roots' ∈ step roots call, KeepsTagLength roots call ∧ TagLengthsKept roots' calls

/-! ### A node with the right numbers -/

theorem Sized.children (h : Sized (CASN1EncBase.constructed d isContainer iChildren)) :
    ∀ child ∈ iChildren, Sized child := by
  cases h with
  | constructed _ h => exact h

/-- Only a node without children takes nothing for its contents. -/
theorem sumLengths_eq_zero (hsized : ∀ child ∈ iChildren, Sized child)
    (h : sumLengths iChildren = 0) : iChildren = [] := by
  cases iChildren with
  | nil => rfl
  | cons child iChildren =>
      have htwo := (hsized child mem_cons_self).two_le
      simp only [sumLengths, map_cons, sum_cons] at h
      omega

/-- A node with the right numbers leaves nothing of the buffer in its contents. -/
theorem Wrote.children (h : Wrote (CASN1EncBase.constructed d isContainer iChildren) w)
    (hsized : ∀ child ∈ iChildren, Sized child)
    (hlength : d.iContentsLengthDER = sumLengths iChildren) :
    ∃ ws : List Bytes, Forall₂ Wrote iChildren ws ∧
      w = d.writeTagDERL true ++ d.writeLengthDER ++ ws.flatten := by
  cases h with
  | constructed ws left hleft hcount hws =>
      have hcount' : iChildren.length = ws.length := by
        rcases hcount with ⟨hzero, rfl⟩ | hcount
        · rw [sumLengths_eq_zero hsized (hlength.symm.trans hzero)]
          rfl
        · exact hcount
      have hwrote := forall₂_iff_zip.mpr ⟨hcount', fun hp => hws _ hp⟩
      refine ⟨ws, hwrote, ?_⟩
      have hsum := wrote_sum hwrote hsized
      rw [length_append] at hleft
      obtain rfl : left = [] := length_eq_zero_iff.mp (by omega)
      rw [append_nil]

theorem wrote_unique
    (hunique : ∀ child ∈ iChildren, ∀ w w', Wrote child w → Wrote child w' → w = w')
    {ws ws' : List Bytes} (hws : Forall₂ Wrote iChildren ws) (hws' : Forall₂ Wrote iChildren ws') :
    ws = ws' := by
  induction hws generalizing ws' with
  | nil =>
      cases hws'
      rfl
  | cons hw _ ih =>
      cases hws' with
      | cons hw' hws' =>
        rw [hunique _ mem_cons_self _ _ hw hw',
          ih (fun n hn => hunique n (mem_cons_of_mem _ hn)) hws']

/-- What a node with the right numbers writes does not depend on the buffer. -/
theorem Wrote.unique {w' : Bytes} (h : Wrote self w) (h' : Wrote self w') (hsized : Sized self)
    (hcurrent : Current self) : w = w' := by
  induction self using CASN1EncBase.induct generalizing w w' with
  | leaf d contents =>
      cases h with
      | leaf =>
        cases h' with
        | leaf => rfl
  | constructed d isContainer iChildren ih =>
      cases hcurrent with
      | constructed hlength hcurrent =>
        obtain ⟨ws, hws, rfl⟩ := h.children hsized.children hlength
        obtain ⟨ws', hws', rfl⟩ := h'.children hsized.children hlength
        have hunique : ∀ child ∈ iChildren, ∀ u u', Wrote child u → Wrote child u' → u = u' :=
          fun child hmem u u' hu hu' =>
            ih child hmem hu hu' (hsized.children child hmem) (hcurrent child hmem)
        rw [wrote_unique hunique hws hws']

/-- What a node writes is its header and as many octets as the header says. -/
theorem Wrote.header (h : Wrote self w) (hsized : Sized self) :
    ∃ contents : Bytes, contents.length = self.data.iContentsLengthDER ∧
      w = self.data.writeTagDERL self.isConstructed ++ self.data.writeLengthDER ++ contents := by
  cases h with
  | leaf d contents =>
      cases hsized with
      | leaf _ hlength => exact ⟨_, contents.writeContentsDERL_length.trans hlength.symm, rfl⟩
  | constructed ws left hlength => exact ⟨ws.flatten ++ left, hlength, rfl⟩

theorem Current.lengthRight (h : Current self) (hsized : Sized self) : LengthRight self := by
  -- one run fixes the octets, since no other run can write others
  have hroom : 0 + self.lengthDER ≤ (replicate self.lengthDER (0 : UInt8)).length := by
    rw [length_replicate, Nat.zero_add]
  obtain ⟨⟨out, pos⟩, hout⟩ := h.writeDERL_ok hsized _ 0 hroom
  obtain ⟨-, -, w, hw, -⟩ := hsized.writes hout
  obtain ⟨contents, hcontents, rfl⟩ := hw.header hsized
  refine ⟨contents, ?_, hw.length hsized, ?_⟩
  · intro aBuf aPos hroom
    obtain ⟨⟨out', pos'⟩, hout'⟩ := h.writeDERL_ok hsized aBuf aPos hroom
    obtain ⟨-, -, w', hw', rfl⟩ := hsized.writes hout'
    rw [hw.unique hw' hsized h]
    exact ⟨pos', hout'⟩
  · intro hmax
    rw [hcontents] at hmax ⊢
    exact writeLengthDER_lengthOctets hsized.data hmax

/-! ### A node whose children have changed -/

theorem overwrite_all {aBuf : Bytes} (h : w.length = aBuf.length) : overwrite aBuf 0 w = w := by
  unfold overwrite
  rw [take_zero, nil_append, Nat.zero_add, h, drop_length, append_nil]

theorem overwrite_replicate (n : Nat) (b : UInt8) (w : Bytes) :
    overwrite (replicate n b) 0 w = w ++ replicate (n - w.length) b := by
  unfold overwrite
  rw [take_zero, nil_append, Nat.zero_add, drop_replicate]

/-- What a node puts for its contents into a buffer of one octet repeated: where the children
end, that octet goes on. -/
theorem Puts.contents {contents : Bytes}
    (h : Puts (CASN1EncBase.constructed d isContainer iChildren) (d.writeTagDERL true ++ d.writeLengthDER ++ contents))
    (hsized : Sized (CASN1EncBase.constructed d isContainer iChildren))
    (hcontents : contents.length = d.iContentsLengthDER) (hzero : d.iContentsLengthDER ≠ 0)
    (b : UInt8) :
    ∃ body : Bytes, body.length = sumLengths iChildren ∧ body.length ≤ d.iContentsLengthDER ∧
      contents = body ++ replicate (d.iContentsLengthDER - body.length) b := by
  have hwrites : ∀ child ∈ iChildren, Writes child := fun child hmem =>
    (hsized.children child hmem).writes
  have hd : d.Sized := hsized.data
  have htag := writeTagDERL_length hd true
  have hlen := writeLengthDER_length hd
  have hall : d.lengthDER = d.iTagLengthDER + d.iLengthLengthDER + d.iContentsLengthDER := rfl
  obtain ⟨pos, hout⟩ := h (replicate d.lengthDER b) 0 (by
    rw [length_replicate, Nat.zero_add]
    rfl)
  obtain ⟨-, -, written, hwritten, heq⟩ := (writeSectionsDERL_eq_ok hd _
    fun ptr body hptr hbody =>
      (constructed_contents hsized hwrites ptr body hbody).1.trans hptr).mp hout
  have hptr : contentsOf d (replicate d.lengthDER b) 0 =
      replicate d.iContentsLengthDER b := by
    rw [contentsOf, drop_replicate, take_replicate]
    congr 1
    omega
  unfold writtenContents at hwritten
  rw [if_neg hzero, hptr] at hwritten
  have hlength := (constructed_contents hsized hwrites _ written hwritten).1
  rw [length_replicate] at hlength
  rw [overwrite_all (by simp only [length_append, length_replicate]; omega),
    overwrite_all (by simp only [length_append, length_replicate]; omega)] at heq
  obtain rfl := append_cancel_left heq
  obtain ⟨⟨out, next⟩, hchildren, hbody⟩ := bind_eq_ok.mp hwritten
  obtain rfl := Except.ok.inj hbody
  obtain ⟨ws, hws, hfits, rfl⟩ :=
    writeChildrenDERL_wrote hsized.children hwrites (Nat.zero_le _) hchildren
  rw [length_replicate, Nat.zero_add] at hfits
  exact ⟨ws.flatten, wrote_sum hws hsized.children, hfits, overwrite_replicate _ b _⟩

/-- A node keeps a length for its contents that its children do not take. -/
theorem not_lengthRight (hsized : Sized (constructed d isContainer iChildren))
    (hzero : d.iContentsLengthDER ≠ 0) (hlength : d.iContentsLengthDER ≠ sumLengths iChildren) :
    ¬LengthRight (constructed d isContainer iChildren) := by
  rintro ⟨contents, hputs, hwhole, -⟩
  have hd : d.Sized := hsized.data
  have hcontents : contents.length = d.iContentsLengthDER := by
    have htag := writeTagDERL_length hd true
    have hlen := writeLengthDER_length hd
    change (d.writeTagDERL true ++ d.writeLengthDER ++ contents).length =
      d.iTagLengthDER + d.iLengthLengthDER + d.iContentsLengthDER at hwhole
    rw [length_append, length_append] at hwhole
    omega
  obtain ⟨body, hsum, hle, hbody⟩ := Puts.contents hputs hsized hcontents hzero 0
  obtain ⟨body', hsum', hle', hbody'⟩ := Puts.contents hputs hsized hcontents hzero 1
  have hsame : body.length = body'.length := hsum.trans hsum'.symm
  have hleft := congrArg (List.drop body.length) (hbody.symm.trans hbody')
  rw [drop_left, hsame, drop_left] at hleft
  obtain ⟨k, hk⟩ : ∃ k, d.iContentsLengthDER - body'.length = k + 1 :=
    ⟨d.iContentsLengthDER - body'.length - 1, by omega⟩
  rw [hk, replicate_succ, replicate_succ] at hleft
  exact absurd (List.cons.inj hleft).1 (by decide)

/-! ### Nodes of a tree -/

theorem nodeAt_cons (h : nodeAt (i :: path) self = some n) : ∃ d isContainer iChildren child,
      self = constructed d isContainer iChildren ∧ iChildren[i]? = some child ∧
        nodeAt path child = some n := by
  cases self with
  | leaf d contents => cases h
  | constructed d isContainer iChildren =>
      simp only [nodeAt, bind_eq_bind, bind_eq_some_iff] at h
      obtain ⟨child, hchild, hn⟩ := h
      exact ⟨d, isContainer, iChildren, child, rfl, hchild, hn⟩

theorem Sized.node (h : Sized self) (hn : nodeAt path self = some n) : Sized n := by
  induction path generalizing self with
  | nil => exact Option.some.inj hn ▸ h
  | cons i path ih =>
      obtain ⟨d, isContainer, iChildren, child, rfl, hchild, hn⟩ := nodeAt_cons hn
      exact ih (h.children child (mem_of_getElem? hchild)) hn

theorem Current.node (h : Current self) (hn : nodeAt path self = some n) : Current n := by
  induction path generalizing self with
  | nil => exact Option.some.inj hn ▸ h
  | cons i path ih =>
      obtain ⟨d, isContainer, iChildren, child, rfl, hchild, hn⟩ := nodeAt_cons hn
      cases h with
      | constructed _ h => exact ih (h child (mem_of_getElem? hchild)) hn

/-- The node that `SetTag` is called for, and what becomes of the tree around it. -/
theorem update_cons {notify : Bool} {f : CASN1EncBase → Option CASN1EncBase}
    (h : update notify f (i :: path) self = some self') :
    ∃ d isContainer iChildren child child', self = constructed d isContainer iChildren ∧
      iChildren[i]? = some child ∧ update notify f path child = some child' ∧
      self' = if notify then
          (constructed d isContainer (iChildren.set i child')).contentsLengthChanged
        else constructed d isContainer (iChildren.set i child') := by
  cases self with
  | leaf d contents => cases h
  | constructed d isContainer iChildren =>
      simp only [update, bind_eq_bind, bind_eq_some_iff] at h
      obtain ⟨child, hchild, child', hchild', hself⟩ := h
      exact ⟨d, isContainer, iChildren, child, child', rfl, hchild, hchild',
        (Option.some.inj hself).symm⟩

/-- One child is replaced by another. -/
theorem sumLengths_set {child : CASN1EncBase} (h : iChildren[i]? = some child)
    (child' : CASN1EncBase) :
    sumLengths (iChildren.set i child') + child.lengthDER =
      sumLengths iChildren + child'.lengthDER := by
  induction iChildren generalizing i with
  | nil => cases h
  | cons n iChildren ih =>
      cases i with
      | zero =>
        obtain rfl := Option.some.inj h
        simp only [sumLengths, set_cons_zero, map_cons, sum_cons]
        omega
      | succ i =>
        have hrest := ih (i := i) h
        simp only [sumLengths, set_cons_succ, map_cons, sum_cons] at hrest ⊢
        omega

theorem mem_set_of_all {P : CASN1EncBase → Prop} {child : CASN1EncBase} (h : ∀ n ∈ iChildren, P n)
    (hchild : P child) : ∀ n ∈ iChildren.set i child, P n := by
  intro n hn
  rcases mem_or_eq_of_mem_set hn with hn | rfl
  · exact h n hn
  · exact hchild

/-! ### `SetTag` -/

section SetTag

variable {aType : UInt32} {aClass : TASN1Class}

theorem Current.setTag (h : Current self) (aType : UInt32) (aClass : TASN1Class) :
    Current (self.setTag aType aClass) := by
  cases h with
  | leaf d contents => exact .leaf _ contents
  | constructed hlength hchildren => exact .constructed hlength hchildren

/-- How the length of a node changes with its tag. -/
theorem setTag_lengthDER (h : Sized self) (aType : UInt32) (aClass : TASN1Class) :
    (self.setTag aType aClass).lengthDER + calculateTagLengthDER self.data.iType =
      self.lengthDER + calculateTagLengthDER aType := by
  have hd := h.data
  have htag := hd.tag
  cases self with
  | leaf d contents =>
      change d.iTagLengthDER = calculateTagLengthDER d.iType at htag
      show calculateTagLengthDER aType + d.iLengthLengthDER + d.iContentsLengthDER +
        calculateTagLengthDER d.iType = d.iTagLengthDER + d.iLengthLengthDER +
          d.iContentsLengthDER + calculateTagLengthDER aType
      omega
  | constructed d isContainer iChildren =>
      change d.iTagLengthDER = calculateTagLengthDER d.iType at htag
      show calculateTagLengthDER aType + d.iLengthLengthDER + d.iContentsLengthDER +
        calculateTagLengthDER d.iType = d.iTagLengthDER + d.iLengthLengthDER +
          d.iContentsLengthDER + calculateTagLengthDER aType
      omega

theorem setTagAt_nil (h : setTagAt aType aClass [] self = some self') :
    self' = self.setTag aType aClass := by
  cases self <;> exact (Option.some.inj h).symm

/-- A tag of as many octets leaves every number above it right. -/
theorem Current.setTagAt_kept (h : Current self) (hsized : Sized self)
    (hset : setTagAt aType aClass path self = some self')
    (hkept : ∀ n, nodeAt path self = some n → calculateTagLengthDER aType = calculateTagLengthDER n.data.iType) :
    Current self' ∧ self'.lengthDER = self.lengthDER := by
  induction path generalizing self self' with
  | nil =>
      obtain rfl := setTagAt_nil hset
      have hlength := setTag_lengthDER hsized aType aClass
      have hsame := hkept self rfl
      exact ⟨h.setTag aType aClass, by omega⟩
  | cons i path ih =>
      obtain ⟨d, isContainer, iChildren, child, child', rfl, hchild, hchild', rfl⟩ :=
        update_cons hset
      have hmem := mem_of_getElem? hchild
      cases h with
      | constructed hlength h =>
        obtain ⟨hcurrent, hsame⟩ := ih (h child hmem) (hsized.children child hmem) hchild'
          fun n hn => hkept n (by simp [nodeAt, hchild, hn])
        have hsum := sumLengths_set hchild child'
        exact ⟨.constructed (by omega) (mem_set_of_all h hcurrent), rfl⟩

/-- A tag of more octets, or of fewer, makes the number of the node above wrong. -/
theorem Current.setTagAt_changed (h : Current self) (hsized : Sized self)
    (hset : setTagAt aType aClass path self = some self') (hpath : path ≠ [])
    (hn : nodeAt path self = some n)
    (hchanged : calculateTagLengthDER aType ≠ calculateTagLengthDER n.data.iType) :
    ∃ above parent, nodeAt above self' = some parent ∧ ¬LengthRight parent := by
  induction path generalizing self self' with
  | nil => exact absurd rfl hpath
  | cons i path ih =>
      obtain ⟨d, isContainer, iChildren, child, child', rfl, hchild, hchild', rfl⟩ :=
        update_cons hset
      obtain ⟨d₀, container₀, children₀, child₀, heq, hchild₀, hn⟩ := nodeAt_cons hn
      obtain ⟨rfl, rfl, rfl⟩ := CASN1EncBase.constructed.inj heq
      obtain rfl := Option.some.inj (hchild.symm.trans hchild₀)
      have hmem := mem_of_getElem? hchild
      have hchildSized := hsized.children child hmem
      have hat : (iChildren.set i child')[i]? = some child' := by
        rw [getElem?_set_self (List.getElem?_eq_some_iff.mp hchild).1]
      cases h with
      | constructed hlength h =>
        cases path with
        | nil =>
          obtain rfl := Option.some.inj hn
          obtain rfl := setTagAt_nil hchild'
          have hnode := setTag_lengthDER hchildSized aType aClass
          have hsum := sumLengths_set hchild (child.setTag aType aClass)
          refine ⟨[], _, rfl, not_lengthRight ?_ ?_ ?_⟩
          · exact .constructed hsized.data
              (mem_set_of_all hsized.children (hchildSized.setTag aType aClass))
          · intro hzero
            rw [sumLengths_eq_zero hsized.children (hlength.symm.trans hzero)] at hmem
            exact absurd hmem (by simp)
          · omega
        | cons j path =>
          obtain ⟨above, parent, hparent, hwrong⟩ :=
            ih (h child hmem) hchildSized hchild' (by simp) hn
          exact ⟨i :: above, parent, by simp [nodeAt, hat, hparent], hwrong⟩

end SetTag

/-! ### Runs -/

/-- What a call makes an encoder of, or another. -/
inductive Made (roots : List CASN1EncBase) : Call → CASN1EncBase → Prop
  | newLeaf (contents : CASN1EncLeaf) :
      Made roots (.newLeaf contents)
        (leaf (.construct contents.type .EUniversal contents.calculateContentsLengthDER) contents)
  | newEncoding {aEncoding body : Bytes} {decoder : TASN1DecGeneric}
      (hinit : TASN1DecGeneric.initL aEncoding = .ok decoder)
      (hcontent : decoder.getContentDER = .ok body) :
      Made roots (.newEncoding aEncoding)
        (leaf (.construct decoder.tag decoder.cls body.length) (.encoding body))
  | newSequence :
      Made roots .newSequence (constructed (.construct EASN1Sequence .EUniversal 0) true [])
  | newSet :
      Made roots .newSet (constructed (.construct EASN1Set .EUniversal 0) true [])
  | newExplicitTag {aEncoder : Nat} {encoder : CASN1EncBase} (aType : UInt32)
      (aClass : TASN1Class) (hencoder : roots[aEncoder]? = some encoder) :
      Made roots (.newExplicitTag aEncoder aType aClass)
        (constructed (.construct aType aClass encoder.lengthDER) false [encoder])
  | addChildL {root aChild : Nat} {path : List Nat} {child self self' : CASN1EncBase}
      (hchild : roots[aChild]? = some child) (hself : roots[root]? = some self)
      (hadd : update true (addChildL child) path self = some self') :
      Made roots (.addChildL root path aChild) self'
  | setTag {root : Nat} {path : List Nat} {aType : UInt32} {aClass : TASN1Class}
      {self self' : CASN1EncBase} (hself : roots[root]? = some self)
      (hset : setTagAt aType aClass path self = some self') :
      Made roots (.setTag root path aType aClass) self'

variable {roots roots' : List CASN1EncBase} {call : Call}

/-- After a call there are encoders from before and one that the call has made. -/
theorem step_roots (h : step roots call = some roots') {root : CASN1EncBase}
    (hroot : root ∈ roots') : root ∈ roots ∨ Made roots call root := by
  have happend : ∀ {front : List CASN1EncBase} {new : CASN1EncBase},
      (∀ r ∈ front, r ∈ roots) → Made roots call new → front ++ [new] = roots' →
        root ∈ roots ∨ Made roots call root := by
    rintro front new hfront hnew rfl
    rcases mem_append.mp hroot with hroot | hroot
    · exact .inl (hfront root hroot)
    · exact .inr (mem_singleton.mp hroot ▸ hnew)
  have hset : ∀ {i : Nat} {new : CASN1EncBase}, Made roots call new → root ∈ roots.set i new →
      root ∈ roots ∨ Made roots call root := by
    intro i new hnew hmem
    rcases mem_or_eq_of_mem_set hmem with hmem | rfl
    · exact .inl hmem
    · exact .inr hnew
  cases call with
  | newLeaf contents => exact happend (fun _ h => h) (.newLeaf contents) (Option.some.inj h)
  | newEncoding aEncoding =>
      simp only [step] at h
      split at h
      · rename_i decoder hinit
        split at h
        · rename_i body hcontent
          exact happend (fun _ h => h) (.newEncoding hinit hcontent) (Option.some.inj h)
        · cases h
      · cases h
  | newSequence => exact happend (fun _ h => h) .newSequence (Option.some.inj h)
  | newSet => exact happend (fun _ h => h) .newSet (Option.some.inj h)
  | newExplicitTag aEncoder aType aClass =>
      simp only [step, bind_eq_bind, bind_eq_some_iff] at h
      obtain ⟨encoder, hencoder, h⟩ := h
      exact happend (fun _ h => mem_of_mem_eraseIdx h) (.newExplicitTag aType aClass hencoder)
        (Option.some.inj h)
  | addChildL i path aChild =>
      simp only [step] at h
      split at h
      · cases h
      · simp only [bind_eq_bind, bind_eq_some_iff] at h
        obtain ⟨child, hchild, self, hself, self', hadd, h⟩ := h
        obtain rfl := Option.some.inj h
        exact hset (.addChildL hchild hself hadd) (mem_of_mem_eraseIdx hroot)
  | setTag i path aType aClass =>
      simp only [step, bind_eq_bind, bind_eq_some_iff] at h
      obtain ⟨self, hself, self', hset', h⟩ := h
      obtain rfl := Option.some.inj h
      exact hset (.setTag hself hset') hroot

theorem Made.built {root : CASN1EncBase} (h : Made roots call root)
    (hroots : ∀ r ∈ roots, Built r) : Built root := by
  cases h with
  | newLeaf contents => exact .leaf contents
  | newEncoding hinit hcontent => exact .encoding hinit hcontent
  | newSequence => exact .sequence
  | newSet => exact .set
  | newExplicitTag aType aClass hencoder =>
      exact .explicitTag aType aClass (hroots _ (mem_of_getElem? hencoder))
  | addChildL hchild hself hadd =>
      exact .addChildL _ (hroots _ (mem_of_getElem? hself))
        (hroots _ (mem_of_getElem? hchild)) hadd
  | setTag hself hset => exact .setTag _ _ _ (hroots _ (mem_of_getElem? hself)) hset

/-- Every call but a `SetTag` that changes the length of a tag leaves the numbers right. -/
theorem Made.current {root : CASN1EncBase} (h : Made roots call root)
    (hroots : ∀ r ∈ roots, Sized r ∧ Current r) (hkept : KeepsTagLength roots call) :
    Current root := by
  cases h with
  | newLeaf contents => exact .leaf _ contents
  | newEncoding hinit hcontent => exact .leaf _ _
  | newSequence => exact .constructed rfl (fun n hn => absurd hn (by simp))
  | newSet => exact .constructed rfl (fun n hn => absurd hn (by simp))
  | newExplicitTag aType aClass hencoder =>
      refine .constructed ?_ fun n hn =>
        mem_singleton.mp hn ▸ (hroots _ (mem_of_getElem? hencoder)).2
      simp [construct, sumLengths]
  | addChildL hchild hself hadd =>
      exact (hroots _ (mem_of_getElem? hself)).2.update
        (fun hn hadd => hn.addChildL (hroots _ (mem_of_getElem? hchild)).2 hadd) hadd
  | @setTag i path aType aClass self _ hself hset =>
      obtain ⟨hsized, hcurrent⟩ := hroots _ (mem_of_getElem? hself)
      by_cases hpath : path = []
      · subst hpath
        obtain rfl := setTagAt_nil hset
        exact hcurrent.setTag aType aClass
      · exact (hcurrent.setTagAt_kept hsized hset fun n hn => hkept hpath self n hself hn).1

/-- What holds of the encoders as long as the lengths of tags are kept. -/
def Sound (roots : List CASN1EncBase) : Prop := ∀ r ∈ roots, Built r ∧ Current r

theorem Sound.lengthsRight (h : Sound roots) : LengthsRight roots := by
  intro root hroot path n hn
  obtain ⟨hbuilt, hcurrent⟩ := h root hroot
  exact (hcurrent.node hn).lengthRight (hbuilt.sized.node hn)

theorem Sound.step (h : Sound roots) (hkept : KeepsTagLength roots call)
    (hstep : step roots call = some roots') : Sound roots' := by
  intro root hroot
  rcases step_roots hstep hroot with hold | hmade
  · exact h root hold
  · exact ⟨hmade.built fun r hr => (h r hr).1,
      hmade.current (fun r hr => ⟨(h r hr).1.sized, (h r hr).2⟩) hkept⟩

/-- A `SetTag` that changes the length of a tag shows at once. -/
theorem Sound.not_lengthsRight (h : Sound roots) (hkept : ¬KeepsTagLength roots call)
    (hstep : CASN1EncBase.step roots call = some roots') : ¬LengthsRight roots' := by
  cases call with
  | setTag i path aType aClass =>
      simp only [KeepsTagLength, Classical.not_imp, not_forall] at hkept
      obtain ⟨hpath, self, n, hself, hn, hchanged⟩ := hkept
      simp only [CASN1EncBase.step, hself, bind_eq_bind, bind_some, bind_eq_some_iff] at hstep
      obtain ⟨self', hset, hroots'⟩ := hstep
      obtain rfl := Option.some.inj hroots'
      obtain ⟨hbuilt, hcurrent⟩ := h self (mem_of_getElem? hself)
      obtain ⟨above, parent, hparent, hwrong⟩ :=
        hcurrent.setTagAt_changed hbuilt.sized hset hpath hn hchanged
      intro hright
      exact hwrong (hright self' (mem_set (List.getElem?_eq_some_iff.mp hself).1 self')
        above parent hparent)
  | _ => exact absurd trivial hkept

theorem Sound.always_iff {calls : List Call} (h : Sound roots) :
    Always LengthsRight roots calls ↔ TagLengthsKept roots calls := by
  induction calls generalizing roots with
  | nil => exact ⟨fun _ => trivial, fun _ => h.lengthsRight⟩
  | cons call calls ih =>
      constructor
      · rintro ⟨-, halways⟩ roots' hstep
        have hnext := halways roots' hstep
        have hkept : KeepsTagLength roots call := by
          by_contra hkept
          exact h.not_lengthsRight hkept hstep hnext.first
        exact ⟨hkept, (ih (h.step hkept hstep)).mp hnext⟩
      · intro hkept
        refine ⟨h.lengthsRight, fun roots' hstep => ?_⟩
        obtain ⟨hcall, hcalls⟩ := hkept roots' hstep
        exact (ih (h.step hcall hstep)).mpr hcalls

/-- **The lengths are right in every state of a run exactly when no `SetTag` of the run
changes the length of the tag of a node that has a parent.** -/
theorem lengthsRight_iff (calls : List Call) :
    Always LengthsRight [] calls ↔ TagLengthsKept [] calls :=
  Sound.always_iff fun r hr => absurd hr (by simp)

/-- A null is added to a sequence and then given the tag 31, which takes two octets: there is
no writing the sequence any more. -/
theorem not_lengthsRight_setTag :
    ¬Always LengthsRight []
      [.newSequence, .newLeaf .null, .addChildL 0 [] 1, .setTag 0 [0] 31 .EContextSpecific] := by
  rintro ⟨-, h⟩
  obtain ⟨-, h⟩ := h _ rfl
  obtain ⟨-, h⟩ := h _ rfl
  obtain ⟨-, h⟩ := h _ rfl
  have hright := h _ rfl
  obtain ⟨contents, hputs, -, -⟩ := hright _ mem_cons_self [] _ rfl
  obtain ⟨pos, hout⟩ := hputs [0, 0, 0, 0] 0 (by decide)
  exact panic_ne_ok _ hout

end CASN1EncBase

end OsSecurity

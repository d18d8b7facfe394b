/-
The table of data elements is right exactly when the optional components come in order
and the subject's identifier does not stand alone before the extensions.

The three switches of `ConstructCertL` pad with NULLs as if what comes before were
missing altogether, so the slot a component lands in is the right one only when the
components before it have used up their own.  `writesOf` is what the switches write, by
tag and place alone, and `decodeL_ok` lists the rows of tags they let through.  Behind a
subject identifier the second switch pads once too often and the extensions land one slot
behind the table; two components in the wrong order do the same.

The copy always reproduces a table that is right, since it asks only which slots are in
use and then deals the elements out in order: `fillL_of_table`.
-/
import Mathlib.Data.List.ReduceOption
import Mathlib.Data.List.Sublists
import Mathlib.Tactic.IntervalCases
import OsSecurity.Library.Der
import OsSecurity.X509.Certificate

namespace OsSecurity

open List

variable {seq : List TASN1DecGeneric}

namespace CX509Certificate

/-! ### What the table should hold -/

/-- The elements of the signed data of the certificate at a position. -/
def elementsAt (aBinaryData : Bytes) (aPos : Int) : List TASN1DecGeneric :=
  match encodingL aBinaryData aPos with
  | .ok (iEncoding, _) =>
    match signedElementsL iEncoding with
    | .ok seq => seq
    | .error _ => []
  | .error _ => []

/-- The elements from the serial number on. -/
def fieldsOf : List TASN1DecGeneric → List TASN1DecGeneric
  | [] => []
  | curr :: others => if isComponent 0 curr then others else curr :: others

/-- The elements behind the public key. -/
def optionalsOf (seq : List TASN1DecGeneric) : List TASN1DecGeneric := (fieldsOf seq).drop 6

/-- The element a slot is for, when the certificate has it. -/
def component (seq : List TASN1DecGeneric) (aIndex : Nat) : Option TASN1DecGeneric :=
  if aIndex = EVersionNumber then seq.head?.filter (isComponent 0)
  else if aIndex < EIssuerUID then (fieldsOf seq)[aIndex - 1]?
  else (optionalsOf seq).find? (isComponent (aIndex - 6).toUInt32)

/-- What `ConstructCertL` and a copy owe the certificate. -/
structure TableKept (seq : List TASN1DecGeneric) (r : Construction) : Prop where
  /-- Nothing is written behind the table. -/
  inBounds : r.writes.length ≤ KX509MaxDataElements
  /-- A slot holds the encoding of its component, or NULL. -/
  encoding : ∀ aIndex < KX509MaxDataElements,
    (component seq aIndex).map TASN1DecGeneric.encoding =
      (r.cert.dataElementEncoding aIndex).map Except.ok
  /-- No optional component is decoded twice. -/
  once : r.decoded.Nodup
  /-- A copy has the same table. -/
  copy : ∃ c, copyL r.cert = .ok c ∧ c.iDataElements = r.cert.iDataElements

/-- The optional components are context-specific, come in the order of their tags, and are
not just the subject's identifier and the extensions. -/
def WellPlaced (opts : List TASN1DecGeneric) : Prop :=
  (∀ gen ∈ opts, gen.cls = .EContextSpecific) ∧
    (opts.map TASN1DecGeneric.tag).Sublist [1, 2, 3] ∧ opts.map TASN1DecGeneric.tag ≠ [2, 3]

instance (opts : List TASN1DecGeneric) : Decidable (WellPlaced opts) :=
  inferInstanceAs (Decidable (_ ∧ _ ∧ _))

/-! ### The optional components -/

namespace Optionals

variable {s s' : Optionals} {iVersion : Int} {curr : TASN1DecGeneric}

theorem issuerUidL_ok (h : s.issuerUidL iVersion curr = .ok s') :
    s'.writes = s.writes ∧ s'.decoded = s.decoded ++ [EIssuerUID] ∧
      s'.hasSubjectUid = s.hasSubjectUid := by
  obtain ⟨_, -, h⟩ := bind_eq_ok.mp h
  obtain ⟨_, -, h⟩ := bind_eq_ok.mp h
  obtain rfl := Except.ok.inj h
  exact ⟨rfl, rfl, rfl⟩

theorem subjectUidL_ok (h : s.subjectUidL iVersion curr = .ok s') :
    s.hasSubjectUid = false ∧ s'.writes = s.writes ∧
      s'.decoded = s.decoded ++ [ESubjectUID] ∧ s'.hasSubjectUid = true := by
  obtain ⟨_, -, h⟩ := bind_eq_ok.mp h
  obtain ⟨_, huid, h⟩ := bind_eq_ok.mp h
  obtain rfl := Except.ok.inj h
  refine ⟨?_, rfl, rfl, rfl⟩
  unfold decodeUidL at huid
  split at huid
  · exact absurd huid (leave_ne_ok _ _)
  · rename_i hnot
    simpa using fun h => hnot (.inl h)

theorem extensionsL_ok (h : s.extensionsL curr = .ok s') :
    s'.writes = s.writes ∧ s'.decoded = s.decoded ++ [EExtensionList] ∧
      s'.hasSubjectUid = s.hasSubjectUid := by
  obtain ⟨_, -, h⟩ := bind_eq_ok.mp h
  obtain ⟨_, -, h⟩ := bind_eq_ok.mp h
  obtain rfl := Except.ok.inj h
  exact ⟨rfl, rfl, rfl⟩

theorem put_ok {x : Leaving Optionals} {n : Nat}
    (h : (do return (← x).put n (← curr.encoding)) = .ok s') :
    ∃ t e, x = .ok t ∧ curr.encoding = .ok e ∧ s' = t.put n e := by
  obtain ⟨t, hx, h⟩ := bind_eq_ok.mp h
  obtain ⟨e, he, h⟩ := bind_eq_ok.mp h
  exact ⟨t, e, hx, he, (Except.ok.inj h).symm⟩

/-- What a switch does with the component it finds in place `p`: it pads for the
components of the smaller tags, less one for each place before. -/
structure Placed (p : Nat) (s s' : Optionals) (curr : TASN1DecGeneric) (e : Bytes) : Prop where
  encoding : curr.encoding = .ok e
  writes : s'.writes =
    s.writes ++ replicate (curr.tag.toNat - 1 - p) none ++ [some e]
  decoded : s'.decoded = s.decoded ++ [curr.tag.toNat + 6]
  hasSubjectUid : s'.hasSubjectUid = (s.hasSubjectUid || curr.tag = 2)

theorem firstL_ok (h : s.firstL iVersion curr = .ok s') :
    curr.cls = .EContextSpecific ∧ (curr.tag = 1 ∨ curr.tag = 2 ∨ curr.tag = 3) ∧
      ∃ e, Placed 0 s s' curr e := by
  unfold firstL at h
  by_cases hcls : curr.cls ≠ .EContextSpecific
  · rw [if_pos hcls] at h
    exact absurd h (leave_ne_ok _ _)
  rw [if_neg hcls] at h
  refine ⟨not_not.mp hcls, ?_⟩
  by_cases h1 : curr.tag = 1
  · rw [if_pos h1] at h
    obtain ⟨t, e, ht, he, rfl⟩ := put_ok h
    obtain ⟨hw, hd, hs⟩ := issuerUidL_ok ht
    exact ⟨.inl h1, e, he, by simp [put, hw, h1], by simp [put, hd, h1, EIssuerUID],
      by simp [put, hs, h1]⟩
  by_cases h2 : curr.tag = 2
  · rw [if_neg h1, if_pos h2] at h
    obtain ⟨t, e, ht, he, rfl⟩ := put_ok h
    obtain ⟨-, hw, hd, hs⟩ := subjectUidL_ok ht
    exact ⟨.inr (.inl h2), e, he, by simp [put, hw, h2], by simp [put, hd, h2, ESubjectUID],
      by simp [put, hs, h2]⟩
  by_cases h3 : curr.tag = 3
  · rw [if_neg h1, if_neg h2, if_pos h3] at h
    obtain ⟨t, e, ht, he, rfl⟩ := put_ok h
    obtain ⟨hw, hd, hs⟩ := extensionsL_ok ht
    exact ⟨.inr (.inr h3), e, he, by simp [put, hw, h3], by simp [put, hd, h3, EExtensionList],
      by simp [put, hs, h3]⟩
  rw [if_neg h1, if_neg h2, if_neg h3] at h
  exact absurd h (leave_ne_ok _ _)

theorem secondL_ok (h : s.secondL iVersion curr = .ok s') :
    (curr.tag = 2 ∧ s.hasSubjectUid = false ∨ curr.tag = 3) ∧ ∃ e, Placed 1 s s' curr e := by
  unfold secondL at h
  by_cases h2 : curr.tag = 2
  · rw [if_pos h2] at h
    obtain ⟨t, e, ht, he, rfl⟩ := put_ok h
    obtain ⟨hno, hw, hd, hs⟩ := subjectUidL_ok ht
    exact ⟨.inl ⟨h2, hno⟩, e, he, by simp [put, hw, h2], by simp [put, hd, h2, ESubjectUID],
      by simp [put, hs, h2]⟩
  by_cases h3 : curr.tag = 3
  · rw [if_neg h2, if_pos h3] at h
    obtain ⟨t, e, ht, he, rfl⟩ := put_ok h
    obtain ⟨hw, hd, hs⟩ := extensionsL_ok ht
    exact ⟨.inr h3, e, he, by simp [put, hw, h3], by simp [put, hd, h3, EExtensionList],
      by simp [put, hs, h3]⟩
  rw [if_neg h2, if_neg h3] at h
  exact absurd h (leave_ne_ok _ _)

theorem thirdL_ok (h : s.thirdL curr = .ok s') : curr.tag = 3 ∧ ∃ e, Placed 2 s s' curr e := by
  unfold thirdL at h
  by_cases h3 : curr.tag = 3
  · rw [if_pos h3] at h
    obtain ⟨t, e, ht, he, rfl⟩ := put_ok h
    obtain ⟨hw, hd, hs⟩ := extensionsL_ok ht
    exact ⟨h3, e, he, by simp [put, hw, h3], by simp [put, hd, h3, EExtensionList],
      by simp [put, hs, h3]⟩
  rw [if_neg h3] at h
  exact absurd h (leave_ne_ok _ _)

/-- What the switches write for a row of components, the first of them in place `p`. -/
def writesOf : Nat → List (TASN1DecGeneric × Bytes) → List (Option Bytes)
  | _, [] => []
  | p, (gen, e) :: rest =>
    replicate (gen.tag.toNat - 1 - p) none ++ some e :: writesOf (p + 1) rest

/-- The rows of tags the switches let through. -/
def rows : List (List UInt32) :=
  [[], [1], [2], [3], [1, 2], [1, 3], [2, 3], [3, 2], [3, 3],
    [1, 2, 3], [1, 3, 3], [2, 3, 3], [3, 2, 3], [3, 3, 3]]

/-- A run over the components, each with its encoding. -/
structure Decoded (s s' : Optionals) (ps : List (TASN1DecGeneric × Bytes)) : Prop where
  encoding : ∀ p ∈ ps, p.1.encoding = .ok p.2
  writes : s'.writes = s.writes ++ writesOf 0 ps
  decoded : s'.decoded = s.decoded ++ ps.map fun p => p.1.tag.toNat + 6
  tags : ps.map (fun p => p.1.tag) ∈ rows
  first : ∀ p ∈ ps.head?, p.1.cls = .EContextSpecific

theorem decodeL_ok {opts : List TASN1DecGeneric} (h : s.decodeL iVersion opts = .ok s')
    (hs : s.hasSubjectUid = false) : ∃ ps, opts = ps.map Prod.fst ∧ Decoded s s' ps := by
  match opts with
  | [] =>
      obtain rfl := Except.ok.inj h
      exact ⟨[], rfl, by simp, by simp [writesOf], by simp, by simp [rows], by simp⟩
  | [a] =>
      obtain ⟨hcls, ha, e, hp⟩ := firstL_ok h
      refine ⟨[(a, e)], rfl, by simp [hp.encoding], by simp [hp.writes, writesOf],
        by simp [hp.decoded], ?_, by simpa using hcls⟩
      rcases ha with ha | ha | ha <;> simp [ha, rows]
  | [a, b] =>
      obtain ⟨t, h1, h2⟩ := bind_eq_ok.mp h
      obtain ⟨hcls, ha, e, hp⟩ := firstL_ok h1
      obtain ⟨hb, f, hq⟩ := secondL_ok h2
      refine ⟨[(a, e), (b, f)], rfl, by simp [hp.encoding, hq.encoding],
        by simp [hp.writes, hq.writes, writesOf], by simp [hp.decoded, hq.decoded],
        ?_, by simpa using hcls⟩
      rw [hp.hasSubjectUid, hs] at hb
      rcases ha with ha | ha | ha <;> rcases hb with hb | hb <;> simp_all [rows]
  | [a, b, c] =>
      obtain ⟨t, h1, h2⟩ := bind_eq_ok.mp h
      obtain ⟨u, h2, h3⟩ := bind_eq_ok.mp h2
      obtain ⟨hcls, ha, e, hp⟩ := firstL_ok h1
      obtain ⟨hb, f, hq⟩ := secondL_ok h2
      obtain ⟨hc, g, hr⟩ := thirdL_ok h3
      refine ⟨[(a, e), (b, f), (c, g)], rfl, by simp [hp.encoding, hq.encoding, hr.encoding],
        by simp [hp.writes, hq.writes, hr.writes, writesOf],
        by simp [hp.decoded, hq.decoded, hr.decoded], ?_, by simpa using hcls⟩
      rw [hp.hasSubjectUid, hs] at hb
      rcases ha with ha | ha | ha <;> rcases hb with hb | hb <;> simp_all [rows]
  | a :: b :: c :: d :: rest =>
      simp only [decodeL] at h
      obtain ⟨_, -, h⟩ := bind_eq_ok.mp h
      obtain ⟨_, -, h⟩ := bind_eq_ok.mp h
      obtain ⟨_, -, h⟩ := bind_eq_ok.mp h
      exact absurd h (leave_ne_ok _ _)

/-! ### The rows that land where they should -/

/-- The rows of tags in order, the subject's identifier not alone before the extensions. -/
def goodRows : List (List UInt32) := [[], [1], [2], [3], [1, 2], [1, 3], [1, 2, 3]]

theorem mem_goodRows {tags : List UInt32} :
    tags ∈ goodRows ↔ tags.Sublist [1, 2, 3] ∧ tags ≠ [2, 3] := by
  have hrows : ([1, 2, 3] : List UInt32).sublists =
      [[], [1], [2], [1, 2], [3], [1, 3], [2, 3], [1, 2, 3]] := rfl
  rw [← mem_sublists, hrows]
  refine ⟨fun h => ?_, fun h => ?_⟩
  · simp only [goodRows, mem_cons, not_mem_nil, or_false] at h
    rcases h with rfl | rfl | rfl | rfl | rfl | rfl | rfl <;> decide
  · obtain ⟨h, hne⟩ := h
    simp only [mem_cons, not_mem_nil, or_false] at h
    rcases h with rfl | rfl | rfl | rfl | rfl | rfl | rfl | rfl <;> first | decide | exact absurd rfl hne

/-- The slots an encoding of the row is in, behind the seven fields every certificate has. -/
structure InPlace (ps : List (TASN1DecGeneric × Bytes)) : Prop where
  length : (writesOf 0 ps).length ≤ 3
  slot : ∀ j < 3, ((ps.map Prod.fst).find? (isComponent (j + 1).toUInt32)).map
    TASN1DecGeneric.encoding = ((writesOf 0 ps).getD j none).map Except.ok

variable {ps : List (TASN1DecGeneric × Bytes)}

/-- A row that does not reach behind the table is one in order. -/
theorem Decoded.goodRow (h : Decoded s s' ps) (hlen : (writesOf 0 ps).length ≤ 3) :
    ps.map (fun p => p.1.tag) ∈ goodRows := by
  match ps, h.tags with
  | [], _ => simp [goodRows]
  | [(a, e)], ht =>
      simp [rows] at ht
      simpa [goodRows] using ht
  | [(a, e), (b, f)], ht =>
      simp [rows] at ht
      rcases ht with ⟨ha, hb⟩ | ⟨ha, hb⟩ | ⟨ha, hb⟩ | ⟨ha, hb⟩ | ⟨ha, hb⟩ <;>
        simp [writesOf, ha, hb, goodRows] at hlen ⊢
  | [(a, e), (b, f), (c, g)], ht =>
      simp [rows] at ht
      rcases ht with ⟨ha, hb, hc⟩ | ⟨ha, hb, hc⟩ | ⟨ha, hb, hc⟩ | ⟨ha, hb, hc⟩ | ⟨ha, hb, hc⟩ <;>
        simp [writesOf, ha, hb, hc, goodRows] at hlen ⊢
  | _ :: _ :: _ :: _ :: _, ht => simp [rows] at ht

/-- The slots a row in order fills are its own, if the classes are right as well. -/
theorem Decoded.inPlace_iff (h : Decoded s s' ps) : InPlace ps ↔ WellPlaced (ps.map Prod.fst) := by
  unfold WellPlaced
  rw [← mem_goodRows, map_map]
  refine ⟨fun hp => ⟨?_, h.goodRow hp.length⟩, fun hw => ?_⟩
  · have htags := h.goodRow hp.length
    have h1 := hp.slot 1 (by omega)
    have h2 := hp.slot 2 (by omega)
    have hf := h.first
    match ps, htags with
    | [], _ => simp
    | [(a, e)], _ => simpa using hf
    | [(a, e), (b, f)], ht =>
      simp [goodRows] at ht
      rcases ht with ⟨ha, hb⟩ | ⟨ha, hb⟩ <;>
        simp [writesOf, isComponent, ha, hb] at h1 h2 hf ⊢ <;> simp_all
    | [(a, e), (b, f), (c, g)], ht =>
      simp [goodRows] at ht
      obtain ⟨ha, hb, hc⟩ := ht
      simp [writesOf, isComponent, ha, hb, hc] at h1 h2 hf ⊢
      simp_all
    | _ :: _ :: _ :: _ :: _, ht => simp [goodRows] at ht
  · obtain ⟨hcls, htags⟩ := hw
    have he := h.encoding
    match ps, htags with
    | [], _ => exact ⟨by simp [writesOf], by simp [writesOf]⟩
    | [(a, e)], ht =>
      simp [goodRows] at ht hcls he
      rcases ht with ha | ha | ha <;>
        exact ⟨by simp [writesOf, ha], by
          intro j hj
          interval_cases j <;> simp [writesOf, isComponent, ha, hcls, he]⟩
    | [(a, e), (b, f)], ht =>
      simp [goodRows] at ht hcls he
      rcases ht with ⟨ha, hb⟩ | ⟨ha, hb⟩ <;>
        exact ⟨by simp [writesOf, ha, hb], by
          intro j hj
          interval_cases j <;> simp [writesOf, isComponent, ha, hb, hcls, he]⟩
    | [(a, e), (b, f), (c, g)], ht =>
      simp [goodRows] at ht hcls he
      obtain ⟨ha, hb, hc⟩ := ht
      exact ⟨by simp [writesOf, ha, hb, hc], by
        intro j hj
        interval_cases j <;> simp [writesOf, isComponent, ha, hb, hc, hcls, he]⟩
    | _ :: _ :: _ :: _ :: _, ht => simp [goodRows] at ht

theorem reduceOption_writesOf (p : Nat) (ps : List (TASN1DecGeneric × Bytes)) :
    (writesOf p ps).reduceOption = ps.map Prod.snd := by
  induction ps generalizing p with
  | nil => rfl
  | cons q ps ih =>
      show (replicate _ none ++ some q.2 :: writesOf (p + 1) ps).reduceOption = _
      rw [reduceOption_append, reduceOption_replicate_none, nil_append,
        reduceOption_cons_of_some, ih, map_cons]

end Optionals

/-! ### The table -/

theorem tableOf_getD (writes : List (Option Bytes)) {i : Nat} (hi : i < KX509MaxDataElements) :
    (tableOf writes).getD i none = writes.getD i none := by
  unfold tableOf
  simp only [getD_eq_getElem?_getD, getElem?_take_of_lt hi]
  by_cases h : i < writes.length
  · rw [getElem?_append_left h]
  · rw [getElem?_append_right (by omega), getElem?_eq_none (l := writes) (by omega)]
    rw [getElem?_replicate]
    split <;> rfl

theorem tableOf_eq {writes : List (Option Bytes)} (h : writes.length ≤ KX509MaxDataElements) :
    tableOf writes = writes ++ replicate (KX509MaxDataElements - writes.length) none := by
  unfold tableOf
  rw [take_append, take_of_length_le h, take_replicate, Nat.min_eq_left (Nat.sub_le ..)]

/-- Dealing the elements out to the slots of a table that holds just their encodings gives
the table back. -/
theorem fillL_of_table (table : List (Option Bytes)) (seq : List TASN1DecGeneric)
    (h : seq.map TASN1DecGeneric.encoding = table.reduceOption.map Except.ok) :
    fillL (table.map Option.isSome) seq = .ok table := by
  induction table generalizing seq with
  | nil => rfl
  | cons slot table ih =>
      cases slot with
      | none =>
        rw [reduceOption_cons_of_none] at h
        simp only [map_cons, Option.isSome_none, fillL, ih seq h, ok_bind, leaving_pure]
      | some e =>
        rw [reduceOption_cons_of_some] at h
        match seq with
        | gen :: seq =>
          simp only [map_cons, List.cons.injEq] at h
          simp only [map_cons, Option.isSome_some, fillL, h.1, ih seq h.2,
            ok_bind, leaving_pure]

/-! ### The fields every certificate has -/

/-- The six fields from the serial number on, with their encodings, and the run over the
optional components behind them. -/
structure Fields (version : Option Bytes) (fields : List TASN1DecGeneric) (r : Construction)
    (qs ps : List (TASN1DecGeneric × Bytes)) : Prop where
  fields : fields = qs.map Prod.fst ++ ps.map Prod.fst
  length : qs.length = 6
  encoding : ∀ q ∈ qs, q.1.encoding = .ok q.2
  writes : r.writes = version :: (qs.map fun q => some q.2) ++ Optionals.writesOf 0 ps
  optionals : ∃ s s', s.decoded = [] ∧ s'.decoded = r.decoded ∧ Optionals.Decoded s s' ps
  table : r.cert.iDataElements = tableOf r.writes

theorem constructFieldsL_ok {pf : Platform} {iEncoding iSignature : Bytes}
    {iSigningAlgorithm : CSigningAlgorithmIdentifier} {iVersion : Int} {version : Option Bytes}
    {fields : List TASN1DecGeneric} {r : Construction}
    (h : constructFieldsL pf iEncoding iSigningAlgorithm iSignature iVersion version fields =
      .ok r) : r.cert.iEncoding = iEncoding ∧ ∃ qs ps, Fields version fields r qs ps := by
  match fields with
  | [] | [_] | [_, _] | [_, _, _] | [_, _, _, _] | [_, _, _, _, _] =>
      exact absurd h (panic_ne_ok _)
  | serial :: algorithm :: issuer :: validity :: subject :: key :: others =>
      unfold constructFieldsL at h
      by_cases hserial : serial.tag ≠ EASN1Integer
      · simp [hserial] at h
      simp only [if_neg hserial] at h
      obtain ⟨_, -, h⟩ := bind_eq_ok.mp h
      obtain ⟨e1, h1, h⟩ := bind_eq_ok.mp h
      obtain ⟨e2, h2, h⟩ := bind_eq_ok.mp h
      obtain ⟨algorithmId, -, h⟩ := bind_eq_ok.mp h
      by_cases halg : iSigningAlgorithm ≠ algorithmId
      · simp [halg] at h
      simp only [if_neg halg] at h
      obtain ⟨e3, h3, h⟩ := bind_eq_ok.mp h
      obtain ⟨_, -, h⟩ := bind_eq_ok.mp h
      obtain ⟨e4, h4, h⟩ := bind_eq_ok.mp h
      obtain ⟨_, -, h⟩ := bind_eq_ok.mp h
      obtain ⟨e5, h5, h⟩ := bind_eq_ok.mp h
      obtain ⟨_, -, h⟩ := bind_eq_ok.mp h
      obtain ⟨e6, h6, h⟩ := bind_eq_ok.mp h
      obtain ⟨_, -, h⟩ := bind_eq_ok.mp h
      obtain ⟨s', hs, h⟩ := bind_eq_ok.mp h
      obtain rfl := Except.ok.inj h
      obtain ⟨ps, rfl, hd⟩ := Optionals.decodeL_ok hs rfl
      refine ⟨rfl, [(serial, e1), (algorithm, e2), (issuer, e3), (validity, e4), (subject, e5),
        (key, e6)], ps, rfl, rfl, ?_, hd.writes, ⟨_, s', rfl, rfl, hd⟩, rfl⟩
      simp [h1, h2, h3, h4, h5, h6]

theorem versionL_ok {fields : List TASN1DecGeneric} {iVersion : Int} {version : Option Bytes}
    (h : versionL seq = .ok (iVersion, version, fields)) :
    fields = fieldsOf seq ∧
      (seq.head?.filter (isComponent 0)).map TASN1DecGeneric.encoding = version.map Except.ok ∧
      seq.map TASN1DecGeneric.encoding =
        version.toList.map Except.ok ++ fields.map TASN1DecGeneric.encoding := by
  match seq with
  | [] => exact absurd h (panic_ne_ok _)
  | curr :: others =>
      simp only [versionL] at h
      by_cases hcurr : isComponent 0 curr
      · rw [if_pos hcurr] at h
        obtain ⟨_, -, h⟩ := bind_eq_ok.mp h
        obtain ⟨_, -, h⟩ := bind_eq_ok.mp h
        obtain ⟨_, -, h⟩ := bind_eq_ok.mp h
        split at h
        · split at h
          · exact absurd h (leave_ne_ok _ _)
          · obtain ⟨e, he, h⟩ := bind_eq_ok.mp h
            simp only [leaving_pure, Except.ok.injEq, Prod.mk.injEq] at h
            obtain ⟨-, rfl, rfl⟩ := h
            simp [fieldsOf, hcurr, he]
        · exact absurd h (leave_ne_ok _ _)
      · rw [if_neg hcurr] at h
        simp only [leaving_pure, Except.ok.injEq, Prod.mk.injEq] at h
        obtain ⟨-, rfl, rfl⟩ := h
        simp [fieldsOf, hcurr]

/-! ### The whole table -/

namespace Fields

variable {version : Option Bytes} {fields : List TASN1DecGeneric} {r : Construction}
  {qs ps : List (TASN1DecGeneric × Bytes)}

section

variable (hf : Fields version fields r qs ps)
include hf

theorem dataElementEncoding_zero : r.cert.dataElementEncoding 0 = version := by
  rw [dataElementEncoding, hf.table, tableOf_getD _ (by decide), hf.writes]
  rfl

theorem dataElementEncoding_field {i : Nat} (hi : i < 6) :
    r.cert.dataElementEncoding (i + 1) = qs[i]?.map Prod.snd := by
  rw [dataElementEncoding, hf.table, tableOf_getD _ (by unfold KX509MaxDataElements; omega),
    hf.writes, getD_eq_getElem?_getD, cons_append, getElem?_cons_succ,
    getElem?_append_left (by simp [hf.length, hi]), getElem?_map]
  cases qs[i]? <;> rfl

theorem dataElementEncoding_optional {j : Nat} (hj : j < 3) :
    r.cert.dataElementEncoding (j + 7) = (Optionals.writesOf 0 ps).getD j none := by
  rw [dataElementEncoding, hf.table, tableOf_getD _ (by unfold KX509MaxDataElements; omega),
    hf.writes, getD_eq_getElem?_getD, cons_append, getElem?_cons_succ,
    getElem?_append_right (by simp [hf.length]), length_map, hf.length,
    getD_eq_getElem?_getD]
  rfl

theorem writes_length : r.writes.length = 7 + (Optionals.writesOf 0 ps).length := by
  rw [hf.writes, cons_append, length_cons, length_append, length_map, hf.length]
  omega

end

theorem optionalsOf (hf : Fields version (fieldsOf seq) r qs ps) :
    optionalsOf seq = ps.map Prod.fst := by
  unfold CX509Certificate.optionalsOf
  rw [hf.fields, drop_append_of_le_length (by simp [hf.length]),
    drop_of_length_le (by simp [hf.length]), nil_append]

/-- The slots a copy asks for are those in use. -/
theorem inUse (hf : Fields version fields r qs ps) (hlen : (Optionals.writesOf 0 ps).length ≤ 3) :
    let inUse := fun aIndex => (r.cert.dataElementEncoding aIndex).isSome
    [inUse EVersionNumber] ++ replicate 6 true ++
      [inUse EIssuerUID, inUse ESubjectUID, inUse EExtensionList] =
        r.cert.iDataElements.map Option.isSome := by
  have hfields : (qs.map fun q => some q.2).map Option.isSome = replicate 6 true := by
    rw [map_map, ← hf.length]
    exact map_const' ..
  have hbound := hf.writes_length
  show [(r.cert.dataElementEncoding 0).isSome] ++ replicate 6 true ++
    [(r.cert.dataElementEncoding (0 + 7)).isSome, (r.cert.dataElementEncoding (1 + 7)).isSome,
      (r.cert.dataElementEncoding (2 + 7)).isSome] = _
  rw [hf.dataElementEncoding_zero, hf.dataElementEncoding_optional (by omega),
    hf.dataElementEncoding_optional (by omega), hf.dataElementEncoding_optional (by omega),
    hf.table, tableOf_eq (by unfold KX509MaxDataElements; omega), hbound, hf.writes,
    map_append, map_append, map_cons, hfields]
  match Optionals.writesOf 0 ps, hlen with
  | [], _ | [_], _ | [_, _], _ | [_, _, _], _ => rfl

theorem copyL_eq (hf : Fields version fields r qs ps)
    (hseq : signedElementsL r.cert.iEncoding = .ok seq)
    (hver : seq.map TASN1DecGeneric.encoding = version.toList.map Except.ok ++ fields.map TASN1DecGeneric.encoding)
    (hencoding : ∀ p ∈ ps, p.1.encoding = .ok p.2) (hlen : (Optionals.writesOf 0 ps).length ≤ 3) :
    copyL r.cert = .ok r.cert := by
  have hbound := hf.writes_length
  have htable : r.cert.iDataElements.reduceOption =
      version.toList ++ (qs.map Prod.snd ++ ps.map Prod.snd) := by
    rw [hf.table, tableOf_eq (by unfold KX509MaxDataElements; omega), reduceOption_append,
      reduceOption_replicate_none, append_nil, hf.writes, reduceOption_append,
      Optionals.reduceOption_writesOf]
    have hqs : (qs.map fun q => some q.2).reduceOption = qs.map Prod.snd := by
      simp [reduceOption, filterMap_map, filterMap_eq_map']
    cases version with
    | none => rw [reduceOption_cons_of_none, hqs]; rfl
    | some v => rw [reduceOption_cons_of_some, hqs]; rfl
  have hencodings : ∀ {l : List (TASN1DecGeneric × Bytes)}, (∀ p ∈ l, p.1.encoding = .ok p.2) →
      (l.map Prod.fst).map TASN1DecGeneric.encoding = (l.map Prod.snd).map Except.ok := by
    intro l hl
    rw [map_map, map_map]
    exact map_congr_left hl
  have hfill : initDataElementsL r.cert = .ok r.cert.iDataElements := by
    unfold initDataElementsL
    rw [hseq, ok_bind]
    refine (congrArg (fillL · seq) (hf.inUse hlen)).trans (fillL_of_table _ _ ?_)
    rw [hver, htable, hf.fields, map_append, map_append, map_append,
      hencodings hf.encoding, hencodings hencoding]
  rw [copyL, hfill, ok_bind]
  rfl

/-- **The table of a certificate is right exactly when its optional components are well
placed.** -/
theorem tableKept_iff (hf : Fields version (fieldsOf seq) r qs ps)
    (hseq : signedElementsL r.cert.iEncoding = .ok seq)
    (hhead : (seq.head?.filter (isComponent 0)).map TASN1DecGeneric.encoding = version.map Except.ok)
    (hver : seq.map TASN1DecGeneric.encoding = version.toList.map Except.ok ++ (fieldsOf seq).map TASN1DecGeneric.encoding) :
    TableKept seq r ↔ WellPlaced (CX509Certificate.optionalsOf seq) := by
  obtain ⟨s, s', hnil, hdecoded, hd⟩ := hf.optionals
  rw [hf.optionalsOf, ← hd.inPlace_iff]
  have hbound := hf.writes_length
  have hopt : ∀ j < 3, component seq (j + 7) =
      (ps.map Prod.fst).find? (isComponent (j + 1).toUInt32) := by
    intro j hj
    rw [← hf.optionalsOf]
    interval_cases j <;> rfl
  refine ⟨fun hk => ⟨?_, ?_⟩, fun hp => ⟨?_, ?_, ?_, ?_⟩⟩
  · have hin := hk.inBounds
    unfold KX509MaxDataElements at hin
    omega
  · intro j hj
    rw [← hopt j hj, ← hf.dataElementEncoding_optional hj]
    exact hk.encoding (j + 7) (by unfold KX509MaxDataElements; omega)
  · have hlen := hp.length
    unfold KX509MaxDataElements
    omega
  · intro i hi
    unfold KX509MaxDataElements at hi
    rcases Nat.lt_or_ge i 7 with h7 | h7
    · match i, h7 with
      | 0, _ =>
        rw [hf.dataElementEncoding_zero]
        exact hhead
      | i + 1, hi =>
        have hi6 : i < 6 := by omega
        rw [hf.dataElementEncoding_field hi6]
        have hcomp : component seq (i + 1) = qs[i]?.map Prod.fst := by
          have hfield : (fieldsOf seq)[i]? = (qs.map Prod.fst)[i]? := by
            rw [hf.fields, getElem?_append_left (by simp [hf.length, hi6])]
          rw [← getElem?_map, ← hfield]
          simp [component, EVersionNumber, EIssuerUID, hi]
        rw [hcomp]
        cases hq : qs[i]? with
        | none => rfl
        | some q => exact congrArg some (hf.encoding q (mem_of_getElem? hq))
    · obtain ⟨j, rfl⟩ : ∃ j, i = j + 7 := ⟨i - 7, by omega⟩
      rw [hopt j (by omega), hf.dataElementEncoding_optional (by omega)]
      exact hp.slot j (by omega)
  · have hgood : ∀ tags ∈ Optionals.goodRows, (tags.map fun t => t.toNat + 6).Nodup := by decide
    rw [← hdecoded, hd.decoded, hnil, nil_append]
    have h := hgood _ (hd.goodRow hp.length)
    rwa [map_map] at h
  · exact ⟨r.cert, hf.copyL_eq hseq hver hd.encoding hp.length, rfl⟩

end Fields

theorem constructCertL_ok {pf : Platform} {iEncoding iSignature : Bytes}
    {iSigningAlgorithm : CSigningAlgorithmIdentifier} {r : Construction}
    (h : constructCertL pf iEncoding iSigningAlgorithm iSignature = .ok r) :
    ∃ seq, signedElementsL iEncoding = .ok seq ∧
      (TableKept seq r ↔ WellPlaced (optionalsOf seq)) := by
  obtain ⟨seq, hseq, h⟩ := bind_eq_ok.mp h
  obtain ⟨⟨iVersion, version, fields⟩, hv, h⟩ := bind_eq_ok.mp h
  obtain ⟨henc, qs, ps, hf⟩ := constructFieldsL_ok h
  obtain ⟨rfl, hhead, hver⟩ := versionL_ok hv
  exact ⟨seq, hseq, hf.tableKept_iff (henc ▸ hseq) hhead hver⟩

/-- **For every certificate that is accepted, the table is written within bounds, right
slot by slot, from components decoded once, and kept by a copy, if and only if the optional
components are well placed.** -/
theorem constructL_tableKept_iff {pf : Platform} {aBinaryData : Bytes} {aPos pos : Int}
    {r : Construction} (h : constructL pf aBinaryData aPos = .ok (r, pos)) :
    TableKept (elementsAt aBinaryData aPos) r ↔
      WellPlaced (optionalsOf (elementsAt aBinaryData aPos)) := by
  obtain ⟨⟨iEncoding, aPos'⟩, henc, h⟩ := bind_eq_ok.mp h
  obtain ⟨row, -, h⟩ := bind_eq_ok.mp h
  split at h
  · obtain ⟨_, -, h⟩ := bind_eq_ok.mp h
    obtain ⟨_, -, h⟩ := bind_eq_ok.mp h
    obtain ⟨_, -, h⟩ := bind_eq_ok.mp h
    obtain ⟨r', hr, h⟩ := bind_eq_ok.mp h
    simp only [leaving_pure, Except.ok.injEq, Prod.mk.injEq] at h
    obtain ⟨rfl, -⟩ := h
    obtain ⟨seq, hseq, hiff⟩ := constructCertL_ok hr
    have hat : elementsAt aBinaryData aPos = seq := by
      unfold elementsAt
      rw [henc]
      simp only [hseq]
    rw [hat]
    exact hiff
  · exact absurd h (panic_ne_ok _)

/-- An RSA certificate of version 3 with two empty names, an empty key and these octets for
its optional components. -/
def certificateWith (optionals : Bytes) : Bytes :=
  let oid := fun last => Der.element 0x06 [0x2a, 0x86, 0x48, 0x86, 0xf7, 0x0d, 0x01, 0x01, last]
  let algorithm := fun last => Der.element 0x30 (oid last ++ Der.element 0x05 [])
  let bits := Der.element 0x03 [0, 0]
  let year := fun digit =>
    Der.element 0x17 [digit, 48, 48, 49, 48, 49, 48, 48, 48, 48, 48, 48, 90]
  let signed := Der.element 0x30 (Der.element 0xa0 (Der.element 0x02 [2]) ++
    Der.element 0x02 [1] ++ algorithm 5 ++ Der.element 0x30 [] ++
    Der.element 0x30 (year 48 ++ year 51) ++ Der.element 0x30 [] ++
    Der.element 0x30 (algorithm 1 ++ bits) ++ optionals)
  Der.element 0x30 (signed ++ algorithm 5 ++ bits)

/-- `[2]`, a subject unique identifier of one octet. -/
def subjectUniqueId : Bytes := Der.element 0x82 [7]

/-- `[3]`, an empty list of extensions. -/
def noExtensions : Bytes := Der.element 0xa3 (Der.element 0x30 [])

theorem constructL_tableKept_iff_extensions :
    ∃ r pos, constructL Platform.ascii (certificateWith noExtensions) 0 = .ok (r, pos) ∧
      TableKept (elementsAt (certificateWith noExtensions) 0) r := by
  have hok : (constructL Platform.ascii (certificateWith noExtensions) 0).isOk = true := by
    rfl
  cases h : constructL Platform.ascii (certificateWith noExtensions) 0 with
  | error e => rw [h] at hok; cases hok
  | ok r => exact ⟨r.1, r.2, rfl, (constructL_tableKept_iff h).mpr (by decide)⟩

/-- A subject identifier and then extensions: the extensions are written behind the table. -/
theorem constructL_not_tableKept :
    ¬ ∀ pf aBinaryData aPos r pos, constructL pf aBinaryData aPos = .ok (r, pos) →
      TableKept (elementsAt aBinaryData aPos) r := by
  intro hall
  have hwrites : ((constructL Platform.ascii
      (certificateWith (subjectUniqueId ++ noExtensions)) 0).toOption.map fun r =>
        r.1.writes.length) = some 11 := by
    decide +kernel
  cases h : constructL Platform.ascii (certificateWith (subjectUniqueId ++ noExtensions)) 0 with
  | error e => rw [h] at hwrites; cases hwrites
  | ok r =>
      rw [h] at hwrites
      have hin := (hall _ _ _ _ _ h).inBounds
      simp only [Except.toOption, Option.map_some, Option.some.injEq] at hwrites
      rw [hwrites] at hin
      exact absurd hin (by decide)

end CX509Certificate

end OsSecurity

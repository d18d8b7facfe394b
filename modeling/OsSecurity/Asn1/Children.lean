/-
The children of a sequence lie one after the other and fill its contents.

`DecodeContentsL` advances by the length of each child, in a `TInt`.  A child that claims more
contents than there are can have a negative length there, and then the next `Right` is asked
for a negative number of octets and panics; every other child takes at least two octets off
what is left.  So no run of the loop has more turns than half the octets, and where it ends
by its condition the encodings of the children, in order, are the contents.

`Turns` is the loop with `pos` as the source keeps it, without a bound on the turns.
-/
import OsSecurity.Asn1.Decoders

namespace OsSecurity

open List TInt

namespace TASN1DecSequence

/-- One turn at `pos`: the child there and the position behind it. -/
def turn (aSource : Bytes) (pos : Int) : Leaving (TASN1DecGeneric × Int) := do
  let p ← TDes.right aSource (TInt.wrap (aSource.length - pos))
  let Decoded ← TASN1DecGeneric.initL p
  return (Decoded, TInt.wrap (pos + Decoded.lengthDER))

/-- Turns of the loop from one position to another, with the children they append. -/
inductive Turns (aSource : Bytes) : Int → List TASN1DecGeneric → Int → Prop
  | nil (pos : Int) : Turns aSource pos [] pos
  | cons {pos next last : Int} {g : TASN1DecGeneric} {gs : List TASN1DecGeneric}
      (hin : pos < aSource.length) (h : turn aSource pos = .ok (g, next))
      (hs : Turns aSource next gs last) : Turns aSource pos (g :: gs) last

/-- Each child begins where the one before ends, and the last one ends with the contents. -/
inductive Covered : Bytes → List TASN1DecGeneric → Prop
  | nil : Covered [] []
  | cons {enc rest : Bytes} {g : TASN1DecGeneric} {gs : List TASN1DecGeneric}
      (hat : g.iEncoding = enc ++ rest) (henc : g.encoding = .ok enc) (hpos : enc ≠ [])
      (hs : Covered rest gs) : Covered (enc ++ rest) (g :: gs)

/-! ### One turn -/

variable {aSource : Bytes} {pos next : Int} {g : TASN1DecGeneric}

theorem wrap_over {x : Int} (hlo : KMaxTInt < x) (hhi : x ≤ KMaxTInt + 4294967296) :
    wrap x = x - 4294967296 := by
  have hsub : wrap x = wrap (x - 4294967296) := (Int.sub_bmod_right x 4294967296).symm
  rw [hsub]
  exact wrap_of_range (by unfold KMinTInt KMaxTInt at *; omega) (by omega)

theorem right_pos (hlen : aSource.length ≤ KMaxTInt) (hpos : 0 ≤ pos) (hin : pos < aSource.length) :
    TDes.right aSource (wrap (aSource.length - pos)) = .ok (aSource.drop pos.toNat) := by
  rw [wrap_of_range (by unfold KMinTInt; omega) (by omega)]
  unfold TDes.right
  rw [if_neg (by omega)]
  congr 2
  omega

/-- A child with a negative length claims more than there is, and after it the position is
negative and the rest of the contents is not to be had. -/
theorem turn_negative {p : Bytes} (hlen : aSource.length ≤ KMaxTInt) (hpos : 0 ≤ pos)
    (hp : pos + p.length = aSource.length) (h : TASN1DecGeneric.initL p = .ok g)
    (hneg : g.lengthDER < 0) (hnext : next = wrap (pos + g.lengthDER)) :
    next < 0 ∧ 2 ≤ p.length ∧ turn aSource next = panic := by
  obtain ⟨t, l, rest, hh⟩ := TASN1DecGeneric.initL_eq_ok.mp h
  have hsource := congrArg List.length hh.source
  have htag := length_pos_iff.mpr hh.tag.ne_nil
  have hlength := length_pos_iff.mpr hh.length.ne_nil
  have hle := hh.length.le
  have hnonneg := hh.nonneg
  have hstart := hh.start
  simp only [length_append] at hsource hstart
  unfold TASN1DecGeneric.lengthDER at hneg hnext
  have hover : KMaxTInt < g.iLength + g.iStartOfContents := by
    by_contra hin
    rw [wrap_of_range (by unfold KMinTInt; omega) (by omega)] at hneg
    omega
  rw [wrap_over hover (by unfold KMaxTInt at *; omega)] at hnext
  rw [wrap_of_range (by unfold KMinTInt KMaxTInt at *; omega)
    (by unfold KMaxTInt at *; omega)] at hnext
  refine ⟨by unfold KMaxTInt at *; omega, by omega, ?_⟩
  have hleft : wrap (aSource.length - next) < 0 := by
    rw [wrap_over (by unfold KMaxTInt at *; omega) (by unfold KMaxTInt at *; omega)]
    omega
  unfold turn TDes.right
  rw [if_pos hleft]
  rfl

/-- What a turn can do. -/
theorem turn_cases (hlen : aSource.length ≤ KMaxTInt) (hpos : 0 ≤ pos)
    (hin : pos < aSource.length) (h : turn aSource pos = .ok (g, next)) :
    (∃ enc body rest, Holds (aSource.drop pos.toNat) g enc body rest ∧ next = pos + enc.length) ∨
      next < 0 ∧ pos + 2 ≤ aSource.length ∧ turn aSource next = panic := by
  have hp : pos + (aSource.drop pos.toNat).length = aSource.length := by
    rw [length_drop]
    omega
  unfold turn at h
  rw [right_pos hlen hpos hin, ok_bind, bind_eq_ok] at h
  obtain ⟨g', hinit, hres⟩ := h
  obtain ⟨rfl, hnext⟩ := Prod.mk.inj (Except.ok.inj hres)
  by_cases hneg : g'.lengthDER < 0
  · obtain ⟨hbehind, htwo, hpanic⟩ := turn_negative hlen hpos hp hinit hneg hnext.symm
    exact Or.inr ⟨hbehind, by omega, hpanic⟩
  · obtain ⟨enc, body, rest, hh⟩ := Holds.of_initL (by omega) hinit hneg
    have hsource := congrArg List.length hh.source
    rw [length_append] at hsource
    refine Or.inl ⟨enc, body, rest, hh, ?_⟩
    rw [← hnext, hh.lengthDER]
    exact wrap_of_range (by unfold KMinTInt; omega) (by omega)

/-! ### Runs -/

variable {gs : List TASN1DecGeneric} {last : Int}

theorem Turns.length_le (hlen : aSource.length ≤ KMaxTInt) (h : Turns aSource pos gs last)
    (hpos : 0 ≤ pos) (hle : pos ≤ aSource.length) : pos + 2 * gs.length ≤ aSource.length := by
  induction h with
  | nil pos => simpa using hle
  | @cons pos next last g gs hin h hs ih =>
      rw [length_cons]
      obtain ⟨enc, body, rest, hh, rfl⟩ | ⟨-, htwo, hpanic⟩ := turn_cases hlen hpos hin h
      · have hsource := congrArg List.length hh.source
        have hheader := hh.header
        rw [length_append, length_drop] at hsource
        have := ih (by omega) (by omega)
        omega
      · cases hs with
        | nil => simpa using htwo
        | cons _ h' _ =>
          rw [hpanic] at h'
          exact absurd h' (panic_ne_ok _)

/-- Turns that end behind the contents have split them. -/
theorem Turns.elements (hlen : aSource.length ≤ KMaxTInt) (h : Turns aSource pos gs last)
    (hpos : 0 ≤ pos) (hle : pos ≤ aSource.length) (hend : aSource.length ≤ last) :
    Elements (aSource.drop pos.toNat) gs := by
  induction h with
  | nil pos =>
      rw [drop_eq_nil_of_le (by omega)]
      exact .nil
  | @cons pos next last g gs hin h hs ih =>
      obtain ⟨enc, body, rest, hh, rfl⟩ | ⟨hneg, -, hpanic⟩ := turn_cases hlen hpos hin h
      · have hsource := congrArg List.length hh.source
        rw [length_append, length_drop] at hsource
        have hnext := ih (by omega) (by omega) hend
        have hrest : aSource.drop (pos + enc.length).toNat = rest := by
          rw [show (pos + enc.length).toNat = pos.toNat + enc.length by omega, ← drop_drop,
            hh.source, drop_left]
        exact .cons hh (hrest ▸ hnext)
      · cases hs with
        | nil => omega
        | cons _ h' _ =>
          rw [hpanic] at h'
          exact absurd h' (panic_ne_ok _)

theorem covered_of_elements {s : Bytes} (h : Elements s gs) : Covered s gs := by
  induction h with
  | nil => exact .nil
  | @cons s enc body rest g gs h hs ih =>
      obtain ⟨t, l, x, hh⟩ := TASN1DecGeneric.initL_eq_ok.mp h.init
      have hheader := h.header
      rw [h.source]
      refine .cons (hh.encoding.trans h.source) h.encoding ?_ ih
      intro hnil
      rw [hnil, length_nil] at hheader
      omega

/-- **The loop ends after at most half as many turns as there are octets, and where it returns
the children cover the contents, one after the other.** -/
theorem decodeContentsL_covered (hlen : aSource.length ≤ KMaxTInt) :
    (∀ gs pos, Turns aSource 0 gs pos → 2 * gs.length ≤ aSource.length) ∧
      (∀ gs pos, Turns aSource 0 gs pos → aSource.length ≤ pos →
        decodeContentsL aSource = .ok gs ∧ Covered aSource gs) ∧
      ∀ gs, decodeContentsL aSource = .ok gs → Covered aSource gs := by
  refine ⟨?_, ?_, ?_⟩
  · intro gs pos h
    have := h.length_le hlen (Int.le_refl 0) (by omega)
    omega
  · intro gs pos h hend
    have helements := h.elements hlen (Int.le_refl 0) (by omega) hend
    exact ⟨(decodeContentsL_eq_ok hlen).mpr helements, covered_of_elements helements⟩
  · intro gs h
    exact covered_of_elements ((decodeContentsL_eq_ok hlen).mp h)

theorem decodeContentsL_covered_nulls : Covered [5, 0, 5, 0]
    [⟨[5, 0, 5, 0], 2, 0, 5, .EUniversal⟩, ⟨[5, 0], 2, 0, 5, .EUniversal⟩] :=
  (decodeContentsL_covered (by decide)).2.2 _ (by decide)

end TASN1DecSequence

end OsSecurity

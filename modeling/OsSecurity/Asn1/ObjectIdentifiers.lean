/-
OBJECT IDENTIFIER: `asn1/oiddec.cpp`, `asn1/oidenc.cpp` and `asn1/base128enc.cpp`.

The encoder is given dotted text, which it reads with a `TLex`, and the decoder gives dotted
text back.  Behind the first octet, which packs two arcs, every arc is a sub-identifier in
base 128.  The decoder adds the digits up in a `TInt`, and takes an overflow to be a shift
that does not make the number larger.  A shift can lose bits and be larger all the same, so
sub-identifiers are accepted that are read modulo 2^32; and nothing is asked of leading
zeros, nor of the first octet when its first bit is set.

`subIdentifiers` and `exactArcs` say what octets stand for, without a width.
-/
import Mathlib.Data.List.TakeWhile
import OsSecurity.Asn1.EncodedHeader

namespace OsSecurity

open List Nat TASN1EncBase128DER TInt UInt32

variable {ids : List Nat} {aSource rest bs : Bytes} {b : UInt8} {iData : List UInt32} {n : Nat}
  {p lex : Text}

/-! ### Decimal text -/

namespace TLex

def isDigit (u : UInt16) : Bool := 0x30 ≤ u && u ≤ 0x39

/-- The number that digits stand for. -/
def number (digits : Text) : Nat := digits.foldl (fun n u => n * 10 + (u.toNat - 0x30)) 0

/-- `Val(TUint&)` at the position where the given text is left, with what is left behind it. -/
def val (lex : Text) : Leaving (UInt32 × Text) :=
  let digits := lex.takeWhile isDigit
  if digits = [] then leave KErrGeneral
  else if 4294967295 < number digits then leave KErrOverflow
  else .ok (ofNat (number digits), lex.dropWhile isDigit)

end TLex

namespace CASN1EncObjectIdentifier

def KSecondTermBigLimit : UInt32 := 175
def KFirstTermMultiplier : UInt32 := 40
def KFirstTermMax : UInt32 := 2

/-- A `.` to delimit, with something behind it. -/
def delimiter : Text → Leaving Text
  | u :: lex => if u = 46 ∧ lex ≠ [] then .ok lex else leave KErrBadDescriptor
  | [] => leave KErrBadDescriptor

/-- The loop over the remaining terms; each takes at least a `.` and a digit. -/
def remainingTerms : Nat → Text → Leaving (List UInt32)
  | _, [] => .ok []
  | 0, _ :: _ => leave KErrNoMemory
  | n + 1, u :: us => do
    let lex ← delimiter (u :: us)
    let (value, lex) ← TLex.val lex
    let iData ← remainingTerms n lex
    return value :: iData

/-- From the second term on. -/
def constructSecondL (first : UInt32) (lex : Text) : Leaving (UInt8 × List UInt32) := do
  let (second, lex) ← TLex.val lex
  if (first < KFirstTermMax ∧ second < KFirstTermMultiplier) ∨
      (first = KFirstTermMax ∧ second ≤ KSecondTermBigLimit) then do
    let iData ← remainingTerms lex.length lex
    return ((KFirstTermMultiplier * first).toUInt8 + second.toUInt8, iData)
  else leave KErrBadDescriptor

/-- `ConstructL`, which leaves `iFirstOctet` and `iData`. -/
def constructL (aStr : Text) : Leaving (UInt8 × List UInt32) :=
  if aStr = [] then leave KErrBadDescriptor
  else do
    let (first, lex) ← TLex.val aStr
    if first ≤ KFirstTermMax then do
      let lex ← delimiter lex
      constructSecondL first lex
    else leave KErrBadDescriptor

end CASN1EncObjectIdentifier

namespace TASN1DecObjectIdentifier

/-- What `DecodeDERL` makes of contents. -/
def decodedText (aSource : Bytes) : Leaving Text := (decodeContentsL aSource).map dotted

/-! ### What contents stand for -/

/-- The exact values of sub-identifiers, the first of which continues `v`; none when the last
one is cut short. -/
def subIdentifiers (v : Nat) : Bytes → Option (List Nat)
  | [] => some []
  | b :: rest =>
    if 128 ≤ b then
      if rest = [] then none else subIdentifiers (v * 128 + b.toNat % 128) rest
    else (subIdentifiers 0 rest).map ((v * 128 + b.toNat) :: ·)

/-- The exact arcs: two of the first sub-identifier, one of every other. -/
def exactArcs (aSource : Bytes) : Option (List Nat) :=
  match subIdentifiers 0 aSource with
  | some (s :: ids) => some (min (s / 40) 2 :: (s - 40 * min (s / 40) 2) :: ids)
  | _ => none

/-- A shift of the low 32 bits of `v` passes for one without overflow. -/
def Passes (v : Nat) : Prop := TInt.wrap v = 0 ∨ TInt.wrap v < TInt.wrap (v * 128)

instance (v : Nat) : Decidable (Passes v) :=
  inferInstanceAs (Decidable (TInt.wrap v = 0 ∨ TInt.wrap v < TInt.wrap (v * 128)))

/-- Every shift in sub-identifiers passes. -/
def AllPass (v : Nat) : Bytes → Prop
  | [] => True
  | b :: rest => Passes v ∧ AllPass (if 128 ≤ b then v * 128 + b.toNat % 128 else 0) rest

/-- Contents that nothing is found wrong with: their first octet, and their sub-identifiers
behind it. -/
structure Accepted (aSource : Bytes) (b : UInt8) (ids : List Nat) (rest : Bytes) : Prop where
  source : aSource = b :: rest
  complete : subIdentifiers 0 rest = some ids
  passes : AllPass 0 rest
  count : ids.length + 2 ≤ KNumberOfIDs

/-- The two arcs that the decoder makes of the first octet. -/
def firstArcs (b : UInt8) : List Int :=
  if 80 ≤ b then [2, b.toNat - 80] else if 40 ≤ b then [1, b.toNat - 40] else [0, b.toNat]

/-! ### The arcs that are read -/

theorem wrap_mul (v : Nat) : wrap (wrap v * 128) = wrap ((v * 128 : Nat) : Int) := by
  unfold wrap
  rw [Int.bmod_mul_bmod]
  push_cast
  rfl

/-- The seven bits that a shift makes room for cannot overflow. -/
theorem wrap_add (v : Nat) {d : Nat} (hd : d < 128) :
    wrap ((v * 128 : Nat) : Int) + d = wrap ((v * 128 + d : Nat) : Int) := by
  unfold wrap Int.bmod
  push_cast
  split <;> split <;> omega

theorem decodeArcs_cons (b : UInt8) (rest : Bytes) (SIDn v : Nat) :
    decodeArcs SIDn (wrap v) (b :: rest) =
      if ¬ Passes v then leave KErrOverflow
      else if 128 ≤ b then
        if rest = [] then leave KErrArgument
        else decodeArcs SIDn (wrap ((v * 128 + b.toNat % 128 : Nat) : Int)) rest
      else if KNumberOfIDs ≤ SIDn then leave KErrOverflow
      else do
        let arcs ← decodeArcs (SIDn + 1) (wrap ((0 : Nat) : Int)) rest
        return wrap ((v * 128 + b.toNat : Nat) : Int) :: arcs := by
  have hlow : (b &&& 0x7f).toNat = b.toNat % 128 := by
    rw [UInt8.toNat_and]
    exact and_two_pow_sub_one_eq_mod _ 7
  have hover : (wrap v ≠ 0 ∧ wrap (wrap v * 128) ≤ wrap v) ↔ ¬ Passes v := by
    unfold Passes
    rw [wrap_mul, not_or, not_lt]
    rfl
  have hzero : wrap ((0 : Nat) : Int) = 0 := by decide
  rw [decodeArcs, if_congr hover rfl rfl, hlow, wrap_mul, wrap_add v (mod_lt _ (by decide)),
    hzero]
  by_cases hmore : 128 ≤ b
  · rw [if_pos hmore, if_pos hmore]
  · have hb : b.toNat < 128 := Nat.lt_of_not_le fun h => hmore (UInt8.le_iff_toNat_le.mpr h)
    rw [if_neg hmore, if_neg hmore, wrap_add v hb]

theorem decodeArcs_eq_ok {SIDn v : Nat} {arcs : List Int} :
    decodeArcs SIDn (wrap v) bs = .ok arcs ↔ ∃ ids, subIdentifiers v bs = some ids ∧
      AllPass v bs ∧ (ids = [] ∨ ids.length + SIDn ≤ KNumberOfIDs) ∧
        arcs = ids.map fun n : Nat => wrap n := by
  induction bs generalizing SIDn v arcs with
  | nil =>
      unfold decodeArcs subIdentifiers AllPass
      simp [eq_comm]
  | cons b rest ih =>
      rw [decodeArcs_cons]
      unfold subIdentifiers AllPass
      by_cases hpass : Passes v
      · rw [if_neg (not_not_intro hpass)]
        by_cases hmore : 128 ≤ b
        · rw [if_pos hmore, if_pos hmore, if_pos hmore]
          by_cases hrest : rest = []
          · simp [hrest]
          · rw [if_neg hrest, if_neg hrest, ih]
            simp only [hpass, true_and]
        · rw [if_neg hmore, if_neg hmore, if_neg hmore]
          by_cases hfull : KNumberOfIDs ≤ SIDn
          · rw [if_pos hfull]
            simp only [leave_ne_ok, Option.map_eq_some_iff, false_iff, not_exists, not_and]
            rintro ids ⟨more, -, rfl⟩ - (hnil | hcount)
            · exact absurd hnil (cons_ne_nil _ _)
            · rw [length_cons] at hcount
              omega
          · rw [if_neg hfull]
            simp only [bind_eq_ok, leaving_pure, Except.ok.injEq, ih, Option.map_eq_some_iff]
            constructor
            · rintro ⟨_, ⟨ids, hids, hall, hcount, rfl⟩, rfl⟩
              refine ⟨_, ⟨ids, hids, rfl⟩, ⟨hpass, hall⟩, Or.inr ?_, rfl⟩
              rw [length_cons]
              rcases hcount with rfl | hcount
              · rw [length_nil]
                omega
              · omega
            · rintro ⟨_, ⟨ids, hids, rfl⟩, ⟨-, hall⟩, hcount, rfl⟩
              have hlength := hcount.resolve_left (cons_ne_nil _ _)
              rw [length_cons] at hlength
              exact ⟨_, ⟨ids, hids, hall, Or.inr (by omega), rfl⟩, rfl⟩
      · rw [if_pos hpass]
        simp [hpass]

theorem decodeContentsL_eq_ok {arcs : List Int} :
    decodeContentsL aSource = .ok arcs ↔ ∃ b ids rest, Accepted aSource b ids rest ∧
      arcs = firstArcs b ++ ids.map fun n : Nat => wrap n := by
  cases aSource with
  | nil =>
      constructor
      · intro h
        exact absurd h (leave_ne_ok _ _)
      · rintro ⟨b, ids, rest, h, -⟩
        exact absurd h.source.symm (cons_ne_nil _ _)
  | cons b rest =>
      have hfirst : decodeContentsL (b :: rest) =
          (decodeArcs 2 0 rest).map fun arcs => firstArcs b ++ arcs := by
        rw [decodeContentsL]
        unfold firstArcs
        cases decodeArcs 2 0 rest with
        | error e => rfl
        | ok arcs =>
          rw [ok_bind]
          split
          · rfl
          · split <;> rfl
      have hzero : wrap ((0 : Nat) : Int) = 0 := by decide
      have harcs := fun arcs => @decodeArcs_eq_ok rest 2 0 arcs
      rw [hzero] at harcs
      rw [hfirst]
      constructor
      · intro h
        cases hdecoded : decodeArcs 2 0 rest with
        | error e =>
          rw [hdecoded] at h
          cases h
        | ok more =>
          rw [hdecoded] at h
          obtain ⟨ids, hids, hall, hcount, rfl⟩ := (harcs more).mp hdecoded
          refine ⟨b, ids, rest, ⟨rfl, hids, hall, ?_⟩, (Except.ok.inj h).symm⟩
          rcases hcount with rfl | hcount
          · decide
          · exact hcount
      · rintro ⟨b', ids, rest', ⟨hsource, hids, hall, hcount⟩, rfl⟩
        obtain ⟨rfl, rfl⟩ := List.cons.inj hsource
        rw [(harcs _).mpr ⟨ids, hids, hall, Or.inr hcount, rfl⟩]
        rfl

/-- The arcs that are read are not negative. -/
theorem wrap_nonneg {v : Nat} (hids : subIdentifiers v bs = some ids) (hall : AllPass v bs)
    (hv : 0 ≤ wrap v) : ∀ n ∈ ids, 0 ≤ wrap n := by
  induction bs generalizing v ids with
  | nil =>
      obtain rfl : [] = ids := Option.some.inj hids
      exact fun n hn => absurd hn (not_mem_nil)
  | cons b rest ih =>
      obtain ⟨hpass, hrest⟩ := hall
      have hshift : 0 ≤ wrap ((v * 128 : Nat) : Int) := by
        rcases hpass with hzero | hmore
        · rw [← wrap_mul, hzero]
          decide
        · push_cast
          omega
      unfold subIdentifiers at hids
      by_cases hmore : 128 ≤ b
      · rw [if_pos hmore] at hids hrest
        by_cases hnil : rest = []
        · rw [if_pos hnil] at hids
          cases hids
        · rw [if_neg hnil] at hids
          refine ih hids hrest ?_
          rw [← wrap_add v (mod_lt _ (by decide))]
          omega
      · rw [if_neg hmore] at hids hrest
        obtain ⟨more, hmore', rfl⟩ := Option.map_eq_some_iff.mp hids
        have hb : b.toNat < 128 := Nat.lt_of_not_le fun h => hmore (UInt8.le_iff_toNat_le.mpr h)
        intro n hn
        rcases mem_cons.mp hn with rfl | hn
        · rw [← wrap_add v hb]
          omega
        · exact ih hmore' hrest (by decide) n hn

end TASN1DecObjectIdentifier

/-! ### Dotted text -/

namespace TLex

/-- Digits as `Val` reads them: at least one. -/
def Digits (p : Text) : Prop := p ≠ [] ∧ ∀ u ∈ p, isDigit u = true

/-- Terms with a `.` between them. -/
def joined : List Text → Text
  | [] => []
  | p :: ps => p ++ ps.flatMap (46 :: ·)

/-- No zero in front of another digit. -/
def Canonical (p : Text) : Prop := Digits p ∧ (2 ≤ p.length → p.head? ≠ some 48)

/-- The digits of a number. -/
def decimal (n : Nat) : Text := (toDigits 10 n).map fun c => c.toNat.toUInt16

theorem takeWhile_digits {rest : Text} (hp : ∀ u ∈ p, isDigit u = true)
    (hrest : ∀ u ∈ rest.head?, isDigit u = false) :
    (p ++ rest).takeWhile isDigit = p ∧ (p ++ rest).dropWhile isDigit = rest := by
  rw [takeWhile_append_of_pos hp, dropWhile_append_of_pos hp]
  cases rest with
  | nil => simp
  | cons u us =>
      have hu := hrest u rfl
      simp [hu]

theorem head_terms (ps : List Text) : ∀ u ∈ (ps.flatMap (46 :: ·)).head?, isDigit u = false := by
  cases ps with
  | nil => simp
  | cons p ps => simp [isDigit]

theorem append_terms {q : Text} {ps qs : List Text} (hp : Digits p) (hq : Digits q)
    (h : p ++ ps.flatMap (46 :: ·) = q ++ qs.flatMap (46 :: ·)) :
    p = q ∧ ps.flatMap (46 :: ·) = qs.flatMap (46 :: ·) := by
  obtain ⟨hp1, hp2⟩ := takeWhile_digits hp.2 (head_terms ps)
  obtain ⟨hq1, hq2⟩ := takeWhile_digits hq.2 (head_terms qs)
  rw [h] at hp1 hp2
  exact ⟨hp1.symm.trans hq1, hp2.symm.trans hq2⟩

/-- Terms can be told apart. -/
theorem flatMap_injective {ps qs : List Text} (hps : ∀ p ∈ ps, Digits p)
    (hqs : ∀ q ∈ qs, Digits q) (h : ps.flatMap (46 :: ·) = qs.flatMap (46 :: ·)) : ps = qs := by
  induction ps generalizing qs with
  | nil =>
      cases qs with
      | nil => rfl
      | cons q qs => cases h
  | cons p ps ih =>
      cases qs with
      | nil => cases h
      | cons q qs =>
        obtain ⟨rfl, hrest⟩ := append_terms (hps p mem_cons_self) (hqs q mem_cons_self)
          (List.cons.inj h).2
        rw [ih (fun p hp => hps p (mem_cons_of_mem _ hp))
          (fun q hq => hqs q (mem_cons_of_mem _ hq)) hrest]

theorem joined_injective {ps qs : List Text} (hps : ∀ p ∈ ps, Digits p) (hqs : ∀ q ∈ qs, Digits q)
    (h : joined ps = joined qs) : ps = qs := by
  cases ps with
  | nil =>
      cases qs with
      | nil => rfl
      | cons q qs =>
        exact absurd (append_eq_nil_iff.mp h.symm).1 (hqs q mem_cons_self).1
  | cons p ps =>
      cases qs with
      | nil => exact absurd (append_eq_nil_iff.mp h).1 (hps p mem_cons_self).1
      | cons q qs =>
        obtain ⟨rfl, hrest⟩ :=
          append_terms (hps p mem_cons_self) (hqs q mem_cons_self) h
        rw [flatMap_injective (fun p hp => hps p (mem_cons_of_mem _ hp))
          (fun q hq => hqs q (mem_cons_of_mem _ hq)) hrest]

theorem digitChar_eq : ∀ d < 10, (digitChar d).toNat.toUInt16 = (48 + d).toUInt16 := by
  decide

theorem digit_toNat {d : Nat} (hd : d < 10) : ((48 + d).toUInt16).toNat = 48 + d := by
  simp
  omega

theorem decimal_eq (n : Nat) :
    decimal n = (if n < 10 then [] else decimal (n / 10)) ++ [(48 + n % 10).toUInt16] := by
  unfold decimal
  rw [toDigits_eq_if (by decide)]
  by_cases h : n < 10
  · rw [if_pos h, if_pos h, mod_eq_of_lt h, ← digitChar_eq n h]
    rfl
  · rw [if_neg h, if_neg h, map_append, ← digitChar_eq _ (mod_lt n (by decide))]
    rfl

theorem decimal_digits (n : Nat) : Digits (decimal n) := by
  induction n using Nat.strongRecOn with
  | _ n ih =>
      have hmod := mod_lt n (by decide : 0 < 10)
      rw [decimal_eq]
      refine ⟨by simp, ?_⟩
      intro u hu
      rcases mem_append.mp hu with hu | hu
      · by_cases h : n < 10
        · rw [if_pos h] at hu
          exact absurd hu not_mem_nil
        · rw [if_neg h] at hu
          exact (ih (n / 10) (by omega)).2 u hu
      · obtain rfl := mem_singleton.mp hu
        have hvalue := digit_toNat hmod
        unfold isDigit
        simp only [Bool.and_eq_true, decide_eq_true_eq, UInt16.le_iff_toNat_le, hvalue]
        exact ⟨Nat.le_add_right _ _, by show 48 + n % 10 ≤ 57; omega⟩

theorem head_decimal (hn : 0 < n) : (decimal n).head? ≠ some 48 := by
  induction n using Nat.strongRecOn with
  | _ n ih =>
      rw [decimal_eq]
      by_cases h : n < 10
      · rw [if_pos h]
        intro hzero
        have hvalue := digit_toNat (mod_lt n (by decide : 0 < 10))
        rw [Option.some.inj hzero] at hvalue
        have : (48 : UInt16).toNat = 48 := rfl
        omega
      · rw [if_neg h, head?_append_of_ne_nil _ (decimal_digits _).1]
        exact ih (n / 10) (by omega) (by omega)

theorem decimal_canonical (n : Nat) : Canonical (decimal n) := by
  refine ⟨decimal_digits n, ?_⟩
  intro hlong
  by_cases hn : 0 < n
  · exact head_decimal hn
  · obtain rfl : n = 0 := by omega
    exact absurd hlong (by decide)

theorem number_concat (p : Text) (u : UInt16) :
    number (p ++ [u]) = number p * 10 + (u.toNat - 48) := by
  simp [number]

theorem number_decimal (n : Nat) : number (decimal n) = n := by
  induction n using Nat.strongRecOn with
  | _ n ih =>
      rw [decimal_eq, number_concat, digit_toNat (mod_lt n (by decide))]
      by_cases h : n < 10
      · rw [if_pos h]
        show 0 * 10 + _ = n
        omega
      · rw [if_neg h, ih (n / 10) (by omega)]
        omega

/-- Only leading zeros are lost. -/
theorem decimal_number (h : Canonical p) : decimal (number p) = p := by
  induction p using reverseRecOn with
  | nil => exact absurd rfl h.1.1
  | append_singleton q u ih =>
      have hu := h.1.2 u (mem_append_right _ (mem_singleton_self u))
      unfold isDigit at hu
      simp only [Bool.and_eq_true, decide_eq_true_eq, UInt16.le_iff_toNat_le] at hu
      have hlo : 48 ≤ u.toNat := hu.1
      have hhi : u.toNat ≤ 57 := hu.2
      have hlast : (48 + (u.toNat - 48)).toUInt16 = u := by
        apply UInt16.toNat_inj.mp
        rw [digit_toNat (by omega)]
        omega
      rw [number_concat, decimal_eq]
      by_cases hq : q = []
      · subst hq
        have hnil : number ([] : Text) = 0 := rfl
        rw [hnil, if_pos (by omega), Nat.zero_mul, Nat.zero_add, mod_eq_of_lt (by omega), hlast]
      · have hlen := length_pos_iff.mpr hq
        have hhead := h.2 (by rw [length_append, length_singleton]; omega)
        rw [head?_append_of_ne_nil _ hq] at hhead
        have hprev := ih ⟨⟨hq, fun v hv => h.1.2 v (mem_append_left _ hv)⟩, fun _ => hhead⟩
        have hpos : 0 < number q := by
          rcases Nat.eq_zero_or_pos (number q) with hzero | hpos
          · rw [hzero] at hprev
            rw [← hprev] at hhead
            exact absurd rfl hhead
          · exact hpos
        have hdiv : (number q * 10 + (u.toNat - 48)) / 10 = number q := by omega
        have hmod : (number q * 10 + (u.toNat - 48)) % 10 = u.toNat - 48 := by omega
        rw [if_neg (by omega), hdiv, hmod, hprev, hlast]

theorem appendNum_eq {n : Int} (hn : 0 ≤ n) : appendNum n = decimal n.toNat := by
  unfold appendNum decimal
  rw [if_neg (not_lt.mpr hn), nil_append]
  congr 2
  omega

theorem dotted_eq_joined (arcs : List Int) : dotted arcs = joined (arcs.map appendNum) := by
  induction arcs with
  | nil => rfl
  | cons n rest ih =>
      cases rest with
      | nil => simp [dotted, joined]
      | cons m rest =>
        rw [dotted, ih]
        · rfl
        · simp

theorem appendNum_digits {arcs : List Int} (h : ∀ n ∈ arcs, 0 ≤ n) :
    ∀ p ∈ arcs.map appendNum, Digits p := by
  intro p hp
  obtain ⟨n, hn, rfl⟩ := mem_map.mp hp
  rw [appendNum_eq (h n hn)]
  exact decimal_digits _

/-- The arcs can be read off their dotted text. -/
theorem arcs_of_dotted {arcs : List Int} (h : ∀ n ∈ arcs, 0 ≤ n) :
    (arcs.map appendNum).map (fun p => (number p : Int)) = arcs := by
  rw [map_map]
  refine (map_congr_left fun n hn => ?_).trans (map_id arcs)
  show (number (appendNum n) : Int) = n
  rw [appendNum_eq (h n hn), number_decimal]
  exact Int.toNat_of_nonneg (h n hn)

theorem dotted_injective {as bs : List Int} (ha : ∀ n ∈ as, 0 ≤ n) (hb : ∀ n ∈ bs, 0 ≤ n)
    (h : dotted as = dotted bs) : as = bs := by
  rw [dotted_eq_joined, dotted_eq_joined] at h
  rw [← arcs_of_dotted ha, joined_injective (appendNum_digits ha) (appendNum_digits hb) h,
    arcs_of_dotted hb]

end TLex

/-! ### Decoding -/

namespace TASN1DecObjectIdentifier

/-- Contents are rejected, or read as the exact arcs. -/
def Exact (aSource : Bytes) : Prop :=
  ∀ text, decodedText aSource = .ok text →
    ∃ arcs : List Nat, exactArcs aSource = some arcs ∧ text = dotted (arcs.map fun n : Nat => n)

/-- Not both are accepted with one text, unless they are the same. -/
def ToldApart (aSource aOther : Bytes) : Prop :=
  ∀ text, decodedText aSource = .ok text → decodedText aOther = .ok text → aSource = aOther

/-- The arcs that accepted contents are read as. -/
def arcsRead (b : UInt8) (ids : List Nat) : List Int :=
  firstArcs b ++ ids.map fun n : Nat => TInt.wrap n

theorem decodedText_eq_ok {text : Text} :
    decodedText aSource = .ok text ↔
      ∃ b ids rest, Accepted aSource b ids rest ∧ text = dotted (arcsRead b ids) := by
  unfold decodedText
  constructor
  · intro h
    cases harcs : decodeContentsL aSource with
    | error e =>
      rw [harcs] at h
      cases h
    | ok arcs =>
      rw [harcs] at h
      obtain ⟨b, ids, rest, hacc, rfl⟩ := decodeContentsL_eq_ok.mp harcs
      exact ⟨b, ids, rest, hacc, (Except.ok.inj h).symm⟩
  · intro ⟨b, ids, rest, hacc, htext⟩
    rw [decodeContentsL_eq_ok.mpr ⟨b, ids, rest, hacc, rfl⟩, htext]
    rfl

theorem Accepted.unique {rest' : Bytes} {b' : UInt8} {ids' : List Nat}
    (h : Accepted aSource b ids rest) (h' : Accepted aSource b' ids' rest') :
    b = b' ∧ ids = ids' ∧ rest = rest' := by
  obtain ⟨rfl, rfl⟩ := List.cons.inj (h.source.symm.trans h'.source)
  exact ⟨rfl, Option.some.inj (h.complete.symm.trans h'.complete), rfl⟩

/-- The text of accepted contents. -/
theorem Accepted.decodedText_eq (h : Accepted aSource b ids rest) (text : Text) :
    decodedText aSource = .ok text ↔ text = dotted (arcsRead b ids) := by
  rw [decodedText_eq_ok]
  constructor
  · intro ⟨b', ids', rest', h', htext⟩
    obtain ⟨rfl, rfl, rfl⟩ := h.unique h'
    exact htext
  · intro htext
    exact ⟨b, ids, rest, h, htext⟩

theorem firstArcs_toNat (b : UInt8) : firstArcs b =
    if 80 ≤ b.toNat then [2, (b.toNat - 80 : Int)]
    else if 40 ≤ b.toNat then [1, (b.toNat - 40 : Int)] else [0, (b.toNat : Int)] := by
  unfold firstArcs
  simp only [UInt8.le_iff_toNat_le]
  rfl

theorem firstArcs_length (b : UInt8) : (firstArcs b).length = 2 := by
  rw [firstArcs_toNat]
  split
  · rfl
  · split <;> rfl

theorem firstArcs_nonneg (b : UInt8) : ∀ n ∈ firstArcs b, 0 ≤ n := by
  rw [firstArcs_toNat]
  intro n hn
  split at hn
  · simp at hn
    omega
  · split at hn
    · simp at hn
      omega
    · simp at hn
      omega

theorem firstArcs_injective {b' : UInt8} (h : firstArcs b = firstArcs b') : b = b' := by
  apply UInt8.toNat_inj.mp
  rw [firstArcs_toNat, firstArcs_toNat] at h
  split at h
  · split at h
    · simp at h
      omega
    · split at h <;> simp at h
  · split at h
    · split at h
      · simp at h
      · split at h
        · simp at h
          omega
        · simp at h
    · split at h
      · simp at h
      · split at h
        · simp at h
        · simpa using h

theorem Accepted.arcsRead_nonneg (h : Accepted aSource b ids rest) :
    ∀ n ∈ arcsRead b ids, 0 ≤ n := by
  intro n hn
  rcases mem_append.mp hn with hn | hn
  · exact firstArcs_nonneg b n hn
  · obtain ⟨id, hid, rfl⟩ := mem_map.mp hn
    exact wrap_nonneg h.complete h.passes (by decide) id hid

/-- Two contents have one text if they differ by multiples of 2^32, and by leading zeros. -/
theorem toldApart_iff {aOther rest' : Bytes} {b' : UInt8} {ids' : List Nat}
    (h : Accepted aSource b ids rest) (h' : Accepted aOther b' ids' rest') :
    ToldApart aSource aOther ↔
      (b = b' → (ids.map fun n : Nat => wrap n) = (ids'.map fun n : Nat => wrap n) →
        aSource = aOther) := by
  unfold ToldApart
  constructor
  · intro happart hb hids
    have hread : arcsRead b ids = arcsRead b' ids' := by
      unfold arcsRead
      rw [hb, hids]
    refine happart _ ((h.decodedText_eq _).mpr rfl) ((h'.decodedText_eq _).mpr ?_)
    rw [hread]
  · intro halias text htext htext'
    have hdotted :=
      ((h.decodedText_eq text).mp htext).symm.trans ((h'.decodedText_eq text).mp htext')
    have hread := TLex.dotted_injective h.arcsRead_nonneg h'.arcsRead_nonneg hdotted
    unfold arcsRead at hread
    obtain ⟨hfirst, hids⟩ := append_inj hread
      ((firstArcs_length b).trans (firstArcs_length b').symm)
    exact halias (firstArcs_injective hfirst) hids

theorem subIdentifiers_eq_nil {v : Nat} (h : subIdentifiers v bs = some []) : bs = [] := by
  induction bs generalizing v with
  | nil => rfl
  | cons b rest ih =>
      unfold subIdentifiers at h
      by_cases hmore : 128 ≤ b
      · rw [if_pos hmore] at h
        by_cases hnil : rest = []
        · rw [if_pos hnil] at h
          cases h
        · rw [if_neg hnil] at h
          exact absurd (ih h) hnil
      · rw [if_neg hmore] at h
        obtain ⟨more, -, hcons⟩ := Option.map_eq_some_iff.mp h
        cases hcons

/-- A zero in front of a sub-identifier is read over. -/
theorem Accepted.padded (h : Accepted aSource b ids rest) (hrest : rest ≠ []) :
    Accepted (b :: 0x80 :: rest) b ids (0x80 :: rest) := by
  refine ⟨rfl, ?_, ?_, h.count⟩
  · unfold subIdentifiers
    rw [if_pos (by decide), if_neg hrest]
    exact h.complete
  · exact ⟨Or.inl rfl, h.passes⟩

/-- Contents have a text of their own only if they are a single octet. -/
theorem Accepted.toldApart_all_iff (h : Accepted aSource b ids rest) :
    (∀ aOther, ToldApart aSource aOther) ↔ aSource.length = 1 := by
  rw [h.source, length_cons, Nat.add_eq_right, length_eq_zero_iff, ← h.source]
  constructor
  · intro hall
    by_contra hrest
    have hsame := (toldApart_iff h (h.padded hrest)).mp (hall _) rfl rfl
    rw [h.source] at hsame
    exact ne_cons_self (List.cons.inj hsame).2
  · intro hrest aOther text htext htext'
    obtain ⟨b', ids', rest', h', -⟩ := decodedText_eq_ok.mp htext'
    refine (toldApart_iff h h').mpr ?_ text htext htext'
    intro hb hids
    have hnil : ids = [] := by
      have hcomplete := h.complete
      rw [hrest] at hcomplete
      exact (Option.some.inj hcomplete).symm
    rw [hnil] at hids
    have hnil' := h'.complete
    rw [map_eq_nil_iff.mp hids.symm] at hnil'
    rw [h.source, h'.source, hb, hrest, subIdentifiers_eq_nil hnil']

/-! ### Exact arcs -/

theorem subIdentifiers_length {v w : Nat} {ids' : List Nat} (h : subIdentifiers v bs = some ids)
    (h' : subIdentifiers w bs = some ids') : ids.length = ids'.length := by
  induction bs generalizing v w ids ids' with
  | nil =>
      obtain rfl : [] = ids := Option.some.inj h
      obtain rfl : [] = ids' := Option.some.inj h'
      rfl
  | cons b rest ih =>
      unfold subIdentifiers at h h'
      by_cases hmore : 128 ≤ b
      · rw [if_pos hmore] at h h'
        by_cases hnil : rest = []
        · rw [if_pos hnil] at h
          cases h
        · rw [if_neg hnil] at h h'
          exact ih h h'
      · rw [if_neg hmore, Option.map_eq_some_iff] at h h'
        obtain ⟨more, hids, rfl⟩ := h
        obtain ⟨more', hids', rfl⟩ := h'
        rw [length_cons, length_cons, ih hids hids']

/-- The arcs are exact below the first bit of the first octet. -/
theorem Accepted.exactArcs_eq (h : Accepted aSource b ids rest) (hb : b < 0x80) :
    ∃ arcs : List Nat, exactArcs aSource = some arcs ∧
      (arcs.map fun n : Nat => (n : Int)) = firstArcs b ++ ids.map fun n : Nat => (n : Int) := by
  have hfirst : subIdentifiers 0 aSource = some (b.toNat :: ids) := by
    rw [h.source]
    unfold subIdentifiers
    rw [if_neg (UInt8.not_le.mpr hb), h.complete]
    simp
  refine ⟨_, by unfold exactArcs; rw [hfirst], ?_⟩
  rw [map_cons, map_cons, firstArcs_toNat]
  split
  · have : min (b.toNat / 40) 2 = 2 := by omega
    rw [this]
    simp
    omega
  · split
    · have : min (b.toNat / 40) 2 = 1 := by omega
      rw [this]
      simp
      omega
    · have : min (b.toNat / 40) 2 = 0 := by omega
      rw [this]
      simp

/-- With that bit, there is one arc too many. -/
theorem Accepted.exactArcs_length {arcs : List Nat} (h : Accepted aSource b ids rest)
    (hb : ¬ b < 0x80) (harcs : exactArcs aSource = some arcs) : arcs.length = ids.length + 1 := by
  unfold exactArcs at harcs
  rw [h.source] at harcs
  unfold subIdentifiers at harcs
  rw [if_pos (UInt8.not_lt.mp hb)] at harcs
  by_cases hnil : rest = []
  · rw [if_pos hnil] at harcs
    cases harcs
  · rw [if_neg hnil] at harcs
    cases hids : subIdentifiers (0 * 128 + b.toNat % 128) rest with
    | none =>
      rw [hids] at harcs
      cases harcs
    | some more =>
      have hlength := subIdentifiers_length h.complete hids
      cases more with
      | nil =>
        rw [hids] at harcs
        cases harcs
      | cons s more =>
        rw [hids] at harcs
        rw [← Option.some.inj harcs, hlength]
        rfl

theorem Accepted.exactly_iff (h : Accepted aSource b ids rest) :
    Exact aSource ↔ b < 0x80 ∧ ∀ id ∈ ids, (id : Int) ≤ KMaxTInt := by
  have hnat : ∀ arcs : List Nat, ∀ n ∈ arcs.map fun n : Nat => (n : Int), 0 ≤ n := by
    intro arcs n hn
    obtain ⟨m, -, rfl⟩ := mem_map.mp hn
    exact Int.natCast_nonneg m
  constructor
  · intro hexact
    obtain ⟨arcs, harcs, hdotted⟩ := hexact _ ((h.decodedText_eq _).mpr rfl)
    have hread := TLex.dotted_injective h.arcsRead_nonneg (hnat arcs) hdotted
    have hb : b < 0x80 := by
      by_contra hb
      have hlength := congrArg List.length hread
      rw [length_map, h.exactArcs_length hb harcs, arcsRead, length_append,
        firstArcs_length, length_map] at hlength
      omega
    obtain ⟨arcs', harcs', hsplit⟩ := h.exactArcs_eq hb
    obtain rfl := Option.some.inj (harcs.symm.trans harcs')
    rw [hsplit, arcsRead, append_cancel_left_eq, map_inj_left] at hread
    refine ⟨hb, fun id hid => ?_⟩
    rw [← hread id hid]
    exact wrap_le id
  · intro ⟨hb, hids⟩ text htext
    obtain ⟨arcs, harcs, hsplit⟩ := h.exactArcs_eq hb
    refine ⟨arcs, harcs, ((h.decodedText_eq text).mp htext).trans ?_⟩
    rw [hsplit]
    refine congrArg (fun more => dotted (firstArcs b ++ more)) (map_congr_left ?_)
    intro id hid
    exact wrap_of_range (by unfold KMinTInt; omega) (hids id hid)

/-! ### Arcs that are encoded -/

theorem passes_small {v : Nat} (hv : v < 2 ^ 24) : Passes v := by
  have hshort : wrap v = v :=
    wrap_of_range (by unfold KMinTInt; omega) (by unfold KMaxTInt; omega)
  have hshifted : wrap (v * 128) = v * 128 :=
    wrap_of_range (by unfold KMinTInt; omega) (by unfold KMaxTInt; omega)
  unfold Passes
  rw [hshort, hshifted]
  omega

/-- An octet that goes on. -/
theorem continues (w : Nat) :
    128 ≤ w.toUInt8 ||| 0x80 ∧ (w.toUInt8 ||| 0x80).toNat % 128 = w % 128 := by
  constructor
  · rw [UInt8.le_iff_toNat_le, UInt8.toNat_or]
    exact right_le_or
  · rw [← continued_and w, UInt8.toNat_and]
    exact (and_two_pow_sub_one_eq_mod _ 7).symm

theorem subIdentifiers_leading {w : Nat} (hw : w < 128 ^ n) {tail : Bytes} (htail : tail ≠ []) :
    subIdentifiers 0 (leading n w ++ tail) = subIdentifiers w tail := by
  induction n generalizing w tail with
  | zero =>
      obtain rfl : w = 0 := by omega
      rfl
  | succ n ih =>
      have hdiv : w >>> 7 = w / 128 := shiftRight_eq_div_pow w 7
      have hlt : w / 128 < 128 ^ n := by
        rw [pow_succ, Nat.mul_comm] at hw
        exact Nat.div_lt_of_lt_mul hw
      obtain ⟨hmore, hlow⟩ := continues w
      rw [leading, List.append_assoc, hdiv, ih hlt (by simp),
        singleton_append]
      conv => lhs; unfold subIdentifiers
      rw [if_pos hmore, if_neg htail, hlow]
      congr 1
      omega

theorem allPass_leading {w : Nat} (hw : w < 128 ^ n) (hsmall : w < 2 ^ 24) {tail : Bytes}
    (htail : AllPass w tail) : AllPass 0 (leading n w ++ tail) := by
  induction n generalizing w tail with
  | zero =>
      obtain rfl : w = 0 := by omega
      exact htail
  | succ n ih =>
      have hdiv : w >>> 7 = w / 128 := shiftRight_eq_div_pow w 7
      have hlt : w / 128 < 128 ^ n := by
        rw [pow_succ, Nat.mul_comm] at hw
        exact Nat.div_lt_of_lt_mul hw
      obtain ⟨hmore, hlow⟩ := continues w
      rw [leading, List.append_assoc, hdiv, singleton_append]
      refine ih hlt (by omega) ⟨passes_small (by omega), ?_⟩
      rw [if_pos hmore, hlow]
      have hsplit : w / 128 * 128 + w % 128 = w := by omega
      rw [hsplit]
      exact htail

/-- An encoded arc in front of sub-identifiers. -/
theorem encoded_arc {a : UInt32} (ha : a.toNat < 2 ^ 31) {tail : Bytes}
    (hids : subIdentifiers 0 tail = some ids) (hall : AllPass 0 tail) :
    subIdentifiers 0 (writeDERL a ++ tail) = some (a.toNat :: ids) ∧
      AllPass 0 (writeDERL a ++ tail) := by
  have hdiv : a.toNat >>> 7 = a.toNat / 128 := shiftRight_eq_div_pow _ 7
  have hlast := continued_and a.toNat
  have hends : ¬ 128 ≤ (a.toNat.toUInt8 ||| 0x80) &&& 0x7f := by
    rw [UInt8.le_iff_toNat_le, hlast]
    exact Nat.not_le.mpr (mod_lt _ (by decide))
  have hlt := div_lt_leading a
  unfold writeDERL
  rw [List.append_assoc, hdiv, singleton_append]
  constructor
  · rw [subIdentifiers_leading hlt (cons_ne_nil _ _)]
    unfold subIdentifiers
    rw [if_neg hends, hids, hlast, Option.map_some]
    congr 2
    omega
  · refine allPass_leading hlt (by omega) ⟨passes_small (by omega), ?_⟩
    rw [if_neg hends]
    exact hall

theorem encoded_arcs (hsmall : ∀ a ∈ iData, a.toNat < 2 ^ 31) :
    subIdentifiers 0 (iData.flatMap writeDERL) =
        some (iData.map toNat) ∧
      AllPass 0 (iData.flatMap writeDERL) := by
  induction iData with
  | nil => exact ⟨rfl, trivial⟩
  | cons a iData ih =>
      obtain ⟨hids, hall⟩ := ih fun x hx => hsmall x (mem_cons_of_mem _ hx)
      exact encoded_arc (hsmall a mem_cons_self) hids hall

end TASN1DecObjectIdentifier

/-! ### Text that is encoded -/

theorem TLex.val_eq_ok {rest : Text} {v : UInt32} (h : val lex = .ok (v, rest)) :
    ∃ p, Digits p ∧ lex = p ++ rest ∧ number p = v.toNat := by
  unfold val at h
  simp only at h
  by_cases hnone : lex.takeWhile isDigit = []
  · rw [if_pos hnone] at h
    cases h
  · rw [if_neg hnone] at h
    by_cases hlarge : 4294967295 < number (lex.takeWhile isDigit)
    · rw [if_pos hlarge] at h
      cases h
    · rw [if_neg hlarge] at h
      obtain ⟨rfl, rfl⟩ := Prod.mk.inj (Except.ok.inj h)
      refine ⟨_, ⟨hnone, fun u hu => mem_takeWhile_imp hu⟩, takeWhile_append_dropWhile.symm, ?_⟩
      rw [toNat_ofNat']
      exact (mod_eq_of_lt (by omega)).symm

namespace CASN1EncObjectIdentifier

open TLex TASN1DecObjectIdentifier

theorem delimiter_eq_ok {rest : Text} (h : delimiter lex = .ok rest) : lex = 46 :: rest := by
  cases lex with
  | nil => cases h
  | cons u lex =>
      change (if u = 46 ∧ lex ≠ [] then Except.ok lex else leave KErrBadDescriptor) = _ at h
      by_cases hdot : u = 46 ∧ lex ≠ []
      · rw [if_pos hdot] at h
        rw [hdot.1, Except.ok.inj h]
      · rw [if_neg hdot] at h
        cases h

theorem remainingTerms_eq_ok (h : remainingTerms n lex = .ok iData) :
    ∃ ps : List Text, (∀ p ∈ ps, Digits p) ∧
      lex = ps.flatMap (46 :: ·) ∧ iData.map toNat = ps.map number := by
  induction n generalizing lex iData with
  | zero =>
      cases lex with
      | nil =>
        obtain rfl := Except.ok.inj h
        exact ⟨[], by simp, rfl, rfl⟩
      | cons u us => cases h
  | succ n ih =>
      cases lex with
      | nil =>
        obtain rfl := Except.ok.inj h
        exact ⟨[], by simp, rfl, rfl⟩
      | cons u us =>
        unfold remainingTerms at h
        obtain ⟨lex, hdelimiter, h⟩ := bind_eq_ok.mp h
        obtain ⟨⟨value, rest⟩, hval, h⟩ := bind_eq_ok.mp h
        obtain ⟨more, hmore, h⟩ := bind_eq_ok.mp h
        obtain rfl := Except.ok.inj h
        obtain ⟨p, hp, hlex, hvalue⟩ := val_eq_ok hval
        obtain ⟨ps, hps, hrest, hmap⟩ := ih hmore
        refine ⟨p :: ps, ?_, ?_, ?_⟩
        · exact forall_mem_cons.mpr ⟨hp, hps⟩
        · rw [delimiter_eq_ok hdelimiter, hlex, hrest]
          rfl
        · rw [map_cons, map_cons, hvalue, hmap]

theorem first_octet {first second : UInt32} {q : Text} (hp : number p = first.toNat)
    (hq : number q = second.toNat)
    (h : (first < KFirstTermMax ∧ second < KFirstTermMultiplier) ∨ (first = KFirstTermMax ∧ second ≤ KSecondTermBigLimit)) :
    firstArcs ((KFirstTermMultiplier * first).toUInt8 + second.toUInt8) =
      [(number p : Int), (number q : Int)] := by
  have hmax : KFirstTermMax.toNat = 2 := rfl
  have hmul : KFirstTermMultiplier.toNat = 40 := rfl
  have hbig : KSecondTermBigLimit.toNat = 175 := rfl
  rw [lt_iff_toNat_lt, lt_iff_toNat_lt, le_iff_toNat_le, ← UInt32.toNat_inj, hmax, hmul, hbig] at h
  have hoctet : ((KFirstTermMultiplier * first).toUInt8 + second.toUInt8).toNat =
      40 * first.toNat + second.toNat := by
    rw [UInt8.toNat_add, toNat_toUInt8, toNat_toUInt8, UInt32.toNat_mul, hmul]
    omega
  rw [firstArcs_toNat, hoctet, hp, hq]
  split
  · have : first.toNat = 2 := by omega
    rw [this]
    simp
  · split
    · have : first.toNat = 1 := by omega
      rw [this]
      simp
    · have : first.toNat = 0 := by omega
      rw [this]
      simp

section

variable {aStr : Text} {iFirstOctet : UInt8} (h : constructL aStr = .ok (iFirstOctet, iData))
include h

/-- The terms of text that is accepted. -/
theorem constructL_eq_ok : ∃ (p q : Text) (ps : List Text),
      (∀ r ∈ p :: q :: ps, Digits r) ∧ aStr = joined (p :: q :: ps) ∧
        firstArcs iFirstOctet = [(number p : Int), (number q : Int)] ∧
          iData.map toNat = ps.map number := by
  unfold constructL at h
  by_cases hempty : aStr = []
  · rw [if_pos hempty] at h
    cases h
  · rw [if_neg hempty] at h
    obtain ⟨⟨first, rest⟩, hval, h⟩ := bind_eq_ok.mp h
    obtain ⟨p, hp, hstr, hfirst⟩ := val_eq_ok hval
    by_cases hmax : first ≤ KFirstTermMax
    · simp only [if_pos hmax] at h
      obtain ⟨lex, hdelimiter, h⟩ := bind_eq_ok.mp h
      unfold constructSecondL at h
      obtain ⟨⟨second, rest'⟩, hval', h⟩ := bind_eq_ok.mp h
      obtain ⟨q, hq, hlex, hsecond⟩ := val_eq_ok hval'
      by_cases hterms : (first < KFirstTermMax ∧ second < KFirstTermMultiplier) ∨
          (first = KFirstTermMax ∧ second ≤ KSecondTermBigLimit)
      · simp only [if_pos hterms] at h
        obtain ⟨data, hdata, h⟩ := bind_eq_ok.mp h
        obtain ⟨rfl, rfl⟩ := Prod.mk.inj (Except.ok.inj h)
        obtain ⟨ps, hps, hrest, hmap⟩ := remainingTerms_eq_ok hdata
        refine ⟨p, q, ps, ?_, ?_, first_octet hfirst hsecond hterms, hmap⟩
        · exact forall_mem_cons.mpr ⟨hp, forall_mem_cons.mpr ⟨hq, hps⟩⟩
        · rw [hstr, delimiter_eq_ok hdelimiter, hlex, hrest]
          rfl
      · simp only [if_neg hterms] at h
        cases h
    · simp only [if_neg hmax] at h
      cases h

/-- Text comes back if there is room for its arcs, and none has a zero in front. -/
theorem text_returns_iff (hsmall : ∀ a ∈ iData, a.toNat < 2 ^ 31) :
    decodedText (CASN1EncLeaf.objectIdentifier iFirstOctet iData).writeContentsDERL = .ok aStr ↔
      iData.length ≤ 13 ∧ ∃ ps, aStr = joined ps ∧ ∀ p ∈ ps, Canonical p := by
  obtain ⟨p, q, ps, hdigits, hstr, hfirst, hmap⟩ := constructL_eq_ok h
  obtain ⟨hids, hall⟩ := encoded_arcs hsmall
  have hread : arcsRead iFirstOctet (iData.map toNat) =
      (p :: q :: ps).map fun r => (number r : Int) := by
    have hwrap : ((iData.map toNat).map fun n : Nat => wrap n) =
        (iData.map toNat).map fun n : Nat => (n : Int) := by
      refine map_congr_left fun n hn => ?_
      obtain ⟨a, ha, rfl⟩ := mem_map.mp hn
      have := hsmall a ha
      exact wrap_of_range (by unfold KMinTInt; omega) (by unfold KMaxTInt; omega)
    unfold arcsRead
    rw [hwrap, hmap, hfirst, map_map]
    rfl
  have htext : dotted (arcsRead iFirstOctet (iData.map toNat)) =
      joined ((p :: q :: ps).map fun r => decimal (number r)) := by
    rw [hread, dotted_eq_joined, map_map]
    exact congrArg joined (map_congr_left fun r _ => appendNum_eq (Int.natCast_nonneg _))
  by_cases hroom : iData.length ≤ 13
  · have hacc : Accepted (CASN1EncLeaf.objectIdentifier iFirstOctet iData).writeContentsDERL
        iFirstOctet (iData.map toNat) (iData.flatMap writeDERL) := by
      refine ⟨rfl, hids, hall, ?_⟩
      rw [length_map]
      unfold KNumberOfIDs
      omega
    rw [hacc.decodedText_eq, htext]
    constructor
    · intro hsame
      refine ⟨hroom, _, hsame, fun r hr => ?_⟩
      obtain ⟨t, -, rfl⟩ := mem_map.mp hr
      exact decimal_canonical _
    · intro ⟨_, rs, hrs, hcanonical⟩
      obtain rfl := joined_injective hdigits (fun r hr => (hcanonical r hr).1) (hstr.symm.trans hrs)
      rw [hstr]
      congr 1
      refine (map_id _).symm.trans (map_congr_left fun r hr => ?_)
      exact (decimal_number (hcanonical r hr)).symm
  · constructor
    · intro hdecoded
      obtain ⟨b, ids, rest, hacc, -⟩ := decodedText_eq_ok.mp hdecoded
      obtain ⟨-, hrest⟩ := List.cons.inj hacc.source
      have hcomplete := hacc.complete
      rw [← hrest, hids] at hcomplete
      have hcount := hacc.count
      rw [← Option.some.inj hcomplete, length_map] at hcount
      unfold KNumberOfIDs at hcount
      omega
    · intro ⟨hlength, _⟩
      exact absurd hlength hroom

end

end CASN1EncObjectIdentifier

open TASN1DecObjectIdentifier CASN1EncObjectIdentifier in
/-- What decoding and encoding preserve: the arcs of contents below the first bit of their first
octet and without a sub-identifier above `KMaxTInt`; a text of its own, of contents that are a
single octet; and text that has room for its arcs and no leading zeros. -/
theorem objectIdentifier_faithful_iff (aSource aOther : Bytes) (aStr : Text) :
    (Exact aSource ↔ ∀ b ids rest, Accepted aSource b ids rest →
      b < 0x80 ∧ ∀ id ∈ ids, (id : Int) ≤ KMaxTInt) ∧
    (ToldApart aSource aOther ↔ ∀ b ids rest b' ids' rest',
      Accepted aSource b ids rest → Accepted aOther b' ids' rest' → b = b' →
        (ids.map fun n : Nat => TInt.wrap n) = (ids'.map fun n : Nat => TInt.wrap n) →
          aSource = aOther) ∧
    ((∀ aOther, ToldApart aSource aOther) ↔
      ∀ b ids rest, Accepted aSource b ids rest → aSource.length = 1) ∧
    ∀ iFirstOctet iData, constructL aStr = .ok (iFirstOctet, iData) →
      (∀ a ∈ iData, a.toNat < 2 ^ 31) →
        (decodedText (CASN1EncLeaf.objectIdentifier iFirstOctet iData).writeContentsDERL = .ok aStr ↔
          iData.length ≤ 13 ∧ ∃ ps, aStr = TLex.joined ps ∧ ∀ p ∈ ps, TLex.Canonical p) := by
  refine ⟨?_, ?_, ?_, fun iFirstOctet iData h hsmall => text_returns_iff h hsmall⟩
  · constructor
    · intro hexact b ids rest h
      exact h.exactly_iff.mp hexact
    · intro hall text htext
      obtain ⟨b, ids, rest, h, -⟩ := decodedText_eq_ok.mp htext
      exact h.exactly_iff.mpr (hall b ids rest h) text htext
  · constructor
    · intro happart b ids rest b' ids' rest' h h'
      exact (toldApart_iff h h').mp happart
    · intro hall text htext htext'
      obtain ⟨b, ids, rest, h, -⟩ := decodedText_eq_ok.mp htext
      obtain ⟨b', ids', rest', h', -⟩ := decodedText_eq_ok.mp htext'
      exact (toldApart_iff h h').mpr (hall b ids rest b' ids' rest' h h') text htext htext'
  · constructor
    · intro happart b ids rest h
      exact h.toldApart_all_iff.mp happart
    · intro hall aOther text htext htext'
      obtain ⟨b, ids, rest, h, -⟩ := decodedText_eq_ok.mp htext
      exact h.toldApart_all_iff.mpr (hall b ids rest h) aOther text htext htext'

open TASN1DecObjectIdentifier CASN1EncObjectIdentifier in
/-- `1.2.840`, in contents and in text. -/
theorem objectIdentifier_faithful_iff_member :
    Exact [0x2a, 0x86, 0x48] ∧
      constructL [49, 46, 50, 46, 56, 52, 48] = .ok (0x2a, [840]) ∧
      decodedText (CASN1EncLeaf.objectIdentifier 0x2a [840]).writeContentsDERL =
        .ok [49, 46, 50, 46, 56, 52, 48] := by
  have hencoded : constructL [49, 46, 50, 46, 56, 52, 48] = .ok (0x2a, [840]) := by decide
  refine ⟨?_, hencoded, ?_⟩
  · refine (objectIdentifier_faithful_iff _ [] []).1.mpr ?_
    intro b ids rest h
    obtain ⟨rfl, rfl⟩ := List.cons.inj h.source
    obtain rfl : [840] = ids := Option.some.inj h.complete
    exact ⟨by decide, by decide⟩
  · have hsmall : ∀ a ∈ ([840] : List UInt32), a.toNat < 2 ^ 31 := by
      intro a ha
      obtain rfl := mem_singleton.mp ha
      decide
    refine ((objectIdentifier_faithful_iff [] [] _).2.2.2 0x2a [840] hencoded hsmall).mpr ?_
    refine ⟨by decide, [[49], [50], [56, 52, 48]], rfl, ?_⟩
    intro p hp
    simp only [mem_cons, not_mem_nil, or_false] at hp
    unfold TLex.Canonical TLex.Digits
    rcases hp with rfl | rfl | rfl
    · exact ⟨⟨by decide, all_eq_true.mp (by decide)⟩, by decide⟩
    · exact ⟨⟨by decide, all_eq_true.mp (by decide)⟩, by decide⟩
    · exact ⟨⟨by decide, all_eq_true.mp (by decide)⟩, by decide⟩

/-- The text `1.2.134217728`. -/
def overflowed : Text := [49, 46, 50, 46, 49, 51, 52, 50, 49, 55, 55, 50, 56]

open TASN1DecObjectIdentifier in
/-- A sub-identifier of 33 bits is read without the first, and a leading zero is read over. -/
theorem not_objectIdentifier_faithful :
    decodedText [0x2a, 0x90, 0xc0, 0x80, 0x80, 0x00] = .ok overflowed ∧
      exactArcs [0x2a, 0x90, 0xc0, 0x80, 0x80, 0x00] = some [1, 2, 4429185024] ∧
      decodedText [0x2a, 0xc0, 0x80, 0x80, 0x00] = .ok overflowed ∧
      ¬ Exact [0x2a, 0x90, 0xc0, 0x80, 0x80, 0x00] ∧
      ¬ ToldApart [0x2a, 0x90, 0xc0, 0x80, 0x80, 0x00] [0x2a, 0xc0, 0x80, 0x80, 0x00] := by
  have hlong : decodedText [0x2a, 0x90, 0xc0, 0x80, 0x80, 0x00] = .ok overflowed := by decide
  have harcs : exactArcs [0x2a, 0x90, 0xc0, 0x80, 0x80, 0x00] = some [1, 2, 4429185024] := by decide
  have hshort : decodedText [0x2a, 0xc0, 0x80, 0x80, 0x00] = .ok overflowed := by decide
  refine ⟨hlong, harcs, hshort, ?_, ?_⟩
  · intro hexact
    obtain ⟨arcs, hsome, htext⟩ := hexact _ hlong
    obtain rfl := Option.some.inj (harcs.symm.trans hsome)
    exact absurd htext (by decide)
  · intro happart
    exact absurd (happart _ hlong hshort) (by decide)

end OsSecurity

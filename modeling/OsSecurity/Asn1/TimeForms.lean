/-
Which texts the two decoders of times take for times.

A form says what is written and what moment it means.  `TASN1DecUTCTime` does not look at the
second digit of the seconds nor behind the `Z`.  `TASN1DecGeneralizedTime` goes over the tail
twice, and the passes agree on every text but one kind: without seconds the first pass sees no
tail, and the second finds a `.` or a sign where the `Z` should be.
-/
import OsSecurity.Asn1.Encoders

namespace OsSecurity

open CASN1EncLeaf List

/-- The date and the time of ten digits behind a year. -/
def dateTime (iYear : Int) : Bytes → Int → Int → Option TDateTime
  | [m1, m2, d1, d2, h1, h2, n1, n2], iSecond, iMicroSecond =>
    some ⟨iYear, twoDigits m1 m2 - 1, twoDigits d1 d2 - 1, twoDigits h1 h2, twoDigits n1 n2,
      iSecond, iMicroSecond⟩
  | _, _, _ => none

/-- Exactly the moments written are returned, and every other text is refused. -/
def Reads (Written : Int → Prop) (result : Leaving Int) : Prop :=
  (∀ t, Written t → result = .ok t) ∧ ((∀ t, ¬Written t) → ∃ e, result = leave e)

theorem digit_ne {c : UInt8} (h : isDigit c = true) : c ≠ 46 ∧ c ≠ 43 ∧ c ≠ 45 ∧ c ≠ 90 := by
  refine ⟨?_, ?_, ?_, ?_⟩
  · rintro rfl
    exact absurd h (by decide)
  · rintro rfl
    exact absurd h (by decide)
  · rintro rfl
    exact absurd h (by decide)
  · rintro rfl
    exact absurd h (by decide)

theorem dateTime_eq_some {iYear second micro : Int} {date : Bytes} {D : TDateTime}
    (h : dateTime iYear date second micro = some D) :
    ∃ m1 m2 d1 d2 h1 h2 n1 n2, date = [m1, m2, d1, d2, h1, h2, n1, n2] ∧
      D = ⟨iYear, twoDigits m1 m2 - 1, twoDigits d1 d2 - 1, twoDigits h1 h2, twoDigits n1 n2,
        second, micro⟩ := by
  unfold dateTime at h
  split at h
  · exact ⟨_, _, _, _, _, _, _, _, rfl, (Option.some.inj h).symm⟩
  · cases h

/-! ### UTC times -/

namespace TASN1DecUTCTime

variable {pf : Platform} {aSource sec behind : Bytes} {t : Int}

/-- The pivot of the years of two digits is 50. -/
def year (y1 y2 : UInt8) : Int := twoDigits y1 y2 + if twoDigits y1 y2 < 50 then 2000 else 1900

/-- `YYMMDDHHMM`, maybe a digit and a character for the seconds, and a `Z` with `behind` after
it. -/
inductive Form (pf : Platform) : Bytes → Bytes → Bytes → Int → Prop where
  | minutes {y1 y2 : UInt8} {date behind : Bytes} {D : TDateTime}
      (hdigits : (y1 :: y2 :: date).all isDigit = true)
      (hdate : dateTime (year y1 y2) date 0 0 = some D) (hrange : D.inRange pf = true) :
      Form pf (y1 :: y2 :: (date ++ 90 :: behind)) [] behind (pf.time D)
  | seconds {y1 y2 a b : UInt8} {date behind : Bytes} {D : TDateTime}
      (hdigits : (y1 :: y2 :: date).all isDigit = true) (hfirst : isDigit a = true)
      (hdate : dateTime (year y1 y2) date (twoDigits a b) 0 = some D)
      (hrange : D.inRange pf = true) :
      Form pf (y1 :: y2 :: (date ++ a :: b :: 90 :: behind)) [a, b] behind (pf.time D)

/-- The time that is written: all digits, and nothing behind the `Z`. -/
def Written (pf : Platform) (aSource : Bytes) (t : Int) : Prop :=
  ∃ sec, Form pf aSource sec [] t ∧ sec.all isDigit = true

/-- A time but for the second digit of the seconds, or with more behind it. -/
def Nearly (pf : Platform) (aSource : Bytes) : Prop :=
  ∃ sec behind t, Form pf aSource sec behind t ∧ (behind ≠ [] ∨ sec.all isDigit = false)

theorem getTimeL_form (h : Form pf aSource sec behind t) : getTimeL pf aSource = .ok t := by
  cases h with
  | minutes hdigits hdate hrange =>
      obtain ⟨m1, m2, d1, d2, h1, h2, n1, n2, rfl, rfl⟩ := dateTime_eq_some hdate
      have hz : isDigit 90 = false := by decide
      rcases behind with _ | ⟨c, cs⟩
      · simp only [cons_append, nil_append, getTimeL]
        rw [hdigits]
        exact if_pos hrange
      · simp only [cons_append, nil_append, getTimeL, seconds, hz]
        rw [hdigits]
        exact if_pos hrange
  | seconds hdigits hfirst hdate hrange =>
      obtain ⟨m1, m2, d1, d2, h1, h2, n1, n2, rfl, rfl⟩ := dateTime_eq_some hdate
      simp only [cons_append, nil_append, getTimeL, seconds, hfirst]
      rw [hdigits]
      exact if_pos hrange

theorem seconds_cases (c : UInt8) (cs : Bytes) :
    (∃ b rest, isDigit c = true ∧ cs = b :: rest ∧ seconds (c :: cs) = (twoDigits c b, rest)) ∨
      seconds (c :: cs) = (0, c :: cs) := by
  rcases cs with _ | ⟨b, rest⟩
  · exact Or.inr rfl
  · by_cases hc : isDigit c = true
    · exact Or.inl ⟨b, rest, hc, rfl, if_pos hc⟩
    · exact Or.inr (if_neg hc)

theorem zulu_or_leaves (pf : Platform) (D : TDateTime) (z : UInt8) :
    (z = 90 ∧ D.inRange pf = true) ∨ ∃ e : Int,
      (if z = 90 then if D.inRange pf then .ok (pf.time D) else leave KErrArgument
        else if z = 43 ∨ z = 45 then leave KErrNotSupported else leave KErrArgument) =
        (leave e : Leaving Int) := by
  by_cases hz : z = 90
  · by_cases hrange : D.inRange pf = true
    · exact Or.inl ⟨hz, hrange⟩
    · exact Or.inr ⟨_, by rw [if_pos hz, if_neg hrange]⟩
  · rw [if_neg hz]
    split
    · exact Or.inr ⟨_, rfl⟩
    · exact Or.inr ⟨_, rfl⟩

theorem form_or_leaves (pf : Platform) (aSource : Bytes) :
    (∃ sec behind t, Form pf aSource sec behind t) ∨ ∃ e, getTimeL pf aSource = leave e := by
  unfold getTimeL
  split
  · rename_i y1 y2 m1 m2 d1 d2 h1 h2 n1 n2 c cs
    by_cases hdigits : [y1, y2, m1, m2, d1, d2, h1, h2, n1, n2].all isDigit = true
    · rw [if_neg (not_not.mpr hdigits)]
      -- behind the digits that are read stands a `Z`, or the time is refused
      rcases seconds_cases c cs with ⟨b, rest, hc, rfl, hsec⟩ | hsec
      · rw [hsec]
        rcases rest with _ | ⟨z, behind⟩
        · exact Or.inr ⟨_, rfl⟩
        · refine (zulu_or_leaves pf _ z).imp ?_ id
          rintro ⟨rfl, hrange⟩
          exact ⟨[c, b], behind, _, .seconds hdigits hc rfl hrange⟩
      · rw [hsec]
        refine (zulu_or_leaves pf _ c).imp ?_ id
        rintro ⟨rfl, hrange⟩
        exact ⟨[], cs, _, .minutes hdigits rfl hrange⟩
    · exact Or.inr ⟨_, if_pos hdigits⟩
  · exact Or.inr ⟨_, rfl⟩

/-- What stands behind the ten digits says which form it is. -/
theorem Form.drop (h : Form pf aSource sec behind t) :
    (sec = [] ∧ aSource.drop 10 = 90 :: behind) ∨
      ∃ a b, isDigit a = true ∧ sec = [a, b] ∧ aSource.drop 10 = a :: b :: 90 :: behind := by
  cases h with
  | minutes hdigits hdate hrange =>
      obtain ⟨m1, m2, d1, d2, h1, h2, n1, n2, rfl, rfl⟩ := dateTime_eq_some hdate
      exact Or.inl ⟨rfl, rfl⟩
  | seconds hdigits hfirst hdate hrange =>
      obtain ⟨m1, m2, d1, d2, h1, h2, n1, n2, rfl, rfl⟩ := dateTime_eq_some hdate
      exact Or.inr ⟨_, _, hfirst, rfl, rfl⟩

theorem Form.unique {sec' behind' : Bytes} {t' : Int} (h : Form pf aSource sec behind t)
    (h' : Form pf aSource sec' behind' t') : sec = sec' ∧ behind = behind' := by
  rcases h.drop with ⟨rfl, hdrop⟩ | ⟨a, b, ha, rfl, hdrop⟩
  · rcases h'.drop with ⟨rfl, hdrop'⟩ | ⟨a', b', ha', rfl, hdrop'⟩
    · simpa using hdrop.symm.trans hdrop'
    · have heq := hdrop.symm.trans hdrop'
      exact absurd (List.cons.inj heq).1.symm (digit_ne ha').2.2.2
  · rcases h'.drop with ⟨rfl, hdrop'⟩ | ⟨a', b', ha', rfl, hdrop'⟩
    · have heq := hdrop.symm.trans hdrop'
      exact absurd (List.cons.inj heq).1 (digit_ne ha).2.2.2
    · simpa [and_assoc] using hdrop.symm.trans hdrop'

theorem Nearly.not_reads (h : Nearly pf aSource) :
    ¬Reads (Written pf aSource) (getTimeL pf aSource) := by
  rintro ⟨-, hrefused⟩
  obtain ⟨sec, behind, t, hform, hnear⟩ := h
  obtain ⟨e, he⟩ := hrefused fun t' hwritten => by
    obtain ⟨sec', hform', hall⟩ := hwritten
    obtain ⟨rfl, rfl⟩ := hform.unique hform'
    rcases hnear with hbehind | hsec
    · exact hbehind rfl
    · rw [hall] at hsec
      cases hsec
  rw [getTimeL_form hform] at he
  cases he

/-- **The decoder reads UTC times** but for texts that are nearly one, and it takes those. -/
theorem reads_iff_not_nearly (pf : Platform) (aSource : Bytes) :
    Reads (Written pf aSource) (getTimeL pf aSource) ↔ ¬Nearly pf aSource := by
  constructor
  · intro hreads hnear
    exact hnear.not_reads hreads
  · intro hnear
    refine ⟨fun t ⟨sec, hform, _⟩ => getTimeL_form hform, fun hno => ?_⟩
    rcases form_or_leaves pf aSource with ⟨sec, behind, t, hform⟩ | hleaves
    · by_cases hgood : behind = [] ∧ sec.all isDigit = true
      · obtain ⟨rfl, hall⟩ := hgood
        exact absurd ⟨sec, hform, hall⟩ (hno t)
      · refine absurd ⟨sec, behind, t, hform, ?_⟩ hnear
        rcases not_and_or.mp hgood with hbehind | hsec
        · exact Or.inl hbehind
        · exact Or.inr (Bool.eq_false_iff.mpr hsec)
    · exact hleaves

/-- `0401010000ZZ` is taken for the first moment of 2004. -/
theorem takes_more_behind_the_zulu :
    ¬ ∀ aSource : Bytes,
      Reads (Written Platform.ascii aSource) (getTimeL Platform.ascii aSource) := by
  intro h
  have hdate : dateTime (year 48 52) [48, 49, 48, 49, 48, 48, 48, 48] 0 0 =
      some ⟨2004, 0, 0, 0, 0, 0, 0⟩ := rfl
  have hform := @Form.minutes Platform.ascii _ _ _ [90] _ (by decide) hdate (by decide)
  exact Nearly.not_reads ⟨_, _, _, hform, Or.inl (by simp)⟩ (h _)

end TASN1DecUTCTime

/-! ### Generalized times -/

namespace TASN1DecGeneralizedTime

variable {pf : Platform} {aSource frac zone rest : Bytes} {t micro off : Int}

def year (y1 y2 y3 y4 : UInt8) : Int := twoDigits y1 y2 * 100 + twoDigits y3 y4

/-- Digits of which the first counts `weight` microseconds. -/
def micros (weight : Int) : Bytes → Int
  | [] => 0
  | c :: ds => ((c.toNat : Int) - 48) * weight + micros (weight / 10) ds

/-- Nothing, or a dot and one to three digits. -/
inductive Fraction : Bytes → Int → Prop where
  | none : Fraction [] 0
  | digits {ds : Bytes} (hdigits : ds.all isDigit = true) (hsome : ds ≠ []) (hlen : ds.length ≤ 3) :
      Fraction (46 :: ds) (micros 100000 ds)

/-- Nothing, a `Z`, or how far the time that is written is ahead or behind, and what has to be
added to it. -/
inductive Zone : Bytes → Int → Prop where
  | none : Zone [] 0
  | zulu : Zone [90] 0
  | written {sign a b d e : UInt8} {behind : Bytes} (hsign : sign = 43 ∨ sign = 45)
      (hdigits : [a, b, d, e].all isDigit = true) (hhours : twoDigits a b ≤ 23)
      (hminutes : twoDigits d e ≤ 59) (hbehind : behind = [] ∨ behind = [90]) :
      Zone (sign :: a :: b :: d :: e :: behind)
        (if sign = 43 then -((twoDigits a b * 60 + twoDigits d e) * 60000000)
          else (twoDigits a b * 60 + twoDigits d e) * 60000000)

inductive Written (pf : Platform) : Bytes → Int → Prop where
  | minutes {y1 y2 y3 y4 : UInt8} {date : Bytes} {D : TDateTime}
      (hdigits : (y1 :: y2 :: y3 :: y4 :: date).all isDigit = true)
      (hdate : dateTime (year y1 y2 y3 y4) date 0 0 = some D) (hrange : D.inRange pf = true) :
      Written pf (y1 :: y2 :: y3 :: y4 :: (date ++ [90])) (pf.time D)
  | seconds {y1 y2 y3 y4 a b : UInt8} {date frac zone : Bytes} {D : TDateTime} {micro off : Int}
      (hdigits : (y1 :: y2 :: y3 :: y4 :: date).all isDigit = true)
      (hsec : [a, b].all isDigit = true) (hfrac : Fraction frac micro) (hzone : Zone zone off)
      (hdate : dateTime (year y1 y2 y3 y4) date (twoDigits a b) micro = some D)
      (hrange : D.inRange pf = true) :
      Written pf (y1 :: y2 :: y3 :: y4 :: (date ++ a :: b :: (frac ++ zone))) (pf.time D + off)

/-- A date and a time up to the minutes, with the beginning of a tail for its `Z`. -/
inductive Unfinished (pf : Platform) : Bytes → Prop where
  | mk {y1 y2 y3 y4 c : UInt8} {date : Bytes} {D : TDateTime}
      (hdigits : (y1 :: y2 :: y3 :: y4 :: date).all isDigit = true)
      (hdate : dateTime (year y1 y2 y3 y4) date 0 0 = some D) (hrange : D.inRange pf = true)
      (hc : c = 46 ∨ c = 43 ∨ c = 45) : Unfinished pf (y1 :: y2 :: y3 :: y4 :: (date ++ [c]))

/-! #### The tail -/

/-- What both passes make of the text behind the seconds. -/
def tail (rest : Bytes) : Leaving (Int × Int) := do
  checkExtra 0 0 0 rest
  return ((microSeconds 14 rest).1, ← offset (microSeconds 14 rest).2)

theorem checkExtra_digit {c : UInt8} (hc : isDigit c = true) (k o z : Nat) (rest : Bytes) :
    checkExtra k o z (c :: rest) = checkExtra k o z rest := by
  obtain ⟨hdot, hplus, hminus, hz⟩ := digit_ne hc
  simp [checkExtra, hdot, hplus, hminus, hz, hc]

theorem Zone.head (h : Zone zone off) : zone.head?.any isDigit = false := by
  cases h with
  | none => rfl
  | zulu => rfl
  | written hsign =>
      rcases hsign with rfl | rfl
      · rfl
      · rfl

theorem twoDigits_nonneg {a b : UInt8} (ha : isDigit a = true) (hb : isDigit b = true) :
    0 ≤ twoDigits a b := by
  have hbound : ∀ c, isDigit c = true → 48 ≤ c.toNat := by
    intro c hc
    simp only [isDigit, decide_eq_true_eq] at hc
    exact UInt8.le_iff_toNat_le.mp hc.1
  have := hbound a ha
  have := hbound b hb
  unfold twoDigits
  omega

/-- Behind a sign stand four digits, and at most a `Z` behind them. -/
theorem checkExtra_sign {sign : UInt8} (hsign : sign = 43 ∨ sign = 45) (k : Nat) (rest : Bytes) :
    checkExtra k 0 0 (sign :: rest) =
      if rest.length < 4 ∨ ¬(rest.take 4).all isDigit ∨ 5 < rest.length ∨
          (rest.length = 5 ∧ rest.getLast? ≠ some 90) then leave KErrArgument
      else checkExtra k 1 0 rest := by
  rcases hsign with rfl | rfl
  · simp [checkExtra]
  · simp [checkExtra]

theorem Zone.read (h : Zone zone off) (k : Nat) :
    checkExtra k 0 0 zone = .ok () ∧ offset zone = .ok off := by
  cases h with
  | none => exact ⟨rfl, rfl⟩
  | zulu => exact ⟨rfl, rfl⟩
  | @written sign a b d e behind hsign hdigits hhours hminutes hbehind =>
      have hall := hdigits
      simp only [all_cons, all_nil, Bool.and_true, Bool.and_eq_true] at hall
      obtain ⟨ha, hb, hd, he⟩ := hall
      have hrange := twoDigits_nonneg ha hb
      have hrange' := twoDigits_nonneg hd he
      constructor
      · rw [checkExtra_sign hsign, if_neg, checkExtra_digit ha, checkExtra_digit hb,
          checkExtra_digit hd, checkExtra_digit he]
        · rcases hbehind with rfl | rfl
          · rfl
          · rfl
        · rcases hbehind with rfl | rfl
          · simp [ha, hb, hd, he]
          · simp [ha, hb, hd, he]
      · rcases hsign with rfl | rfl
        · simp [offset, not_lt.mpr hrange, not_lt.mpr hrange', not_lt.mpr hhours,
            not_lt.mpr hminutes]
        · simp [offset, not_lt.mpr hrange, not_lt.mpr hrange', not_lt.mpr hhours,
            not_lt.mpr hminutes]

/-- A tail that the first pass takes is a zone, or the second pass refuses it. -/
theorem zone_or_leaves {k : Nat} (h : checkExtra k 0 0 rest = .ok ()) :
    (∃ off, Zone rest off) ∨ offset rest = leave KErrArgument := by
  rcases rest with _ | ⟨c, rest⟩
  · exact Or.inl ⟨0, .none⟩
  by_cases hz : c = 90
  · subst hz
    rcases rest with _ | ⟨d, rest⟩
    · exact Or.inl ⟨0, .zulu⟩
    · simp [checkExtra, leave] at h
  by_cases hsign : c = 43 ∨ c = 45
  · rw [checkExtra_sign hsign] at h
    split at h
    · cases h
    · rename_i hshape
      simp only [not_or, not_lt, not_not, not_and] at hshape
      obtain ⟨hfour, hdigits, hfive, hlast⟩ := hshape
      rcases rest with _ | ⟨a, _ | ⟨b, _ | ⟨d, _ | ⟨e, behind⟩⟩⟩⟩ <;>
        simp only [length_cons, length_nil] at hfour hfive hlast <;> try omega
      have hbehind : behind = [] ∨ behind = [90] := by
        rcases behind with _ | ⟨z, _ | ⟨y, ys⟩⟩
        · exact Or.inl rfl
        · exact Or.inr (by simpa using hlast rfl)
        · simp only [length_cons] at hfive
          omega
      by_cases hranges : twoDigits a b ≤ 23 ∧ twoDigits d e ≤ 59
      · exact Or.inl ⟨_, .written hsign hdigits hranges.1 hranges.2 hbehind⟩
      · refine Or.inr ?_
        rw [offset, if_neg hz, if_pos hsign]
        exact if_pos (by omega)
  · exact Or.inr (by simp [offset, hz, hsign])

theorem checkExtra_digits {ds : Bytes} (h : ds.all isDigit = true) (k o z : Nat) (rest : Bytes) :
    checkExtra k o z (ds ++ rest) = checkExtra k o z rest := by
  induction ds with
  | nil => rfl
  | cons c ds ih =>
      simp only [all_cons, Bool.and_eq_true] at h
      rw [cons_append, checkExtra_digit h.1, ih h.2]

theorem fraction_digits (n : Nat) (weight : Int) {ds : Bytes} (h : ds.all isDigit = true)
    (hlen : ds.length ≤ n) (hrest : rest.head?.any isDigit = false) :
    fraction n weight (ds ++ rest) = (micros weight ds, rest) := by
  induction ds generalizing n weight with
  | nil =>
      cases n with
      | zero => rfl
      | succ n =>
        cases rest with
        | nil => rfl
        | cons c rest => exact if_neg (Bool.eq_false_iff.mp hrest)
  | cons c ds ih =>
      cases n with
      | zero => cases hlen
      | succ n =>
        simp only [all_cons, Bool.and_eq_true] at h
        rw [cons_append, fraction, if_pos h.1,
          ih n (weight / 10) h.2 (Nat.le_of_succ_le_succ hlen)]
        rfl

/-- The digits that are read, and what is left. -/
theorem fraction_splits (n : Nat) (weight : Int) (rest : Bytes) :
    ∃ ds rest', rest = ds ++ rest' ∧ ds.all isDigit = true ∧ ds.length ≤ n ∧
      fraction n weight rest = (micros weight ds, rest') := by
  induction n generalizing weight rest with
  | zero => exact ⟨[], rest, rfl, rfl, le_rfl, rfl⟩
  | succ n ih =>
      rcases rest with _ | ⟨c, rest⟩
      · exact ⟨[], [], rfl, rfl, Nat.zero_le _, rfl⟩
      by_cases hc : isDigit c = true
      · obtain ⟨ds, rest', rfl, hall, hlen, hread⟩ := ih (weight / 10) rest
        refine ⟨c :: ds, rest', rfl, by simp [hc, hall], Nat.succ_le_succ hlen, ?_⟩
        rw [fraction, if_pos hc, hread]
        rfl
      · exact ⟨[], c :: rest, rfl, rfl, Nat.zero_le _, if_neg hc⟩

theorem tail_ok (hfrac : Fraction frac micro) (hzone : Zone zone off) :
    tail (frac ++ zone) = .ok (micro, off) := by
  unfold tail
  cases hfrac with
  | none =>
      have hmicro : microSeconds 14 zone = (0, zone) := by
        cases hzone with
        | none => rfl
        | zulu => rfl
        | written hsign =>
          rcases hsign with rfl | rfl
          · rfl
          · rfl
      rw [nil_append, (hzone.read 0).1, hmicro, (hzone.read 0).2]
      rfl
  | @digits ds hdigits hsome hlen =>
      have hmicro : microSeconds 14 (46 :: ds ++ zone) = (micros 100000 ds, zone) :=
        fraction_digits 3 100000 hdigits hlen hzone.head
      obtain ⟨c, cs, rfl⟩ := exists_cons_of_ne_nil hsome
      have hcheck : checkExtra 0 0 0 (46 :: (c :: cs) ++ zone) = .ok () := by
        have hc : isDigit c = true := by simp_all
        refine Eq.trans ?_ ((checkExtra_digits hdigits 1 0 0 zone).trans (hzone.read 1).1)
        simp [checkExtra, hc]
      rw [hcheck, hmicro, (hzone.read 1).2]
      rfl

theorem checkExtra_ends (k o z : Nat) (rest : Bytes) :
    checkExtra k o z rest = .ok () ∨ ∃ e, checkExtra k o z rest = leave e := by
  fun_induction checkExtra k o z rest with
  | case1 => exact Or.inl rfl
  | case3 _ _ _ _ _ ih => exact ih
  | case5 _ _ _ _ _ _ _ _ ih => exact ih
  | case7 _ _ _ _ _ _ _ ih => exact ih
  | case9 _ _ _ _ _ _ _ _ _ ih => exact ih
  | case2 | case4 | case6 | case8 => exact Or.inr ⟨_, rfl⟩

theorem tail_or_leaves (rest : Bytes) :
    (∃ frac zone micro off, Fraction frac micro ∧ Zone zone off ∧ rest = frac ++ zone) ∨
      ∃ e, tail rest = leave e := by
  rcases checkExtra_ends 0 0 0 rest with hok | ⟨e, he⟩
  · by_cases hdot : rest.head? = some 46
    · obtain ⟨r, rfl⟩ := head?_eq_some_iff.mp hdot
      rcases r with _ | ⟨c, r⟩
      · cases hok
      by_cases hc : isDigit c = true
      · obtain ⟨ds, zone, rfl, hall, hlen, hread⟩ := fraction_splits 2 (100000 / 10) r
        have hcheck : checkExtra 1 0 0 zone = .ok () := by
          rw [← hok, ← checkExtra_digits hall, ← checkExtra_digit hc]
          simp [checkExtra, hc]
        have hmicro : microSeconds 14 (46 :: c :: (ds ++ zone)) = (micros 100000 (c :: ds), zone) := by
          show fraction 3 100000 (c :: (ds ++ zone)) = _
          rw [fraction, if_pos hc, hread]
          rfl
        rcases zone_or_leaves hcheck with ⟨off, hzone⟩ | hleaves
        · refine Or.inl ⟨46 :: c :: ds, zone, _, off, .digits ?_ (by simp) ?_, hzone, rfl⟩
          · simp [hc, hall]
          · exact Nat.succ_le_succ hlen
        · refine Or.inr ⟨KErrArgument, ?_⟩
          unfold tail
          rw [hok, hmicro, hleaves]
          rfl
      · simp [checkExtra, hc, leave] at hok
    · have hmicro : microSeconds 14 rest = (0, rest) := by
        rcases rest with _ | ⟨c, rest⟩
        · rfl
        · exact if_neg fun hc => hdot (congrArg some hc)
      rcases zone_or_leaves hok with ⟨off, hzone⟩ | hleaves
      · exact Or.inl ⟨[], rest, 0, off, .none, hzone, rfl⟩
      · refine Or.inr ⟨KErrArgument, ?_⟩
        unfold tail
        rw [hok, hmicro, hleaves]
        rfl
  · refine Or.inr ⟨e, ?_⟩
    unfold tail
    rw [he]
    rfl

/-! #### The whole text -/

theorem getTimeL_short {y1 y2 y3 y4 c : UInt8} {date : Bytes} {D : TDateTime}
    (hdigits : (y1 :: y2 :: y3 :: y4 :: date).all isDigit = true)
    (hdate : dateTime (year y1 y2 y3 y4) date 0 0 = some D) :
    getTimeL pf (y1 :: y2 :: y3 :: y4 :: (date ++ [c])) = (do
      if ¬D.inRange pf then leave KErrArgument
      return pf.time D + (← offset (if c = 46 then [] else [c]))) := by
  obtain ⟨m1, m2, d1, d2, h1, h2, n1, n2, rfl, rfl⟩ := dateTime_eq_some hdate
  have hmicro : microSeconds 12 [c] = (0, if c = 46 then [] else [c]) := by
    show (if c = 46 then fraction 5 100000 [] else (0, [c])) = _
    split
    · rfl
    · rfl
  simp only [cons_append, nil_append, getTimeL, getTimeFromL]
  rw [hdigits, hmicro]
  rfl

section

variable {y1 y2 y3 y4 a b : UInt8} {date : Bytes}
  (hdigits : (y1 :: y2 :: y3 :: y4 :: date).all isDigit = true)
include hdigits

theorem getTimeL_long {D : TDateTime} (hsec : [a, b].all isDigit = true)
    (hdate : dateTime (year y1 y2 y3 y4) date (twoDigits a b) 0 = some D) :
    getTimeL pf (y1 :: y2 :: y3 :: y4 :: (date ++ a :: b :: rest)) = (do
      checkExtra 0 0 0 rest
      if ¬D.inRange pf then leave KErrArgument
      return pf.time { D with iMicroSecond := (microSeconds 14 rest).1 } +
        (← offset (microSeconds 14 rest).2)) := by
  obtain ⟨m1, m2, d1, d2, h1, h2, n1, n2, rfl, rfl⟩ := dateTime_eq_some hdate
  simp only [cons_append, nil_append, getTimeL, getTimeFromL]
  rw [hdigits]
  simp only [take, hsec]
  rfl

theorem getTimeL_tail {D : TDateTime} (hsec : [a, b].all isDigit = true)
    (hdate : dateTime (year y1 y2 y3 y4) date (twoDigits a b) 0 = some D)
    (hrange : D.inRange pf = true) :
    getTimeL pf (y1 :: y2 :: y3 :: y4 :: (date ++ a :: b :: rest)) =
      (tail rest).map fun r => pf.time { D with iMicroSecond := r.1 } + r.2 := by
  rw [getTimeL_long hdigits hsec hdate, hrange]
  unfold tail
  cases checkExtra 0 0 0 rest with
  | error e => rfl
  | ok u => cases offset (microSeconds 14 rest).2 <;> rfl

end

theorem getTimeL_written (h : Written pf aSource t) : getTimeL pf aSource = .ok t := by
  cases h with
  | minutes hdigits hdate hrange =>
      rw [getTimeL_short hdigits hdate, hrange]
      exact congrArg Except.ok (Int.add_zero _)
  | seconds hdigits hsec hfrac hzone hdate hrange =>
      obtain ⟨m1, m2, d1, d2, h1, h2, n1, n2, rfl, rfl⟩ := dateTime_eq_some hdate
      rw [getTimeL_tail hdigits hsec rfl hrange, tail_ok hfrac hzone]
      rfl

/-- Anything else leaves, but for what is unfinished. -/
theorem written_or_leaves (h : ¬Unfinished pf aSource) :
    (∃ t, Written pf aSource t) ∨ ∃ e, getTimeL pf aSource = leave e := by
  have hshape : (∃ y1 y2 y3 y4 m1 m2 d1 d2 h1 h2 n1 n2 c cs, aSource = y1 :: y2 :: y3 :: y4 ::
      ([m1, m2, d1, d2, h1, h2, n1, n2] ++ c :: cs)) ∨ getTimeL pf aSource = leave KErrArgument := by
    unfold getTimeL
    split
    · exact Or.inl ⟨_, _, _, _, _, _, _, _, _, _, _, _, _, _, rfl⟩
    · exact Or.inr rfl
  rcases hshape with ⟨y1, y2, y3, y4, m1, m2, d1, d2, h1, h2, n1, n2, c, cs, rfl⟩ | hleaves
  · by_cases hdigits : [y1, y2, y3, y4, m1, m2, d1, d2, h1, h2, n1, n2].all isDigit = true
    · rcases cs with _ | ⟨b, rest⟩
      · rw [getTimeL_short hdigits rfl]
        by_cases hrange : (⟨year y1 y2 y3 y4, twoDigits m1 m2 - 1, twoDigits d1 d2 - 1,
            twoDigits h1 h2, twoDigits n1 n2, 0, 0⟩ : TDateTime).inRange pf = true
        · by_cases hz : c = 90
          · subst hz
            exact Or.inl ⟨_, .minutes hdigits rfl hrange⟩
          · have hc : ¬(c = 46 ∨ c = 43 ∨ c = 45) := fun hc => h (.mk hdigits rfl hrange hc)
            refine Or.inr ⟨KErrArgument, ?_⟩
            rw [hrange]
            simp_all [offset, leave]
        · refine Or.inr ⟨KErrArgument, ?_⟩
          simp only [hrange]
          rfl
      · by_cases hsec : [c, b].all isDigit = true
        · by_cases hrange : (⟨year y1 y2 y3 y4, twoDigits m1 m2 - 1, twoDigits d1 d2 - 1,
              twoDigits h1 h2, twoDigits n1 n2, twoDigits c b, 0⟩ : TDateTime).inRange pf = true
          · rcases tail_or_leaves rest with ⟨frac, zone, micro, off, hfrac, hzone, rfl⟩ | ⟨e, he⟩
            · exact Or.inl ⟨_, .seconds hdigits hsec hfrac hzone rfl hrange⟩
            · refine Or.inr ⟨e, ?_⟩
              rw [getTimeL_tail hdigits hsec rfl hrange, he]
              rfl
          · rw [getTimeL_long hdigits hsec rfl]
            refine Or.inr ?_
            simp only [hrange]
            rcases checkExtra_ends 0 0 0 rest with hok | ⟨e, he⟩
            · exact ⟨KErrArgument, by rw [hok]; rfl⟩
            · exact ⟨e, by rw [he]; rfl⟩
        · refine Or.inr ⟨KErrArgument, ?_⟩
          simp only [cons_append, nil_append, getTimeL]
          rw [hdigits]
          simp only [take, hsec]
          rfl
    · refine Or.inr ⟨KErrArgument, ?_⟩
      simp only [cons_append, nil_append, getTimeL, hdigits]
      rfl
  · exact Or.inr ⟨_, hleaves⟩

theorem Unfinished.not_written (h : Unfinished pf aSource) : ¬Written pf aSource t := by
  intro hwritten
  cases h with
  | mk hdigits hdate hrange hc =>
      obtain ⟨m1, m2, d1, d2, h1, h2, n1, n2, rfl, rfl⟩ := dateTime_eq_some hdate
      generalize hs : _ :: _ :: _ :: _ :: (_ ++ [_]) = aSource at hwritten
      cases hwritten with
      | minutes hdigits' hdate' hrange' =>
        obtain ⟨m1', m2', d1', d2', h1', h2', n1', n2', rfl, rfl⟩ := dateTime_eq_some hdate'
        simp only [cons_append, nil_append, List.cons.injEq] at hs
        rcases hc with rfl | rfl | rfl
        · simp at hs
        · simp at hs
        · simp at hs
      | seconds hdigits' hsec hfrac hzone hdate' hrange' =>
        obtain ⟨m1', m2', d1', d2', h1', h2', n1', n2', rfl, rfl⟩ := dateTime_eq_some hdate'
        simp at hs

/-- An unfinished time is accepted, or read beyond. -/
theorem Unfinished.not_leaves (h : Unfinished pf aSource) (e : Int) :
    getTimeL pf aSource ≠ leave e := by
  cases h with
  | mk hdigits hdate hrange hc =>
      rw [getTimeL_short hdigits hdate, hrange]
      rcases hc with rfl | rfl | rfl
      · exact nofun
      · simp [offset, leave, panic]
      · simp [offset, leave, panic]

theorem reads_iff (pf : Platform) (aSource : Bytes) :
    Reads (Written pf aSource) (getTimeL pf aSource) ↔ ¬Unfinished pf aSource := by
  constructor
  · rintro ⟨-, hrefused⟩ hunfinished
    obtain ⟨e, he⟩ := hrefused fun t => hunfinished.not_written
    exact hunfinished.not_leaves e he
  · intro h
    refine ⟨fun t => getTimeL_written, fun hno => ?_⟩
    exact (written_or_leaves h).resolve_left fun ⟨t, ht⟩ => hno t ht

/-! #### Times that are encoded -/

theorem digit_of (n : Nat) :
    isDigit (0x30 + (n % 10).toUInt8) = true ∧ (0x30 + (n % 10).toUInt8).toNat = 48 + n % 10 := by
  have hall : ∀ k : Fin 10, isDigit (0x30 + k.val.toUInt8) = true ∧
      (0x30 + k.val.toUInt8).toNat = 48 + k.val := by decide
  exact hall ⟨n % 10, Nat.mod_lt n (by decide)⟩

theorem appendField_two {v : Int} (hnonneg : 0 ≤ v) (hlt : v < 100) :
    ∃ a b, appendField v 2 = [a, b] ∧ [a, b].all isDigit = true ∧
      twoDigits a b = v := by
  obtain ⟨n, rfl⟩ := Int.eq_ofNat_of_zero_le hnonneg
  have hn : ((n : Int) % 4294967296).toNat = n := by omega
  refine ⟨_, _, by rw [appendField, hn]; rfl, ?_, ?_⟩
  · simp only [all_cons, digit_of, all_nil, Bool.and_self]
  · simp only [twoDigits, digit_of]
    omega

theorem appendField_four {v : Int} (hnonneg : 0 ≤ v) (hlt : v < 10000) :
    ∃ a b c d, appendField v 4 = [a, b, c, d] ∧ [a, b, c, d].all isDigit = true ∧
      year a b c d = v := by
  obtain ⟨n, rfl⟩ := Int.eq_ofNat_of_zero_le hnonneg
  have hn : ((n : Int) % 4294967296).toNat = n := by omega
  refine ⟨_, _, _, _, by rw [appendField, hn]; rfl, ?_, ?_⟩
  · simp only [all_cons, digit_of, all_nil, Bool.and_self]
  · simp only [year, twoDigits, digit_of]
    omega

theorem written_encoded {D : TDateTime} (hmonths : ∀ y m, pf.daysInMonth y m ≤ 31)
    (hrange : D.inRange pf = true) (hyear : 0 ≤ D.iYear ∧ D.iYear < 10000) :
    Written pf (generalizedTime D).writeContentsDERL
      (pf.time { D with iMicroSecond := 0 }) := by
  have hshort := hmonths D.iYear D.iMonth
  have hfields := hrange
  simp only [TDateTime.inRange, decide_eq_true_eq] at hfields
  obtain ⟨y1, y2, y3, y4, hy, hydigits, hyear⟩ := appendField_four hyear.1 hyear.2
  obtain ⟨m1, m2, hm, hmdigits, hmonth⟩ := appendField_two (v := D.iMonth + 1) (by omega) (by omega)
  obtain ⟨d1, d2, hd, hddigits, hday⟩ := appendField_two (v := D.iDay + 1) (by omega) (by omega)
  obtain ⟨h1, h2, hh, hhdigits, hhour⟩ := appendField_two (v := D.iHour) (by omega) (by omega)
  obtain ⟨n1, n2, hn, hndigits, hminute⟩ := appendField_two (v := D.iMinute) (by omega) (by omega)
  obtain ⟨s1, s2, hs, hsdigits, hsecond⟩ := appendField_two (v := D.iSecond) (by omega) (by omega)
  have hdate : ∀ second, second = D.iSecond →
      dateTime (year y1 y2 y3 y4) [m1, m2, d1, d2, h1, h2, n1, n2] second 0 =
        some { D with iMicroSecond := 0 } := by
    rintro _ rfl
    simp [dateTime, hyear, hmonth, hday, hhour, hminute]
  have hdigits : [y1, y2, y3, y4, m1, m2, d1, d2, h1, h2, n1, n2].all isDigit = true := by
    simp_all
  simp only [writeContentsDERL, hy, hm, hd, hh, hn]
  by_cases hzero : D.iSecond = 0
  · rw [if_neg (not_not.mpr hzero)]
    exact .minutes hdigits (hdate 0 hzero.symm) hrange
  · rw [if_pos hzero, hs]
    have hwritten := Written.seconds hdigits hsdigits .none .zulu (hdate _ hsecond) hrange
    simpa using hwritten

/-- **The decoder reads generalized times** but for unfinished ones, and what the encoder writes
is read back to the second. -/
theorem reads_iff_finished (hmonths : ∀ y m, pf.daysInMonth y m ≤ 31) :
    (∀ aSource, Reads (Written pf aSource) (getTimeL pf aSource) ↔ ¬Unfinished pf aSource) ∧
      ∀ D : TDateTime, D.inRange pf = true → 0 ≤ D.iYear ∧ D.iYear < 10000 →
        getTimeL pf (CASN1EncLeaf.generalizedTime D).writeContentsDERL =
          .ok (pf.time { D with iMicroSecond := 0 }) :=
  ⟨reads_iff pf, fun _ hrange hyear => getTimeL_written (written_encoded hmonths hrange hyear)⟩

theorem reads_iff_finished_millennium :
    getTimeL Platform.ascii
      (CASN1EncLeaf.generalizedTime ⟨1999, 11, 30, 23, 59, 59, 999999⟩).writeContentsDERL =
        .ok (Platform.ascii.time ⟨1999, 11, 30, 23, 59, 59, 0⟩) := by
  refine (reads_iff_finished fun y m => ?_).2 ⟨1999, 11, 30, 23, 59, 59, 999999⟩ (by decide)
    (by decide)
  show Platform.gregorianDaysInMonth y m ≤ 31
  unfold Platform.gregorianDaysInMonth
  split
  · split
    · decide
    · decide
  · split
    · decide
    · decide

/-- `200401010000.` is taken for the first moment of 2004. -/
theorem takes_a_dot_for_the_zulu :
    ¬ ∀ aSource : Bytes,
      Reads (Written Platform.ascii aSource) (getTimeL Platform.ascii aSource) := by
  intro h
  have hdate : dateTime (year 50 48 48 52) [48, 49, 48, 49, 48, 48, 48, 48] 0 0 =
      some ⟨2004, 0, 0, 0, 0, 0, 0⟩ := rfl
  have hdot := @Unfinished.mk Platform.ascii _ _ _ _ 46 _ _ (by decide) hdate (by decide)
    (.inl rfl)
  exact (reads_iff _ _).mp (h _) hdot

end TASN1DecGeneralizedTime

end OsSecurity

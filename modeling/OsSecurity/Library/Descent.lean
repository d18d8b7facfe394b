/-
Folding a list from its end, where every step sees what lies behind it.

A loop that goes down an array from the last element to the first, looking up at the
elements it has been through, is a recursion over the suffixes of the list: the step for
an element is told the elements behind it and the state they have left.  `descend` is that
recursion, for steps that may fail.

`descend_invariant` is the induction for a property of the state, `descend_step` gives the
states around any element of a run that succeeded, and `descend_ok_iff` says when a run
succeeds: exactly when every element meets the condition its own step succeeds under.
-/
import Mathlib.Data.List.Infix

namespace Descent

open List

variable {α σ ε : Type}

/-- The steps from the last element to the first. -/
def descend (step : List α → α → σ → Except ε σ) (init : σ) : List α → Except ε σ
  | [] => .ok init
  | a :: above => do step above a (← descend step init above)

variable {step : List α → α → σ → Except ε σ} {init : σ}

theorem descend_cons_eq_ok {a : α} {above : List α} {s' : σ} :
    descend step init (a :: above) = .ok s' ↔
      ∃ s, descend step init above = .ok s ∧ step above a s = .ok s' := by
  show (descend step init above >>= step above a) = .ok s' ↔ _
  cases descend step init above with
  | error e => exact ⟨fun h => (by cases h), fun h => (by obtain ⟨s, hs, -⟩ := h; cases hs)⟩
  | ok s =>
      refine ⟨fun h => ⟨s, rfl, h⟩, fun h => ?_⟩
      obtain ⟨t, ht, h⟩ := h
      obtain rfl := Except.ok.inj ht
      exact h

/-- **What holds at the start and is kept by the steps for a list's elements holds behind
each of them.** -/
theorem descend_invariant {l : List α} {P : List α → σ → Prop} (hinit : P [] init)
    (hstep : ∀ {above : List α} {a : α} {s s' : σ}, a :: above <:+ l → P above s →
      step above a s = .ok s' → P (a :: above) s') :
    ∀ {above : List α} {s : σ}, above <:+ l → descend step init above = .ok s → P above s := by
  intro above
  induction above with
  | nil =>
      intro s _ h
      obtain rfl := Except.ok.inj h
      exact hinit
  | cons a above ih =>
      intro s' hsuffix h
      obtain ⟨s, hs, h⟩ := descend_cons_eq_ok.mp h
      exact hstep hsuffix (ih ((suffix_cons ..).trans hsuffix) hs) h

/-- A run that has failed stays where it is. -/
theorem descend_append_error {below above : List α} {e : ε}
    (h : descend step init above = .error e) : descend step init (below ++ above) = .error e := by
  induction below with
  | nil => exact h
  | cons a below ih =>
      show (descend step init (below ++ above) >>= step (below ++ above) a) = .error e
      rw [ih]
      rfl

/-- A run that succeeds has succeeded behind every element. -/
theorem descend_suffix {l above : List α} {s : σ} (h : descend step init l = .ok s)
    (hsuffix : above <:+ l) : ∃ t, descend step init above = .ok t := by
  induction l generalizing s with
  | nil =>
      obtain rfl := suffix_nil.mp hsuffix
      exact ⟨s, h⟩
  | cons a l ih =>
      rcases suffix_cons_iff.mp hsuffix with rfl | hsuffix
      · exact ⟨s, h⟩
      · obtain ⟨t, ht, -⟩ := descend_cons_eq_ok.mp h
        exact ih ht hsuffix

/-- The states before and after the step of an element. -/
theorem descend_step {l above : List α} {a : α} {s : σ} (h : descend step init l = .ok s)
    (hsuffix : a :: above <:+ l) :
    ∃ t t', descend step init above = .ok t ∧ step above a t = .ok t' ∧
      descend step init (a :: above) = .ok t' := by
  obtain ⟨t', ht'⟩ := descend_suffix h hsuffix
  obtain ⟨t, ht, hstep⟩ := descend_cons_eq_ok.mp ht'
  exact ⟨t, t', ht, hstep, ht'⟩

/-- **A run succeeds exactly when every element meets the condition of its step.** -/
theorem descend_ok_iff {l : List α} {P : List α → σ → Prop} {C : List α → α → Prop}
    (hinit : P [] init)
    (hstep : ∀ {above : List α} {a : α} {s s' : σ}, a :: above <:+ l → P above s →
      step above a s = .ok s' → P (a :: above) s')
    (hok : ∀ {above : List α} {a : α} {s : σ}, a :: above <:+ l → P above s →
      ((∃ s', step above a s = .ok s') ↔ C above a)) :
    (∃ s, descend step init l = .ok s) ↔ ∀ a above, a :: above <:+ l → C above a := by
  refine ⟨fun h a above hsuffix => ?_, fun h => ?_⟩
  · obtain ⟨s, hs⟩ := h
    obtain ⟨t, t', ht, hstep', -⟩ := descend_step hs hsuffix
    have hP := descend_invariant hinit hstep ((suffix_cons ..).trans hsuffix) ht
    exact (hok hsuffix hP).mp ⟨t', hstep'⟩
  · have hall : ∀ above, above <:+ l → ∃ s, descend step init above = .ok s := by
      intro above
      induction above with
      | nil => exact fun _ => ⟨init, rfl⟩
      | cons a above ih =>
        intro hsuffix
        have habove := (suffix_cons a above).trans hsuffix
        obtain ⟨s, hs⟩ := ih habove
        obtain ⟨s', hs'⟩ :=
          (hok hsuffix (descend_invariant hinit hstep habove hs)).mpr (h a above hsuffix)
        exact ⟨s', descend_cons_eq_ok.mpr ⟨s, hs, hs'⟩⟩
    exact hall l (suffix_refl l)

/-- Which elements stand behind one, by its position. -/
theorem cons_suffix_iff {l above : List α} {a : α} :
    a :: above <:+ l ↔ ∃ i, l[i]? = some a ∧ above = l.drop (i + 1) := by
  refine ⟨fun h => ?_, fun h => ?_⟩
  · obtain ⟨below, rfl⟩ := h
    refine ⟨below.length, by simp, ?_⟩
    rw [drop_append, drop_of_length_le (by omega), Nat.add_sub_cancel_left]
    rfl
  · obtain ⟨i, hi, rfl⟩ := h
    obtain ⟨hlt, rfl⟩ := List.getElem?_eq_some_iff.mp hi
    rw [← drop_eq_getElem_cons hlt]
    exact drop_suffix ..

end Descent

/-
Singly linked lists whose links are fields of the elements.

The links are a function from an element to the one behind it.  `Chain next first l` says that
from `first` on they lead through `l` and end there.  An element that the list does not have may
change its link, and taking an element out or pushing one changes one other link.
-/
import Mathlib.Data.List.Nodup
import Mathlib.Logic.Function.Basic

namespace LinkedLists

open Function

variable {α : Type*}

/-- The links lead from `first` through the list. -/
def Chain (next : α → Option α) : Option α → List α → Prop
  | first, [] => first = none
  | first, a :: l => first = some a ∧ Chain next (next a) l

variable {next : α → Option α} {first : Option α} {a : α} {l : List α}

theorem Chain.head (h : Chain next first l) : first = l.head? := by
  cases l with
  | nil => exact h
  | cons a l => exact h.1

/-- The link of an element leads to the one behind it. -/
theorem Chain.link {front : List α} (h : Chain next first (front ++ a :: l)) :
    next a = l.head? := by
  induction front generalizing first with
  | nil => exact h.2.head
  | cons b front ih => exact ih h.2

variable [DecidableEq α]

theorem Chain.update {v : Option α} (h : Chain next first l) (ha : a ∉ l) :
    Chain (Function.update next a v) first l := by
  induction l generalizing first with
  | nil => exact h
  | cons b l ih =>
      have hb : b ≠ a := fun e => ha (e ▸ List.mem_cons_self)
      refine ⟨h.1, ?_⟩
      rw [update_of_ne hb]
      exact ih h.2 fun hmem => ha (List.mem_cons_of_mem b hmem)

/-- A new element in front. -/
theorem Chain.push (h : Chain next first l) (ha : a ∉ l) :
    Chain (Function.update next a first) (some a) (a :: l) := by
  refine ⟨rfl, ?_⟩
  rw [update_self]
  exact h.update ha

/-- The element behind `b` is taken out. -/
theorem Chain.unlink {b : α} {front back : List α} (h : Chain next first (front ++ b :: a :: back))
    (hnodup : (front ++ b :: a :: back).Nodup) :
    Chain (Function.update next b (next a)) first (front ++ b :: back) := by
  induction front generalizing first with
  | nil =>
      obtain ⟨hb, ha, hback⟩ := h
      refine ⟨hb, ?_⟩
      rw [update_self]
      refine hback.update fun hmem => ?_
      exact (List.nodup_cons.mp hnodup).1 (List.mem_cons_of_mem a hmem)
  | cons c front ih =>
      obtain ⟨hc, hrest⟩ := List.nodup_cons.mp hnodup
      refine ⟨h.1, ?_⟩
      have hne : c ≠ b := by
        intro e
        apply hc
        rw [e]
        simp
      rw [update_of_ne hne]
      exact ih h.2 hrest

end LinkedLists

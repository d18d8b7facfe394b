/-
Lists that are edited or walked by index, and the greatest key in one.
-/
import Mathlib.Data.List.Basic
import Mathlib.Order.Lattice
import Mathlib.Order.Defs.LinearOrder

namespace IndexedLists

open List

section

variable {α : Type*} {xs : List α} {a : α} {i : Nat}

/-- The element that a walk is at, and what is behind it. -/
theorem flatMap_drop_some {β : Type*} (f : α → List β) (ha : xs[i]? = some a) :
    (xs.drop i).flatMap f = f a ++ (xs.drop (i + 1)).flatMap f := by
  obtain ⟨hi, hget⟩ := List.getElem?_eq_some_iff.mp ha
  rw [drop_eq_getElem_cons hi, hget, flatMap_cons]

theorem flatMap_drop_none {β : Type*} (f : α → List β) (h : xs[i]? = none) :
    (xs.drop i).flatMap f = [] := by
  rw [drop_eq_nil_of_le (List.getElem?_eq_none_iff.mp h), flatMap_nil]

/-- What is taken off the end and put back. -/
theorem eraseIdx_last (ha : xs[i]? = some a) (hlast : i + 1 = xs.length) :
    xs.eraseIdx i ++ [a] = xs := by
  obtain ⟨hi, hget⟩ := List.getElem?_eq_some_iff.mp ha
  have hdrop : xs.drop (i + 1) = [] := drop_eq_nil_of_le (by omega)
  rw [eraseIdx_eq_take_drop_succ, hdrop, append_nil, ← hget, take_append_getElem hi,
    hlast, take_length]

theorem eraseIdx_split (ha : xs[i]? = some a) :
    xs = xs.take i ++ a :: xs.drop (i + 1) ∧ xs.eraseIdx i = xs.take i ++ xs.drop (i + 1) := by
  obtain ⟨hi, hget⟩ := List.getElem?_eq_some_iff.mp ha
  refine ⟨?_, eraseIdx_eq_take_drop_succ xs i⟩
  rw [← hget, getElem_cons_drop, take_append_drop]

/-- An element that is replaced by one with the same key. -/
theorem map_set_of_eq {β : Type*} {f : α → β} {b : α} (ha : xs[i]? = some a) (hf : f b = f a) :
    (xs.set i b).map f = xs.map f := by
  obtain ⟨hi, hget⟩ := List.getElem?_eq_some_iff.mp ha
  rw [map_set, hf, ← hget, ← getElem_map f (h := by simpa using hi), set_getElem_self]

end

/-- The greatest key bounds every key, and where the search for it starts. -/
theorem le_foldl_max {α β : Type*} [LinearOrder β] (f : α → β) (xs : List α) (b : β) :
    b ≤ xs.foldl (fun b x => max b (f x)) b ∧ ∀ x ∈ xs, f x ≤ xs.foldl (fun b x => max b (f x)) b := by
  induction xs generalizing b with
  | nil => simp
  | cons x xs ih =>
      obtain ⟨hstart, hrest⟩ := ih (max b (f x))
      refine ⟨le_trans (le_max_left _ _) hstart, ?_⟩
      intro y hy
      rcases mem_cons.mp hy with rfl | hy
      · exact le_trans (le_max_right _ _) hstart
      · exact hrest y hy

end IndexedLists

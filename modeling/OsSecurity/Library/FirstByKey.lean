/-
The first element of each key in a list.

A list is often merged into another that must not hold a key twice, and what comes first wins.
`firsts` is what the merge makes of one list, and `removeAt` is a walk by index that removes from
the list it walks: it fails where the list has become too short for the index.
-/
import Mathlib.Data.List.Nodup

namespace FirstByKey

open List

variable {α κ : Type} [DecidableEq κ] (key : α → κ)

/-- The first element of each key, in order. -/
def firsts : List α → List α
  | [] => []
  | x :: xs => x :: (firsts xs).filter fun y => key y ≠ key x

theorem firsts_sublist (xs : List α) : (firsts key xs).Sublist xs := by
  induction xs with
  | nil => exact Sublist.slnil
  | cons x xs ih => exact (filter_sublist.trans ih).cons_cons x

theorem nodup_firsts (xs : List α) : ((firsts key xs).map key).Nodup := by
  induction xs with
  | nil => exact nodup_nil
  | cons x xs ih =>
      rw [firsts, map_cons, nodup_cons]
      refine ⟨?_, ih.sublist (filter_sublist.map key)⟩
      intro hmem
      obtain ⟨y, hy, hkey⟩ := mem_map.mp hmem
      simp [hkey] at hy

theorem mem_map_firsts {xs : List α} {k : κ} : k ∈ (firsts key xs).map key ↔ k ∈ xs.map key := by
  induction xs with
  | nil => simp [firsts]
  | cons x xs ih =>
      by_cases hk : k = key x
      · simp [firsts, hk]
      · simp only [firsts, map_cons, mem_cons, hk, false_or, ← ih, mem_map,
          mem_filter, decide_eq_true_eq]
        constructor
        · rintro ⟨y, ⟨hy, -⟩, hkey⟩
          exact ⟨y, hy, hkey⟩
        · rintro ⟨y, hy, hkey⟩
          exact ⟨y, ⟨hy, fun hyx => hk (hkey ▸ hyx)⟩, hkey⟩

/-- What a merge keeps of a list that goes on: the first elements whose key is new. -/
theorem firsts_append (xs ys : List α) :
    firsts key (xs ++ ys) =
      firsts key xs ++ (firsts key ys).filter fun y => key y ∉ xs.map key := by
  induction xs with
  | nil => simp [firsts]
  | cons x xs ih =>
      rw [cons_append, firsts, ih, filter_append, firsts, cons_append, filter_filter]
      congr 2
      refine filter_congr fun y _ => ?_
      simp [not_or, eq_comm]

/-- One element more. -/
theorem firsts_concat (xs : List α) (x : α) :
    firsts key (xs ++ [x]) =
      if key x ∈ (firsts key xs).map key then firsts key xs else firsts key xs ++ [x] := by
  have hone : firsts key [x] = [x] := rfl
  rw [firsts_append, hone]
  by_cases hx : key x ∈ xs.map key
  · rw [if_pos ((mem_map_firsts key).mpr hx), filter_cons_of_neg (by simpa using hx),
      filter_nil, append_nil]
  · rw [if_neg fun h => hx ((mem_map_firsts key).mp h),
      filter_cons_of_pos (by simpa using hx), filter_nil]

/-- Keys decide which elements are first, whatever the elements are. -/
theorem forall₂_firsts {β : Type} (key' : β → κ) {R : α → β → Prop} {xs : List α} {ys : List β}
    (hkey : ∀ x y, R x y → key x = key' y) (h : Forall₂ R xs ys) :
    Forall₂ R (firsts key xs) (firsts key' ys) := by
  induction h with
  | nil => exact .nil
  | cons hxy _ ih =>
      refine .cons hxy (rel_filter ?_ ih)
      intro a b hab
      simp [hkey a b hab, hkey _ _ hxy]

/-- Elements with distinct keys that were left in a list are those whose key was left. -/
theorem sublist_eq_filter {xs ys : List α} (hnodup : (ys.map key).Nodup) (h : xs.Sublist ys) :
    xs = ys.filter fun y => key y ∈ xs.map key := by
  induction h with
  | slnil => rfl
  | @cons xs ys a hsub ih =>
      rw [map_cons, nodup_cons] at hnodup
      have ha : key a ∉ xs.map key := fun hmem => hnodup.1 ((hsub.map key).subset hmem)
      rw [filter_cons_of_neg (by simpa using ha)]
      exact ih hnodup.2
  | @cons_cons xs ys a hsub ih =>
      rw [map_cons, nodup_cons] at hnodup
      rw [filter_cons_of_pos (by simp)]
      congr 1
      refine (ih hnodup.2).trans (filter_congr fun y hy => ?_)
      have hne : key y ≠ key a := fun hya => hnodup.1 (hya ▸ mem_map_of_mem hy)
      simp [hne]

/-! ### Removing from the list that is walked -/

/-- `left` turns of a walk from index `i`: an element that `p` holds of is removed, and the index
goes on regardless. -/
def removeAt (p : α → Bool) : Nat → Nat → List α → Option (List α)
  | 0, _, xs => some xs
  | left + 1, i, xs =>
      match xs[i]? with
      | none => none
      | some x => removeAt p left (i + 1) (if p x then xs.eraseIdx i else xs)

variable {p : α → Bool}

/-- A walk that has more turns than elements ahead fails. -/
theorem removeAt_short {left i : Nat} {xs : List α} (hleft : 0 < left)
    (hshort : xs.length < i + left) : removeAt p left i xs = none := by
  induction left generalizing i xs with
  | zero => omega
  | succ left ih =>
      rw [removeAt]
      cases hx : xs[i]? with
      | none => rfl
      | some x =>
        have hi : i < xs.length := (List.getElem?_eq_some_iff.mp hx).1
        refine ih (by omega) ?_
        have hlen : (xs.eraseIdx i).length ≤ xs.length := by
          rw [length_eraseIdx]
          split <;> omega
        split <;> omega

/-- The walk over a whole list ends when nothing but the last element has to go. -/
theorem removeAt_all {done ahead : List α} :
    removeAt p ahead.length done.length (done ++ ahead) =
      if ∀ x ∈ ahead.dropLast, p x = false then some (done ++ ahead.filter fun x => !p x)
      else none := by
  induction ahead generalizing done with
  | nil => simp [removeAt]
  | cons x xs ih =>
      have hx : (done ++ x :: xs)[done.length]? = some x := by simp
      rw [length_cons, removeAt, hx]
      by_cases hp : p x
      · have herase : (done ++ x :: xs).eraseIdx done.length = done ++ xs := by
          simp [eraseIdx_append_of_length_le]
        simp only [hp, if_true, herase]
        cases xs with
        | nil => simp [removeAt, hp]
        | cons y ys =>
          rw [removeAt_short (by simp) (by simp), if_neg]
          intro h
          simp [hp] at h
      · have hgo : removeAt p xs.length (done ++ [x]).length (done ++ [x] ++ xs) = _ := ih
        rw [length_append, List.append_assoc] at hgo
        simp only [hp, Bool.false_eq_true, if_false]
        refine hgo.trans ?_
        cases xs with
        | nil => simp [hp]
        | cons y ys => simp [hp]

end FirstByKey

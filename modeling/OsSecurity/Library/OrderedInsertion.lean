/-
Insertion into an array that is kept in order.

The place is found by halving, with a comparison that answers a number: negative where the
new entry comes first, zero where the two are the same.  Nothing is asked of the comparison
but that zero means equal; it need not be an order, and then the array is not sorted, but it
still has the entries that were put into it.
-/
import Mathlib.Data.List.Basic
import Mathlib.Data.List.InsertIdx

namespace OrderedInsertion

variable {α : Type*} {order : α → α → Int}

/-- Where an entry belongs among those from `l` up to `r`, unless it is there already. -/
def place (order : α → α → Int) (a : α) (xs : List α) (l r : Nat) : Option Nat :=
  if l < r then
    match xs[(l + r) / 2]? with
    | none => some r
    | some b =>
      if order a b = 0 then none
      else if order a b < 0 then place order a xs l ((l + r) / 2)
      else place order a xs ((l + r) / 2 + 1) r
  else some r
  termination_by r - l

/-- `InsertInOrder`; an entry that is there already is not put in again. -/
def insertInOrder (order : α → α → Int) (a : α) (xs : List α) : List α :=
  match place order a xs 0 xs.length with
  | none => xs
  | some i => xs.insertIdx i a

@[simp] theorem insertInOrder_nil (order : α → α → Int) (a : α) :
    insertInOrder order a [] = [a] := by
  unfold insertInOrder
  rw [place, if_neg (by simp)]
  rfl

theorem place_le {a : α} {xs : List α} {l r i : Nat} (hr : r ≤ xs.length)
    (h : place order a xs l r = some i) : i ≤ xs.length := by
  fun_induction place order a xs l r with
  | case1 l r hlt hnone =>
      cases h
      exact hr
  | case2 l r hlt b hb hzero => cases h
  | case3 l r hlt b hb hzero hneg ih => exact ih (by omega) h
  | case4 l r hlt b hb hzero hneg ih => exact ih hr h
  | case5 l r hge =>
      cases h
      exact hr

theorem place_none {a : α} {xs : List α} {l r : Nat} (h : place order a xs l r = none) :
    ∃ b ∈ xs, order a b = 0 := by
  fun_induction place order a xs l r with
  | case1 l r hlt hnone => cases h
  | case2 l r hlt b hb hzero => exact ⟨b, List.mem_of_getElem? hb, hzero⟩
  | case3 l r hlt b hb hzero hneg ih => exact ih h
  | case4 l r hlt b hb hzero hneg ih => exact ih h
  | case5 l r hge => cases h

/-- **The array has what was put into it.** -/
theorem mem_insertInOrder (hzero : ∀ a b, order a b = 0 → a = b) {a x : α} {xs : List α} :
    x ∈ insertInOrder order a xs ↔ x = a ∨ x ∈ xs := by
  unfold insertInOrder
  split
  next hplace =>
    obtain ⟨b, hb, horder⟩ := place_none hplace
    have hab : a = b := hzero a b horder
    constructor
    · exact Or.inr
    · rintro (rfl | hx)
      · rw [hab]
        exact hb
      · exact hx
  next i hplace => exact List.mem_insertIdx (place_le (Nat.le_refl _) hplace)

/-- Entries put in one after the other. -/
theorem mem_foldl_insertInOrder (hzero : ∀ a b, order a b = 0 → a = b) {x : α}
    (entries xs : List α) :
    x ∈ entries.foldl (fun acc a => insertInOrder order a acc) xs ↔ x ∈ entries ∨ x ∈ xs := by
  induction entries generalizing xs with
  | nil => simp
  | cons a entries ih =>
      rw [List.foldl_cons, ih, mem_insertInOrder hzero, List.mem_cons]
      constructor
      · rintro (h | h | h)
        · exact Or.inl (Or.inr h)
        · exact Or.inl (Or.inl h)
        · exact Or.inr h
      · rintro ((h | h) | h)
        · exact Or.inr (Or.inl h)
        · exact Or.inl h
        · exact Or.inr (Or.inr h)

end OrderedInsertion

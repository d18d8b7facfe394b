/-
Several objects, each of which is known by what has happened to it.

A program that holds many objects and changes them one at a time, or adds one, is followed by a
list of what they are known by: `List.Forall₂` relates the two lists, and these are the steps
that keep it.
-/
import Mathlib.Data.List.Forall2

namespace Pool

open List

variable {α β : Type*} {R : α → β → Prop} {as : List α} {bs : List β}

/-- One object is changed. -/
theorem set (h : Forall₂ R as bs) (i : Nat) {a : α} {b : β} (hab : R a b) :
    Forall₂ R (as.set i a) (bs.set i b) := by
  induction h generalizing i with
  | nil => exact Forall₂.nil
  | cons hhead htail ih =>
      cases i with
      | zero => exact Forall₂.cons hab htail
      | succ i => exact Forall₂.cons hhead (ih i)

/-- An object comes to the others. -/
theorem concat (h : Forall₂ R as bs) {a : α} {b : β} (hab : R a b) :
    Forall₂ R (as ++ [a]) (bs ++ [b]) := by
  induction h with
  | nil => exact Forall₂.cons hab Forall₂.nil
  | cons hhead _ ih => exact Forall₂.cons hhead ih

end Pool

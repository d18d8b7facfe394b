/-
A store whose changes count once they are committed.

The store has a committed content and a working one.  Operations change the working content; a
commit makes it the committed one, and a revert goes back.  An operation may fail, and then it
may have had its effect on the working content or not: `Outcome` tells the three cases apart.
-/
import Mathlib.Logic.Function.Basic

namespace TransactionalStore

variable {ι β : Type*}

structure Store (ι β : Type*) where
  committed : ι → Option β
  working : ι → Option β

/-- How an operation ends: with its effect, without it, or with an error after it. -/
inductive Outcome where
  | done
  | failed (aError : Int)
  | late (aError : Int)

namespace Store

section

variable {s : Store ι β}

def commit (s : Store ι β) : Store ι β := { s with committed := s.working }

def revert (s : Store ι β) : Store ι β := { s with working := s.committed }

end

variable [DecidableEq ι] {s : Store ι β} {i j : ι} {b : β}

def write (s : Store ι β) (i : ι) (b : β) : Store ι β :=
  { s with working := Function.update s.working i (some b) }

def delete (s : Store ι β) (i : ι) : Store ι β :=
  { s with working := Function.update s.working i none }

@[simp] theorem write_same : (s.write i b).working i = some b := Function.update_self i _ _

theorem write_of_ne (h : j ≠ i) : (s.write i b).working j = s.working j :=
  Function.update_of_ne h _ _

theorem delete_of_ne (h : j ≠ i) : (s.delete i).working j = s.working j :=
  Function.update_of_ne h _ _

/-- What is in the store stays in it when something is written. -/
theorem isSome_write (h : (s.working j).isSome) : ((s.write i b).working j).isSome := by
  by_cases hji : j = i
  · subst hji
    simp
  · rw [write_of_ne hji]
    exact h

end Store

end TransactionalStore

/-
Iterated ciphers.

A cipher that works in rounds takes a state through one round for every key of its
schedule.  Where each round can be undone the whole is undone by the rounds' inverses with
the schedule reversed.  A Feistel round changes one half of the state by a function of the
other, and up to the order of the halves it is its own inverse, whatever that function is.
-/
import Mathlib.Data.List.Basic

namespace Rounds

variable {K S H : Type}

/-- One round for each key, the first key first. -/
def run (round : K → S → S) (ks : List K) (s : S) : S :=
  ks.foldl (fun s k => round k s) s

@[simp] theorem run_cons (round : K → S → S) (k : K) (ks : List K) (s : S) :
    run round (k :: ks) s = run round ks (round k s) := rfl

theorem run_append (round : K → S → S) (ks ks' : List K) (s : S) :
    run round (ks ++ ks') s = run round ks' (run round ks s) :=
  List.foldl_append

/-- Rounds are undone one after the other, the last one first. -/
theorem run_reverse {round back : K → S → S} (h : ∀ k s, back k (round k s) = s) (ks : List K)
    (s : S) : run back ks.reverse (run round ks s) = s := by
  induction ks generalizing s with
  | nil => rfl
  | cons k ks ih =>
      rw [List.reverse_cons, run_append, run_cons round, ih]
      exact h k s

/-- A function of the right half goes into the left one, and the halves change places. -/
def feistel (mix : H → H → H) (F : K → H → H) (k : K) (s : H × H) : H × H :=
  (s.2, mix s.1 (F k s.2))

/-- **A Feistel network undoes itself**, under the reversed schedule and with the halves the
other way round. -/
theorem run_feistel_reverse {mix : H → H → H} (hmix : ∀ a b, mix (mix a b) b = a)
    (F : K → H → H) (ks : List K) (s : H × H) :
    run (feistel mix F) ks.reverse (run (feistel mix F) ks s).swap = s.swap := by
  have hswap : ∀ (ks : List K) (s : H × H),
      run (fun k s => (feistel mix F k s.swap).swap) ks s = (run (feistel mix F) ks s.swap).swap := by
    intro ks
    induction ks with
    | nil => exact fun s => s.swap_swap.symm
    | cons k ks ih => exact fun s => ih _
  have hback := @run_reverse _ _ (feistel mix F)
    (fun k s => (feistel mix F k s.swap).swap)
    (fun k s => by simp [feistel, hmix]) ks s
  rw [hswap] at hback
  calc run (feistel mix F) ks.reverse (run (feistel mix F) ks s).swap
      = (run (feistel mix F) ks.reverse (run (feistel mix F) ks s).swap).swap.swap :=
        (Prod.swap_swap _).symm
    _ = s.swap := by rw [hback]

end Rounds

/-
Functions that recurse on fuel, and what they come to when there is enough of it.
-/
import Mathlib.Tactic.Common

namespace Fuel

variable {β γ : Type*}

/-- With enough fuel the function comes to `t`. -/
def Enough (f : Nat → Option β) (t : β) : Prop := ∃ n, ∀ fuel, n ≤ fuel → f fuel = some t

theorem Enough.unique {f : Nat → Option β} {t u : β} (ht : Enough f t) (hu : Enough f u) :
    t = u := by
  obtain ⟨n, hn⟩ := ht
  obtain ⟨m, hm⟩ := hu
  have h1 := hn (max n m) (Nat.le_max_left n m)
  have h2 := hm (max n m) (Nat.le_max_right n m)
  exact Option.some.inj (h1.symm.trans h2)

theorem Enough.of_forall {f : Nat → Option β} {t : β} (h : ∀ fuel, f fuel = some t) : Enough f t :=
  ⟨0, fun fuel _ => h fuel⟩

/-- One turn that costs one unit. -/
theorem Enough.step {f g : Nat → Option β} {t : β} (h : ∀ fuel, f (fuel + 1) = g fuel)
    (hg : Enough g t) : Enough f t := by
  obtain ⟨n, hn⟩ := hg
  refine ⟨n + 1, fun fuel hfuel => ?_⟩
  obtain ⟨m, rfl⟩ := Nat.exists_eq_add_of_le' hfuel
  exact (h (m + n)).trans (hn _ (Nat.le_add_left n m))

theorem Enough.bind {f : Nat → Option β} {g : Nat → β → Option γ} {t : β} {u : γ}
    (hf : Enough f t) (hg : Enough (fun fuel => g fuel t) u) :
    Enough (fun fuel => (f fuel).bind (g fuel)) u := by
  obtain ⟨n, hn⟩ := hf
  obtain ⟨m, hm⟩ := hg
  refine ⟨max n m, fun fuel hfuel => ?_⟩
  have h1 := hn fuel (Nat.le_trans (Nat.le_max_left n m) hfuel)
  have h2 := hm fuel (Nat.le_trans (Nat.le_max_right n m) hfuel)
  simp only [h1, Option.bind_some, h2]

theorem Enough.map {f : Nat → Option β} {g : β → γ} {t : β} (hf : Enough f t) :
    Enough (fun fuel => (f fuel).map g) (g t) := by
  obtain ⟨n, hn⟩ := hf
  refine ⟨n, fun fuel hfuel => ?_⟩
  simp only [hn fuel hfuel, Option.map_some]

end Fuel

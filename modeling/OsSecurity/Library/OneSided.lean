/-
Comparisons whose rule is picked by their left side.

Each thing has a key, a text, and a flag saying whether it is compared loosely.  Two
things are related when their keys are equal and their texts are, after folding when the
left one is loose.  Looseness of the right one does not matter, so the relation is not
symmetric; `Spelt` names what goes wrong, a strict thing that folds like a loose one and
is spelt differently.

Lists are matched by counting them and looking, for each member of one, for some related
member of the other.  That is not symmetric either: two members may find the same one.
The main result, `lawful_iff`, says for which lists neither happens.
-/
import Mathlib.Data.List.Forall2
import Mathlib.Data.List.Perm.Basic

namespace OneSided

open List

/-! ### One-sided search as a pairing -/

/-- **A search that never ends at one place twice is a pairing.** -/
theorem exists_perm_forall₂ {α β : Type*} {R : β → α → Prop} {B : List β} {A : List α}
    (hlen : A.length = B.length) (hcov : ∀ b ∈ B, ∃ a ∈ A, R b a)
    (hsep : B.Pairwise fun b b' => ∀ a ∈ A, R b a → ¬ R b' a) :
    ∃ A', A'.Perm A ∧ Forall₂ R B A' := by
  induction B generalizing A with
  | nil =>
      obtain rfl := length_eq_zero_iff.mp hlen
      exact ⟨[], Perm.refl _, .nil⟩
  | cons b B ih =>
      obtain ⟨a, ha, hba⟩ := hcov b (mem_cons_self ..)
      obtain ⟨s, t, rfl⟩ := append_of_mem ha
      obtain ⟨hfirst, hrest⟩ := pairwise_cons.mp hsep
      have hmem : ∀ x ∈ s ++ t, x ∈ s ++ a :: t := by
        intro x hx
        rcases mem_append.mp hx with hx | hx
        · exact mem_append_left _ hx
        · exact mem_append_right _ (mem_cons_of_mem _ hx)
      have hcov' : ∀ b' ∈ B, ∃ x ∈ s ++ t, R b' x := by
        intro b' hb'
        obtain ⟨x, hx, hb'x⟩ := hcov b' (mem_cons_of_mem _ hb')
        refine ⟨x, ?_, hb'x⟩
        rcases mem_append.mp hx with hx | hx
        · exact mem_append_left _ hx
        · rcases mem_cons.mp hx with rfl | hx
          · exact absurd hb'x (hfirst b' hb' x ha hba)
          · exact mem_append_right _ hx
      have hlen' : (s ++ t).length = B.length := by
        simp only [length_append, length_cons] at hlen ⊢
        omega
      obtain ⟨A', hperm, hall⟩ := ih hlen' hcov'
        (hrest.imp fun h x hx => h x (hmem x hx))
      exact ⟨a :: A', (hperm.cons a).trans perm_middle.symm, .cons hba hall⟩

/-! ### The relation -/

section Relation

variable {α κ τ φ : Type*} (key : α → κ) (text : α → τ) (fold : τ → φ) (loose : α → Prop)

/-- The left one's rule, applied to both. -/
def Rel (x y : α) : Prop :=
  key x = key y ∧ (loose x → fold (text x) = fold (text y)) ∧ (¬ loose x → text x = text y)

/-- Equal under the rule of at least one of the two. -/
def Either (x y : α) : Prop := Rel key text fold loose x y ∨ Rel key text fold loose y x

/-- `B` is matched by `A`: as many members, and every one of `B` is related to one of `A`. -/
def Matches (A B : List α) : Prop :=
  A.length = B.length ∧ ∀ b ∈ B, ∃ a ∈ A, Rel key text fold loose b a

/-- The same multiset, members being equal under the rule of at least one of the two. -/
def Same (A B : List α) : Prop :=
  ∃ A', A'.Perm A ∧ Forall₂ (Either key text fold loose) B A'

/-- No two members are related, in either direction. -/
def Distinct (B : List α) : Prop :=
  B.Pairwise fun b b' => ¬ Either key text fold loose b b'

/-- A strict thing of the domain has the same key and folded text as `b`, and is spelt
as `b` is. -/
def Spelt (D : α → Prop) (b : α) : Prop :=
  ∀ d, D d → ¬ loose d → key d = key b → fold (text d) = fold (text b) → text d = text b

variable {key text fold loose}

theorem Rel.refl (x : α) : Rel key text fold loose x x := ⟨rfl, fun _ => rfl, fun _ => rfl⟩

theorem Rel.fold_eq {x y : α} (h : Rel key text fold loose x y) :
    fold (text x) = fold (text y) := by
  by_cases hx : loose x
  · exact h.2.1 hx
  · exact congrArg fold (h.2.2 hx)

/-- The relation turns around at a thing that has one strict spelling. -/
theorem Rel.symm_of_spelt {D : α → Prop} {b a : α} (ha : D a)
    (hs : loose b → Spelt key text fold loose D b) (h : Rel key text fold loose b a) :
    Rel key text fold loose a b := by
  refine ⟨h.1.symm, fun _ => h.fold_eq.symm, fun hstrict => ?_⟩
  by_cases hb : loose b
  · exact hs hb a ha hstrict h.1.symm h.fold_eq.symm
  · exact (h.2.2 hb).symm

/-- Two things that find the same third one are related to each other. -/
theorem either_of_common {b b' a : α} (h : Rel key text fold loose b a)
    (h' : Rel key text fold loose b' a) : Either key text fold loose b b' := by
  have hkey := h.1.trans h'.1.symm
  have hfold := h.fold_eq.trans h'.fold_eq.symm
  by_cases hb : loose b
  · exact Or.inl ⟨hkey, fun _ => hfold, fun hn => absurd hb hn⟩
  · by_cases hb' : loose b'
    · exact Or.inr ⟨hkey.symm, fun _ => hfold.symm, fun hn => absurd hb' hn⟩
    · exact Or.inl ⟨hkey, fun hn => absurd hn hb, fun _ => (h.2.2 hb).trans (h'.2.2 hb').symm⟩

/-- A list of distinct members is paired off with whatever matches it. -/
theorem Matches.pairing {A B : List α} (h : Matches key text fold loose A B)
    (hB : Distinct key text fold loose B) :
    ∃ A', A'.Perm A ∧ Forall₂ (Rel key text fold loose) B A' := by
  refine exists_perm_forall₂ h.1 h.2 (hB.imp fun hne => ?_)
  intro a _ hba hb'a
  exact hne (either_of_common hba hb'a)

theorem Matches.same {A B : List α} (h : Matches key text fold loose A B)
    (hB : Distinct key text fold loose B) : Same key text fold loose A B := by
  obtain ⟨A', hperm, hall⟩ := h.pairing hB
  exact ⟨A', hperm, hall.imp fun _ _ hr => Or.inl hr⟩

theorem forall₂_exists_left {R : α → α → Prop} {l l' : List α} (h : Forall₂ R l l') :
    ∀ x ∈ l', ∃ y ∈ l, R y x := by
  induction h with
  | nil => intro x hx; cases hx
  | @cons y x l l' hyx _ ih =>
      intro z hz
      rcases mem_cons.mp hz with rfl | hz
      · exact ⟨y, mem_cons_self .., hyx⟩
      · obtain ⟨w, hw, hwz⟩ := ih z hz
        exact ⟨w, mem_cons_of_mem _ hw, hwz⟩

/-! ### Where matching behaves like an equivalence -/

variable (key text fold loose)

/-- What an equivalence asks of the matches against `B`, over the lists with members in a
domain: `B` matches itself, what matches `B` is matched by it and is the same multiset,
and a match against `B` composes with a match by it. -/
structure Lawful (D : α → Prop) (B : List α) : Prop where
  refl : Matches key text fold loose B B
  symm : ∀ A, (∀ a ∈ A, D a) → Matches key text fold loose A B → Matches key text fold loose B A
  trans : ∀ A C, (∀ a ∈ A, D a) → (∀ c ∈ C, D c) → Matches key text fold loose A B →
    Matches key text fold loose B C → Matches key text fold loose A C
  same : ∀ A, (∀ a ∈ A, D a) → Matches key text fold loose A B → Same key text fold loose A B

variable {key text fold loose}

theorem Matches.refl (B : List α) : Matches key text fold loose B B :=
  ⟨rfl, fun b hb => ⟨b, hb, Rel.refl b⟩⟩

/-- A loose thing with a strict twin of every spelling is as good as strict in the middle. -/
theorem Rel.trans_of_spelt {D : α → Prop} {a b c : α} (ha : D a) (hc : D c)
    (hs : loose b → Spelt key text fold loose D b)
    (htwin : ∀ y, D y → loose y → (∃ x, D x ∧ ¬ loose x ∧ key x = key y) →
      ∃ y', D y' ∧ ¬ loose y' ∧ key y' = key y ∧ text y' = text y)
    (hcb : Rel key text fold loose c b) (hba : Rel key text fold loose b a) :
    Rel key text fold loose c a := by
  refine ⟨hcb.1.trans hba.1, fun _ => hcb.fold_eq.trans hba.fold_eq, fun hcs => ?_⟩
  have htext := hcb.2.2 hcs
  by_cases hb : loose b
  · by_cases hal : loose a
    · -- `a` and `c` need not be spelt alike; the strict twin of `a` is spelt as `b`
      obtain ⟨a', ha', hstrict, hkey, htext'⟩ :=
        htwin a ha hal ⟨c, hc, hcs, hcb.1.trans hba.1⟩
      have := hs hb a' ha' hstrict (hkey.trans hba.1.symm)
        ((congrArg fold htext').trans hba.fold_eq.symm)
      rw [htext, ← this, htext']
    · exact htext.trans (hs hb a ha hal hba.1.symm hba.fold_eq.symm).symm
  · exact htext.trans (hba.2.2 hb)

theorem lawful_of_distinct {D : α → Prop} {B : List α}
    (htwin : ∀ y, D y → loose y → (∃ x, D x ∧ ¬ loose x ∧ key x = key y) →
      ∃ y', D y' ∧ ¬ loose y' ∧ key y' = key y ∧ text y' = text y)
    (hd : Distinct key text fold loose B)
    (hs : ∀ b ∈ B, loose b → Spelt key text fold loose D b) : Lawful key text fold loose D B where
  refl := Matches.refl B
  symm := by
    intro A hA h
    obtain ⟨A', hperm, hall⟩ := h.pairing hd
    refine ⟨h.1.symm, fun a ha => ?_⟩
    have hmem : ∀ x ∈ A', ∃ b ∈ B, Rel key text fold loose b x := forall₂_exists_left hall
    obtain ⟨b, hb, hba⟩ := hmem a (hperm.mem_iff.mpr ha)
    exact ⟨b, hb, hba.symm_of_spelt (hA a ha) (hs b hb)⟩
  trans := by
    intro A C hA hC hAB hBC
    refine ⟨hAB.1.trans hBC.1, fun c hc => ?_⟩
    obtain ⟨b, hb, hcb⟩ := hBC.2 c hc
    obtain ⟨a, ha, hba⟩ := hAB.2 b hb
    exact ⟨a, ha, hcb.trans_of_spelt (hA a ha) (hC c hc) (hs b hb) htwin hba⟩
  same := fun A _ h => h.same hd

private theorem mem_set_of_ne {B : List α} {i j : Nat} {z : α} (hj : j < B.length) (hne : i ≠ j) :
    B[j] ∈ B.set i z := by
  refine mem_of_getElem? (i := j) ?_
  rw [getElem?_set_ne hne, getElem?_eq_getElem hj]

/-- One member of a list may be replaced when something still stands for it. -/
private theorem matches_set {B : List α} {i : Nat} {z x : α} (hi : i < B.length)
    (hx : x ∈ B.set i z) (h : Rel key text fold loose B[i] x) :
    Matches key text fold loose (B.set i z) B := by
  refine ⟨length_set .., fun b hb => ?_⟩
  obtain ⟨k, hk, rfl⟩ := mem_iff_getElem.mp hb
  by_cases hki : i = k
  · subst hki
    exact ⟨x, hx, h⟩
  · exact ⟨B[k], mem_set_of_ne hk hki, Rel.refl _⟩

/-- Replacing a member by one with another key changes the multiset. -/
private theorem not_same_set [DecidableEq κ] {B : List α} {i : Nat} {z : α} (hi : i < B.length)
    (hz : key z ≠ key B[i]) : ¬ Same key text fold loose (B.set i z) B := by
  rintro ⟨A', hperm, hall⟩
  have hcount : ∀ {l l' : List α}, Forall₂ (Either key text fold loose) l l' →
      l.countP (fun x => key x = key B[i]) = l'.countP (fun x => key x = key B[i]) := by
    intro l l' h
    induction h with
    | nil => rfl
    | @cons x y l l' hxy _ ih =>
      have hkey : key x = key y := by
        rcases hxy with h | h
        · exact h.1
        · exact h.1.symm
      rw [countP_cons, countP_cons, ih, hkey]
  have h1 := hcount hall
  rw [hperm.countP_eq, countP_set hi] at h1
  have hpos : 0 < B.countP (fun x => key x = key B[i]) :=
    countP_pos_iff.mpr ⟨B[i], getElem_mem hi, by simp⟩
  simp only [decide_true, if_true, hz, decide_false, Bool.false_eq_true, if_false] at h1
  omega

/-- **Matching behaves like an equivalence at a list exactly when no two of its members
are related and no loose member has a strict one that folds like it and is spelt otherwise.** -/
theorem lawful_iff [DecidableEq κ] {D : α → Prop} {B : List α} (hB : ∀ b ∈ B, D b)
    (htwin : ∀ y, D y → loose y → (∃ x, D x ∧ ¬ loose x ∧ key x = key y) →
      ∃ y', D y' ∧ ¬ loose y' ∧ key y' = key y ∧ text y' = text y)
    (hother : ∀ k, ∃ z, D z ∧ key z ≠ k) :
    Lawful key text fold loose D B ↔
      Distinct key text fold loose B ∧ ∀ b ∈ B, loose b → Spelt key text fold loose D b := by
  refine ⟨fun h => ?_, fun h => lawful_of_distinct htwin h.1 h.2⟩
  have hset : ∀ {i : Nat} {z : α}, D z → ∀ a ∈ B.set i z, D a := by
    intro i z hz a ha
    rcases mem_or_eq_of_mem_set ha with ha | rfl
    · exact hB a ha
    · exact hz
  -- a member that another one stands for can be replaced by anything
  have hdup : ∀ {i j : Nat} (hi : i < B.length) (hj : j < B.length), i ≠ j →
      ¬ Rel key text fold loose B[i] B[j] := by
    intro i j hi hj hne hrel
    obtain ⟨z, hz, hkey⟩ := hother (key B[i])
    exact not_same_set hi hkey
      (h.same _ (hset hz) (matches_set hi (mem_set_of_ne hj hne) hrel))
  have hd : Distinct key text fold loose B := by
    refine pairwise_iff_getElem.mpr fun i j hi hj hlt => ?_
    rintro (hrel | hrel)
    · exact hdup hi hj (by omega) hrel
    · exact hdup hj hi (by omega) hrel
  refine ⟨hd, fun b hb hloose d hdD hstrict hkey hfold => ?_⟩
  obtain ⟨i, hi, rfl⟩ := mem_iff_getElem.mp hb
  have hmem : d ∈ B.set i d :=
    mem_of_getElem? (getElem?_set_self hi)
  have hbd : Rel key text fold loose B[i] d :=
    ⟨hkey.symm, fun _ => hfold.symm, fun hn => absurd hloose hn⟩
  -- `d` in the place of `b` matches, so `d` finds some member of `B` spelt like it
  obtain ⟨x, hx, hdx⟩ := (h.symm _ (hset hdD) (matches_set hi hmem hbd)).2 d hmem
  obtain ⟨k, hk, rfl⟩ := mem_iff_getElem.mp hx
  by_cases hki : k = i
  · subst hki
    exact hdx.2.2 hstrict
  · refine absurd ?_ (hdup hi hk (fun e => hki e.symm))
    exact ⟨hkey.symm.trans hdx.1, fun _ => hfold.symm.trans hdx.fold_eq, fun hn => absurd hloose hn⟩

end Relation

end OneSided

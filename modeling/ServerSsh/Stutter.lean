import Mathlib.Data.List.Destutter
import Mathlib.Data.List.Nodup

/-!
# Suppressing repetitions

Mathlib's `destutter (· ≠ ·)` drops an element that is equal to the one before it.
What is left may still contain an element twice, when another one came in between.
`Grouped` says that this does not happen: equal elements are next to each other.
-/

namespace Stutter

variable {α : Type} {l : List α} {p x : α}

/-- No element comes back after another one. -/
def Grouped (l : List α) : Prop := ∀ a b, [a, b, a].Sublist l → a = b

theorem Grouped.of_cons (h : Grouped (p :: l)) : Grouped l := fun a b hab => h a b (hab.cons p)

/-- Repeating the first element changes nothing. -/
theorem grouped_cons_cons_self : Grouped (p :: p :: l) ↔ Grouped (p :: l) := by
  refine ⟨Grouped.of_cons, ?_⟩
  intro h a b hab
  cases hab with
  | cons _ hab => exact h a b hab
  | cons_cons _ hab =>
      cases hab with
      | cons _ hab => exact h _ b (hab.cons_cons _)
      | cons_cons _ _ => rfl

/-- A first element that does not come again. -/
theorem grouped_cons (hp : p ∉ l) : Grouped (p :: l) ↔ Grouped l := by
  refine ⟨Grouped.of_cons, ?_⟩
  intro h a b hab
  cases hab with
  | cons _ hab => exact h a b hab
  | cons_cons _ hab =>
      exact absurd (hab.subset (List.mem_cons_of_mem _ (List.mem_singleton_self p))) hp

/-- A new first element must not come again behind the next one. -/
theorem grouped_cons_cons (hne : p ≠ x) : Grouped (p :: x :: l) ↔ p ∉ l ∧ Grouped (x :: l) := by
  constructor
  · intro h
    refine ⟨?_, h.of_cons⟩
    intro hp
    exact hne (h p x (((List.singleton_sublist.mpr hp).cons_cons x).cons_cons p))
  · rintro ⟨hp, h⟩
    exact (grouped_cons (List.not_mem_cons_of_ne_of_not_mem hne hp)).mpr h

variable [DecidableEq α]

/-- The first element stays. -/
theorem destutter'_eq_cons (l : List α) : ∀ p : α, ∃ t, l.destutter' (· ≠ ·) p = p :: t := by
  induction l with
  | nil =>
      intro p
      exact ⟨[], rfl⟩
  | cons y l ih =>
      intro p
      by_cases hpy : p ≠ y
      · exact ⟨_, List.destutter'_cons_pos _ hpy⟩
      · rw [List.destutter'_cons_neg _ hpy]
        exact ih p

/-- No element gets lost. -/
theorem mem_destutter' (l : List α) : ∀ p : α,
    x ∈ l.destutter' (· ≠ ·) p ↔ x = p ∨ x ∈ l := by
  induction l with
  | nil =>
      intro p
      simp
  | cons y l ih =>
      intro p
      by_cases hpy : p ≠ y
      · rw [List.destutter'_cons_pos _ hpy, List.mem_cons, ih, List.mem_cons]
      · obtain rfl := not_not.mp hpy
        rw [List.destutter'_cons_neg _ hpy, ih, List.mem_cons]
        exact ⟨fun h => h.imp id Or.inr, fun h => h.elim Or.inl id⟩

/-- What is left has no element twice exactly when equal elements are next to each
other. -/
theorem nodup_destutter'_iff (l : List α) : ∀ p : α,
    (l.destutter' (· ≠ ·) p).Nodup ↔ Grouped (p :: l) := by
  induction l with
  | nil =>
      intro p
      refine iff_of_true (by simp) ?_
      intro a b hab
      exact absurd hab.length_le (by simp)
  | cons x l ih =>
      intro p
      by_cases hpx : p ≠ x
      · rw [List.destutter'_cons_pos _ hpx, List.nodup_cons, ih, mem_destutter', not_or,
          grouped_cons_cons hpx, and_iff_right hpx]
      · obtain rfl := not_not.mp hpx
        rw [List.destutter'_cons_neg _ hpx, ih, grouped_cons_cons_self]

/-- Behind a first element that does not come again. -/
theorem exists_destutter' (hp : p ∉ l) :
    ∃ t, l.destutter' (· ≠ ·) p = p :: t ∧ (∀ x, x ∈ t ↔ x ∈ l) ∧ (t.Nodup ↔ Grouped l) := by
  obtain ⟨t, ht⟩ := destutter'_eq_cons l p
  have hsub : (p :: t).Sublist (p :: l) := ht ▸ l.destutter'_sublist (· ≠ ·) p
  have htl := (List.cons_sublist_cons.mp hsub).subset
  refine ⟨t, ht, ?_, ?_⟩
  · intro x
    refine ⟨fun h => htl h, ?_⟩
    intro h
    have hx : x ∈ p :: t := ht ▸ (mem_destutter' l p).mpr (Or.inr h)
    rcases List.mem_cons.mp hx with rfl | hxt
    · exact absurd h hp
    · exact hxt
  · rw [← grouped_cons hp, ← nodup_destutter'_iff, ht, List.nodup_cons,
      and_iff_right fun h => hp (htl h)]

end Stutter

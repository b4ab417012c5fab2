import Mathlib.Order.Bounds.Basic

/-!
# Counting up to the first success

A loop that counts up and tries each number until an attempt succeeds.  The
attempt is a function to `Option`, and the loop has fuel, since without a
success it does not end.  `firstAfter_eq_some` says what an ended loop has
found, and `exists_firstAfter` that a success is enough for an end.  For a loop that
counts from 0 and keeps only the result these are `first_eq_some` and `exists_first`.
-/

namespace Search

variable {β : Type} {f : Nat → Option β}

/-- The first number after `k` for which the attempt succeeds, and its result. -/
def firstAfter (f : Nat → Option β) : Nat → Nat → Option (Nat × β)
  | 0, _ => none
  | fuel + 1, k =>
      match f (k + 1) with
      | some b => some (k + 1, b)
      | none => firstAfter f fuel (k + 1)

/-- An ended loop has found the least success. -/
theorem firstAfter_eq_some {fuel k j : Nat} {b : β} (h : firstAfter f fuel k = some (j, b)) :
    f j = some b ∧ IsLeast {i | k < i ∧ (f i).isSome} j := by
  induction fuel generalizing k with
  | zero => cases h
  | succ fuel ih =>
      rw [firstAfter] at h
      split at h
      next b' hb =>
        cases h
        refine ⟨hb, ⟨Nat.lt_succ_self k, by rw [hb]; rfl⟩, ?_⟩
        intro i hi
        exact hi.1
      next hnone =>
        obtain ⟨hj, ⟨hlt, hsome⟩, hleast⟩ := ih h
        refine ⟨hj, ⟨Nat.lt_of_succ_lt hlt, hsome⟩, ?_⟩
        rintro i ⟨hki, hi⟩
        rcases Nat.lt_or_eq_of_le (Nat.succ_le_of_lt hki) with hlt' | rfl
        · exact hleast ⟨hlt', hi⟩
        · rw [hnone] at hi
          cases hi

/-- A success ahead ends the loop. -/
theorem exists_firstAfter {k j : Nat} (hlt : k < j) (hj : (f j).isSome) :
    ∃ fuel r, firstAfter f fuel k = some r := by
  obtain ⟨d, rfl⟩ := Nat.exists_eq_add_of_lt hlt
  induction d generalizing k with
  | zero =>
      obtain ⟨b, hb⟩ := Option.isSome_iff_exists.mp hj
      exact ⟨1, (k + 1, b), by rw [firstAfter, hb]⟩
  | succ d ih =>
      cases hnext : f (k + 1) with
      | some b => exact ⟨1, (k + 1, b), by rw [firstAfter, hnext]⟩
      | none =>
          have hsum : k + (d + 1) + 1 = k + 1 + d + 1 := by omega
          obtain ⟨fuel, r, h⟩ := ih (by omega) (hsum ▸ hj)
          exact ⟨fuel + 1, r, by rw [firstAfter, hnext]; exact h⟩

/-- The first result behind the number 0. -/
def first (f : Nat → Option β) (fuel : Nat) : Option β := (firstAfter f fuel 0).map Prod.snd

theorem first_eq_some {fuel : Nat} {b : β} (h : first f fuel = some b) :
    ∃ j, f j = some b ∧ IsLeast {i | 0 < i ∧ (f i).isSome} j := by
  obtain ⟨⟨j, b'⟩, hloop, rfl⟩ := Option.map_eq_some_iff.mp h
  exact ⟨j, firstAfter_eq_some hloop⟩

theorem exists_first {j : Nat} (hpos : 0 < j) (hj : (f j).isSome) :
    ∃ fuel b, first f fuel = some b := by
  obtain ⟨fuel, r, hloop⟩ := exists_firstAfter hpos hj
  exact ⟨fuel, r.2, by rw [first, hloop]; rfl⟩

/-- Without a success there is no end. -/
theorem first_eq_none (h : ∀ j, 0 < j → f j = none) (fuel : Nat) : first f fuel = none := by
  cases hfirst : first f fuel with
  | none => rfl
  | some b =>
      obtain ⟨j, hb, hleast⟩ := first_eq_some hfirst
      rw [h j hleast.1.1] at hb
      cases hb

end Search

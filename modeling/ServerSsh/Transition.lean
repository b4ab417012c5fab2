import Mathlib.Order.Basic

/-!
# Runs of a labelled transition system

A system is given by a partial step function: `step s a = some s'` when the
action `a` is enabled in `s` and leads to `s'`.  `Reachable step ok s₀` are the
states that runs from `s₀` reach when every step of the run satisfies `ok`, a
condition on the action and on the state before it.  With `Any` for `ok` these
are all the reachable states.

`Reachable.invariant` packages the induction over runs: a property that holds at
the start and that every allowed step keeps holds in every reachable state.
`Reachable.iff_of_exact` is the converse for a condition that is exact.
`run` executes a list of actions, so that a concrete schedule can be computed,
and `reachable_of_run` makes a computed schedule a run.

`Ends step Q s` says that every run from `s` stops, and where.  It follows from a
measure that every step decreases (`Ends.of_measure`).
-/

namespace Transition

variable {σ α : Type}

/-- The states that runs from `s₀` reach by steps that satisfy `ok`. -/
inductive Reachable (step : σ → α → Option σ) (ok : σ → α → Prop) (s₀ : σ) : σ → Prop where
  | refl : Reachable step ok s₀ s₀
  | tail {s s' : σ} {a : α} :
      Reachable step ok s₀ s → ok s a → step s a = some s' → Reachable step ok s₀ s'

/-- Every step is allowed. -/
def Any : σ → α → Prop := fun _ _ => True

instance (s : σ) (a : α) : Decidable (Any s a) := .isTrue trivial

variable {step : σ → α → Option σ} {ok : σ → α → Prop} {s₀ s s' : σ}

/-- The induction over runs. -/
theorem Reachable.invariant {P : σ → Prop} (h : Reachable step ok s₀ s) (init : P s₀)
    (keep : ∀ {s s' a}, P s → ok s a → step s a = some s' → P s') : P s := by
  induction h with
  | refl => exact init
  | tail _ hok hs ih => exact keep ih hok hs

theorem Reachable.trans {s₁ : σ} (h₁ : Reachable step ok s₀ s₁) (h₂ : Reachable step ok s₁ s) :
    Reachable step ok s₀ s := by
  induction h₂ with
  | refl => exact h₁
  | tail _ hok hs ih => exact ih.tail hok hs

theorem Reachable.any (h : Reachable step ok s₀ s) : Reachable step Any s₀ s := by
  induction h with
  | refl => exact .refl
  | tail _ _ hs ih => exact ih.tail trivial hs

/-- A property that is lost for good, and that only the steps outside `ok` lose,
holds in exactly the states that runs of steps inside `ok` reach. -/
theorem Reachable.iff_of_exact {P : σ → Prop} (h : Reachable step Any s₀ s)
    (safe : ∀ {s}, Reachable step ok s₀ s → P s)
    (lost : ∀ {s s' a}, Reachable step Any s₀ s → step s a = some s' → P s' → P s)
    (exact : ∀ {s s' a}, Reachable step ok s₀ s → step s a = some s' → P s' → ok s a) :
    P s ↔ Reachable step ok s₀ s := by
  refine ⟨fun hp => ?_, safe⟩
  induction h with
  | refl => exact .refl
  | tail hr _ hs ih =>
      have hok := ih (lost hr hs hp)
      exact hok.tail (exact hok hs hp) hs

/-! ## Runs that stop -/

/-- Every run from `s` stops, and the states in which no action is enabled satisfy
`Q`. -/
inductive Ends (step : σ → α → Option σ) (Q : σ → Prop) : σ → Prop where
  | intro {s : σ} :
      ((∀ a, step s a = none) → Q s) → (∀ a s', step s a = some s' → Ends step Q s') →
      Ends step Q s

/-- A measure that every step decreases stops the runs. -/
theorem Ends.of_measure {I Q : σ → Prop} (μ : σ → Nat)
    (keep : ∀ {s s' a}, I s → step s a = some s' → I s' ∧ μ s' < μ s)
    (last : ∀ {s}, I s → (∀ a, step s a = none) → Q s) (h : I s) : Ends step Q s := by
  induction hn : μ s using Nat.strongRecOn generalizing s with
  | ind n ih =>
      refine .intro (last h) fun a s' hs => ?_
      obtain ⟨h', hlt⟩ := keep h hs
      exact ih (μ s') (hn ▸ hlt) h' rfl

/-- There is a state in which a run stops. -/
theorem Ends.exists_reachable {Q : σ → Prop} (h : Ends step Q s) (hr : Reachable step Any s₀ s) :
    ∃ s', Reachable step Any s₀ s' ∧ Q s' := by
  induction h with
  | @intro s last _ ih =>
      by_cases hstop : ∀ a, step s a = none
      · exact ⟨s, hr, last hstop⟩
      · obtain ⟨a, ha⟩ := not_forall.mp hstop
        obtain ⟨s', hs⟩ := Option.ne_none_iff_exists'.mp ha
        exact ih a s' hs (hr.tail trivial hs)

/-! ## Computed schedules -/

/-- Execute a list of actions.  The result is `none` when one of them is not
allowed or not enabled. -/
def run (step : σ → α → Option σ) (ok : σ → α → Prop) [∀ s a, Decidable (ok s a)] :
    σ → List α → Option σ
  | s, [] => some s
  | s, a :: as => if ok s a then (step s a).bind (run step ok · as) else none

variable [∀ s a, Decidable (ok s a)]

theorem run_reachable : ∀ {s : σ} (as : List α), Reachable step ok s₀ s →
    run step ok s as = some s' → Reachable step ok s₀ s'
  | s, [], hs, h => by
      cases h
      exact hs
  | s, a :: as, hs, h => by
      rw [run] at h
      split at h
      next hok =>
        obtain ⟨s₁, ha, h⟩ := Option.bind_eq_some_iff.mp h
        exact run_reachable as (hs.tail hok ha) h
      next => cases h

/-- A schedule that executes is a run. -/
theorem reachable_of_run {as : List α} (h : run step ok s₀ as = some s) :
    Reachable step ok s₀ s :=
  run_reachable as .refl h

/-! ## Numbered parts

A state that numbers its processes or calls as they begin has a list that grows at
its end. -/

section Numbered

variable {β : Type} {l : List β} {x y : β} {k : Nat}

theorem getElem?_append_of_some (h : l[k]? = some y) : (l ++ [x])[k]? = some y := by
  rw [List.getElem?_append_left (List.getElem?_eq_some_iff.mp h).1, h]

/-- A part is an old one or the new one. -/
theorem getElem?_concat_cases (h : (l ++ [x])[k]? = some y) :
    l[k]? = some y ∨ k = l.length ∧ y = x := by
  rw [List.getElem?_append] at h
  split at h
  next => exact Or.inl h
  next hge =>
    obtain ⟨hk, hx⟩ := List.getElem?_eq_some_iff.mp h
    rw [List.length_singleton] at hk
    exact Or.inr ⟨by omega, by simpa using hx.symm⟩

end Numbered

end Transition

import Mathlib.GroupTheory.OrderOfElement

/-!
# Key exchange by powers

Two sides publish powers `g ^ a` and `g ^ b` of one element of a monoid and share
`g ^ (a * b)`.  When a power of `g` is 1, few exponents have to be tried to find one
that serves as well as `a`, and it gives the shared element from the other public
element (`pow_eq_of_pow_eq`).  When the public elements are replaced by an element
of which a power is 1, the shared element is one of the few powers of it
(`pow_mem_powers`).
-/

namespace KeyExchange

variable {M : Type} [Monoid M] {g h : M} {n : Nat}

/-- An exponent that is tried out before `n`. -/
def findExponent [DecidableEq M] (g h : M) (n : Nat) : Option Nat :=
  (List.range n).find? fun x => g ^ x = h

/-- The powers of an element with exponents below `n`. -/
def powers (h : M) (n : Nat) : List M := (List.range n).map fun x => h ^ x

/-- The powers of an element of which a power is 1. -/
theorem pow_mem_powers (hn : 0 < n) (h1 : h ^ n = 1) (x : Nat) : h ^ x ∈ powers h n :=
  List.mem_map.mpr
    ⟨x % n, List.mem_range.mpr (Nat.mod_lt x hn), (pow_eq_pow_mod x h1).symm⟩

/-- Some exponent is found for every public element. -/
theorem exists_findExponent [DecidableEq M] (hn : 0 < n) (h1 : g ^ n = 1) (a : Nat) :
    ∃ x < n, findExponent g (g ^ a) n = some x ∧ g ^ x = g ^ a := by
  obtain ⟨y, hy, hya⟩ := List.mem_map.mp (pow_mem_powers hn h1 a)
  cases hx : findExponent g (g ^ a) n with
  | none =>
      have hnone := List.find?_eq_none.mp hx y hy
      exact absurd (decide_eq_true hya) hnone
  | some x =>
      have hlt := List.mem_range.mp (List.mem_of_find?_eq_some hx)
      exact ⟨x, hlt, rfl, of_decide_eq_true (List.find?_some hx :)⟩

/-- Whoever has an exponent for the one public element has the shared element. -/
theorem pow_eq_of_pow_eq {x a : Nat} (hx : g ^ x = g ^ a) (b : Nat) :
    (g ^ b) ^ x = (g ^ b) ^ a := by
  rw [pow_right_comm, hx, pow_right_comm]

end KeyExchange

import ServerSsh.Headers
import Mathlib.Data.Nat.ModEq
import Mathlib.Tactic.Ring

/-!
# Modular powers on machine words

`speedDegreeWithMod` is `Speed_degree_with_mod`, the same text in
`server/src/encrypting.c` and `client/src/encrypting.c`: a recursion on the
exponent with wrapping 64-bit products.  `speedProducts` lists the exact
products of a call before they wrap.

`speedDegreeWithMod_spec` says that the word computation is exact for every
modulus `p` for which `(p - 1) * (p - 1)` and `(p - 1) * g` fit in 64 bits: the
result is `g ^ x % p` and no product wraps.
-/

namespace ServerSsh

open Libc

/-- `a % p` on `size_t`. -/
def sizeMod (a p : UInt64) : Except Fault UInt64 :=
  if p = 0 then .error .divByZero else .ok (a % p)

/-! ## The two descents of the exponent -/

theorem toNat_pred {x : UInt64} (hx : x ≠ 0) : (x - 1).toNat + 1 = x.toNat := by
  have hne : x.toNat ≠ 0 := fun h => hx (UInt64.toNat_inj.mp h)
  have hpos : 1 ≤ x := UInt64.le_iff_toNat_le.mpr (Nat.pos_of_ne_zero hne)
  rw [UInt64.toNat_sub_of_le _ _ hpos, UInt64.toNat_one]
  omega

theorem toNat_half (x : UInt64) : (x / 2).toNat = x.toNat / 2 := UInt64.toNat_div ..

theorem toNat_of_even {x : UInt64} (h : ¬ x % 2 ≠ 0) :
    x.toNat = (x / 2).toNat + (x / 2).toNat := by
  have h1 : (x % 2).toNat = 0 := by rw [not_not.mp h]; rfl
  have h2 : x.toNat % 2 = 0 := by rwa [UInt64.toNat_mod] at h1
  rw [toNat_half]
  omega

theorem pred_toNat_lt {x : UInt64} (hx : x ≠ 0) : (x - 1).toNat < x.toNat := by
  have := toNat_pred hx
  omega

theorem half_toNat_lt {x : UInt64} (hx : x ≠ 0) : (x / 2).toNat < x.toNat := by
  have hne : x.toNat ≠ 0 := fun h => hx (UInt64.toNat_inj.mp h)
  rw [toNat_half]
  omega

/-! ## The function -/

/-- `Speed_degree_with_mod`. -/
def speedDegreeWithMod (g x p : UInt64) : Except Fault UInt64 :=
  if x = 0 then .ok 1
  else if x % 2 ≠ 0 then do
    let y ← speedDegreeWithMod g (x - 1) p
    sizeMod (y * g) p
  else do
    let y ← speedDegreeWithMod g (x / 2) p
    sizeMod (y * y) p
termination_by x.toNat
decreasing_by
  · exact pred_toNat_lt ‹_›
  · exact half_toNat_lt ‹_›

/-- The exact product that a call makes of the result of its inner call. -/
def productOf (r : Except Fault UInt64) (f : UInt64 → Nat) : List Nat :=
  match r with
  | .ok y => [f y]
  | .error _ => []

/-- The exact products of all the calls of a modular power. -/
def speedProducts (g x p : UInt64) : List Nat :=
  if x = 0 then []
  else if x % 2 ≠ 0 then
    speedProducts g (x - 1) p
      ++ productOf (speedDegreeWithMod g (x - 1) p) fun y => y.toNat * g.toNat
  else
    speedProducts g (x / 2) p
      ++ productOf (speedDegreeWithMod g (x / 2) p) fun y => y.toNat * y.toNat
termination_by x.toNat
decreasing_by
  · exact pred_toNat_lt ‹_›
  · exact half_toNat_lt ‹_›

/-! ## Exactness -/

/-- What an exact modular power gives: the power, reduced, with no product that
needs more than 64 bits. -/
structure Exact (g x p : UInt64) : Prop where
  result : speedDegreeWithMod g x p = .ok (UInt64.ofNat (g.toNat ^ x.toNat % p.toNat))
  products : ∀ n ∈ speedProducts g x p, n < 2 ^ 64

theorem ofNat_mod_toNat (n : Nat) {p : UInt64} (hp : 0 < p.toNat) :
    (UInt64.ofNat (n % p.toNat)).toNat = n % p.toNat := by
  have h1 := Nat.mod_lt n hp
  have h2 : p.toNat < UInt64.size := p.toNat_lt
  rw [UInt64.toNat_ofNat_of_lt' (h1.trans h2)]

/-- A product of words that does not wrap, reduced. -/
theorem sizeMod_mul {a b p : UInt64} (hp : 0 < p.toNat) (h : a.toNat * b.toNat < 2 ^ 64) :
    sizeMod (a * b) p = .ok (UInt64.ofNat (a.toNat * b.toNat % p.toNat)) := by
  have hp0 : p ≠ 0 := by
    rintro rfl
    simp at hp
  rw [sizeMod, if_neg hp0]
  refine congrArg Except.ok (UInt64.toNat_inj.mp ?_)
  rw [ofNat_mod_toNat _ hp, UInt64.toNat_mod, UInt64.toNat_mul, Nat.mod_eq_of_lt h]

theorem products_lt {l : List Nat} {y : UInt64} {f : UInt64 → Nat} (hl : ∀ n ∈ l, n < 2 ^ 64)
    (hy : f y < 2 ^ 64) : ∀ n ∈ l ++ productOf (.ok y) f, n < 2 ^ 64 := by
  intro n hn
  rcases List.mem_append.mp hn with hn | hn
  · exact hl n hn
  · rw [productOf, List.mem_singleton] at hn
    rwa [hn]

/-- The word computation of a modular power is exact. -/
theorem speedDegreeWithMod_spec {g p : UInt64} (hp : 2 ≤ p.toNat)
    (hsq : (p.toNat - 1) * (p.toNat - 1) < 2 ^ 64) (hg : (p.toNat - 1) * g.toNat < 2 ^ 64)
    (x : UInt64) : Exact g x p := by
  -- The reduced result `y` of an inner call satisfies `y ≤ p - 1`, which bounds both products.
  have hp0 : 0 < p.toNat := by omega
  have hle : ∀ n, n % p.toNat ≤ p.toNat - 1 := fun n => by
    have := Nat.mod_lt n hp0
    omega
  induction x using speedDegreeWithMod.induct with
  | case1 =>
      refine ⟨?_, ?_⟩
      · rw [speedDegreeWithMod, if_pos rfl, UInt64.toNat_zero, pow_zero, Nat.mod_eq_of_lt hp]
        rfl
      · rw [speedProducts, if_pos rfl]
        simp
  | case2 x hx hodd ih =>
      have hy := ofNat_mod_toNat (g.toNat ^ (x - 1).toNat) hp0
      have hprod : (g.toNat ^ (x - 1).toNat % p.toNat) * g.toNat < 2 ^ 64 :=
        lt_of_le_of_lt (Nat.mul_le_mul_right _ (hle _)) hg
      refine ⟨?_, ?_⟩
      · rw [speedDegreeWithMod, if_neg hx, if_pos hodd, ih.result, ok_bind,
          sizeMod_mul hp0 (by rw [hy]; exact hprod), hy, ← toNat_pred hx, pow_succ,
          Nat.mod_mul_mod]
      · rw [speedProducts, if_neg hx, if_pos hodd, ih.result]
        exact products_lt ih.products (by rw [hy]; exact hprod)
  | case3 x hx heven ih =>
      have hy := ofNat_mod_toNat (g.toNat ^ (x / 2).toNat) hp0
      have hprod : (g.toNat ^ (x / 2).toNat % p.toNat) * (g.toNat ^ (x / 2).toNat % p.toNat)
          < 2 ^ 64 := lt_of_le_of_lt (Nat.mul_le_mul (hle _) (hle _)) hsq
      refine ⟨?_, ?_⟩
      · rw [speedDegreeWithMod, if_neg hx, if_neg heven, ih.result, ok_bind,
          sizeMod_mul hp0 (by rw [hy]; exact hprod), hy, ← Nat.mul_mod, ← pow_add,
          ← toNat_of_even heven]
      · rw [speedProducts, if_neg hx, if_neg heven, ih.result]
        exact products_lt ih.products (by rw [hy]; exact hprod)

/-- For every modulus `p` of at least 2 for which `(p - 1) * (p - 1)` and
`(p - 1) * g` fit in a word, the result is the power modulo `p`, and no product
wraps. -/
theorem modular_power_exact {g p : UInt64} (hp : 2 ≤ p.toNat)
    (hsq : (p.toNat - 1) * (p.toNat - 1) < 2 ^ 64) (hg : (p.toNat - 1) * g.toNat < 2 ^ 64)
    (x : UInt64) :
    (∃ r, speedDegreeWithMod g x p = .ok r ∧ r.toNat = g.toNat ^ x.toNat % p.toNat) ∧
      ∀ n ∈ speedProducts g x p, n < 2 ^ 64 := by
  have h := speedDegreeWithMod_spec hp hsq hg x
  exact ⟨⟨_, h.result, ofNat_mod_toNat _ (by omega)⟩, h.products⟩

/-- The largest modulus, with a base that is not below it. -/
theorem modular_power_exact_limit :
    (∃ r, speedDegreeWithMod 4294967297 3 4294967296 = .ok r ∧ r.toNat = 1) ∧
      ∀ n ∈ speedProducts 4294967297 3 4294967296, n < 2 ^ 64 :=
  modular_power_exact (by decide) (by decide) (by decide) 3

/-- Modulo anything but 0 there is a result. -/
theorem speedDegreeWithMod_ok (g : UInt64) {p : UInt64} (hp : p ≠ 0) (x : UInt64) :
    ∃ y, speedDegreeWithMod g x p = .ok y := by
  have hmod : ∀ a, sizeMod a p = .ok (a % p) := fun a => if_neg hp
  induction x using speedDegreeWithMod.induct with
  | case1 => exact ⟨1, by rw [speedDegreeWithMod, if_pos rfl]⟩
  | case2 x hx hodd ih =>
      obtain ⟨y, hy⟩ := ih
      exact ⟨_, by rw [speedDegreeWithMod, if_neg hx, if_pos hodd, hy, ok_bind, hmod]⟩
  | case3 x hx heven ih =>
      obtain ⟨y, hy⟩ := ih
      exact ⟨_, by rw [speedDegreeWithMod, if_neg hx, if_neg heven, hy, ok_bind, hmod]⟩

/-- Modulo 0 there is a result for the exponent 0 only. -/
theorem speedDegreeWithMod_ok_iff (g x p : UInt64) :
    (∃ y, speedDegreeWithMod g x p = .ok y) ↔ p ≠ 0 ∨ x = 0 := by
  constructor
  · rintro ⟨y, hy⟩
    by_contra hne
    obtain ⟨hp, hx⟩ := not_or.mp hne
    obtain rfl := not_not.mp hp
    have hmod : ∀ a r, sizeMod a 0 ≠ .ok r := by
      intro a r h
      rw [sizeMod, if_pos rfl] at h
      cases h
    rw [speedDegreeWithMod, if_neg hx] at hy
    split at hy
    · obtain ⟨_, -, h⟩ := bind_eq_ok.mp hy
      exact hmod _ _ h
    · obtain ⟨_, -, h⟩ := bind_eq_ok.mp hy
      exact hmod _ _ h
  · rintro (hp | rfl)
    · exact speedDegreeWithMod_ok g hp x
    · exact ⟨1, by rw [speedDegreeWithMod, if_pos rfl]⟩

end ServerSsh

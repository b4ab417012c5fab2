import Mathlib.Data.List.Induction
import ServerSsh.Libc.Decimal

/-!
# Numbers that are cut

A stream may end inside a number.  `atoi` then reads the digits that are there, so each
digit that is missing has divided the number by 10 (`atoi_cut`), and a number of which
nothing is there is read as 0.
-/

namespace Libc

theorem takeWhile_isDigit {ds : Bytes} (hd : ∀ b ∈ ds, isDigit b = true) {rest : Bytes}
    (hr : NoDigit rest) : (ds ++ rest).takeWhile isDigit = ds := by
  rw [List.takeWhile_append_of_pos hd]
  cases rest with
  | nil => simp
  | cons b rest => simp [noDigit_cons.mp hr]

theorem digitsVal_append {ds : Bytes} (hd : ∀ b ∈ ds, isDigit b = true) {rest : Bytes}
    (hr : NoDigit rest) : digitsVal (ds ++ rest) = digitsVal ds := by
  have hnil := takeWhile_isDigit hd noDigit_nil
  rw [List.append_nil] at hnil
  rw [digitsVal, digitsVal, takeWhile_isDigit hd hr, hnil]

theorem digitsVal_concat {ds : Bytes} {b : UInt8} (hd : ∀ b' ∈ ds ++ [b], isDigit b' = true) :
    digitsVal (ds ++ [b]) = 10 * digitsVal ds + (b.toNat - 48) := by
  have hds : ∀ b' ∈ ds, isDigit b' = true := fun b' hb' => hd b' (List.mem_append_left _ hb')
  have hall := takeWhile_isDigit hd noDigit_nil
  have hnil := takeWhile_isDigit hds noDigit_nil
  rw [List.append_nil] at hall hnil
  rw [digitsVal, hall, List.foldl_append, digitsVal, hnil]
  rfl

/-- Each digit that is cut off at the end divides by 10. -/
theorem digitsVal_take {ds : Bytes} (hd : ∀ b ∈ ds, isDigit b = true) (k : Nat) :
    digitsVal (ds.take k) = digitsVal ds / 10 ^ (ds.length - k) := by
  induction ds using List.reverseRecOn with
  | nil => simp [digitsVal]
  | append_singleton ds b ih =>
      have hds : ∀ b' ∈ ds, isDigit b' = true := fun b' hb' => hd b' (List.mem_append_left _ hb')
      have hb : 48 ≤ b.toNat ∧ b.toNat ≤ 57 := by simpa [isDigit] using hd b (by simp)
      rw [List.length_append, List.length_singleton]
      by_cases hk : k ≤ ds.length
      · have hlen : ds.length + 1 - k = ds.length - k + 1 := by omega
        have hdiv : (10 * digitsVal ds + (b.toNat - 48)) / 10 = digitsVal ds := by omega
        rw [List.take_append_of_le_length hk, ih hds, hlen, Nat.pow_succ', digitsVal_concat hd,
          ← Nat.div_div_eq_div_mul, hdiv]
      · have hlen : ds.length + 1 - k = 0 := by omega
        rw [hlen, Nat.pow_zero, Nat.div_one, List.take_of_length_le]
        rw [List.length_append, List.length_singleton]
        omega

/-- Digits are read, up to their end. -/
theorem atoi_digits {ds rest : Bytes} (hd : ∀ b ∈ ds, isDigit b = true) (hne : ds ≠ [])
    (hr : NoDigit rest) (hv : digitsVal ds < 2 ^ 31) : atoi (ds ++ rest) = digitsVal ds := by
  have hval := digitsVal_append hd hr
  cases ds with
  | nil => exact absurd rfl hne
  | cons b ds =>
      have hb := hd b (List.mem_cons_self ..)
      have hb' : 48 ≤ b.toNat ∧ b.toNat ≤ 57 := by simpa [isDigit] using hb
      have hs : isSpace b = false := by simp [isSpace]; omega
      have h45 : b ≠ 45 := by rintro rfl; simp at hb'
      have h43 : b ≠ 43 := by rintro rfl; simp at hb'
      have hmin : min (2 ^ 63 - 1) (digitsVal (b :: ds) : Int) = digitsVal (b :: ds) := by omega
      rw [List.cons_append] at hval ⊢
      rw [atoi, strtol, List.dropWhile_cons_of_neg (by simp [hs])]
      simp only [if_neg h45, if_neg h43, hval, hmin]
      exact Int.bmod_eq_of_le (by omega) (by omega)

/-- What is read of the number `n` when only `k` bytes of its text are there. -/
def cutNumber (n k : Nat) : Nat := n / 10 ^ ((decimal n).length - k)

theorem cutNumber_le (n k : Nat) : cutNumber n k ≤ n := Nat.div_le_self ..

/-- A number that is there is read. -/
theorem cutNumber_of_le {n k : Nat} (h : (decimal n).length ≤ k) : cutNumber n k = n := by
  rw [cutNumber, Nat.sub_eq_zero_of_le h, Nat.pow_zero, Nat.div_one]

/-- Reading a number of which only the first part is there. -/
theorem atoi_cut {n : Nat} (hn : n < 2 ^ 31) {rest t : Bytes} (hr : NoDigit rest)
    (ht : t <+: decimal n ++ rest) : atoi t = cutNumber n t.length := by
  have hd : ∀ b ∈ decimal n, isDigit b = true := fun b hb => isDigit_of_mem_decimal hb
  have hval := digitsVal_decimal n noDigit_nil
  rw [List.append_nil] at hval
  by_cases hle : t.length ≤ (decimal n).length
  · have htake : t = (decimal n).take t.length := by
      rw [← List.take_append_of_le_length hle]
      exact List.prefix_iff_eq_take.mp ht
    have hcut : digitsVal t = cutNumber n t.length := by
      conv_lhs => rw [htake]
      rw [digitsVal_take hd, hval]
      rfl
    by_cases hnil : t = []
    · subst hnil
      rw [← hcut]
      rfl
    · have hdt : ∀ b ∈ t, isDigit b = true := fun b hb => hd b (List.mem_of_mem_take (htake ▸ hb))
      have h := atoi_digits hdt hnil noDigit_nil
        (hcut ▸ (cutNumber_le ..).trans_lt hn)
      rwa [List.append_nil, hcut] at h
  · obtain ⟨u, rfl⟩ := List.prefix_of_prefix_length_le (List.prefix_append _ _) ht (by omega)
    rw [List.prefix_append_right_inj] at ht
    have hu : NoDigit u := by
      cases u with
      | nil => exact noDigit_nil
      | cons b u =>
          obtain ⟨v, rfl⟩ := ht
          exact hr
    rw [cutNumber_of_le (by simp), atoi_decimal hn hu]

end Libc

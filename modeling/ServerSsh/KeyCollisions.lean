import ServerSsh.Encrypting.Keys
import ServerSsh.Words

/-!
# Secrets with the same cipher material

`Make_keys` writes the decimals of its two numbers one after the other, four
times and without a separator, and keeps the first 32 characters as the key and
the first 16 of the other order as the IV.  So the material of two pairs of
secrets is a question about repetitions of words: of `K1K2` and `K1'K2'`, and of
their rotations `K2K1` and `K2'K1'`.

`Alike` is the answer (`sameMaterial_iff`).  The two words and the two rotations
commute, which is the same as writing the same digits for ever, and a word that
is repeated less than 32 characters long is as long as the other.  Pairs that
are alike and different divide their digits differently (`different_secrets_iff`).
-/

namespace ServerSsh

open Libc Words

/-- The decimals of two numbers, one after the other. -/
def secretWord (K1 K2 : UInt64) : Bytes := decimal K1.toNat ++ decimal K2.toNat

/-- `Make_keys` makes the same key and the same IV from both pairs of numbers. -/
def SameMaterial (K1 K2 K1' K2' : UInt64) : Prop :=
  ∃ key IV, makeKeys K1 K2 (Buf.zero _) (Buf.zero _) = .ok (key, IV) ∧
    makeKeys K1' K2' (Buf.zero _) (Buf.zero _) = .ok (key, IV)

/-- Both pairs of numbers write the same digits, from both of their numbers on,
when they are repeated for ever. -/
structure Alike (K1 K2 K1' K2' : UInt64) : Prop where
  key : Words.Commute (secretWord K1 K2) (secretWord K1' K2')
  iv : Words.Commute (secretWord K2 K1) (secretWord K2' K1')
  /-- Four rounds of a word of less than 8 digits do not fill the key. -/
  length : (secretWord K1 K2).length = (secretWord K1' K2').length ∨
    8 ≤ (secretWord K1 K2).length ∧ 8 ≤ (secretWord K1' K2').length

/-- Each number has as many digits as its counterpart. -/
def SameDigits (K1 K2 K1' K2' : UInt64) : Prop :=
  (decimal K1.toNat).length = (decimal K1'.toNat).length ∧
    (decimal K2.toNat).length = (decimal K2'.toNat).length

/-! ## What is compared -/

theorem keyText_eq_times (K1 K2 : UInt64) : keyText K1 K2 = times 4 (secretWord K1 K2) := by
  simp [keyText, secretWord, times, List.append_assoc]

/-- The key and the IV show the first 32 and the first 16 digits. -/
theorem sameMaterial_iff_take (K1 K2 K1' K2' : UInt64) :
    SameMaterial K1 K2 K1' K2' ↔
      (times 4 (secretWord K1 K2)).take 32 = (times 4 (secretWord K1' K2')).take 32 ∧
        (times 4 (secretWord K2 K1)).take 16 = (times 4 (secretWord K2' K1')).take 16 := by
  have hzero : ∀ (k : Nat) (L1 L2 : UInt64), 0 ∉ (keyText L1 L2).take k := by
    intro k L1 L2 h
    exact zero_notMem_keyText L1 L2 (List.mem_of_mem_take h)
  have hkey := Buf.ofBytes_inj (hzero 32 K1 K2) (hzero 32 K1' K2') (take_keyText_fits ..)
    (take_keyText_fits ..)
  have hiv := Buf.ofBytes_inj (hzero 16 K2 K1) (hzero 16 K2' K1') (take_keyText_fits ..)
    (take_keyText_fits ..)
  rw [← keyText_eq_times, ← keyText_eq_times, ← keyText_eq_times, ← keyText_eq_times, ← hkey,
    ← hiv, SameMaterial, makeKeys_zero, makeKeys_zero]
  constructor
  · rintro ⟨key, IV, h, h'⟩
    cases h
    injection h' with h'
    injection h' with hk hv
    exact ⟨hk.symm, hv.symm⟩
  · rintro ⟨hk, hv⟩
    exact ⟨_, _, rfl, congrArg Except.ok (Prod.ext hk.symm hv.symm)⟩

/-! ## Words of secrets -/

/-- A number below the public modulus has between 1 and 8 digits. -/
theorem decimal_length_of_lt {K : UInt64} (h : K < publicKeyP) :
    1 ≤ (decimal K.toNat).length ∧ (decimal K.toNat).length ≤ 8 := by
  refine ⟨List.length_pos_iff.mpr (decimal_ne_nil _), (decimal_length_le_iff (by omega)).mpr ?_⟩
  have hlt : K.toNat < 20999999 := UInt64.lt_iff_toNat_lt.mp h
  omega

theorem length_secretWord (K1 K2 : UInt64) :
    (secretWord K1 K2).length = (decimal K1.toNat).length + (decimal K2.toNat).length := by
  rw [secretWord, List.length_append]

theorem length_secretWord_comm (K1 K2 : UInt64) :
    (secretWord K2 K1).length = (secretWord K1 K2).length := by
  rw [length_secretWord, length_secretWord, Nat.add_comm]

theorem secretWord_ne_nil (K1 K2 : UInt64) : secretWord K1 K2 ≠ [] := by
  intro h
  exact decimal_ne_nil _ (List.append_eq_nil_iff.mp h).1

/-! ## The same material -/

section Material

variable {K1 K2 K1' K2' : UInt64}

/-- The same material comes from pairs that are alike only. -/
theorem SameMaterial.alike (h1 : K1 < publicKeyP) (h2 : K2 < publicKeyP) (h1' : K1' < publicKeyP)
    (h2' : K2' < publicKeyP) (h : SameMaterial K1 K2 K1' K2') : Alike K1 K2 K1' K2' := by
  obtain ⟨hkey, hiv⟩ := (sameMaterial_iff_take ..).mp h
  obtain ⟨hklen, hkey⟩ := take_times_eq_iff.mp hkey
  obtain ⟨-, hiv⟩ := take_times_eq_iff.mp hiv
  rw [length_secretWord_comm K1 K2] at hiv
  have hn : 2 ≤ (secretWord K1 K2).length ∧ (secretWord K1 K2).length ≤ 16 := by
    have := decimal_length_of_lt h1
    have := decimal_length_of_lt h2
    rw [length_secretWord]
    omega
  have hn' : 2 ≤ (secretWord K1' K2').length ∧ (secretWord K1' K2').length ≤ 16 := by
    have := decimal_length_of_lt h1'
    have := decimal_length_of_lt h2'
    rw [length_secretWord]
    omega
  by_cases hlen : (secretWord K1 K2).length = (secretWord K1' K2').length
  · have hlen' : (secretWord K2 K1).length = (secretWord K2' K1').length := by
      rw [length_secretWord_comm, hlen, length_secretWord_comm]
    refine ⟨commute_of_length hlen ?_, commute_of_length hlen' ?_, Or.inl hlen⟩
    · intro i hi
      exact hkey i (by omega)
    · rw [length_secretWord_comm K1 K2]
      intro i hi
      exact hiv i (by omega)
  · have h8 : 8 ≤ (secretWord K1 K2).length ∧ 8 ≤ (secretWord K1' K2').length := by omega
    have hcomm : Words.Commute (secretWord K1 K2) (secretWord K1' K2') := by
      refine commute_of_agree ?_
      intro i hi
      exact hkey i (by omega)
    have heq := hcomm.forever_eq (secretWord_ne_nil _ _) (secretWord_ne_nil _ _)
    -- The two lengths are periods of one sequence, and their difference is at most 8.
    obtain ⟨d, hd, hd8, hper⟩ : ∃ d, 0 < d ∧ d ≤ 8 ∧
        Function.Periodic (forever (secretWord K1 K2)) d := by
      have hp := forever_periodic (secretWord K1 K2)
      have hp' := forever_periodic (secretWord K1' K2')
      rw [← heq] at hp'
      rcases Nat.lt_or_ge (secretWord K1 K2).length (secretWord K1' K2').length with hlt | hge
      · refine ⟨(secretWord K1' K2').length - (secretWord K1 K2).length, by omega, by omega, ?_⟩
        exact periodic_of_add hp (by rwa [Nat.sub_add_cancel hlt.le])
      · refine ⟨(secretWord K1 K2).length - (secretWord K1' K2').length, by omega, by omega, ?_⟩
        exact periodic_of_add hp' (by rwa [Nat.sub_add_cancel hge])
    have hiv' := eq_of_periodic hd (periodic_rotate hper) (periodic_rotate (heq ▸ hper))
      fun i hi => hiv i (by omega)
    exact ⟨hcomm, (commute_iff_forever_eq (secretWord_ne_nil _ _) (secretWord_ne_nil _ _)).mpr hiv',
      Or.inr h8⟩

/-- Pairs that are alike have the same material. -/
theorem Alike.sameMaterial (h : Alike K1 K2 K1' K2') : SameMaterial K1 K2 K1' K2' := by
  have hkey := h.key.forever_eq (secretWord_ne_nil _ _) (secretWord_ne_nil _ _)
  have hiv := h.iv.forever_eq (secretWord_ne_nil _ _) (secretWord_ne_nil _ _)
  refine (sameMaterial_iff_take ..).mpr ⟨take_times_eq_iff.mpr ⟨?_, ?_⟩,
    take_times_eq_iff.mpr ⟨?_, ?_⟩⟩
  · have := h.length
    omega
  · intro i _
    rw [hkey]
  · rw [length_secretWord_comm, length_secretWord_comm K1']
    have := h.length
    omega
  · intro i _
    rw [hiv]

theorem sameMaterial_iff (h1 : K1 < publicKeyP) (h2 : K2 < publicKeyP) (h1' : K1' < publicKeyP)
    (h2' : K2' < publicKeyP) : SameMaterial K1 K2 K1' K2' ↔ Alike K1 K2 K1' K2' :=
  ⟨SameMaterial.alike h1 h2 h1' h2', Alike.sameMaterial⟩

/-- Pairs that are alike and divide their digits in the same way are equal. -/
theorem Alike.eq_of_sameDigits (h : Alike K1 K2 K1' K2') (hd : SameDigits K1 K2 K1' K2') :
    K1 = K1' ∧ K2 = K2' := by
  have hlen : (secretWord K1 K2).length = (secretWord K1' K2').length := by
    rw [length_secretWord, length_secretWord, hd.1, hd.2]
  obtain ⟨hfst, hsnd⟩ := List.append_inj (h.key.eq_of_length hlen) hd.1
  exact ⟨UInt64.toNat_inj.mp (decimal_injective hfst),
    UInt64.toNat_inj.mp (decimal_injective hsnd)⟩

/-- Different pairs of secrets make different material unless they are alike and
divide their digits differently. -/
theorem different_secrets_iff (h1 : K1 < publicKeyP) (h2 : K2 < publicKeyP)
    (h1' : K1' < publicKeyP) (h2' : K2' < publicKeyP) :
    (SameMaterial K1 K2 K1' K2' → K1 = K1' ∧ K2 = K2') ↔
      SameDigits K1 K2 K1' K2' ∨ ¬ Alike K1 K2 K1' K2' := by
  rw [sameMaterial_iff h1 h2 h1' h2']
  constructor
  · intro h
    by_cases ha : Alike K1 K2 K1' K2'
    · obtain ⟨rfl, rfl⟩ := h ha
      exact Or.inl ⟨rfl, rfl⟩
    · exact Or.inr ha
  · rintro (hd | hn) ha
    · exact ha.eq_of_sameDigits hd
    · exact absurd ha hn

end Material

/-- Two pairs with digits in the same places. -/
theorem different_secrets_iff_digits :
    SameDigits 3827876 20912969 3827877 20912969 ∧
      (SameMaterial 3827876 20912969 3827877 20912969 →
        (3827876 : UInt64) = 3827877 ∧ (20912969 : UInt64) = 20912969) := by
  have hdigits : SameDigits 3827876 20912969 3827877 20912969 := by
    unfold SameDigits
    decide
  exact ⟨hdigits, (different_secrets_iff (by decide) (by decide) (by decide) (by decide)).mpr
    (Or.inl hdigits)⟩

/-- The pairs 1, 11 and 11, 1 have the same material. -/
theorem secrets_collide :
    ¬ ∀ K1 K2 K1' K2' : UInt64, K1 < publicKeyP → K2 < publicKeyP → K1' < publicKeyP →
      K2' < publicKeyP → SameMaterial K1 K2 K1' K2' → K1 = K1' ∧ K2 = K2' := by
  intro hclaim
  have halike : Alike 1 11 11 1 := ⟨by decide, by decide, Or.inl (by decide)⟩
  obtain ⟨h, -⟩ := hclaim 1 11 11 1 (by decide) (by decide) (by decide) (by decide)
    halike.sameMaterial
  exact absurd h (by decide)

end ServerSsh

import ServerSsh.Libc.Memory

/-!
# Decimal text

`decimal` is what `printf` writes for a non-negative `%d` or a `%zu`, and `atoi`
reads it back.  `atoi` is the C library's `(int) strtol(s, NULL, 10)`: leading
white space, a sign, the longest run of digits, saturation to the range of
`long` and truncation to 32 bits.

`atoi_decimal` is the round trip: a printed number below `2 ^ 31` is read back
exactly whatever follows it, as long as that does not start with a digit.
-/

namespace Libc

/-- The bytes of an ASCII literal. -/
def ascii (s : String) : Bytes := s.toList.map fun c => UInt8.ofNat c.toNat

/-! ## Printing -/

/-- A non-negative integer in decimal, without leading zeros. -/
def decimal (n : Nat) : Bytes := (Nat.toDigits 10 n).map fun c => UInt8.ofNat c.toNat

/-- The bytes `'0'` to `'9'`. -/
def isDigit (b : UInt8) : Bool := 48 ≤ b.toNat && b.toNat ≤ 57

theorem toNat_ofNat_digit {c : Char} (hc : c.isDigit) :
    (UInt8.ofNat c.toNat).toNat = c.toNat ∧ 48 ≤ c.toNat ∧ c.toNat ≤ 57 := by
  have h : 48 ≤ c.toNat ∧ c.toNat ≤ 57 := by
    simp only [Char.isDigit, Bool.and_eq_true, decide_eq_true_eq, ge_iff_le,
      UInt32.le_iff_toNat_le] at hc
    exact hc
  refine ⟨?_, h⟩
  simp [Nat.mod_eq_of_lt (show c.toNat < 256 by omega)]

theorem isDigit_of_mem_decimal {n : Nat} {b : UInt8} (hb : b ∈ decimal n) : isDigit b = true := by
  obtain ⟨c, hc, rfl⟩ := List.mem_map.mp hb
  obtain ⟨he, h1, h2⟩ := toNat_ofNat_digit (Nat.isDigit_of_mem_toDigits (by omega) (by omega) hc)
  simp [isDigit, he, h1, h2]

/-- A byte that is not a digit does not occur in a printed number. -/
theorem notMem_decimal {b : UInt8} (hb : isDigit b = false) (n : Nat) : b ∉ decimal n := by
  intro h
  rw [isDigit_of_mem_decimal h] at hb
  cases hb

theorem decimal_ne_nil (n : Nat) : decimal n ≠ [] := by
  simp [decimal, Nat.toDigits_ne_nil]

theorem decimal_length_le_iff {n k : Nat} (hk : 0 < k) :
    (decimal n).length ≤ k ↔ n < 10 ^ k := by
  rw [decimal, List.length_map]
  exact Nat.length_toDigits_le_iff (by omega) hk

/-- There is no leading zero. -/
theorem decimal_head_iff {n : Nat} : (decimal n).head? = some 48 ↔ n = 0 := by
  induction n using Nat.strongRecOn with
  | ind n ih =>
      rw [decimal, List.head?_map]
      by_cases hn : n < 10
      · have hdigit : ∀ d < 10, UInt8.ofNat (Nat.digitChar d).toNat = 48 ↔ d = 0 := by decide
        rw [Nat.toDigits_of_lt_base hn]
        simpa using hdigit n hn
      · rw [Nat.toDigits_of_base_le (by omega) (by omega), List.head?_append_of_ne_nil _
          Nat.toDigits_ne_nil, ← List.head?_map, ← decimal, ih _ (by omega)]
        omega

/-! ## Reading -/

/-- The bytes `isspace` accepts in the C locale. -/
def isSpace (b : UInt8) : Bool := b.toNat == 32 || (9 ≤ b.toNat && b.toNat ≤ 13)

/-- The value of the longest run of digits at the start of `s`. -/
def digitsVal (s : Bytes) : Nat :=
  (s.takeWhile isDigit).foldl (fun v b => 10 * v + (b.toNat - 48)) 0

/-- `strtol(s, NULL, 10)` with a 64-bit `long`. -/
def strtol (s : Bytes) : Int :=
  match s.dropWhile isSpace with
  | [] => 0
  | b :: ds =>
      if b = 45 then max (-2 ^ 63) (-(digitsVal ds : Int))
      else if b = 43 then min (2 ^ 63 - 1) (digitsVal ds : Int)
      else min (2 ^ 63 - 1) (digitsVal (b :: ds) : Int)

/-- `atoi`. -/
def atoi (s : Bytes) : Int := (strtol s).bmod (2 ^ 32)

/-- The conversion of an `int` to `size_t`. -/
def sizeOfInt (i : Int) : UInt64 := UInt64.ofNat (i % 2 ^ 64).toNat

/-- The next byte, if any, is not a digit. -/
def NoDigit (rest : Bytes) : Prop := ∀ b ∈ rest.head?, isDigit b = false

@[simp] theorem noDigit_nil : NoDigit [] := by simp [NoDigit]

@[simp] theorem noDigit_cons {b : UInt8} {rest : Bytes} :
    NoDigit (b :: rest) ↔ isDigit b = false := by simp [NoDigit]

theorem noDigit_cut {t : Bytes} (h : NoDigit t) : NoDigit (cut t) := by
  cases t with
  | nil => exact h
  | cons b t =>
      by_cases hb : b = 0
      · simp [cut, hb]
      · simpa [cut, hb] using h

theorem takeWhile_isDigit_decimal (n : Nat) {rest : Bytes} (hr : NoDigit rest) :
    (decimal n ++ rest).takeWhile isDigit = decimal n := by
  rw [List.takeWhile_append_of_pos fun b hb => isDigit_of_mem_decimal hb]
  cases rest with
  | nil => simp
  | cons b rest => simp [noDigit_cons.mp hr]

theorem digitsVal_decimal (n : Nat) {rest : Bytes} (hr : NoDigit rest) :
    digitsVal (decimal n ++ rest) = n := by
  have key : ∀ (l : List Char) (v : Nat), (∀ c ∈ l, c.isDigit) →
      (l.map fun c => UInt8.ofNat c.toNat).foldl (fun v b => 10 * v + (b.toNat - 48)) v
        = Nat.ofDigitChars 10 l v := by
    intro l
    induction l with
    | nil => intro v _; simp
    | cons c l ih =>
        intro v hl
        have hc := (toNat_ofNat_digit (hl c (List.mem_cons_self ..))).1
        rw [List.map_cons, List.foldl_cons, hc, Nat.ofDigitChars_cons]
        exact ih _ fun d hd => hl d (List.mem_cons_of_mem _ hd)
  rw [digitsVal, takeWhile_isDigit_decimal n hr, decimal,
    key _ 0 fun c hc => Nat.isDigit_of_mem_toDigits (by omega) (by omega) hc,
    Nat.ofDigitChars_ten_toDigits]

theorem decimal_injective : Function.Injective decimal := by
  intro n m h
  have hn := digitsVal_decimal n noDigit_nil
  rw [h, digitsVal_decimal m noDigit_nil] at hn
  exact hn.symm

/-- A printed number has no white space and no sign in front. -/
theorem strtol_decimal (n : Nat) {rest : Bytes} (hr : NoDigit rest) :
    strtol (decimal n ++ rest) = min (2 ^ 63 - 1) (n : Int) := by
  have hval := digitsVal_decimal n hr
  cases hd : decimal n with
  | nil => exact absurd hd (decimal_ne_nil n)
  | cons b ds =>
      rw [hd] at hval
      have hb : isDigit b = true := isDigit_of_mem_decimal (hd ▸ List.mem_cons_self ..)
      have hb' : 48 ≤ b.toNat ∧ b.toNat ≤ 57 := by simpa [isDigit] using hb
      have hs : isSpace b = false := by simp [isSpace]; omega
      have h45 : b ≠ 45 := by rintro rfl; simp at hb'
      have h43 : b ≠ 43 := by rintro rfl; simp at hb'
      simp only [List.cons_append] at hval ⊢
      rw [strtol, List.dropWhile_cons_of_neg (by simp [hs])]
      simp only [if_neg h45, if_neg h43, hval]

/-- Reading back a printed number. -/
theorem atoi_decimal {n : Nat} (hn : n < 2 ^ 31) {rest : Bytes} (hr : NoDigit rest) :
    atoi (decimal n ++ rest) = n := by
  have hmin : min (2 ^ 63 - 1) (n : Int) = n := by omega
  rw [atoi, strtol_decimal n hr, hmin]
  exact Int.bmod_eq_of_le (by omega) (by omega)

theorem sizeOfInt_natCast (n : Nat) : sizeOfInt (n : Int) = UInt64.ofNat n := by
  have h : ((n : Int) % 2 ^ 64).toNat = n % 2 ^ 64 := by omega
  rw [sizeOfInt, h]
  exact UInt64.ofNat_mod_size

theorem sizeOfInt_toNat {k : Nat} (h : k < 2 ^ 64) : (sizeOfInt (k : Int)).toNat = k := by
  rw [sizeOfInt_natCast]
  exact UInt64.toNat_ofNat_of_lt' h

/-- A small negative number is huge as a size. -/
theorem sizeOfInt_toNat_of_neg {i : Int} (h : i < 0) (hlow : -2 ^ 31 ≤ i) :
    2 ^ 63 ≤ (sizeOfInt i).toNat := by
  have hmod : (i % 2 ^ 64).toNat = (i + 2 ^ 64).toNat := by omega
  rw [sizeOfInt, hmod, UInt64.toNat_ofNat_of_lt' (show _ < 2 ^ 64 by omega)]
  omega

example : atoi (ascii " -42#") = -42 := by decide
example : atoi (ascii "4294967297") = 1 := by decide

end Libc

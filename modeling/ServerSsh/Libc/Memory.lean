import Mathlib.Algebra.Group.Int.Defs
import Mathlib.Algebra.Group.Nat.Defs
import Mathlib.Data.List.Basic
import Mathlib.Data.List.TakeWhile

/-!
# Byte buffers and C strings

A `char` array of `n` bytes is a `Buf n`: the list of its bytes with the proof
that there are `n` of them.  A C string is what lies before the first zero byte
of an array.  Every access names an offset, and an access outside the array is
the explicit result `Fault.outOfBounds`.  The functions below are the parts of
`string.h` that scan for a terminator and the stores into an array.

`cut` is the mathematical counterpart of a scan, the bytes before the first
zero.  `cstring_eq` reads a scan as a `cut` behind a test for a terminator, so
the later proofs are about `cut` and membership and not about the scan.
-/

namespace Libc

/-- A sequence of bytes. -/
abbrev Bytes := List UInt8

/-- An operation that C leaves undefined. -/
inductive Fault where
  | outOfBounds
  | nullPointer
  | divByZero
deriving DecidableEq, Repr

/-! ## Sequencing -/

section Bind

variable {ε α β : Type}

@[simp] theorem ok_bind (a : α) (f : α → Except ε β) : (Except.ok a >>= f) = f a := rfl

@[simp] theorem error_bind (e : ε) (f : α → Except ε β) :
    ((Except.error e : Except ε α) >>= f) = .error e := rfl

theorem bind_eq_ok {x : Except ε α} {f : α → Except ε β} {b : β} :
    (x >>= f) = .ok b ↔ ∃ a, x = .ok a ∧ f a = .ok b := by
  cases x with
  | error e => simp
  | ok a => simp

theorem map_eq_ok {x : Except ε α} {f : α → β} {b : β} :
    x.map f = .ok b ↔ ∃ a, x = .ok a ∧ f a = b := by
  cases x with
  | error e => simp [Except.map]
  | ok a => simp [Except.map]

end Bind

/-! ## The bytes before the first zero -/

/-- The bytes of a sequence before its first zero byte. -/
def cut (a : Bytes) : Bytes := a.takeWhile (· ≠ 0)

@[simp] theorem cut_nil : cut [] = [] := rfl

theorem cut_cons {b : UInt8} (hb : b ≠ 0) (a : Bytes) : cut (b :: a) = b :: cut a :=
  List.takeWhile_cons_of_pos (by simpa using hb)

@[simp] theorem cut_zero_cons (a : Bytes) : cut (0 :: a) = [] := rfl

theorem zero_notMem_cut (a : Bytes) : 0 ∉ cut a := by
  intro h
  have := List.mem_takeWhile_imp h
  simp at this

theorem cut_eq_self {a : Bytes} (ha : 0 ∉ a) : cut a = a := by
  rw [cut, List.takeWhile_eq_self_iff]
  intro b hb
  have : b ≠ 0 := fun h => ha (h ▸ hb)
  simpa using this

theorem cut_eq_self_iff {a : Bytes} : cut a = a ↔ 0 ∉ a :=
  ⟨fun h => h ▸ zero_notMem_cut a, cut_eq_self⟩

theorem cut_eq_nil_iff {s : Bytes} : cut s = [] ↔ s = [] ∨ s.head? = some 0 := by
  cases s with
  | nil => simp
  | cons b s =>
      by_cases hb : b = 0
      · simp [hb]
      · simp [cut_cons hb, hb]

theorem cut_append {s : Bytes} (hs : 0 ∉ s) (t : Bytes) : cut (s ++ t) = s ++ cut t := by
  have hpos : ∀ b ∈ s, decide (b ≠ 0) = true := by
    intro b hb
    have : b ≠ 0 := fun h => hs (h ▸ hb)
    simpa using this
  rw [cut, List.takeWhile_append_of_pos hpos, cut]

theorem cut_append_zero {s : Bytes} (rest : Bytes) (hs : 0 ∉ s) : cut (s ++ 0 :: rest) = s := by
  rw [cut_append hs]
  simp [cut]

theorem cut_append_of_mem {a : Bytes} (rest : Bytes) (ha : 0 ∈ a) : cut (a ++ rest) = cut a := by
  obtain ⟨s, t, rfl, hs⟩ := List.eq_append_cons_of_mem ha
  rw [List.append_assoc, List.cons_append, cut_append_zero _ hs, cut_append_zero _ hs]

/-- Zeros after a sequence do not change its cut. -/
theorem cut_append_zeros (a : Bytes) (k : Nat) : cut (a ++ List.replicate k 0) = cut a := by
  by_cases ha : 0 ∈ a
  · exact cut_append_of_mem _ ha
  · cases k with
    | zero => simp
    | succ k => rw [List.replicate_succ, cut_append_zero _ ha, cut_eq_self ha]

theorem cut_isPrefix (a : Bytes) : cut a <+: a := List.takeWhile_prefix _

theorem cut_length_le (a : Bytes) : (cut a).length ≤ a.length := (cut_isPrefix a).length_le

@[simp] theorem cut_cut (a : Bytes) : cut (cut a) = cut a := cut_eq_self (zero_notMem_cut a)

/-- A cut that is as long as the sequence is the sequence. -/
theorem zero_notMem_of_cut_length {a : Bytes} (h : (cut a).length = a.length) : 0 ∉ a := by
  have := (cut_isPrefix a).eq_of_length h
  exact this ▸ zero_notMem_cut a

theorem cut_length_lt {a : Bytes} (ha : 0 ∈ a) : (cut a).length < a.length := by
  rcases Nat.lt_or_eq_of_le (cut_length_le a) with h | h
  · exact h
  · exact absurd ha (zero_notMem_of_cut_length h)

/-- A sequence starts with its cut. -/
theorem take_cut_length (a : Bytes) : a.take (cut a).length = cut a :=
  (List.prefix_iff_eq_take.mp (cut_isPrefix a)).symm

/-- The byte after the cut is the zero it was made at. -/
theorem take_succ_cut_length {a : Bytes} (ha : 0 ∈ a) :
    a.take ((cut a).length + 1) = cut a ++ [0] := by
  obtain ⟨s, t, rfl, hs⟩ := List.eq_append_cons_of_mem ha
  rw [cut_append_zero _ hs, List.take_length_add_append]
  rfl

/-- A sequence with a zero goes on with it behind the cut. -/
theorem exists_eq_cut_append {a : Bytes} (ha : 0 ∈ a) : ∃ rest, a = cut a ++ 0 :: rest := by
  obtain ⟨s, t, rfl, hs⟩ := List.eq_append_cons_of_mem ha
  exact ⟨t, by rw [cut_append_zero t hs]⟩

/-! ## Scanning for a terminator -/

/-- The C string at the start of an array, found by scanning for its
terminator. -/
def cstring : Bytes → Except Fault Bytes
  | [] => .error .outOfBounds
  | b :: bs => if b = 0 then .ok [] else (cstring bs).map (b :: ·)

/-- `strlen`. -/
def strlen (a : Bytes) : Except Fault Nat := (cstring a).map List.length

/-- A scan finds the cut when there is a terminator, and otherwise runs off the
array. -/
theorem cstring_eq (a : Bytes) :
    cstring a = if 0 ∈ a then .ok (cut a) else .error .outOfBounds := by
  induction a with
  | nil => rfl
  | cons b a ih =>
      by_cases hb : b = 0
      · simp [cstring, cut, hb]
      · have hb' : (0 : UInt8) ≠ b := fun h => hb h.symm
        by_cases ha : 0 ∈ a
        · simp [cstring, cut, hb, ih, ha, Except.map]
        · simp [cstring, hb, hb', ih, ha, Except.map]

theorem strlen_eq (a : Bytes) :
    strlen a = if 0 ∈ a then .ok (cut a).length else .error .outOfBounds := by
  rw [strlen, cstring_eq]
  split <;> rfl

/-! ## Searching for a byte -/

/-- `strchr` from position `i` on, where the list is what is left of the array:
the position of the first `c`, or `none` when the terminator comes first. -/
def strchrFrom (c : UInt8) : Nat → Bytes → Except Fault (Option Nat)
  | _, [] => .error .outOfBounds
  | i, b :: bs =>
      if b = c then .ok (some i)
      else if b = 0 then .ok none
      else strchrFrom c (i + 1) bs

/-- `strchr(a + off, c)`, as an offset into `a`. -/
def strchr (a : Bytes) (off : Nat) (c : UInt8) : Except Fault (Option Nat) :=
  strchrFrom c off (a.drop off)

theorem strchrFrom_append {c : UInt8} {s : Bytes} (rest : Bytes) (hs : 0 ∉ s) (hc : c ∉ s) :
    ∀ i, strchrFrom c i (s ++ rest) = strchrFrom c (i + s.length) rest := by
  induction s with
  | nil => intro i; rfl
  | cons b s ih =>
      intro i
      have hb : b ≠ 0 := fun h => hs (by simp [h])
      have hbc : b ≠ c := fun h => hc (by simp [h])
      have hs' : 0 ∉ s := fun h => hs (List.mem_cons_of_mem _ h)
      have hc' : c ∉ s := fun h => hc (List.mem_cons_of_mem _ h)
      rw [List.cons_append, strchrFrom, if_neg hbc, if_neg hb, ih hs' hc', List.length_cons]
      congr 1
      omega

/-- The search finds the first `c` of the C string. -/
theorem strchrFrom_eq {c : UInt8} (hc : c ≠ 0) {a : Bytes} (h0 : 0 ∈ a) :
    ∀ i, strchrFrom c i a = .ok (((cut a).findIdx? (· = c)).map (i + ·)) := by
  induction a with
  | nil => cases h0
  | cons b a ih =>
      intro i
      by_cases hbc : b = c
      · subst hbc
        rw [strchrFrom, if_pos rfl, cut_cons hc]
        simp [List.findIdx?_cons]
      · by_cases hb : b = 0
        · subst hb
          rw [strchrFrom, if_neg hbc, if_pos rfl]
          rfl
        · have ha : 0 ∈ a := (List.mem_cons.mp h0).resolve_left fun h => hb h.symm
          rw [strchrFrom, if_neg hbc, if_neg hb, ih ha, cut_cons hb]
          have hshift : ∀ o : Option Nat, o.map (i + 1 + ·) = (o.map (· + 1)).map (i + ·) := by
            intro o
            cases o with
            | none => rfl
            | some k => exact congrArg some (Nat.add_right_comm i 1 k)
          rw [List.findIdx?_cons, if_neg (by simpa using hbc), hshift]

/-! ## Arrays -/

/-- A `char` array of `n` bytes. -/
structure Buf (n : Nat) where
  /-- Its contents. -/
  bytes : Bytes
  /-- There are `n` of them. -/
  size : bytes.length = n
deriving DecidableEq

namespace Buf

variable {n : Nat}

theorem ext {a b : Buf n} (h : a.bytes = b.bytes) : a = b := by
  cases a
  cases b
  cases h
  rfl

/-- The array that holds `s` and zeros after it. -/
def ofBytes (s : Bytes) (h : s.length ≤ n) : Buf n :=
  ⟨s ++ List.replicate (n - s.length) 0, by simp; omega⟩

/-- The zeroed array: `calloc`, `memset` with 0, or an `= {0}` initialiser. -/
def zero (n : Nat) : Buf n := ofBytes [] (Nat.zero_le n)

/-- Store `data` from offset `off` on. -/
def write (b : Buf n) (off : Nat) (data : Bytes) : Except Fault (Buf n) :=
  if h : off + data.length ≤ n then
    .ok ⟨b.bytes.take off ++ (data ++ b.bytes.drop (off + data.length)), by
      simp [b.size]; omega⟩
  else .error .outOfBounds

/-- `b[i] = v`. -/
def set (b : Buf n) (i : Nat) (v : UInt8) : Except Fault (Buf n) :=
  if i < n then .ok ⟨b.bytes.set i v, by simp [b.size]⟩ else .error .outOfBounds

/-- `b[i]`. -/
def get (b : Buf n) (i : Nat) : Except Fault UInt8 :=
  match b.bytes[i]? with
  | some v => .ok v
  | none => .error .outOfBounds

/-- Read the first `len` bytes. -/
def load (b : Buf n) (len : Nat) : Except Fault Bytes :=
  if len ≤ n then .ok (b.bytes.take len) else .error .outOfBounds

/-- `strlen(b)`. -/
def strlen (b : Buf n) : Except Fault Nat := Libc.strlen b.bytes

/-- `strchr(b + off, c)`. -/
def strchr (b : Buf n) (off : Nat) (c : UInt8) : Except Fault (Option Nat) :=
  Libc.strchr b.bytes off c

/-- The C string at `b + off`. -/
def cstring (b : Buf n) (off : Nat) : Except Fault Bytes := Libc.cstring (b.bytes.drop off)

/-- `sprintf(b, ..)` when the formatted output is `text`. -/
def sprintf (b : Buf n) (text : Bytes) : Except Fault (Buf n) := b.write 0 (text ++ [0])

/-- `strcat(dst, src)`. -/
def strcat {m : Nat} (dst : Buf n) (src : Buf m) : Except Fault (Buf n) := do
  let k ← dst.strlen
  let s ← src.cstring 0
  dst.write k (s ++ [0])

/-- The loop `for (i = k; i < n; i++) b[i] = 0`. -/
def clearFrom (b : Buf n) (k : Nat) : Buf n :=
  ⟨b.bytes.take k ++ List.replicate (n - k) 0, by simp [b.size]; omega⟩

/-- `strlen` of an array with a terminator. -/
theorem strlen_of_mem {b : Buf n} (h : 0 ∈ b.bytes) : b.strlen = .ok (cut b.bytes).length := by
  rw [strlen, strlen_eq, if_pos h]

/-- `strlen` of an array without a terminator. -/
theorem strlen_of_notMem {b : Buf n} (h : 0 ∉ b.bytes) : b.strlen = .error .outOfBounds := by
  rw [strlen, strlen_eq, if_neg h]

theorem cstring_of_mem {b : Buf n} {off : Nat} (h : 0 ∈ b.bytes.drop off) :
    b.cstring off = .ok (cut (b.bytes.drop off)) := by
  rw [cstring, cstring_eq, if_pos h]

theorem cstring_zero_eq_ok {b : Buf n} {s : Bytes} :
    b.cstring 0 = .ok s ↔ 0 ∈ b.bytes ∧ cut b.bytes = s := by
  rw [cstring, List.drop_zero, cstring_eq]
  split <;> simp [*]

/-- Reading up to the terminator gives the C string. -/
theorem load_cut (b : Buf n) : b.load (cut b.bytes).length = .ok (cut b.bytes) := by
  rw [load, if_pos ((cut_length_le b.bytes).trans b.size.le), take_cut_length]

/-! ### Zero-filled arrays -/

theorem zero_mem_ofBytes {s : Bytes} (h : s.length ≤ n) :
    0 ∈ (ofBytes s h).bytes ↔ 0 ∈ s ∨ s.length < n := by
  simp only [ofBytes, List.mem_append, List.mem_replicate, ne_eq, and_true]
  constructor
  · rintro (hs | hk)
    · exact Or.inl hs
    · exact Or.inr (by omega)
  · rintro (hs | hk)
    · exact Or.inl hs
    · exact Or.inr (by omega)

theorem cut_ofBytes {s : Bytes} (h : s.length ≤ n) : cut (ofBytes s h).bytes = cut s :=
  cut_append_zeros s _

theorem load_ofBytes {s : Bytes} (h : s.length ≤ n) : (ofBytes s h).load s.length = .ok s := by
  rw [load, if_pos h, ofBytes, List.take_left]

/-- What an array holds, for strings. -/
theorem ofBytes_inj {s t : Bytes} (hs : 0 ∉ s) (ht : 0 ∉ t) (hsn : s.length ≤ n)
    (htn : t.length ≤ n) : ofBytes s hsn = ofBytes t htn ↔ s = t := by
  constructor
  · intro h
    have hcut := congrArg (fun b : Buf n => cut b.bytes) h
    simp only [cut_ofBytes] at hcut
    rwa [cut_eq_self hs, cut_eq_self ht] at hcut
  · rintro rfl
    rfl

/-- `strlen` of a zero-filled array stays inside when its contents have a zero
or leave room for one. -/
theorem strlen_ofBytes {s : Bytes} (h : s.length ≤ n) :
    (ofBytes s h).strlen
      = if 0 ∈ s ∨ s.length < n then .ok (cut s).length else .error .outOfBounds := by
  rw [strlen, strlen_eq, cut_ofBytes]
  simp only [zero_mem_ofBytes]

/-- Storing right after the contents of a zero-filled array extends them. -/
theorem write_ofBytes {s : Bytes} (h : s.length ≤ n) (data : Bytes) :
    (ofBytes s h).write s.length data
      = if hd : (s ++ data).length ≤ n then .ok (ofBytes (s ++ data) hd)
        else .error .outOfBounds := by
  by_cases hd : s.length + data.length ≤ n
  · have hd' : (s ++ data).length ≤ n := by simpa using hd
    rw [write, dif_pos hd, dif_pos hd']
    refine congrArg Except.ok (ext ?_)
    simp only [ofBytes, List.take_left, List.drop_append, List.drop_replicate, List.append_assoc,
      List.length_append]
    rw [List.drop_eq_nil_of_le (by omega), List.nil_append]
    congr 3
    omega
  · have hd' : ¬ (s ++ data).length ≤ n := by simpa using hd
    rw [write, dif_neg hd, dif_neg hd']

theorem write_zero (data : Bytes) :
    (zero n).write 0 data
      = if hd : data.length ≤ n then .ok (ofBytes data hd) else .error .outOfBounds :=
  write_ofBytes (Nat.zero_le n) data

theorem take_ofBytes {s : Bytes} (h : s.length ≤ n) {k : Nat} (hk : k ≤ n) :
    (ofBytes s h).bytes.take k = s.take k ++ List.replicate (k - (s.take k).length) 0 := by
  simp only [ofBytes, List.take_append, List.take_replicate, List.length_take]
  congr 2
  omega

theorem ofBytes_append_zero {s : Bytes} (h : (s ++ [0]).length ≤ n) :
    ofBytes (s ++ [0]) h = ofBytes s ((List.prefix_append s [0]).length_le.trans h) := by
  have hlen : s.length + 1 ≤ n := by simpa using h
  refine ext ?_
  simp only [ofBytes, List.append_assoc, List.length_append, List.length_singleton,
    List.singleton_append, ← List.replicate_succ]
  congr 2
  omega

/-- Storing a string with its terminator right after the contents. -/
theorem write_string_ofBytes {s t : Bytes} (h : s.length ≤ n) (ht : (s ++ t).length < n) :
    (ofBytes s h).write s.length (t ++ [0]) = .ok (ofBytes (s ++ t) ht.le) := by
  have hd : (s ++ (t ++ [0])).length ≤ n := by simp at ht ⊢; omega
  rw [write_ofBytes h, dif_pos hd]
  refine congrArg Except.ok (ext ?_)
  rw [← ofBytes_append_zero (s := s ++ t) (by simpa [Nat.add_assoc] using hd)]
  simp only [ofBytes, List.append_assoc]

theorem sprintf_zero {text : Bytes} (h : text.length < n) :
    (zero n).sprintf text = .ok (ofBytes text h.le) :=
  write_string_ofBytes (Nat.zero_le n) h

theorem cstring_ofBytes {s : Bytes} (hs : 0 ∉ s) (h : s.length < n) :
    (ofBytes s h.le).cstring 0 = .ok s := by
  rw [cstring_zero_eq_ok, zero_mem_ofBytes, cut_ofBytes]
  exact ⟨Or.inr h, cut_eq_self hs⟩

/-- A string without its terminator, as it is sent. -/
theorem strlen_load_ofBytes {s : Bytes} (hs : 0 ∉ s) (h : s.length < n) :
    (ofBytes s h.le).strlen = .ok s.length ∧ (ofBytes s h.le).load s.length = .ok s := by
  have hload := load_cut (ofBytes s h.le)
  rw [cut_ofBytes, cut_eq_self hs] at hload
  rw [strlen_ofBytes, if_pos (Or.inr h), cut_eq_self hs]
  exact ⟨rfl, hload⟩

theorem strcat_ofBytes {m : Nat} {s t : Bytes} (hs : 0 ∉ s) (h : s.length ≤ n) (ht : 0 ∉ t)
    (hm : t.length < m) (hst : (s ++ t).length < n) :
    (ofBytes s h).strcat (ofBytes t hm.le) = .ok (ofBytes (s ++ t) hst.le) := by
  have hlt : s.length < n := by simp at hst; omega
  rw [strcat, strlen_ofBytes h, if_pos (Or.inr hlt), ok_bind, cut_eq_self hs,
    cstring_ofBytes ht hm, ok_bind, write_string_ofBytes h hst]

theorem strcat_zero {m : Nat} {t : Bytes} (ht : 0 ∉ t) (hm : t.length < m) (hn : t.length < n) :
    (zero n).strcat (ofBytes t hm.le) = .ok (ofBytes t hn.le) :=
  strcat_ofBytes (s := []) (by simp) (Nat.zero_le n) ht hm hn

theorem clearFrom_ofBytes {s : Bytes} (h : s.length ≤ n) (k : Nat) :
    (ofBytes s h).clearFrom k
      = ofBytes (s.take k) (by rw [List.length_take]; omega) := by
  refine ext ?_
  simp only [clearFrom, ofBytes, List.take_append, List.take_replicate, List.append_assoc,
    List.replicate_append_replicate, List.length_take]
  congr 2
  omega

end Buf

end Libc

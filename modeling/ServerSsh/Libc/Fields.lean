import ServerSsh.Libc.Decimal

/-!
# Numbers between delimiters

A parser that walks over an array with `strchr` and reads numbers with `atoi`.
A position is the offset of the delimiter found last, and the next field starts
right after it.  `b.From i t` says that the array holds `t` from offset `i` on,
so a proof follows the text field by field: a step of the walk leaves the rest
of the text, and `atoi` reads the number at the start of it.
-/

namespace Libc

/-- A use of a pointer that `strchr` returned. -/
def deref : Option Nat → Except Fault Nat
  | some i => .ok i
  | none => .error .nullPointer

theorem zero_mem_zeros (k : Nat) : (0 : UInt8) ∈ List.replicate (k + 1) 0 :=
  List.mem_replicate.mpr ⟨k.succ_ne_zero, rfl⟩

namespace Buf

variable {n : Nat}

/-- The position of the next `c` after the position `place`, where the pointer
is used. -/
def placeAfter (b : Buf n) (place : Nat) (c : UInt8) : Except Fault Nat := do
  let p ← b.strchr (place + 1) c
  deref p

/-- `atoi(b + place + 1)`, converted to `size_t`. -/
def sizeAfter (b : Buf n) (place : Nat) : Except Fault UInt64 := do
  let s ← b.cstring (place + 1)
  pure (sizeOfInt (atoi s))

/-- `b[i] = 0` for an `int` index. -/
def terminate (b : Buf n) (i : Int) : Except Fault (Buf n) :=
  if i < 0 then .error .outOfBounds else b.set i.toNat 0

/-- The array holds `t` from offset `i` on. -/
def From (b : Buf n) (i : Nat) (t : Bytes) : Prop := b.bytes.drop i = t

theorem From.skip {b : Buf n} {i : Nat} {s t : Bytes} (h : b.From i (s ++ t)) :
    b.From (i + s.length) t := by
  rw [From, ← List.drop_drop, h, List.drop_left]

/-- Behind a text and one more byte. -/
theorem From.skip_cons {b : Buf n} {i : Nat} {s t : Bytes} {c : UInt8}
    (h : b.From i (s ++ c :: t)) : b.From (i + s.length + 1) t :=
  From.skip (s := [c]) h.skip

theorem from_ofBytes {s : Bytes} (h : s.length ≤ n) (i : Nat) :
    (ofBytes s h).From i (s.drop i ++ List.replicate (n - s.length - (i - s.length)) 0) := by
  rw [From, ofBytes, List.drop_append, List.drop_replicate]

/-- The zeros after a text that leaves room for them. -/
theorem exists_zeros {s : Bytes} (h : s.length < n) {i : Nat} (hi : i < n) :
    ∃ k, (ofBytes s h.le).From i (s.drop i ++ List.replicate (k + 1) 0) := by
  obtain ⟨k, hk⟩ : ∃ k, n - s.length - (i - s.length) = k + 1 :=
    ⟨n - s.length - (i - s.length) - 1, by omega⟩
  exact ⟨k, hk ▸ from_ofBytes h.le i⟩

/-- The walk stops at the next delimiter. -/
theorem placeAfter_eq {b : Buf n} {place : Nat} {c : UInt8} {s t : Bytes} (h0 : 0 ∉ s)
    (hc : c ∉ s) (hb : b.From (place + 1) (s ++ c :: t)) :
    b.placeAfter place c = .ok (place + 1 + s.length) ∧
      b.From (place + 1 + s.length + 1) t := by
  constructor
  · rw [placeAfter, strchr, Libc.strchr, hb, strchrFrom_append _ h0 hc, strchrFrom, if_pos rfl]
    rfl
  · exact hb.skip_cons

/-- Without a delimiter before the terminator the walk uses a null pointer. -/
theorem placeAfter_of_notMem {b : Buf n} {place : Nat} {c : UInt8} {s : Bytes} (hc : c ≠ 0)
    (h0 : 0 ∈ s) (hs : c ∉ cut s) (hb : b.From (place + 1) s) :
    b.placeAfter place c = .error .nullPointer := by
  have hnone : (cut s).findIdx? (· = c) = none := by
    rw [List.findIdx?_eq_none_iff]
    intro x hx
    have : x ≠ c := fun h => hs (h ▸ hx)
    simpa using this
  rw [placeAfter, strchr, Libc.strchr, hb, strchrFrom_eq hc h0, hnone]
  rfl

/-- The walk goes to the first delimiter before the terminator and leaves the
rest of the string. -/
theorem placeAfter_of_cut {b : Buf n} {place : Nat} {c : UInt8} {s u v : Bytes} (h0 : 0 ∈ s)
    (hu : c ∉ u) (hcut : cut s = u ++ c :: v) (hb : b.From (place + 1) s) :
    ∃ next t, b.placeAfter place c = .ok next ∧ b.From (next + 1) t ∧ 0 ∈ t ∧ cut t = v := by
  obtain ⟨rest, hrest⟩ := exists_eq_cut_append h0
  have hzero := zero_notMem_cut s
  rw [hcut, List.mem_append, List.mem_cons, not_or, not_or] at hzero
  rw [hrest, hcut, List.append_assoc, List.cons_append] at hb
  obtain ⟨hp, hb⟩ := placeAfter_eq hzero.1 hu hb
  exact ⟨_, _, hp, hb, List.mem_append_right _ (List.mem_cons_self ..),
    cut_append_zero rest hzero.2.2⟩

/-- Where the walk has gone. -/
theorem cut_of_placeAfter {b : Buf n} {place next : Nat} {c : UInt8} {s : Bytes} (hc : c ≠ 0)
    (h0 : 0 ∈ s) (hb : b.From (place + 1) s) (h : b.placeAfter place c = .ok next) :
    ∃ u t, cut s = u ++ c :: cut t ∧ c ∉ u ∧ 0 ∈ t ∧ b.From (next + 1) t := by
  have hs : c ∈ cut s := by
    by_contra hs
    rw [placeAfter_of_notMem hc h0 hs hb] at h
    cases h
  obtain ⟨u, v, hcut, hu⟩ := List.eq_append_cons_of_mem hs
  obtain ⟨next', t, hp, hb', ht, rfl⟩ := placeAfter_of_cut h0 hu hcut hb
  rw [hp] at h
  cases h
  exact ⟨u, t, hcut, hu, ht, hb'⟩

/-- A delimiter before the terminator is found, and the rest of the string has
one delimiter less. -/
theorem placeAfter_of_mem {b : Buf n} {place : Nat} {c : UInt8} {s : Bytes} (h0 : 0 ∈ s)
    (hs : c ∈ cut s) (hb : b.From (place + 1) s) :
    ∃ next t, b.placeAfter place c = .ok next ∧ b.From (next + 1) t ∧ 0 ∈ t ∧
      (cut s).count c = (cut t).count c + 1 := by
  obtain ⟨u, v, hcut, hu⟩ := List.eq_append_cons_of_mem hs
  obtain ⟨next, t, hp, hb, ht, rfl⟩ := placeAfter_of_cut h0 hu hcut hb
  refine ⟨next, t, hp, hb, ht, ?_⟩
  rw [hcut, List.count_append, List.count_eq_zero.mpr hu, List.count_cons_self, Nat.zero_add]

/-- The text after a delimiter is converted up to the terminator, whatever it
is. -/
theorem sizeAfter_of_cut {b : Buf n} {place : Nat} {t : Bytes} (h0 : 0 ∈ t)
    (hb : b.From (place + 1) t) : b.sizeAfter place = .ok (sizeOfInt (atoi (cut t))) := by
  rw [sizeAfter, cstring, hb, cstring_eq, if_pos h0]
  rfl

/-- The number after a delimiter is read exactly. -/
theorem sizeAfter_eq {b : Buf n} {place k : Nat} {t : Bytes} (hk : k < 2 ^ 31) (ht : NoDigit t)
    (h0 : 0 ∈ t) (hb : b.From (place + 1) (decimal k ++ t)) :
    b.sizeAfter place = .ok (UInt64.ofNat k) := by
  have hk0 : (0 : UInt8) ∉ decimal k := notMem_decimal rfl k
  have hnd : NoDigit (cut t) := noDigit_cut ht
  rw [sizeAfter_of_cut (List.mem_append_right _ h0) hb, cut_append hk0, atoi_decimal hk hnd,
    sizeOfInt_natCast]

/-- A terminator after the contents of a zero-filled array changes nothing. -/
theorem terminate_ofBytes {s : Bytes} (h : s.length < n) :
    (ofBytes s h.le).terminate s.length = .ok (ofBytes s h.le) := by
  have hneg : ¬ (s.length : Int) < 0 := by omega
  rw [terminate, if_neg hneg, Int.toNat_natCast, set, if_pos h]
  refine congrArg Except.ok (ext ?_)
  obtain ⟨k, hk⟩ : ∃ k, n - s.length = k + 1 := ⟨n - s.length - 1, by omega⟩
  change (s ++ List.replicate (n - s.length) 0).set s.length 0 = _
  rw [hk, List.replicate_succ, List.set_append_right _ _ (Nat.le_refl _), Nat.sub_self,
    List.set_cons_zero]
  change _ = s ++ List.replicate (n - s.length) 0
  rw [hk, List.replicate_succ]

/-- There is no room for a terminator after the contents of a full array. -/
theorem terminate_full (b : Buf n) : b.terminate n = .error .outOfBounds := by
  have hneg : ¬ (n : Int) < 0 := by omega
  rw [terminate, if_neg hneg, Int.toNat_natCast, set, if_neg (Nat.lt_irrefl n)]

end Buf

end Libc

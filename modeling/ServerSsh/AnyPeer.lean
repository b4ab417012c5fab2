import ServerSsh.KeyAgreement

/-!
# The handshake with an arbitrary peer

Both programs hand whatever `read` or `recvfrom` returned to a chain of
searches, conversions and divisions, and test none of the results.  The errors
of `Preparing_numeral_keys` are the explicit results of the two functions here,
and a peer can reach each of them: a message without the delimiters is a null
pointer that is used, a message that fills the buffer and a failed read store
the terminator outside, and a greeting whose modulus reads as 0 divides by it.

`IsGreeting` and `IsAnswer` are the data that the functions compute keys from
(`handshake_survives_iff`).
-/

namespace ServerSsh

open Libc

/-- `Preparing_numeral_keys` of the server. -/
def Server.preparingNumeralKeys (mode : Mode) (bfd : Connection) (rand1 rand2 : UInt32)
    (a : Arrival) : Except Fault Server.Prepared := do
  let g ← Server.greet mode bfd rand1 rand2
  Server.readAnswer mode bfd g a

/-- The string after the first character of a greeting has a `':'` and three
`'#'` behind it, and the number between the first of them is `P`. -/
def HasFields (s : Bytes) (P : UInt64) : Prop :=
  ∃ head fields, s = head ++ 58 :: fields ∧ 58 ∉ head ∧ 3 ≤ fields.count 35 ∧
    P = sizeOfInt (atoi fields)

/-- Data that the client takes as a greeting when its exponents are `b1` and
`b2`.  A modulus 0 does no harm to the exponent 0. -/
def IsGreeting (b1 b2 : UInt64) (data : Bytes) : Prop :=
  data.length < maxCommandLenght ∧
    ∃ P, HasFields (cut (data.drop 1)) P ∧ (P ≠ 0 ∨ b1 = 0 ∧ b2 = 0)

/-! ## The parser of the client -/

/-- A greeting with its delimiters is parsed. -/
theorem Client.parseGreeting_of_fields {b : MessageBuf} {s : Bytes} {P : UInt64} (h0 : 0 ∈ s)
    (hb : b.From 1 s) (h : HasFields (cut s) P) :
    ∃ g, parseGreeting b = .ok g ∧ g.P = P := by
  obtain ⟨head, fields, hcut, hhead, hcount, rfl⟩ := h
  obtain ⟨placeP, t, hp, hb, ht, rfl⟩ := Buf.placeAfter_of_cut h0 hhead hcut hb
  have hP := Buf.sizeAfter_of_cut ht hb
  have hmem : ∀ {k : Nat} {u : Bytes}, k + 1 ≤ (cut u).count 35 → 35 ∈ cut u := fun hk =>
    List.count_pos_iff.mp (Nat.lt_of_lt_of_le (Nat.succ_pos _) hk)
  obtain ⟨placeG, u, hpG, hb, hu, hcount'⟩ := Buf.placeAfter_of_mem ht (hmem hcount) hb
  have hG := Buf.sizeAfter_of_cut hu hb
  rw [hcount'] at hcount
  have hcount := Nat.le_of_succ_le_succ hcount
  obtain ⟨placeA1, v, hp1, hb, hv, hcount'⟩ := Buf.placeAfter_of_mem hu (hmem hcount) hb
  have h1 := Buf.sizeAfter_of_cut hv hb
  rw [hcount'] at hcount
  have hcount := Nat.le_of_succ_le_succ hcount
  obtain ⟨placeA2, w, hp2, hb, hw, -⟩ := Buf.placeAfter_of_mem hv (hmem hcount) hb
  have h2 := Buf.sizeAfter_of_cut hw hb
  simp only [parseGreeting, hp, hpG, hp1, hp2, hP, hG, h1, h2, ok_bind]
  exact ⟨_, rfl, rfl⟩

/-- The parser gets through on no other data. -/
theorem Client.fields_of_parseGreeting {b : MessageBuf} {s : Bytes} {g : Greeting} (h0 : 0 ∈ s)
    (hb : b.From 1 s) (h : parseGreeting b = .ok g) : HasFields (cut s) g.P := by
  have hcount : ∀ {u v : Bytes} {t : Bytes}, cut t = u ++ 35 :: cut v →
      (cut v).count 35 + 1 ≤ (cut t).count 35 := by
    intro u v t ht
    rw [ht, List.count_append, List.count_cons_self]
    exact Nat.le_add_left _ _
  obtain ⟨placeP, hp, h⟩ := bind_eq_ok.mp h
  obtain ⟨placeG, hpG, h⟩ := bind_eq_ok.mp h
  obtain ⟨placeA1, hp1, h⟩ := bind_eq_ok.mp h
  obtain ⟨placeA2, hp2, h⟩ := bind_eq_ok.mp h
  obtain ⟨G, hG, h⟩ := bind_eq_ok.mp h
  obtain ⟨P, hP, h⟩ := bind_eq_ok.mp h
  obtain ⟨A1, h1, h⟩ := bind_eq_ok.mp h
  obtain ⟨A2, h2, h⟩ := bind_eq_ok.mp h
  cases h
  obtain ⟨head, t, hcut, hhead, ht, hb⟩ := Buf.cut_of_placeAfter (by decide) h0 hb hp
  rw [Buf.sizeAfter_of_cut ht hb] at hP
  obtain ⟨_, u, hcut1, -, hu, hb⟩ := Buf.cut_of_placeAfter (by decide) ht hb hpG
  obtain ⟨_, v, hcut2, -, hv, hb⟩ := Buf.cut_of_placeAfter (by decide) hu hb hp1
  obtain ⟨_, w, hcut3, -, hw, hb⟩ := Buf.cut_of_placeAfter (by decide) hv hb hp2
  have hc1 := hcount hcut1
  have hc2 := hcount hcut2
  have hc3 := hcount hcut3
  exact ⟨head, cut t, hcut, hhead, by omega, (Except.ok.inj hP).symm⟩

/-! ## The two functions -/

/-- The server computes keys from exactly the data that `IsAnswer` allows. -/
theorem Server.preparingNumeralKeys_ok_iff (mode : Mode) (bfd : Connection)
    (rand1 rand2 : UInt32) (a : Arrival) :
    (∃ k, preparingNumeralKeys mode bfd rand1 rand2 a = .ok k) ↔
      ∃ p, a = some p ∧ IsAnswer p.data := by
  rw [preparingNumeralKeys, greet_eq, ok_bind]
  cases a with
  | none =>
      rw [readAnswer, terminate_arrival_error (fun p hp => by cases hp)]
      exact iff_of_false (by rintro ⟨k, hk⟩; cases hk) (by rintro ⟨p, hp, -⟩; cases hp)
  | some p =>
      rw [readAnswer_ok_iff]
      constructor
      · intro h
        exact ⟨p, rfl, h⟩
      · rintro ⟨q, hq, h⟩
        exact Option.some.inj hq ▸ h

/-- The client computes keys from exactly the data that `IsGreeting` allows. -/
theorem Client.preparingNumeralKeys_ok_iff (mode : Mode) (bfd : Connection)
    (rand1 rand2 : UInt32) (a : Arrival) :
    (∃ k, preparingNumeralKeys mode bfd rand1 rand2 a = .ok k) ↔
      ∃ p, a = some p ∧ IsGreeting (exponent rand1) (exponent rand2) p.data := by
  by_cases hfit : ∃ p, a = some p ∧ p.data.length < maxCommandLenght
  · obtain ⟨p, rfl, hlt⟩ := hfit
    obtain ⟨k, hb⟩ := Buf.exists_zeros hlt (i := 1) (by decide)
    have h0 : 0 ∈ p.data.drop 1 ++ List.replicate (k + 1) 0 :=
      List.mem_append_right _ (zero_mem_zeros k)
    have hcut := cut_append_zeros (p.data.drop 1) (k + 1)
    rw [preparingNumeralKeys, terminate_arrival rfl hlt, ok_bind]
    constructor
    · rintro ⟨_, h⟩
      obtain ⟨g, hg, h⟩ := bind_eq_ok.mp h
      obtain ⟨B1, hB1, h⟩ := bind_eq_ok.mp h
      obtain ⟨B2, hB2, h⟩ := bind_eq_ok.mp h
      have hfields := fields_of_parseGreeting h0 hb hg
      rw [hcut] at hfields
      have h1 := (speedDegreeWithMod_ok_iff ..).mp ⟨B1, hB1⟩
      have h2 := (speedDegreeWithMod_ok_iff ..).mp ⟨B2, hB2⟩
      exact ⟨p, rfl, hlt, g.P, hfields, or_and_left.mpr ⟨h1, h2⟩⟩
    · rintro ⟨q, hq, -, P, hfields, hP⟩
      cases Option.some.inj hq
      rw [← hcut] at hfields
      obtain ⟨g, hg, rfl⟩ := parseGreeting_of_fields h0 hb hfields
      obtain ⟨h1, h2⟩ := or_and_left.mp hP
      obtain ⟨B1, hB1⟩ := (speedDegreeWithMod_ok_iff g.G _ _).mpr h1
      obtain ⟨B2, hB2⟩ := (speedDegreeWithMod_ok_iff g.G _ _).mpr h2
      obtain ⟨K1, hK1⟩ := (speedDegreeWithMod_ok_iff g.A1 _ _).mpr h1
      obtain ⟨K2, hK2⟩ := (speedDegreeWithMod_ok_iff g.A2 _ _).mpr h2
      simp only [hg, hB1, hB2, hK1, hK2, sendText_answer, ok_bind]
      exact ⟨_, rfl⟩
  · have hterm := terminate_arrival_error fun p hp hlt => hfit ⟨p, hp, hlt⟩
    rw [preparingNumeralKeys, hterm]
    refine iff_of_false (by rintro ⟨k, hk⟩; cases hk) ?_
    rintro ⟨p, hp, hlt, -⟩
    exact hfit ⟨p, hp, hlt⟩

/-! ## Any peer -/

/-- The handshake computes keys, without an access outside a buffer, a use of a
null pointer or a division by zero, from exactly the greetings and the answers
that have the delimiters, leave room for a terminator and have a modulus. -/
theorem handshake_survives_iff (mode : Mode) (bfd : Connection) (rand1 rand2 : UInt32)
    (a : Arrival) :
    ((∃ k, Client.preparingNumeralKeys mode bfd rand1 rand2 a = .ok k) ↔
      ∃ p, a = some p ∧ IsGreeting (exponent rand1) (exponent rand2) p.data) ∧
    ((∃ k, Server.preparingNumeralKeys mode bfd rand1 rand2 a = .ok k) ↔
      ∃ p, a = some p ∧ IsAnswer p.data) :=
  ⟨Client.preparingNumeralKeys_ok_iff .., Server.preparingNumeralKeys_ok_iff ..⟩

/-- A peer that closes the connection ends both programs on a null pointer. -/
theorem handshake_empty_message :
    ¬ ∀ (mode : Mode) (bfd : Connection) (rand1 rand2 : UInt32) (a : Arrival),
      (∃ k, Client.preparingNumeralKeys mode bfd rand1 rand2 a = .ok k) ∧
        ∃ k, Server.preparingNumeralKeys mode bfd rand1 rand2 a = .ok k := by
  intro hclaim
  obtain ⟨-, hserver⟩ := hclaim .tcp sampleBfd 1804289383 846930886
    (some ⟨[], ⟨0, 0, 0⟩, Nat.zero_le _⟩)
  obtain ⟨p, hp, -, hcount⟩ := (Server.preparingNumeralKeys_ok_iff ..).mp hserver
  cases hp
  exact absurd hcount (by decide)

end ServerSsh

import ServerSsh.AnyPeer
import ServerSsh.Libc.CutNumbers

/-!
# Texts that are cut

In TCP mode a read may end anywhere in a text of the handshake.  What matters is
whether it reaches the last delimiter.  In front of it (`greetingStart`,
`answerStart`) the parser runs into a null pointer.  Behind it all numbers are there
but the last one, and of that one the parser reads what is there, or more when other
data follows.
-/

namespace ServerSsh

open Libc

/-- A prefix ends in the first part or behind the byte after it. -/
theorem prefix_append_cons {s t u : Bytes} {c : UInt8} (h : u <+: s ++ c :: t) :
    u <+: s ∧ u.length ≤ s.length ∨ ∃ v, u = s ++ c :: v ∧ v <+: t := by
  by_cases hle : u.length ≤ s.length
  · exact Or.inl ⟨List.prefix_of_prefix_length_le h (List.prefix_append ..) hle, hle⟩
  · obtain ⟨v, rfl⟩ := List.prefix_of_prefix_length_le (List.prefix_append ..) h (by omega)
    rw [List.prefix_append_right_inj] at h
    cases v with
    | nil => simp at hle
    | cons b v =>
        rw [List.cons_prefix_cons] at h
        exact Or.inr ⟨v, h.1 ▸ rfl, h.2⟩

/-! ## The greeting -/

/-- A greeting up to its last delimiter. -/
def greetingStart (P G A1 : UInt64) : Bytes :=
  ascii "@You are not alone!:" ++ (decimal P.toNat ++ ascii "#" ++ (decimal G.toNat ++ ascii "#"
    ++ decimal A1.toNat))

theorem greetingText_eq (P G A1 A2 : UInt64) :
    greetingText P G A1 A2 = greetingStart P G A1 ++ 35 :: (decimal A2.toNat ++ ascii "\n") := by
  simp [greetingText, greetingStart, ascii]

theorem greetingStart_append (P G A1 : UInt64) (t : Bytes) :
    greetingStart P G A1 ++ 35 :: t = [64] ++ (ascii "You are not alone!" ++
      58 :: (decimal P.toNat ++ 35 :: (decimal G.toNat ++
        35 :: (decimal A1.toNat ++ 35 :: t)))) := by
  simp [greetingStart, ascii]

theorem greetingStart_count (P G A1 : UInt64) : (greetingStart P G A1).count 35 = 2 := by
  have h : ∀ k, (decimal k).count 35 = 0 := fun k => List.count_eq_zero.mpr (notMem_decimal rfl k)
  simp [greetingStart, ascii, h]

/-- A text that reaches the last number. -/
theorem Client.parseGreeting_start {b : MessageBuf} {P G A1 : UInt64} {t : Bytes}
    (hP : P.toNat < 2 ^ 31) (hG : G.toNat < 2 ^ 31) (h1 : A1.toNat < 2 ^ 31) (ht : 0 ∈ t)
    (hb : b.From 0 (greetingStart P G A1 ++ 35 :: t)) :
    parseGreeting b = .ok ⟨P, G, A1, sizeOfInt (atoi (cut t))⟩ := by
  rw [greetingStart_append] at hb
  obtain ⟨hp, hb⟩ := Buf.placeAfter_eq (by decide) (by decide) (hb.skip (s := [64]))
  obtain ⟨hnP, hpG, hb⟩ := field_eq hP rfl (by simp [ht]) hb
  obtain ⟨hnG, hp1, hb⟩ := field_eq hG rfl (by simp [ht]) hb
  obtain ⟨hn1, hp2, hb⟩ := field_eq h1 rfl ht hb
  have hn2 := Buf.sizeAfter_of_cut ht hb
  rw [parseGreeting]
  simp only [hp, hpG, hp1, hp2, hnP, hnG, hn1, hn2, ok_bind, UInt64.ofNat_toNat]
  rfl

/-- What the client makes of it. -/
theorem Client.preparingNumeralKeys_start (mode : Mode) (bfd : Connection) (s1 s2 : UInt32)
    {p : Packet} {A1 A2 : UInt64} {t : Bytes} (h1 : A1.toNat < 2 ^ 31) (h2 : A2.toNat < 2 ^ 31)
    (hp : p.data = greetingStart publicKeyP publicKeyG A1 ++ 35 :: t)
    (hlt : p.data.length < maxCommandLenght) (ht : sizeOfInt (atoi (cut t)) = A2) :
    ∃ c, preparingNumeralKeys mode bfd s1 s2 (some p) = .ok c ∧
      c.call.data = answerText (power publicKeyG (exponent s1)) (power publicKeyG (exponent s2)) ∧
      c.K1 = power A1 (exponent s1) ∧ c.K2 = power A2 (exponent s2) := by
  have hG : publicKeyG.toNat < 2 ^ 31 := by decide
  obtain ⟨k, hb⟩ := Buf.exists_zeros hlt (i := 0) (by decide)
  have h0 : 0 ∈ t ++ List.replicate (k + 1) 0 := List.mem_append_right _ (zero_mem_zeros k)
  have htext : p.data ++ List.replicate (k + 1) 0
      = greetingStart publicKeyP publicKeyG A1 ++ 35 :: (t ++ List.replicate (k + 1) 0) := by
    rw [hp, List.append_assoc, List.cons_append]
  rw [List.drop_zero, htext] at hb
  have hparse := parseGreeting_start (P := publicKeyP) (by decide) hG h1 h0 hb
  rw [cut_append_zeros, ht] at hparse
  rw [preparingNumeralKeys, terminate_arrival rfl hlt, ok_bind]
  dsimp only
  rw [hparse, ok_bind]
  simp only [speedDegreeWithMod_eq_power hG, speedDegreeWithMod_eq_power h1,
    speedDegreeWithMod_eq_power h2, sendText_answer, ok_bind]
  exact ⟨_, rfl, Output.data_of .., rfl, rfl⟩

/-- A text that ends in front of the last delimiter. -/
theorem Client.preparingNumeralKeys_short (mode : Mode) (bfd : Connection) (s1 s2 : UInt32)
    {a : Arrival} {P G A1 : UInt64} (h : Arrival.data a <+: greetingStart P G A1) :
    ∃ f, preparingNumeralKeys mode bfd s1 s2 a = .error f := by
  cases hr : preparingNumeralKeys mode bfd s1 s2 a with
  | error f => exact ⟨f, rfl⟩
  | ok c =>
      obtain ⟨p, rfl, -, M, ⟨head, fields, hcut, -, hcount, -⟩, -⟩ :=
        (preparingNumeralKeys_ok_iff ..).mp ⟨c, hr⟩
      have hsub : fields.Sublist (greetingStart P G A1) := by
        have hfields : fields.Sublist (cut (p.data.drop 1)) := by
          rw [hcut]
          exact (List.sublist_cons_self ..).trans (List.sublist_append_right ..)
        exact hfields.trans ((cut_isPrefix _).sublist.trans
          ((List.drop_sublist ..).trans h.sublist))
      have hle := hsub.count_le 35
      rw [greetingStart_count] at hle
      omega

/-! ## The answer -/

/-- An answer up to its last delimiter. -/
def answerStart (B1 : UInt64) : Bytes := ascii "@Secret info:" ++ decimal B1.toNat

theorem answerText_eq (B1 B2 : UInt64) :
    answerText B1 B2 = answerStart B1 ++ 58 :: decimal B2.toNat := by
  simp [answerText, answerStart, ascii]

theorem answerStart_append (B1 : UInt64) (t : Bytes) :
    answerStart B1 ++ 58 :: t = [64] ++ (ascii "Secret info" ++
      58 :: (decimal B1.toNat ++ 58 :: t)) := by
  simp [answerStart, ascii]

theorem answerStart_count (B1 : UInt64) : (answerStart B1).count 58 = 1 := by
  have h : (decimal B1.toNat).count 58 = 0 := List.count_eq_zero.mpr (notMem_decimal rfl _)
  simp [answerStart, ascii, h]

/-- Data that reaches the last number. -/
theorem Server.parseAnswer_start {b : MessageBuf} {B1 : UInt64} {t : Bytes}
    (h1 : B1.toNat < 2 ^ 31) (ht : 0 ∈ t) (hb : b.From 0 (answerStart B1 ++ 58 :: t)) :
    parseAnswer b = .ok (B1, sizeOfInt (atoi (cut t))) := by
  rw [answerStart_append] at hb
  obtain ⟨hp, hb⟩ := Buf.placeAfter_eq (by decide) (by decide) (hb.skip (s := [64]))
  obtain ⟨hn1, hp1, hb⟩ := field_eq h1 rfl ht hb
  have hn2 := Buf.sizeAfter_of_cut ht hb
  rw [parseAnswer]
  simp only [hp, hp1, hn1, hn2, ok_bind, UInt64.ofNat_toNat]
  rfl

/-- What the server makes of it. -/
theorem Server.readAnswer_start (mode : Mode) (bfd : Connection) (g : Greeted) {p : Packet}
    {B1 : UInt64} {t : Bytes} (h1 : B1.toNat < 2 ^ 31) (hp : p.data = answerStart B1 ++ 58 :: t)
    (hlt : p.data.length < maxCommandLenght) :
    ∃ keys, readAnswer mode bfd g (some p) = .ok keys ∧ keys.K1 = power B1 g.a1 ∧
      speedDegreeWithMod (sizeOfInt (atoi (cut t))) g.a2 publicKeyP = .ok keys.K2 := by
  obtain ⟨k, hb⟩ := Buf.exists_zeros hlt (i := 0) (by decide)
  have h0 : 0 ∈ t ++ List.replicate (k + 1) 0 := List.mem_append_right _ (zero_mem_zeros k)
  have htext : p.data ++ List.replicate (k + 1) 0
      = answerStart B1 ++ 58 :: (t ++ List.replicate (k + 1) 0) := by
    rw [hp, List.append_assoc, List.cons_append]
  rw [List.drop_zero, htext] at hb
  have hparse := parseAnswer_start h1 h0 hb
  rw [cut_append_zeros] at hparse
  have hP : publicKeyP ≠ 0 := by decide
  obtain ⟨K2, hK2⟩ := speedDegreeWithMod_ok (sizeOfInt (atoi (cut t))) hP g.a2
  rw [readAnswer, terminate_arrival rfl hlt, ok_bind, hparse, ok_bind]
  simp only [speedDegreeWithMod_eq_power h1, hK2, ok_bind]
  exact ⟨_, rfl, rfl, rfl⟩

/-- Nothing comes from a failed read. -/
theorem Server.isAnswer_of_readAnswer {mode : Mode} {bfd : Connection} {g : Greeted} {a : Arrival}
    {keys : Prepared} (h : readAnswer mode bfd g a = .ok keys) : IsAnswer (Arrival.data a) := by
  cases a with
  | none =>
      rw [readAnswer, terminate_arrival_error (fun p hp => by cases hp)] at h
      cases h
  | some p => exact (readAnswer_ok_iff mode bfd g p).mp ⟨keys, h⟩

/-- Data that ends in front of the last delimiter. -/
theorem not_isAnswer_start {B1 : UInt64} {data : Bytes} (h : data <+: answerStart B1) :
    ¬ IsAnswer data := by
  rintro ⟨-, hcount⟩
  have hle := ((cut_isPrefix _).sublist.trans ((List.drop_sublist 1 data).trans h.sublist)).count_le
    58
  rw [answerStart_count] at hle
  omega

/-! ## The last number -/

/-- The last number of a greeting, as far as it is there. -/
theorem atoi_greeting {A2 : UInt64} (h : A2.toNat < 2 ^ 31) {t : Bytes}
    (ht : t <+: decimal A2.toNat ++ ascii "\n") :
    sizeOfInt (atoi (cut t)) = UInt64.ofNat (cutNumber A2.toNat t.length) := by
  have h0 : 0 ∉ t := by
    intro h0
    have hmem := ht.subset h0
    rw [List.mem_append] at hmem
    rcases hmem with hmem | hmem
    · exact notMem_decimal rfl _ hmem
    · revert hmem
      decide
  rw [cut_eq_self h0, atoi_cut h (noDigit_cons.mpr rfl) ht, sizeOfInt_natCast]

/-- The last number of an answer, as far as it is there. -/
theorem atoi_answer {B2 : UInt64} (h : B2.toNat < 2 ^ 31) {t : Bytes}
    (ht : t <+: decimal B2.toNat) :
    sizeOfInt (atoi (cut t)) = UInt64.ofNat (cutNumber B2.toNat t.length) := by
  have h0 : 0 ∉ t := fun h0 => notMem_decimal rfl _ (ht.subset h0)
  rw [← List.append_nil (decimal _)] at ht
  rw [cut_eq_self h0, atoi_cut h noDigit_nil ht, sizeOfInt_natCast]

end ServerSsh

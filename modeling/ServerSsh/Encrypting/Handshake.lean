import ServerSsh.Encrypting.Degree
import ServerSsh.Encrypting.Keys
import ServerSsh.Libc.Fields

/-!
# Preparing_numeral_keys

The handshake of the two programs.  The server draws two secret exponents and
sends a greeting with the public numbers and its two powers.  The client reads
them, draws its own exponents, computes the two shared numbers and answers with
its two powers, from which the server computes the same two numbers.

Both functions are translated with their errors: a missing delimiter is a null
pointer that is used, and the terminator that the functions store at the return
value of the read is out of bounds when the read fails or fills the buffer.
The server's function is cut at its read, in `Server.greet` and
`Server.readAnswer`.

The exponents come from `rand()`, whose results are the arguments of type
`UInt32`.
-/

namespace ServerSsh

open Libc

/-- `rand() % 0b1..1`, with 32 ones. -/
def exponent (rand : UInt32) : UInt64 := (rand % 4294967295).toUInt64

/-- The output of `"@You are not alone!:%d#%d#%zu#%zu\n"`. -/
def greetingText (P G A1 A2 : UInt64) : Bytes :=
  ascii "@You are not alone!:" ++ (decimal P.toNat ++ ascii "#" ++ (decimal G.toNat ++ ascii "#"
    ++ (decimal A1.toNat ++ ascii "#" ++ (decimal A2.toNat ++ ascii "\n"))))

/-- The output of `"@Secret info:%zu:%zu"`. -/
def answerText (B1 B2 : UInt64) : Bytes :=
  ascii "@Secret info:" ++ (decimal B1.toNat ++ ascii ":" ++ decimal B2.toNat)

/-- Format a text into a zeroed message buffer and send what `strlen` finds
there. -/
def sendText (text : Bytes) : Except Fault Bytes := do
  let b ← (Buf.zero maxCommandLenght).sprintf text
  let n ← b.strlen
  b.load n

/-! ## The server -/

namespace Server

/-- The server after its greeting. -/
structure Greeted where
  a1 : UInt64
  a2 : UInt64
  A1 : UInt64
  A2 : UInt64
  call : Output

/-- The server after the answer. -/
structure Prepared where
  bfd : Connection
  B1 : UInt64
  B2 : UInt64
  K1 : UInt64
  K2 : UInt64

/-- `Preparing_numeral_keys` up to the greeting. -/
def greet (mode : Mode) (bfd : Connection) (rand1 rand2 : UInt32) : Except Fault Greeted := do
  let a1 := exponent rand1
  let a2 := exponent rand2
  let A1 ← speedDegreeWithMod publicKeyG a1 publicKeyP
  let A2 ← speedDegreeWithMod publicKeyG a2 publicKeyP
  let greetings ← sendText (greetingText publicKeyP publicKeyG A1 A2)
  pure ⟨a1, a2, A1, A2, Output.of mode bfd.connFd bfd.sockFd bfd.client greetings⟩

/-- The two numbers of an answer. -/
def parseAnswer (clientMessage : MessageBuf) : Except Fault (UInt64 × UInt64) := do
  let placeB1 ← clientMessage.placeAfter 0 58
  let placeB2 ← clientMessage.placeAfter placeB1 58
  let B1 ← clientMessage.sizeAfter placeB1
  let B2 ← clientMessage.sizeAfter placeB2
  pure (B1, B2)

/-- `Preparing_numeral_keys` from the read of the answer on. -/
def readAnswer (mode : Mode) (bfd : Connection) (g : Greeted) (a : Arrival) :
    Except Fault Prepared := do
  let bfd := { bfd with client := Arrival.peer mode bfd.client a }
  let clientMessage ← (Arrival.buffer a).terminate (Arrival.ret a)
  let (B1, B2) ← parseAnswer clientMessage
  let K1 ← speedDegreeWithMod B1 g.a1 publicKeyP
  let K2 ← speedDegreeWithMod B2 g.a2 publicKeyP
  pure ⟨bfd, B1, B2, K1, K2⟩

end Server

/-! ## The client -/

namespace Client

/-- The numbers of a greeting. -/
structure Greeting where
  P : UInt64
  G : UInt64
  A1 : UInt64
  A2 : UInt64
deriving DecidableEq

/-- The client after its answer. -/
structure Prepared where
  bfd : Connection
  greeting : Greeting
  b1 : UInt64
  b2 : UInt64
  B1 : UInt64
  B2 : UInt64
  K1 : UInt64
  K2 : UInt64
  call : Output

/-- The numbers of a greeting. -/
def parseGreeting (adminMessage : MessageBuf) : Except Fault Greeting := do
  let placeP ← adminMessage.placeAfter 0 58
  let placeG ← adminMessage.placeAfter placeP 35
  let placeA1 ← adminMessage.placeAfter placeG 35
  let placeA2 ← adminMessage.placeAfter placeA1 35
  let G ← adminMessage.sizeAfter placeG
  let P ← adminMessage.sizeAfter placeP
  let A1 ← adminMessage.sizeAfter placeA1
  let A2 ← adminMessage.sizeAfter placeA2
  pure ⟨P, G, A1, A2⟩

/-- `Preparing_numeral_keys` of the client. -/
def preparingNumeralKeys (mode : Mode) (bfd : Connection) (rand1 rand2 : UInt32) (a : Arrival) :
    Except Fault Prepared := do
  let bfd := { bfd with admin := Arrival.peer mode bfd.admin a }
  let adminMessage ← (Arrival.buffer a).terminate (Arrival.ret a)
  let b1 := exponent rand1
  let b2 := exponent rand2
  let g ← parseGreeting adminMessage
  let B1 ← speedDegreeWithMod g.G b1 g.P
  let B2 ← speedDegreeWithMod g.G b2 g.P
  let K1 ← speedDegreeWithMod g.A1 b1 g.P
  let K2 ← speedDegreeWithMod g.A2 b2 g.P
  let answer ← sendText (answerText B1 B2)
  pure ⟨bfd, g, b1, b2, B1, B2, K1, K2, Output.of mode bfd.sockFd bfd.sockFd bfd.admin answer⟩

end Client

/-! ## Reading the texts back -/

theorem sendText_eq {text : Bytes} (h0 : 0 ∉ text) (h : text.length < maxCommandLenght) :
    sendText text = .ok text := by
  obtain ⟨hstrlen, hload⟩ := Buf.strlen_load_ofBytes h0 h
  rw [sendText, Buf.sprintf_zero h, ok_bind, hstrlen, ok_bind, hload]

/-- The buffer that is parsed, for a text that leaves room for its
terminator. -/
theorem terminate_arrival {p : Packet} {text : Bytes} (hp : p.data = text)
    (h : text.length < maxCommandLenght) :
    (Arrival.buffer (some p)).terminate (Arrival.ret (some p)) = .ok (Buf.ofBytes text h.le) := by
  subst hp
  exact Buf.terminate_ofBytes h

/-- There is no room for a terminator when the read has failed or has filled the
buffer. -/
theorem terminate_arrival_error {a : Arrival}
    (h : ∀ p, a = some p → ¬ p.data.length < maxCommandLenght) :
    (Arrival.buffer a).terminate (Arrival.ret a) = .error .outOfBounds := by
  cases a with
  | none => rfl
  | some p =>
      have hfull : p.data.length = maxCommandLenght :=
        Nat.le_antisymm p.fits (Nat.le_of_not_lt (h p rfl))
      show (Arrival.buffer (some p)).terminate (p.data.length : Int) = _
      rw [hfull]
      exact Buf.terminate_full _

/-- A field of a text: a number and the delimiter after it. -/
theorem field_eq {b : MessageBuf} {place k : Nat} {c : UInt8} {t : Bytes} (hk : k < 2 ^ 31)
    (hc : isDigit c = false) (h0 : 0 ∈ t) (hb : b.From (place + 1) (decimal k ++ c :: t)) :
    b.sizeAfter place = .ok (UInt64.ofNat k) ∧
      b.placeAfter place c = .ok (place + 1 + (decimal k).length) ∧
        b.From (place + 1 + (decimal k).length + 1) t := by
  refine ⟨Buf.sizeAfter_eq hk (noDigit_cons.mpr hc) (List.mem_cons_of_mem _ h0) hb, ?_⟩
  exact Buf.placeAfter_eq (notMem_decimal rfl k) (notMem_decimal hc k) hb

theorem greetingText_fits (P G A1 A2 : UInt64) :
    (greetingText P G A1 A2).length < maxCommandLenght := by
  have h1 := decimal_uint64_length P
  have h2 := decimal_uint64_length G
  have h3 := decimal_uint64_length A1
  have h4 := decimal_uint64_length A2
  have hhead : (ascii "@You are not alone!:").length = 20 := by decide
  have hsep : (ascii "#").length = 1 := by decide
  have hend : (ascii "\n").length = 1 := by decide
  have hle : (greetingText P G A1 A2).length ≤ 104 := by
    simp only [greetingText, List.length_append]
    omega
  exact Nat.lt_of_le_of_lt hle (by decide)

theorem answerText_fits (B1 B2 : UInt64) : (answerText B1 B2).length < maxCommandLenght := by
  have h1 := decimal_uint64_length B1
  have h2 := decimal_uint64_length B2
  have hhead : (ascii "@Secret info:").length = 13 := by decide
  have hsep : (ascii ":").length = 1 := by decide
  have hle : (answerText B1 B2).length ≤ 54 := by
    simp only [answerText, List.length_append]
    omega
  exact Nat.lt_of_le_of_lt hle (by decide)

theorem zero_notMem_greetingText (P G A1 A2 : UInt64) : 0 ∉ greetingText P G A1 A2 := by
  have h0 : ∀ k, (0 : UInt8) ∉ decimal k := notMem_decimal rfl
  simp [greetingText, ascii, h0]

theorem zero_notMem_answerText (B1 B2 : UInt64) : 0 ∉ answerText B1 B2 := by
  have h0 : ∀ k, (0 : UInt8) ∉ decimal k := notMem_decimal rfl
  simp [answerText, ascii, h0]

theorem sendText_greeting (P G A1 A2 : UInt64) :
    sendText (greetingText P G A1 A2) = .ok (greetingText P G A1 A2) :=
  sendText_eq (zero_notMem_greetingText P G A1 A2) (greetingText_fits P G A1 A2)

theorem sendText_answer (B1 B2 : UInt64) :
    sendText (answerText B1 B2) = .ok (answerText B1 B2) :=
  sendText_eq (zero_notMem_answerText B1 B2) (answerText_fits B1 B2)

/-- The fields of a greeting, with zeros after it. -/
theorem greetingText_append (P G A1 A2 : UInt64) (t : Bytes) :
    greetingText P G A1 A2 ++ t = [64] ++ (ascii "You are not alone!" ++
      58 :: (decimal P.toNat ++ 35 :: (decimal G.toNat ++
        35 :: (decimal A1.toNat ++ 35 :: (decimal A2.toNat ++ 10 :: t))))) := by
  simp [greetingText, ascii]

/-- The fields of an answer, with zeros after it. -/
theorem answerText_append (B1 B2 : UInt64) (t : Bytes) :
    answerText B1 B2 ++ t = [64] ++ (ascii "Secret info" ++
      58 :: (decimal B1.toNat ++ 58 :: (decimal B2.toNat ++ t))) := by
  simp [answerText, ascii]

theorem noDigit_zeros (k : Nat) : NoDigit (List.replicate (k + 1) 0) := by
  rw [List.replicate_succ, noDigit_cons]
  rfl

/-- The client reads back the four numbers of a greeting. -/
theorem parseGreeting_eq {P G A1 A2 : UInt64} (hP : P.toNat < 2 ^ 31) (hG : G.toNat < 2 ^ 31)
    (h1 : A1.toNat < 2 ^ 31) (h2 : A2.toNat < 2 ^ 31) :
    Client.parseGreeting (Buf.ofBytes _ (greetingText_fits P G A1 A2).le) = .ok ⟨P, G, A1, A2⟩ := by
  obtain ⟨k, hb⟩ := Buf.exists_zeros (greetingText_fits P G A1 A2) (i := 0) (by decide)
  have ht := zero_mem_zeros k
  rw [List.drop_zero, greetingText_append] at hb
  generalize Buf.ofBytes (greetingText P G A1 A2) _ = b at hb ⊢
  obtain ⟨hp, hb⟩ := Buf.placeAfter_eq (by decide) (by decide) (hb.skip (s := [64]))
  obtain ⟨hnP, hpG, hb⟩ := field_eq hP rfl (by simp [ht]) hb
  obtain ⟨hnG, hp1, hb⟩ := field_eq hG rfl (by simp [ht]) hb
  obtain ⟨hn1, hp2, hb⟩ := field_eq h1 rfl (by simp [ht]) hb
  obtain ⟨hn2, -⟩ := field_eq h2 rfl ht hb
  rw [Client.parseGreeting]
  simp only [hp, hpG, hp1, hp2, hnP, hnG, hn1, hn2, ok_bind, UInt64.ofNat_toNat]
  rfl

/-- The server reads back the two numbers of an answer. -/
theorem parseAnswer_eq {B1 B2 : UInt64} (h1 : B1.toNat < 2 ^ 31) (h2 : B2.toNat < 2 ^ 31) :
    Server.parseAnswer (Buf.ofBytes _ (answerText_fits B1 B2).le) = .ok (B1, B2) := by
  obtain ⟨k, hb⟩ := Buf.exists_zeros (answerText_fits B1 B2) (i := 0) (by decide)
  have ht := zero_mem_zeros k
  rw [List.drop_zero, answerText_append] at hb
  generalize Buf.ofBytes (answerText B1 B2) _ = b at hb ⊢
  obtain ⟨hp, hb⟩ := Buf.placeAfter_eq (by decide) (by decide) (hb.skip (s := [64]))
  obtain ⟨hn1, hp1, hb⟩ := field_eq h1 rfl (by simp [ht]) hb
  have hn2 := Buf.sizeAfter_eq h2 (noDigit_zeros k) ht hb
  rw [Server.parseAnswer]
  simp only [hp, hp1, hn1, hn2, ok_bind, UInt64.ofNat_toNat]
  rfl

/-! ## What is taken as an answer -/

/-- Data that the server takes as an answer: it leaves room for a terminator and
has two delimiters after its first character. -/
def IsAnswer (data : Bytes) : Prop :=
  data.length < maxCommandLenght ∧ 2 ≤ (cut (data.drop 1)).count 58

instance (data : Bytes) : Decidable (IsAnswer data) := inferInstanceAs (Decidable (_ ∧ _))

/-- Two delimiters are enough for the parser, and it needs both. -/
theorem parseAnswer_ok_iff {b : MessageBuf} {s : Bytes} (h0 : 0 ∈ s) (hb : b.From 1 s) :
    (∃ B, Server.parseAnswer b = .ok B) ↔ 2 ≤ (cut s).count 58 := by
  have hc : (58 : UInt8) ≠ 0 := by decide
  by_cases h1 : 58 ∈ cut s
  · obtain ⟨place1, t, hp1, hb1, ht0, hcount⟩ := Buf.placeAfter_of_mem h0 h1 hb
    have hB1 := Buf.sizeAfter_of_cut ht0 hb1
    by_cases h2 : 58 ∈ cut t
    · obtain ⟨place2, u, hp2, hb2, hu0, hcount'⟩ := Buf.placeAfter_of_mem ht0 h2 hb1
      have hB2 := Buf.sizeAfter_of_cut hu0 hb2
      refine ⟨fun _ => by omega, fun _ => ?_⟩
      simp only [Server.parseAnswer, hp1, hp2, hB1, hB2, ok_bind]
      exact ⟨_, rfl⟩
    · have hz := List.count_eq_zero.mpr h2
      rw [Server.parseAnswer, hp1, ok_bind, Buf.placeAfter_of_notMem hc ht0 h2 hb1]
      exact iff_of_false (by rintro ⟨B, hB⟩; cases hB) (by omega)
  · have hz := List.count_eq_zero.mpr h1
    rw [Server.parseAnswer, Buf.placeAfter_of_notMem hc h0 h1 hb]
    exact iff_of_false (by rintro ⟨B, hB⟩; cases hB) (by omega)

/-- The server computes keys from exactly the data that `IsAnswer` allows. -/
theorem Server.readAnswer_ok_iff (mode : Mode) (bfd : Connection) (g : Server.Greeted)
    (p : Packet) : (∃ s, Server.readAnswer mode bfd g (some p) = .ok s) ↔ IsAnswer p.data := by
  by_cases hlt : p.data.length < maxCommandLenght
  · obtain ⟨k, hb⟩ := Buf.exists_zeros hlt (i := 1) (by decide)
    have h0 : 0 ∈ p.data.drop 1 ++ List.replicate (k + 1) 0 :=
      List.mem_append_right _ (zero_mem_zeros k)
    have hparse := parseAnswer_ok_iff h0 hb
    rw [cut_append_zeros] at hparse
    rw [IsAnswer, and_iff_right hlt, ← hparse, Server.readAnswer, terminate_arrival rfl hlt,
      ok_bind]
    constructor
    · rintro ⟨s, hs⟩
      obtain ⟨B, hB, -⟩ := bind_eq_ok.mp hs
      exact ⟨B, hB⟩
    · rintro ⟨⟨B1, B2⟩, hB⟩
      have hp : publicKeyP ≠ 0 := by decide
      obtain ⟨K1, h1⟩ := speedDegreeWithMod_ok B1 hp g.a1
      obtain ⟨K2, h2⟩ := speedDegreeWithMod_ok B2 hp g.a2
      rw [hB, ok_bind]
      simp only [h1, h2, ok_bind]
      exact ⟨_, rfl⟩
  · have hterm := terminate_arrival_error fun q hq => Option.some.inj hq ▸ hlt
    rw [Server.readAnswer, hterm, IsAnswer]
    exact iff_of_false (by rintro ⟨s, hs⟩; cases hs) fun h => hlt h.1

end ServerSsh

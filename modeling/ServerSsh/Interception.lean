import Mathlib.Data.ZMod.Basic
import Mathlib.Tactic.ReduceModChar
import ServerSsh.KeyAgreement
import ServerSsh.KeyExchange
import ServerSsh.Wire

/-!
# Who else has the keys

The texts of a handshake are neither encrypted nor signed, and the two programs
take any numbers in them.  So the keys of a session are not a secret of the two.

* Who only listens to the two texts finds exponents that serve as well as those of
  the server among the first 10499999, and then gets out of every datagram what
  the receiving program gets (`listener_reads`).
* Who replaces the numbers by powers of the public number with exponents of his own
  shares a context with each of the programs, reads their messages and has his own
  taken for theirs (`middle_passes`).
* Who replaces the numbers by numbers of which a low power is 1 leaves few contexts
  to try out, and for the number 1 a single one (`replaced_confined`).
-/

namespace ServerSsh

open Libc KeyExchange

/-! ## Numbers as residues -/

/-- The residues modulo `PUBLIC_KEY_P`. -/
abbrev Residue := ZMod 20999999

/-- A number of a handshake as a residue. -/
def residue (k : UInt64) : Residue := k.toNat

theorem residue_power (g x : UInt64) : residue (power g x) = residue g ^ x.toNat := by
  rw [residue, power_toNat, residue, ← Nat.cast_pow]
  exact ZMod.natCast_mod _ _

/-- Powers modulo the public number are determined by their residues. -/
theorem power_eq_iff (g x g' x' : UInt64) :
    power g x = power g' x' ↔ residue g ^ x.toNat = residue g' ^ x'.toNat := by
  rw [← UInt64.toNat_inj, power_toNat, power_toNat, residue, residue, ← Nat.cast_pow,
    ← Nat.cast_pow, ZMod.natCast_eq_natCast_iff]
  rfl

/-- The order of the public number divides 10499999. -/
theorem residue_publicKeyG_pow : residue publicKeyG ^ 10499999 = 1 := by
  change (7 : ZMod 20999999) ^ 10499999 = 1
  reduce_mod_char

/-! ## A handshake with any texts -/

/-- The context of the sessions with the given numbers. -/
def keyCtx (K1 K2 : UInt64) : Evp.Ctx := evpInit (ivBuf K1 K2) (keyBuf K1 K2)

theorem sessionCtx_keySetUp {bfd session : Connection} {K1 K2 : UInt64}
    (h : keySetUp bfd K1 K2 = .ok session) : sessionCtx session = keyCtx K1 K2 := by
  rw [keySetUp_eq] at h
  cases h
  rfl

/-- A handshake in which somebody else may hand over the two texts, with the records
of the two programs after it. -/
structure Intercepted where
  mode : Mode
  server : Connection
  client : Connection
  r1 : UInt32
  r2 : UInt32
  s1 : UInt32
  s2 : UInt32
  g : Server.Greeted
  greeted : Server.greet mode server r1 r2 = .ok g
  greeting : Packet
  c : Client.Prepared
  prepared : Client.preparingNumeralKeys mode client s1 s2 (some greeting) = .ok c
  answer : Packet
  s : Server.Prepared
  read : Server.readAnswer mode server g (some answer) = .ok s
  conData : Connection
  conData_eq : keySetUp c.bfd c.K1 c.K2 = .ok conData
  bfd : Connection
  bfd_eq : keySetUp s.bfd s.K1 s.K2 = .ok bfd

namespace Intercepted

/-- The sending program. -/
def sender (x : Intercepted) : Direction → Connection
  | .toServer => x.conData
  | .toClient => x.bfd

/-- The receiving program. -/
def receiver (x : Intercepted) : Direction → Connection
  | .toServer => x.bfd
  | .toClient => x.conData

/-- The texts are handed over as they were sent. -/
structure Unaltered (x : Intercepted) : Prop where
  greeting : x.greeting.data = x.g.call.data
  answer : x.answer.data = x.c.call.data

/-- The texts that are handed over have the given numbers. -/
structure Gets (x : Intercepted) (A1 A2 B1 B2 : UInt64) : Prop where
  greeting : x.greeting.data = greetingText publicKeyP publicKeyG A1 A2
  answer : x.answer.data = answerText B1 B2
  small : ∀ N ∈ [A1, A2, B1, B2], N.toNat < 2 ^ 31

variable {x : Intercepted} {A1 A2 B1 B2 : UInt64}

theorem g_eq (x : Intercepted) :
    x.g.a1 = exponent x.r1 ∧ x.g.a2 = exponent x.r2 ∧
      x.g.A1 = power publicKeyG (exponent x.r1) ∧ x.g.A2 = power publicKeyG (exponent x.r2) ∧
        x.g.call.data = greetingText publicKeyP publicKeyG x.g.A1 x.g.A2 := by
  have h := x.greeted
  rw [greet_eq, Except.ok.injEq] at h
  rw [← h]
  exact ⟨rfl, rfl, rfl, rfl, Output.data_of ..⟩

theorem Gets.c_eq (h : x.Gets A1 A2 B1 B2) :
    x.c.B1 = power publicKeyG (exponent x.s1) ∧ x.c.B2 = power publicKeyG (exponent x.s2) ∧
      x.c.K1 = power A1 (exponent x.s1) ∧ x.c.K2 = power A2 (exponent x.s2) ∧
        x.c.call.data = answerText x.c.B1 x.c.B2 := by
  have hc := x.prepared
  rw [Client.preparingNumeralKeys_eq _ _ _ _ (h.small A1 (by simp)) (h.small A2 (by simp))
    h.greeting, Except.ok.injEq] at hc
  rw [← hc]
  exact ⟨rfl, rfl, rfl, rfl, Output.data_of ..⟩

theorem Gets.s_eq (h : x.Gets A1 A2 B1 B2) :
    x.s.K1 = power B1 (exponent x.r1) ∧ x.s.K2 = power B2 (exponent x.r2) := by
  have hs := x.read
  rw [Server.readAnswer_eq _ _ _ (h.small B1 (by simp)) (h.small B2 (by simp)) h.answer,
    Except.ok.injEq] at hs
  rw [← hs, x.g_eq.1, x.g_eq.2.1]
  exact ⟨rfl, rfl⟩

/-- The contexts of the two programs. -/
theorem Gets.ctx_eq (h : x.Gets A1 A2 B1 B2) :
    sessionCtx x.conData = keyCtx (power A1 (exponent x.s1)) (power A2 (exponent x.s2)) ∧
      sessionCtx x.bfd = keyCtx (power B1 (exponent x.r1)) (power B2 (exponent x.r2)) := by
  obtain ⟨-, -, hc1, hc2, -⟩ := h.c_eq
  obtain ⟨hs1, hs2⟩ := h.s_eq
  rw [sessionCtx_keySetUp x.conData_eq, sessionCtx_keySetUp x.bfd_eq, hc1, hc2, hs1, hs2]
  exact ⟨rfl, rfl⟩

/-- The numbers of texts that are handed over as they were sent. -/
theorem Unaltered.gets (h : x.Unaltered) : x.Gets x.g.A1 x.g.A2
    (power publicKeyG (exponent x.s1)) (power publicKeyG (exponent x.s2)) := by
  obtain ⟨-, -, hA1, hA2, hg⟩ := x.g_eq
  have hp := h.greeting.trans hg
  have hq := h.answer
  have hc := x.prepared
  rw [hA1, hA2] at hp
  rw [Client.preparingNumeralKeys_eq _ _ _ _ (power_lt ..) (power_lt ..) hp,
    Except.ok.injEq] at hc
  rw [← hc, Output.data_of] at hq
  rw [hA1, hA2]
  refine ⟨hp, hq, ?_⟩
  simp only [List.forall_mem_cons, power_lt, List.not_mem_nil, false_implies, implies_true,
    and_self]

/-- The two programs take any numbers. -/
theorem exists_gets (mode : Mode) (server client : Connection) (r1 r2 s1 s2 : UInt32)
    (hsmall : ∀ N ∈ [A1, A2, B1, B2], N.toNat < 2 ^ 31) :
    ∃ x : Intercepted, x.mode = mode ∧ x.server = server ∧ x.client = client ∧
      x.r1 = r1 ∧ x.r2 = r2 ∧ x.s1 = s1 ∧ x.s2 = s2 ∧ x.Gets A1 A2 B1 B2 := by
  let p : Packet := ⟨_, server.admin, (greetingText_fits publicKeyP publicKeyG A1 A2).le⟩
  let q : Packet := ⟨_, client.client, (answerText_fits B1 B2).le⟩
  exact ⟨⟨mode, server, client, r1, r2, s1, s2, _, greet_eq mode server r1 r2, p, _,
    Client.preparingNumeralKeys_eq mode client s1 s2 (hsmall A1 (by simp)) (hsmall A2 (by simp))
      rfl, q, _,
    Server.readAnswer_eq mode server _ (hsmall B1 (by simp)) (hsmall B2 (by simp)) rfl, _,
    keySetUp_eq .., _, keySetUp_eq ..⟩, rfl, rfl, rfl, rfl, rfl, rfl, rfl, rfl, rfl, hsmall⟩

/-- A handshake of the sample records, with the two texts as they were sent. -/
theorem exists_unaltered : ∃ x : Intercepted, x.server = sampleBfd ∧ x.client = sampleBfd ∧
    x.Unaltered := by
  have hsmall : ∀ N ∈ [power publicKeyG (exponent 1804289383),
      power publicKeyG (exponent 846930886), power publicKeyG (exponent 1681692777),
      power publicKeyG (exponent 1714636915)], N.toNat < 2 ^ 31 := by
    simp only [List.forall_mem_cons, power_lt, List.not_mem_nil, false_implies, implies_true,
      and_self]
  obtain ⟨x, -, hserver, hclient, hr1, hr2, hs1, hs2, hgets⟩ := exists_gets .udp sampleBfd
    sampleBfd 1804289383 846930886 1681692777 1714636915 hsmall
  obtain ⟨-, -, hA1, hA2, hg⟩ := x.g_eq
  obtain ⟨hB1, hB2, -, -, hc⟩ := hgets.c_eq
  refine ⟨x, hserver, hclient, ?_, ?_⟩
  · rw [hg, hA1, hA2, hr1, hr2]
    exact hgets.greeting
  · rw [hc, hB1, hB2, hs1, hs2]
    exact hgets.answer

end Intercepted

/-! ## Listening -/

/-- An exponent below `n` that leads to a public number. -/
def exponentOf (n : Nat) (A : UInt64) : Option UInt64 :=
  (findExponent (residue publicKeyG) (residue A) n).map UInt64.ofNat

/-- The context that a listener computes from the two texts when he tries out `n`
exponents. -/
def listen (n : Nat) (greeting answer : Packet) : Option Evp.Ctx := do
  let g ← (Client.parseGreeting (Arrival.buffer (some greeting))).toOption
  let (B1, B2) ← (Server.parseAnswer (Arrival.buffer (some answer))).toOption
  let a1 ← exponentOf n g.A1
  let a2 ← exponentOf n g.A2
  pure (keyCtx (power B1 a1) (power B2 a2))

theorem buffer_eq {p : Packet} {text : Bytes} (hp : p.data = text)
    (h : text.length ≤ maxCommandLenght) : Arrival.buffer (some p) = Buf.ofBytes text h := by
  subst hp
  rfl

section Listening

-- The number of exponents stays a variable, so that nothing evaluates the search.
variable {n : Nat} (hpos : 0 < n) (hlt : n < 2 ^ 64) (hn : residue publicKeyG ^ n = 1)

include hpos hlt hn

/-- An exponent is found that serves as well as the secret one. -/
theorem exponentOf_power (a : UInt64) :
    ∃ y, exponentOf n (power publicKeyG a) = some y ∧
      ∀ b, power (power publicKeyG b) y = power (power publicKeyG b) a := by
  obtain ⟨y, hy, hfind, hpow⟩ := exists_findExponent hpos hn a.toNat
  have hnat : (UInt64.ofNat y).toNat = y := UInt64.toNat_ofNat_of_lt' (hy.trans hlt)
  refine ⟨.ofNat y, ?_, fun b => ?_⟩
  · rw [exponentOf, residue_power, hfind]
    rfl
  · rw [power_eq_iff, residue_power, hnat]
    exact pow_eq_of_pow_eq hpow b.toNat

theorem listen_eq {p q : Packet} {a1 a2 b1 b2 : UInt64}
    (hp : p.data = greetingText publicKeyP publicKeyG (power publicKeyG a1) (power publicKeyG a2))
    (hq : q.data = answerText (power publicKeyG b1) (power publicKeyG b2)) :
    listen n p q
      = some (keyCtx (power (power publicKeyG b1) a1) (power (power publicKeyG b2) a2)) := by
  obtain ⟨y1, hy1, hK1⟩ := exponentOf_power hpos hlt hn a1
  obtain ⟨y2, hy2, hK2⟩ := exponentOf_power hpos hlt hn a2
  have hg := parseGreeting_eq (P := publicKeyP) (G := publicKeyG) (by decide) (by decide)
    (power_lt publicKeyG a1) (power_lt publicKeyG a2)
  have ha := parseAnswer_eq (power_lt publicKeyG b1) (power_lt publicKeyG b2)
  rw [listen, buffer_eq hp (greetingText_fits ..).le, buffer_eq hq (answerText_fits ..).le, hg, ha]
  simp only [Except.toOption, Option.bind_eq_bind, Option.bind_some, hy1, hy2, hK1, hK2,
    Option.pure_def]

end Listening

theorem get_received {dir : Direction} {E : Evp.Cipher} {mode : Mode} {bfd : Connection}
    {a : Arrival} {got : Got} (h : dir.get E mode bfd a = .ok got) :
    got.string.cstring 0 = .ok (received E bfd (Arrival.data a)) := by
  by_cases hterm : 0 ∈ Arrival.data a ∨ (Arrival.data a).length < maxCommandLenght
  · obtain ⟨got', hgot', hs⟩ := dir.get_string E mode bfd hterm
    cases hgot'.symm.trans h
    exact hs
  · cases (dir.get_unterminated E mode bfd hterm).symm.trans h

/-- Whoever listens to the two texts of a handshake gets out of every datagram what
the receiving program gets, whichever it is. -/
theorem listener_reads {x : Intercepted} (h : x.Unaltered) :
    ∃ ctx, listen 10499999 x.greeting x.answer = some ctx ∧
      ∀ E dir mode a got, Direction.get dir E mode (x.receiver dir) a = .ok got →
        got.string.cstring 0 = .ok (cut (E.decipher ctx (cut (Arrival.data a)))) := by
  have hgets := h.gets
  obtain ⟨-, -, hA1, hA2, -⟩ := x.g_eq
  obtain ⟨hclient, hserver⟩ := hgets.ctx_eq
  have hp := hgets.greeting
  rw [hA1, hA2] at hp hclient
  have hctx : ∀ dir, sessionCtx (x.receiver dir) = sessionCtx x.bfd := by
    intro dir
    cases dir with
    | toServer => rfl
    | toClient =>
        rw [Intercepted.receiver, hclient, hserver, shared_comm publicKeyG (exponent x.r1),
          shared_comm publicKeyG (exponent x.r2)]
  refine ⟨sessionCtx x.bfd, ?_, fun E dir mode a got hgot => ?_⟩
  · rw [hserver]
    exact listen_eq (by decide) (by decide) residue_publicKeyG_pow hp hgets.answer
  · rw [get_received hgot, received, hctx]

theorem listener_reads_sample : ∃ x : Intercepted, x.server = sampleBfd ∧
    ∃ ctx, listen 10499999 x.greeting x.answer = some ctx ∧
      ∀ E dir mode a got, Direction.get dir E mode (x.receiver dir) a = .ok got →
        got.string.cstring 0 = .ok (cut (E.decipher ctx (cut (Arrival.data a)))) := by
  obtain ⟨x, hserver, -, h⟩ := Intercepted.exists_unaltered
  exact ⟨x, hserver, listener_reads h⟩

/-! ## Standing in the middle -/

/-- The contexts of the two programs. -/
structure Shared where
  server : Evp.Ctx
  client : Evp.Ctx

/-- The context of the sending program. -/
def Shared.sender (k : Shared) : Direction → Evp.Ctx
  | .toServer => k.client
  | .toClient => k.server

/-- The context of the receiving program. -/
def Shared.receiver (k : Shared) : Direction → Evp.Ctx
  | .toServer => k.server
  | .toClient => k.client

/-- The contexts of somebody who gets the two texts, and has replaced their numbers by
powers with his exponents, `z1` and `z2` for the server and `y1` and `y2` for the
client. -/
def share (greeting answer : Packet) (z1 z2 y1 y2 : UInt64) : Option Shared := do
  let g ← (Client.parseGreeting (Arrival.buffer (some greeting))).toOption
  let (B1, B2) ← (Server.parseAnswer (Arrival.buffer (some answer))).toOption
  pure ⟨keyCtx (power g.A1 z1) (power g.A2 z2), keyCtx (power B1 y1) (power B2 y2)⟩

theorem share_eq {x : Intercepted} {p q : Packet} {z1 z2 y1 y2 : UInt64}
    (h : x.Gets (power publicKeyG y1) (power publicKeyG y2) (power publicKeyG z1)
      (power publicKeyG z2))
    (hp : p.data = x.g.call.data) (hq : q.data = x.c.call.data) :
    share p q z1 z2 y1 y2 = some ⟨sessionCtx x.bfd, sessionCtx x.conData⟩ := by
  obtain ⟨-, -, hA1, hA2, hg⟩ := x.g_eq
  obtain ⟨hB1, hB2, -, -, hc⟩ := h.c_eq
  obtain ⟨hclient, hserver⟩ := h.ctx_eq
  rw [hg, hA1, hA2] at hp
  rw [hc, hB1, hB2] at hq
  have hgreeting := parseGreeting_eq (P := publicKeyP) (G := publicKeyG) (by decide) (by decide)
    (power_lt publicKeyG (exponent x.r1)) (power_lt publicKeyG (exponent x.r2))
  have hanswer := parseAnswer_eq (power_lt publicKeyG (exponent x.s1))
    (power_lt publicKeyG (exponent x.s2))
  rw [share, buffer_eq hp (greetingText_fits ..).le, buffer_eq hq (answerText_fits ..).le,
    hgreeting, hanswer, hclient, hserver]
  simp only [Except.toOption, Option.bind_eq_bind, Option.bind_some,
    shared_comm publicKeyG (exponent x.r1), shared_comm publicKeyG (exponent x.r2),
    shared_comm publicKeyG (exponent x.s1), shared_comm publicKeyG (exponent x.s2),
    Option.pure_def]

/-- Whoever replaces the numbers of a handshake by powers with his own exponents has a
context with each of the two programs.  When the ciphertexts have no zero byte, he
reads what either of them sends, and what he sends in its place is passed on. -/
theorem middle_passes {x : Intercepted} {p q : Packet} {z1 z2 y1 y2 : UInt64}
    (h : x.Gets (power publicKeyG y1) (power publicKeyG y2) (power publicKeyG z1)
      (power publicKeyG z2))
    (hp : p.data = x.g.call.data) (hq : q.data = x.c.call.data) :
    ∃ k, share p q z1 z2 y1 y2 = some k ∧ ∀ (E : Evp.Cipher) (dir : Direction) (mode : Mode)
      (address : Nat),
      (∀ string sent m, string.cstring 0 = .ok m →
        dir.send E mode (x.sender dir) string = .ok sent → 0 ∉ E.encipher (k.sender dir) m →
        E.decipher (k.sender dir) sent.call.data = m) ∧
      ∀ (t : Bytes) (r : Packet), 0 ∉ t → t ≠ [] → t.length < 65520 →
        r.data = E.encipher (k.receiver dir) t → 0 ∉ r.data →
        ∃ bfd, dir.pass E mode address (x.receiver dir) (some r)
          = .ok (bfd, dir.passed address t) := by
  refine ⟨_, share_eq h hp hq, fun E dir mode address => ⟨?_, ?_⟩⟩
  · intro string sent m hs hsent hc
    obtain ⟨-, rfl⟩ := Buf.cstring_zero_eq_ok.mp hs
    obtain ⟨-, hdata, -⟩ := Direction.send_ok hsent
    have hctx : Shared.sender ⟨sessionCtx x.bfd, sessionCtx x.conData⟩ dir
        = sessionCtx (x.sender dir) := by
      cases dir <;> rfl
    rw [hctx] at hc ⊢
    rw [hdata, ciphertext, cut_eq_self hc]
    exact E.decipher_encipher _ _
  · intro t r ht0 hne hshort hr hr0
    have hctx : Shared.receiver ⟨sessionCtx x.bfd, sessionCtx x.conData⟩ dir
        = sessionCtx (x.receiver dir) := by
      cases dir <;> rfl
    rw [hctx] at hr
    rw [hr] at hr0
    exact dir.pass_ciphertext mode address ht0 hne hshort hr hr0

theorem middle_passes_sample : ∃ (x : Intercepted) (p q : Packet) (k : Shared),
    x.server = sampleBfd ∧ share p q 3 5 7 11 = some k ∧
      ∀ (E : Evp.Cipher) (dir : Direction) (mode : Mode) (address : Nat) (t : Bytes) (r : Packet),
        0 ∉ t → t ≠ [] → t.length < 65520 → r.data = E.encipher (k.receiver dir) t → 0 ∉ r.data →
        ∃ bfd, dir.pass E mode address (x.receiver dir) (some r)
          = .ok (bfd, dir.passed address t) := by
  have hsmall : ∀ N ∈ [power publicKeyG 7, power publicKeyG 11, power publicKeyG 3,
      power publicKeyG 5], N.toNat < 2 ^ 31 := by
    simp only [List.forall_mem_cons, power_lt, List.not_mem_nil, false_implies, implies_true,
      and_self]
  obtain ⟨x, -, hserver, -, -, -, -, -, hgets⟩ := Intercepted.exists_gets .udp sampleBfd sampleBfd
    1804289383 846930886 1681692777 1714636915 hsmall
  obtain ⟨-, -, -, -, hg⟩ := x.g_eq
  obtain ⟨-, -, -, -, hc⟩ := hgets.c_eq
  let p : Packet := ⟨_, sampleBfd.admin, (greetingText_fits publicKeyP publicKeyG x.g.A1 x.g.A2).le⟩
  let q : Packet := ⟨_, sampleBfd.client, (answerText_fits x.c.B1 x.c.B2).le⟩
  obtain ⟨k, hk, h⟩ := middle_passes (p := p) (q := q) hgets hg.symm hc.symm
  exact ⟨x, p, q, k, hserver, hk, fun E dir mode address => (h E dir mode address).2⟩

/-! ## Numbers with few powers -/

/-- The contexts for the powers of two numbers with exponents below `n`. -/
def candidates (N1 N2 : UInt64) (n : Nat) : List Evp.Ctx :=
  (List.range n ×ˢ List.range n).map fun e => keyCtx (power N1 (.ofNat e.1)) (power N2 (.ofNat e.2))

theorem candidates_length (N1 N2 : UInt64) (n : Nat) : (candidates N1 N2 n).length = n * n := by
  rw [candidates, List.length_map, List.length_product, List.length_range]

/-- A power of a number of which a power is 1. -/
theorem exists_power_eq {N : UInt64} {n : Nat} (hn : 0 < n) (hlt : n < 2 ^ 64)
    (h1 : residue N ^ n = 1) (a : UInt64) : ∃ e < n, power N a = power N (.ofNat e) := by
  have hmod := Nat.mod_lt a.toNat hn
  refine ⟨a.toNat % n, hmod, (power_eq_iff ..).mpr ?_⟩
  rw [UInt64.toNat_ofNat_of_lt' (hmod.trans hlt)]
  exact pow_eq_pow_mod _ h1

theorem keyCtx_mem_candidates {N1 N2 : UInt64} {n : Nat} (hn : 0 < n) (hlt : n < 2 ^ 64)
    (h1 : residue N1 ^ n = 1) (h2 : residue N2 ^ n = 1) (a b : UInt64) :
    keyCtx (power N1 a) (power N2 b) ∈ candidates N1 N2 n := by
  obtain ⟨e, he, ha⟩ := exists_power_eq hn hlt h1 a
  obtain ⟨f, hf, hb⟩ := exists_power_eq hn hlt h2 b
  rw [ha, hb]
  exact List.mem_map.mpr
    ⟨(e, f), List.mem_product.mpr ⟨List.mem_range.mpr he, List.mem_range.mpr hf⟩, rfl⟩

/-- The two programs take any numbers.  When an `n`-th power of each of the numbers is
1, then the contexts of the two programs are among `n * n` that can be computed
without them, whatever exponents the programs have drawn. -/
theorem replaced_confined {A1 A2 B1 B2 : UInt64} {n : Nat} (hn : 0 < n) (hlt : n < 2 ^ 64)
    (hsmall : ∀ N ∈ [A1, A2, B1, B2], N.toNat < 2 ^ 31)
    (h1 : ∀ N ∈ [A1, A2, B1, B2], residue N ^ n = 1) :
    (∀ mode server client r1 r2 s1 s2, ∃ x : Intercepted, x.mode = mode ∧ x.server = server ∧
      x.client = client ∧ x.r1 = r1 ∧ x.r2 = r2 ∧ x.s1 = s1 ∧ x.s2 = s2 ∧ x.Gets A1 A2 B1 B2) ∧
    ∀ x : Intercepted, x.Gets A1 A2 B1 B2 →
      sessionCtx x.conData ∈ candidates A1 A2 n ∧ sessionCtx x.bfd ∈ candidates B1 B2 n := by
  refine ⟨fun mode server client r1 r2 s1 s2 =>
    Intercepted.exists_gets mode server client r1 r2 s1 s2 hsmall, fun x hx => ?_⟩
  obtain ⟨hclient, hserver⟩ := hx.ctx_eq
  rw [hclient, hserver]
  exact ⟨keyCtx_mem_candidates hn hlt (h1 A1 (by simp)) (h1 A2 (by simp)) _ _,
    keyCtx_mem_candidates hn hlt (h1 B1 (by simp)) (h1 B2 (by simp)) _ _⟩

/-- The number in front of the modulus leaves four contexts. -/
theorem replaced_confined_minus_one : ∃ x : Intercepted, x.server = sampleBfd ∧
    sessionCtx x.conData ∈ candidates 20999998 20999998 2 ∧
      sessionCtx x.bfd ∈ candidates 20999998 20999998 2 := by
  have hsquare : residue 20999998 ^ 2 = 1 := by
    change (20999998 : ZMod 20999999) ^ 2 = 1
    reduce_mod_char
  have hsmall : ∀ N ∈ [20999998, 20999998, 20999998, 20999998], UInt64.toNat N < 2 ^ 31 := by simp
  obtain ⟨hexists, h⟩ := replaced_confined (n := 2) (by decide) (by decide) hsmall
    (by simp [hsquare])
  obtain ⟨x, -, hserver, -, -, -, -, -, hx⟩ :=
    hexists .udp sampleBfd sampleBfd 1804289383 846930886 1681692777 1714636915
  exact ⟨x, hserver, h x hx⟩

end ServerSsh

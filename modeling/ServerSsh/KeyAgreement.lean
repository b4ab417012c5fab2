import ServerSsh.Encrypting.Handshake
import ServerSsh.KeyMaterial

/-!
# The two programs agree on the keys

When the greeting and the answer arrive as they were sent, both programs compute
the same two shared numbers and so set up the same key and IV buffers.  The
exponents are any results of `rand()`, which are below `2 ^ 31`.

A shared number is `g ^ (a * b)` modulo `PUBLIC_KEY_P`, which each side reaches
through its own reduced power.  `shared_comm` is the agreement of the two, and
`power_spec` says that the word computation of each power is exact.
-/

namespace ServerSsh

open Libc

/-! ## Powers modulo the public number -/

/-- `g ^ x` modulo `PUBLIC_KEY_P`. -/
def power (g x : UInt64) : UInt64 := UInt64.ofNat (g.toNat ^ x.toNat % publicKeyP.toNat)

theorem power_toNat (g x : UInt64) : (power g x).toNat = g.toNat ^ x.toNat % publicKeyP.toNat :=
  ofNat_mod_toNat _ (by decide)

theorem power_lt (g x : UInt64) : (power g x).toNat < 2 ^ 31 := by
  rw [power_toNat]
  exact (Nat.mod_lt _ (by decide)).trans (by decide)

/-- For a base below `2 ^ 31` the word computation is exact. -/
theorem power_spec {g : UInt64} (hg : g.toNat < 2 ^ 31) (x : UInt64) : Exact g x publicKeyP := by
  have hP : publicKeyP.toNat = 20999999 := rfl
  refine speedDegreeWithMod_spec ?_ ?_ ?_ x
  · rw [hP]; omega
  · rw [hP]; omega
  · rw [hP]; omega

theorem speedDegreeWithMod_eq_power {g : UInt64} (hg : g.toNat < 2 ^ 31) (x : UInt64) :
    speedDegreeWithMod g x publicKeyP = .ok (power g x) := (power_spec hg x).result

/-- The order in which two exponents are applied does not matter. -/
theorem shared_comm (g a b : UInt64) : power (power g a) b = power (power g b) a := by
  refine UInt64.toNat_inj.mp ?_
  rw [power_toNat, power_toNat, power_toNat, power_toNat, ← Nat.pow_mod, ← Nat.pow_mod,
    ← pow_mul, ← pow_mul, Nat.mul_comm]

/-- The exponent of a result of `rand()` is that result. -/
theorem exponent_toNat {r : UInt32} (hr : r.toNat < 2 ^ 31) : (exponent r).toNat = r.toNat := by
  have hmod : r.toNat % 4294967295 = r.toNat := Nat.mod_eq_of_lt (by omega)
  rw [exponent, UInt32.toNat_toUInt64, UInt32.toNat_mod]
  exact hmod

/-! ## The handshake, step by step -/

/-- What the server has sent. -/
theorem greet_eq (mode : Mode) (bfd : Connection) (r1 r2 : UInt32) :
    let A1 := power publicKeyG (exponent r1)
    let A2 := power publicKeyG (exponent r2)
    Server.greet mode bfd r1 r2 = .ok ⟨exponent r1, exponent r2, A1, A2,
      Output.of mode bfd.connFd bfd.sockFd bfd.client
        (greetingText publicKeyP publicKeyG A1 A2)⟩ := by
  have hG : publicKeyG.toNat < 2 ^ 31 := by decide
  simp only [Server.greet, speedDegreeWithMod_eq_power hG, ok_bind,
    sendText_greeting]
  rfl

/-- What the client makes of a greeting. -/
theorem Client.preparingNumeralKeys_eq (mode : Mode) (bfd : Connection) (s1 s2 : UInt32)
    {p : Packet} {A1 A2 : UInt64} (h1 : A1.toNat < 2 ^ 31) (h2 : A2.toNat < 2 ^ 31)
    (hp : p.data = greetingText publicKeyP publicKeyG A1 A2) :
    let bfd' := { bfd with admin := Arrival.peer mode bfd.admin (some p) }
    let b1 := exponent s1
    let b2 := exponent s2
    let B1 := power publicKeyG b1
    let B2 := power publicKeyG b2
    Client.preparingNumeralKeys mode bfd s1 s2 (some p)
      = .ok ⟨bfd', ⟨publicKeyP, publicKeyG, A1, A2⟩, b1, b2, B1, B2, power A1 b1, power A2 b2,
          Output.of mode bfd.sockFd bfd.sockFd bfd'.admin (answerText B1 B2)⟩ := by
  have hG : publicKeyG.toNat < 2 ^ 31 := by decide
  have hparse := parseGreeting_eq (P := publicKeyP) (G := publicKeyG) (by decide) hG h1 h2
  have hterm := terminate_arrival hp (greetingText_fits publicKeyP publicKeyG A1 A2)
  rw [Client.preparingNumeralKeys, hterm, ok_bind]
  dsimp only
  rw [hparse, ok_bind]
  simp only [speedDegreeWithMod_eq_power hG, speedDegreeWithMod_eq_power h1,
    speedDegreeWithMod_eq_power h2, sendText_answer, ok_bind]
  rfl

/-- What the server makes of an answer. -/
theorem Server.readAnswer_eq (mode : Mode) (bfd : Connection) (g : Server.Greeted) {p : Packet}
    {B1 B2 : UInt64} (h1 : B1.toNat < 2 ^ 31) (h2 : B2.toNat < 2 ^ 31)
    (hp : p.data = answerText B1 B2) :
    Server.readAnswer mode bfd g (some p)
      = .ok ⟨{ bfd with client := Arrival.peer mode bfd.client (some p) }, B1, B2,
          power B1 g.a1, power B2 g.a2⟩ := by
  have hterm := terminate_arrival hp (answerText_fits B1 B2)
  rw [Server.readAnswer, hterm, ok_bind, parseAnswer_eq h1 h2, ok_bind]
  simp only [speedDegreeWithMod_eq_power h1, speedDegreeWithMod_eq_power h2, ok_bind]
  rfl

/-! ## Agreement -/

/-- The products of the powers in a list of base and exponent pairs fit in 64
bits. -/
def NoWrap (powers : List (UInt64 × UInt64)) (P : UInt64) : Prop :=
  ∀ gx ∈ powers, ∀ n ∈ speedProducts gx.1 gx.2 P, n < 2 ^ 64

/-- The two sides of a handshake agree. -/
structure Agreement (g : Server.Greeted) (c : Client.Prepared) (s : Server.Prepared) : Prop where
  greeting : c.greeting = ⟨publicKeyP, publicKeyG, g.A1, g.A2⟩
  answer : s.B1 = c.B1 ∧ s.B2 = c.B2
  keys : c.K1 = s.K1 ∧ c.K2 = s.K2
  serverNoWrap :
    NoWrap [(publicKeyG, g.a1), (publicKeyG, g.a2), (s.B1, g.a1), (s.B2, g.a2)] publicKeyP
  clientNoWrap :
    NoWrap [(c.greeting.G, c.b1), (c.greeting.G, c.b2), (c.greeting.A1, c.b1),
      (c.greeting.A2, c.b2)] c.greeting.P
  buffers : ∃ server client, keySetUp s.bfd s.K1 s.K2 = .ok server ∧
    keySetUp c.bfd c.K1 c.K2 = .ok client ∧ server.key = client.key ∧ server.iv = client.iv

/-- The handshake with the given results of `rand()` runs to the end whenever
its two texts arrive as they were sent, and then the two sides agree. -/
def HandshakeAgrees (mode : Mode) (server client : Connection) (r1 r2 s1 s2 : UInt32) : Prop :=
  ∃ g, Server.greet mode server r1 r2 = .ok g ∧
    g.a1.toNat = r1.toNat ∧ g.a2.toNat = r2.toNat ∧
    g.call.data = greetingText publicKeyP publicKeyG g.A1 g.A2 ∧
    ∀ p : Packet, p.data = g.call.data →
      ∃ c, Client.preparingNumeralKeys mode client s1 s2 (some p) = .ok c ∧
        c.b1.toNat = s1.toNat ∧ c.b2.toNat = s2.toNat ∧
        c.call.data = answerText c.B1 c.B2 ∧
        ∀ q : Packet, q.data = c.call.data →
          ∃ s, Server.readAnswer mode server g (some q) = .ok s ∧ Agreement g c s

theorem noWrap_powers {gs : List (UInt64 × UInt64)} (h : ∀ gx ∈ gs, gx.1.toNat < 2 ^ 31) :
    NoWrap gs publicKeyP := fun gx hgx => (power_spec (h gx hgx) gx.2).products

/-- Both sides of every handshake agree. -/
theorem handshake_agrees (mode : Mode) (server client : Connection) {r1 r2 s1 s2 : UInt32}
    (hr1 : r1.toNat < 2 ^ 31) (hr2 : r2.toNat < 2 ^ 31) (hs1 : s1.toNat < 2 ^ 31)
    (hs2 : s2.toNat < 2 ^ 31) : HandshakeAgrees mode server client r1 r2 s1 s2 := by
  have hG : publicKeyG.toNat < 2 ^ 31 := by decide
  refine ⟨_, greet_eq mode server r1 r2, exponent_toNat hr1, exponent_toNat hr2,
    Output.data_of .., fun p hp => ?_⟩
  rw [Output.data_of] at hp
  refine ⟨_, Client.preparingNumeralKeys_eq mode client s1 s2 (power_lt ..) (power_lt ..) hp,
    exponent_toNat hs1, exponent_toNat hs2, Output.data_of .., fun q hq => ?_⟩
  rw [Output.data_of] at hq
  refine ⟨_, Server.readAnswer_eq mode server _ (power_lt ..) (power_lt ..) hq, ?_⟩
  refine ⟨rfl, ⟨rfl, rfl⟩, ⟨shared_comm .., shared_comm ..⟩, noWrap_powers ?_, noWrap_powers ?_, ?_⟩
  · simp only [List.forall_mem_cons, hG, power_lt, List.not_mem_nil, false_implies, implies_true,
      and_self]
  · simp only [List.forall_mem_cons, hG, power_lt, List.not_mem_nil, false_implies, implies_true,
      and_self]
  · refine ⟨_, _, keySetUp_eq .., keySetUp_eq .., ?_, ?_⟩
    · simp only [shared_comm]
    · simp only [shared_comm]

/-- The exponents of the sample session. -/
theorem handshake_agrees_sample :
    HandshakeAgrees .tcp sampleBfd sampleBfd 1804289383 846930886 1681692777 1714636915 :=
  handshake_agrees _ _ _ (by decide) (by decide) (by decide) (by decide)

end ServerSsh

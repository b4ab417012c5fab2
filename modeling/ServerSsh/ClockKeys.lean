import ServerSsh.KeyAgreement

/-!
# Keys and the clock

Both programs call `srand(time(0))` right before they draw their exponents, and
nothing else of a session enters the two shared numbers.  So the seconds at which
the two sides run determine the keys, for every client and in both modes
(`keys_fixed_by_clock`).

What `rand()` returns after `srand` is a parameter.  All that is used of it is
that it depends on the seed alone.
-/

namespace ServerSsh

open Libc

/-- The results of `rand()` after `srand` with a seed, in order. -/
abbrev Rand := UInt32 → Nat → UInt32

/-- The argument of `srand(time(0))` at a second. -/
def seed (t : Int) : UInt32 := UInt32.ofNat (t % 2 ^ 32).toNat

/-- A handshake at the seconds `ts` of the server and `tc` of the client, with
both texts delivered as they were sent, and the record of the server after it. -/
structure Handshake (rand : Rand) (ts tc : Int) where
  mode : Mode
  server : Connection
  client : Connection
  g : Server.Greeted
  greeted : Server.greet mode server (rand (seed ts) 0) (rand (seed ts) 1) = .ok g
  greeting : Packet
  greeting_data : greeting.data = g.call.data
  c : Client.Prepared
  prepared : Client.preparingNumeralKeys mode client (rand (seed tc) 0) (rand (seed tc) 1)
    (some greeting) = .ok c
  answer : Packet
  answer_data : answer.data = c.call.data
  s : Server.Prepared
  read : Server.readAnswer mode server g (some answer) = .ok s
  session : Connection
  session_eq : keySetUp s.bfd s.K1 s.K2 = .ok session

namespace Handshake

variable {rand : Rand} {ts tc : Int}

/-- The two numbers of a session. -/
def numbers (x : Handshake rand ts tc) : UInt64 × UInt64 := (x.s.K1, x.s.K2)

/-- The number that the `i`-th exponents of the two sides lead to. -/
def shared (rand : Rand) (ts tc : Int) (i : Nat) : UInt64 :=
  power (power publicKeyG (exponent (rand (seed tc) i))) (exponent (rand (seed ts) i))

/-- The numbers of a session are powers of the public number. -/
theorem numbers_eq (x : Handshake rand ts tc) :
    x.numbers = (shared rand ts tc 0, shared rand ts tc 1) := by
  have hg := x.greeted
  rw [greet_eq, Except.ok.injEq] at hg
  have hp := x.greeting_data
  rw [← hg, Output.data_of] at hp
  have hc := x.prepared
  rw [Client.preparingNumeralKeys_eq _ _ _ _ (power_lt ..) (power_lt ..) hp,
    Except.ok.injEq] at hc
  have hq := x.answer_data
  rw [← hc, Output.data_of] at hq
  have hs := x.read
  rw [Server.readAnswer_eq _ _ _ (power_lt ..) (power_lt ..) hq, Except.ok.injEq] at hs
  rw [numbers, ← hs, ← hg]
  rfl

/-- There is a handshake at any two seconds, in both modes and with any records. -/
theorem exists_handshake (rand : Rand) (ts tc : Int) (mode : Mode) (server client : Connection) :
    ∃ x : Handshake rand ts tc, x.mode = mode ∧ x.server = server ∧ x.client = client := by
  let r := rand (seed ts)
  let r' := rand (seed tc)
  let p : Packet := ⟨_, server.admin, (greetingText_fits publicKeyP publicKeyG
    (power publicKeyG (exponent (r 0))) (power publicKeyG (exponent (r 1)))).le⟩
  let q : Packet := ⟨_, client.client, (answerText_fits
    (power publicKeyG (exponent (r' 0))) (power publicKeyG (exponent (r' 1)))).le⟩
  have hp : p.data = greetingText publicKeyP publicKeyG (power publicKeyG (exponent (r 0)))
    (power publicKeyG (exponent (r 1))) := rfl
  have hq : q.data = answerText (power publicKeyG (exponent (r' 0)))
    (power publicKeyG (exponent (r' 1))) := rfl
  exact ⟨⟨mode, server, client, _, greet_eq mode server (r 0) (r 1),
    p, (Output.data_of ..).symm,
    _, Client.preparingNumeralKeys_eq mode client (r' 0) (r' 1) (power_lt ..) (power_lt ..) hp,
    q, (Output.data_of ..).symm,
    _, Server.readAnswer_eq mode server _ (power_lt ..) (power_lt ..) hq,
    _, keySetUp_eq ..⟩, rfl, rfl, rfl⟩

/-- The key and the IV of the messages of any two sessions are the same. -/
theorem sessionCtx_eq (x y : Handshake rand ts tc) :
    sessionCtx x.session = sessionCtx y.session := by
  have hnum := x.numbers_eq.trans y.numbers_eq.symm
  obtain ⟨h1, h2⟩ := Prod.mk.inj hnum
  have hx := x.session_eq
  have hy := y.session_eq
  rw [keySetUp_eq, Except.ok.injEq] at hx hy
  rw [← hx, ← hy]
  exact sessionCtx_congr (by rw [h1, h2]) (by rw [h1, h2])

end Handshake

/-- There are two sessions at the given seconds with different numbers. -/
def KeysVary (rand : Rand) (ts tc : Int) : Prop :=
  ∃ x y : Handshake rand ts tc, x.numbers ≠ y.numbers

theorem not_keysVary (rand : Rand) (ts tc : Int) : ¬ KeysVary rand ts tc := by
  rintro ⟨x, y, h⟩
  exact h (x.numbers_eq.trans y.numbers_eq.symm)

/-- At any two seconds there are sessions of any two clients and administrators, no
two of them have different numbers, and all their messages are encrypted under the
same key and IV. -/
theorem keys_fixed_by_clock (rand : Rand) (ts tc : Int) :
    ¬ KeysVary rand ts tc ∧
      (∀ mode server client, ∃ x : Handshake rand ts tc,
        x.mode = mode ∧ x.server = server ∧ x.client = client) ∧
      ∀ x y : Handshake rand ts tc, sessionCtx x.session = sessionCtx y.session :=
  ⟨not_keysVary rand ts tc, Handshake.exists_handshake rand ts tc, Handshake.sessionCtx_eq⟩

/-- The results of `rand()` of the sample session. -/
def sampleRand : Rand := fun _ i => if i = 0 then 1804289383 else 846930886

/-- Two clients in the same second. -/
theorem same_second_same_keys :
    ¬ ∀ (rand : Rand) (ts tc : Int), KeysVary rand ts tc := fun hclaim =>
  not_keysVary sampleRand 1700000000 1700000000 (hclaim _ _ _)

end ServerSsh

import ServerSsh.CutTexts
import ServerSsh.Establishment
import ServerSsh.SessionOrder

/-!
# The handshake over a TCP connection

The client is connected and the administrator has accepted the connection.  Each of
the two writes its text in one call and reads the text of the other in one call, but
the connection carries bytes: a read may end inside the text, and the administrator's
may go on into the first messages, since the client sends them without waiting.

Nothing is lost on the way, so the handshake always comes to its end (`finishes`).
But the reads decide how it ends (`reads_decide`), and the session begins in step,
with the same keys and with no text or message cut in two, exactly when both of them
return one whole text (`in_step_iff`).

A message to a peer that has stopped is left out: nobody reads it.
-/

namespace ServerSsh

open Libc Transition

namespace TcpHandshake

/-- What does not change. -/
abbrev Config := Establishment.Config

/-- Where the administrator stands.  `sends` tells whether its sender goes on. -/
inductive ServerPhase where
  | accepted (bfd : Connection)
  | greeted (bfd : Connection) (g : Server.Greeted)
  | running (session : Connection) (sends : Bool)
  | stopped

/-- Where the client stands. -/
inductive ClientPhase where
  | connected (data : Connection)
  | running (session : Connection) (sends : Bool)
  | stopped

/-- The two programs, and the bytes that are written and not read. -/
structure State where
  server : ServerPhase
  client : ClientPhase
  toServer : Bytes
  toClient : Bytes
  /-- What the client has read as the greeting. -/
  greeting : Option Bytes
  /-- What the administrator has read as the answer. -/
  answer : Option Bytes
  /-- What the two have sent as messages. -/
  typed : List Bytes
  shown : List Bytes

def initial (data bfd : Connection) : State :=
  ⟨.accepted bfd, .connected data, [], [], none, none, [], []⟩

/-- What may happen. -/
inductive Action where
  | greet
  /-- The client's read of the greeting. -/
  | readGreeting (a : Arrival)
  /-- The administrator's read of the answer. -/
  | readAnswer (a : Arrival)
  | typed (c : Chunk)
  | shellOutput (c : Chunk)

/-- What a read may return: something of what is there, from its front.  When nothing
is there it waits, until the peer is gone, and from then on it may fail. -/
def Reads (pending : Bytes) (gone : Prop) : Arrival → Prop
  | none => gone
  | some p => p.data <+: pending ∧ (p.data = [] → pending = [] ∧ gone)

instance (pending : Bytes) (gone : Prop) [Decidable gone] :
    ∀ a, Decidable (Reads pending gone a)
  | none => inferInstanceAs (Decidable gone)
  | some _ => inferInstanceAs (Decidable (_ ∧ _))

/-- The program has stopped. -/
def ServerPhase.Gone (phase : ServerPhase) : Prop := phase matches .stopped

def ClientPhase.Gone (phase : ClientPhase) : Prop := phase matches .stopped

instance (phase : ServerPhase) : Decidable phase.Gone := inferInstanceAs (Decidable (_ = true))

instance (phase : ClientPhase) : Decidable phase.Gone := inferInstanceAs (Decidable (_ = true))

/-- The client takes what it has read as the greeting. -/
def takeGreeting (cfg : Config) (s : State) (data : Connection) (a : Arrival) : State :=
  let s := { s with
    toClient := s.toClient.drop (Arrival.data a).length
    greeting := some (Arrival.data a) }
  match Client.preparingNumeralKeys .tcp data cfg.client.rand1 cfg.client.rand2 a with
  | .error _ => { s with client := .stopped }
  | .ok keys =>
      let s := { s with toServer := s.toServer ++ keys.call.data }
      match keySetUp keys.bfd keys.K1 keys.K2 with
      | .error _ => { s with client := .stopped }
      | .ok session => { s with client := .running session true }

/-- The administrator takes what it has read as the answer. -/
def takeAnswer (s : State) (bfd : Connection) (g : Server.Greeted) (a : Arrival) : State :=
  let s := { s with
    toServer := s.toServer.drop (Arrival.data a).length
    answer := some (Arrival.data a) }
  match SessionOrder.keysOf .tcp bfd g a with
  | .error _ => { s with server := .stopped }
  | .ok session => { s with server := .running session true }

/-- A step. -/
def step (cfg : Config) (s : State) : Action → Option State
  | .greet =>
      match s.server with
      | .accepted bfd =>
          match Server.greet .tcp bfd cfg.server.rand1 cfg.server.rand2 with
          | .error _ => some { s with server := .stopped }
          | .ok g => some { s with
              server := .greeted bfd g
              toClient := s.toClient ++ g.call.data }
      | _ => none
  | .readGreeting a =>
      match s.client with
      | .connected data =>
          if Reads s.toClient s.server.Gone a then some (takeGreeting cfg s data a) else none
      | _ => none
  | .readAnswer a =>
      match s.server with
      | .greeted bfd g =>
          if Reads s.toServer s.client.Gone a then some (takeAnswer s bfd g a) else none
      | _ => none
  | .typed c =>
      match s.client with
      | .running session true =>
          if s.server.Gone then none else
          match Client.relayInput cfg.client.E .tcp session c with
          | .error _ => some { s with client := .running session false }
          | .ok sent => some { s with
              toServer := s.toServer ++ sent.call.data
              typed := s.typed ++ [sent.call.data] }
      | _ => none
  | .shellOutput c =>
      match s.server with
      | .running session true =>
          if s.client.Gone then none else
          match Server.relayOutput cfg.server.E .tcp session c with
          | .error _ => some { s with server := .running session false }
          | .ok sent => some { s with
              toClient := s.toClient ++ sent.call.data
              shown := s.shown ++ [sent.call.data] }
      | _ => none

variable {cfg : Config} {s s' : State} {a : Action}

/-! ## What a read of the handshake leads to -/

/-- The greeting up to its last delimiter. -/
def greetingFront (cfg : Config) : Bytes :=
  greetingStart publicKeyP publicKeyG (power publicKeyG cfg.a1)

/-- The answer up to its last delimiter. -/
def answerFront (cfg : Config) : Bytes := answerStart (power publicKeyG cfg.b1)

/-- A record with the key material from the shared first number and from `K2`. -/
structure HasNumber (cfg : Config) (session : Connection) (K2 : UInt64) : Prop where
  key : session.key = keyBuf (power (power publicKeyG cfg.b1) cfg.a1) K2
  iv : session.iv = ivBuf (power (power publicKeyG cfg.b1) cfg.a1) K2

/-- The last number of the greeting, when the read returns `g`. -/
def greetingNumber (cfg : Config) (g : Bytes) : UInt64 :=
  UInt64.ofNat (cutNumber (power publicKeyG cfg.a2).toNat
    (g.length - ((greetingFront cfg).length + 1)))

/-- The last number of the answer, when the read returns `q`.  The digits of a message
that follow directly are taken for its digits. -/
def answerNumber (cfg : Config) (q : Bytes) : UInt64 :=
  if q.length ≤ cfg.answer.length then
    UInt64.ofNat (cutNumber (power publicKeyG cfg.b2).toNat
      (q.length - ((answerFront cfg).length + 1)))
  else
    sizeOfInt (atoi (decimal (power publicKeyG cfg.b2).toNat ++ cut (q.drop cfg.answer.length)))

theorem greeting_eq (cfg : Config) : cfg.greeting
    = greetingFront cfg ++ 35 :: (decimal (power publicKeyG cfg.a2).toNat ++ ascii "\n") :=
  greetingText_eq ..

theorem answer_eq (cfg : Config) : cfg.answer
    = answerFront cfg ++ 58 :: decimal (power publicKeyG cfg.b2).toNat :=
  answerText_eq ..

theorem greetingFront_lt (cfg : Config) : (greetingFront cfg).length < cfg.greeting.length := by
  rw [greeting_eq]
  simp

theorem answerFront_lt (cfg : Config) : (answerFront cfg).length < cfg.answer.length := by
  rw [answer_eq]
  simp

theorem greetingNumber_lt (cfg : Config) (g : Bytes) :
    (greetingNumber cfg g).toNat < 2 ^ 31 := by
  have hlt := (cutNumber_le (power publicKeyG cfg.a2).toNat
    (g.length - ((greetingFront cfg).length + 1))).trans_lt (power_lt publicKeyG cfg.a2)
  rw [greetingNumber, UInt64.toNat_ofNat_of_lt' (hlt.trans (by decide))]
  exact hlt

/-- A greeting that ends in front of its last delimiter stops the client. -/
theorem takeGreeting_short {data : Connection} {a : Arrival}
    (h : Arrival.data a <+: cfg.greeting)
    (hle : (Arrival.data a).length ≤ (greetingFront cfg).length) :
    takeGreeting cfg s data a = { s with
      client := .stopped
      toClient := s.toClient.drop (Arrival.data a).length
      greeting := some (Arrival.data a) } := by
  rw [greeting_eq] at h
  have hshort := List.prefix_of_prefix_length_le h (List.prefix_append ..) hle
  obtain ⟨f, hf⟩ := Client.preparingNumeralKeys_short .tcp data cfg.client.rand1 cfg.client.rand2
    hshort
  unfold takeGreeting
  rw [hf]

/-- With a greeting that reaches its last number the client goes on. -/
theorem takeGreeting_long (s : State) (data : Connection) {a : Arrival}
    (h : Arrival.data a <+: cfg.greeting)
    (hlt : (greetingFront cfg).length < (Arrival.data a).length) :
    ∃ session, HasNumber cfg session (power (greetingNumber cfg (Arrival.data a)) cfg.b2) ∧
      takeGreeting cfg s data a = { s with
        client := .running session true
        toClient := s.toClient.drop (Arrival.data a).length
        toServer := s.toServer ++ cfg.answer
        greeting := some (Arrival.data a) } := by
  have hfits := h.length_le.trans_lt (greetingText_fits ..)
  rw [greeting_eq] at h
  rcases prefix_append_cons h with ⟨-, hle⟩ | ⟨t, ht, hpre⟩
  · omega
  · cases a with
    | none => cases hlt
    | some p =>
        have hp : p.data = greetingFront cfg ++ 35 :: t := ht
        have hlen : p.data.length - ((greetingFront cfg).length + 1) = t.length := by
          rw [hp, List.length_append, List.length_cons]
          omega
        have hnumber : sizeOfInt (atoi (cut t)) = greetingNumber cfg p.data := by
          rw [greetingNumber, hlen]
          exact atoi_greeting (power_lt ..) hpre
        obtain ⟨keys, hkeys, hcall, hK1, hK2⟩ := Client.preparingNumeralKeys_start .tcp data
          cfg.client.rand1 cfg.client.rand2 (power_lt ..) (greetingNumber_lt cfg p.data) hp hfits
          hnumber
        refine ⟨{ keys.bfd with key := keyBuf keys.K1 keys.K2, iv := ivBuf keys.K1 keys.K2 },
          ⟨?_, ?_⟩, ?_⟩
        · rw [hK1, hK2, shared_comm]
          rfl
        · rw [hK1, hK2, shared_comm]
          rfl
        · unfold takeGreeting
          rw [hkeys]
          dsimp only
          rw [keySetUp_eq, hcall]
          rfl

/-- What the administrator reads as the last number of the answer. -/
theorem atoi_answerNumber {q t more : Bytes} (hq : q = answerFront cfg ++ 58 :: t)
    (h : t <+: decimal (power publicKeyG cfg.b2).toNat ++ more) :
    sizeOfInt (atoi (cut t)) = answerNumber cfg q := by
  have hlen : q.length - ((answerFront cfg).length + 1) = t.length := by
    rw [hq, List.length_append, List.length_cons]
    omega
  have hle : q.length ≤ cfg.answer.length ↔
      t.length ≤ (decimal (power publicKeyG cfg.b2).toNat).length := by
    rw [hq, answer_eq]
    simp
  unfold answerNumber
  split
  next hshort =>
    have hpre := List.prefix_of_prefix_length_le h (List.prefix_append ..) (hle.mp hshort)
    rw [hlen]
    exact atoi_answer (power_lt ..) hpre
  next hlong =>
    rw [hle] at hlong
    obtain ⟨u, rfl⟩ := List.prefix_of_prefix_length_le (List.prefix_append ..) h (by omega)
    have hdrop : q.drop cfg.answer.length = u := by
      rw [hq, ← List.cons_append, ← List.append_assoc, ← answer_eq, List.drop_left]
    rw [hdrop, cut_append (notMem_decimal rfl _)]

/-- An answer that ends in front of its last delimiter, or that fills the buffer with
what follows it, stops the administrator. -/
theorem takeAnswer_short {bfd : Connection} {g : Server.Greeted} {a : Arrival} {more : Bytes}
    (h : Arrival.data a <+: cfg.answer ++ more)
    (hle : (Arrival.data a).length ≤ (answerFront cfg).length ∨
      (Arrival.data a).length = maxCommandLenght) :
    takeAnswer s bfd g a = { s with
      server := .stopped
      toServer := s.toServer.drop (Arrival.data a).length
      answer := some (Arrival.data a) } := by
  have hkeys : ∃ f, SessionOrder.keysOf .tcp bfd g a = .error f := by
    cases hr : SessionOrder.keysOf .tcp bfd g a with
    | error f => exact ⟨f, rfl⟩
    | ok session =>
        obtain ⟨keys, hkeys, -⟩ := bind_eq_ok.mp hr
        have hanswer := Server.isAnswer_of_readAnswer hkeys
        rcases hle with hle | hfull
        · rw [answer_eq, List.append_assoc] at h
          have hshort := List.prefix_of_prefix_length_le h (List.prefix_append ..) hle
          exact absurd hanswer (not_isAnswer_start hshort)
        · exact absurd hanswer.1 (Nat.not_lt.mpr hfull.ge)
  obtain ⟨f, hf⟩ := hkeys
  unfold takeAnswer
  rw [hf]

/-- With an answer that reaches its last number the administrator goes on. -/
theorem takeAnswer_long (s : State) (bfd : Connection) {g : Server.Greeted} {a : Arrival}
    {more : Bytes}
    (h1 : g.a1 = cfg.a1) (h2 : g.a2 = cfg.a2) (h : Arrival.data a <+: cfg.answer ++ more)
    (hlt : (answerFront cfg).length < (Arrival.data a).length)
    (hfits : (Arrival.data a).length ≠ maxCommandLenght) :
    ∃ session K2,
      speedDegreeWithMod (answerNumber cfg (Arrival.data a)) cfg.a2 publicKeyP = .ok K2 ∧
      HasNumber cfg session K2 ∧
      takeAnswer s bfd g a = { s with
        server := .running session true
        toServer := s.toServer.drop (Arrival.data a).length
        answer := some (Arrival.data a) } := by
  have hfits := Nat.lt_of_le_of_ne (Arrival.data_length_le a) hfits
  rw [answer_eq, List.append_assoc, List.cons_append] at h
  rcases prefix_append_cons h with ⟨-, hle⟩ | ⟨t, ht, hpre⟩
  · omega
  · cases a with
    | none => cases hlt
    | some p =>
        have hp : p.data = answerFront cfg ++ 58 :: t := ht
        obtain ⟨keys, hkeys, hK1, hK2⟩ :=
          Server.readAnswer_start .tcp bfd g (power_lt publicKeyG cfg.b1) hp hfits
        rw [atoi_answerNumber hp hpre, h2] at hK2
        rw [h1] at hK1
        refine ⟨{ keys.bfd with key := keyBuf keys.K1 keys.K2, iv := ivBuf keys.K1 keys.K2 },
          keys.K2, hK2, ⟨?_, ?_⟩, ?_⟩
        · rw [hK1]
        · rw [hK1]
        · unfold takeAnswer SessionOrder.keysOf
          rw [hkeys, ok_bind, keySetUp_eq]

/-! ## What every run keeps -/

/-- The client, by what it has read as the greeting, by its messages, and by all that
it has written. -/
inductive ClientOk (cfg : Config) :
    ClientPhase → Option Bytes → List Bytes → Bytes → Prop where
  | connected (data : Connection) : ClientOk cfg (.connected data) none [] []
  | running {session : Connection} {sends : Bool} {g : Bytes} {typed : List Bytes} :
      g <+: cfg.greeting → (greetingFront cfg).length < g.length →
      HasNumber cfg session (power (greetingNumber cfg g) cfg.b2) →
      ClientOk cfg (.running session sends) (some g) typed (cfg.answer ++ typed.flatten)
  | stopped {g : Bytes} : g <+: cfg.greeting → g.length ≤ (greetingFront cfg).length →
      ClientOk cfg .stopped (some g) [] []

/-- The administrator, by what it has read as the answer, by its messages, and by all
that it has written. -/
inductive ServerOk (cfg : Config) :
    ServerPhase → Option Bytes → List Bytes → Bytes → Prop where
  | accepted (bfd : Connection) : ServerOk cfg (.accepted bfd) none [] []
  | greeted {bfd : Connection} {g : Server.Greeted} : g.a1 = cfg.a1 → g.a2 = cfg.a2 →
      ServerOk cfg (.greeted bfd g) none [] cfg.greeting
  | running {session : Connection} {sends : Bool} {q : Bytes} {K2 : UInt64}
      {shown : List Bytes} :
      (answerFront cfg).length < q.length → q.length ≠ maxCommandLenght →
      speedDegreeWithMod (answerNumber cfg q) cfg.a2 publicKeyP = .ok K2 →
      HasNumber cfg session K2 →
      ServerOk cfg (.running session sends) (some q) shown (cfg.greeting ++ shown.flatten)
  | stopped {q : Bytes} :
      q.length ≤ (answerFront cfg).length ∨ q.length = maxCommandLenght →
      ServerOk cfg .stopped (some q) [] cfg.greeting

/-- Both programs.  What one has written is what the other has read, and what is on
the way. -/
structure Ok (cfg : Config) (s : State) : Prop where
  client : ClientOk cfg s.client s.greeting s.typed (s.answer.getD [] ++ s.toServer)
  server : ServerOk cfg s.server s.answer s.shown (s.greeting.getD [] ++ s.toClient)

theorem ok_initial (data bfd : Connection) : Ok cfg (initial data bfd) :=
  ⟨.connected data, .accepted bfd⟩

/-- What is read is in front of what is left. -/
theorem Reads.append_drop {pending : Bytes} {gone : Prop} {a : Arrival}
    (h : Reads pending gone a) :
    Arrival.data a ++ pending.drop (Arrival.data a).length = pending := by
  cases a with
  | none => rfl
  | some p =>
      obtain ⟨rest, rfl⟩ := h.1
      rw [Arrival.data, List.drop_left]

theorem Reads.isPrefix {pending : Bytes} {gone : Prop} {a : Arrival} (h : Reads pending gone a) :
    Arrival.data a <+: pending := ⟨_, h.append_drop⟩

/-- From an empty connection nothing is read while the peer is there. -/
theorem Reads.gone {gone : Prop} {a : Arrival} (h : Reads [] gone a) : gone := by
  cases a with
  | none => exact h
  | some p => exact (h.2 (List.prefix_nil.mp h.1)).2

section Inversion

variable {bfd data session : Connection} {g : Server.Greeted} {sends : Bool}
  {read : Option Bytes} {messages : List Bytes} {written : Bytes}

theorem ClientOk.of_connected (h : ClientOk cfg (.connected data) read messages written) :
    read = none ∧ messages = [] ∧ written = [] := by
  cases h
  exact ⟨rfl, rfl, rfl⟩

theorem ClientOk.of_running (h : ClientOk cfg (.running session sends) read messages written) :
    ∃ g, read = some g ∧ g <+: cfg.greeting ∧ (greetingFront cfg).length < g.length ∧
      HasNumber cfg session (power (greetingNumber cfg g) cfg.b2) ∧
      written = cfg.answer ++ messages.flatten := by
  cases h with
  | @running _ _ g _ hpre hlt hsession => exact ⟨g, rfl, hpre, hlt, hsession, rfl⟩

theorem ServerOk.of_accepted (h : ServerOk cfg (.accepted bfd) read messages written) :
    read = none ∧ messages = [] ∧ written = [] := by
  cases h
  exact ⟨rfl, rfl, rfl⟩

theorem ServerOk.of_greeted (h : ServerOk cfg (.greeted bfd g) read messages written) :
    g.a1 = cfg.a1 ∧ g.a2 = cfg.a2 ∧ read = none ∧ messages = [] ∧ written = cfg.greeting := by
  cases h with
  | greeted h1 h2 => exact ⟨h1, h2, rfl, rfl, rfl⟩

theorem ServerOk.of_running (h : ServerOk cfg (.running session sends) read messages written) :
    ∃ q K2, read = some q ∧ (answerFront cfg).length < q.length ∧ q.length ≠ maxCommandLenght ∧
      speedDegreeWithMod (answerNumber cfg q) cfg.a2 publicKeyP = .ok K2 ∧
      HasNumber cfg session K2 ∧ written = cfg.greeting ++ messages.flatten := by
  cases h with
  | @running _ _ q K2 _ hlt hfull hK2 hsession =>
      exact ⟨q, K2, rfl, hlt, hfull, hK2, hsession, rfl⟩

end Inversion

/-- Once the administrator has greeted a client that has not read yet, the greeting is
there. -/
theorem Ok.greeting_there {data : Connection} (h : Ok cfg s) (hc : s.client = .connected data)
    (hp : ∀ bfd, s.server ≠ .accepted bfd) : s.toClient = cfg.greeting := by
  obtain ⟨hclient, hserver⟩ := h
  rw [hc] at hclient
  obtain ⟨hg, -, hup⟩ := hclient.of_connected
  rw [hg, Option.getD_none, List.nil_append] at hserver
  generalize s.toClient = toClient at hserver
  generalize s.server = server at hserver hp
  generalize s.answer = answer at hserver hup
  generalize s.shown = shown at hserver
  cases hserver with
  | accepted bfd => exact absurd rfl (hp bfd)
  | greeted _ _ => rfl
  | @running _ _ q _ _ hlt _ _ _ =>
      rw [Option.getD_some, List.append_eq_nil_iff] at hup
      rw [hup.1] at hlt
      cases hlt
  | stopped _ => rfl

/-- What the client reads first is of the greeting. -/
theorem Ok.greeting_isPrefix {data : Connection} {a : Arrival} (h : Ok cfg s)
    (hp : s.client = .connected data) (hread : Reads s.toClient s.server.Gone a) :
    Arrival.data a <+: cfg.greeting := by
  by_cases haccepted : ∃ bfd, s.server = .accepted bfd
  · obtain ⟨bfd, hb⟩ := haccepted
    have hserver := h.server
    rw [hb] at hserver hread
    obtain ⟨-, -, hdown⟩ := hserver.of_accepted
    rw [(List.append_eq_nil_iff.mp hdown).2] at hread
    cases hread.gone
  · have heq := h.greeting_there hp fun bfd hb => haccepted ⟨bfd, hb⟩
    exact heq ▸ hread.isPrefix

/-- Once the client has read the greeting, its answer is there and its messages after it,
or it is gone. -/
theorem Ok.answer_there {bfd : Connection} {g : Server.Greeted} (h : Ok cfg s)
    (hc : ∀ data, s.client ≠ .connected data) (hp : s.server = .greeted bfd g) :
    s.client.Gone ∧ s.toServer = [] ∨ s.toServer = cfg.answer ++ s.typed.flatten := by
  obtain ⟨hclient, hserver⟩ := h
  rw [hp] at hserver
  obtain ⟨-, -, hq, -, -⟩ := hserver.of_greeted
  rw [hq, Option.getD_none, List.nil_append] at hclient
  generalize s.toServer = toServer at hclient
  generalize s.client = client at hclient hc
  generalize s.greeting = greeting at hclient
  generalize s.typed = typed at hclient
  cases hclient with
  | connected data => exact absurd rfl (hc data)
  | running _ _ _ => exact Or.inr rfl
  | stopped _ _ => exact Or.inl ⟨rfl, rfl⟩

/-- What the administrator reads first is of the answer, or it goes on into the messages
after it. -/
theorem Ok.answer_isPrefix {bfd : Connection} {g : Server.Greeted} {a : Arrival} (h : Ok cfg s)
    (hp : s.server = .greeted bfd g) (hread : Reads s.toServer s.client.Gone a) :
    Arrival.data a <+: cfg.answer ++ s.typed.flatten := by
  by_cases hconnected : ∃ data, s.client = .connected data
  · obtain ⟨data, hc⟩ := hconnected
    have hclient := h.client
    rw [hc] at hclient hread
    obtain ⟨-, -, hup⟩ := hclient.of_connected
    rw [(List.append_eq_nil_iff.mp hup).2] at hread
    cases hread.gone
  · rcases h.answer_there (fun data hc => hconnected ⟨data, hc⟩) hp with ⟨-, hnil⟩ | heq
    · rw [hnil] at hread
      rw [List.prefix_nil.mp hread.isPrefix]
      exact List.nil_prefix
    · exact heq ▸ hread.isPrefix

theorem ok_greet (h : Ok cfg s) (hs : step cfg s .greet = some s') : Ok cfg s' := by
  rw [step] at hs
  split at hs
  next bfd hp =>
    rw [greet_eq] at hs
    cases hs
    obtain ⟨hclient, hserver⟩ := h
    rw [hp] at hserver
    obtain ⟨hq, hshown, hdown⟩ := hserver.of_accepted
    refine ⟨hclient, ?_⟩
    dsimp only
    rw [hq, hshown, ← List.append_assoc, hdown, List.nil_append, Output.data_of]
    exact .greeted rfl rfl
  next => cases hs

theorem ok_readGreeting {a : Arrival} (h : Ok cfg s)
    (hs : step cfg s (.readGreeting a) = some s') : Ok cfg s' := by
  rw [step] at hs
  split at hs
  next data hp =>
    split at hs
    next hread =>
      cases hs
      have hpre := h.greeting_isPrefix hp hread
      obtain ⟨hclient, hserver⟩ := h
      rw [hp] at hclient
      obtain ⟨hg, htyped, hup⟩ := hclient.of_connected
      rw [hg, Option.getD_none, List.nil_append, ← hread.append_drop] at hserver
      rcases Nat.lt_or_ge (greetingFront cfg).length (Arrival.data a).length with hlt | hle
      · obtain ⟨session, hsession, he⟩ := takeGreeting_long s data hpre hlt
        rw [he]
        refine ⟨?_, hserver⟩
        dsimp only
        rw [← List.append_assoc, hup, List.nil_append, htyped, ← List.append_nil cfg.answer]
        exact .running hpre hlt hsession
      · rw [takeGreeting_short hpre hle]
        refine ⟨?_, hserver⟩
        dsimp only
        rw [hup, htyped]
        exact .stopped hpre hle
    next => cases hs
  next => cases hs

theorem ok_readAnswer {a : Arrival} (h : Ok cfg s)
    (hs : step cfg s (.readAnswer a) = some s') : Ok cfg s' := by
  rw [step] at hs
  split at hs
  next bfd g hp =>
    split at hs
    next hread =>
      cases hs
      have hpre := h.answer_isPrefix hp hread
      obtain ⟨hclient, hserver⟩ := h
      rw [hp] at hserver
      obtain ⟨h1, h2, hq, hshown, hdown⟩ := hserver.of_greeted
      rw [hq, Option.getD_none, List.nil_append, ← hread.append_drop] at hclient
      by_cases hshort : (Arrival.data a).length ≤ (answerFront cfg).length ∨
          (Arrival.data a).length = maxCommandLenght
      · rw [takeAnswer_short hpre hshort]
        refine ⟨hclient, ?_⟩
        dsimp only
        rw [hdown, hshown]
        exact .stopped hshort
      · obtain ⟨hlt, hfull⟩ := not_or.mp hshort
        rw [Nat.not_le] at hlt
        obtain ⟨session, K2, hK2, hsession, he⟩ :=
          takeAnswer_long s bfd h1 h2 hpre hlt hfull
        rw [he]
        refine ⟨hclient, ?_⟩
        dsimp only
        rw [hdown, hshown, ← List.append_nil cfg.greeting]
        exact .running hlt hfull hK2 hsession
    next => cases hs
  next => cases hs

theorem ok_typed {c : Chunk} (h : Ok cfg s) (hs : step cfg s (.typed c) = some s') :
    Ok cfg s' := by
  rw [step] at hs
  split at hs
  next session hp =>
    split at hs
    next => cases hs
    next =>
      obtain ⟨hclient, hserver⟩ := h
      rw [hp] at hclient
      obtain ⟨g, hg, hpre, hlt, hsession, hup⟩ := hclient.of_running
      split at hs
      next =>
        cases hs
        refine ⟨?_, hserver⟩
        dsimp only
        rw [hup, hg]
        exact .running hpre hlt hsession
      next sent hsent =>
        cases hs
        refine ⟨?_, hserver⟩
        dsimp only
        rw [hp, ← List.append_assoc, hup, hg, List.append_assoc, ← List.flatten_concat]
        exact .running hpre hlt hsession
  next => cases hs

theorem ok_shellOutput {c : Chunk} (h : Ok cfg s)
    (hs : step cfg s (.shellOutput c) = some s') : Ok cfg s' := by
  rw [step] at hs
  split at hs
  next session hp =>
    split at hs
    next => cases hs
    next =>
      obtain ⟨hclient, hserver⟩ := h
      rw [hp] at hserver
      obtain ⟨q, K2, hq, hlt, hfull, hK2, hsession, hdown⟩ := hserver.of_running
      split at hs
      next =>
        cases hs
        refine ⟨hclient, ?_⟩
        dsimp only
        rw [hdown, hq]
        exact .running hlt hfull hK2 hsession
      next sent hsent =>
        cases hs
        refine ⟨hclient, ?_⟩
        dsimp only
        rw [hp, ← List.append_assoc, hdown, hq, List.append_assoc, ← List.flatten_concat]
        exact .running hlt hfull hK2 hsession
  next => cases hs

theorem step_ok (h : Ok cfg s) (hs : step cfg s a = some s') : Ok cfg s' := by
  cases a with
  | greet => exact ok_greet h hs
  | readGreeting a => exact ok_readGreeting h hs
  | readAnswer a => exact ok_readAnswer h hs
  | typed c => exact ok_typed h hs
  | shellOutput c => exact ok_shellOutput h hs

theorem reachable_ok {data bfd : Connection}
    (h : Reachable (step cfg) Any (initial data bfd) s) : Ok cfg s :=
  h.invariant (ok_initial data bfd) fun hok _ hs => step_ok hok hs

/-! ## A run in which both reads are whole -/

theorem step_greet (cfg : Config) {bfd : Connection} (hp : s.server = .accepted bfd) :
    ∃ g, step cfg s .greet = some { s with
      server := .greeted bfd g
      toClient := s.toClient ++ cfg.greeting } := by
  simp only [step, hp, greet_eq, Output.data_of]
  exact ⟨_, rfl⟩

/-- The greeting as a whole. -/
def wholeGreeting (cfg : Config) : Packet :=
  ⟨cfg.greeting, cfg.serverAddress, (greetingText_fits ..).le⟩

/-- The answer as a whole. -/
def wholeAnswer (cfg : Config) : Packet :=
  ⟨cfg.answer, cfg.clientAddress, (answerText_fits ..).le⟩

theorem reads_greeting {pending : Bytes} {gone : Prop} (h : cfg.greeting <+: pending) :
    Reads pending gone (some (wholeGreeting cfg)) :=
  have hpos : 0 < cfg.greeting.length := Nat.zero_lt_of_lt (greetingFront_lt cfg)
  ⟨h, fun hnil => absurd hnil (List.ne_nil_of_length_pos hpos)⟩

theorem reads_answer {pending : Bytes} {gone : Prop} (h : cfg.answer <+: pending) :
    Reads pending gone (some (wholeAnswer cfg)) :=
  have hpos : 0 < cfg.answer.length := Nat.zero_lt_of_lt (answerFront_lt cfg)
  ⟨h, fun hnil => absurd hnil (List.ne_nil_of_length_pos hpos)⟩

theorem step_readGreeting {data : Connection} {a : Arrival} (hp : s.client = .connected data)
    (hread : Reads s.toClient s.server.Gone a) :
    step cfg s (.readGreeting a) = some (takeGreeting cfg s data a) := by
  rw [step, hp]
  exact if_pos hread

theorem step_readAnswer {bfd : Connection} {g : Server.Greeted} {a : Arrival}
    (hp : s.server = .greeted bfd g) (hread : Reads s.toServer s.client.Gone a) :
    step cfg s (.readAnswer a) = some (takeAnswer s bfd g a) := by
  rw [step, hp]
  exact if_pos hread

theorem takeAnswer_reads (s : State) (bfd : Connection) (g : Server.Greeted) (a : Arrival) :
    (takeAnswer s bfd g a).answer = some (Arrival.data a) ∧
      (takeAnswer s bfd g a).greeting = s.greeting := by
  unfold takeAnswer
  dsimp only
  split
  next => exact ⟨rfl, rfl⟩
  next => exact ⟨rfl, rfl⟩

/-- A session can begin in step. -/
theorem whole_reads (cfg : Config) (data bfd : Connection) :
    ∃ s, Reachable (step cfg) Any (initial data bfd) s ∧ s.greeting = some cfg.greeting ∧
      s.answer = some cfg.answer := by
  obtain ⟨g, hgreet⟩ : ∃ g, step cfg (initial data bfd) .greet = some { initial data bfd with
      server := .greeted bfd g, toClient := cfg.greeting } := step_greet cfg rfl
  let s1 : State := { initial data bfd with
    server := .greeted bfd g, toClient := cfg.greeting }
  have hclient : step cfg s1 (.readGreeting (some (wholeGreeting cfg)))
      = some (takeGreeting cfg s1 data (some (wholeGreeting cfg))) :=
    step_readGreeting rfl (reads_greeting List.prefix_rfl)
  have hlong : (greetingFront cfg).length < (Arrival.data (some (wholeGreeting cfg))).length :=
    greetingFront_lt cfg
  obtain ⟨session, -, he⟩ := takeGreeting_long s1 data List.prefix_rfl hlong
  let s2 : State := takeGreeting cfg s1 data (some (wholeGreeting cfg))
  have hs2 : s2.server = .greeted bfd g ∧ s2.toServer = cfg.answer ∧
      s2.greeting = some cfg.greeting := by
    simp only [s2, he]
    exact ⟨rfl, rfl, rfl⟩
  obtain ⟨hp, hup, hg⟩ := hs2
  have hserver : step cfg s2 (.readAnswer (some (wholeAnswer cfg)))
      = some (takeAnswer s2 bfd g (some (wholeAnswer cfg))) :=
    step_readAnswer hp (reads_answer (hup ▸ List.prefix_rfl))
  obtain ⟨hanswer, hgreeting⟩ := takeAnswer_reads s2 bfd g (some (wholeAnswer cfg))
  have hr : Reachable (step cfg) Any (initial data bfd) s2 :=
    (Reachable.refl.tail trivial hgreet).tail trivial hclient
  exact ⟨_, hr.tail trivial hserver, hgreeting.trans hg, hanswer⟩

/-! ## How the handshake ends -/

/-- All that the client has written. -/
def clientWritten (cfg : Config) (s : State) : Bytes :=
  match s.client with
  | .running _ _ => cfg.answer ++ s.typed.flatten
  | _ => []

/-- All that the administrator has written. -/
def serverWritten (cfg : Config) (s : State) : Bytes :=
  match s.server with
  | .accepted _ => []
  | _ => cfg.greeting ++ s.shown.flatten

/-- The client, by its read of the greeting. -/
def ClientOutcome (cfg : Config) (s : State) : Prop :=
  match s.greeting with
  | none => ∃ data, s.client = .connected data
  | some g => g <+: cfg.greeting ∧
      if g.length ≤ (greetingFront cfg).length then s.client = .stopped
      else ∃ session sends, s.client = .running session sends ∧
        HasNumber cfg session (power (greetingNumber cfg g) cfg.b2)

/-- The administrator, by its read of the answer. -/
def ServerOutcome (cfg : Config) (s : State) : Prop :=
  match s.answer with
  | none => (∃ bfd, s.server = .accepted bfd) ∨ ∃ bfd g, s.server = .greeted bfd g
  | some q =>
      if q.length ≤ (answerFront cfg).length ∨ q.length = maxCommandLenght then
        s.server = .stopped
      else ∃ session sends K2, s.server = .running session sends ∧
        speedDegreeWithMod (answerNumber cfg q) cfg.a2 publicKeyP = .ok K2 ∧
        HasNumber cfg session K2

/-- Both programs, and what is on the way. -/
structure Outcome (cfg : Config) (s : State) : Prop where
  client : ClientOutcome cfg s
  server : ServerOutcome cfg s
  toServer : s.answer.getD [] ++ s.toServer = clientWritten cfg s
  toClient : s.greeting.getD [] ++ s.toClient = serverWritten cfg s

theorem Ok.outcome (h : Ok cfg s) : Outcome cfg s := by
  obtain ⟨hclient, hserver⟩ := h
  obtain ⟨server, client, toServer, toClient, greeting, answer, typed, shown⟩ := s
  generalize hup : answer.getD [] ++ toServer = up at hclient
  generalize hdown : greeting.getD [] ++ toClient = down at hserver
  constructor
  case client =>
    cases hclient with
    | connected data => exact ⟨data, rfl⟩
    | running hpre hlt hsession =>
        refine ⟨hpre, ?_⟩
        rw [if_neg (Nat.not_le.mpr hlt)]
        exact ⟨_, _, rfl, hsession⟩
    | stopped hpre hle => exact ⟨hpre, by rw [if_pos hle]⟩
  case server =>
    cases hserver with
    | accepted bfd => exact Or.inl ⟨bfd, rfl⟩
    | greeted _ _ => exact Or.inr ⟨_, _, rfl⟩
    | running hlt hfull hK2 hsession =>
        simp only [ServerOutcome]
        rw [if_neg (not_or.mpr ⟨Nat.not_le.mpr hlt, hfull⟩)]
        exact ⟨_, _, _, rfl, hK2, hsession⟩
    | stopped hshort => simp only [ServerOutcome, if_pos hshort]
  case toServer =>
    rw [hup]
    cases hclient with
    | connected data => rfl
    | running _ _ _ => rfl
    | stopped _ _ => rfl
  case toClient =>
    rw [hdown]
    cases hserver with
    | accepted bfd => rfl
    | greeted _ _ => exact (List.append_nil _).symm
    | running _ _ _ _ => rfl
    | stopped _ => exact (List.append_nil _).symm

/-- The two reads decide how the handshake ends, and no byte is lost.  A program stops
exactly when its read does not reach the last number, or when the administrator's fills
the buffer.  The first shared number is the same in both, and the second one comes from
what the read returns of the last number.  What the administrator's returns behind it is
missing from the messages. -/
theorem reads_decide {data bfd : Connection}
    (h : Reachable (step cfg) Any (initial data bfd) s) : Outcome cfg s :=
  (reachable_ok h).outcome

theorem reads_decide_sample : ∃ s : State, s.answer = some Establishment.sample.answer ∧
    Outcome Establishment.sample s := by
  obtain ⟨s, hr, -, ha⟩ := whole_reads Establishment.sample sampleBfd sampleBfd
  exact ⟨s, ha, reads_decide hr⟩

/-! ## Sessions that begin in step -/

/-- Both programs run with the keys of the handshake, and what is on the way are whole
messages. -/
structure InStep (cfg : Config) (s : State) : Prop where
  client : ∃ session sends, s.client = .running session sends ∧ cfg.HasKeys session
  server : ∃ session sends, s.server = .running session sends ∧ cfg.HasKeys session
  toServer : s.toServer = s.typed.flatten
  toClient : s.toClient = s.shown.flatten

theorem greetingNumber_whole (cfg : Config) :
    greetingNumber cfg cfg.greeting = power publicKeyG cfg.a2 := by
  have hle : (decimal (power publicKeyG cfg.a2).toNat).length
      ≤ cfg.greeting.length - ((greetingFront cfg).length + 1) := by
    rw [greeting_eq]
    simp
    omega
  rw [greetingNumber, cutNumber_of_le hle, UInt64.ofNat_toNat]

theorem answerNumber_whole (cfg : Config) :
    answerNumber cfg cfg.answer = power publicKeyG cfg.b2 := by
  have hle : (decimal (power publicKeyG cfg.b2).toNat).length
      ≤ cfg.answer.length - ((answerFront cfg).length + 1) := by
    rw [answer_eq]
    simp
    omega
  rw [answerNumber, if_pos (Nat.le_refl _), cutNumber_of_le hle, UInt64.ofNat_toNat]

/-- With the last number of the other both have the keys of the handshake. -/
theorem HasNumber.hasKeys {session : Connection} {K2 : UInt64} (h : HasNumber cfg session K2)
    (hK2 : K2 = power (power publicKeyG cfg.b2) cfg.a2) : cfg.HasKeys session := by
  subst hK2
  exact ⟨h.key, h.iv⟩

theorem ServerOutcome.whole (h : ServerOutcome cfg s) (hq : s.answer = some cfg.answer) :
    ∃ session sends, s.server = .running session sends ∧ cfg.HasKeys session := by
  have hfull : cfg.answer.length ≠ maxCommandLenght := (answerText_fits ..).ne
  rw [ServerOutcome, hq] at h
  dsimp only at h
  rw [if_neg (not_or.mpr ⟨Nat.not_le.mpr (answerFront_lt cfg), hfull⟩), answerNumber_whole] at h
  obtain ⟨session, sends, K2, hp, hK2, hsession⟩ := h
  rw [speedDegreeWithMod_eq_power (power_lt ..)] at hK2
  exact ⟨session, sends, hp, hsession.hasKeys (Except.ok.inj hK2).symm⟩

theorem ClientOutcome.whole (h : ClientOutcome cfg s) (hg : s.greeting = some cfg.greeting) :
    ∃ session sends, s.client = .running session sends ∧ cfg.HasKeys session := by
  rw [ClientOutcome, hg] at h
  dsimp only at h
  rw [if_neg (Nat.not_le.mpr (greetingFront_lt cfg)), greetingNumber_whole] at h
  obtain ⟨-, session, sends, hp, hsession⟩ := h
  exact ⟨session, sends, hp, hsession.hasKeys (shared_comm ..)⟩

/-- A session begins in step exactly when the client's read returns the greeting and the
administrator's the answer, no less and no more. -/
theorem in_step_iff {data bfd : Connection}
    (h : Reachable (step cfg) Any (initial data bfd) s) :
    InStep cfg s ↔ s.greeting = some cfg.greeting ∧ s.answer = some cfg.answer := by
  have hok := reachable_ok h
  have hclient := hok.client
  have hserver := hok.server
  constructor
  · rintro ⟨⟨session, sends, hc, -⟩, ⟨session', sends', hp, -⟩, hup, hdown⟩
    rw [hc] at hclient
    rw [hp] at hserver
    obtain ⟨g, hg, -, -, -, hwritten⟩ := hclient.of_running
    obtain ⟨q, K2, hq, -, -, -, -, hwritten'⟩ := hserver.of_running
    rw [hq, hup, Option.getD_some, List.append_cancel_right_eq] at hwritten
    rw [hg, hdown, Option.getD_some, List.append_cancel_right_eq] at hwritten'
    exact ⟨hwritten' ▸ hg, hwritten ▸ hq⟩
  · rintro ⟨hg, hq⟩
    obtain ⟨session, sends, hc, hkeys⟩ := hok.outcome.client.whole hg
    obtain ⟨session', sends', hp, hkeys'⟩ := hok.outcome.server.whole hq
    rw [hc] at hclient
    rw [hp] at hserver
    obtain ⟨g, -, -, -, -, hwritten⟩ := hclient.of_running
    obtain ⟨q, K2, -, -, -, -, -, hwritten'⟩ := hserver.of_running
    rw [hq, Option.getD_some, List.append_cancel_left_eq] at hwritten
    rw [hg, Option.getD_some, List.append_cancel_left_eq] at hwritten'
    exact ⟨⟨session, sends, hc, hkeys⟩, ⟨session', sends', hp, hkeys'⟩, hwritten, hwritten'⟩

theorem in_step_iff_sample : ∃ s, InStep Establishment.sample s := by
  obtain ⟨s, hr, hreads⟩ := whole_reads Establishment.sample sampleBfd sampleBfd
  exact ⟨s, (in_step_iff hr).mpr hreads⟩

/-! ## The handshake comes to its end -/

/-- The steps of the handshake alone. -/
def handshake (cfg : Config) (s : State) : Action → Option State
  | .greet => step cfg s .greet
  | .readGreeting a => step cfg s (.readGreeting a)
  | .readAnswer a => step cfg s (.readAnswer a)
  | .typed _ => none
  | .shellOutput _ => none

/-- Neither program is in the handshake any more. -/
structure Done (s : State) : Prop where
  client : ∀ data, s.client ≠ .connected data
  accepted : ∀ bfd, s.server ≠ .accepted bfd
  greeted : ∀ bfd g, s.server ≠ .greeted bfd g

/-- How many steps of the handshake are left at most. -/
def left (s : State) : Nat :=
  (match s.server with
    | .accepted _ => 2
    | .greeted _ _ => 1
    | _ => 0) +
  match s.client with
    | .connected _ => 1
    | _ => 0

/-- As long as the handshake is not done, a step of it is possible. -/
theorem Ok.exists_handshake (h : Ok cfg s) (hs : ∀ a, handshake cfg s a = none) : Done s := by
  have haccepted : ∀ bfd, s.server ≠ .accepted bfd := by
    intro bfd hp
    obtain ⟨g, hg⟩ := step_greet cfg hp
    have hnone : step cfg s .greet = none := hs .greet
    rw [hg] at hnone
    cases hnone
  have hclient : ∀ data, s.client ≠ .connected data := by
    intro data hc
    have heq := h.greeting_there hc haccepted
    have hthere : cfg.greeting <+: s.toClient := heq ▸ List.prefix_rfl
    have hnone := hs (.readGreeting (some (wholeGreeting cfg)))
    rw [handshake, step_readGreeting hc (reads_greeting hthere)] at hnone
    cases hnone
  refine ⟨hclient, haccepted, fun bfd g hp => ?_⟩
  rcases h.answer_there hclient hp with ⟨hgone, -⟩ | heq
  · have hread : Reads s.toServer s.client.Gone none := hgone
    have hnone := hs (.readAnswer none)
    rw [handshake, step_readAnswer hp hread] at hnone
    cases hnone
  · have hthere : cfg.answer <+: s.toServer := heq ▸ List.prefix_append ..
    have hnone := hs (.readAnswer (some (wholeAnswer cfg)))
    rw [handshake, step_readAnswer hp (reads_answer hthere)] at hnone
    cases hnone

theorem left_handshake (h : Ok cfg s) (hs : handshake cfg s a = some s') :
    Ok cfg s' ∧ left s' < left s := by
  have hstep : step cfg s a = some s' := by
    cases a with
    | greet => exact hs
    | readGreeting a => exact hs
    | readAnswer a => exact hs
    | typed c => cases hs
    | shellOutput c => cases hs
  refine ⟨step_ok h hstep, ?_⟩
  cases a with
  | greet =>
      rw [step] at hstep
      split at hstep
      next bfd hp =>
        rw [greet_eq] at hstep
        cases hstep
        simp only [left, hp]
        omega
      next => cases hstep
  | readGreeting a =>
      rw [step] at hstep
      split at hstep
      next data hp =>
        split at hstep
        next hread =>
          cases hstep
          have hpre := h.greeting_isPrefix hp hread
          rcases Nat.lt_or_ge (greetingFront cfg).length (Arrival.data a).length with hlt | hle
          · obtain ⟨session, -, he⟩ := takeGreeting_long s data hpre hlt
            simp [left, he, hp]
          · simp [left, takeGreeting_short hpre hle, hp]
        next => cases hstep
      next => cases hstep
  | readAnswer a =>
      rw [step] at hstep
      split at hstep
      next bfd g hp =>
        split at hstep
        next hread =>
          cases hstep
          unfold takeAnswer
          dsimp only
          split
          next => simp [left, hp]
          next => simp [left, hp]
        next => cases hstep
      next => cases hstep
  | typed c => cases hs
  | shellOutput c => cases hs

/-- From every state that a run reaches the handshake comes to its end, whatever the
reads return. -/
theorem finishes {data bfd : Connection}
    (h : Reachable (step cfg) Any (initial data bfd) s) : Ends (handshake cfg) Done s :=
  Ends.of_measure left left_handshake Ok.exists_handshake (reachable_ok h)

theorem finishes_sample :
    Ends (handshake Establishment.sample) Done (initial sampleBfd sampleBfd) :=
  finishes .refl

end TcpHandshake

end ServerSsh

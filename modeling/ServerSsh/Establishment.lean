import ServerSsh.Boundaries
import ServerSsh.Replay

/-!
# The handshake over a network

The client and the administrator of `UdpSession`, joined by a network that keeps
every datagram and hands it over late, twice, out of order or never.  The client
has sent the opening datagram of `Generetion_keys`, and the administrator waits for
a first datagram.

None of the datagrams of the handshake is sent twice, and no datagram says what it
is: the administrator takes the second one that it gets as the answer.  So all
depends on which one that is (`Outcome`).  The answer of the client makes both
programs go on with the same keys, the opening datagram ends the administrator,
and otherwise it was a message of the session that was read as an answer.
-/

namespace ServerSsh

open Libc Transition

/-- The opening datagram of `Generetion_keys`. -/
def hey : Bytes := ascii "@Hey admin!\n"

/-- What a client sends in a step. -/
def Client.sends (cfg : Client.Config) (s : Client.State) : Client.Action → List Bytes
  | .datagram p =>
      match s.phase with
      | .started bfd =>
          match preparingNumeralKeys .udp bfd cfg.rand1 cfg.rand2 (some p) with
          | .ok c => [c.call.data]
          | .error _ => []
      | _ => []
  | .typed c =>
      match s.phase with
      | .running (some reader) _ =>
          match relayInput cfg.E .udp reader c with
          | .ok sent => [sent.call.data]
          | .error _ => []
      | _ => []

/-- What an administrator sends in a step. -/
def Administraitor.sends (cfg : Administraitor.Config) (s : Administraitor.State) :
    Administraitor.Action → List Bytes
  | .datagram p _ =>
      match s.phase with
      | .waiting bfd =>
          let bfd := { bfd with client := Arrival.peer .udp bfd.client (some p) }
          match Server.greet .udp bfd cfg.rand1 cfg.rand2 with
          | .ok g => [g.call.data]
          | .error _ => []
      | _ => []
  | .shellOutput c =>
      match s.phase with
      | .running _ (some sender) =>
          match Server.relayOutput cfg.E .udp sender c with
          | .ok sent => [sent.call.data]
          | .error _ => []
      | _ => []

namespace Establishment

/-- What does not change. -/
structure Config where
  client : Client.Config
  server : Administraitor.Config
  clientAddress : SockaddrIn
  serverAddress : SockaddrIn

/-- The two programs, and the datagrams that they have sent. -/
structure State where
  client : Client.State
  server : Administraitor.State
  toServer : List Bytes
  toClient : List Bytes
  /-- The datagram that the administrator has taken as the answer. -/
  answered : Option Nat

/-- The client has sent its opening datagram. -/
def initial (conData bfd : Connection) : State :=
  ⟨Client.initial conData, Administraitor.initial bfd, [hey], [], none⟩

/-- What may happen. -/
inductive Action where
  /-- The network hands a datagram of the client to the administrator.  `goesOn` tells
  whether the receiver goes on after an empty message. -/
  | toServer (i : Nat) (p : Packet) (goesOn : Bool)
  /-- The network hands a datagram of the administrator to the client. -/
  | toClient (i : Nat) (p : Packet)
  | typed (c : Chunk)
  | shellOutput (c : Chunk)

/-- The client does something. -/
def clientStep (cfg : Config) (s : State) (a : Client.Action) : Option State :=
  (Client.step cfg.client s.client a).map fun client =>
    { s with
      client := client
      toServer := s.toServer ++ Client.sends cfg.client s.client a }

/-- The administrator does something. -/
def serverStep (cfg : Config) (s : State) (a : Administraitor.Action) : Option State :=
  (Administraitor.step cfg.server s.server a).map fun server =>
    { s with
      server := server
      toClient := s.toClient ++ Administraitor.sends cfg.server s.server a }

/-- The datagram that is taken as the answer once the administrator takes the given
one. -/
def answered (s : State) (i : Nat) : Option Nat :=
  match s.server.phase with
  | .greeted _ _ => some i
  | _ => s.answered

/-- A step. -/
def step (cfg : Config) (s : State) : Action → Option State
  | .toServer i p goesOn =>
      if s.toServer[i]? = some p.data ∧ p.source = cfg.clientAddress then
        serverStep cfg { s with answered := answered s i } (.datagram p goesOn)
      else none
  | .toClient i p =>
      if s.toClient[i]? = some p.data ∧ p.source = cfg.serverAddress then
        clientStep cfg s (.datagram p)
      else none
  | .typed c => clientStep cfg s (.typed c)
  | .shellOutput c => serverStep cfg s (.shellOutput c)

/-! ## The numbers of the handshake -/

namespace Config

variable (cfg : Config)

/-- The exponents of the administrator. -/
def a1 : UInt64 := exponent cfg.server.rand1
def a2 : UInt64 := exponent cfg.server.rand2

/-- The exponents of the client. -/
def b1 : UInt64 := exponent cfg.client.rand1
def b2 : UInt64 := exponent cfg.client.rand2

/-- The text of the administrator. -/
def greeting : Bytes :=
  greetingText publicKeyP publicKeyG (power publicKeyG cfg.a1) (power publicKeyG cfg.a2)

/-- The text of the client. -/
def answer : Bytes := answerText (power publicKeyG cfg.b1) (power publicKeyG cfg.b2)

/-- A record with the keys that both programs compute from these texts. -/
structure HasKeys (bfd : Connection) : Prop where
  key : bfd.key = keyBuf (power (power publicKeyG cfg.b1) cfg.a1)
    (power (power publicKeyG cfg.b2) cfg.a2)
  iv : bfd.iv = ivBuf (power (power publicKeyG cfg.b1) cfg.a1)
    (power (power publicKeyG cfg.b2) cfg.a2)

/-- A datagram with a message of the client. -/
def IsMessage (d : Bytes) : Prop :=
  ∃ bfd m, cfg.HasKeys bfd ∧ d = cut (ciphertext cfg.client.E bfd m)

end Config

variable {cfg : Config} {s s' : State} {a : Action}

/-! ## The two texts -/

/-- A record after the key set-up with the numbers of the two texts. -/
theorem keySetUp_hasKeys (bfd : Connection) :
    ∃ session, keySetUp bfd (power (power publicKeyG cfg.b1) cfg.a1)
      (power (power publicKeyG cfg.b2) cfg.a2) = .ok session ∧ cfg.HasKeys session :=
  ⟨_, keySetUp_eq .., rfl, rfl⟩

/-- What the client makes of the text of the administrator. -/
theorem preparingNumeralKeys_greeting (bfd : Connection) {p : Packet}
    (hp : p.data = cfg.greeting) :
    ∃ c, Client.preparingNumeralKeys .udp bfd cfg.client.rand1 cfg.client.rand2 (some p) = .ok c ∧
      c.call.data = cfg.answer ∧ c.K1 = power (power publicKeyG cfg.b1) cfg.a1 ∧
        c.K2 = power (power publicKeyG cfg.b2) cfg.a2 := by
  have h := Client.preparingNumeralKeys_eq .udp bfd cfg.client.rand1 cfg.client.rand2
    (power_lt publicKeyG cfg.a1) (power_lt publicKeyG cfg.a2) hp
  refine ⟨_, h, ?_, shared_comm .., shared_comm ..⟩
  dsimp only
  rw [Output.data_of]
  rfl

theorem client_keysOf (bfd : Connection) {p : Packet} (hp : p.data = cfg.greeting) :
    ∃ session, Client.keysOf cfg.client bfd p = .ok session ∧ cfg.HasKeys session := by
  obtain ⟨c, hc, -, h1, h2⟩ := preparingNumeralKeys_greeting bfd hp
  rw [Client.keysOf, hc, ok_bind, h1, h2]
  exact keySetUp_hasKeys c.bfd

/-- What the administrator makes of the text of the client. -/
theorem server_keysOf (bfd : Connection) {g : Server.Greeted} {p : Packet}
    (h1 : g.a1 = cfg.a1) (h2 : g.a2 = cfg.a2) (hp : p.data = cfg.answer) :
    ∃ session, Administraitor.keysOf bfd g p = .ok session ∧ cfg.HasKeys session := by
  have h := Server.readAnswer_eq .udp bfd g (power_lt publicKeyG cfg.b1)
    (power_lt publicKeyG cfg.b2) hp
  rw [h1, h2] at h
  rw [Administraitor.keysOf, h, ok_bind]
  exact keySetUp_hasKeys _

/-- The opening datagram is no answer. -/
theorem hey_not_answer : ¬ IsAnswer hey := by decide

theorem answer_isAnswer : IsAnswer cfg.answer := by
  let p : Packet := ⟨cfg.answer, cfg.clientAddress, (answerText_fits ..).le⟩
  let g : Server.Greeted := ⟨cfg.a1, cfg.a2, 0, 0, .write 0 []⟩
  have h : ∃ session, Administraitor.keysOf sampleBfd g p = .ok session ∧ cfg.HasKeys session :=
    server_keysOf sampleBfd rfl rfl rfl
  obtain ⟨session, h, -⟩ := h
  exact (Administraitor.keysOf_ok_iff _ _ p).mp ⟨session, h⟩

/-! ## What every run keeps -/

/-- The client, by the datagrams that it has sent. -/
inductive ClientOk (cfg : Config) (toClient : List Bytes) :
    Client.Phase → List Bytes → Prop where
  | started (bfd : Connection) : ClientOk cfg toClient (.started bfd) [hey]
  | running {reader writer : Option Connection} {rest : List Bytes} :
      (∀ bfd ∈ reader, cfg.HasKeys bfd) → (∀ bfd ∈ writer, cfg.HasKeys bfd) → toClient ≠ [] →
      (∀ d ∈ rest, cfg.IsMessage d) →
      ClientOk cfg toClient (.running reader writer) (hey :: cfg.answer :: rest)

/-- The administrator, by the datagram that it has taken as the answer, and by the
datagrams that it has sent. -/
inductive ServerOk (cfg : Config) (toServer : List Bytes) :
    Administraitor.Phase → Option Nat → List Bytes → Prop where
  | waiting (bfd : Connection) : ServerOk cfg toServer (.waiting bfd) none []
  | greeted {bfd : Connection} {g : Server.Greeted} : g.a1 = cfg.a1 → g.a2 = cfg.a2 →
      ServerOk cfg toServer (.greeted bfd g) none [cfg.greeting]
  | running {receiver sender : Option Connection} {i : Nat} {d : Bytes} {rest : List Bytes} :
      toServer[i]? = some d → IsAnswer d →
      (i = 1 → (∀ bfd ∈ receiver, cfg.HasKeys bfd) ∧ ∀ bfd ∈ sender, cfg.HasKeys bfd) →
      ServerOk cfg toServer (.running receiver sender) (some i) (cfg.greeting :: rest)
  | stopped {i : Nat} {d : Bytes} : toServer[i]? = some d → ¬ IsAnswer d →
      ServerOk cfg toServer .stopped (some i) [cfg.greeting]

/-- Both programs. -/
structure Ok (cfg : Config) (s : State) : Prop where
  client : ClientOk cfg s.toClient s.client.phase s.toServer
  server : ServerOk cfg s.toServer s.server.phase s.answered s.toClient

theorem ok_initial (conData bfd : Connection) : Ok cfg (initial conData bfd) :=
  ⟨.started conData, .waiting bfd⟩

theorem ClientOk.mono {toClient more : List Bytes} {phase : Client.Phase} {toServer : List Bytes}
    (h : ClientOk cfg toClient phase toServer) :
    ClientOk cfg (toClient ++ more) phase toServer := by
  cases h with
  | started bfd => exact .started bfd
  | running hreader hwriter hne hrest =>
      exact .running hreader hwriter (List.append_ne_nil_of_left_ne_nil hne more) hrest

theorem ServerOk.mono {toServer more : List Bytes} {phase : Administraitor.Phase}
    {answered : Option Nat} {toClient : List Bytes}
    (h : ServerOk cfg toServer phase answered toClient) :
    ServerOk cfg (toServer ++ more) phase answered toClient := by
  have hget : ∀ {i d}, toServer[i]? = some d → (toServer ++ more)[i]? = some d := fun hd => by
    rw [List.getElem?_append_left (List.getElem?_eq_some_iff.mp hd).1, hd]
  cases h with
  | waiting bfd => exact .waiting bfd
  | greeted h1 h2 => exact .greeted h1 h2
  | running hd hanswer hkeys => exact .running (hget hd) hanswer hkeys
  | stopped hd hanswer => exact .stopped (hget hd) hanswer

/-- A client without keys has sent nothing that can be taken as an answer. -/
theorem Ok.not_running {conData : Connection} (h : Ok cfg s)
    (hp : s.client.phase = .started conData) (receiver sender : Option Connection) :
    s.server.phase ≠ .running receiver sender := by
  intro hrunning
  obtain ⟨hclient, hserver⟩ := h
  rw [hp] at hclient
  rw [hrunning] at hserver
  generalize s.toServer = toServer at hclient hserver
  generalize s.answered = answered at hserver
  generalize s.toClient = toClient at hclient hserver
  cases hclient with
  | started bfd =>
      cases hserver with
      | @running _ _ i d rest hd hanswer hkeys =>
          obtain ⟨hi, rfl⟩ := List.getElem?_eq_some_iff.mp hd
          rw [List.length_singleton, Nat.lt_one_iff] at hi
          subst hi
          exact hey_not_answer hanswer

/-- As long as the client has no keys, the administrator has sent nothing but its
greeting. -/
theorem Ok.toClient_of_started {bfd : Connection} (h : Ok cfg s)
    (hp : s.client.phase = .started bfd) : s.toClient = [] ∨ s.toClient = [cfg.greeting] := by
  have hnot := h.not_running hp
  have hserver := h.server
  generalize s.server.phase = phase at hserver hnot
  generalize s.answered = answered at hserver
  generalize s.toClient = toClient at hserver ⊢
  cases hserver with
  | waiting bfd => exact Or.inl rfl
  | greeted _ _ => exact Or.inr rfl
  | running _ _ _ => exact absurd rfl (hnot _ _)
  | stopped _ _ => exact Or.inr rfl

/-! ## The steps of the client -/

theorem HasKeys.client_getMessage {E : Evp.Cipher} {bfd : Connection} {a : Arrival} {got : Got}
    (h : cfg.HasKeys bfd) (hgot : Client.getMessage E .udp bfd a = .ok got) :
    cfg.HasKeys got.bfd := by
  rw [Client.getMessage_eq] at hgot
  obtain ⟨r, -, rfl⟩ := map_eq_ok.mp hgot
  exact ⟨h.key, h.iv⟩

theorem HasKeys.server_getMessage {E : Evp.Cipher} {bfd : Connection} {a : Arrival} {got : Got}
    (h : cfg.HasKeys bfd) (hgot : Server.getMessage E .udp bfd a = .ok got) :
    cfg.HasKeys got.bfd := by
  rw [Server.getMessage_eq] at hgot
  obtain ⟨r, -, rfl⟩ := map_eq_ok.mp hgot
  exact ⟨h.key, h.iv⟩

/-- The first datagram that the client takes is the greeting. -/
theorem ok_greeting {bfd : Connection} {i : Nat} {p : Packet} (h : Ok cfg s)
    (hp : s.client.phase = .started bfd) (hget : s.toClient[i]? = some p.data) :
    p.data = cfg.greeting ∧ s.toClient = [cfg.greeting] := by
  rcases h.toClient_of_started hp with hnil | hone
  · rw [hnil] at hget
    cases hget
  · rw [hone] at hget
    obtain ⟨hi, hd⟩ := List.getElem?_eq_some_iff.mp hget
    rw [List.length_singleton, Nat.lt_one_iff] at hi
    subst hi
    exact ⟨hd.symm, hone⟩

theorem client_takes {i : Nat} {p : Packet} (h : Ok cfg s)
    (hget : s.toClient[i]? = some p.data) (hs : clientStep cfg s (.datagram p) = some s') :
    Ok cfg s' := by
  obtain ⟨client, hclient, rfl⟩ := Option.map_eq_some_iff.mp hs
  have hok := h.client
  cases hp : s.client.phase with
  | started bfd =>
      obtain ⟨hdata, hone⟩ := ok_greeting h hp hget
      obtain ⟨c, hc, hcall, -⟩ := preparingNumeralKeys_greeting bfd hdata
      obtain ⟨session, hsession, hkeys⟩ := client_keysOf bfd hdata
      have hsends : Client.sends cfg.client s.client (.datagram p) = [cfg.answer] := by
        rw [Client.sends, hp]
        dsimp only
        rw [hc, ← hcall]
      rw [Client.step, hp] at hclient
      cases hclient
      have hafter : Client.greetingDatagram cfg.client s.client bfd p
          = ⟨.running (some session) (some session),
              .keysFrom p.source :: .stored p.source :: s.client.log⟩ := by
        rw [Client.greetingDatagram, hsession]
      rw [hp] at hok
      rw [hsends, hafter]
      refine ⟨?_, h.server.mono⟩
      generalize s.toServer = toServer at hok
      cases hok with
      | started bfd =>
          have hne : s.toClient ≠ [] := by
            rw [hone]
            exact List.cons_ne_nil _ _
          refine .running ?_ ?_ hne (List.forall_mem_nil _)
          · rintro _ ⟨⟩
            exact hkeys
          · rintro _ ⟨⟩
            exact hkeys
  | running reader writer =>
      have hsends : Client.sends cfg.client s.client (.datagram p) = [] := by
        rw [Client.sends, hp]
      rw [hsends, List.append_nil]
      refine ⟨?_, h.server⟩
      rw [hp] at hok
      rw [Client.step, hp] at hclient
      cases writer with
      | none => cases hclient
      | some writer =>
          cases hclient
          generalize s.toServer = toServer at hok ⊢
          cases hok with
          | running hreader hwriter hne hrest =>
              unfold Client.laterDatagram
              split
              next got hgot =>
                refine .running hreader ?_ hne hrest
                rintro _ ⟨⟩
                exact HasKeys.client_getMessage (hwriter writer rfl) hgot
              next =>
                refine .running hreader ?_ hne hrest
                rintro _ ⟨⟩
  | stopped =>
      rw [Client.step, hp] at hclient
      cases hclient

theorem client_types {c : Chunk} (h : Ok cfg s) (hs : clientStep cfg s (.typed c) = some s') :
    Ok cfg s' := by
  obtain ⟨client, hclient, rfl⟩ := Option.map_eq_some_iff.mp hs
  have hok := h.client
  cases hp : s.client.phase with
  | started bfd =>
      rw [Client.step, hp] at hclient
      cases hclient
  | running reader writer =>
      rw [hp] at hok
      rw [Client.step, hp] at hclient
      cases reader with
      | none => cases hclient
      | some reader =>
          cases hclient
          refine ⟨?_, h.server.mono⟩
          rw [Client.sends, hp]
          dsimp only
          generalize s.toServer = toServer at hok ⊢
          cases hok with
          | @running _ _ rest hreader hwriter hne hrest =>
              cases hrelay : Client.relayInput cfg.client.E .udp reader c with
              | ok sent =>
                  have hsent : Direction.toServer.send cfg.client.E .udp reader c.buffer
                    = .ok sent := hrelay
                  obtain ⟨-, hdata, -⟩ := Direction.send_ok hsent
                  rw [Client.sendInput, hrelay]
                  refine .running hreader hwriter hne fun d hd => ?_
                  rcases List.mem_append.mp hd with hd | hd
                  · exact hrest d hd
                  · rw [List.mem_singleton.mp hd]
                    exact ⟨reader, _, hreader reader rfl, hdata⟩
              | error f =>
                  rw [Client.sendInput, hrelay]
                  dsimp only
                  rw [List.append_nil]
                  refine .running ?_ hwriter hne hrest
                  rintro _ ⟨⟩
  | stopped =>
      rw [Client.step, hp] at hclient
      cases hclient

/-! ## The steps of the administrator -/

/-- The second datagram of the client is its answer. -/
theorem ClientOk.second {toClient : List Bytes} {phase : Client.Phase} {toServer : List Bytes}
    {d : Bytes} (h : ClientOk cfg toClient phase toServer) (hd : toServer[1]? = some d) :
    d = cfg.answer := by
  cases h with
  | started bfd => cases hd
  | running _ _ _ _ => exact (Option.some.inj hd).symm

theorem server_takes {i : Nat} {p : Packet} {goesOn : Bool} (h : Ok cfg s)
    (hget : s.toServer[i]? = some p.data)
    (hs : serverStep cfg { s with answered := answered s i } (.datagram p goesOn) = some s') :
    Ok cfg s' := by
  obtain ⟨server, hserver, rfl⟩ := Option.map_eq_some_iff.mp hs
  have hok := h.server
  dsimp only at hserver ⊢
  cases hp : s.server.phase with
  | waiting bfd =>
      have hgreet := greet_eq .udp { bfd with client := Arrival.peer .udp bfd.client (some p) }
        cfg.server.rand1 cfg.server.rand2
      rw [hp] at hok
      rw [Administraitor.step, hp] at hserver
      cases hserver
      refine ⟨h.client.mono, ?_⟩
      rw [Administraitor.sends, hp, Administraitor.firstDatagram, answered, hp]
      dsimp only at hgreet ⊢
      rw [hgreet]
      generalize s.toClient = toClient at hok ⊢
      generalize s.answered = answer at hok ⊢
      cases hok with
      | waiting bfd =>
          dsimp only
          rw [Output.data_of]
          exact .greeted rfl rfl
  | greeted bfd g =>
      rw [hp] at hok
      rw [Administraitor.step, hp] at hserver
      cases hserver
      rw [Administraitor.sends, hp, answered, hp]
      dsimp only
      rw [List.append_nil]
      refine ⟨h.client, ?_⟩
      have hiff := Administraitor.keysOf_ok_iff bfd g p
      have hsecond : i = 1 → p.data = cfg.answer := fun hi => h.client.second (hi ▸ hget)
      dsimp only
      generalize s.toClient = toClient at hok ⊢
      generalize s.answered = answer at hok
      cases hok with
      | greeted h1 h2 =>
          unfold Administraitor.secondDatagram
          split
          next session hk =>
            refine .running hget (hiff.mp ⟨session, hk⟩) fun hi => ?_
            obtain ⟨session', hk', hkeys⟩ := server_keysOf bfd h1 h2 (hsecond hi)
            cases hk.symm.trans hk'
            exact ⟨fun b hb => Option.some.inj hb ▸ hkeys, fun b hb => Option.some.inj hb ▸ hkeys⟩
          next f hk =>
            refine .stopped hget fun hanswer => ?_
            obtain ⟨session, hk'⟩ := hiff.mpr hanswer
            cases hk.symm.trans hk'
  | running receiver sender =>
      rw [hp] at hok
      rw [Administraitor.step, hp] at hserver
      rw [Administraitor.sends, hp, answered, hp]
      cases receiver with
      | none => cases hserver
      | some receiver =>
          cases hserver
          dsimp only
          rw [List.append_nil]
          refine ⟨h.client, ?_⟩
          dsimp only
          generalize s.toClient = toClient at hok ⊢
          generalize s.answered = answer at hok ⊢
          cases hok with
          | running hd hanswer hkeys =>
              unfold Administraitor.laterDatagram
              split
              next f hgot =>
                refine .running hd hanswer fun hi => ⟨?_, (hkeys hi).2⟩
                rintro _ ⟨⟩
              next got hgot =>
                have hbfd : ∀ hi, cfg.HasKeys got.bfd := fun hi =>
                  HasKeys.server_getMessage ((hkeys hi).1 receiver rfl) hgot
                split
                next written hwritten =>
                  refine .running hd hanswer fun hi => ⟨?_, (hkeys hi).2⟩
                  rintro _ ⟨⟩
                  exact hbfd hi
                next f hwritten =>
                  refine .running hd hanswer fun hi => ⟨fun b hb => ?_, (hkeys hi).2⟩
                  split at hb
                  next =>
                    cases hb
                    exact hbfd hi
                  next => cases hb
  | stopped =>
      rw [Administraitor.step, hp] at hserver
      cases hserver

theorem server_outputs {c : Chunk} (h : Ok cfg s)
    (hs : serverStep cfg s (.shellOutput c) = some s') : Ok cfg s' := by
  obtain ⟨server, hserver, rfl⟩ := Option.map_eq_some_iff.mp hs
  have hok := h.server
  rw [Administraitor.step] at hserver
  split at hserver
  next receiver sender hp =>
    cases hserver
    rw [hp] at hok
    refine ⟨h.client.mono, ?_⟩
    dsimp only
    generalize s.toClient = toClient at hok ⊢
    generalize s.answered = answer at hok ⊢
    cases hok with
    | running hd hanswer hkeys =>
        rw [List.cons_append]
        unfold Administraitor.sendOutput
        split
        next sent hsent => exact .running hd hanswer hkeys
        next f hsent =>
          refine .running hd hanswer fun hi => ⟨(hkeys hi).1, ?_⟩
          rintro _ ⟨⟩
  next => cases hserver

/-! ## Runs -/

theorem step_ok (h : Ok cfg s) (hs : step cfg s a = some s') : Ok cfg s' := by
  cases a with
  | toServer i p goesOn =>
      rw [step] at hs
      split at hs
      next hget => exact server_takes h hget.1 hs
      next => cases hs
  | toClient i p =>
      rw [step] at hs
      split at hs
      next hget => exact client_takes h hget.1 hs
      next => cases hs
  | typed c => exact client_types h hs
  | shellOutput c => exact server_outputs h hs

theorem Ok.reachable {ok : State → Action → Prop} (h : Ok cfg s)
    (hr : Reachable (step cfg) ok s s') : Ok cfg s' :=
  hr.invariant h fun hp _ hs => step_ok hp hs

theorem reachable_ok {conData bfd : Connection} {ok : State → Action → Prop}
    (h : Reachable (step cfg) ok (initial conData bfd) s) : Ok cfg s :=
  (ok_initial conData bfd).reachable h

/-! ## What becomes of a handshake -/

/-- Both programs have forked, and their processes have the keys. -/
def Agreed (cfg : Config) (s : State) : Prop :=
  ∃ reader writer receiver sender, s.client.phase = .running reader writer ∧
    s.server.phase = .running receiver sender ∧
    (∀ bfd ∈ reader, cfg.HasKeys bfd) ∧ (∀ bfd ∈ writer, cfg.HasKeys bfd) ∧
    (∀ bfd ∈ receiver, cfg.HasKeys bfd) ∧ ∀ bfd ∈ sender, cfg.HasKeys bfd

/-- What follows from the datagram that the administrator has taken as the answer. -/
def Outcome (cfg : Config) (s : State) : Prop :=
  match s.answered with
  | none => (∃ bfd, s.server.phase = .waiting bfd) ∨ ∃ bfd g, s.server.phase = .greeted bfd g
  | some 0 => s.server.phase = .stopped
  | some 1 => Agreed cfg s
  | some i => ∃ d, s.toServer[i]? = some d ∧ cfg.IsMessage d ∧
      (s.server.phase = .stopped ↔ ¬ IsAnswer d)

theorem ClientOk.keys {toClient toServer : List Bytes} {reader writer : Option Connection}
    (h : ClientOk cfg toClient (.running reader writer) toServer) :
    (∀ bfd ∈ reader, cfg.HasKeys bfd) ∧ ∀ bfd ∈ writer, cfg.HasKeys bfd := by
  cases h with
  | running hreader hwriter _ _ => exact ⟨hreader, hwriter⟩

/-- The datagrams after the first need the client's keys. -/
theorem ClientOk.running_of_get {toClient toServer : List Bytes} {phase : Client.Phase} {i : Nat}
    {d : Bytes} (h : ClientOk cfg toClient phase toServer) (hd : toServer[i + 1]? = some d) :
    ∃ reader writer, phase = .running reader writer := by
  cases h with
  | started bfd => cases hd
  | @running reader writer _ _ _ _ _ => exact ⟨reader, writer, rfl⟩

theorem ClientOk.message {toClient toServer : List Bytes} {phase : Client.Phase} {i : Nat}
    {d : Bytes} (h : ClientOk cfg toClient phase toServer) (hd : toServer[i + 2]? = some d) :
    cfg.IsMessage d := by
  cases h with
  | started bfd => cases hd
  | running _ _ _ hrest => exact hrest d (List.mem_of_getElem? hd)

theorem ClientOk.first {toClient toServer : List Bytes} {phase : Client.Phase}
    (h : ClientOk cfg toClient phase toServer) : toServer[0]? = some hey := by
  cases h with
  | started bfd => rfl
  | running _ _ _ _ => rfl

theorem ClientOk.first_not_answer {toClient toServer : List Bytes} {phase : Client.Phase}
    {d : Bytes} (h : ClientOk cfg toClient phase toServer) (hd : toServer[0]? = some d) :
    ¬ IsAnswer d := by
  cases Option.some.inj (h.first.symm.trans hd)
  exact hey_not_answer

theorem Ok.outcome (h : Ok cfg s) : Outcome cfg s := by
  obtain ⟨hclient, hserver⟩ := h
  unfold Outcome Agreed
  revert hserver
  generalize s.server.phase = phase
  generalize s.answered = answered
  generalize s.toClient = toClient at hclient
  intro hserver
  cases hserver with
  | waiting bfd => exact Or.inl ⟨bfd, rfl⟩
  | greeted _ _ => exact Or.inr ⟨_, _, rfl⟩
  | @running receiver sender i d rest hd hanswer hkeys =>
      match i, hd, hkeys with
      | 0, hd, _ => exact absurd hanswer (hclient.first_not_answer hd)
      | 1, hd, hkeys =>
          obtain ⟨reader, writer, hp⟩ := hclient.running_of_get hd
          rw [hp] at hclient
          obtain ⟨hreader, hwriter⟩ := hclient.keys
          obtain ⟨hreceiver, hsender⟩ := hkeys rfl
          exact ⟨reader, writer, receiver, sender, hp, rfl, hreader, hwriter, hreceiver, hsender⟩
      | i + 2, hd, _ => exact ⟨d, hd, hclient.message hd, by simp [hanswer]⟩
  | @stopped i d hd hanswer =>
      match i, hd with
      | 0, _ => rfl
      | 1, hd => exact absurd (hclient.second hd ▸ answer_isAnswer) hanswer
      | i + 2, hd => exact ⟨d, hd, hclient.message hd, by simp [hanswer]⟩

/-- Whatever the network does, the client never stops on the way to its keys, and they
are those that the administrator computes from its answer.  The administrator agrees
exactly when that answer is what it takes second. -/
theorem handshake_outcome {conData bfd : Connection}
    (h : Reachable (step cfg) Any (initial conData bfd) s) :
    s.client.phase ≠ .stopped ∧
      (∀ reader writer, s.client.phase = .running reader writer →
        (∀ b ∈ reader, cfg.HasKeys b) ∧ ∀ b ∈ writer, cfg.HasKeys b) ∧
      Outcome cfg s := by
  have hok := reachable_ok h
  refine ⟨fun hp => ?_, fun reader writer hp => ?_, hok.outcome⟩
  · have hclient := hok.client
    rw [hp] at hclient
    cases hclient
  · have hclient := hok.client
    rw [hp] at hclient
    exact hclient.keys

/-! ## Lost datagrams -/

/-- The datagrams of a handshake. -/
inductive Lost where
  | hey
  | greeting
  | answer

/-- The network does not hand over the datagram. -/
def Avoids : Lost → State → Action → Prop
  | .hey, _, a => ∀ p goesOn, a ≠ .toServer 0 p goesOn
  | .greeting, _, a => ∀ p, a ≠ .toClient 0 p
  | .answer, _, a => ∀ p goesOn, a ≠ .toServer 1 p goesOn

/-- The administrator has taken a message of the session for the answer, and it reads as
one. -/
def Mistaken (cfg : Config) (s : State) : Prop :=
  ∃ i d, s.answered = some (i + 2) ∧ s.toServer[i + 2]? = some d ∧ cfg.IsMessage d ∧ IsAnswer d

/-- What never happens without the datagram. -/
def Stuck (cfg : Config) (conData bfd : Connection) (s : State) : Lost → Prop
  | .hey => s = initial conData bfd
  | .greeting => s.client = Client.initial conData ∧
      ∀ receiver sender, s.server.phase ≠ .running receiver sender
  | .answer => s.answered ≠ some 1 ∧
      ((∃ receiver sender, s.server.phase = .running receiver sender) ↔ Mistaken cfg s)

/-- Before the opening datagram is taken nothing can happen. -/
theorem step_initial {conData bfd : Connection} (ha : Avoids .hey s a) :
    step cfg (initial conData bfd) a = none := by
  cases a with
  | toServer i p goesOn =>
      rw [step, if_neg]
      rintro ⟨hget, -⟩
      obtain ⟨hi, -⟩ := List.getElem?_eq_some_iff.mp hget
      have hi' : i < 1 := hi
      cases Nat.lt_one_iff.mp hi'
      exact ha p goesOn rfl
  | toClient i p =>
      rw [step, if_neg]
      rintro ⟨hget, -⟩
      cases hget
  | typed c => rfl
  | shellOutput c => rfl

/-- Only the greeting makes a client go on. -/
theorem step_client {conData : Connection} (h : Ok cfg s)
    (hc : s.client = Client.initial conData) (ha : Avoids .greeting s a)
    (hs : step cfg s a = some s') : s'.client = Client.initial conData := by
  have hstarted : s.client.phase = .started conData := congrArg Client.State.phase hc
  cases a with
  | toServer i p goesOn =>
      rw [step] at hs
      split at hs
      next =>
        obtain ⟨server, -, rfl⟩ := Option.map_eq_some_iff.mp hs
        exact hc
      next => cases hs
  | toClient i p =>
      rw [step] at hs
      split at hs
      next hget =>
        obtain ⟨-, hone⟩ := ok_greeting h hstarted hget.1
        obtain ⟨hi, -⟩ := List.getElem?_eq_some_iff.mp hget.1
        rw [hone, List.length_singleton, Nat.lt_one_iff] at hi
        exact absurd (hi ▸ rfl) (ha p)
      next => cases hs
  | typed c =>
      obtain ⟨client, hclient, -⟩ := Option.map_eq_some_iff.mp hs
      rw [Client.step, hstarted] at hclient
      cases hclient
  | shellOutput c =>
      obtain ⟨server, -, rfl⟩ := Option.map_eq_some_iff.mp hs
      exact hc

theorem step_answered {i : Nat} (ha : ∀ p goesOn, a ≠ .toServer i p goesOn)
    (h : s.answered ≠ some i) (hs : step cfg s a = some s') : s'.answered ≠ some i := by
  cases a with
  | toServer k p goesOn =>
      rw [step] at hs
      split at hs
      next =>
        obtain ⟨server, -, rfl⟩ := Option.map_eq_some_iff.mp hs
        dsimp only
        unfold answered
        split
        next =>
          rintro ⟨⟩
          exact ha p goesOn rfl
        next => exact h
      next => cases hs
  | toClient k p =>
      rw [step] at hs
      split at hs
      next =>
        obtain ⟨client, -, rfl⟩ := Option.map_eq_some_iff.mp hs
        exact h
      next => cases hs
  | typed c =>
      obtain ⟨client, -, rfl⟩ := Option.map_eq_some_iff.mp hs
      exact h
  | shellOutput c =>
      obtain ⟨server, -, rfl⟩ := Option.map_eq_some_iff.mp hs
      exact h

/-- Without the answer a session begins only by mistake. -/
theorem Ok.running_iff (h : Ok cfg s) (ha : s.answered ≠ some 1) :
    (∃ receiver sender, s.server.phase = .running receiver sender) ↔ Mistaken cfg s := by
  have hclient := h.client
  have hserver := h.server
  unfold Mistaken
  generalize s.server.phase = phase at hserver ⊢
  generalize s.answered = answered at hserver ha ⊢
  generalize s.toClient = toClient at hclient hserver
  cases hserver with
  | waiting bfd => simp
  | greeted _ _ => simp
  | @running receiver sender i d rest hd hanswer _ =>
      refine iff_of_true ⟨receiver, sender, rfl⟩ ?_
      match i, hd, ha with
      | 0, hd, _ => exact absurd hanswer (hclient.first_not_answer hd)
      | 1, _, ha => exact absurd rfl ha
      | i + 2, hd, _ => exact ⟨i, d, rfl, hd, hclient.message hd, hanswer⟩
  | @stopped i d hd hanswer =>
      refine iff_of_false (by simp) ?_
      rintro ⟨j, d', hj, hd', -, hanswer'⟩
      cases hj
      cases hd.symm.trans hd'
      exact hanswer hanswer'

/-- No datagram of the handshake is sent again.  Without the opening datagram nothing
happens at all, without the greeting neither program goes on, and without the answer
the administrator begins a session only with a message that reads as one. -/
theorem lost_for_good {conData bfd : Connection} (lost : Lost)
    (h : Reachable (step cfg) (Avoids lost) (initial conData bfd) s) :
    Stuck cfg conData bfd s lost := by
  cases lost with
  | hey =>
      refine h.invariant (P := fun s => s = initial conData bfd) rfl ?_
      rintro s s' a rfl ha hs
      rw [step_initial ha] at hs
      cases hs
  | greeting =>
      have hboth : Ok cfg s ∧ s.client = Client.initial conData := by
        refine h.invariant (P := fun s => Ok cfg s ∧ s.client = Client.initial conData)
          ⟨ok_initial .., rfl⟩ ?_
        rintro s s' a ⟨hok, hc⟩ ha hs
        exact ⟨step_ok hok hs, step_client hok hc ha hs⟩
      exact ⟨hboth.2, hboth.1.not_running (congrArg Client.State.phase hboth.2)⟩
  | answer =>
      have ha : s.answered ≠ some 1 := h.invariant (P := fun s => s.answered ≠ some 1)
        (by rintro ⟨⟩) fun hp ha hs => step_answered ha hp hs
      exact ⟨ha, (reachable_ok h).running_iff ha⟩

/-! ## A network that brings the handshake to its end -/

theorem step_toServer {i : Nat} {p : Packet} {goesOn : Bool} {server : Administraitor.State}
    (hget : s.toServer[i]? = some p.data) (hp : p.source = cfg.clientAddress)
    (hs : Administraitor.step cfg.server s.server (.datagram p goesOn) = some server) :
    step cfg s (.toServer i p goesOn) = some
      { s with
        server := server
        toClient := s.toClient ++ Administraitor.sends cfg.server s.server (.datagram p goesOn)
        answered := answered s i } := by
  rw [step, if_pos ⟨hget, hp⟩, serverStep, hs]
  rfl

theorem step_toClient {i : Nat} {p : Packet} {client : Client.State}
    (hget : s.toClient[i]? = some p.data) (hp : p.source = cfg.serverAddress)
    (hs : Client.step cfg.client s.client (.datagram p) = some client) :
    step cfg s (.toClient i p) = some
      { s with
        client := client
        toServer := s.toServer ++ Client.sends cfg.client s.client (.datagram p) } := by
  rw [step, if_pos ⟨hget, hp⟩, clientStep, hs]
  rfl

theorem take_hey {bfd : Connection} (h : Ok cfg s) (hp : s.server.phase = .waiting bfd) :
    ∃ a s', step cfg s a = some s' ∧ Avoids .answer s a ∧
      ∃ bfd' g, s'.server.phase = .greeted bfd' g := by
  let p : Packet := ⟨hey, cfg.clientAddress, by decide⟩
  obtain ⟨bfd', g, hfirst⟩ := Administraitor.firstDatagram_eq cfg.server s.server bfd p
  have hs : Administraitor.step cfg.server s.server (.datagram p true)
      = some ⟨.greeted bfd' g, some p.source, s.server.log⟩ := by
    rw [Administraitor.step, hp, ← hfirst]
  refine ⟨_, _, step_toServer h.client.first rfl hs, ?_, bfd', g, rfl⟩
  rintro q goesOn ⟨⟩

theorem take_greeting {conData bfd : Connection} {g : Server.Greeted} (h : Ok cfg s)
    (hc : s.client.phase = .started conData) (hp : s.server.phase = .greeted bfd g) :
    ∃ a s', step cfg s a = some s' ∧ s'.server = s.server ∧
      ∃ reader writer, s'.client.phase = .running reader writer := by
  let p : Packet := ⟨cfg.greeting, cfg.serverAddress, (greetingText_fits ..).le⟩
  have hserver := h.server
  rw [hp] at hserver
  have hget : s.toClient[0]? = some p.data := by
    generalize s.toClient = toClient at hserver ⊢
    generalize s.answered = answered at hserver
    cases hserver with
    | greeted _ _ => rfl
  have hkeys : ∃ session, Client.keysOf cfg.client conData p = .ok session ∧
      cfg.HasKeys session := client_keysOf conData rfl
  obtain ⟨session, hsession, -⟩ := hkeys
  have hs : Client.step cfg.client s.client (.datagram p) = some ⟨.running (some session)
      (some session), .keysFrom p.source :: .stored p.source :: s.client.log⟩ := by
    rw [Client.step, hc]
    dsimp only
    rw [Client.greetingDatagram, hsession]
  exact ⟨_, _, step_toClient hget rfl hs, rfl, _, _, rfl⟩

theorem take_answer {reader writer : Option Connection} {bfd : Connection} {g : Server.Greeted}
    (h : Ok cfg s) (hc : s.client.phase = .running reader writer)
    (hp : s.server.phase = .greeted bfd g) :
    ∃ a s', step cfg s a = some s' ∧ s'.answered = some 1 := by
  let p : Packet := ⟨cfg.answer, cfg.clientAddress, (answerText_fits ..).le⟩
  have hclient := h.client
  rw [hc] at hclient
  have hget : s.toServer[1]? = some p.data := by
    generalize s.toServer = toServer at hclient ⊢
    cases hclient with
    | running _ _ _ _ => rfl
  have hs : Administraitor.step cfg.server s.server (.datagram p true)
      = some (Administraitor.secondDatagram s.server bfd g p) := by
    rw [Administraitor.step, hp]
  refine ⟨_, _, step_toServer hget rfl hs, ?_⟩
  dsimp only
  rw [answered, hp]

/-- The two programs can be brought to agree. -/
def CanAgree (cfg : Config) (s : State) : Prop :=
  ∃ s', Reachable (step cfg) Any s s' ∧ s'.answered = some 1 ∧ Agreed cfg s'

theorem CanAgree.of_step (hs : step cfg s a = some s') (h : CanAgree cfg s') : CanAgree cfg s := by
  obtain ⟨t, ht, hagreed⟩ := h
  exact ⟨t, (Reachable.refl.tail trivial hs).trans ht, hagreed⟩

theorem canAgree_of_running {reader writer : Option Connection} {bfd : Connection}
    {g : Server.Greeted} (h : Ok cfg s) (hc : s.client.phase = .running reader writer)
    (hp : s.server.phase = .greeted bfd g) : CanAgree cfg s := by
  obtain ⟨a, t, hs, ht⟩ := take_answer h hc hp
  have hout := (step_ok h hs).outcome
  rw [Outcome, ht] at hout
  exact ⟨t, Reachable.refl.tail trivial hs, ht, hout⟩

/-- Once the administrator has greeted the client, the two can agree. -/
theorem agreed_of_greeted {bfd : Connection} {g : Server.Greeted} (h : Ok cfg s)
    (hp : s.server.phase = .greeted bfd g) : CanAgree cfg s := by
  cases hc : s.client.phase with
  | started b =>
      obtain ⟨a, t, hs, ht, reader, writer, hrunning⟩ := take_greeting h hc hp
      exact .of_step hs (canAgree_of_running (step_ok h hs) hrunning (ht ▸ hp))
  | running reader writer => exact canAgree_of_running h hc hp
  | stopped =>
      have hclient := h.client
      rw [hc] at hclient
      cases hclient

/-- The two programs with the records of the sample session. -/
def sample : Config where
  client := ⟨sampleCipher, 1681692777, 1714636915⟩
  server := ⟨sampleCipher, 1804289383, 846930886, 0x555555559010, rfl⟩
  clientAddress := sampleBfd.client
  serverAddress := sampleBfd.admin

theorem sample_greeted : ∃ a s, step sample (initial sampleBfd sampleBfd) a = some s ∧
    Avoids .answer (initial sampleBfd sampleBfd) a ∧
    ∃ bfd g, s.server.phase = .greeted bfd g :=
  take_hey (ok_initial ..) rfl

theorem handshake_outcome_sample : ∃ s : State, s.answered = some 1 ∧ Outcome sample s := by
  obtain ⟨a, t, hs, -, b, g, ht⟩ := sample_greeted
  have hreach : Reachable (step sample) Any (initial sampleBfd sampleBfd) t :=
    Reachable.refl.tail trivial hs
  obtain ⟨s, hs, ha, -⟩ := agreed_of_greeted (reachable_ok hreach) ht
  exact ⟨s, ha, (handshake_outcome (hreach.trans hs)).2.2⟩

theorem lost_for_good_sample : ∃ s : State, (∃ bfd g, s.server.phase = .greeted bfd g) ∧
    Stuck sample sampleBfd sampleBfd s .answer := by
  obtain ⟨a, t, hs, ha, hgreeted⟩ := sample_greeted
  exact ⟨t, hgreeted, lost_for_good .answer (Reachable.refl.tail ha hs)⟩

/-- As long as the administrator has taken nothing for the answer, the network can
still bring the two programs to agree. -/
theorem can_agree {conData bfd : Connection}
    (h : Reachable (step cfg) Any (initial conData bfd) s) (ha : s.answered = none) :
    CanAgree cfg s := by
  have hok := reachable_ok h
  have hout := hok.outcome
  rw [Outcome, ha] at hout
  rcases hout with ⟨bfd', hp⟩ | ⟨bfd', g, hp⟩
  · obtain ⟨a, t, hs, -, b, g, ht⟩ := take_hey hok hp
    exact .of_step hs (agreed_of_greeted (step_ok hok hs) ht)
  · exact agreed_of_greeted hok hp

/-- Also after the administrator has sent its greeting. -/
theorem can_agree_sample : ∃ s : State, (∃ bfd g, s.server.phase = .greeted bfd g) ∧
    CanAgree sample s := by
  obtain ⟨a, t, hs, -, b, g, ht⟩ := sample_greeted
  have hreach : Reachable (step sample) Any (initial sampleBfd sampleBfd) t :=
    Reachable.refl.tail trivial hs
  have hnone : t.answered = none := by
    have hserver := (reachable_ok hreach).server
    rw [ht] at hserver
    generalize t.answered = answered at hserver
    generalize t.toClient = toClient at hserver
    cases hserver with
    | greeted _ _ => rfl
  exact ⟨t, ⟨b, g, ht⟩, can_agree hreach hnone⟩

end Establishment

end ServerSsh

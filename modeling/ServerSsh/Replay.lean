import ServerSsh.UdpSession

/-!
# Replayed and reordered datagrams

An established UDP session over a network that keeps every datagram of the client
and delivers it late, early, twice or never, from any source address.  The
receiver decrypts each datagram under the same key and IV, and keeps nothing from
one datagram to the next.  So the shell gets the messages in whatever order and
number the network chooses.

`in_order_iff` says which runs are still in order: those in which a datagram that
is delivered was sent after all those that the shell already has the text of, or
has no text.
-/

namespace ServerSsh

open Libc Transition

namespace Replay

open Administraitor (HasText)

/-- The records of the two programs after the handshake. -/
structure Session where
  conData : Connection
  bfd : Connection
  key_eq : conData.key = bfd.key
  iv_eq : conData.iv = bfd.iv

/-- The configuration of an administrator. -/
abbrev Config := Administraitor.Config

/-- The client, the network and the receiver. -/
structure State where
  conData : Connection
  /-- The receiver's record, unless the receiver has stopped. -/
  receiver : Option Connection
  /-- The datagrams that the client has sent, in order. -/
  sent : List Bytes
  /-- What the receiver has written to the shell, the last first, with the number
  of the datagram. -/
  written : List (Nat × Bytes)

def initial (session : Session) : State := ⟨session.conData, some session.bfd, [], []⟩

/-- What may happen. -/
inductive Action where
  /-- The client reads a chunk and sends it. -/
  | send (c : Chunk)
  /-- The network delivers a copy of a datagram.  `goesOn` tells whether the
  receiver goes on after an empty message. -/
  | deliver (i : Nat) (p : Packet) (goesOn : Bool)

/-- A step. -/
def step (cfg : Config) (s : State) : Action → Option State
  | .send c =>
      match Client.relayInput cfg.E .udp s.conData c with
      | .ok sent => some { s with sent := s.sent ++ [sent.call.data] }
      | .error _ => none
  | .deliver i p goesOn =>
      match s.receiver with
      | none => none
      | some bfd =>
          if s.sent[i]? = some p.data then
            match receive cfg.E .udp bfd cfg.buffer (some p) with
            | .ok r => some { s with receiver := some r.1, written := (i, r.2) :: s.written }
            | .error _ =>
                some { s with
                  receiver := if goesOn then some { bfd with client := p.source } else none }
          else none

/-- The datagrams whose text the shell has got, the last one first. -/
def State.delivered (s : State) : List Nat :=
  (s.written.filter fun w => w.2 ≠ []).map Prod.fst

/-- No text is written twice, and the texts are written in the order in which they
were sent. -/
def InOrder (s : State) : Prop := s.delivered.Pairwise (· > ·)

/-- A datagram that is delivered is newer than those that the shell has the text
of, or it has no text. -/
def Fresh (cfg : Config) (s : State) : Action → Prop
  | .send _ => True
  | .deliver i p _ => ∀ bfd ∈ s.receiver, HasText cfg.E bfd p → ∀ j ∈ s.delivered, j < i

/-! ## One delivery -/

/-- The receiver writes something for a datagram with a text. -/
theorem receive_of_hasText (cfg : Config) {bfd : Connection} {p : Packet}
    (h : HasText cfg.E bfd p) :
    ∃ bfd' written, receive cfg.E .udp bfd cfg.buffer (some p) = .ok (bfd', written) ∧
      written ≠ [] := by
  have hterm : 0 ∈ Arrival.data (some p) ∨ (Arrival.data (some p)).length < maxCommandLenght := h.1
  rcases receive_cases cfg.E .udp bfd cfg.buffer hterm with ⟨hnil, -⟩ | ⟨hne, bfd', hok⟩
  · exact absurd hnil h.2
  · have hlt := received_length_lt cfg.E bfd hterm
    exact ⟨bfd', _, hok, take_kept_ne_nil cfg.aligned hlt hne⟩

/-- Any other datagram takes the receiver out of its buffer. -/
theorem receive_of_not_hasText (cfg : Config) {bfd : Connection} {p : Packet}
    (h : ¬ HasText cfg.E bfd p) :
    receive cfg.E .udp bfd cfg.buffer (some p) = .error .outOfBounds := by
  by_cases hterm : 0 ∈ Arrival.data (some p) ∨ (Arrival.data (some p)).length < maxCommandLenght
  · rcases receive_cases cfg.E .udp bfd cfg.buffer hterm with ⟨-, he⟩ | ⟨hne, -⟩
    · exact he
    · exact absurd ⟨hterm, hne⟩ h
  · have hget : Server.getMessage cfg.E .udp bfd (some p) = .error .outOfBounds :=
      Direction.toServer.get_unterminated cfg.E .udp bfd hterm
    rw [receive, hget]
    rfl

/-- The steps of a session. -/
inductive Steps (cfg : Config) (s : State) : Action → State → Prop where
  | sends {c : Chunk} {sent : Sent} :
      Client.relayInput cfg.E .udp s.conData c = .ok sent →
      Steps cfg s (.send c) { s with sent := s.sent ++ [sent.call.data] }
  | writes {i : Nat} {p : Packet} {goesOn : Bool} {bfd bfd' : Connection} {written : Bytes} :
      s.receiver = some bfd → HasText cfg.E bfd p → written ≠ [] →
      Steps cfg s (.deliver i p goesOn)
        { s with receiver := some bfd', written := (i, written) :: s.written }
  | ignores {i : Nat} {p : Packet} {goesOn : Bool} {bfd : Connection}
      {receiver : Option Connection} :
      s.receiver = some bfd → ¬ HasText cfg.E bfd p →
      Steps cfg s (.deliver i p goesOn) { s with receiver := receiver }

theorem step_steps {cfg : Config} {s s' : State} {a : Action} (hs : step cfg s a = some s') :
    Steps cfg s a s' := by
  cases a with
  | send c =>
      rw [step] at hs
      split at hs
      next sent h => cases hs; exact .sends h
      next => cases hs
  | deliver i p goesOn =>
      rw [step] at hs
      split at hs
      next => cases hs
      next bfd hbfd =>
        split at hs
        next =>
          by_cases ht : HasText cfg.E bfd p
          · obtain ⟨bfd', written, hr, hne⟩ := receive_of_hasText cfg ht
            rw [hr] at hs
            cases hs
            exact .writes hbfd ht hne
          · rw [receive_of_not_hasText cfg ht] at hs
            cases hs
            exact .ignores hbfd ht
        next => cases hs

/-! ## Order -/

/-- A step keeps the order exactly when what it delivers is fresh. -/
theorem step_inOrder {cfg : Config} {s s' : State} {a : Action} (hs : step cfg s a = some s') :
    InOrder s' ↔ InOrder s ∧ Fresh cfg s a := by
  cases step_steps hs with
  | sends _ => exact ⟨fun h => ⟨h, trivial⟩, And.left⟩
  | @writes i p goesOn bfd bfd' written hbfd ht hne =>
      have hdel : State.delivered
          { s with receiver := some bfd', written := (i, written) :: s.written }
          = i :: s.delivered := by
        simp [State.delivered, hne]
      have hfresh : Fresh cfg s (.deliver i p goesOn) ↔ ∀ j ∈ s.delivered, j < i := by
        rw [Fresh, hbfd]
        exact ⟨fun h => h bfd rfl ht, fun h b _ _ => h⟩
      rw [InOrder, hdel, List.pairwise_cons, hfresh, and_comm]
      rfl
  | @ignores i p goesOn bfd receiver hbfd ht =>
      have hfresh : Fresh cfg s (.deliver i p goesOn) := by
        rw [Fresh, hbfd]
        rintro b ⟨⟩ hb
        exact absurd hb ht
      exact ⟨fun h => ⟨h, hfresh⟩, And.left⟩

/-- The runs that are in order are those that deliver fresh datagrams only. -/
theorem in_order_iff {cfg : Config} {session : Session} {s : State}
    (h : Reachable (step cfg) Any (initial session) s) :
    InOrder s ↔ Reachable (step cfg) (Fresh cfg) (initial session) s := by
  refine h.iff_of_exact (fun hr => ?_) ?_ ?_
  · exact hr.invariant (P := InOrder) List.Pairwise.nil
      fun hp hok hs => (step_inOrder hs).mpr ⟨hp, hok⟩
  · exact fun _ hs hp => ((step_inOrder hs).mp hp).1
  · exact fun _ hs hp => ((step_inOrder hs).mp hp).2

/-! ## The network chooses -/

/-- The datagram of a message. -/
def datagram {cfg : Config} {session : Session} {m : Bytes} (source : SockaddrIn)
    (h : Clean cfg.E .udp session.conData m) : Packet where
  data := ciphertext cfg.E session.conData m
  source := source
  fits := h.length_lt.le

theorem send_clean {cfg : Config} {s : State} {c : Chunk}
    (h : Clean cfg.E .udp s.conData c.data) :
    step cfg s (.send c)
      = some { s with sent := s.sent ++ [ciphertext cfg.E s.conData c.data] } := by
  obtain ⟨sent, hsent, hdata⟩ := h.relay .toServer
  have hrelay : Client.relayInput cfg.E .udp s.conData c = .ok sent := hsent
  rw [step, hrelay, ← hdata]

theorem hasText_clean {cfg : Config} {session : Session} {m : Bytes} {bfd : Connection}
    (h : Clean cfg.E .udp session.conData m) (hctx : sessionCtx session.conData = sessionCtx bfd)
    (source : SockaddrIn) : HasText cfg.E bfd (datagram source h) := by
  have hrec := received_ciphertext cfg.E hctx h.noZero h.cipher
  exact ⟨Or.inr h.length_lt, (congrArg (· ≠ []) hrec).mpr h.nonempty⟩

theorem receive_ctx {cfg : Config} {bfd bfd' : Connection} {a : Arrival} {written : Bytes}
    (h : receive cfg.E .udp bfd cfg.buffer a = .ok (bfd', written)) :
    sessionCtx bfd' = sessionCtx bfd := by
  obtain ⟨got, hgot, h⟩ := bind_eq_ok.mp h
  obtain ⟨w, -, h⟩ := bind_eq_ok.mp h
  rw [Server.getMessage_eq] at hgot
  obtain ⟨r, -, rfl⟩ := map_eq_ok.mp hgot
  cases h
  rfl

/-- The client has sent the messages, and the receiver has the keys. -/
structure Live (cfg : Config) (session : Session) (chunks : List Chunk) (s : State) : Prop where
  conData : s.conData = session.conData
  sent : s.sent = chunks.map fun c => ciphertext cfg.E session.conData c.data
  receiver : ∃ bfd, s.receiver = some bfd ∧ sessionCtx session.conData = sessionCtx bfd

/-- The client sends its messages in order. -/
theorem send_all {cfg : Config} {session : Session} {s : State} :
    ∀ {chunks sent : List Chunk}, (∀ c ∈ chunks, Clean cfg.E .udp session.conData c.data) →
      Reachable (step cfg) Any (initial session) s → Live cfg session sent s →
      ∃ s', Reachable (step cfg) Any (initial session) s' ∧
        Live cfg session (sent ++ chunks) s' ∧ s'.written = s.written
  | [], sent, _, hr, hl => ⟨s, hr, by rwa [List.append_nil], rfl⟩
  | c :: chunks, sent, hclean, hr, hl => by
      obtain ⟨hc, hcs⟩ := List.forall_mem_cons.mp hclean
      have hstep := send_clean (s := s) (hl.conData ▸ hc)
      have hl' : Live cfg session (sent ++ [c])
          { s with sent := s.sent ++ [ciphertext cfg.E s.conData c.data] } :=
        ⟨hl.conData, by simp [hl.sent, hl.conData], hl.receiver⟩
      obtain ⟨s', hr', hl'', hw⟩ := send_all hcs (hr.tail trivial hstep) hl'
      exact ⟨s', hr', by rwa [List.append_assoc] at hl'', hw⟩

/-- A datagram is delivered once more. -/
theorem deliver_live {cfg : Config} {session : Session} {chunks : List Chunk} {s : State}
    (hl : Live cfg session chunks s) {i : Nat} {c : Chunk} (hi : chunks[i]? = some c)
    (hc : Clean cfg.E .udp session.conData c.data) (source : SockaddrIn) (goesOn : Bool) :
    ∃ s', step cfg s (.deliver i (datagram source hc) goesOn) = some s' ∧
      Live cfg session chunks s' ∧ s'.delivered = i :: s.delivered := by
  obtain ⟨bfd, hbfd, hctx⟩ := hl.receiver
  have hsent : s.sent[i]? = some (datagram source hc).data := by
    rw [hl.sent, List.getElem?_map, hi]
    rfl
  obtain ⟨bfd', written, hrec, hne⟩ := receive_of_hasText cfg (hasText_clean hc hctx source)
  have hstep : step cfg s (.deliver i (datagram source hc) goesOn)
      = some { s with receiver := some bfd', written := (i, written) :: s.written } := by
    rw [step, hbfd]
    dsimp only
    rw [if_pos hsent, hrec]
  refine ⟨_, hstep, ⟨hl.conData, hl.sent, bfd', rfl, hctx.trans (receive_ctx hrec).symm⟩, ?_⟩
  simp [State.delivered, hne]

/-- Whatever datagrams the network chooses, and in whatever order, the shell gets
their texts. -/
theorem delivered_as_chosen {cfg : Config} {session : Session} {chunks : List Chunk}
    (hclean : ∀ c ∈ chunks, Clean cfg.E .udp session.conData c.data) :
    ∀ (choice : List Nat), (∀ i ∈ choice, i < chunks.length) →
      ∃ s, Reachable (step cfg) Any (initial session) s ∧ Live cfg session chunks s ∧
        s.delivered = choice
  | [], _ => by
      have hl : Live cfg session [] (initial session) :=
        ⟨rfl, rfl, session.bfd, rfl, sessionCtx_congr session.key_eq session.iv_eq⟩
      obtain ⟨s, hr, hl, hw⟩ := send_all hclean .refl hl
      exact ⟨s, hr, hl, by rw [State.delivered, hw]; rfl⟩
  | i :: choice, h => by
      obtain ⟨hi, hchoice⟩ := List.forall_mem_cons.mp h
      obtain ⟨s, hr, hl, hs⟩ := delivered_as_chosen hclean choice hchoice
      have hc := hclean _ (List.getElem_mem hi)
      obtain ⟨s', hstep, hl', hs'⟩ :=
        deliver_live hl (List.getElem?_eq_getElem hi) hc session.conData.client true
      exact ⟨s', hr.tail trivial hstep, hl', hs'.trans (congrArg _ hs)⟩

/-- The sample session with the administrator of the sample. -/
def sample : Session := ⟨sampleSession, sampleSession, rfl, rfl⟩

theorem sampleCommand_fits : (ascii "id\n").length ≤ maxCommandLenght := by decide

/-- The command `id`. -/
def sampleCommand : Chunk := ⟨ascii "id\n", sampleCommand_fits⟩

theorem clean_sampleCommand : Clean sampleAdmin.E .udp sample.conData sampleCommand.data :=
  clean_id .udp

/-- The command is delivered once. -/
theorem in_order_iff_once :
    ∃ s, s.delivered = [0] ∧
      Reachable (step sampleAdmin) (Fresh sampleAdmin) (initial sample) s := by
  obtain ⟨s, hr, -, hs⟩ := delivered_as_chosen
    (List.forall_mem_singleton.mpr clean_sampleCommand) [0] (by decide)
  refine ⟨s, hs, (in_order_iff hr).mp ?_⟩
  rw [InOrder, hs]
  exact List.pairwise_singleton _ _

/-- The command is sent once and delivered twice. -/
theorem replayed_command :
    ¬ ∀ (cfg : Config) (session : Session) (s : State),
      Reachable (step cfg) Any (initial session) s → InOrder s := by
  intro hclaim
  obtain ⟨s, hr, -, hs⟩ := delivered_as_chosen
    (List.forall_mem_singleton.mpr clean_sampleCommand) [0, 0] (by decide)
  have h := hclaim _ _ s hr
  rw [InOrder, hs] at h
  exact absurd (List.rel_of_pairwise_cons h (List.mem_cons_self ..)) (Nat.lt_irrefl 0)

end Replay

end ServerSsh

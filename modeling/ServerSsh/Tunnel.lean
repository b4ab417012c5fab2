import ServerSsh.Replay
import ServerSsh.Wire

/-!
# The two relays of a session

An established session over UDP as four processes: in each direction one program
reads chunks and sends them, and the other passes on what it receives.  Client and
administrator do the same with the parts exchanged, so the state is a channel for
each `Direction`.

The network keeps every datagram and may hand any of them, whole or cut short, any
number of times and in any order, to either of the receiving programs: the messages
of both directions are encrypted alike.  Whatever it does, what is written to the
shell or to the terminal are prefixes of chunks that were read somewhere
(`written_isPrefix`), although which of them is up to the network
(`network_chooses`).  A network that hands over every datagram once, whole and in
order, loses of a chunk what the two programs lose of it (`in_turn_iff`).
-/

namespace ServerSsh

open Libc Transition

namespace Tunnel

/-- What does not change: the block cipher, and the address of the administrator's
message buffer. -/
structure Config where
  B : Evp.BlockCipher
  address : Nat

/-- The cipher of the two programs. -/
def Config.E (cfg : Config) : Evp.Cipher := cfg.B.cbc

/-- What was sent, with the chunk that was read for it. -/
structure Datagram where
  chunk : Chunk
  data : Bytes

/-- What was written for a datagram. -/
structure Entry where
  origin : Direction
  number : Nat
  text : Bytes

/-- One direction of a session. -/
structure Channel where
  /-- The record of the sending process, unless it has stopped. -/
  sender : Option Connection
  /-- The record of the receiving process, unless it has stopped. -/
  receiver : Option Connection
  sent : List Datagram
  written : List Entry

/-- The processes of a session. -/
abbrev State := Direction → Channel

/-- Each of the two programs has forked. -/
def initial (session : Replay.Session) : State
  | .toServer => ⟨some session.conData, some session.bfd, [], []⟩
  | .toClient => ⟨some session.bfd, some session.conData, [], []⟩

/-- What may happen. -/
inductive Action where
  /-- The sending process reads a chunk. -/
  | relay (dir : Direction) (c : Chunk)
  /-- The receiving process gets a datagram, or the first part of one, that was sent
  in some direction.  `goesOn` tells whether it goes on after an empty message. -/
  | deliver (dir origin : Direction) (i : Nat) (p : Packet) (goesOn : Bool)

/-- The record of the receiving program after its `recvfrom`. -/
def heard (dir : Direction) (bfd : Connection) (p : Packet) : Connection :=
  match dir with
  | .toServer => { bfd with client := Arrival.peer .udp bfd.client (some p) }
  | .toClient => { bfd with admin := Arrival.peer .udp bfd.admin (some p) }

/-- A step.  Nothing is written for an empty message. -/
def step (cfg : Config) (s : State) : Action → Option State
  | .relay dir c =>
      match (s dir).sender with
      | none => none
      | some bfd =>
          match dir.relay cfg.E .udp bfd c with
          | .ok sent =>
              some (Function.update s dir
                { s dir with sent := (s dir).sent ++ [⟨c, sent.call.data⟩] })
          | .error _ => some (Function.update s dir { s dir with sender := none })
  | .deliver dir origin i p goesOn =>
      match (s dir).receiver, (s origin).sent[i]? with
      | some bfd, some x =>
          if p.data <+: x.data then
            match dir.pass cfg.E .udp cfg.address bfd (some p) with
            | .ok (bfd', text) =>
                some (Function.update s dir
                  { s dir with
                    receiver := some bfd'
                    written := (s dir).written ++ [⟨origin, i, text⟩] })
            | .error _ =>
                some (Function.update s dir
                  { s dir with
                    receiver := if goesOn then some (heard dir bfd p) else none
                    written := (s dir).written ++ [⟨origin, i, []⟩] })
          else none
      | _, _ => none

/-- Every datagram is handed over once, whole, in order and in its own direction. -/
def InTurn (s : State) : Action → Prop
  | .relay _ _ => True
  | .deliver dir origin i p _ =>
      origin = dir ∧ i = (s dir).written.length ∧ ∀ x, (s dir).sent[i]? = some x → p.data = x.data

/-! ## One step -/

/-- The steps with what they require and what they lead to. -/
inductive Steps (cfg : Config) (s : State) : Action → State → Prop where
  | sends {dir : Direction} {c : Chunk} {bfd : Connection} {sent : Sent} :
      (s dir).sender = some bfd → dir.relay cfg.E .udp bfd c = .ok sent →
      Steps cfg s (.relay dir c) (Function.update s dir
        { s dir with sent := (s dir).sent ++ [⟨c, sent.call.data⟩] })
  | stops {dir : Direction} {c : Chunk} :
      Steps cfg s (.relay dir c) (Function.update s dir { s dir with sender := none })
  | takes {dir origin : Direction} {i : Nat} {p : Packet} {goesOn : Bool} {bfd : Connection}
      {x : Datagram} (receiver : Option Connection) (text : Bytes) :
      (s dir).receiver = some bfd → (s origin).sent[i]? = some x → p.data <+: x.data →
      (∀ bfd' ∈ receiver, sessionCtx bfd' = sessionCtx bfd) →
      (p.data.length < maxCommandLenght →
        text = dir.passed cfg.address (received cfg.E bfd p.data)) →
      Steps cfg s (.deliver dir origin i p goesOn) (Function.update s dir
        { s dir with receiver := receiver, written := (s dir).written ++ [⟨origin, i, text⟩] })

theorem sessionCtx_heard (dir : Direction) (bfd : Connection) (p : Packet) :
    sessionCtx (heard dir bfd p) = sessionCtx bfd := by
  cases dir <;> rfl

theorem passed_nil (dir : Direction) (address : Nat) : dir.passed address [] = [] :=
  List.prefix_nil.mp (dir.passed_isPrefix address [])

theorem step_steps {cfg : Config} {s s' : State} {a : Action} (hs : step cfg s a = some s') :
    Steps cfg s a s' := by
  cases a with
  | relay dir c =>
      rw [step] at hs
      split at hs
      next => cases hs
      next bfd hbfd =>
        split at hs
        next sent hsent =>
          cases hs
          exact .sends hbfd hsent
        next =>
          cases hs
          exact .stops
  | deliver dir origin i p goesOn =>
      rw [step] at hs
      split at hs
      next bfd x hbfd hx =>
        split at hs
        next hp =>
          have hcases : p.data.length < maxCommandLenght →
              (∃ bfd', dir.pass cfg.E .udp cfg.address bfd (some p)
                = .ok (bfd', dir.passed cfg.address (received cfg.E bfd p.data))) ∨
              received cfg.E bfd p.data = [] ∧
                dir.pass cfg.E .udp cfg.address bfd (some p) = .error .outOfBounds :=
            fun hlt => dir.pass_cases cfg.E .udp cfg.address bfd (a := some p) (Or.inr hlt)
          split at hs
          next bfd' text hpass =>
            cases hs
            refine .takes (some bfd') text hbfd hx hp ?_ fun hlt => ?_
            · rintro b ⟨⟩
              exact Direction.pass_ctx hpass
            · rcases hcases hlt with ⟨b, hok⟩ | ⟨-, herr⟩
              · rw [hpass] at hok
                cases hok
                rfl
              · rw [hpass] at herr
                cases herr
          next f hpass =>
            cases hs
            refine .takes (if goesOn then some (heard dir bfd p) else none) [] hbfd hx hp
              ?_ fun hlt => ?_
            · intro b hb
              split at hb
              next =>
                cases hb
                exact sessionCtx_heard ..
              next => cases hb
            · rcases hcases hlt with ⟨b, hok⟩ | ⟨hnil, -⟩
              · rw [hpass] at hok
                cases hok
              · rw [hnil, passed_nil]
        next => cases hs
      next => cases hs

/-! ## What every run keeps -/

/-- What is sent for a chunk. -/
def wire (cfg : Config) (session : Replay.Session) (c : Chunk) : Bytes :=
  cut (ciphertext cfg.E session.bfd (cut c.data))

/-- The two processes have the keys of the session, the datagrams are those of the
chunks, and what was written comes from datagrams. -/
structure Channel.Sound (cfg : Config) (session : Replay.Session)
    (kept : Direction → Nat → Option Datagram) (dir : Direction) (ch : Channel) : Prop where
  sender : ∀ bfd ∈ ch.sender, sessionCtx bfd = sessionCtx session.bfd
  receiver : ∀ bfd ∈ ch.receiver, sessionCtx bfd = sessionCtx session.bfd
  sent : ∀ x ∈ ch.sent, 0 ∈ x.chunk.buffer.bytes ∧ x.data = wire cfg session x.chunk ∧
    x.data.length < maxCommandLenght
  written : ∀ e ∈ ch.written, ∃ x d, kept e.origin e.number = some x ∧ d <+: x.data ∧
    e.text = dir.passed cfg.address (received cfg.E session.bfd d)

/-- The datagrams of a state. -/
def State.datagram (s : State) (origin : Direction) (i : Nat) : Option Datagram :=
  (s origin).sent[i]?

/-- Both channels are sound. -/
def Sound (cfg : Config) (session : Replay.Session) (s : State) : Prop :=
  ∀ dir, (s dir).Sound cfg session s.datagram dir

variable {cfg : Config} {session : Replay.Session} {s s' : State} {a : Action}

theorem sound_initial : Sound cfg session (initial session) := by
  have hctx := sessionCtx_congr session.key_eq session.iv_eq
  intro dir
  cases dir with
  | toServer =>
      refine ⟨?_, ?_, List.forall_mem_nil _, List.forall_mem_nil _⟩
      · rintro bfd ⟨⟩
        exact hctx
      · rintro bfd ⟨⟩
        rfl
  | toClient =>
      refine ⟨?_, ?_, List.forall_mem_nil _, List.forall_mem_nil _⟩
      · rintro bfd ⟨⟩
        rfl
      · rintro bfd ⟨⟩
        exact hctx

/-- A datagram that was sent stays where it is. -/
theorem step_datagram (hs : step cfg s a = some s') {origin : Direction} {i : Nat} {x : Datagram}
    (h : s.datagram origin i = some x) : s'.datagram origin i = some x := by
  have hupdate : ∀ dir ch, (∀ y, (s dir).sent[i]? = some y → ch.sent[i]? = some y) →
      State.datagram (Function.update s dir ch) origin i = some x := by
    intro dir ch hch
    by_cases hd : origin = dir
    · subst hd
      rw [State.datagram, Function.update_self]
      exact hch x h
    · rw [State.datagram, Function.update_of_ne hd]
      exact h
  cases step_steps hs with
  | sends _ _ => exact hupdate _ _ fun y hy => getElem?_append_of_some hy
  | stops => exact hupdate _ _ fun y hy => hy
  | takes _ _ _ _ _ _ _ => exact hupdate _ _ fun y hy => hy

theorem Channel.Sound.mono {kept kept' : Direction → Nat → Option Datagram} {dir : Direction}
    {ch : Channel} (h : ch.Sound cfg session kept dir)
    (hkept : ∀ origin i x, kept origin i = some x → kept' origin i = some x) :
    ch.Sound cfg session kept' dir :=
  ⟨h.sender, h.receiver, h.sent, fun e he => by
    obtain ⟨x, d, hx, hd⟩ := h.written e he
    exact ⟨x, d, hkept _ _ _ hx, hd⟩⟩

theorem relay_ok {dir : Direction} {bfd : Connection} {c : Chunk} {sent : Sent}
    (hctx : sessionCtx bfd = sessionCtx session.bfd)
    (h : dir.relay cfg.E .udp bfd c = .ok sent) :
    0 ∈ c.buffer.bytes ∧ sent.call.data = wire cfg session c ∧
      sent.call.data.length < maxCommandLenght := by
  have hsend : dir.send cfg.E .udp bfd c.buffer = .ok sent := by
    cases dir with
    | toServer => exact h
    | toClient => exact h
  obtain ⟨h0, hdata, hlt⟩ := Direction.send_ok hsend
  rw [Chunk.buffer, Buf.cut_ofBytes, ciphertext, hctx] at hdata
  exact ⟨h0, hdata, hlt⟩

theorem step_sound (h : Sound cfg session s) (hs : step cfg s a = some s') :
    Sound cfg session s' := by
  have hkept : ∀ origin i x, s.datagram origin i = some x → s'.datagram origin i = some x :=
    fun _ _ _ => step_datagram hs
  have hmono : ∀ dir, (s dir).Sound cfg session s'.datagram dir := fun dir => (h dir).mono hkept
  cases step_steps hs with
  | @sends dir c bfd sent hbfd hrelay =>
      refine (Function.forall_update_iff s fun d ch => ch.Sound cfg session _ d).mpr
        ⟨?_, fun d _ => hmono d⟩
      refine { hmono dir with sent := fun x hx => ?_ }
      rcases List.mem_append.mp hx with hx | hx
      · exact (h dir).sent x hx
      · rw [List.mem_singleton.mp hx]
        exact relay_ok ((h dir).sender bfd hbfd) hrelay
  | @stops dir c =>
      refine (Function.forall_update_iff s fun d ch => ch.Sound cfg session _ d).mpr
        ⟨?_, fun d _ => hmono d⟩
      exact { hmono dir with sender := fun bfd hbfd => by cases hbfd }
  | @takes dir origin i p goesOn bfd x receiver text hbfd hx hp hctx htext =>
      have hbfd' := (h dir).receiver bfd hbfd
      obtain ⟨-, -, hlt⟩ := (h origin).sent x (List.mem_of_getElem? hx)
      refine (Function.forall_update_iff s fun d ch => ch.Sound cfg session _ d).mpr
        ⟨?_, fun d _ => hmono d⟩
      refine { hmono dir with
        receiver := fun b hb => (hctx b hb).trans hbfd'
        written := fun e he => ?_ }
      rcases List.mem_append.mp he with he | he
      · exact (hmono dir).written e he
      · rw [List.mem_singleton.mp he]
        refine ⟨x, p.data, hkept _ _ _ hx, hp, ?_⟩
        rw [htext (hp.length_le.trans_lt hlt), received, received, hbfd']

theorem reachable_sound {ok : State → Action → Prop}
    (h : Reachable (step cfg) ok (initial session) s) : Sound cfg session s :=
  h.invariant sound_initial fun hp _ hs => step_sound hp hs

/-! ## Clean chunks -/

/-- The datagram of a clean chunk. -/
def datagram (cfg : Config) (session : Replay.Session) (c : Chunk) : Datagram :=
  ⟨c, ciphertext cfg.E session.bfd c.data⟩

/-- The processes of a channel run, and the chunks were sent. -/
structure Live (cfg : Config) (session : Replay.Session) (chunks : List Chunk) (ch : Channel) :
    Prop where
  sender : ∃ bfd, ch.sender = some bfd ∧ sessionCtx bfd = sessionCtx session.bfd
  receiver : ∃ bfd, ch.receiver = some bfd ∧ sessionCtx bfd = sessionCtx session.bfd
  sent : ch.sent = chunks.map (datagram cfg session)

theorem relay_clean {dir : Direction} {chunks : List Chunk} {c : Chunk}
    (hl : Live cfg session chunks (s dir)) (hc : Clean cfg.E .udp session.bfd c.data) :
    ∃ s', step cfg s (.relay dir c) = some s' ∧ Live cfg session (chunks ++ [c]) (s' dir) ∧
      (s' dir).written = (s dir).written ∧ ∀ d, d ≠ dir → s' d = s d := by
  obtain ⟨bfd, hbfd, hctx⟩ := hl.sender
  obtain ⟨sent, hrelay, hdata⟩ := (hc.congr hctx.symm).relay dir
  rw [ciphertext, hctx, ← ciphertext] at hdata
  refine ⟨_, by rw [step, hbfd]; dsimp only; rw [hrelay], ?_, ?_, fun d hd => ?_⟩
  · rw [Function.update_self]
    refine ⟨⟨bfd, hbfd, hctx⟩, hl.receiver, ?_⟩
    rw [hl.sent, hdata, List.map_append]
    rfl
  · rw [Function.update_self]
  · exact Function.update_of_ne hd _ _

/-- The network hands a datagram to a receiving program. -/
structure Choice where
  dir : Direction
  origin : Direction
  number : Nat

/-- What is passed on of the chosen chunk. -/
def Choice.text (cfg : Config) (chunks : Direction → List Chunk) (x : Choice) : Bytes :=
  ((chunks x.origin)[x.number]?).elim [] fun c => x.dir.passed cfg.address c.data

/-- The datagram of a clean chunk, as it arrives. -/
def packet {c : Chunk} (hc : Clean cfg.E .udp session.bfd c.data) : Packet where
  data := ciphertext cfg.E session.bfd c.data
  source := session.bfd.client
  fits := hc.length_lt.le

theorem deliver_clean {chunks : Direction → List Chunk}
    (hl : ∀ dir, Live cfg session (chunks dir) (s dir)) {x : Choice} {c : Chunk}
    (hx : (chunks x.origin)[x.number]? = some c) (hc : Clean cfg.E .udp session.bfd c.data) :
    ∃ s', step cfg s (.deliver x.dir x.origin x.number (packet hc) true) = some s' ∧
      (∀ dir, Live cfg session (chunks dir) (s' dir)) ∧
      (s' x.dir).written = (s x.dir).written ++ [⟨x.origin, x.number, x.text cfg chunks⟩] ∧
      ∀ d, d ≠ x.dir → (s' d).written = (s d).written := by
  obtain ⟨bfd, hbfd, hctx⟩ := (hl x.dir).receiver
  have hcipher : ciphertext cfg.E bfd c.data = ciphertext cfg.E session.bfd c.data := by
    rw [ciphertext, ciphertext, hctx]
  have hget : (s x.origin).sent[x.number]? = some (datagram cfg session c) := by
    rw [(hl x.origin).sent, List.getElem?_map, hx]
    rfl
  have htext : x.text cfg chunks = x.dir.passed cfg.address c.data := by
    rw [Choice.text, hx]
    rfl
  obtain ⟨bfd', hpass⟩ := x.dir.pass_ciphertext .udp cfg.address (p := packet hc) hc.noZero
    hc.nonempty hc.short hcipher.symm (hcipher ▸ hc.cipher)
  refine ⟨Function.update s x.dir
    { s x.dir with
      receiver := some bfd'
      written := (s x.dir).written ++ [⟨x.origin, x.number, x.text cfg chunks⟩] }, ?_, ?_, ?_, ?_⟩
  · have hp : (packet hc).data <+: (datagram cfg session c).data := List.prefix_rfl
    rw [step, hbfd, hget]
    dsimp only
    rw [if_pos hp, hpass, htext]
  · refine (Function.forall_update_iff s fun d ch => Live cfg session (chunks d) ch).mpr
      ⟨⟨(hl x.dir).sender, ?_, (hl x.dir).sent⟩, fun d _ => hl d⟩
    exact ⟨bfd', rfl, (Direction.pass_ctx hpass).trans hctx⟩
  · rw [Function.update_self]
  · intro d hd
    rw [Function.update_of_ne hd]

theorem live_initial (dir : Direction) : Live cfg session [] (initial session dir) := by
  have hctx := sessionCtx_congr session.key_eq session.iv_eq
  cases dir with
  | toServer => exact ⟨⟨_, rfl, hctx⟩, ⟨_, rfl, rfl⟩, rfl⟩
  | toClient => exact ⟨⟨_, rfl, rfl⟩, ⟨_, rfl, hctx⟩, rfl⟩

theorem sampleBlocks_length : ∀ p ∈ sampleBlocks, p.1.length = 16 ∧ p.2.length = 16 := by
  decide

/-- A tunnel with the cipher of the sample session. -/
def sampleTunnel : Config := ⟨Evp.ofPairs sampleBlocks sampleBlocks_length, 0x555555559010⟩

theorem clean_sampleCommand :
    Clean sampleTunnel.E .udp Replay.sample.bfd Replay.sampleCommand.data :=
  clean_id .udp

/-- The command `id` is typed and handed over in turn. -/
theorem sample_run : ∃ s, Reachable (step sampleTunnel) InTurn (initial Replay.sample) s ∧
    (s .toServer).sent = [datagram sampleTunnel Replay.sample Replay.sampleCommand] ∧
    (s .toServer).written.length = 1 := by
  obtain ⟨s₁, hstep₁, hl₁, hw₁, hd₁⟩ :=
    relay_clean (s := initial Replay.sample) (live_initial .toServer) clean_sampleCommand
  let chunks : Direction → List Chunk
    | .toServer => [Replay.sampleCommand]
    | .toClient => []
  have hl : ∀ dir, Live sampleTunnel Replay.sample (chunks dir) (s₁ dir)
    | .toServer => hl₁
    | .toClient => hd₁ .toClient (by decide) ▸ live_initial .toClient
  obtain ⟨s₂, hstep₂, hl₂, hw₂, -⟩ :=
    deliver_clean hl (x := ⟨.toServer, .toServer, 0⟩) rfl clean_sampleCommand
  have hturn : InTurn s₁ (.deliver .toServer .toServer 0 (packet clean_sampleCommand) true) := by
    refine ⟨rfl, by rw [hw₁]; rfl, fun x hx => ?_⟩
    rw [hl₁.sent] at hx
    cases hx
    rfl
  refine ⟨s₂, (Reachable.refl.tail trivial hstep₁).tail hturn hstep₂, (hl₂ .toServer).sent, ?_⟩
  rw [hw₂, hw₁]
  rfl

/-! ## Any network -/

/-- Whatever the network does, what is written to the shell and to the terminal are
prefixes of chunks that one of the programs has read. -/
theorem written_isPrefix (h : Reachable (step cfg) Any (initial session) s) :
    ∀ dir, ∀ e ∈ (s dir).written, ∃ x, s.datagram e.origin e.number = some x ∧
      e.text <+: x.chunk.data := by
  intro dir e he
  obtain ⟨x, d, hx, hd, htext⟩ := (reachable_sound h dir).written e he
  obtain ⟨-, hdata, -⟩ := (reachable_sound h e.origin).sent x (List.mem_of_getElem? hx)
  refine ⟨x, hx, ?_⟩
  rw [htext]
  rw [hdata] at hd
  have hpart := hd.trans (cut_isPrefix _)
  exact (dir.passed_isPrefix _ _).trans
    ((received_of_isPrefix rfl (zero_notMem_cut _) hpart).trans (cut_isPrefix _))

/-- The command `id` is typed and reaches the shell. -/
theorem written_isPrefix_id :
    ∃ s : State, (s .toServer).written.length = 1 ∧ ∀ dir, ∀ e ∈ (s dir).written, ∃ x,
      s.datagram e.origin e.number = some x ∧ e.text <+: x.chunk.data := by
  obtain ⟨s, hr, -, hlen⟩ := sample_run
  exact ⟨s, hlen, written_isPrefix hr.any⟩

/-! ## A network that keeps the order -/

/-- Nothing of a message is held back by the receiving program. -/
def Whole (dir : Direction) (address : Nat) (m : Bytes) : Prop :=
  match dir with
  | .toServer => Unbroken address m
  | .toClient => True

/-- The two programs carry a chunk from the one to the other. -/
structure Carried (cfg : Config) (session : Replay.Session) (dir : Direction) (c : Chunk) :
    Prop where
  noZero : 0 ∉ c.data
  recoverable : Recoverable c.data (ciphertext cfg.E session.bfd c.data)
  whole : Whole dir cfg.address c.data

theorem passed_eq_iff (dir : Direction) (address : Nat) {m : Bytes}
    (hm : m.length < maxCommandLenght) : dir.passed address m = m ↔ Whole dir address m := by
  cases dir with
  | toServer => exact take_kept_iff address hm
  | toClient => exact iff_of_true rfl trivial

/-- What is written for a whole datagram. -/
def text (cfg : Config) (session : Replay.Session) (dir : Direction) (x : Datagram) : Bytes :=
  dir.passed cfg.address (received cfg.E session.bfd x.data)

section Datagram

variable {x : Datagram} (hdata : x.data = wire cfg session x.chunk) (dir : Direction)

include hdata

theorem received_datagram_isPrefix : received cfg.E session.bfd x.data <+: cut x.chunk.data := by
  rw [hdata, wire]
  exact received_of_isPrefix rfl (zero_notMem_cut _) (cut_isPrefix _)

theorem text_isPrefix : text cfg session dir x <+: x.chunk.data :=
  (dir.passed_isPrefix _ _).trans
    ((received_datagram_isPrefix hdata).trans (cut_isPrefix _))

/-- A chunk comes through exactly when both programs carry it. -/
theorem text_eq_iff (h0 : 0 ∈ x.chunk.buffer.bytes) :
    text cfg session dir x = x.chunk.data ↔ Carried cfg session dir x.chunk := by
  have hshort : 0 ∉ x.chunk.data → x.chunk.data.length < maxCommandLenght := fun hnone =>
    ((Buf.zero_mem_ofBytes x.chunk.fits).mp h0).resolve_left hnone
  constructor
  · intro h
    have hpassed := dir.passed_isPrefix cfg.address (received cfg.E session.bfd x.data)
    have hreceived := received_datagram_isPrefix hdata
    have hcut := cut_isPrefix x.chunk.data
    -- The ends of a chain of prefixes have one length.
    have hlen := congrArg List.length h
    rw [text] at h hlen
    have hcut' := hcut.eq_of_length (by
      have := hpassed.length_le
      have := hreceived.length_le
      have := hcut.length_le
      omega)
    have hreceived' := hreceived.eq_of_length (by
      have := hpassed.length_le
      have := hreceived.length_le
      have := hcut.length_le
      omega)
    have hnone := cut_eq_self_iff.mp hcut'
    rw [hcut'] at hreceived'
    refine ⟨hnone, ?_, ?_⟩
    · rw [hdata, wire, hcut'] at hreceived'
      exact (received_cut_iff cfg.E rfl hnone).mp hreceived'
    · rw [hreceived'] at h
      exact (passed_eq_iff dir cfg.address (hshort hnone)).mp h
  · intro h
    have hreceived := (received_cut_iff cfg.E rfl h.noZero).mpr h.recoverable
    have hpassed := (passed_eq_iff dir cfg.address (hshort h.noZero)).mpr h.whole
    rw [text, hdata, wire, cut_eq_self h.noZero, hreceived, hpassed]

end Datagram

/-- The datagrams were taken in turn. -/
structure Served (cfg : Config) (session : Replay.Session) (dir : Direction) (ch : Channel) :
    Prop where
  behind : ch.written.length ≤ ch.sent.length
  texts : ch.written.map Entry.text
    = (ch.sent.take ch.written.length).map (text cfg session dir)

theorem step_served (hsound : Sound cfg session s) (h : ∀ dir, Served cfg session dir (s dir))
    (hok : InTurn s a) (hs : step cfg s a = some s') : ∀ dir, Served cfg session dir (s' dir) := by
  cases step_steps hs with
  | @sends dir c bfd sent hbfd hrelay =>
      refine (Function.forall_update_iff s fun d ch => Served cfg session d ch).mpr
        ⟨⟨?_, ?_⟩, fun d _ => h d⟩
      · exact (h dir).behind.trans (by simp)
      · rw [List.take_append_of_le_length (h dir).behind]
        exact (h dir).texts
  | @stops dir c =>
      exact (Function.forall_update_iff s fun d ch => Served cfg session d ch).mpr
        ⟨⟨(h dir).behind, (h dir).texts⟩, fun d _ => h d⟩
  | @takes dir origin i p goesOn bfd x receiver t hbfd hx hp hctx htext =>
      obtain ⟨rfl, rfl, hwhole⟩ := hok
      obtain ⟨-, -, hlt⟩ := (hsound origin).sent x (List.mem_of_getElem? hx)
      have ht : t = text cfg session origin x := by
        rw [htext (hp.length_le.trans_lt hlt), hwhole x hx, text, received, received,
          (hsound origin).receiver bfd hbfd]
      refine (Function.forall_update_iff s fun d ch => Served cfg session d ch).mpr
        ⟨⟨?_, ?_⟩, fun d _ => h d⟩
      · have hlen := (List.getElem?_eq_some_iff.mp hx).1
        rw [List.length_append, List.length_singleton]
        exact hlen
      · rw [List.map_append, (h origin).texts, List.length_append, List.length_singleton,
          List.take_add_one, hx, List.map_append, ht]
        rfl

theorem served_of_in_turn (h : Reachable (step cfg) InTurn (initial session) s) :
    ∀ dir, Served cfg session dir (s dir) := by
  have hboth : Sound cfg session s ∧ ∀ dir, Served cfg session dir (s dir) := by
    refine h.invariant (P := fun s => Sound cfg session s ∧ ∀ dir, Served cfg session dir (s dir))
      ⟨sound_initial, fun dir => ?_⟩ ?_
    · cases dir with
      | toServer => exact ⟨Nat.le_refl _, rfl⟩
      | toClient => exact ⟨Nat.le_refl _, rfl⟩
    · rintro s s' a ⟨hsound, hserved⟩ hok hs
      exact ⟨step_sound hsound hs, step_served hsound hserved hok hs⟩
  exact hboth.2

/-- Prefixes of the parts that are in a sequence make it up only when they are the
parts. -/
theorem flatten_map_eq_iff_of_mem {α β : Type} {f g : β → List α} {l : List β}
    (hf : ∀ b ∈ l, f b <+: g b) :
    (l.map f).flatten = (l.map g).flatten ↔ ∀ b ∈ l, f b = g b := by
  have hattach : ∀ F : β → List α, l.map F = l.attach.map fun b => F b.1 := fun F =>
    (congrArg (List.map F) (List.attach_map_subtype_val l)).symm.trans List.map_map
  have hprefix : ∀ b : { b // b ∈ l }, f b.1 <+: g b.1 := fun b => hf b.1 b.2
  rw [hattach f, hattach g, flatten_map_eq_iff hprefix]
  exact ⟨fun h b hb => h ⟨b, hb⟩ (List.mem_attach _ _), fun h b _ => h b.1 b.2⟩

/-- When every datagram is handed over once, whole and in order, the shell gets what
was typed, and the terminal what the shell has printed, as far as it has been
handed over, exactly when the two programs carry each of these chunks. -/
theorem in_turn_iff (h : Reachable (step cfg) InTurn (initial session) s) (dir : Direction) :
    let handed := (s dir).sent.take (s dir).written.length
    ((s dir).written.map Entry.text).flatten = (handed.map fun x => x.chunk.data).flatten ↔
      ∀ x ∈ handed, Carried cfg session dir x.chunk := by
  intro handed
  have hsent : ∀ x ∈ handed, 0 ∈ x.chunk.buffer.bytes ∧ x.data = wire cfg session x.chunk := by
    intro x hx
    obtain ⟨h0, hdata, -⟩ := (reachable_sound h dir).sent x (List.mem_of_mem_take hx)
    exact ⟨h0, hdata⟩
  rw [(served_of_in_turn h dir).texts,
    flatten_map_eq_iff_of_mem fun x hx => text_isPrefix (hsent x hx).2 dir]
  exact forall₂_congr fun x hx => text_eq_iff (hsent x hx).2 dir (hsent x hx).1

/-- The command `id` is carried. -/
theorem in_turn_iff_id :
    ∃ s : State, (s .toServer).written.length = 1 ∧
      ((s .toServer).written.map Entry.text).flatten
        = (((s .toServer).sent.take (s .toServer).written.length).map fun x =>
            x.chunk.data).flatten := by
  obtain ⟨s, hr, hsent, hlen⟩ := sample_run
  refine ⟨s, hlen, (in_turn_iff hr .toServer).mpr ?_⟩
  rw [hsent]
  intro x hx
  rw [List.mem_singleton.mp (List.mem_of_mem_take hx)]
  exact ⟨by decide, Or.inl ciphertext_id, rfl⟩

/-! ## The network chooses -/

/-- A program sends its chunks. -/
theorem relay_all {dir : Direction} : ∀ {cs chunks : List Chunk} {s : State},
    (∀ c ∈ cs, Clean cfg.E .udp session.bfd c.data) → Reachable (step cfg) Any (initial session) s →
    Live cfg session chunks (s dir) →
    ∃ s', Reachable (step cfg) Any (initial session) s' ∧
      Live cfg session (chunks ++ cs) (s' dir) ∧ (s' dir).written = (s dir).written ∧
      ∀ d, d ≠ dir → s' d = s d
  | [], chunks, s, _, hr, hl => ⟨s, hr, by rwa [List.append_nil], rfl, fun _ _ => rfl⟩
  | c :: cs, chunks, s, hclean, hr, hl => by
      obtain ⟨hc, hcs⟩ := List.forall_mem_cons.mp hclean
      obtain ⟨s₁, hstep, hl₁, hw₁, hd₁⟩ := relay_clean hl hc
      obtain ⟨s₂, hr₂, hl₂, hw₂, hd₂⟩ := relay_all hcs (hr.tail trivial hstep) hl₁
      refine ⟨s₂, hr₂, ?_, hw₂.trans hw₁, fun d hd => (hd₂ d hd).trans (hd₁ d hd)⟩
      rwa [List.append_assoc] at hl₂

theorem deliver_all {chunks : Direction → List Chunk}
    (hclean : ∀ dir, ∀ c ∈ chunks dir, Clean cfg.E .udp session.bfd c.data) :
    ∀ {choice : List Choice} {s : State}, (∀ x ∈ choice, x.number < (chunks x.origin).length) →
      Reachable (step cfg) Any (initial session) s →
      (∀ dir, Live cfg session (chunks dir) (s dir)) →
      ∃ s', Reachable (step cfg) Any (initial session) s' ∧
        (∀ dir, Live cfg session (chunks dir) (s' dir)) ∧
        ∀ dir, (s' dir).written.map Entry.text = (s dir).written.map Entry.text
          ++ (choice.filter fun x => x.dir = dir).map (Choice.text cfg chunks)
  | [], s, _, hr, hl => ⟨s, hr, hl, fun dir => by simp⟩
  | x :: choice, s, hchoice, hr, hl => by
      obtain ⟨hx, hrest⟩ := List.forall_mem_cons.mp hchoice
      obtain ⟨s₁, hstep, hl₁, hw₁, hd₁⟩ := deliver_clean hl (List.getElem?_eq_getElem hx)
        (hclean _ _ (List.getElem_mem hx))
      obtain ⟨s₂, hr₂, hl₂, hw₂⟩ := deliver_all hclean hrest (hr.tail trivial hstep) hl₁
      refine ⟨s₂, hr₂, hl₂, fun dir => ?_⟩
      rw [hw₂]
      by_cases hdir : x.dir = dir
      · subst hdir
        rw [hw₁, List.filter_cons_of_pos (by simp), List.map_append, List.append_assoc]
        rfl
      · rw [hd₁ dir (Ne.symm hdir), List.filter_cons_of_neg (by simpa using hdir)]

/-- The shell and the terminal get what is passed on of the chunks that the network
chooses, in its order and from either direction. -/
theorem network_chooses {chunks : Direction → List Chunk}
    (hclean : ∀ dir, ∀ c ∈ chunks dir, Clean cfg.E .udp session.bfd c.data)
    (choice : List Choice)
    (hchoice : ∀ x ∈ choice, x.number < (chunks x.origin).length) :
    ∃ s, Reachable (step cfg) Any (initial session) s ∧
      (∀ dir, (s dir).sent.map Datagram.chunk = chunks dir) ∧
      ∀ dir, (s dir).written.map Entry.text
        = (choice.filter fun x => x.dir = dir).map (Choice.text cfg chunks) := by
  have hstart : ∀ dir, Live cfg session [] (initial session dir) := live_initial
  obtain ⟨s₁, hr₁, hl₁, hw₁, hd₁⟩ := relay_all (hclean .toServer) .refl (hstart .toServer)
  have hclient : s₁ .toClient = initial session .toClient := hd₁ _ (by decide)
  obtain ⟨s₂, hr₂, hl₂, hw₂, hd₂⟩ :=
    relay_all (hclean .toClient) hr₁ (hclient ▸ hstart .toClient)
  have hserver : s₂ .toServer = s₁ .toServer := hd₂ _ (by decide)
  have hl : ∀ dir, Live cfg session (chunks dir) (s₂ dir)
    | .toServer => hserver ▸ hl₁
    | .toClient => hl₂
  have hw : ∀ dir, (s₂ dir).written = []
    | .toServer => (congrArg Channel.written hserver).trans hw₁
    | .toClient => hw₂.trans (congrArg Channel.written hclient)
  obtain ⟨s₃, hr₃, hl₃, hw₃⟩ := deliver_all hclean hchoice hr₂ hl
  refine ⟨s₃, hr₃, fun dir => ?_, fun dir => ?_⟩
  · rw [(hl₃ dir).sent, List.map_map]
    exact List.map_id _
  · rw [hw₃, hw, List.map_nil, List.nil_append]

/-- The shell prints `id` and is given it twice, while nothing is typed. -/
theorem network_chooses_reflected :
    ∃ s, Reachable (step sampleTunnel) Any (initial Replay.sample) s ∧
      (s .toServer).sent.map Datagram.chunk = [] ∧
      (s .toServer).written.map Entry.text = [ascii "id\n", ascii "id\n"] := by
  let chunks : Direction → List Chunk
    | .toServer => []
    | .toClient => [Replay.sampleCommand]
  have hclean : ∀ dir, ∀ c ∈ chunks dir,
      Clean sampleTunnel.E .udp Replay.sample.bfd c.data
    | .toServer => List.forall_mem_nil _
    | .toClient => List.forall_mem_singleton.mpr clean_sampleCommand
  obtain ⟨s, hr, hsent, hw⟩ := network_chooses hclean
    [⟨.toServer, .toClient, 0⟩, ⟨.toServer, .toClient, 0⟩] (by simp [chunks])
  refine ⟨s, hr, hsent .toServer, (hw .toServer).trans ?_⟩
  decide

end Tunnel

end ServerSsh

import ServerSsh.KeyAgreement
import ServerSsh.Receiver
import ServerSsh.Transition

/-!
# A session in UDP mode

The administrator as a machine that takes datagrams from its port in any order.
It waits for a first datagram, greets its sender, takes a second datagram as the
answer, and then runs as two processes: the receiver takes datagrams for the
shell, and the sender sends the output of the shell.  Each of the two has its own
copy of the connection record.  Every `recvfrom` stores the address of the
datagram in `bfd->client`, and nothing compares it with the address of the
session.  `opener` is the address of the first datagram, which the code does not
keep.

The client is the corresponding machine with `bfd->admin`.

`udp_session_isolated` says exactly which runs stay isolated.  At the
administrator a datagram from elsewhere does no harm when it is not an answer,
or later when it has no text under the keys of the session: it reaches the
receiver's copy of the record, but the output of the shell goes by the sender's
copy.  At the client every datagram from elsewhere does harm.

A process that runs into undefined behaviour stops.  The one exception is the
read in front of the buffer that an empty message leads to in the receiver loop,
whose result is only printed: the receiver may stop there or go on.
-/

namespace ServerSsh

open Libc Transition

/-- The destination of a datagram. -/
def Output.dest : Output → Option SockaddrIn
  | .write _ _ => none
  | .sendto _ _ d => some d

/-- In UDP mode a message is sent to the given peer. -/
theorem sendMessageTo_dest {peer : SockaddrIn} {E : Evp.Cipher} {bfd : Connection}
    {string : MessageBuf} {sent : Sent} (h : sendMessageTo peer E .udp bfd string = .ok sent) :
    sent.call.dest = some peer := by
  obtain ⟨-, -, rfl⟩ := sendMessageTo_ok h
  rfl

/-! ## The administrator -/

namespace Administraitor

/-- What an administrator has done. -/
inductive Event where
  /-- It derived its keys from a datagram. -/
  | keysFrom (source : SockaddrIn)
  /-- It wrote the text of a datagram to the shell. -/
  | toShell (source : SockaddrIn) (written : Bytes)
  /-- It sent output of the shell. -/
  | output (call : Output)

/-- Where an administrator stands. -/
inductive Phase where
  | waiting (bfd : Connection)
  | greeted (bfd : Connection) (g : Server.Greeted)
  /-- The receiver and the sender, unless they have stopped. -/
  | running (receiver sender : Option Connection)
  | stopped

/-- An administrator. -/
structure State where
  phase : Phase
  opener : Option SockaddrIn
  log : List Event

/-- What happens at an administrator. -/
inductive Action where
  /-- A datagram is taken.  `goesOn` tells whether the receiver goes on after an
  empty message. -/
  | datagram (p : Packet) (goesOn : Bool)
  | shellOutput (c : Chunk)

/-- What does not change: the cipher, the results of `rand()`, and the address of
the receiver's buffer, which comes from `calloc`. -/
structure Config where
  E : Evp.Cipher
  rand1 : UInt32
  rand2 : UInt32
  buffer : Nat
  aligned : buffer % 16 = 0

/-- The administrator before its first datagram. -/
def initial (bfd : Connection) : State := ⟨.waiting bfd, none, []⟩

/-- The first datagram is taken and its sender is greeted. -/
def firstDatagram (cfg : Config) (s : State) (bfd : Connection) (p : Packet) : State :=
  let bfd := { bfd with client := Arrival.peer .udp bfd.client (some p) }
  match Server.greet .udp bfd cfg.rand1 cfg.rand2 with
  | .ok g => ⟨.greeted bfd g, some p.source, s.log⟩
  | .error _ => ⟨.stopped, some p.source, s.log⟩

/-- The key set-up from a datagram. -/
def keysOf (bfd : Connection) (g : Server.Greeted) (p : Packet) : Except Fault Connection := do
  let keys ← Server.readAnswer .udp bfd g (some p)
  keySetUp keys.bfd keys.K1 keys.K2

/-- The second datagram is taken as the answer, and the process forks. -/
def secondDatagram (s : State) (bfd : Connection) (g : Server.Greeted) (p : Packet) : State :=
  match keysOf bfd g p with
  | .ok session =>
      { s with phase := .running (some session) (some session), log := .keysFrom p.source :: s.log }
  | .error _ => { s with phase := .stopped }

/-- The receiver takes a datagram. -/
def laterDatagram (cfg : Config) (s : State) (receiver : Connection) (sender : Option Connection)
    (p : Packet) (goesOn : Bool) : State :=
  match Server.getMessage cfg.E .udp receiver (some p) with
  | .error _ => { s with phase := .running none sender }
  | .ok got =>
      match forward cfg.buffer got.string with
      | .ok written =>
          { s with
            phase := .running (some got.bfd) sender
            log := .toShell p.source written :: s.log }
      | .error _ => { s with phase := .running (if goesOn then some got.bfd else none) sender }

/-- The sender takes output of the shell. -/
def sendOutput (cfg : Config) (s : State) (receiver : Option Connection) (sender : Connection)
    (c : Chunk) : State :=
  match Server.relayOutput cfg.E .udp sender c with
  | .ok sent =>
      { s with phase := .running receiver (some sender), log := .output sent.call :: s.log }
  | .error _ => { s with phase := .running receiver none }

/-- A step of an administrator. -/
def step (cfg : Config) (s : State) : Action → Option State
  | .datagram p goesOn =>
      match s.phase with
      | .waiting bfd => some (firstDatagram cfg s bfd p)
      | .greeted bfd g => some (secondDatagram s bfd g p)
      | .running (some receiver) sender => some (laterDatagram cfg s receiver sender p goesOn)
      | .running none _ => none
      | .stopped => none
  | .shellOutput c =>
      match s.phase with
      | .running receiver (some sender) => some (sendOutput cfg s receiver sender c)
      | _ => none

/-! ### What a step does -/

/-- A datagram with a message that is not empty under the keys of a record. -/
def HasText (E : Evp.Cipher) (bfd : Connection) (p : Packet) : Prop :=
  (0 ∈ p.data ∨ p.data.length < maxCommandLenght) ∧ received E bfd p.data ≠ []

/-- The steps of an administrator. -/
inductive Steps (cfg : Config) (s : State) : Action → State → Prop where
  | greets {bfd bfd' : Connection} {g : Server.Greeted} {p : Packet} {goesOn : Bool} :
      s.phase = .waiting bfd →
      Steps cfg s (.datagram p goesOn) ⟨.greeted bfd' g, some p.source, s.log⟩
  | setsUp {bfd session : Connection} {g : Server.Greeted} {p : Packet} {goesOn : Bool} :
      s.phase = .greeted bfd g → IsAnswer p.data → session.client = p.source →
      Steps cfg s (.datagram p goesOn) { s with
        phase := .running (some session) (some session), log := .keysFrom p.source :: s.log }
  | stops {bfd : Connection} {g : Server.Greeted} {p : Packet} {goesOn : Bool} :
      s.phase = .greeted bfd g → ¬ IsAnswer p.data →
      Steps cfg s (.datagram p goesOn) { s with phase := .stopped }
  | forwards {receiver receiver' : Connection} {sender : Option Connection} {p : Packet}
      {goesOn : Bool} {written : Bytes} :
      s.phase = .running (some receiver) sender → HasText cfg.E receiver p → written ≠ [] →
      Steps cfg s (.datagram p goesOn) { s with
        phase := .running (some receiver') sender, log := .toShell p.source written :: s.log }
  | ignores {receiver : Connection} {receiver' sender : Option Connection} {p : Packet}
      {goesOn : Bool} :
      s.phase = .running (some receiver) sender → ¬ HasText cfg.E receiver p →
      Steps cfg s (.datagram p goesOn) { s with phase := .running receiver' sender }
  | sends {receiver : Option Connection} {sender : Connection} {c : Chunk} {call : Output} :
      s.phase = .running receiver (some sender) → call.dest = some sender.client →
      Steps cfg s (.shellOutput c) { s with
        phase := .running receiver (some sender), log := .output call :: s.log }
  | sendFails {receiver : Option Connection} {sender : Connection} {c : Chunk} :
      s.phase = .running receiver (some sender) →
      Steps cfg s (.shellOutput c) { s with phase := .running receiver none }

theorem firstDatagram_eq (cfg : Config) (s : State) (bfd : Connection) (p : Packet) :
    ∃ bfd' g, firstDatagram cfg s bfd p = ⟨.greeted bfd' g, some p.source, s.log⟩ := by
  unfold firstDatagram
  dsimp only
  rw [greet_eq]
  exact ⟨_, _, rfl⟩

theorem keysOf_client {bfd session : Connection} {g : Server.Greeted} {p : Packet}
    (h : keysOf bfd g p = .ok session) : session.client = p.source := by
  obtain ⟨keys, hkeys, h⟩ := bind_eq_ok.mp h
  rw [keySetUp_eq] at h
  cases h
  obtain ⟨b, -, hkeys⟩ := bind_eq_ok.mp hkeys
  obtain ⟨B, -, hkeys⟩ := bind_eq_ok.mp hkeys
  obtain ⟨K1, -, hkeys⟩ := bind_eq_ok.mp hkeys
  obtain ⟨K2, -, hkeys⟩ := bind_eq_ok.mp hkeys
  cases hkeys
  rfl

theorem keysOf_ok_iff (bfd : Connection) (g : Server.Greeted) (p : Packet) :
    (∃ session, keysOf bfd g p = .ok session) ↔ IsAnswer p.data := by
  rw [← Server.readAnswer_ok_iff .udp bfd g p]
  constructor
  · rintro ⟨session, h⟩
    obtain ⟨keys, hkeys, -⟩ := bind_eq_ok.mp h
    exact ⟨keys, hkeys⟩
  · rintro ⟨keys, hkeys⟩
    exact ⟨_, by rw [keysOf, hkeys, ok_bind, keySetUp_eq]⟩

theorem secondDatagram_steps (cfg : Config) {s : State} {bfd : Connection} {g : Server.Greeted}
    (p : Packet) (goesOn : Bool) (hp : s.phase = .greeted bfd g) :
    Steps cfg s (.datagram p goesOn) (secondDatagram s bfd g p) := by
  have hiff := keysOf_ok_iff bfd g p
  unfold secondDatagram
  split
  next session hk => exact .setsUp hp (hiff.mp ⟨session, hk⟩) (keysOf_client hk)
  next hk =>
    refine .stops hp fun ha => ?_
    obtain ⟨session, hs⟩ := hiff.mpr ha
    rw [hk] at hs
    cases hs

theorem laterDatagram_steps (cfg : Config) {s : State} {receiver : Connection}
    {sender : Option Connection} (p : Packet) (goesOn : Bool)
    (hp : s.phase = .running (some receiver) sender) :
    Steps cfg s (.datagram p goesOn) (laterDatagram cfg s receiver sender p goesOn) := by
  by_cases h : 0 ∈ Arrival.data (some p) ∨ (Arrival.data (some p)).length < maxCommandLenght
  · obtain ⟨got, hgot, hs⟩ := Direction.toServer.get_string cfg.E .udp receiver h
    obtain ⟨h0, hcut⟩ := Buf.cstring_zero_eq_ok.mp hs
    have hget : Server.getMessage cfg.E .udp receiver (some p) = .ok got := hgot
    unfold laterDatagram
    rw [hget]
    dsimp only
    by_cases hm : cut got.string.bytes = []
    · rw [forward_nil cfg.buffer h0 hm]
      exact .ignores hp fun ht => ht.2 (hcut ▸ hm)
    · have hlt := received_length_lt cfg.E receiver h
      rw [forward_eq cfg.buffer h0 hm, hcut]
      rw [hcut] at hm
      exact .forwards hp ⟨h, hm⟩ (take_kept_ne_nil cfg.aligned hlt hm)
  · have hget : Server.getMessage cfg.E .udp receiver (some p) = .error .outOfBounds :=
      Direction.toServer.get_unterminated cfg.E .udp receiver h
    unfold laterDatagram
    rw [hget]
    exact .ignores hp fun ht => h ht.1

theorem sendOutput_steps (cfg : Config) {s : State} {receiver : Option Connection}
    {sender : Connection} (c : Chunk) (hp : s.phase = .running receiver (some sender)) :
    Steps cfg s (.shellOutput c) (sendOutput cfg s receiver sender c) := by
  unfold sendOutput
  split
  next sent hs =>
    have hs' : sendMessageTo sender.client cfg.E .udp sender c.buffer = .ok sent := hs
    exact .sends hp (sendMessageTo_dest hs')
  next => exact .sendFails hp

theorem step_steps {cfg : Config} {s s' : State} {a : Action} (hs : step cfg s a = some s') :
    Steps cfg s a s' := by
  cases a with
  | datagram p goesOn =>
      rw [step] at hs
      split at hs
      next bfd hp =>
        cases hs
        obtain ⟨bfd', g, he⟩ := firstDatagram_eq cfg s bfd p
        rw [he]
        exact .greets hp
      next bfd g hp => cases hs; exact secondDatagram_steps cfg p goesOn hp
      next receiver sender hp => cases hs; exact laterDatagram_steps cfg p goesOn hp
      next => cases hs
      next => cases hs
  | shellOutput c =>
      rw [step] at hs
      split at hs
      next receiver sender hp => cases hs; exact sendOutput_steps cfg c hp
      next => cases hs

/-! ### Isolation -/

/-- An event concerns the peer `o` only. -/
def Event.Only (o : SockaddrIn) : Event → Prop
  | keysFrom a => a = o
  | toShell a written => written ≠ [] → a = o
  | output call => call.dest = some o

/-- All that an administrator has done concerns the client that opened the
session. -/
def Isolated (s : State) : Prop := ∀ o ∈ s.opener, ∀ e ∈ s.log, e.Only o

/-- A phase in which a datagram leads to nothing. -/
def Phase.Ignores (E : Evp.Cipher) (p : Packet) : Phase → Prop
  | greeted _ _ => ¬ IsAnswer p.data
  | running (some receiver) _ => ¬ HasText E receiver p
  | _ => True

/-- A datagram that is taken after the first comes from the client that opened
the session, or it leads to nothing. -/
def Harmless (cfg : Config) (s : State) : Action → Prop
  | .datagram p _ => ∀ o ∈ s.opener, p.source = o ∨ s.phase.Ignores cfg.E p
  | .shellOutput _ => True

/-- What runs of harmless steps keep: the sender's record has the opener's
address, and so far nothing concerned anybody else. -/
def Kept (s : State) : Prop :=
  match s.phase with
  | .waiting _ => s.opener = none ∧ s.log = []
  | .greeted _ _ => s.opener.isSome ∧ s.log = []
  | .running _ sender =>
      ∃ o, s.opener = some o ∧ (∀ b ∈ sender, b.client = o) ∧ ∀ e ∈ s.log, e.Only o
  | .stopped => s.log = []

theorem Kept.isolated {s : State} (h : Kept s) : Isolated s := by
  intro o ho e he
  cases hp : s.phase with
  | running receiver sender =>
      rw [Kept, hp] at h
      obtain ⟨o', ho', -, hlog⟩ := h
      rw [ho'] at ho
      cases ho
      exact hlog e he
  | waiting bfd => rw [Kept, hp] at h; rw [h.2] at he; cases he
  | greeted bfd g => rw [Kept, hp] at h; rw [h.2] at he; cases he
  | stopped => rw [Kept, hp] at h; rw [h] at he; cases he

theorem step_kept {cfg : Config} {s s' : State} {a : Action} (h : Kept s)
    (ha : Harmless cfg s a) (hs : step cfg s a = some s') : Kept s' := by
  unfold Kept at h
  cases step_steps hs with
  | greets hp =>
      rw [hp] at h
      exact ⟨rfl, h.2⟩
  | setsUp hp hans hsession =>
      rw [hp] at h
      obtain ⟨o, ho⟩ := Option.isSome_iff_exists.mp h.1
      have hsrc := (ha o ho).resolve_right (by rw [hp]; exact not_not.mpr hans)
      refine ⟨o, ho, ?_, ?_⟩
      · rintro b ⟨⟩
        exact hsession.trans hsrc
      · rw [h.2]
        exact List.forall_mem_singleton.mpr hsrc
  | stops hp hans =>
      rw [hp] at h
      exact h.2
  | forwards hp htext hw =>
      rw [hp] at h
      obtain ⟨o, ho, hsender, hlog⟩ := h
      have hsrc := (ha o ho).resolve_right (by rw [hp]; exact not_not.mpr htext)
      exact ⟨o, ho, hsender, List.forall_mem_cons.mpr ⟨fun _ => hsrc, hlog⟩⟩
  | ignores hp htext =>
      rw [hp] at h
      exact h
  | sends hp hdest =>
      rw [hp] at h
      obtain ⟨o, ho, hsender, hlog⟩ := h
      have hcall := hdest.trans (congrArg some (hsender _ rfl))
      exact ⟨o, ho, hsender, List.forall_mem_cons.mpr ⟨hcall, hlog⟩⟩
  | sendFails hp =>
      rw [hp] at h
      obtain ⟨o, ho, -, hlog⟩ := h
      exact ⟨o, ho, by simp, hlog⟩

theorem reachable_kept {cfg : Config} {bfd : Connection} {s : State}
    (h : Reachable (step cfg) (Harmless cfg) (initial bfd) s) : Kept s :=
  h.invariant ⟨rfl, rfl⟩ fun hk ha hs => step_kept hk ha hs

/-- Before the first datagram there is no opener. -/
theorem reachable_waiting {cfg : Config} {bfd : Connection} {s : State}
    (h : Reachable (step cfg) Any (initial bfd) s) :
    ∀ b, s.phase = .waiting b → s.opener = none := by
  refine h.invariant (P := fun s => ∀ b, s.phase = .waiting b → s.opener = none)
    (fun _ _ => rfl) fun _ _ hs b hb => ?_
  cases step_steps hs <;> cases hb

/-- What has been done stays done, for the same opener. -/
theorem isolated_of_step {cfg : Config} {s s' : State} {a : Action}
    (hw : ∀ b, s.phase = .waiting b → s.opener = none) (hs : step cfg s a = some s')
    (hi : Isolated s') : Isolated s := by
  intro o ho e he
  cases step_steps hs with
  | greets hp =>
      rw [hw _ hp] at ho
      cases ho
  | stops => exact hi o ho e he
  | ignores => exact hi o ho e he
  | sendFails => exact hi o ho e he
  | setsUp => exact hi o ho e (List.mem_cons_of_mem _ he)
  | forwards => exact hi o ho e (List.mem_cons_of_mem _ he)
  | sends => exact hi o ho e (List.mem_cons_of_mem _ he)

/-- A step after which the session is still isolated is harmless. -/
theorem harmless_of_isolated {cfg : Config} {s s' : State} {a : Action} (h : Kept s)
    (hs : step cfg s a = some s') (hi : Isolated s') : Harmless cfg s a := by
  cases step_steps hs with
  | greets hp =>
      unfold Kept at h
      rw [hp] at h
      intro o ho
      rw [h.1] at ho
      cases ho
  | setsUp hp hans => exact fun o ho => Or.inl (hi o ho _ (List.mem_cons_self ..))
  | stops hp hans => exact fun o ho => Or.inr (by rw [hp]; exact hans)
  | forwards hp htext hw => exact fun o ho => Or.inl (hi o ho _ (List.mem_cons_self ..) hw)
  | ignores hp htext => exact fun o ho => Or.inr (by rw [hp]; exact htext)
  | sends => trivial
  | sendFails => trivial

/-- The isolated sessions are those of harmless runs. -/
theorem isolated_iff {cfg : Config} {bfd : Connection} {s : State}
    (h : Reachable (step cfg) Any (initial bfd) s) :
    Isolated s ↔ Reachable (step cfg) (Harmless cfg) (initial bfd) s :=
  h.iff_of_exact (fun hr => (reachable_kept hr).isolated)
    (fun hr hs => isolated_of_step (reachable_waiting hr) hs)
    fun hr hs => harmless_of_isolated (reachable_kept hr) hs

/-! ### A second datagram with an answer -/

/-- An answer from any address sets the keys up. -/
theorem takes_answer (cfg : Config) (bfd : Connection) (ok : State → Action → Prop)
    {p q : Packet} (hq : IsAnswer q.data) (hp : ok (initial bfd) (.datagram p true))
    (hok : ∀ bfd' g, ok ⟨.greeted bfd' g, some p.source, []⟩ (.datagram q true)) :
    ∃ s, Reachable (step cfg) ok (initial bfd) s ∧ s.opener = some p.source ∧
      s.log = [.keysFrom q.source] := by
  obtain ⟨bfd', g, hfirst⟩ := firstDatagram_eq cfg (initial bfd) bfd p
  obtain ⟨session, hsession⟩ := (keysOf_ok_iff bfd' g q).mpr hq
  have hr : Reachable (step cfg) ok (initial bfd) ⟨.greeted bfd' g, some p.source, []⟩ :=
    .tail .refl hp (congrArg some hfirst)
  refine ⟨_, hr.tail (hok bfd' g) rfl, ?_⟩
  unfold secondDatagram
  rw [hsession]
  exact ⟨rfl, rfl⟩

end Administraitor

/-! ## The client -/

namespace Client

/-- What a client has done. -/
inductive Event where
  /-- It stored an address in `bfd->admin`. -/
  | stored (source : SockaddrIn)
  /-- It derived its keys from a datagram. -/
  | keysFrom (source : SockaddrIn)
  /-- It sent a message. -/
  | input (call : Output)

/-- Where a client stands. -/
inductive Phase where
  | started (bfd : Connection)
  /-- The process that reads the input and the process that reads messages,
  unless they have stopped. -/
  | running (reader writer : Option Connection)
  | stopped

/-- A client. -/
structure State where
  phase : Phase
  log : List Event

/-- What happens at a client. -/
inductive Action where
  | datagram (p : Packet)
  | typed (c : Chunk)

/-- What does not change. -/
structure Config where
  E : Evp.Cipher
  rand1 : UInt32
  rand2 : UInt32

/-- The client before the greeting. -/
def initial (bfd : Connection) : State := ⟨.started bfd, []⟩

/-- The key set-up from a datagram. -/
def keysOf (cfg : Config) (bfd : Connection) (p : Packet) : Except Fault Connection := do
  let keys ← preparingNumeralKeys .udp bfd cfg.rand1 cfg.rand2 (some p)
  keySetUp keys.bfd keys.K1 keys.K2

/-- A datagram is taken as the greeting, and the process forks. -/
def greetingDatagram (cfg : Config) (s : State) (bfd : Connection) (p : Packet) : State :=
  match keysOf cfg bfd p with
  | .ok session =>
      ⟨.running (some session) (some session), .keysFrom p.source :: .stored p.source :: s.log⟩
  | .error _ => ⟨.stopped, .stored p.source :: s.log⟩

/-- A datagram is taken as a message. -/
def laterDatagram (cfg : Config) (s : State) (reader : Option Connection) (writer : Connection)
    (p : Packet) : State :=
  match getMessage cfg.E .udp writer (some p) with
  | .ok got => ⟨.running reader (some got.bfd), .stored p.source :: s.log⟩
  | .error _ => ⟨.running reader none, .stored p.source :: s.log⟩

/-- A chunk of input is sent. -/
def sendInput (cfg : Config) (s : State) (reader : Connection) (writer : Option Connection)
    (c : Chunk) : State :=
  match relayInput cfg.E .udp reader c with
  | .ok sent => ⟨.running (some reader) writer, .input sent.call :: s.log⟩
  | .error _ => { s with phase := .running none writer }

/-- A step of a client. -/
def step (cfg : Config) (s : State) : Action → Option State
  | .datagram p =>
      match s.phase with
      | .started bfd => some (greetingDatagram cfg s bfd p)
      | .running reader (some writer) => some (laterDatagram cfg s reader writer p)
      | _ => none
  | .typed c =>
      match s.phase with
      | .running (some reader) writer => some (sendInput cfg s reader writer c)
      | _ => none

/-! ### What a step does -/

/-- The steps of a client. -/
inductive Steps (s : State) : Action → State → Prop where
  | setsUp {bfd session : Connection} {p : Packet} :
      s.phase = .started bfd → session.admin = p.source →
      Steps s (.datagram p) ⟨.running (some session) (some session),
        .keysFrom p.source :: .stored p.source :: s.log⟩
  | stops {bfd : Connection} {p : Packet} :
      s.phase = .started bfd → Steps s (.datagram p) ⟨.stopped, .stored p.source :: s.log⟩
  | prints {reader writer' : Option Connection} {writer : Connection} {p : Packet} :
      s.phase = .running reader (some writer) →
      Steps s (.datagram p) ⟨.running reader writer', .stored p.source :: s.log⟩
  | sends {reader : Connection} {writer : Option Connection} {c : Chunk} {call : Output} :
      s.phase = .running (some reader) writer → call.dest = some reader.admin →
      Steps s (.typed c) ⟨.running (some reader) writer, .input call :: s.log⟩
  | sendFails {reader : Connection} {writer : Option Connection} {c : Chunk} :
      s.phase = .running (some reader) writer →
      Steps s (.typed c) { s with phase := .running none writer }

theorem keysOf_admin {cfg : Config} {bfd session : Connection} {p : Packet}
    (h : keysOf cfg bfd p = .ok session) : session.admin = p.source := by
  obtain ⟨keys, hkeys, h⟩ := bind_eq_ok.mp h
  rw [keySetUp_eq] at h
  cases h
  obtain ⟨b, -, hkeys⟩ := bind_eq_ok.mp hkeys
  obtain ⟨g, -, hkeys⟩ := bind_eq_ok.mp hkeys
  obtain ⟨B1, -, hkeys⟩ := bind_eq_ok.mp hkeys
  obtain ⟨B2, -, hkeys⟩ := bind_eq_ok.mp hkeys
  obtain ⟨K1, -, hkeys⟩ := bind_eq_ok.mp hkeys
  obtain ⟨K2, -, hkeys⟩ := bind_eq_ok.mp hkeys
  obtain ⟨answer, -, hkeys⟩ := bind_eq_ok.mp hkeys
  cases hkeys
  rfl

theorem step_steps {cfg : Config} {s s' : State} {a : Action} (hs : step cfg s a = some s') :
    Steps s a s' := by
  cases a with
  | datagram p =>
      rw [step] at hs
      split at hs
      next bfd hp =>
        cases hs
        unfold greetingDatagram
        split
        next session hk => exact .setsUp hp (keysOf_admin hk)
        next => exact .stops hp
      next reader writer hp =>
        cases hs
        unfold laterDatagram
        split
        next got hg => exact .prints hp
        next => exact .prints hp
      next => cases hs
  | typed c =>
      rw [step] at hs
      split at hs
      next reader writer hp =>
        cases hs
        unfold sendInput
        split
        next sent hsent =>
          have hsent' : sendMessageTo reader.admin cfg.E .udp reader c.buffer = .ok sent := hsent
          exact .sends hp (sendMessageTo_dest hsent')
        next => exact .sendFails hp
      next => cases hs

/-! ### Loyalty -/

/-- An event concerns the peer `o` only. -/
def Event.Only (o : SockaddrIn) : Event → Prop
  | stored a => a = o
  | keysFrom a => a = o
  | input call => call.dest = some o

/-- All that the client has done concerns the administrator at `o`. -/
def Loyal (o : SockaddrIn) (s : State) : Prop := ∀ e ∈ s.log, e.Only o

/-- A datagram that is taken comes from the administrator at `o`. -/
def FromAdmin (o : SockaddrIn) (_ : State) : Action → Prop
  | .datagram p => p.source = o
  | .typed _ => True

/-- What runs keep in which only the administrator at `o` speaks. -/
structure Kept (o : SockaddrIn) (s : State) : Prop where
  /-- The process that reads the input sends to `o`. -/
  reader : ∀ {reader writer}, s.phase = .running (some reader) writer → reader.admin = o
  loyal : Loyal o s

theorem step_kept {cfg : Config} {o : SockaddrIn} {s s' : State} {a : Action} (h : Kept o s)
    (ha : FromAdmin o s a) (hs : step cfg s a = some s') : Kept o s' := by
  cases step_steps hs with
  | setsUp hp hsession =>
      refine ⟨?_, List.forall_mem_cons.mpr ⟨ha, List.forall_mem_cons.mpr ⟨ha, h.loyal⟩⟩⟩
      rintro reader writer ⟨⟩
      exact hsession.trans ha
  | stops hp => exact ⟨by simp, List.forall_mem_cons.mpr ⟨ha, h.loyal⟩⟩
  | prints hp =>
      refine ⟨?_, List.forall_mem_cons.mpr ⟨ha, h.loyal⟩⟩
      rintro reader writer ⟨⟩
      exact h.reader hp
  | sends hp hdest =>
      have hreader := h.reader hp
      refine ⟨?_, List.forall_mem_cons.mpr ⟨hdest.trans (congrArg some hreader), h.loyal⟩⟩
      rintro reader writer ⟨⟩
      exact hreader
  | sendFails hp => exact ⟨by simp, h.loyal⟩

theorem reachable_kept {cfg : Config} {bfd : Connection} {o : SockaddrIn} {s : State}
    (h : Reachable (step cfg) (FromAdmin o) (initial bfd) s) : Kept o s :=
  h.invariant ⟨by simp [initial], List.forall_mem_nil _⟩ fun hk ha hs => step_kept hk ha hs

theorem loyal_of_step {cfg : Config} {o : SockaddrIn} {s s' : State} {a : Action}
    (hs : step cfg s a = some s') (hl : Loyal o s') : Loyal o s := by
  intro e he
  cases step_steps hs with
  | setsUp => exact hl e (List.mem_cons_of_mem _ (List.mem_cons_of_mem _ he))
  | sendFails => exact hl e he
  | stops => exact hl e (List.mem_cons_of_mem _ he)
  | prints => exact hl e (List.mem_cons_of_mem _ he)
  | sends => exact hl e (List.mem_cons_of_mem _ he)

theorem fromAdmin_of_loyal {cfg : Config} {o : SockaddrIn} {s s' : State} {a : Action}
    (hs : step cfg s a = some s') (hl : Loyal o s') : FromAdmin o s a := by
  cases step_steps hs with
  | setsUp => exact hl _ (List.mem_cons_self ..)
  | stops => exact hl _ (List.mem_cons_self ..)
  | prints => exact hl _ (List.mem_cons_self ..)
  | sends => trivial
  | sendFails => trivial

/-- The loyal clients are those to which only their administrator speaks. -/
theorem loyal_iff {cfg : Config} {bfd : Connection} {o : SockaddrIn} {s : State}
    (h : Reachable (step cfg) Any (initial bfd) s) :
    Loyal o s ↔ Reachable (step cfg) (FromAdmin o) (initial bfd) s :=
  h.iff_of_exact (fun hr => (reachable_kept hr).loyal) (fun _ hs => loyal_of_step hs)
    fun _ hs => fromAdmin_of_loyal hs

/-! ### A greeting -/

/-- A greeting from any address sets the keys up. -/
theorem takes_greeting (cfg : Config) (bfd : Connection) (ok : State → Action → Prop) {p : Packet}
    {A1 A2 : UInt64} (h1 : A1.toNat < 2 ^ 31) (h2 : A2.toNat < 2 ^ 31)
    (hp : p.data = greetingText publicKeyP publicKeyG A1 A2)
    (hok : ok (initial bfd) (.datagram p)) :
    ∃ s, Reachable (step cfg) ok (initial bfd) s ∧
      s.log = [.keysFrom p.source, .stored p.source] := by
  obtain ⟨session, hsession⟩ : ∃ session, keysOf cfg bfd p = .ok session := by
    rw [keysOf, preparingNumeralKeys_eq .udp bfd cfg.rand1 cfg.rand2 h1 h2 hp, ok_bind,
      keySetUp_eq]
    exact ⟨_, rfl⟩
  refine ⟨_, .tail .refl hok rfl, ?_⟩
  unfold greetingDatagram
  rw [hsession]
  rfl

end Client

/-! ## Both sides -/

/-- A session is isolated exactly when every step of the administrator is harmless
and every datagram that the client takes comes from the administrator it was
started with. -/
theorem udp_session_isolated {admin : Administraitor.Config} {client : Client.Config}
    {adminBfd clientBfd : Connection} {s : Administraitor.State} {c : Client.State}
    (hs : Reachable (Administraitor.step admin) Any (Administraitor.initial adminBfd) s)
    (hc : Reachable (Client.step client) Any (Client.initial clientBfd) c) :
    (Administraitor.Isolated s ↔
      Reachable (Administraitor.step admin) (Administraitor.Harmless admin)
        (Administraitor.initial adminBfd) s) ∧
    (Client.Loyal clientBfd.admin c ↔
      Reachable (Client.step client) (Client.FromAdmin clientBfd.admin)
        (Client.initial clientBfd) c) :=
  ⟨Administraitor.isolated_iff hs, Client.loyal_iff hc⟩


/-- A datagram with the given text and source. -/
def sampleDatagram (text : Bytes) (h : text.length < maxCommandLenght) (source : SockaddrIn) :
    Packet := ⟨text, source, h.le⟩

/-- The datagram that opens a session. -/
def sampleHey : Packet := sampleDatagram (ascii "@Hey admin!\n") (by decide) sampleBfd.client

/-- The two programs of the sample session. -/
def sampleAdmin : Administraitor.Config :=
  ⟨sampleCipher, 1804289383, 846930886, 0x555555559010, by decide⟩

def sampleClient : Client.Config := ⟨sampleCipher, 1681692777, 1714636915⟩

/-- A session that its client opens and that both sides set up. -/
theorem udp_session_isolated_sample :
    ∃ (s : Administraitor.State) (c : Client.State), s.log ≠ [] ∧ c.log ≠ [] ∧
      Administraitor.Isolated s ∧ Client.Loyal sampleBfd.admin c := by
  obtain ⟨s, hs, -, hslog⟩ := Administraitor.takes_answer sampleAdmin sampleBfd
    (Administraitor.Harmless sampleAdmin) (p := sampleHey)
    (q := sampleDatagram (answerText 7 49) (answerText_fits 7 49) sampleBfd.client)
    (by decide) (by rintro o ⟨⟩) (by rintro bfd' g o ⟨⟩; exact Or.inl rfl)
  obtain ⟨c, hc, hclog⟩ := Client.takes_greeting sampleClient sampleBfd
    (Client.FromAdmin sampleBfd.admin)
    (p := sampleDatagram _ (greetingText_fits publicKeyP publicKeyG 7 49) sampleBfd.admin)
    (by decide) (by decide) rfl rfl
  have h := udp_session_isolated hs.any hc.any
  exact ⟨s, c, hslog ▸ List.cons_ne_nil _ _, hclog ▸ List.cons_ne_nil _ _, h.1.mpr hs, h.2.mpr hc⟩

/-- The answer comes from another address than the first datagram. -/
theorem udp_session_taken_over :
    ¬ ∀ (admin : Administraitor.Config) (client : Client.Config) (adminBfd clientBfd : Connection)
      (s : Administraitor.State) (c : Client.State),
      Reachable (Administraitor.step admin) Any (Administraitor.initial adminBfd) s →
      Reachable (Client.step client) Any (Client.initial clientBfd) c →
        Administraitor.Isolated s ∧ Client.Loyal clientBfd.admin c := by
  intro hclaim
  obtain ⟨s, hs, hopener, hlog⟩ := Administraitor.takes_answer sampleAdmin sampleBfd Any
    (p := sampleHey)
    (q := sampleDatagram (answerText 1 1) (answerText_fits 1 1) ⟨2, 0x3930, 0x0500000a⟩)
    (by decide) trivial fun _ _ => trivial
  have h := (hclaim _ sampleClient _ sampleBfd s _ hs .refl).1
  have honly : (⟨2, 0x3930, 0x0500000a⟩ : SockaddrIn) = sampleBfd.client :=
    h _ hopener (.keysFrom ⟨2, 0x3930, 0x0500000a⟩) (hlog ▸ List.mem_singleton_self _)
  revert honly
  decide

end ServerSsh

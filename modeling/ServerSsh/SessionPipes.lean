import ServerSsh.EndOfInput
import ServerSsh.Posix.Ends
import ServerSsh.Posix.Pipes
import ServerSsh.Transition
import ServerSsh.Wire

/-!
# The processes of a session

After the key set-up `Administraitor` makes two pipes and forks twice.  The first
child is the sender, the second one becomes the shell, and the administrator itself
goes on as the receiver.  Each of the three has all four ends of the pipes and
closes those that it does not use.  They do this in any order, and the receiver and
the shell may be at work before the sender has closed anything.

The machine below are the three processes, and those that the shell starts, from the
two calls of `pipe` on.  What the shell and its programs do with their descriptors is
left open.

No byte is lost, doubled or moved between the loops and the shell.  So what the client
types comes to the shell as it was typed (`typed_taken`), and what the shell prints to
the client (`printed_shown`), as far as the cipher and the receiver's loop carry it.
`waits_iff` says who waits for whom when the calls of `close` are made, and
`after_shell` what is left of a session when the shell has ended.
-/

namespace ServerSsh

open Libc Posix Transition

namespace SessionPipes

/-- `to_sh_chanel_fd` and `from_sh_chanel_fd`. -/
inductive Channel where
  | toSh
  | fromSh
deriving DecidableEq, Repr

/-- The descriptors that the code names, and others. -/
inductive Fd where
  /-- `[0]` and `[1]` of an array. -/
  | chanel (c : Channel) (e : End)
  | stdin
  | stdout
  | stderr
  | other (n : Nat)
deriving DecidableEq, Repr

abbrev Table := Fds Fd Channel

/-- The descriptors after the two calls of `pipe`. -/
def pipes : Table :=
  [(.toSh, .reading), (.toSh, .writing), (.fromSh, .reading), (.fromSh, .writing)].foldl
    (fun t x => t.insert (.chanel x.1 x.2) x) ∅

/-- The calls of the receiver. -/
def receiverCalls : List (Call Fd) :=
  [.close (.chanel .fromSh .writing), .close (.chanel .fromSh .reading),
    .close (.chanel .toSh .reading)]

/-- The calls of the shell in front of `execvp`. -/
def shellCalls : List (Call Fd) :=
  [.close (.chanel .fromSh .reading), .close (.chanel .toSh .writing),
    .dup2 (.chanel .toSh .reading) .stdin, .dup2 (.chanel .fromSh .writing) .stdout,
    .dup2 (.chanel .fromSh .writing) .stderr]

/-- The calls of the sender. -/
def senderCalls : List (Call Fd) :=
  [.close (.chanel .toSh .writing), .close (.chanel .toSh .reading),
    .close (.chanel .fromSh .writing)]

/-- The receiver, with what its `write` has not written yet. -/
structure Receiver where
  process : Process Fd Channel
  bfd : Connection
  left : Bytes

structure Sender where
  process : Process Fd Channel
  bfd : Connection

/-- Where the administrator stands. -/
inductive Main where
  | forksSender (bfd : Connection)
  | forksShell (bfd : Connection)
  | receiver (r : Receiver)
  /-- The process has ended in front of a part of its `write`. -/
  | ended (left : Bytes)

/-- The processes and the pipes of a session. -/
structure State (capacity : Nat) where
  main : Main
  sender : Option Sender
  /-- The shell, and the processes that come from it. -/
  shells : List (Process Fd Channel)
  pipe : Channel → Pipe UInt8 capacity
  /-- What the receiver has passed to its `write`. -/
  written : List Bytes
  /-- What has been read from the first pipe. -/
  taken : Bytes
  /-- What has been written to the second pipe. -/
  printed : Bytes
  /-- What the reads of the sender have returned. -/
  chunks : List Bytes
  /-- The system calls of the sender's `Send_message`. -/
  sent : List Output

variable {capacity : Nat}

/-- The session `bfd` after its key set-up. -/
def start (bfd : Connection) : State capacity :=
  ⟨.forksSender bfd, none, [], fun _ => .empty, [], [], [], [], []⟩

/-- What a process of the shell does with a descriptor. -/
inductive ShellAction where
  | fork
  | call (c : Call Fd)
  | exit
  | read (fd : Fd) (n : Nat)
  | write (fd : Fd) (data : Bytes)

inductive Action where
  /-- A `fork`, and whether it succeeds. -/
  | forkSender (ok : Bool)
  | forkShell (ok : Bool)
  | receiverCall
  | senderCall
  | shellCall (k : Nat)
  /-- The receiver reads from the client.  `goesOn` tells whether it goes on after an
  empty message. -/
  | message (a : Arrival) (goesOn : Bool)
  /-- `n` more bytes of the receiver's `write` go into the pipe. -/
  | write (n : Nat)
  /-- The receiver's `write` finds that nobody has the reading end. -/
  | sigpipe
  /-- The sender reads from the shell and sends. -/
  | output
  | shell (k : Nat) (a : ShellAction)

/-- What the administrator has still to write. -/
def Main.left : Main → Bytes
  | forksSender _ | forksShell _ => []
  | receiver r => r.left
  | ended left => left

/-- The connection record of the administrator. -/
def Main.record : Main → Option Connection
  | forksSender bfd | forksShell bfd => some bfd
  | receiver r => some r.bfd
  | ended _ => none

/-- The descriptors of the administrator. -/
def Main.fds : Main → Option Table
  | forksSender _ | forksShell _ => some pipes
  | receiver r => some r.process.fds
  | ended _ => none

/-- The descriptors of all processes. -/
def State.fds (s : State capacity) : List Table :=
  s.main.fds.toList ++ (s.sender.map fun x => x.process.fds).toList ++ s.shells.map Process.fds

/-- One of the processes has an end. -/
def State.Held (s : State capacity) (c : Channel) (e : End) : Prop := Posix.Held s.fds c e

instance (s : State capacity) (c : Channel) (e : End) : Decidable (s.Held c e) :=
  inferInstanceAs (Decidable (Posix.Held ..))

/-- Replace the content of a pipe. -/
def State.setPipe (s : State capacity) (c : Channel) (p : Pipe UInt8 capacity) : State capacity :=
  { s with pipe := Function.update s.pipe c p }

/-- A read from a pipe. -/
def State.readPipe (s : State capacity) (c : Channel) (n : Nat) :
    Option ({data : Bytes // data.length ≤ n} × State capacity) :=
  ((s.pipe c).read (decide (s.Held c .writing)) n).map fun (data, p) => (data, s.setPipe c p)

/-- A part of a write that goes into a pipe. -/
def State.writePipe (s : State capacity) (c : Channel) (data : Bytes) : Option (State capacity) :=
  if s.Held c .reading then ((s.pipe c).write data).map (s.setPipe c) else none

/-- The receiver's `Get_message`, and the rest of its iteration up to the `write`. -/
def receiveMessage (cfg : Surroundings) (s : State capacity) (r : Receiver) (a : Arrival)
    (goesOn : Bool) : State capacity :=
  match Loop.shellInput.iterate cfg r.bfd a with
  | (bfd, .ok call) =>
      { s with
        main := .receiver { r with bfd := bfd, left := call.data }
        written := s.written ++ [call.data] }
  | (bfd, .error _) =>
      { s with main := if goesOn then .receiver { r with bfd := bfd } else .ended [] }

/-- The sender's `Send_message` of what it has read. -/
def sendOutput (cfg : Surroundings) (s : State capacity) (x : Sender) (c : Chunk) :
    State capacity :=
  match Server.relayOutput cfg.E cfg.mode x.bfd c with
  | .ok sent => { s with chunks := s.chunks ++ [c.data], sent := s.sent ++ [sent.call] }
  | .error _ => { s with chunks := s.chunks ++ [c.data], sender := none }

/-- What the process `p` of the shell, the one with the number `k`, does. -/
def shellStep (s : State capacity) (k : Nat) (p : Process Fd Channel) :
    ShellAction → Option (State capacity)
  | .fork => some { s with shells := s.shells ++ [p] }
  | .call c => some { s with shells := s.shells.set k (p.call c) }
  | .exit => some { s with shells := s.shells.eraseIdx k }
  | .read fd n =>
      if p.fds.lookup fd = some (.toSh, .reading) then
        (s.readPipe .toSh n).map fun (data, s) => { s with taken := s.taken ++ data.1 }
      else none
  | .write fd data =>
      if p.fds.lookup fd = some (.fromSh, .writing) then
        (s.writePipe .fromSh data).map fun s => { s with printed := s.printed ++ data }
      else none

/-- A step of one of the processes. -/
def step (cfg : Surroundings) (s : State capacity) : Action → Option (State capacity)
  | .forkSender ok =>
      match s.main with
      | .forksSender bfd =>
          some { s with
            main := .forksShell bfd
            sender := if ok then some ⟨⟨pipes, senderCalls⟩, bfd⟩ else none }
      | _ => none
  | .forkShell ok =>
      match s.main with
      | .forksShell bfd =>
          some { s with
            main := .receiver ⟨⟨pipes, receiverCalls⟩, bfd, []⟩
            shells := if ok then [⟨pipes, shellCalls⟩] else [] }
      | _ => none
  | .receiverCall =>
      match s.main with
      | .receiver r =>
          r.process.next.map fun p => { s with main := .receiver { r with process := p } }
      | _ => none
  | .senderCall =>
      match s.sender with
      | some x => x.process.next.map fun p => { s with sender := some { x with process := p } }
      | none => none
  | .shellCall k =>
      match s.shells[k]? with
      | some p => p.next.map fun p => { s with shells := s.shells.set k p }
      | none => none
  | .message a goesOn =>
      match s.main with
      | .receiver r =>
          if r.process.Ready ∧ r.left = [] then some (receiveMessage cfg s r a goesOn) else none
      | _ => none
  | .write n =>
      match s.main with
      | .receiver r =>
          if r.process.fds.lookup (.chanel .toSh .writing) = some (.toSh, .writing) ∧
              0 < n ∧ n ≤ r.left.length then
            (s.writePipe .toSh (r.left.take n)).map fun s =>
              { s with main := .receiver { r with left := r.left.drop n } }
          else none
      | _ => none
  | .sigpipe =>
      match s.main with
      | .receiver r =>
          if r.left ≠ [] ∧ ¬ s.Held .toSh .reading then some { s with main := .ended r.left }
          else none
      | _ => none
  | .output =>
      match s.sender with
      | some x =>
          if x.process.fds.lookup (.chanel .fromSh .reading) = some (.fromSh, .reading) ∧
              x.process.Ready then
            (s.readPipe .fromSh maxCommandLenght).map fun (data, s) =>
              sendOutput cfg s x ⟨data.1, data.2⟩
          else none
      | none => none
  | .shell k a =>
      match s.shells[k]? with
      | some p => if p.Ready then shellStep s k p a else none
      | none => none

variable {cfg : Surroundings} {session : Connection} {s s' s₁ : State capacity}

/-! ## What a step does -/

/-- What a read takes is the front of the pipe. -/
theorem readPipe_eq {c : Channel} {n : Nat} {data : {data : Bytes // data.length ≤ n}}
    (h : s.readPipe c n = some (data, s₁)) :
    ∃ q, s₁ = s.setPipe c q ∧ (s.pipe c).content = data.1 ++ q.content := by
  obtain ⟨⟨data, q⟩, hr, heq⟩ := Option.map_eq_some_iff.mp h
  cases heq
  refine ⟨q, rfl, ?_⟩
  unfold Pipe.read at hr
  split at hr
  next => cases hr
  next =>
    cases hr
    exact (List.take_append_drop n _).symm

/-- What a write puts into a pipe is at its end. -/
theorem writePipe_eq {c : Channel} {data : Bytes} (h : s.writePipe c data = some s₁) :
    s.Held c .reading ∧ ∃ q, s₁ = s.setPipe c q ∧ q.content = (s.pipe c).content ++ data := by
  unfold State.writePipe at h
  split at h
  next hheld =>
    obtain ⟨q, hq, rfl⟩ := Option.map_eq_some_iff.mp h
    exact ⟨hheld, q, rfl, Pipe.content_of_write hq⟩
  next => cases h

/-- The steps of the process `p` of the shell. -/
inductive ShellSteps (s : State capacity) (k : Nat) (p : Process Fd Channel) :
    ShellAction → State capacity → Prop where
  | fork : ShellSteps s k p .fork { s with shells := s.shells ++ [p] }
  | call {c : Call Fd} :
      ShellSteps s k p (.call c) { s with shells := s.shells.set k (p.call c) }
  | exit : ShellSteps s k p .exit { s with shells := s.shells.eraseIdx k }
  | read {fd : Fd} {n : Nat} {data : Bytes} {q : Pipe UInt8 capacity} :
      p.fds.lookup fd = some (.toSh, .reading) → (s.pipe .toSh).content = data ++ q.content →
      ShellSteps s k p (.read fd n) { s.setPipe .toSh q with taken := s.taken ++ data }
  | write {fd : Fd} {data : Bytes} {q : Pipe UInt8 capacity} :
      p.fds.lookup fd = some (.fromSh, .writing) →
      q.content = (s.pipe .fromSh).content ++ data →
      ShellSteps s k p (.write fd data) { s.setPipe .fromSh q with printed := s.printed ++ data }

theorem shellStep_steps {k : Nat} {p : Process Fd Channel} {a : ShellAction}
    (hs : shellStep s k p a = some s') : ShellSteps s k p a s' := by
  cases a with
  | fork => cases hs; exact .fork
  | call c => cases hs; exact .call
  | exit => cases hs; exact .exit
  | read fd n =>
      rw [shellStep] at hs
      split at hs
      next hfd =>
        obtain ⟨⟨data, s₁⟩, hr, rfl⟩ := Option.map_eq_some_iff.mp hs
        obtain ⟨q, rfl, hfront⟩ := readPipe_eq hr
        exact .read hfd hfront
      next => cases hs
  | write fd data =>
      rw [shellStep] at hs
      split at hs
      next hfd =>
        obtain ⟨s₁, hw, rfl⟩ := Option.map_eq_some_iff.mp hs
        obtain ⟨-, q, rfl, hend⟩ := writePipe_eq hw
        exact .write hfd hend
      next => cases hs

/-- The steps with what they require and what they lead to. -/
inductive Steps (cfg : Surroundings) (s : State capacity) : Action → State capacity → Prop where
  | forkSender {bfd : Connection} {ok : Bool} : s.main = .forksSender bfd →
      Steps cfg s (.forkSender ok) { s with
        main := .forksShell bfd
        sender := if ok then some ⟨⟨pipes, senderCalls⟩, bfd⟩ else none }
  | forkShell {bfd : Connection} {ok : Bool} : s.main = .forksShell bfd →
      Steps cfg s (.forkShell ok) { s with
        main := .receiver ⟨⟨pipes, receiverCalls⟩, bfd, []⟩
        shells := if ok then [⟨pipes, shellCalls⟩] else [] }
  | receiverCall {r : Receiver} {p : Process Fd Channel} : s.main = .receiver r →
      r.process.next = some p →
      Steps cfg s .receiverCall { s with main := .receiver { r with process := p } }
  | senderCall {x : Sender} {p : Process Fd Channel} : s.sender = some x →
      x.process.next = some p →
      Steps cfg s .senderCall { s with sender := some { x with process := p } }
  | shellCall {k : Nat} {p p' : Process Fd Channel} : s.shells[k]? = some p → p.next = some p' →
      Steps cfg s (.shellCall k) { s with shells := s.shells.set k p' }
  | message {r : Receiver} {a : Arrival} {goesOn : Bool} : s.main = .receiver r →
      r.process.Ready → r.left = [] →
      Steps cfg s (.message a goesOn) (receiveMessage cfg s r a goesOn)
  | write {r : Receiver} {n : Nat} {q : Pipe UInt8 capacity} : s.main = .receiver r →
      s.Held .toSh .reading → 0 < n → n ≤ r.left.length →
      q.content = (s.pipe .toSh).content ++ r.left.take n →
      Steps cfg s (.write n)
        { s.setPipe .toSh q with main := .receiver { r with left := r.left.drop n } }
  | sigpipe {r : Receiver} : s.main = .receiver r → r.left ≠ [] → ¬ s.Held .toSh .reading →
      Steps cfg s .sigpipe { s with main := .ended r.left }
  | output {x : Sender} {c : Chunk} {q : Pipe UInt8 capacity} : s.sender = some x →
      x.process.Ready → (s.pipe .fromSh).content = c.data ++ q.content →
      Steps cfg s .output (sendOutput cfg (s.setPipe .fromSh q) x c)
  | shell {k : Nat} {p : Process Fd Channel} {a : ShellAction} {s' : State capacity} :
      s.shells[k]? = some p → p.Ready → ShellSteps s k p a s' → Steps cfg s (.shell k a) s'

theorem step_steps {a : Action} (hs : step cfg s a = some s') : Steps cfg s a s' := by
  cases a with
  | forkSender ok =>
      rw [step] at hs
      split at hs
      next bfd hm => cases hs; exact .forkSender hm
      next => cases hs
  | forkShell ok =>
      rw [step] at hs
      split at hs
      next bfd hm => cases hs; exact .forkShell hm
      next => cases hs
  | receiverCall =>
      rw [step] at hs
      split at hs
      next r hm =>
        obtain ⟨p, hp, rfl⟩ := Option.map_eq_some_iff.mp hs
        exact .receiverCall hm hp
      next => cases hs
  | senderCall =>
      rw [step] at hs
      split at hs
      next x hx =>
        obtain ⟨p, hp, rfl⟩ := Option.map_eq_some_iff.mp hs
        exact .senderCall hx hp
      next => cases hs
  | shellCall k =>
      rw [step] at hs
      split at hs
      next p hk =>
        obtain ⟨p', hp, rfl⟩ := Option.map_eq_some_iff.mp hs
        exact .shellCall hk hp
      next => cases hs
  | message a goesOn =>
      rw [step] at hs
      split at hs
      next r hm =>
        split at hs
        next hc => cases hs; exact .message hm hc.1 hc.2
        next => cases hs
      next => cases hs
  | write n =>
      rw [step] at hs
      split at hs
      next r hm =>
        split at hs
        next hc =>
          obtain ⟨s₁, hw, rfl⟩ := Option.map_eq_some_iff.mp hs
          obtain ⟨hheld, q, rfl, hend⟩ := writePipe_eq hw
          exact .write hm hheld hc.2.1 hc.2.2 hend
        next => cases hs
      next => cases hs
  | sigpipe =>
      rw [step] at hs
      split at hs
      next r hm =>
        split at hs
        next hc => cases hs; exact .sigpipe hm hc.1 hc.2
        next => cases hs
      next => cases hs
  | output =>
      rw [step] at hs
      split at hs
      next x hx =>
        split at hs
        next hc =>
          obtain ⟨⟨data, s₁⟩, hr, rfl⟩ := Option.map_eq_some_iff.mp hs
          obtain ⟨q, rfl, hfront⟩ := readPipe_eq hr
          exact .output (c := ⟨data.1, data.2⟩) hx hc.2 hfront
        next => cases hs
      next => cases hs
  | shell k a =>
      rw [step] at hs
      split at hs
      next p hk =>
        split at hs
        next hc => exact .shell hk hc (shellStep_steps hs)
        next => cases hs
      next => cases hs

@[simp] theorem setPipe_pipe_self (c : Channel) (q : Pipe UInt8 capacity) :
    (s.setPipe c q).pipe c = q := Function.update_self ..

/-- A message is passed to `write`, or the receiver goes on without it, or it ends. -/
theorem receiveMessage_cases (cfg : Surroundings) (s : State capacity) (r : Receiver) (a : Arrival)
    (goesOn : Bool) :
    (∃ bfd d, receiveMessage cfg s r a goesOn = { s with
        main := .receiver { r with bfd := bfd, left := d }
        written := s.written ++ [d] }) ∨
    ∃ main, receiveMessage cfg s r a goesOn = { s with main := main } ∧
      ((∃ bfd, main = .receiver { r with bfd := bfd }) ∨ main = .ended []) := by
  unfold receiveMessage
  split
  next => exact Or.inl ⟨_, _, rfl⟩
  next =>
    refine Or.inr ⟨_, rfl, ?_⟩
    cases goesOn with
    | true => exact Or.inl ⟨_, rfl⟩
    | false => exact Or.inr rfl

/-- A chunk is sent, or the sender ends. -/
theorem sendOutput_cases (cfg : Surroundings) (s : State capacity) (x : Sender) (c : Chunk) :
    (∃ sent, Server.relayOutput cfg.E cfg.mode x.bfd c = .ok sent ∧ sendOutput cfg s x c
      = { s with chunks := s.chunks ++ [c.data], sent := s.sent ++ [sent.call] }) ∨
    (∀ sent, Server.relayOutput cfg.E cfg.mode x.bfd c ≠ .ok sent) ∧
      sendOutput cfg s x c = { s with chunks := s.chunks ++ [c.data], sender := none } := by
  unfold sendOutput
  split
  next sent h => exact Or.inl ⟨sent, h, rfl⟩
  next fault h => exact Or.inr ⟨fun sent => by rw [h]; simp, rfl⟩

/-! ## No byte is lost -/

/-- What is written to the pipes is read from them. -/
structure Streams (s : State capacity) : Prop where
  input : s.taken ++ (s.pipe .toSh).content ++ s.main.left = s.written.flatten
  output : s.chunks.flatten ++ (s.pipe .fromSh).content = s.printed

theorem step_streams {a : Action} (h : Streams s) (hs : step cfg s a = some s') : Streams s' := by
  cases step_steps hs with
  | forkSender hm | forkShell hm =>
      have hin := h.input
      rw [hm] at hin
      exact ⟨hin, h.output⟩
  | receiverCall hm _ =>
      have hin := h.input
      rw [hm] at hin
      exact ⟨hin, h.output⟩
  | senderCall _ _ => exact ⟨h.input, h.output⟩
  | shellCall _ _ => exact ⟨h.input, h.output⟩
  | @message r a goesOn hm _ hleft =>
      have hin : s.taken ++ (s.pipe .toSh).content = s.written.flatten := by
        rw [← h.input, hm, Main.left, hleft, List.append_nil]
      rcases receiveMessage_cases cfg s r a goesOn with ⟨bfd, d, heq⟩ | ⟨main, heq, hmain⟩
      · rw [heq]
        refine ⟨?_, h.output⟩
        simp [Main.left, ← hin]
      · rw [heq]
        refine ⟨?_, h.output⟩
        rcases hmain with ⟨bfd, rfl⟩ | rfl
        · rwa [Main.left, hleft, List.append_nil]
        · rwa [Main.left, List.append_nil]
  | @write r n q hm _ _ _ hend =>
      refine ⟨?_, h.output⟩
      have hin := h.input
      rw [hm, Main.left, ← List.take_append_drop n r.left] at hin
      rw [setPipe_pipe_self, hend]
      simpa [State.setPipe, Main.left] using hin
  | sigpipe hm _ _ =>
      have hin := h.input
      rw [hm] at hin
      exact ⟨hin, h.output⟩
  | @output x c q _ _ hfront =>
      have hout : (s.chunks ++ [c.data]).flatten ++ q.content = s.printed := by
        rw [← h.output, hfront]
        simp
      rcases sendOutput_cases cfg (s.setPipe .fromSh q) x c with ⟨sent, -, heq⟩ | ⟨-, heq⟩
      · rw [heq]
        exact ⟨h.input, hout⟩
      · rw [heq]
        exact ⟨h.input, hout⟩
  | shell _ _ hshell =>
      cases hshell with
      | fork => exact ⟨h.input, h.output⟩
      | call => exact ⟨h.input, h.output⟩
      | exit => exact ⟨h.input, h.output⟩
      | read _ hfront =>
          refine ⟨?_, h.output⟩
          have hin := h.input
          rw [hfront] at hin
          simpa [State.setPipe] using hin
      | @write _ data _ _ hend =>
          refine ⟨h.input, ?_⟩
          rw [setPipe_pipe_self, hend, ← List.append_assoc]
          exact congrArg (· ++ data) h.output

theorem reachable_streams {ok : State capacity → Action → Prop}
    (h : Reachable (step cfg) ok (start session) s) : Streams s :=
  h.invariant ⟨rfl, rfl⟩ fun hp _ hs => step_streams hp hs

/-! ## What the sender sends -/

/-- `Send_message` of a chunk that was read makes the call `o`. -/
def Relayed (cfg : Surroundings) (session : Connection) (c : Bytes) (o : Output) : Prop :=
  ∃ (h : c.length ≤ maxCommandLenght) (sent : Sent),
    Server.relayOutput cfg.E cfg.mode session ⟨c, h⟩ = .ok sent ∧ sent.call = o

/-- The sender has ended with its last chunk. -/
def Stopped (cfg : Surroundings) (session : Connection) (s : State capacity) (last : List Bytes) :
    Prop :=
  s.sender = none ∧ ∃ c : Chunk, last = [c.data] ∧
    ∀ sent, Server.relayOutput cfg.E cfg.mode session c ≠ .ok sent

theorem Stopped.sender_ne {last : List Bytes} (h : Stopped cfg session s last) {x : Sender} :
    s.sender ≠ some x := by
  rw [h.1]
  simp

/-- Every chunk is sent, except for one that the sender ends with. -/
structure Sends (cfg : Surroundings) (session : Connection) (s : State capacity) : Prop where
  main : ∀ bfd, s.main = .forksSender bfd →
    bfd = session ∧ s.sender = none ∧ s.chunks = [] ∧ s.sent = []
  sender : ∀ x, s.sender = some x → x.bfd = session
  sent : ∃ cs last, s.chunks = cs ++ last ∧ List.Forall₂ (Relayed cfg session) cs s.sent ∧
    (last = [] ∨ Stopped cfg session s last)

/-- Steps that have nothing to do with the sender. -/
theorem Sends.frame (h : Sends cfg session s)
    (hmain : ∀ bfd, s'.main = .forksSender bfd → s.main = .forksSender bfd)
    (hsender : s'.sender = s.sender) (hchunks : s'.chunks = s.chunks) (hsent : s'.sent = s.sent) :
    Sends cfg session s' := by
  refine ⟨fun bfd hbfd => ?_, fun x hx => h.sender x (hsender ▸ hx), ?_⟩
  · rw [hsender, hchunks, hsent]
    exact h.main bfd (hmain bfd hbfd)
  · simp only [Stopped, hsender, hchunks, hsent]
    exact h.sent

/-- There is no sender before the first fork. -/
theorem Sends.main_ne (h : Sends cfg session s) {x : Sender} (hx : s.sender = some x)
    (bfd : Connection) : s.main ≠ .forksSender bfd := by
  intro hbfd
  have hnone := (h.main bfd hbfd).2.1
  rw [hx] at hnone
  cases hnone

theorem step_sends {a : Action} (h : Sends cfg session s) (hs : step cfg s a = some s') :
    Sends cfg session s' := by
  cases step_steps hs with
  | @forkSender bfd ok hm =>
      obtain ⟨rfl, -, hchunks, hsent⟩ := h.main bfd hm
      refine ⟨by simp, ?_, [], [], hchunks, hsent ▸ .nil, Or.inl rfl⟩
      cases ok with
      | true => simp
      | false => simp
  | forkShell _ => exact h.frame (by simp) rfl rfl rfl
  | receiverCall _ _ => exact h.frame (by simp) rfl rfl rfl
  | @senderCall x p hx _ =>
      refine ⟨fun bfd hbfd => absurd hbfd (h.main_ne hx bfd), ?_, ?_⟩
      · intro x' hx'
        cases hx'
        exact h.sender x hx
      · obtain ⟨cs, last, hchunks, hall, hlast⟩ := h.sent
        exact ⟨cs, last, hchunks, hall, Or.inl (hlast.resolve_right fun hend => hend.sender_ne hx)⟩
  | shellCall _ _ => exact h.frame (fun _ => id) rfl rfl rfl
  | @message r a goesOn _ _ _ =>
      rcases receiveMessage_cases cfg s r a goesOn with ⟨bfd, d, heq⟩ | ⟨main, heq, hmain⟩
      · rw [heq]
        exact h.frame (by simp) rfl rfl rfl
      · rw [heq]
        refine h.frame (fun bfd hbfd => ?_) rfl rfl rfl
        rcases hmain with ⟨_, rfl⟩ | rfl
        · cases hbfd
        · cases hbfd
  | write _ _ _ _ _ => exact h.frame (by simp) rfl rfl rfl
  | sigpipe _ _ _ => exact h.frame (by simp) rfl rfl rfl
  | @output x c q hx _ _ =>
      have hmain := h.main_ne hx
      obtain ⟨cs, last, hchunks, hall, hlast⟩ := h.sent
      -- The sender has not ended, so it has sent all the chunks before this one.
      have hlast := hlast.resolve_right fun hend => hend.sender_ne hx
      rw [hlast, List.append_nil] at hchunks
      rcases sendOutput_cases cfg (s.setPipe .fromSh q) x c with
        ⟨sent, hsent, heq⟩ | ⟨hfault, heq⟩
      · rw [heq]
        rw [h.sender x hx] at hsent
        refine ⟨fun bfd hbfd => absurd hbfd (hmain bfd), h.sender, cs ++ [c.data], [], ?_, ?_,
          Or.inl rfl⟩
        · rw [List.append_nil, ← hchunks]
          rfl
        · exact List.rel_append hall (.cons ⟨c.fits, sent, hsent, rfl⟩ .nil)
      · rw [heq]
        rw [h.sender x hx] at hfault
        refine ⟨fun bfd hbfd => absurd hbfd (hmain bfd), by simp, cs, [c.data], ?_, hall,
          Or.inr ⟨rfl, c, rfl, hfault⟩⟩
        rw [← hchunks]
        rfl
  | shell _ _ hshell => cases hshell <;> exact h.frame (fun _ => id) rfl rfl rfl

theorem reachable_sends {ok : State capacity → Action → Prop}
    (h : Reachable (step cfg) ok (start session) s) : Sends cfg session s := by
  refine h.invariant ⟨fun bfd hbfd => ?_, by simp [start], [], [], rfl, .nil, Or.inl rfl⟩
    fun hp _ hs => step_sends hp hs
  cases hbfd
  exact ⟨rfl, rfl, rfl, rfl⟩

/-! ## From program to program -/

/-- The receiver's keys are those of the session. -/
def Keyed (session : Connection) (s : State capacity) : Prop :=
  ∀ bfd, s.main.record = some bfd → sessionCtx bfd = sessionCtx session

theorem receiveMessage_keyed {r : Receiver} {a : Arrival} {goesOn : Bool}
    (h : sessionCtx r.bfd = sessionCtx session) :
    Keyed session (receiveMessage cfg s r a goesOn) := by
  obtain ⟨hkey, hiv⟩ := Loop.shellInput.iterate_keys cfg r.bfd a
  have hctx := (sessionCtx_congr hkey hiv).trans h
  unfold receiveMessage
  split
  next bfd call heq =>
    rw [heq] at hctx
    rintro bfd ⟨⟩
    exact hctx
  next bfd fault heq =>
    rw [heq] at hctx
    cases goesOn with
    | true =>
        rintro bfd ⟨⟩
        exact hctx
    | false => rintro bfd ⟨⟩

theorem step_keyed {a : Action} (h : Keyed session s) (hs : step cfg s a = some s') :
    Keyed session s' := by
  cases step_steps hs with
  | forkSender hm | forkShell hm =>
      rintro bfd ⟨⟩
      exact h _ (by rw [hm]; rfl)
  | receiverCall hm _ | write hm _ _ _ _ =>
      rintro bfd ⟨⟩
      exact h _ (by rw [hm]; rfl)
  | senderCall _ _ => exact h
  | shellCall _ _ => exact h
  | message hm _ _ => exact receiveMessage_keyed (h _ (by rw [hm]; rfl))
  | sigpipe _ _ _ => rintro bfd ⟨⟩
  | @output x c q _ _ _ =>
      rcases sendOutput_cases cfg (s.setPipe .fromSh q) x c with ⟨_, -, heq⟩ | ⟨-, heq⟩
      · rw [heq]
        exact h
      · rw [heq]
        exact h
  | shell _ _ hshell => cases hshell <;> exact h

/-- What the receiver makes of a message that arrives whole. -/
theorem iterate_clean {bfd : Connection} {a : Arrival} {m : Bytes}
    (hctx : sessionCtx bfd = sessionCtx session) (hm : Clean cfg.E cfg.mode session m)
    (ha : Arrival.data a = ciphertext cfg.E session m) :
    ∃ bfd', Loop.shellInput.iterate cfg bfd a
      = (bfd', .ok (.write cfg.toShChanel (Direction.toServer.passed cfg.message m))) := by
  have hlt : (Arrival.data a).length < maxCommandLenght := by
    rw [ha]
    exact hm.length_lt
  obtain ⟨got, hgot, hs⟩ := Direction.toServer.get_string cfg.E cfg.mode bfd (Or.inr hlt)
  have hrec : received cfg.E bfd (Arrival.data a) = m := by
    rw [ha]
    exact received_ciphertext cfg.E hctx.symm hm.noZero hm.cipher
  obtain ⟨h0, hcut⟩ := Buf.cstring_zero_eq_ok.mp (hs.trans (congrArg _ hrec))
  have hforward := forward_eq cfg.message h0 (hcut ▸ hm.nonempty)
  have hget : Server.getMessage cfg.E cfg.mode bfd a = .ok got := hgot
  refine ⟨got.bfd, ?_⟩
  rw [Loop.iterate, hget, passOn, hforward, hcut]
  rfl

/-- The receiver reads the messages `ms`, whole and in this order. -/
def inOrder (cfg : Surroundings) (session : Connection) (ms : List Bytes) (s : State capacity) :
    Action → Bool
  | .message a _ => ms[s.written.length]?.map (ciphertext cfg.E session) == some (Arrival.data a)
  | _ => true

def InOrder (cfg : Surroundings) (session : Connection) (ms : List Bytes) (s : State capacity)
    (a : Action) : Prop := inOrder cfg session ms s a = true

instance (cfg : Surroundings) (session : Connection) (ms : List Bytes) (s : State capacity)
    (a : Action) : Decidable (InOrder cfg session ms s a) := inferInstanceAs (Decidable (_ = _))

/-- The calls of all processes, after the two forks. -/
def setUp : List Action :=
  [.forkSender true, .forkShell true, .senderCall, .senderCall, .senderCall, .receiverCall,
    .receiverCall, .receiverCall, .shellCall 0, .shellCall 0, .shellCall 0, .shellCall 0,
    .shellCall 0]

/-- The session after them. -/
def ready (session : Connection) : State 65536 :=
  { start session with
    main := .receiver ⟨⟨Process.after ⟨pipes, receiverCalls⟩, []⟩, session, []⟩
    sender := some ⟨⟨Process.after ⟨pipes, senderCalls⟩, []⟩, session⟩
    shells := [⟨Process.after ⟨pipes, shellCalls⟩, []⟩] }

/-- The surroundings of a session. -/
def sample : Surroundings := ⟨sampleCipher, .tcp, 0x555555559010, 4⟩

theorem run_setUp (ms : List Bytes) : run (step sample) (InOrder sample sampleSession ms)
    (start sampleSession) setUp = some (ready sampleSession) := rfl

theorem ciphertext_id_fits :
    (ciphertext sampleCipher sampleSession (ascii "id\n")).length ≤ maxCommandLenght :=
  ciphertext_length_le _ _ (by decide)

/-- The command `id` is read, written to the first pipe and taken by the shell. -/
theorem sample_run : ∃ s : State 65536,
    Reachable (step sample) (InOrder sample sampleSession [ascii "id\n"]) (start sampleSession) s ∧
      s.written = [ascii "id\n"] ∧ s.taken = ascii "id\n" := by
  have hready := reachable_of_run (run_setUp [ascii "id\n"])
  let a : Arrival := some ⟨ciphertext sampleCipher sampleSession (ascii "id\n"), ⟨0, 0, 0⟩,
    ciphertext_id_fits⟩
  have hclean : Clean sample.E sample.mode sampleSession (ascii "id\n") := clean_id .tcp
  obtain ⟨bfd, hiter⟩ := iterate_clean (a := a) rfl hclean rfl
  have hmessage : step sample (ready sampleSession) (.message a true)
      = some (receiveMessage sample (ready sampleSession)
        ⟨⟨Process.after ⟨pipes, receiverCalls⟩, []⟩, sampleSession, []⟩ a true) := rfl
  have hok : InOrder sample sampleSession [ascii "id\n"] (ready sampleSession)
      (.message a true) := beq_self_eq_true _
  have hpassed : Direction.toServer.passed sample.message (ascii "id\n") = ascii "id\n" := by decide
  rw [receiveMessage, hiter, hpassed] at hmessage
  have hfits : (ascii "id\n").length ≤ 65536 := by decide
  let q : Pipe UInt8 65536 := ⟨ascii "id\n", hfits⟩
  let s₁ : State 65536 := { ready sampleSession with
    main := .receiver
      ⟨⟨Process.after ⟨pipes, receiverCalls⟩, []⟩, bfd, ascii "id\n"⟩
    written := [ascii "id\n"] }
  let s₂ : State 65536 := { s₁.setPipe .toSh q with
    main := .receiver ⟨⟨Process.after ⟨pipes, receiverCalls⟩, []⟩, bfd, []⟩ }
  let s₃ : State 65536 := { s₂.setPipe .toSh .empty with taken := ascii "id\n" }
  have hwrite : step sample s₁ (.write 3) = some s₂ := rfl
  have hread : step sample s₂ (.shell 0 (.read .stdin 3)) = some s₃ := rfl
  have h₁ : Reachable _ _ _ s₁ := hready.tail hok hmessage
  have h₂ := h₁.tail (a := Action.write 3) rfl hwrite
  exact ⟨s₃, h₂.tail (a := Action.shell 0 (.read .stdin 3)) rfl hread, rfl, rfl⟩

/-- A step writes the next of the messages, or nothing. -/
theorem step_written {ms : List Bytes} (hms : ∀ m ∈ ms, Clean cfg.E cfg.mode session m)
    (h : Keyed session s) {a : Action} (hok : InOrder cfg session ms s a)
    (hs : step cfg s a = some s') :
    s'.written = s.written ∨ ∃ m, ms[s.written.length]? = some m ∧
      s'.written = s.written ++ [Direction.toServer.passed cfg.message m] := by
  cases step_steps hs with
  | @message r a goesOn hm _ _ =>
      obtain ⟨m, hnext, ha⟩ := Option.map_eq_some_iff.mp (eq_of_beq hok)
      have hctx := h r.bfd (by rw [hm]; rfl)
      obtain ⟨bfd, hiter⟩ := iterate_clean hctx (hms m (List.mem_of_getElem? hnext)) ha.symm
      refine Or.inr ⟨m, hnext, ?_⟩
      rw [receiveMessage, hiter]
      rfl
  | @output x c q _ _ _ =>
      rcases sendOutput_cases cfg (s.setPipe .fromSh q) x c with ⟨_, -, heq⟩ | ⟨-, heq⟩
      · exact Or.inl (by rw [heq]; rfl)
      · exact Or.inl (by rw [heq]; rfl)
  | shell _ _ hshell => cases hshell <;> exact Or.inl rfl
  | _ => exact Or.inl rfl

/-- The messages that the receiver reads in order, come to the shell in order: what has
been read from the first pipe is the start of what is passed on of them. -/
theorem typed_taken {ms : List Bytes} (hms : ∀ m ∈ ms, Clean cfg.E cfg.mode session m)
    (h : Reachable (step cfg) (InOrder cfg session ms) (start session) s) :
    s.taken ++ (s.pipe .toSh).content ++ s.main.left
      = ((ms.take s.written.length).map (Direction.toServer.passed cfg.message)).flatten := by
  have hboth := h.invariant (P := fun s => Keyed session s ∧
      s.written = (ms.take s.written.length).map (Direction.toServer.passed cfg.message))
    ⟨by rintro bfd ⟨⟩; rfl, rfl⟩ fun {s s' a} hp hok hs => by
      refine ⟨step_keyed hp.1 hs, ?_⟩
      rcases step_written hms hp.1 hok hs with heq | ⟨m, hnext, heq⟩
      · rw [heq]
        exact hp.2
      · rw [heq, List.length_append, List.length_singleton, List.take_add_one, hnext,
          List.map_append, ← hp.2]
        rfl
  rw [(reachable_streams h).input, ← hboth.2]

theorem typed_taken_id :
    ∃ s : State 65536, s.taken = ascii "id\n" ∧
      s.taken ++ (s.pipe .toSh).content ++ s.main.left
        = (([ascii "id\n"].take s.written.length).map
          (Direction.toServer.passed sample.message)).flatten := by
  obtain ⟨s, hr, -, htaken⟩ := sample_run
  exact ⟨s, htaken, typed_taken (List.forall_mem_singleton.mpr (clean_id .tcp)) hr⟩

/-- Each chunk of the sender is shown by a client with the keys of the session. -/
def Shows (cfg : Surroundings) (session : Connection) (c : Bytes) (o : Output) : Prop :=
  ∀ (conData : Connection) (mode : Mode) (p : Packet), sessionCtx conData = sessionCtx session →
    p.data = o.data →
      ∃ conData', Client.receive cfg.E mode conData (some p) = .ok (conData', c)

theorem Relayed.shows {c : Bytes} {o : Output} (hc : Clean cfg.E cfg.mode session c)
    (h : Relayed cfg session c o) : Shows cfg session c o := by
  obtain ⟨hfits, sent, hsent, rfl⟩ := h
  intro conData mode p hctx hp
  obtain ⟨-, -, rfl⟩ := sendMessageTo_ok hsent
  have hcut : cut (Chunk.mk c hfits).buffer.bytes = c := (Clean.buffer (c := ⟨c, hfits⟩) hc).2
  have hcipher : ciphertext cfg.E session c = ciphertext cfg.E conData c := by
    rw [ciphertext, ciphertext, hctx]
  rw [Output.data_of, hcut, cut_eq_self hc.cipher, hcipher] at hp
  exact Direction.toClient.pass_ciphertext mode 0 hc.noZero hc.nonempty hc.short hp
    (hcipher ▸ hc.cipher)

/-- What the shell prints in texts that the cipher carries is sent, in order and nothing
else, and shown by the client. -/
theorem printed_shown (h : Reachable (step cfg) Any (start session) s)
    (hclean : ∀ c ∈ s.chunks, Clean cfg.E cfg.mode session c) :
    List.Forall₂ (Shows cfg session) s.chunks s.sent ∧
      s.chunks.flatten ++ (s.pipe .fromSh).content = s.printed := by
  obtain ⟨cs, last, hchunks, hall, hlast⟩ := (reachable_sends h).sent
  refine ⟨?_, (reachable_streams h).output⟩
  have hnil : last = [] := by
    refine hlast.resolve_right ?_
    rintro ⟨-, c, rfl, hfault⟩
    obtain ⟨sent, hsent, -⟩ := (hclean c.data (by simp [hchunks])).relay .toClient
    exact hfault sent hsent
  rw [hnil, List.append_nil] at hchunks
  rw [hchunks] at hclean ⊢
  exact ((List.forall₂_and_left _ _).mpr ⟨hclean, hall⟩).imp fun c o h => h.2.shows h.1

/-- The shell prints `id`. -/
theorem printed_shown_id : ∃ s : State 65536, s.chunks = [ascii "id\n"] ∧
    List.Forall₂ (Shows sample sampleSession) s.chunks s.sent ∧
      s.chunks.flatten ++ (s.pipe .fromSh).content = s.printed := by
  have hready := (reachable_of_run (run_setUp [])).any
  have hfits : (ascii "id\n").length ≤ 65536 := by decide
  let s₁ : State 65536 :=
    { (ready sampleSession).setPipe .fromSh ⟨ascii "id\n", hfits⟩ with printed := ascii "id\n" }
  have hprint : step sample (ready sampleSession) (.shell 0 (.write .stdout (ascii "id\n")))
      = some s₁ := rfl
  let x : Sender := ⟨⟨Process.after ⟨pipes, senderCalls⟩, []⟩, sampleSession⟩
  have houtput : step sample s₁ .output
      = some (sendOutput sample (s₁.setPipe .fromSh .empty) x ⟨ascii "id\n", hfits⟩) := rfl
  have hr := (hready.tail trivial hprint).tail trivial houtput
  have hchunks : (sendOutput sample (s₁.setPipe .fromSh .empty) x ⟨ascii "id\n", hfits⟩).chunks
      = [ascii "id\n"] := by
    rcases sendOutput_cases sample (s₁.setPipe .fromSh .empty) x ⟨ascii "id\n", hfits⟩ with
      ⟨_, -, heq⟩ | ⟨-, heq⟩
    · rw [heq]
      rfl
    · rw [heq]
      rfl
  exact ⟨_, hchunks, printed_shown hr (hchunks ▸ List.forall_mem_singleton.mpr (clean_id .tcp))⟩

/-! ## Who has the ends -/

/-- The administrator has forked twice, and has made the calls of the receiver. -/
def Main.Settled : Main → Prop
  | forksSender _ | forksShell _ => False
  | receiver r => r.process.Ready
  | ended _ => True

/-- All processes are past their calls. -/
structure Settled (s : State capacity) : Prop where
  main : s.main.Settled
  sender : ∀ x, s.sender = some x → x.process.Ready
  shells : ∀ p ∈ s.shells, p.Ready

/-- The ends that the shell is to have. -/
def Shells (c : Channel) (e : End) : Prop :=
  c = .toSh ∧ e = .reading ∨ c = .fromSh ∧ e = .writing

instance (c : Channel) (e : End) : Decidable (Shells c e) := inferInstanceAs (Decidable (_ ∨ _))

/-- Each process has its ends, or is about to close the others. -/
structure Wired (s : State capacity) : Prop where
  receiver : ∀ r, s.main = .receiver r →
    r.process.after = Process.after ⟨pipes, receiverCalls⟩ ∧ (r.left ≠ [] → r.process.Ready)
  sender : ∀ x, s.sender = some x → x.process.after = Process.after ⟨pipes, senderCalls⟩
  shells : ∀ p ∈ s.shells, ∀ c e, p.after.Has c e → Shells c e

theorem receiver_has {c : Channel} {e : End} :
    (Process.after ⟨pipes, receiverCalls⟩).Has c e ↔ c = .toSh ∧ e = .writing := by
  cases c <;> cases e <;> decide

theorem sender_has {c : Channel} {e : End} :
    (Process.after ⟨pipes, senderCalls⟩).Has c e ↔ c = .fromSh ∧ e = .reading := by
  cases c <;> cases e <;> decide

theorem shell_has {c : Channel} {e : End} (h : (Process.after ⟨pipes, shellCalls⟩).Has c e) :
    Shells c e := by
  revert h
  cases c <;> cases e <;> decide

/-- What is required of a process of the shell stays true. -/
theorem shells_call {p : Process Fd Channel} {q : Call Fd} (hp : p.Ready)
    (h : ∀ c e, p.after.Has c e → Shells c e) :
    ∀ c e, (p.call q).after.Has c e → Shells c e := by
  have hcall : (p.call q).Ready := hp
  rw [Process.after_of_ready hp] at h
  rw [Process.after_of_ready hcall]
  exact fun c e hce => h c e (Call.has_of_run hce)

theorem step_wired {a : Action} (h : Wired s) (hs : step cfg s a = some s') : Wired s' := by
  cases step_steps hs with
  | @forkSender bfd ok hm =>
      refine ⟨by simp, fun x hx => ?_, h.shells⟩
      cases ok with
      | true => cases hx; rfl
      | false => cases hx
  | @forkShell bfd ok hm =>
      refine ⟨fun r hr => ?_, h.sender, fun p hp => ?_⟩
      · cases hr
        exact ⟨rfl, fun hleft => absurd rfl hleft⟩
      · cases ok with
        | true =>
            cases List.mem_singleton.mp hp
            exact fun c e => shell_has
        | false => cases hp
  | receiverCall hm hp =>
      refine ⟨fun r hr => ?_, h.sender, h.shells⟩
      cases hr
      obtain ⟨hafter, hready⟩ := h.receiver _ hm
      refine ⟨(Process.after_next hp).trans hafter, fun hleft => ?_⟩
      rw [Process.next, hready hleft] at hp
      cases hp
  | senderCall hx hp =>
      refine ⟨h.receiver, fun x' hx' => ?_, h.shells⟩
      cases hx'
      exact (Process.after_next hp).trans (h.sender _ hx)
  | shellCall hk hp =>
      refine ⟨h.receiver, h.sender, fun p hmem => ?_⟩
      rcases List.mem_or_eq_of_mem_set hmem with hmem | rfl
      · exact h.shells p hmem
      · rw [Process.after_next hp]
        exact h.shells _ (List.mem_of_getElem? hk)
  | @message r a goesOn hm hready _ =>
      have hafter := (h.receiver r hm).1
      rcases receiveMessage_cases cfg s r a goesOn with ⟨bfd, d, heq⟩ | ⟨main, heq, hmain⟩
      · rw [heq]
        refine ⟨fun r hr => ?_, h.sender, h.shells⟩
        cases hr
        exact ⟨hafter, fun _ => hready⟩
      · rw [heq]
        refine ⟨fun r hr => ?_, h.sender, h.shells⟩
        rcases hmain with ⟨bfd, rfl⟩ | rfl
        · cases hr
          exact ⟨hafter, fun _ => hready⟩
        · cases hr
  | write hm _ hpos hle _ =>
      obtain ⟨hafter, hready⟩ := h.receiver _ hm
      refine ⟨fun r hr => ?_, h.sender, h.shells⟩
      cases hr
      refine ⟨hafter, fun _ => hready ?_⟩
      exact List.ne_nil_of_length_pos (hpos.trans_le hle)
  | sigpipe _ _ _ => exact ⟨by simp, h.sender, h.shells⟩
  | @output x c q hx _ _ =>
      rcases sendOutput_cases cfg (s.setPipe .fromSh q) x c with ⟨_, -, heq⟩ | ⟨-, heq⟩
      · rw [heq]
        exact ⟨h.receiver, h.sender, h.shells⟩
      · rw [heq]
        exact ⟨h.receiver, by simp, h.shells⟩
  | @shell k p a s' hk hready hshell =>
      have hp := h.shells p (List.mem_of_getElem? hk)
      cases hshell with
      | fork =>
          refine ⟨h.receiver, h.sender, fun p' hmem => ?_⟩
          rcases List.mem_append.mp hmem with hmem | hmem
          · exact h.shells p' hmem
          · exact List.mem_singleton.mp hmem ▸ hp
      | call =>
          refine ⟨h.receiver, h.sender, fun p' hmem => ?_⟩
          rcases List.mem_or_eq_of_mem_set hmem with hmem | rfl
          · exact h.shells p' hmem
          · exact shells_call hready hp
      | exit =>
          exact ⟨h.receiver, h.sender, fun p' hmem => h.shells p' (List.mem_of_mem_eraseIdx hmem)⟩
      | read _ _ => exact ⟨h.receiver, h.sender, h.shells⟩
      | write _ _ => exact ⟨h.receiver, h.sender, h.shells⟩

theorem reachable_wired (h : Reachable (step cfg) Any (start session) s) : Wired s := by
  refine h.invariant ⟨fun r hr => ?_, by simp [start], by simp [start]⟩
    fun hp _ hs => step_wired hp hs
  cases hr

/-- An end of a pipe is held by the administrator, the sender or a process of the
shell. -/
theorem held_iff {c : Channel} {e : End} :
    s.Held c e ↔ (∃ t, s.main.fds = some t ∧ t.Has c e) ∨
      (∃ x, s.sender = some x ∧ x.process.fds.Has c e) ∨ ∃ p ∈ s.shells, p.fds.Has c e := by
  simp [State.Held, Posix.Held, State.fds, or_and_right, exists_or]

theorem held_main (h : Wired s) (hs : Settled s) {c : Channel} {e : End} :
    (∃ t, s.main.fds = some t ∧ t.Has c e) ↔
      (∃ r, s.main = .receiver r) ∧ c = .toSh ∧ e = .writing := by
  have hmain := hs.main
  cases hm : s.main with
  | forksSender bfd | forksShell bfd =>
      rw [hm] at hmain
      exact hmain.elim
  | receiver r =>
      rw [hm] at hmain
      have hafter := (h.receiver r hm).1
      rw [Process.after_of_ready hmain] at hafter
      simp [Main.fds, hafter, receiver_has]
  | ended left => simp [Main.fds]

theorem held_sender (h : Wired s) (hs : Settled s) {c : Channel} {e : End} :
    (∃ x, s.sender = some x ∧ x.process.fds.Has c e) ↔
      (∃ x, s.sender = some x) ∧ c = .fromSh ∧ e = .reading := by
  have hfds : ∀ x, s.sender = some x → (x.process.fds.Has c e ↔ c = .fromSh ∧ e = .reading) := by
    intro x hx
    rw [← Process.after_of_ready (hs.sender x hx), h.sender x hx, sender_has]
  constructor
  · rintro ⟨x, hx, hhas⟩
    exact ⟨⟨x, hx⟩, (hfds x hx).mp hhas⟩
  · rintro ⟨⟨x, hx⟩, hends⟩
    exact ⟨x, hx, (hfds x hx).mpr hends⟩

theorem held_shells (h : Wired s) (hs : Settled s) {c : Channel} {e : End}
    (hhas : ∃ p ∈ s.shells, p.fds.Has c e) : Shells c e := by
  obtain ⟨p, hp, hhas⟩ := hhas
  rw [← Process.after_of_ready (hs.shells p hp)] at hhas
  exact h.shells p hp c e hhas

/-- When all processes have made their calls, each of them has the ends that it works
with, and no other. -/
theorem ends_iff (h : Reachable (step cfg) Any (start session) s) (hs : Settled s) :
    (s.Held .toSh .writing ↔ ∃ r, s.main = .receiver r) ∧
      (s.Held .fromSh .reading ↔ ∃ x, s.sender = some x) ∧
      (s.Held .toSh .reading ↔ ∃ p ∈ s.shells, p.fds.Has .toSh .reading) ∧
      (s.Held .fromSh .writing ↔ ∃ p ∈ s.shells, p.fds.Has .fromSh .writing) := by
  have hw := reachable_wired h
  have hshells := fun (c : Channel) (e : End) => held_shells hw hs (c := c) (e := e)
  simp only [held_iff, held_main hw hs, held_sender hw hs]
  refine ⟨?_, ?_, ?_, ?_⟩
  · have hnot := mt (hshells .toSh .writing) (by decide)
    simp [hnot]
  · have hnot := mt (hshells .fromSh .reading) (by decide)
    simp [hnot]
  · simp
  · simp

theorem readPipe_eq_none_iff {c : Channel} {n : Nat} :
    s.readPipe c n = none ↔ (s.pipe c).content = [] ∧ s.Held c .writing := by
  rw [State.readPipe, Option.map_eq_none_iff, Pipe.read]
  split
  next h => simpa using h
  next h => simpa using h

/-- What the ends are good for.  The shell waits for input as long as there is a
receiver, and the sender for output as long as a process of the shell has the writing
end.  The receiver's `write` kills it when no process of the shell has the reading end,
and what the shell writes has a reader as long as there is a sender. -/
theorem waits_iff (h : Reachable (step cfg) Any (start session) s) (hs : Settled s) :
    (∀ n, s.readPipe .toSh n = none ↔
      (s.pipe .toSh).content = [] ∧ ∃ r, s.main = .receiver r) ∧
    (∀ n, s.readPipe .fromSh n = none ↔
      (s.pipe .fromSh).content = [] ∧ ∃ p ∈ s.shells, p.fds.Has .fromSh .writing) ∧
    (∀ r, s.main = .receiver r → ((step cfg s .sigpipe).isSome ↔
      r.left ≠ [] ∧ ∀ p ∈ s.shells, ¬ p.fds.Has .toSh .reading)) ∧
    (s.Held .fromSh .reading ↔ ∃ x, s.sender = some x) := by
  obtain ⟨htoShW, hfromShR, htoShR, hfromShW⟩ := ends_iff h hs
  refine ⟨fun n => ?_, fun n => ?_, fun r hr => ?_, hfromShR⟩
  · rw [readPipe_eq_none_iff, htoShW]
  · rw [readPipe_eq_none_iff, hfromShW]
  · rw [step, hr]
    simp [htoShR]

theorem settled_ready : Settled (ready sampleSession) where
  main := rfl
  sender := by
    rintro x ⟨⟩
    rfl
  shells := List.forall_mem_singleton.mpr rfl

/-- After the calls the shell waits for input, and the sender for output. -/
theorem waits_iff_ready : (ready sampleSession).readPipe .toSh maxCommandLenght = none ∧
    (ready sampleSession).readPipe .fromSh maxCommandLenght = none := by
  have hready := (reachable_of_run (run_setUp [])).any
  obtain ⟨hin, hout, -, -⟩ := waits_iff hready settled_ready
  have hshell : (Process.after ⟨pipes, shellCalls⟩).Has Channel.fromSh .writing := by decide
  exact ⟨(hin _).mpr ⟨rfl, _, rfl⟩, (hout _).mpr ⟨rfl, _, List.mem_singleton.mpr rfl, hshell⟩⟩

/-! ## When the shell has ended -/

/-- The shell has ended, and all that it had started. -/
structure Over (s : State capacity) : Prop where
  settled : Settled s
  shells : s.shells = []

theorem Over.not_held (h : Over s) (hw : Wired s) {c : Channel} {e : End} (hce : Shells c e) :
    ¬ s.Held c e := by
  rw [held_iff, held_main hw h.settled, held_sender hw h.settled, h.shells]
  rcases hce with ⟨rfl, rfl⟩ | ⟨rfl, rfl⟩
  · simp
  · simp

/-- What is the same in `s'` as in `s` when the shell has ended. -/
structure Kept (s s' : State capacity) : Prop where
  ended : Over s'
  taken : s'.taken = s.taken
  printed : s'.printed = s.printed
  input : s'.pipe .toSh = s.pipe .toSh

theorem step_kept {a : Action} (hw : Wired s) (h : Over s) (hs : step cfg s a = some s') :
    Kept s s' := by
  obtain ⟨⟨hmain, hsender, hshells⟩, hnone⟩ := h
  cases step_steps hs with
  | forkSender hm | forkShell hm =>
      rw [hm] at hmain
      exact hmain.elim
  | receiverCall hm hp =>
      rw [hm] at hmain
      rw [Process.next, show Process.calls _ = [] from hmain] at hp
      cases hp
  | senderCall hx hp =>
      rw [Process.next, show Process.calls _ = [] from hsender _ hx] at hp
      cases hp
  | shellCall hk _ | shell hk _ _ =>
      rw [hnone] at hk
      cases hk
  | @message r a goesOn hm hready _ =>
      rcases receiveMessage_cases cfg s r a goesOn with ⟨bfd, d, heq⟩ | ⟨main, heq, hmain'⟩
      · rw [heq]
        exact ⟨⟨⟨hready, hsender, hshells⟩, hnone⟩, rfl, rfl, rfl⟩
      · rw [heq]
        refine ⟨⟨⟨?_, hsender, hshells⟩, hnone⟩, rfl, rfl, rfl⟩
        rcases hmain' with ⟨bfd, rfl⟩ | rfl
        · exact hready
        · trivial
  | write hm hheld _ _ _ =>
      have hover : Over s := ⟨⟨hmain, hsender, hshells⟩, hnone⟩
      exact absurd hheld (hover.not_held hw (Or.inl ⟨rfl, rfl⟩))
  | sigpipe _ _ _ => exact ⟨⟨⟨trivial, hsender, hshells⟩, hnone⟩, rfl, rfl, rfl⟩
  | @output x c q _ _ _ =>
      rcases sendOutput_cases cfg (s.setPipe .fromSh q) x c with ⟨_, -, heq⟩ | ⟨-, heq⟩
      · rw [heq]
        exact ⟨⟨⟨hmain, hsender, hshells⟩, hnone⟩, rfl, rfl, rfl⟩
      · rw [heq]
        exact ⟨⟨⟨hmain, by simp, hshells⟩, hnone⟩, rfl, rfl, rfl⟩

/-- The encrypted empty string, to the client. -/
def emptyMessage (cfg : Surroundings) (session : Connection) : Output :=
  .of cfg.mode session.connFd session.sockFd session.client (cut (ciphertext cfg.E session []))

/-- A sender that has an empty pipe in front of it sends the empty string. -/
theorem output_empty (hw : Wired s) (hsends : Sends cfg session s) (h : Over s) {x : Sender}
    (hx : s.sender = some x) (hempty : (s.pipe .fromSh).content = []) :
    ∃ s', step cfg s .output = some s' ∧ s'.sender = some x ∧
      (s'.pipe .fromSh).content = [] ∧ s'.sent = s.sent ++ [emptyMessage cfg session] := by
  have hready := h.settled.sender x hx
  have hfds := (Process.after_of_ready hready).symm.trans (hw.sender x hx)
  have hfd : x.process.fds.lookup (.chanel .fromSh .reading) = some (.fromSh, .reading) := by
    rw [hfds]
    rfl
  have hread : s.readPipe .fromSh maxCommandLenght ≠ none := fun hnone =>
    h.not_held hw (Or.inr ⟨rfl, rfl⟩) (readPipe_eq_none_iff.mp hnone).2
  obtain ⟨⟨data, s₁⟩, hr⟩ := Option.ne_none_iff_exists'.mp hread
  obtain ⟨q, rfl, hfront⟩ := readPipe_eq hr
  rw [hempty] at hfront
  obtain ⟨hdata, hq⟩ := List.append_eq_nil_iff.mp hfront.symm
  have hsent := Server.relayOutput_nil cfg.E cfg.mode session (c := ⟨data.1, data.2⟩) hdata
  have hrecord := hsends.sender x hx
  refine ⟨sendOutput cfg (s.setPipe .fromSh q) x ⟨data.1, data.2⟩, ?_, ?_⟩
  · rw [step, hx]
    dsimp only
    rw [if_pos ⟨hfd, hready⟩, hr]
    rfl
  · rw [sendOutput, hrecord, hsent]
    exact ⟨hx, (congrArg Pipe.content (setPipe_pipe_self ..)).trans hq, rfl⟩

/-- When the shell has ended, nothing is read and nothing printed any more.  What the
receiver passes on kills it, and a sender with an empty pipe in front of it can send the
empty string any number of times. -/
theorem after_shell (h : Reachable (step cfg) Any (start session) s) (hover : Over s)
    (h' : Reachable (step cfg) Any s s') :
    Kept s s' ∧
    s'.written.flatten = s.taken ++ (s.pipe .toSh).content ++ s'.main.left ∧
    (∀ r, s'.main = .receiver r → r.left ≠ [] → (step cfg s' .sigpipe).isSome ∧
      ∀ n a goesOn, step cfg s' (.write n) = none ∧ step cfg s' (.message a goesOn) = none) ∧
    (∀ x, s'.sender = some x → (s'.pipe .fromSh).content = [] → ∀ k, ∃ s'',
      Reachable (step cfg) Any s' s'' ∧ s''.sender = some x ∧
        s''.sent = s'.sent ++ List.replicate k (emptyMessage cfg session)) := by
  have hboth := h'.invariant (P := fun t => Reachable (step cfg) Any (start session) t ∧ Kept s t)
    ⟨h, hover, rfl, rfl, rfl⟩ fun hp hok hs => by
      have hstep := step_kept (reachable_wired hp.1) hp.2.ended hs
      exact ⟨hp.1.tail hok hs, hstep.ended, hstep.taken.trans hp.2.taken,
        hstep.printed.trans hp.2.printed, hstep.input.trans hp.2.input⟩
  obtain ⟨hr, hkept⟩ := hboth
  refine ⟨hkept, ?_, ?_, ?_⟩
  · rw [← (reachable_streams hr).input, hkept.taken, hkept.input]
  · intro r hm hleft
    have hheld := hkept.ended.not_held (reachable_wired hr) (Or.inl ⟨rfl, rfl⟩)
    refine ⟨?_, fun n a goesOn => ⟨?_, ?_⟩⟩
    · rw [step, hm]
      simp [hleft, hheld]
    · rw [step, hm]
      simp [State.writePipe, hheld]
    · rw [step, hm]
      simp [hleft]
  · intro x hx hempty k
    suffices ∃ s'', Reachable (step cfg) Any s' s'' ∧ s''.sender = some x ∧
        (s''.pipe .fromSh).content = [] ∧
          s''.sent = s'.sent ++ List.replicate k (emptyMessage cfg session) by
      obtain ⟨s'', hr'', hx'', -, hsent⟩ := this
      exact ⟨s'', hr'', hx'', hsent⟩
    induction k with
    | zero => exact ⟨s', .refl, hx, hempty, by simp⟩
    | succ k ih =>
        obtain ⟨t, ht, hx', hempty', hsent⟩ := ih
        have hinv := ht.invariant
          (P := fun t => Reachable (step cfg) Any (start session) t ∧ Over t)
          ⟨hr, hkept.ended⟩ fun hp hok hs =>
            ⟨hp.1.tail hok hs, (step_kept (reachable_wired hp.1) hp.2 hs).ended⟩
        obtain ⟨t', hs, hx'', hempty'', hsent'⟩ :=
          output_empty (reachable_wired hinv.1) (reachable_sends hinv.1) hinv.2 hx' hempty'
        refine ⟨t', ht.tail trivial hs, hx'', hempty'', ?_⟩
        rw [hsent', hsent, List.append_assoc, List.replicate_succ']

/-- The shell exits before it has read anything. -/
theorem after_shell_exit : ∃ s : State 65536, Over s ∧ ∀ k, ∃ s',
    Reachable (step sample) Any s s' ∧
      s'.sent = List.replicate k (emptyMessage sample sampleSession) := by
  have hready := (reachable_of_run (run_setUp [])).any
  let s : State 65536 := { ready sampleSession with shells := [] }
  have hexit : step sample (ready sampleSession) (.shell 0 .exit) = some s := rfl
  have hover : Over s :=
    ⟨⟨settled_ready.main, settled_ready.sender, List.forall_mem_nil _⟩, rfl⟩
  obtain ⟨-, -, -, hsends⟩ := after_shell (hready.tail trivial hexit) hover .refl
  refine ⟨s, hover, fun k => ?_⟩
  obtain ⟨s', hr, -, hsent⟩ := hsends _ rfl rfl k
  exact ⟨s', hr, hsent⟩

end SessionPipes

end ServerSsh

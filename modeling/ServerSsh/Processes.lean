import ServerSsh.Posix.Signals
import ServerSsh.SignalsOperations
import ServerSsh.Transition

/-!
# The scanner, the connection handler and the administrators

The processes of the server and the signals between them, from the fork in
`main` on.  The scanner is the parent of the connection handler, and the
handler is the parent of the administrators.

* An administrator binds a port, sends its address with `SIGUSR1` to the
  handler, waits for a client, and sends `SIGUSR2` when it has one.
* The handler forwards the value of a `SIGUSR1` to the scanner and forks an
  administrator for a `SIGUSR2`.  The first `SIGUSR2` it sends itself.
* The scanner stores the address from a `SIGUSR1`.

A step is one system call or one store of one process, or the delivery of one
signal.  A process whose handler function is active does not go on with its main
program.  The newest administrator is the head of the list.
-/

namespace ServerSsh

open Posix

namespace Processes

/-- The two signals in use. -/
inductive Sig where
  | usr1
  | usr2
deriving DecidableEq, Repr

/-- The activations of the three handler functions, with what they have
done. -/
inductive Activation where
  | updateAdminInfo (data : UInt64) (stored : Bool)
  | sendAdminInfo (info : UInt64) (queued : Bool)
  | newAdminRequest (forked : Bool)
deriving DecidableEq, Repr

/-- `sa_mask` holds `SIGUSR1` in all three actions, and a signal is blocked in
its own handler. -/
def mask : Activation → Sig → Bool
  | _, .usr1 => true
  | .newAdminRequest _, .usr2 => true
  | _, .usr2 => false

/-- A process of the server. -/
abbrev Process := Proc Sig UInt64 Activation

/-- The action of the scanner. -/
def scannerEnter (_ : Sig) (data : UInt64) : Activation := .updateAdminInfo data false

/-- The actions of the connection handler. -/
def handlerEnter : Sig → UInt64 → Activation
  | .usr1, info => .sendAdminInfo info false
  | .usr2, _ => .newAdminRequest false

/-- Where `Wait_connection` stands. -/
inductive HandlerPc where
  | start
  | usr1Installed
  | usr2Installed
  /-- It has sent itself a `SIGUSR2`. -/
  | looping
deriving DecidableEq, Repr

/-- Where `Administraitor` stands. -/
inductive AdminPc where
  | started
  | bound
  | announced
  | listening
  /-- It has a client. -/
  | accepted
  /-- It has sent `SIGUSR2`. -/
  | handedOver
  /-- It has exited on a failing call. -/
  | failed
deriving DecidableEq, Repr

/-- An administrator. -/
structure Admin where
  pc : AdminPc
  /-- `bfd->admin`. -/
  addr : SockaddrIn
deriving DecidableEq, Repr

/-- What an administrator may do. -/
inductive AdminAction where
  /-- The bind loop succeeds at this addition to the port. -/
  | bind (additionPort : Nat)
  | announce
  | listen
  | accept
  | handOver
  | fail
deriving DecidableEq, Repr

/-- What may happen. -/
inductive Action where
  | scannerInstall
  | scannerDeliver
  | store
  | scannerReturn
  | handlerMain
  | handlerDeliver (s : Sig)
  | forward
  | fork
  | forkFail
  | handlerReturn
  | admin (i : Nat) (a : AdminAction)
deriving DecidableEq, Repr

/-- The mode of the server and the byte order of the machine. -/
structure Config where
  mode : Mode
  endian : Endian

/-- The processes. -/
structure State where
  scanner : Process
  /-- `adm_addr`. -/
  admAddr : SockaddrIn
  handlerPc : HandlerPc
  handler : Process
  admins : List Admin

/-- After the fork in `main`. -/
def initial : State := ⟨.start, ⟨0, 0, 0⟩, .start, .start, []⟩

/-! ## The steps -/

/-- `AF_INET`. -/
def afInet : UInt16 := 2

/-- The address that the bind loop tries. -/
def adminAddr (cfg : Config) (additionPort : Nat) : SockaddrIn :=
  ⟨afInet, htons cfg.endian (UInt16.ofNat (broadcastPort + additionPort)), 0⟩

/-- A step of an administrator, with the signal that it sends to its parent. -/
def Admin.step (cfg : Config) (a : Admin) : AdminAction → Option (Admin × Option (Sig × UInt64))
  | .bind k =>
      if a.pc = .started ∧ 1 ≤ k then some (⟨.bound, adminAddr cfg k⟩, none) else none
  | .announce =>
      if a.pc = .bound then
        some ({ a with pc := .announced }, some (.usr1, encryptSignal cfg.endian a.addr))
      else none
  | .listen =>
      if cfg.mode = .tcp ∧ a.pc = .announced then some ({ a with pc := .listening }, none) else none
  | .accept =>
      match cfg.mode, a.pc with
      | .tcp, .listening => some ({ a with pc := .accepted }, none)
      | .udp, .announced => some ({ a with pc := .accepted }, none)
      | _, _ => none
  | .handOver =>
      if a.pc = .accepted then some ({ a with pc := .handedOver }, some (.usr2, 0)) else none
  | .fail =>
      match cfg.mode, a.pc with
      | _, .started => some ({ a with pc := .failed }, none)
      | .tcp, .announced => some ({ a with pc := .failed }, none)
      | .tcp, .listening => some ({ a with pc := .failed }, none)
      | _, _ => none

/-- Send a signal, if there is one. -/
def signal (p : Process) : Option (Sig × UInt64) → Process
  | none => p
  | some (s, v) => p.send s v

/-- A step of the main program of the connection handler. -/
def handlerMain (s : State) : Option State :=
  if s.handler.alive ∧ s.handler.frames = [] then
    match s.handlerPc with
    | .start => some { s with handlerPc := .usr1Installed, handler := s.handler.install .usr1 }
    | .usr1Installed =>
        some { s with handlerPc := .usr2Installed, handler := s.handler.install .usr2 }
    | .usr2Installed => some { s with handlerPc := .looping, handler := s.handler.send .usr2 0 }
    | .looping => none
  else none

/-- A step. -/
def step (cfg : Config) (s : State) : Action → Option State
  | .scannerInstall =>
      if s.scanner.alive ∧ s.scanner.frames = [] then
        some { s with scanner := s.scanner.install .usr1 }
      else none
  | .scannerDeliver =>
      (s.scanner.deliver mask scannerEnter .usr1).map fun p => { s with scanner := p }
  | .store =>
      match s.scanner.frames with
      | .updateAdminInfo data false :: _ =>
          some { s with
            scanner := s.scanner.setTop (.updateAdminInfo data true)
            admAddr := translateSignal cfg.endian afInet data }
      | _ => none
  | .scannerReturn =>
      match s.scanner.frames with
      | .updateAdminInfo _ true :: _ => some { s with scanner := s.scanner.ret }
      | _ => none
  | .handlerMain => handlerMain s
  | .handlerDeliver sig =>
      (s.handler.deliver mask handlerEnter sig).map fun p => { s with handler := p }
  | .forward =>
      match s.handler.frames with
      | .sendAdminInfo info false :: _ =>
          some { s with
            handler := s.handler.setTop (.sendAdminInfo info true)
            scanner := s.scanner.send .usr1 info }
      | _ => none
  | .fork =>
      match s.handler.frames with
      | .newAdminRequest false :: _ =>
          some { s with
            handler := s.handler.setTop (.newAdminRequest true)
            admins := ⟨.started, ⟨0, 0, 0⟩⟩ :: s.admins }
      | _ => none
  | .forkFail =>
      match s.handler.frames with
      | .newAdminRequest false :: _ =>
          some { s with handler := s.handler.setTop (.newAdminRequest true) }
      | _ => none
  | .handlerReturn =>
      match s.handler.frames with
      | .sendAdminInfo _ true :: _ => some { s with handler := s.handler.ret }
      | .newAdminRequest true :: _ => some { s with handler := s.handler.ret }
      | _ => none
  | .admin i act =>
      match s.admins[i]? with
      | some a => (a.step cfg act).map fun r =>
          { s with admins := s.admins.set i r.1, handler := signal s.handler r.2 }
      | none => none

/-! ## What a step does -/

/-- The steps of an administrator with where they start and end. -/
inductive Admin.Moves (cfg : Config) (a : Admin) :
    AdminAction → Admin × Option (Sig × UInt64) → Prop where
  | bind {k : Nat} : a.pc = .started → Admin.Moves cfg a (.bind k) (⟨.bound, adminAddr cfg k⟩, none)
  | announce : a.pc = .bound → Admin.Moves cfg a .announce
      ({ a with pc := .announced }, some (.usr1, encryptSignal cfg.endian a.addr))
  | listen : a.pc = .announced → Admin.Moves cfg a .listen ({ a with pc := .listening }, none)
  | accept : a.pc = .announced ∨ a.pc = .listening →
      Admin.Moves cfg a .accept ({ a with pc := .accepted }, none)
  | handOver : a.pc = .accepted →
      Admin.Moves cfg a .handOver ({ a with pc := .handedOver }, some (.usr2, 0))
  | fail : a.pc = .started ∨ a.pc = .announced ∨ a.pc = .listening →
      Admin.Moves cfg a .fail ({ a with pc := .failed }, none)

theorem Admin.step_moves {cfg : Config} {a : Admin} {act : AdminAction}
    {r : Admin × Option (Sig × UInt64)} (h : a.step cfg act = some r) :
    Admin.Moves cfg a act r := by
  cases act with
  | bind k =>
      rw [Admin.step] at h
      split at h
      next hc => cases h; exact .bind hc.1
      next => cases h
  | announce =>
      rw [Admin.step] at h
      split at h
      next hc => cases h; exact .announce hc
      next => cases h
  | listen =>
      rw [Admin.step] at h
      split at h
      next hc => cases h; exact .listen hc.2
      next => cases h
  | accept =>
      rw [Admin.step] at h
      split at h
      next _ hc => cases h; exact .accept (Or.inr hc)
      next _ hc => cases h; exact .accept (Or.inl hc)
      next => cases h
  | handOver =>
      rw [Admin.step] at h
      split at h
      next hc => cases h; exact .handOver hc
      next => cases h
  | fail =>
      rw [Admin.step] at h
      split at h
      next hc => cases h; exact .fail (Or.inl hc)
      next _ hc => cases h; exact .fail (Or.inr (Or.inl hc))
      next _ hc => cases h; exact .fail (Or.inr (Or.inr hc))
      next => cases h

/-- The steps with what they require and what they lead to. -/
inductive Steps (cfg : Config) (s : State) : Action → State → Prop where
  | scannerInstall :
      Steps cfg s .scannerInstall { s with scanner := s.scanner.install .usr1 }
  | scannerDeliver {p : Process} : s.scanner.deliver mask scannerEnter .usr1 = some p →
      Steps cfg s .scannerDeliver { s with scanner := p }
  | store {data : UInt64} {rest : List Activation} :
      s.scanner.frames = .updateAdminInfo data false :: rest →
      Steps cfg s .store { s with
        scanner := s.scanner.setTop (.updateAdminInfo data true)
        admAddr := translateSignal cfg.endian afInet data }
  | scannerReturn {data : UInt64} {rest : List Activation} :
      s.scanner.frames = .updateAdminInfo data true :: rest →
      Steps cfg s .scannerReturn { s with scanner := s.scanner.ret }
  | usr1Installed : s.handlerPc = .start →
      Steps cfg s .handlerMain
        { s with handlerPc := .usr1Installed, handler := s.handler.install .usr1 }
  | usr2Installed : s.handlerPc = .usr1Installed →
      Steps cfg s .handlerMain
        { s with handlerPc := .usr2Installed, handler := s.handler.install .usr2 }
  | looping : s.handlerPc = .usr2Installed →
      Steps cfg s .handlerMain { s with handlerPc := .looping, handler := s.handler.send .usr2 0 }
  | handlerDeliver {sig : Sig} {p : Process} : s.handler.deliver mask handlerEnter sig = some p →
      Steps cfg s (.handlerDeliver sig) { s with handler := p }
  | forward {info : UInt64} {rest : List Activation} :
      s.handler.frames = .sendAdminInfo info false :: rest →
      Steps cfg s .forward { s with
        handler := s.handler.setTop (.sendAdminInfo info true)
        scanner := s.scanner.send .usr1 info }
  | fork {rest : List Activation} : s.handler.frames = .newAdminRequest false :: rest →
      Steps cfg s .fork { s with
        handler := s.handler.setTop (.newAdminRequest true)
        admins := ⟨.started, ⟨0, 0, 0⟩⟩ :: s.admins }
  | forkFail {rest : List Activation} : s.handler.frames = .newAdminRequest false :: rest →
      Steps cfg s .forkFail { s with handler := s.handler.setTop (.newAdminRequest true) }
  | sendReturn {info : UInt64} {rest : List Activation} :
      s.handler.frames = .sendAdminInfo info true :: rest →
      Steps cfg s .handlerReturn { s with handler := s.handler.ret }
  | newReturn {rest : List Activation} : s.handler.frames = .newAdminRequest true :: rest →
      Steps cfg s .handlerReturn { s with handler := s.handler.ret }
  | admin {i : Nat} {act : AdminAction} {a : Admin} {r : Admin × Option (Sig × UInt64)} :
      s.admins[i]? = some a → a.step cfg act = some r →
      Steps cfg s (.admin i act)
        { s with admins := s.admins.set i r.1, handler := signal s.handler r.2 }

theorem step_steps {cfg : Config} {s s' : State} {a : Action} (hs : step cfg s a = some s') :
    Steps cfg s a s' := by
  cases a with
  | scannerInstall =>
      rw [step] at hs
      split at hs
      next => cases hs; exact .scannerInstall
      next => cases hs
  | scannerDeliver =>
      obtain ⟨p, hd, rfl⟩ := Option.map_eq_some_iff.mp hs
      exact .scannerDeliver hd
  | store =>
      rw [step] at hs
      split at hs
      next data rest hf => cases hs; exact .store hf
      next => cases hs
  | scannerReturn =>
      rw [step] at hs
      split at hs
      next data rest hf => cases hs; exact .scannerReturn hf
      next => cases hs
  | handlerMain =>
      rw [step, handlerMain] at hs
      split at hs
      next =>
        split at hs
        next hpc => cases hs; exact .usr1Installed hpc
        next hpc => cases hs; exact .usr2Installed hpc
        next hpc => cases hs; exact .looping hpc
        next => cases hs
      next => cases hs
  | handlerDeliver sig =>
      obtain ⟨p, hd, rfl⟩ := Option.map_eq_some_iff.mp hs
      exact .handlerDeliver hd
  | forward =>
      rw [step] at hs
      split at hs
      next info rest hf => cases hs; exact .forward hf
      next => cases hs
  | fork =>
      rw [step] at hs
      split at hs
      next rest hf => cases hs; exact .fork hf
      next => cases hs
  | forkFail =>
      rw [step] at hs
      split at hs
      next rest hf => cases hs; exact .forkFail hf
      next => cases hs
  | handlerReturn =>
      rw [step] at hs
      split at hs
      next info rest hf => cases hs; exact .sendReturn hf
      next rest hf => cases hs; exact .newReturn hf
      next => cases hs
  | admin i act =>
      rw [step] at hs
      split at hs
      next a ha =>
        obtain ⟨r, hr, rfl⟩ := Option.map_eq_some_iff.mp hs
        exact .admin ha hr
      next => cases hs

end Processes

end ServerSsh

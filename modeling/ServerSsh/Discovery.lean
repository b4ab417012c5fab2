import ServerSsh.Failures
import ServerSsh.Libc.Decimal

/-!
# The replies of the scanner

The main program of the scanner answers each broadcast datagram with the port in
`adm_addr`.  The handler of `SIGUSR1` writes this variable, so what a reply says
depends on the order of datagrams and announcements.  What the datagram holds
does not matter, and neither does a `recvfrom` that returns -1, as it does when
a signal interrupts it: the program answers the address that it has.

`Sourced` is what every run keeps: each value on its way to the scanner is the
address of an administrator that has bound its socket.  So a reply is usable
unless it says 0, and it says 0 when `adm_addr` still does, or when the bind loop
has gone on until its port wrapped around (`usable_iff`).
-/

namespace ServerSsh

open Libc Posix Transition

namespace Processes

variable {cfg : Config} {s s' : State} {p p' : Process} {v w : UInt64}

/-! ## Values on their way to the scanner -/

/-- The value that an activation was entered with. -/
def Activation.value : Activation → Option UInt64
  | updateAdminInfo data _ => some data
  | sendAdminInfo info _ => some info
  | newAdminRequest _ => none

/-- A process has been sent a value with `SIGUSR1`, and is not done with it. -/
def Holds (p : Process) (v : UInt64) : Prop :=
  p.pending .usr1 = some v ∨ ∃ f ∈ p.frames, f.value = some v

theorem not_holds_start : ¬ Holds Proc.start v := by
  rintro (h | ⟨f, hf, -⟩)
  · cases h
  · cases hf

theorem Holds.of_send_usr1 (h : Holds (p.send .usr1 w) v) : Holds p v ∨ v = w := by
  rcases h with h | h
  · unfold Proc.send at h
    split at h
    · right
      simpa using h.symm
    · exact Or.inl (Or.inl h)
  · rw [Proc.send_frames] at h
    exact Or.inl (Or.inr h)

theorem Holds.of_send_usr2 (h : Holds (p.send .usr2 w) v) : Holds p v := by
  rwa [Holds, Proc.send_pending_ne (by decide), Proc.send_frames] at h

/-- The activation that a delivery enters has the value that was pending. -/
theorem Holds.of_deliver {enter : Sig → UInt64 → Activation} {sig : Sig}
    (henter : ∀ w, (enter sig w).value = some v → sig = .usr1 ∧ w = v)
    (hd : p.deliver mask enter sig = some p') (h : Holds p' v) : Holds p v := by
  obtain ⟨w, hw, -, -, hcase⟩ := Proc.deliver_cases hd
  have htake : (p.take sig).pending .usr1 = some v → p.pending .usr1 = some v := by
    cases sig with
    | usr1 => simp
    | usr2 => rw [Proc.take_pending_ne (by decide)]; exact id
  rcases hcase with ⟨-, rfl⟩ | ⟨-, rfl⟩
  · rcases h with h | ⟨f, hf, hv⟩
    · exact Or.inl (htake h)
    · rcases List.mem_cons.mp hf with rfl | hf
      · obtain ⟨rfl, rfl⟩ := henter w hv
        exact Or.inl hw
      · exact Or.inr ⟨f, hf, hv⟩
  · rcases h with h | ⟨f, hf, -⟩
    · exact Or.inl (htake h)
    · cases hf

/-- The innermost activation goes on with its value. -/
theorem Holds.of_setTop {f g : Activation} {rest : List Activation} (hf : p.frames = f :: rest)
    (h : Holds (p.setTop g) v) (hfg : f.value = g.value) : Holds p v := by
  rcases h with h | ⟨f', hf', hv⟩
  · exact Or.inl h
  · rw [Proc.setTop, hf, List.tail_cons, List.mem_cons] at hf'
    rcases hf' with rfl | hf'
    · exact Or.inr ⟨f, by simp [hf], hfg.trans hv⟩
    · exact Or.inr ⟨f', by simp [hf, hf'], hv⟩

theorem Holds.of_ret (h : Holds p.ret v) : Holds p v := by
  rcases h with h | ⟨f, hf, hv⟩
  · exact Or.inl h
  · exact Or.inr ⟨f, List.mem_of_mem_tail hf, hv⟩

/-- A value that was announced and that the scanner may come to store. -/
def OnWay (s : State) (v : UInt64) : Prop := Holds s.handler v ∨ Holds s.scanner v

/-- A value comes in by an announcement only. -/
theorem step_onWay {a : Action} (hs : step cfg s a = some s') (h : OnWay s' v) :
    OnWay s v ∨ ∃ a ∈ s.admins, a.pc = .bound ∧ v = encryptSignal cfg.endian a.addr := by
  cases step_steps hs with
  | scannerInstall => exact Or.inl h
  | scannerDeliver hd =>
      refine Or.inl (h.imp id (Holds.of_deliver (fun w hw => ⟨rfl, ?_⟩) hd))
      simpa [scannerEnter, Activation.value] using hw
  | store hf =>
      rcases h with h | h
      · exact Or.inl (Or.inl h)
      · exact Or.inl (Or.inr (Holds.of_setTop hf h rfl))
  | scannerReturn _ => exact Or.inl (h.imp id Holds.of_ret)
  | usr1Installed _ => exact Or.inl h
  | usr2Installed _ => exact Or.inl h
  | looping _ => exact Or.inl (h.imp Holds.of_send_usr2 id)
  | @handlerDeliver sig p hd =>
      refine Or.inl (h.imp (Holds.of_deliver (fun w hw => ?_) hd) id)
      cases sig with
      | usr1 => exact ⟨rfl, by simpa [handlerEnter, Activation.value] using hw⟩
      | usr2 => cases hw
  | forward hf =>
      rcases h with h | h
      · exact Or.inl (Or.inl (Holds.of_setTop hf h rfl))
      · rcases Holds.of_send_usr1 h with h | rfl
        · exact Or.inl (Or.inr h)
        · exact Or.inl (Or.inl (Or.inr ⟨_, hf ▸ List.mem_cons_self .., rfl⟩))
  | fork hf =>
      rcases h with h | h
      · exact Or.inl (Or.inl (Holds.of_setTop hf h rfl))
      · exact Or.inl (Or.inr h)
  | forkFail hf =>
      rcases h with h | h
      · exact Or.inl (Or.inl (Holds.of_setTop hf h rfl))
      · exact Or.inl (Or.inr h)
  | sendReturn _ => exact Or.inl (h.imp Holds.of_ret id)
  | newReturn _ => exact Or.inl (h.imp Holds.of_ret id)
  | @admin i act a r ha hr =>
      obtain ⟨a', sent⟩ := r
      cases Admin.step_steps hr with
      | quiet _ _ _ _ => exact Or.inl h
      | announce _ hb =>
          rcases h with h | h
          · rcases Holds.of_send_usr1 h with h | rfl
            · exact Or.inl (Or.inl h)
            · exact Or.inr ⟨_, List.mem_of_getElem? ha, hb, rfl⟩
          · exact Or.inl (Or.inr h)
      | handOver _ => exact Or.inl (h.imp Holds.of_send_usr2 id)

/-- The scanner stores a value that was on its way. -/
theorem step_admAddr {a : Action} (hs : step cfg s a = some s') :
    s'.admAddr = s.admAddr ∨
      ∃ v, OnWay s v ∧ s'.admAddr = translateSignal cfg.endian afInet v := by
  cases step_steps hs with
  | @store data rest hf =>
      exact Or.inr ⟨data, Or.inr (Or.inr ⟨_, hf ▸ List.mem_cons_self .., rfl⟩), rfl⟩
  | _ => exact Or.inl rfl

/-- The address that an action binds a socket to. -/
def Action.binds (cfg : Config) : Action → List SockaddrIn
  | admin _ (.bind k) => [adminAddr cfg k]
  | _ => []

/-- Of the steps of an administrator only the end of the bind loop leads to its
announcement. -/
theorem Admin.step_bound {a : Admin} {act : AdminAction} {r : Admin × Option (Sig × UInt64)}
    (h : a.step cfg act = some r) (hpc : r.1.pc = .bound) :
    ∃ k, act = .bind k ∧ r.1.addr = adminAddr cfg k := by
  cases Admin.step_moves h with
  | @bind k _ => exact ⟨k, rfl, rfl⟩
  | _ => cases hpc

/-- An administrator at its announcement has bound its socket. -/
theorem step_bound {a : Action} (hs : step cfg s a = some s') {b : Admin} (hb : b ∈ s'.admins)
    (hpc : b.pc = .bound) : b ∈ s.admins ∨ b.addr ∈ a.binds cfg := by
  have hstep := step_admins hs
  generalize s'.admins = admins at hstep hb
  cases hstep with
  | fork =>
      rcases List.mem_cons.mp hb with rfl | hb
      · cases hpc
      · exact Or.inl hb
  | admin ha hr =>
      rcases List.mem_or_eq_of_mem_set hb with hb | rfl
      · exact Or.inl hb
      · obtain ⟨k, rfl, haddr⟩ := Admin.step_bound hr hpc
        exact Or.inr (List.mem_singleton.mpr haddr)
  | other _ => exact Or.inl hb

end Processes

/-! ## The loop of the scanner -/

namespace Discovery

/-- Where the loop of `Broadcast_scanning` stands. -/
inductive ScannerPc where
  | waiting
  | received
  /-- `buf_answer` has been written. -/
  | formatted (bufAnswer : Bytes)
deriving DecidableEq, Repr

/-- What `sendto` was given, and the addresses that administrators had bound
their sockets to at that time. -/
structure Reply where
  bufAnswer : Bytes
  cliAddr : SockaddrIn
  bound : List SockaddrIn
deriving DecidableEq, Repr

/-- The server, with the main program of the scanner. -/
structure State where
  processes : Processes.State
  pc : ScannerPc
  cliAddr : SockaddrIn
  /-- The addresses that administrators have bound their sockets to. -/
  bound : List SockaddrIn
  /-- The replies, the last one first. -/
  replies : List Reply

def initial : State := ⟨Processes.initial, .waiting, ⟨0, 0, 0⟩, [], []⟩

/-- What may happen. -/
inductive Action where
  | process (a : Processes.Action)
  /-- `recvfrom` returns, with a datagram from an address or with -1. -/
  | recvfrom (source : Option SockaddrIn)
  | sprintf
  | sendto
deriving DecidableEq, Repr

/-- The main program of the scanner is past its `sigaction`, and no handler
function is active. -/
def Runs (p : Processes.Process) : Prop :=
  p.alive = true ∧ p.frames = [] ∧ p.handled .usr1 = true

instance (p : Processes.Process) : Decidable (Runs p) := inferInstanceAs (Decidable (_ ∧ _))

/-- The text of a port. -/
def answer (port : UInt16) : Bytes := decimal port.toNat ++ ascii "\n"

/-- A step. -/
def step (cfg : Processes.Config) (s : State) : Action → Option State
  | .process a =>
      (Processes.step cfg s.processes a).map fun p =>
        { s with processes := p, bound := a.binds cfg ++ s.bound }
  | .recvfrom source =>
      if Runs s.processes.scanner ∧ s.pc = .waiting then
        some { s with pc := .received, cliAddr := source.getD s.cliAddr }
      else none
  | .sprintf =>
      if Runs s.processes.scanner ∧ s.pc = .received then
        some { s with pc := .formatted (answer (htons cfg.endian s.processes.admAddr.sinPort)) }
      else none
  | .sendto =>
      match s.pc with
      | .formatted bufAnswer =>
          if Runs s.processes.scanner then
            some { s with pc := .waiting, replies := ⟨bufAnswer, s.cliAddr, s.bound⟩ :: s.replies }
          else none
      | _ => none

/-- The steps with what they require and what they lead to. -/
inductive Steps (cfg : Processes.Config) (s : State) : Action → State → Prop where
  | process {a : Processes.Action} {p : Processes.State} :
      Processes.step cfg s.processes a = some p →
      Steps cfg s (.process a) { s with processes := p, bound := a.binds cfg ++ s.bound }
  | recvfrom {source : Option SockaddrIn} : s.pc = .waiting →
      Steps cfg s (.recvfrom source) { s with pc := .received, cliAddr := source.getD s.cliAddr }
  | sprintf : s.pc = .received →
      Steps cfg s .sprintf
        { s with pc := .formatted (answer (htons cfg.endian s.processes.admAddr.sinPort)) }
  | sendto {bufAnswer : Bytes} : s.pc = .formatted bufAnswer →
      Steps cfg s .sendto
        { s with pc := .waiting, replies := ⟨bufAnswer, s.cliAddr, s.bound⟩ :: s.replies }

theorem step_steps {cfg : Processes.Config} {s s' : State} {a : Action}
    (hs : step cfg s a = some s') : Steps cfg s a s' := by
  cases a with
  | process a =>
      obtain ⟨p, hp, rfl⟩ := Option.map_eq_some_iff.mp hs
      exact .process hp
  | recvfrom source =>
      rw [step] at hs
      split at hs
      next hc => cases hs; exact .recvfrom hc.2
      next => cases hs
  | sprintf =>
      rw [step] at hs
      split at hs
      next hc => cases hs; exact .sprintf hc.2
      next => cases hs
  | sendto =>
      rw [step] at hs
      split at hs
      next bufAnswer hpc =>
        split at hs
        next => cases hs; exact .sendto hpc
        next => cases hs
      next => cases hs

/-- A reply is the text of a port that is not 0 and that a socket was bound to. -/
def Reply.Usable (cfg : Processes.Config) (r : Reply) : Prop :=
  ∃ addr ∈ r.bound, addr.sinPort ≠ 0 ∧ r.bufAnswer = answer (htons cfg.endian addr.sinPort)

/-- The program writes its answer when it has a port other than 0. -/
def hasPort (s : State) : Action → Bool
  | .sprintf => s.processes.admAddr.sinPort != 0
  | _ => true

def HasPort (s : State) (a : Action) : Prop := hasPort s a = true

instance (s : State) (a : Action) : Decidable (HasPort s a) := inferInstanceAs (Decidable (_ = _))

variable {cfg : Processes.Config} {s s' : State}

/-! ### Where the addresses come from -/

/-- Each address on its way to a reply is one that a socket was bound to. -/
structure Sourced (cfg : Processes.Config) (s : State) : Prop where
  family : ∀ addr ∈ s.bound, addr.sinFamily = Processes.afInet
  announced : ∀ a ∈ s.processes.admins, a.pc = .bound → a.addr ∈ s.bound
  onWay : ∀ v, Processes.OnWay s.processes v →
    ∃ addr ∈ s.bound, v = encryptSignal cfg.endian addr
  stored : s.processes.admAddr = ⟨0, 0, 0⟩ ∨ s.processes.admAddr ∈ s.bound

theorem sourced_initial : Sourced cfg initial where
  family := List.forall_mem_nil _
  announced := List.forall_mem_nil _
  onWay v h := by
    rcases h with h | h <;> exact absurd h Processes.not_holds_start
  stored := Or.inl rfl

theorem sourced_process {a : Processes.Action} {p : Processes.State} (h : Sourced cfg s)
    (hp : Processes.step cfg s.processes a = some p) :
    Sourced cfg { s with processes := p, bound := a.binds cfg ++ s.bound } := by
  refine ⟨?_, ?_, ?_, ?_⟩
  · intro addr haddr
    rcases List.mem_append.mp haddr with haddr | haddr
    · cases a with
      | admin i act =>
          cases act with
          | bind k => rw [List.mem_singleton.mp haddr]; rfl
          | _ => cases haddr
      | _ => cases haddr
    · exact h.family addr haddr
  · intro b hb hpc
    rcases Processes.step_bound hp hb hpc with hb | haddr
    · exact List.mem_append_right _ (h.announced b hb hpc)
    · exact List.mem_append_left _ haddr
  · intro v hv
    rcases Processes.step_onWay hp hv with hv | ⟨b, hb, hpc, rfl⟩
    · obtain ⟨addr, haddr, he⟩ := h.onWay v hv
      exact ⟨addr, List.mem_append_right _ haddr, he⟩
    · exact ⟨b.addr, List.mem_append_right _ (h.announced b hb hpc), rfl⟩
  · rcases Processes.step_admAddr hp with he | ⟨v, hv, he⟩
    · exact he ▸ h.stored.imp id (List.mem_append_right _)
    · obtain ⟨addr, haddr, rfl⟩ := h.onWay v hv
      have htr := translateSignal_encryptSignal cfg.endian addr
      rw [h.family addr haddr] at htr
      exact Or.inr (he.trans htr ▸ List.mem_append_right _ haddr)

theorem step_sourced {a : Action} (h : Sourced cfg s) (hs : step cfg s a = some s') :
    Sourced cfg s' := by
  cases step_steps hs with
  | process hp => exact sourced_process h hp
  | recvfrom _ => exact ⟨h.family, h.announced, h.onWay, h.stored⟩
  | sprintf _ => exact ⟨h.family, h.announced, h.onWay, h.stored⟩
  | sendto _ => exact ⟨h.family, h.announced, h.onWay, h.stored⟩

/-! ### What the replies say -/

theorem answer_injective {p q : UInt16} (h : answer p = answer q) : p = q := by
  have hatoi : ∀ r : UInt16, atoi (answer r) = r.toNat := fun r =>
    atoi_decimal (r.toNat_lt.trans (by decide)) (noDigit_cons.mpr rfl)
  have := hatoi p
  rw [h, hatoi q] at this
  exact UInt16.toNat_inj.mp (by omega)

theorem answer_eq_zero_iff (e : Endian) (port : UInt16) :
    answer (htons e port) = answer 0 ↔ port = 0 := by
  have h0 : htons e 0 = 0 := by cases e <;> rfl
  constructor
  · intro h
    rw [← htons_htons e port, answer_injective h, h0]
  · rintro rfl
    rw [h0]

theorem Reply.Usable.ne_zero {r : Reply} (h : r.Usable cfg) : r.bufAnswer ≠ answer 0 := by
  obtain ⟨addr, -, hport, htext⟩ := h
  rwa [htext, Ne, answer_eq_zero_iff]

/-- The reply that the next `sendto` is given. -/
def State.reply (s : State) (bufAnswer : Bytes) : Reply := ⟨bufAnswer, s.cliAddr, s.bound⟩

/-- An answer says 0 or is usable. -/
structure Answers (cfg : Processes.Config) (s : State) : Prop where
  written : ∀ t, s.pc = .formatted t → t = answer 0 ∨ (s.reply t).Usable cfg
  sent : ∀ r ∈ s.replies, r.bufAnswer = answer 0 ∨ r.Usable cfg

theorem step_answers {a : Action} (hb : Sourced cfg s) (h : Answers cfg s)
    (hs : step cfg s a = some s') : Answers cfg s' := by
  cases step_steps hs with
  | process _ =>
      refine ⟨fun t ht => (h.written t ht).imp id ?_, h.sent⟩
      rintro ⟨addr, haddr, huse⟩
      exact ⟨addr, List.mem_append_right _ haddr, huse⟩
  | recvfrom _ => exact ⟨by simp, h.sent⟩
  | sprintf _ =>
      refine ⟨?_, h.sent⟩
      rintro t ⟨⟩
      by_cases h0 : s.processes.admAddr.sinPort = 0
      · exact Or.inl ((answer_eq_zero_iff ..).mpr h0)
      · -- A port other than 0 is that of a bound socket.
        rcases hb.stored with hz | hmem
        · rw [hz] at h0
          exact absurd rfl h0
        · exact Or.inr ⟨_, hmem, h0, rfl⟩
  | sendto ht => exact ⟨by simp, List.forall_mem_cons.mpr ⟨h.written _ ht, h.sent⟩⟩

theorem reachable_answers {ok : State → Action → Prop} (h : Reachable (step cfg) ok initial s) :
    Answers cfg s := by
  have hboth := h.invariant (P := fun s => Sourced cfg s ∧ Answers cfg s)
    ⟨sourced_initial, by simp [initial], List.forall_mem_nil _⟩
    fun hp _ hs => ⟨step_sourced hp.1 hs, step_answers hp.1 hp.2 hs⟩
  exact hboth.2

/-- No answer says 0. -/
structure NoZero (s : State) : Prop where
  written : s.pc ≠ .formatted (answer 0)
  sent : ∀ r ∈ s.replies, r.bufAnswer ≠ answer 0

/-- A step writes no 0 exactly when there is a port to write. -/
theorem step_noZero {a : Action} (hs : step cfg s a = some s') :
    NoZero s' ↔ NoZero s ∧ HasPort s a := by
  cases step_steps hs with
  | process _ => exact ⟨fun h => ⟨⟨h.written, h.sent⟩, rfl⟩, fun h => ⟨h.1.written, h.1.sent⟩⟩
  | recvfrom hpc =>
      refine ⟨fun h => ⟨⟨?_, h.sent⟩, rfl⟩, fun h => ⟨by simp, h.1.sent⟩⟩
      rw [hpc]
      simp
  | sprintf hpc =>
      have hiff := answer_eq_zero_iff cfg.endian s.processes.admAddr.sinPort
      constructor
      · intro h
        have hport : s.processes.admAddr.sinPort ≠ 0 := fun h0 =>
          h.written (congrArg ScannerPc.formatted (hiff.mpr h0))
        exact ⟨⟨by simp [hpc], h.sent⟩, by simpa [HasPort, hasPort] using hport⟩
      · rintro ⟨h, hport⟩
        refine ⟨fun hw => ?_, h.sent⟩
        have h0 := hiff.mp (ScannerPc.formatted.inj hw)
        simp [HasPort, hasPort, h0] at hport
  | sendto ht =>
      constructor
      · intro h
        obtain ⟨hnew, hold⟩ := List.forall_mem_cons.mp h.sent
        refine ⟨⟨?_, hold⟩, rfl⟩
        rw [ht]
        exact fun he => hnew (ScannerPc.formatted.inj he)
      · rintro ⟨h, -⟩
        refine ⟨by simp, List.forall_mem_cons.mpr ⟨fun he => h.written ?_, h.sent⟩⟩
        rw [ht]
        exact congrArg ScannerPc.formatted he

/-- No answer says 0 in exactly the states that runs reach in which there is
always a port to write. -/
theorem noZero_iff (h : Reachable (step cfg) Any initial s) :
    NoZero s ↔ Reachable (step cfg) HasPort initial s := by
  refine h.iff_of_exact (fun hr => ?_) ?_ ?_
  · exact hr.invariant (P := NoZero) ⟨by simp [initial], List.forall_mem_nil _⟩
      fun hp hok hs => (step_noZero hs).mpr ⟨hp, hok⟩
  · exact fun _ hs hp => ((step_noZero hs).mp hp).1
  · exact fun _ hs hp => ((step_noZero hs).mp hp).2

/-- All replies are usable when there is always a port to write.  At the times when
no answer is on its way out, the converse holds too. -/
theorem usable_iff (h : Reachable (step cfg) Any initial s) :
    (Reachable (step cfg) HasPort initial s → ∀ r ∈ s.replies, r.Usable cfg) ∧
      ((∀ t, s.pc ≠ .formatted t) →
        ((∀ r ∈ s.replies, r.Usable cfg) ↔ Reachable (step cfg) HasPort initial s)) := by
  have hans := reachable_answers h
  have huse : ∀ r ∈ s.replies, r.bufAnswer ≠ answer 0 → r.Usable cfg := fun r hr hne =>
    (hans.sent r hr).resolve_left hne
  rw [← noZero_iff h]
  refine ⟨fun hz r hr => huse r hr (hz.sent r hr), fun hpc => ?_⟩
  exact ⟨fun hu => ⟨hpc _, fun r hr => (hu r hr).ne_zero⟩,
    fun hz r hr => huse r hr (hz.sent r hr)⟩

/-- The first announcement comes before the first datagram. -/
def sampleSchedule : List Action :=
  [.scannerInstall, .handlerMain, .handlerMain, .handlerMain, .handlerDeliver .usr2, .fork,
    .handlerReturn, .admin 0 (.bind 1), .admin 0 .announce, .handlerDeliver .usr1, .forward,
    .scannerDeliver, .store, .scannerReturn].map Action.process ++
    [.recvfrom (some ⟨2, 0x901f, 0x0100a8c0⟩), .sprintf, .sendto]

theorem usable_iff_sample :
    ∃ s, run (step ⟨.tcp, .little⟩) HasPort initial sampleSchedule = some s ∧
      s.replies.map Reply.bufAnswer = [ascii "23457\n"] ∧
        ∀ r ∈ s.replies, r.Usable ⟨.tcp, .little⟩ := by
  have hrun : (run (step ⟨.tcp, .little⟩) HasPort initial sampleSchedule).map
      (fun s => s.replies.map Reply.bufAnswer) = some [ascii "23457\n"] := by decide
  obtain ⟨s, hs, htext⟩ := Option.map_eq_some_iff.mp hrun
  have hr := reachable_of_run hs
  exact ⟨s, hs, htext, (usable_iff hr.any).1 hr⟩

/-- A datagram that comes before the first announcement is answered with 0. -/
theorem early_reply_unusable :
    ¬ ∀ (cfg : Processes.Config) (s : State), Reachable (step cfg) Any initial s →
      ∀ r ∈ s.replies, r.Usable cfg := by
  intro hclaim
  have hrun : (run (step ⟨.tcp, .little⟩) Any initial
      [.process .scannerInstall, .recvfrom (some ⟨2, 0x901f, 0x0100a8c0⟩), .sprintf,
        .sendto]).map State.replies
      = some [⟨ascii "0\n", ⟨2, 0x901f, 0x0100a8c0⟩, []⟩] := by decide
  obtain ⟨s, hs, hreplies⟩ := Option.map_eq_some_iff.mp hrun
  obtain ⟨addr, haddr, -⟩ := hclaim _ s (reachable_of_run hs) _ (hreplies ▸ List.mem_cons_self ..)
  cases haddr

end Discovery

end ServerSsh

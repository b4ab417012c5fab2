import ServerSsh.SpareAdministrator

/-!
# The advertised address

An address travels from an administrator to the scanner in two hops: as the value
of a `SIGUSR1` to the connection handler, and as the value of a second `SIGUSR1`
that `Send_admin_info` sends on.  `inFlight` is the value on this way that was
sent last, and `latest` the address that the scanner has once it has arrived.
As long as no value is discarded, `latest` is the address of the newest
administrator that has announced itself.

A value is discarded when it is sent to a process with a `SIGUSR1` pending.  The
run of `stale_address` shows it: a scanner that is slow to take the first
address never sees the second.

The address that is sent is the recorded one.  An administrator that has found no
free port up to 65535 binds port 0, and the port of its socket is another one
(`boundAddr`).
-/

namespace ServerSsh

open Posix Transition

namespace Processes

variable {cfg : Config} {s s' : State}

/-! ## Values on their way -/

/-- The value that an activation has still to send. -/
def Activation.unsent : Activation → Option UInt64
  | sendAdminInfo info false => some info
  | _ => none

/-- The value that an activation has still to store. -/
def Activation.unstored : Activation → Option UInt64
  | updateAdminInfo data false => some data
  | _ => none

/-- The value on its way to the scanner that was sent last. -/
def inFlight (s : State) : Option UInt64 :=
  (s.handler.pending .usr1).or ((s.handler.frames.findSome? Activation.unsent).or
    ((s.scanner.pending .usr1).or (s.scanner.frames.findSome? Activation.unstored)))

/-- The address of the scanner once everything has arrived. -/
def latest (cfg : Config) (s : State) : SockaddrIn :=
  ((inFlight s).map (translateSignal cfg.endian afInet)).getD s.admAddr

/-- The newest administrator that has announced itself is the one that `latest`
gives, and the others have sent their `SIGUSR2`. -/
structure Coherent (cfg : Config) (s : State) : Prop where
  alive : s.scanner.alive = true
  frames : s.scanner.frames.length ≤ 1
  family : ∀ a ∈ s.admins, a.pc = .bound → a.addr.sinFamily = afInet
  older : ∀ a ∈ s.admins.tail, a.pc = .handedOver
  newest : ∀ a ∈ s.admins.head?, a.pc.hasAnnounced = true → latest cfg s = a.addr

theorem coherent_initial : Coherent cfg initial :=
  ⟨rfl, Nat.zero_le 1, List.forall_mem_nil _, List.forall_mem_nil _, by simp [initial]⟩

/-- Steps that leave the administrators alone. -/
theorem Coherent.keep (h : Coherent cfg s) (halive : s'.scanner.alive = true)
    (hframes : s'.scanner.frames.length ≤ 1) (ha : s'.admins = s.admins)
    (hl : latest cfg s' = latest cfg s) : Coherent cfg s' :=
  ⟨halive, hframes, ha ▸ h.family, ha ▸ h.older, ha ▸ hl ▸ h.newest⟩

/-- No value is discarded, and no administrator binds port 0: no `SIGUSR1` is sent
to a process with one pending, and the scanner takes one only with its handler
installed. -/
def undisturbed (s : State) : Action → Bool
  | .admin _ (.bind additionPort) => UInt16.ofNat (broadcastPort + additionPort) ≠ 0
  | .admin _ .announce => (s.handler.pending .usr1).isNone
  | .forward => (s.scanner.pending .usr1).isNone
  | .scannerDeliver => s.scanner.handled .usr1
  | _ => true

def Undisturbed (s : State) (a : Action) : Prop := undisturbed s a = true

instance (s : State) (a : Action) : Decidable (Undisturbed s a) :=
  inferInstanceAs (Decidable (_ = _))

/-! ## Steps of the scanner -/

theorem coherent_scannerInstall (h : Coherent cfg s)
    (hs : step cfg s .scannerInstall = some s') : Coherent cfg s' := by
  cases step_steps hs with
  | scannerInstall => exact h.keep h.alive h.frames rfl rfl

theorem coherent_scannerDeliver (h : Coherent cfg s) (hok : Undisturbed s .scannerDeliver)
    (hs : step cfg s .scannerDeliver = some s') : Coherent cfg s' := by
  cases step_steps hs with
  | scannerDeliver hd =>
      obtain ⟨v, hv, halive, hnb, hcase⟩ := Proc.deliver_cases hd
      have hf := frames_eq_nil_of_not_blocked hnb
      rcases hcase with ⟨-, rfl⟩ | ⟨hc, -⟩
      · refine h.keep halive (by simp [hf]) rfl ?_
        simp [latest, inFlight, hv, hf, scannerEnter, Activation.unstored]
      · exact absurd hok (by simp [Undisturbed, undisturbed, hc])

theorem coherent_store (h : Coherent cfg s) (hs : step cfg s .store = some s') :
    Coherent cfg s' := by
  cases step_steps hs with
  | @store data rest hf =>
      have hlen := h.frames
      rw [hf, List.length_cons] at hlen
      have hnil : rest = [] := List.eq_nil_of_length_eq_zero (by omega)
      refine h.keep h.alive (by simp [Proc.setTop, hf, hnil]) rfl ?_
      -- The stored address is what the value in flight, the last one, would have given.
      simp only [latest, inFlight, Proc.setTop, hf, hnil, Activation.unstored,
        List.findSome?_cons, List.findSome?_nil, List.tail_cons, Option.or_none, ← Option.or_assoc]
      cases ((s.handler.pending .usr1).or (s.handler.frames.findSome? Activation.unsent)).or
        (s.scanner.pending .usr1) <;> rfl

theorem coherent_scannerReturn (h : Coherent cfg s) (hs : step cfg s .scannerReturn = some s') :
    Coherent cfg s' := by
  cases step_steps hs with
  | scannerReturn hf =>
      have hlen := h.frames
      rw [hf, List.length_cons] at hlen
      refine h.keep h.alive (by simp [Proc.ret, hf]; omega) rfl ?_
      simp [latest, inFlight, Proc.ret, hf, Activation.unstored, List.findSome?_cons]

/-! ## Steps of the connection handler -/

theorem coherent_handlerMain (h : Coherent cfg s) (hs : step cfg s .handlerMain = some s') :
    Coherent cfg s' := by
  cases step_steps hs with
  | usr1Installed _ => exact h.keep h.alive h.frames rfl rfl
  | usr2Installed _ => exact h.keep h.alive h.frames rfl rfl
  | looping _ =>
      refine h.keep h.alive h.frames rfl ?_
      simp [latest, inFlight, Proc.send_pending_ne (show Sig.usr1 ≠ .usr2 by decide)]

theorem coherent_handlerDeliver {sig : Sig} (hi : Inv s) (h : Coherent cfg s)
    (hs : step cfg s (.handlerDeliver sig) = some s') : Coherent cfg s' := by
  cases step_steps hs with
  | handlerDeliver hd =>
      obtain ⟨-, v, hv, hnb, rfl⟩ := hi.deliver_handled hd
      refine h.keep h.alive h.frames rfl ?_
      cases sig with
      | usr1 =>
          have hf := frames_eq_nil_of_not_blocked hnb
          simp [latest, inFlight, hv, hf, handlerEnter, Activation.unsent]
      | usr2 =>
          simp [latest, inFlight, handlerEnter, Activation.unsent, List.findSome?_cons,
            Proc.take_pending_ne (show Sig.usr1 ≠ .usr2 by decide)]

theorem coherent_forward (hi : Inv s) (h : Coherent cfg s) (hok : Undisturbed s .forward)
    (hs : step cfg s .forward = some s') : Coherent cfg s' := by
  cases step_steps hs with
  | forward hf =>
      have hn := hi.nested
      rw [hf, nested_send] at hn
      have hp : s.scanner.pending .usr1 = none := by simpa [Undisturbed, undisturbed] using hok
      refine h.keep (by simpa using h.alive) (by simpa using h.frames) rfl ?_
      simp [latest, inFlight, Proc.setTop, hf, hn, hp, Activation.unsent,
        Proc.send_pending_self h.alive hp]

theorem coherent_forkFail (h : Coherent cfg s) (hs : step cfg s .forkFail = some s') :
    Coherent cfg s' := by
  cases step_steps hs with
  | forkFail hf =>
      refine h.keep h.alive h.frames rfl ?_
      simp [latest, inFlight, Proc.setTop, hf, Activation.unsent, List.findSome?_cons]

theorem coherent_handlerReturn (h : Coherent cfg s) (hs : step cfg s .handlerReturn = some s') :
    Coherent cfg s' := by
  cases step_steps hs with
  | sendReturn hf =>
      refine h.keep h.alive h.frames rfl ?_
      simp [latest, inFlight, Proc.ret, hf, Activation.unsent, List.findSome?_cons]
  | newReturn hf =>
      refine h.keep h.alive h.frames rfl ?_
      simp [latest, inFlight, Proc.ret, hf, Activation.unsent, List.findSome?_cons]

/-- When a new administrator is forked, all others have sent their `SIGUSR2`. -/
theorem coherent_fork (hi : Inv s) (h : Coherent cfg s) (hs : step cfg s .fork = some s') :
    Coherent cfg s' := by
  cases step_steps hs with
  | fork hf =>
      have hzero : unserved s.admins = 0 := by
        have hle := hi.tokens_le
        rw [tokens, hf, countP_unforked_false] at hle
        omega
      have hfam : ∀ a ∈ (⟨.started, ⟨0, 0, 0⟩⟩ : Admin) :: s.admins,
          a.pc = .bound → a.addr.sinFamily = afInet :=
        List.forall_mem_cons.mpr ⟨by simp, h.family⟩
      refine ⟨h.alive, h.frames, hfam, fun a ha => ?_, ?_⟩
      · have := List.countP_eq_zero.mp hzero a ha
        simpa using this
      · rintro a ⟨⟩ hann
        cases hann

/-! ## Steps of the administrators -/

/-- Only the newest administrator has something to do. -/
theorem Coherent.step_newest (h : Coherent cfg s) {i : Nat} {a : Admin}
    (ha : s.admins[i]? = some a) (hpc : a.pc ≠ .handedOver) :
    i = 0 ∧ ∃ rest, s.admins = a :: rest := by
  cases hadm : s.admins with
  | nil => rw [hadm] at ha; cases ha
  | cons b rest =>
      rw [hadm] at ha
      cases i with
      | zero => exact ⟨rfl, rest, by rw [Option.some.inj ha]⟩
      | succ i =>
          have hold := h.older
          rw [hadm] at hold
          exact absurd (hold a (List.mem_of_getElem? ha)) hpc

theorem coherent_admin {i : Nat} {act : AdminAction} (hi : Inv s) (h : Coherent cfg s)
    (hok : Undisturbed s (.admin i act)) (hs : step cfg s (.admin i act) = some s') :
    Coherent cfg s' := by
  obtain ⟨a, a', sent, ha, hstep, rfl⟩ := step_admin hs
  have hne := hstep.pc_ne
  obtain ⟨rfl, rest, hadm⟩ := h.step_newest ha hne
  have hold : ∀ b ∈ rest, b.pc = .handedOver := by
    have := h.older
    rwa [hadm] at this
  have hfam : (a.pc = .bound → a.addr.sinFamily = afInet) ∧
      ∀ b ∈ rest, b.pc = .bound → b.addr.sinFamily = afInet := by
    have := h.family
    rwa [hadm, List.forall_mem_cons] at this
  have hnew : a.pc.hasAnnounced = true → latest cfg s = a.addr := by
    have := h.newest
    rw [hadm] at this
    exact this a rfl
  rw [hadm, List.set_cons_zero]
  cases hstep with
  | quiet _ _ hann hbound =>
      refine ⟨h.alive, h.frames, List.forall_mem_cons.mpr ⟨hbound, hfam.2⟩, hold, ?_⟩
      rintro b ⟨⟩ hb
      obtain ⟨hb, haddr⟩ := hann hb
      exact (hnew hb).trans haddr.symm
  | announce hact hb =>
      subst hact
      refine ⟨h.alive, h.frames, List.forall_mem_cons.mpr ⟨by simp, hfam.2⟩, hold, ?_⟩
      rintro b ⟨⟩ -
      have hp : s.handler.pending .usr1 = none := by simpa [Undisturbed, undisturbed] using hok
      have htr := translateSignal_encryptSignal cfg.endian a.addr
      rw [hfam.1 hb] at htr
      simpa [latest, inFlight, signal, Proc.send_pending_self hi.alive hp] using htr
  | handOver hb =>
      refine ⟨h.alive, h.frames, List.forall_mem_cons.mpr ⟨by simp, hfam.2⟩, hold, ?_⟩
      rintro b ⟨⟩ -
      have hl := hnew (by rw [hb]; rfl)
      simpa [latest, inFlight, signal,
        Proc.send_pending_ne (show Sig.usr1 ≠ .usr2 by decide)] using hl

/-! ## Runs in which no address is discarded -/

theorem step_coherent {a : Action} (hi : Inv s) (h : Coherent cfg s) (hok : Undisturbed s a)
    (hs : step cfg s a = some s') : Coherent cfg s' := by
  cases a with
  | scannerInstall => exact coherent_scannerInstall h hs
  | scannerDeliver => exact coherent_scannerDeliver h hok hs
  | store => exact coherent_store h hs
  | scannerReturn => exact coherent_scannerReturn h hs
  | handlerMain => exact coherent_handlerMain h hs
  | handlerDeliver sig => exact coherent_handlerDeliver hi h hs
  | forward => exact coherent_forward hi h hok hs
  | fork => exact coherent_fork hi h hs
  | forkFail => exact coherent_forkFail h hs
  | handlerReturn => exact coherent_handlerReturn h hs
  | admin i act => exact coherent_admin hi h hok hs

theorem reachable_coherent (h : Reachable (step cfg) Undisturbed initial s) : Coherent cfg s := by
  have hboth := h.invariant (P := fun s => Inv s ∧ Coherent cfg s)
    ⟨inv_initial, coherent_initial⟩ fun hi hok hs =>
      ⟨step_inv hi.1 hs, step_coherent hi.1 hi.2 hok hs⟩
  exact hboth.2

/-! ## Ports -/

/-- An administrator that has bound its socket has recorded a port. -/
def PortsRecorded (s : State) : Prop :=
  ∀ a ∈ s.admins, a.pc = .bound ∨ a.pc.hasAnnounced = true → a.addr.sinPort ≠ 0

theorem sinPort_adminAddr {k : Nat} (h : UInt16.ofNat (broadcastPort + k) ≠ 0) :
    (adminAddr cfg k).sinPort ≠ 0 := by
  intro hzero
  have hport : htons cfg.endian (htons cfg.endian (UInt16.ofNat (broadcastPort + k)))
      = htons cfg.endian 0 := congrArg (htons cfg.endian) hzero
  rw [htons_htons] at hport
  refine h (hport.trans ?_)
  cases cfg.endian <;> rfl

theorem PortsRecorded.moves {a : Admin} {act : AdminAction} {r : Admin × Option (Sig × UInt64)}
    {i : Nat} (hm : Admin.Moves cfg a act r) (hok : Undisturbed s (.admin i act))
    (h : a.pc = .bound ∨ a.pc.hasAnnounced = true → a.addr.sinPort ≠ 0) :
    r.1.pc = .bound ∨ r.1.pc.hasAnnounced = true → r.1.addr.sinPort ≠ 0 := by
  cases hm with
  | bind _ => exact fun _ => sinPort_adminAddr (by simpa [Undisturbed, undisturbed] using hok)
  | announce hpc => exact fun _ => h (Or.inl hpc)
  | listen hpc => exact fun _ => h (Or.inr (by rw [hpc]; rfl))
  | accept hpc =>
      refine fun _ => h (Or.inr ?_)
      rcases hpc with hpc | hpc
      · rw [hpc]
        rfl
      · rw [hpc]
        rfl
  | handOver hpc => exact fun _ => h (Or.inr (by rw [hpc]; rfl))
  | fail _ => simp [AdminPc.hasAnnounced]

theorem step_portsRecorded {a : Action} (h : PortsRecorded s) (hok : Undisturbed s a)
    (hs : step cfg s a = some s') : PortsRecorded s' := by
  cases step_steps hs with
  | fork _ => exact List.forall_mem_cons.mpr ⟨by simp [AdminPc.hasAnnounced], h⟩
  | admin ha hr =>
      intro b hb
      rcases List.mem_or_eq_of_mem_set hb with hb | rfl
      · exact h b hb
      · exact PortsRecorded.moves (Admin.step_moves hr) hok (h _ (List.mem_of_getElem? ha))
  | _ => exact h

theorem reachable_portsRecorded (h : Reachable (step cfg) Undisturbed initial s) :
    PortsRecorded s :=
  h.invariant (List.forall_mem_nil _) step_portsRecorded

/-- The address of a socket after a `bind` to `addr`.  For port 0 the kernel takes
`picked`. -/
def boundAddr (picked : UInt16) (addr : SockaddrIn) : SockaddrIn :=
  if addr.sinPort = 0 then { addr with sinPort := picked } else addr

/-! ## The address of the scanner -/

/-- No signal is pending or being handled. -/
structure Quiet (s : State) : Prop where
  handlerUsr1 : s.handler.pending .usr1 = none
  handlerUsr2 : s.handler.pending .usr2 = none
  handlerFrames : s.handler.frames = []
  scannerUsr1 : s.scanner.pending .usr1 = none
  scannerUsr2 : s.scanner.pending .usr2 = none
  scannerFrames : s.scanner.frames = []

instance (s : State) : Decidable (Quiet s) :=
  decidable_of_iff (s.handler.pending .usr1 = none ∧ s.handler.pending .usr2 = none ∧
      s.handler.frames = [] ∧ s.scanner.pending .usr1 = none ∧ s.scanner.pending .usr2 = none ∧
      s.scanner.frames = [])
    ⟨fun ⟨h1, h2, h3, h4, h5, h6⟩ => ⟨h1, h2, h3, h4, h5, h6⟩,
      fun ⟨h1, h2, h3, h4, h5, h6⟩ => ⟨h1, h2, h3, h4, h5, h6⟩⟩

/-- It has announced itself and has no client yet. -/
def AdminPc.waitsAnnounced : AdminPc → Bool
  | announced | listening => true
  | started | bound | accepted | handedOver | failed => false

/-- The scanner has the address that the administrator that waits has bound,
whatever port the kernel takes for port 0. -/
def Advertised (s : State) : Prop :=
  Quiet s → ∀ a ∈ s.admins, a.pc.waitsAnnounced = true →
    ∀ picked, picked ≠ 0 → s.admAddr = boundAddr picked a.addr

theorem AdminPc.hasAnnounced_of_waits {pc : AdminPc} (h : pc.waitsAnnounced = true) :
    pc.hasAnnounced = true ∧ pc ≠ .handedOver := by
  cases pc with
  | announced => exact ⟨rfl, by simp⟩
  | listening => exact ⟨rfl, by simp⟩
  | _ => cases h

/-- In a run in which no address is discarded and no port 0 is bound, the scanner has
the address of the waiting administrator whenever nothing is on its way. -/
theorem advertised_when_undisturbed (h : Reachable (step cfg) Undisturbed initial s) :
    Advertised s := by
  intro hq a ha hw picked _
  have hc := reachable_coherent h
  obtain ⟨hann, hne⟩ := AdminPc.hasAnnounced_of_waits hw
  obtain ⟨i, hget⟩ := List.mem_iff_getElem?.mp ha
  obtain ⟨-, rest, hadm⟩ := hc.step_newest hget hne
  have hl := hc.newest a (by rw [hadm]; rfl) hann
  rw [boundAddr, if_neg (reachable_portsRecorded h a ha (Or.inr hann))]
  simpa [latest, inFlight, hq.handlerUsr1, hq.handlerFrames, hq.scannerUsr1,
    hq.scannerFrames] using hl

/-- The scanner cannot have the address of an administrator that has bound port 0. -/
theorem not_advertised_of_port_zero {a : Admin} (hq : Quiet s) (ha : a ∈ s.admins)
    (hw : a.pc.waitsAnnounced = true) (h0 : a.addr.sinPort = 0) : ¬ Advertised s := by
  intro h
  have h1 := h hq a ha hw 1 (by decide)
  have h2 := h hq a ha hw 2 (by decide)
  rw [boundAddr, if_pos h0] at h1 h2
  have hport := congrArg SockaddrIn.sinPort (h1.symm.trans h2)
  cases hport

/-- The first administrator announces itself and the scanner takes the address. -/
theorem advertised_when_undisturbed_sample :
    ∃ s, run (step ⟨.tcp, .little⟩) Undisturbed initial
        [.scannerInstall, .handlerMain, .handlerMain, .handlerMain, .handlerDeliver .usr2, .fork,
          .handlerReturn, .admin 0 (.bind 1), .admin 0 .announce, .handlerDeliver .usr1, .forward,
          .handlerReturn, .scannerDeliver, .store, .scannerReturn, .admin 0 .listen] = some s ∧
      s.admAddr = ⟨2, 0xa15b, 0⟩ ∧ Advertised s := by
  have hrun : (run (step ⟨.tcp, .little⟩) Undisturbed initial
      [.scannerInstall, .handlerMain, .handlerMain, .handlerMain, .handlerDeliver .usr2, .fork,
        .handlerReturn, .admin 0 (.bind 1), .admin 0 .announce, .handlerDeliver .usr1, .forward,
        .handlerReturn, .scannerDeliver, .store, .scannerReturn, .admin 0 .listen]).map
      State.admAddr = some ⟨2, 0xa15b, 0⟩ := by decide
  obtain ⟨s, hs, haddr⟩ := Option.map_eq_some_iff.mp hrun
  exact ⟨s, hs, haddr, advertised_when_undisturbed (reachable_of_run hs)⟩

/-- The scanner has not taken the first address when the second one is sent on,
and keeps the first one. -/
theorem stale_address :
    ¬ ∀ (cfg : Config) (s : State), Reachable (step cfg) Any initial s → Advertised s := by
  intro hclaim
  let schedule : List Action :=
    [.scannerInstall, .handlerMain, .handlerMain, .handlerMain, .handlerDeliver .usr2, .fork,
      .handlerReturn, .admin 0 (.bind 1), .admin 0 .announce, .handlerDeliver .usr1, .forward,
      .handlerReturn, .admin 0 .listen, .admin 0 .accept, .admin 0 .handOver,
      .handlerDeliver .usr2, .fork, .handlerReturn, .admin 0 (.bind 2), .admin 0 .announce,
      .handlerDeliver .usr1, .forward, .handlerReturn, .admin 0 .listen, .scannerDeliver, .store,
      .scannerReturn]
  have hrun : (run (step ⟨.tcp, .little⟩) Any initial schedule).map
      (fun s => (decide (Quiet s), s.admAddr, s.admins))
      = some (true, ⟨2, 0xa15b, 0⟩,
        [⟨.listening, ⟨2, 0xa25b, 0⟩⟩, ⟨.handedOver, ⟨2, 0xa15b, 0⟩⟩]) := by decide
  obtain ⟨s, hs, hv⟩ := Option.map_eq_some_iff.mp hrun
  obtain ⟨hq, hv⟩ := Prod.mk.inj hv
  obtain ⟨haddr, hadm⟩ := Prod.mk.inj hv
  have h := hclaim _ s (reachable_of_run hs) (of_decide_eq_true hq) ⟨.listening, ⟨2, 0xa25b, 0⟩⟩
    (hadm ▸ List.mem_cons_self ..) rfl 1 (by decide)
  rw [haddr] at h
  cases h

end Processes

end ServerSsh

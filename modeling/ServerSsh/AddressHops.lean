import ServerSsh.Processes

/-!
# An address on its way to the scanner

The value of a signal is a pointer, `sival_ptr`, that carries the packed address
of an administrator.  `Send_admin_info` sends the pointer on as it is, and
`Update_admin_info` unpacks it.  `hops` are the four steps in which a value that
is pending at the connection handler gets into `adm_addr`.
-/

namespace ServerSsh

open Posix Transition

namespace Processes

variable {cfg : Config} {s s' : State} {v : UInt64}

/-- The handler takes the value and sends it on, and the scanner takes and stores
it. -/
def hops : List Action := [.handlerDeliver .usr1, .forward, .scannerDeliver, .store]

/-- A value can make its way: it is pending at the connection handler, the
scanner has none pending, and both have their handlers. -/
structure OnHop (s : State) (v : UInt64) : Prop where
  pending : s.handler.pending .usr1 = some v
  handler : s.handler.handled .usr1 = true
  free : s.scanner.pending .usr1 = none
  scanner : s.scanner.handled .usr1 = true

/-- The value that is stored is the one that was sent. -/
theorem run_hops (h : OnHop s v) (hrun : run (step cfg) Any s hops = some s') :
    s'.admAddr = translateSignal cfg.endian afInet v := by
  simp only [hops, run, Any] at hrun
  obtain ⟨s₁, h₁, hrun⟩ := Option.bind_eq_some_iff.mp hrun
  obtain ⟨s₂, h₂, hrun⟩ := Option.bind_eq_some_iff.mp hrun
  obtain ⟨s₃, h₃, hrun⟩ := Option.bind_eq_some_iff.mp hrun
  obtain ⟨s₄, h₄, hrun⟩ := Option.bind_eq_some_iff.mp hrun
  cases hrun
  cases step_steps h₁ with
  | handlerDeliver hd =>
      obtain ⟨w, hw, -, -, rfl⟩ := Proc.deliver_handled hd fun _ => h.handler
      obtain rfl : v = w := Option.some.inj (h.pending.symm.trans hw)
      cases step_steps h₂ with
      | forward hf =>
          cases hf
          cases step_steps h₃ with
          | scannerDeliver hd =>
              obtain ⟨w, hw', halive, -, rfl⟩ := Proc.deliver_handled hd fun _ => by
                rw [Proc.send_handled, h.scanner]
              rw [Proc.send_alive] at halive
              rw [Proc.send_pending_self halive h.free] at hw'
              obtain rfl : v = w := Option.some.inj hw'
              cases step_steps h₄ with
              | store hf =>
                  cases hf
                  rfl

/-- Packing an address keeps its address and its port, unpacking and packing a
value keeps its lower 48 bits, and an address is the same behind the hops. -/
theorem address_packing (e : Endian) :
    (∀ (family : UInt16) (a : SockaddrIn),
      (translateSignal e family (encryptSignal e a)).sinAddr = a.sinAddr ∧
        (translateSignal e family (encryptSignal e a)).sinPort = a.sinPort) ∧
    (∀ (family : UInt16) (d : UInt64),
      (encryptSignal e (translateSignal e family d)).toNat = d.toNat % 2 ^ 48) ∧
    ∀ (mode : Mode) (s s' : State) (a : SockaddrIn), OnHop s (encryptSignal e a) →
      run (step ⟨mode, e⟩) Any s hops = some s' →
        s'.admAddr.sinAddr = a.sinAddr ∧ s'.admAddr.sinPort = a.sinPort ∧
          encryptSignal e s'.admAddr = encryptSignal e a := by
  have hfields : ∀ (family : UInt16) (a : SockaddrIn),
      (translateSignal e family (encryptSignal e a)).sinAddr = a.sinAddr ∧
        (translateSignal e family (encryptSignal e a)).sinPort = a.sinPort := by
    intro family a
    have h := translateSignal_encryptSignal e a
    have haddr := congrArg SockaddrIn.sinAddr h
    have hport := congrArg SockaddrIn.sinPort h
    exact ⟨haddr, hport⟩
  refine ⟨hfields, encryptSignal_translateSignal e, ?_⟩
  intro mode s s' a h hrun
  have hadm := run_hops h hrun
  obtain ⟨haddr, hport⟩ := hfields afInet a
  refine ⟨hadm ▸ haddr, hadm ▸ hport, ?_⟩
  rw [encryptSignal, encryptSignal, hadm, haddr, hport]

/-- The first announcement at the connection handler. -/
def sampleHop : State where
  scanner := Proc.start.install .usr1
  admAddr := ⟨0, 0, 0⟩
  handlerPc := .looping
  handler := (Proc.start.install .usr1).send .usr1 (encryptSignal .little ⟨2, 0xa15b, 0⟩)
  admins := []

theorem address_packing_sample :
    ∃ s', run (step ⟨.tcp, .little⟩) Any sampleHop hops = some s' ∧
      s'.admAddr.sinPort = 0xa15b := by
  have hsome : (run (step ⟨.tcp, .little⟩) Any sampleHop hops).isSome = true := by decide
  obtain ⟨s', hs'⟩ := Option.isSome_iff_exists.mp hsome
  have hhop : OnHop sampleHop (encryptSignal .little ⟨2, 0xa15b, 0⟩) := ⟨rfl, rfl, rfl, rfl⟩
  exact ⟨s', hs', ((address_packing .little).2.2 .tcp _ _ ⟨2, 0xa15b, 0⟩ hhop hs').2.1⟩

end Processes

end ServerSsh

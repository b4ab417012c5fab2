import ServerSsh.Processes
import Mathlib.Data.List.Count

/-!
# The spare administrator

There is one token for a spare administrator.  It is an administrator that has
not yet sent its `SIGUSR2`, or a `SIGUSR2` that is pending at the connection
handler, or an activation of `New_admin_request` that has not yet forked.
`tokens` counts all three.  The handler makes the one token when it sends itself
a `SIGUSR2`, and after that a step moves it or leaves it where it is
(`step_tokens`).  So no `SIGUSR2` is sent while another one is pending, and no
two administrators wait for a client.
-/

namespace ServerSsh

open Posix Transition

namespace Processes

/-! ## The token -/

/-- An activation that has not yet forked. -/
def Activation.unforked : Activation → Bool
  | newAdminRequest false => true
  | _ => false

@[simp] theorem countP_unforked_send (info : UInt64) (queued : Bool) (fs : List Activation) :
    (.sendAdminInfo info queued :: fs : List Activation).countP Activation.unforked
      = fs.countP Activation.unforked := List.countP_cons_of_neg Bool.false_ne_true

@[simp] theorem countP_unforked_false (fs : List Activation) :
    (.newAdminRequest false :: fs : List Activation).countP Activation.unforked
      = fs.countP Activation.unforked + 1 := List.countP_cons_of_pos rfl

@[simp] theorem countP_unforked_true (fs : List Activation) :
    (.newAdminRequest true :: fs : List Activation).countP Activation.unforked
      = fs.countP Activation.unforked := List.countP_cons_of_neg Bool.false_ne_true

/-- 1 when the signal is pending. -/
def pendingCount (p : Process) (sig : Sig) : Nat := if (p.pending sig).isSome then 1 else 0

/-- The administrators that have not yet sent `SIGUSR2`. -/
def unserved (admins : List Admin) : Nat := admins.countP fun a => a.pc ≠ .handedOver

/-- The tokens for a spare administrator. -/
def tokens (s : State) : Nat :=
  unserved s.admins + pendingCount s.handler .usr2 + s.handler.frames.countP Activation.unforked

/-! ## The invariant of the connection handler -/

/-- The handlers that are installed at a point of `Wait_connection`. -/
def Ready (p : Process) : HandlerPc → Prop
  | .start => True
  | .usr1Installed => p.handled .usr1 = true
  | .usr2Installed => p.handled .usr1 = true ∧ p.handled .usr2 = true
  | .looping => p.handled .usr1 = true ∧ p.handled .usr2 = true

/-- The stacks of activations of the connection handler.  Only `SIGUSR2` in the
handler of `SIGUSR1` nests. -/
def Nested : List Activation → Prop
  | [] => True
  | [.sendAdminInfo _ _] => True
  | [.newAdminRequest _] => True
  | [.newAdminRequest _, .sendAdminInfo _ _] => True
  | _ => False

theorem nested_send {info : UInt64} {queued : Bool} {fs : List Activation} :
    Nested (.sendAdminInfo info queued :: fs) ↔ fs = [] := by
  cases fs with
  | nil => exact ⟨fun _ => rfl, fun _ => trivial⟩
  | cons f fs => exact ⟨False.elim, by simp⟩

theorem nested_new {forked : Bool} {fs : List Activation} :
    Nested (.newAdminRequest forked :: fs) ↔
      fs = [] ∨ ∃ info queued, fs = [.sendAdminInfo info queued] := by
  constructor
  · intro h
    match fs, h with
    | [], _ => exact Or.inl rfl
    | [.sendAdminInfo info queued], _ => exact Or.inr ⟨info, queued, rfl⟩
  · rintro (rfl | ⟨info, queued, rfl⟩) <;> trivial

/-- The flag of the innermost activation does not matter. -/
theorem nested_forked {b b' : Bool} {fs : List Activation}
    (h : Nested (.newAdminRequest b :: fs)) : Nested (.newAdminRequest b' :: fs) :=
  nested_new.mpr (nested_new.mp h)

theorem nested_tail {f : Activation} {fs : List Activation} (h : Nested (f :: fs)) : Nested fs := by
  cases f with
  | updateAdminInfo data stored => cases fs <;> exact h.elim
  | sendAdminInfo info queued =>
      rw [nested_send.mp h]
      trivial
  | newAdminRequest forked =>
      rcases nested_new.mp h with rfl | ⟨info, queued, rfl⟩ <;> trivial

/-- What every run keeps. -/
structure Inv (s : State) : Prop where
  alive : s.handler.alive = true
  ready : Ready s.handler s.handlerPc
  idle : s.handlerPc ≠ .looping →
    s.handler.frames = [] ∧ (∀ sig, s.handler.pending sig = none) ∧ s.admins = []
  nested : Nested s.handler.frames
  tokens_le : tokens s ≤ 1

theorem inv_initial : Inv initial :=
  ⟨rfl, trivial, fun _ => ⟨rfl, fun _ => rfl, rfl⟩, trivial, Nat.zero_le 1⟩

variable {cfg : Config} {s s' : State}

/-- The handlers are installed once there is anything to handle. -/
theorem Inv.looping (h : Inv s)
    (hbusy : s.handler.frames ≠ [] ∨ (∃ sig, s.handler.pending sig ≠ none) ∨ s.admins ≠ []) :
    s.handlerPc = .looping := by
  by_contra hpc
  obtain ⟨hf, hp, ha⟩ := h.idle hpc
  rcases hbusy with hb | ⟨sig, hb⟩ | hb
  · exact hb hf
  · exact hb (hp sig)
  · exact hb ha

theorem Inv.handled (h : Inv s) (hpc : s.handlerPc = .looping) (sig : Sig) :
    s.handler.handled sig = true := by
  have hr := h.ready
  rw [hpc] at hr
  cases sig with
  | usr1 => exact hr.1
  | usr2 => exact hr.2

/-- Steps that leave the handler and the administrators alone. -/
theorem Inv.frame (h : Inv s) (hpc : s'.handlerPc = s.handlerPc) (hh : s'.handler = s.handler)
    (ha : s'.admins = s.admins) : Inv s' ∧ tokens s' = tokens s := by
  have ht : tokens s' = tokens s := by rw [tokens, tokens, hh, ha]
  refine ⟨⟨hh ▸ h.alive, ?_, ?_, hh ▸ h.nested, ht ▸ h.tokens_le⟩, ht⟩
  · rw [hh, hpc]
    exact h.ready
  · rw [hh, hpc, ha]
    exact h.idle

/-- Steps of the handler and the administrators once there is something to
handle. -/
theorem Inv.busy (h : Inv s) (hpc : s.handlerPc = .looping) (hpc' : s'.handlerPc = s.handlerPc)
    (halive : s'.handler.alive = s.handler.alive) (hh : s'.handler.handled = s.handler.handled)
    (hn : Nested s'.handler.frames) (ht : tokens s' ≤ tokens s) : Inv s' := by
  refine ⟨halive.trans h.alive, ?_, fun hne => absurd (hpc'.trans hpc) hne, hn,
    ht.trans h.tokens_le⟩
  have hr := h.ready
  rw [hpc] at hr
  rw [hpc', hpc]
  exact ⟨hh ▸ hr.1, hh ▸ hr.2⟩

/-! ## Deliveries -/

theorem frames_eq_nil_of_not_blocked {p : Process} (h : ¬ p.Blocked mask .usr1) :
    p.frames = [] := by
  cases hf : p.frames with
  | nil => rfl
  | cons f fs => exact absurd ⟨f, hf ▸ List.mem_cons_self .., by cases f <;> rfl⟩ h

/-- The stack under a new activation of `New_admin_request`. -/
theorem nested_push {p : Process} (h : ¬ p.Blocked mask .usr2) (hn : Nested p.frames) :
    Nested (.newAdminRequest false :: p.frames) ∧ p.frames.countP Activation.unforked = 0 := by
  cases hf : p.frames with
  | nil => exact ⟨trivial, rfl⟩
  | cons f fs =>
      rw [hf] at hn
      cases f with
      | updateAdminInfo data stored => exact hn.elim
      | newAdminRequest forked =>
          exact absurd ⟨_, hf ▸ List.mem_cons_self .., rfl⟩ h
      | sendAdminInfo info queued =>
          cases fs with
          | nil => exact ⟨trivial, rfl⟩
          | cons g gs => exact hn.elim

/-- The connection handler is never terminated by a signal. -/
theorem Inv.deliver_handled {sig : Sig} {p : Process} (h : Inv s)
    (hd : s.handler.deliver mask handlerEnter sig = some p) :
    s.handlerPc = .looping ∧ ∃ v, s.handler.pending sig = some v ∧
      ¬ s.handler.Blocked mask sig ∧
        p = { s.handler.take sig with frames := handlerEnter sig v :: s.handler.frames } := by
  have hpc : s.handler.pending sig ≠ none → s.handlerPc = .looping :=
    fun hp => h.looping (Or.inr (Or.inl ⟨sig, hp⟩))
  obtain ⟨v, hv, -, hnb, hp⟩ := Proc.deliver_handled hd fun hp => h.handled (hpc hp) sig
  exact ⟨hpc (by simp [hv]), v, hv, hnb, hp⟩

theorem inv_handlerDeliver {sig : Sig} (h : Inv s)
    (hs : step cfg s (.handlerDeliver sig) = some s') : Inv s' ∧ tokens s' = tokens s := by
  cases step_steps hs with
  | handlerDeliver hd =>
      obtain ⟨hpc, v, hv, hnb, rfl⟩ := h.deliver_handled hd
      cases sig with
      | usr1 =>
          have hf := frames_eq_nil_of_not_blocked hnb
          have ht : tokens { s with handler :=
              { s.handler.take .usr1 with frames := .sendAdminInfo v false :: s.handler.frames } }
              = tokens s := by
            simp [tokens, pendingCount, Proc.take_pending_ne]
          exact ⟨h.busy hpc rfl rfl rfl (by rw [hf]; trivial) ht.le, ht⟩
      | usr2 =>
          obtain ⟨hn, hz⟩ := nested_push hnb h.nested
          have ht : tokens { s with handler :=
              { s.handler.take .usr2 with frames := .newAdminRequest false :: s.handler.frames } }
              = tokens s := by
            simp [tokens, pendingCount, hv, hz]
          exact ⟨h.busy hpc rfl rfl rfl hn ht.le, ht⟩

/-! ## Steps of the handler functions -/

theorem inv_forward (h : Inv s) (hs : step cfg s .forward = some s') :
    Inv s' ∧ tokens s' = tokens s := by
  cases step_steps hs with
  | @forward info rest hf =>
      have hpc := h.looping (Or.inl (by simp [hf]))
      have ht : tokens { s with
          handler := s.handler.setTop (.sendAdminInfo info true)
          scanner := s.scanner.send .usr1 info } = tokens s := by
        simp [tokens, pendingCount, Proc.setTop, hf]
      have hn := h.nested
      rw [hf, nested_send] at hn
      refine ⟨h.busy hpc rfl rfl rfl ?_ ht.le, ht⟩
      simp [Proc.setTop, hf, hn, Nested]

theorem inv_fork (h : Inv s) (hs : step cfg s .fork = some s') :
    Inv s' ∧ tokens s' = tokens s := by
  cases step_steps hs with
  | fork hf =>
      have hpc := h.looping (Or.inl (by simp [hf]))
      have ht : tokens { s with
          handler := s.handler.setTop (.newAdminRequest true)
          admins := ⟨.started, ⟨0, 0, 0⟩⟩ :: s.admins } = tokens s := by
        simp [tokens, pendingCount, unserved, Proc.setTop, hf]
        omega
      refine ⟨h.busy hpc rfl rfl rfl ?_ ht.le, ht⟩
      simpa [Proc.setTop, hf] using nested_forked (hf ▸ h.nested)

theorem inv_forkFail (h : Inv s) (hs : step cfg s .forkFail = some s') : Inv s' := by
  cases step_steps hs with
  | forkFail hf =>
      have hpc := h.looping (Or.inl (by simp [hf]))
      have ht : tokens { s with handler := s.handler.setTop (.newAdminRequest true) }
          ≤ tokens s := by
        simp [tokens, pendingCount, Proc.setTop, hf]
      refine h.busy hpc rfl rfl rfl ?_ ht
      simpa [Proc.setTop, hf] using nested_forked (hf ▸ h.nested)

theorem inv_handlerReturn (h : Inv s) (hs : step cfg s .handlerReturn = some s') :
    Inv s' ∧ tokens s' = tokens s := by
  have hret : ∀ f rest, s.handler.frames = f :: rest → f.unforked = false →
      Inv { s with handler := s.handler.ret } ∧
        tokens { s with handler := s.handler.ret } = tokens s := by
    intro f rest hf hu
    have hpc := h.looping (Or.inl (by simp [hf]))
    have ht : tokens { s with handler := s.handler.ret } = tokens s := by
      simp [tokens, pendingCount, Proc.ret, hf, hu]
    refine ⟨h.busy hpc rfl rfl rfl ?_ ht.le, ht⟩
    simpa [Proc.ret, hf] using nested_tail (hf ▸ h.nested)
  cases step_steps hs with
  | sendReturn hf => exact hret _ _ hf rfl
  | newReturn hf => exact hret _ _ hf rfl

/-! ## Steps of the main program -/

theorem inv_handlerMain (h : Inv s) (hs : step cfg s .handlerMain = some s') :
    Inv s' ∧ (s'.handlerPc = .looping → tokens s' = 1) := by
  have hr := h.ready
  cases step_steps hs with
  | usr1Installed hpc =>
      obtain ⟨hf, hp, ha⟩ := h.idle (by simp [hpc])
      exact ⟨⟨h.alive, by simp [Ready], fun _ => ⟨hf, hp, ha⟩, h.nested, h.tokens_le⟩, by simp⟩
  | usr2Installed hpc =>
      obtain ⟨hf, hp, ha⟩ := h.idle (by simp [hpc])
      rw [hpc] at hr
      refine ⟨⟨h.alive, ?_, fun _ => ⟨hf, hp, ha⟩, h.nested, h.tokens_le⟩, by simp⟩
      exact ⟨Proc.install_handled_mono _ _ _ hr, Proc.install_handled_self ..⟩
  | looping hpc =>
      obtain ⟨hf, hp, ha⟩ := h.idle (by simp [hpc])
      rw [hpc] at hr
      have ht : tokens { s with handlerPc := .looping, handler := s.handler.send .usr2 0 } = 1 := by
        simp [tokens, pendingCount, unserved, Proc.send_pending_self h.alive (hp .usr2), hf, ha]
      refine ⟨⟨?_, ?_, fun hne => absurd rfl hne, ?_, ht.le⟩, fun _ => ht⟩
      · simpa using h.alive
      · simpa [Ready] using hr
      · simpa using h.nested

/-! ## Steps of the administrators -/

/-- It has sent its address. -/
def AdminPc.hasAnnounced : AdminPc → Bool
  | announced | listening | accepted | handedOver => true
  | started | bound | failed => false

/-- What a step of an administrator does. -/
inductive Admin.Steps (cfg : Config) (a : Admin) (act : AdminAction) :
    Admin → Option (Sig × UInt64) → Prop where
  /-- It sends nothing. -/
  | quiet {a' : Admin} :
      a.pc ≠ .handedOver → a'.pc ≠ .handedOver →
      (a'.pc.hasAnnounced = true → a.pc.hasAnnounced = true ∧ a'.addr = a.addr) →
      (a'.pc = .bound → a'.addr.sinFamily = afInet) → Admin.Steps cfg a act a' none
  | announce : act = .announce → a.pc = .bound →
      Admin.Steps cfg a act { a with pc := .announced }
        (some (.usr1, encryptSignal cfg.endian a.addr))
  | handOver : a.pc = .accepted →
      Admin.Steps cfg a act { a with pc := .handedOver } (some (.usr2, 0))

/-- An administrator that has handed over is done. -/
theorem Admin.Steps.pc_ne {a a' : Admin} {act : AdminAction} {sent : Option (Sig × UInt64)}
    (h : Admin.Steps cfg a act a' sent) : a.pc ≠ .handedOver := by
  cases h with
  | quiet hne _ _ _ => exact hne
  | announce _ hb => simp [hb]
  | handOver hb => simp [hb]

theorem Admin.step_steps {a : Admin} {act : AdminAction} {r : Admin × Option (Sig × UInt64)}
    (h : a.step cfg act = some r) : Admin.Steps cfg a act r.1 r.2 := by
  cases Admin.step_moves h with
  | bind hpc => exact .quiet (by simp [hpc]) (by simp) (by simp [AdminPc.hasAnnounced]) fun _ => rfl
  | announce hpc => exact .announce rfl hpc
  | listen hpc =>
      exact .quiet (by simp [hpc]) (by simp) (fun _ => ⟨by rw [hpc]; rfl, rfl⟩) (by simp)
  | accept hpc =>
      refine .quiet ?_ (by simp) (fun _ => ⟨?_, rfl⟩) (by simp)
      · rcases hpc with hpc | hpc <;> simp [hpc]
      · rcases hpc with hpc | hpc <;> simp [hpc, AdminPc.hasAnnounced]
  | handOver hpc => exact .handOver hpc
  | fail hpc =>
      refine .quiet ?_ (by simp) (by simp [AdminPc.hasAnnounced]) (by simp)
      rcases hpc with hpc | hpc | hpc <;> simp [hpc]

/-- Which administrator a step is about. -/
theorem step_admin {i : Nat} {act : AdminAction} (hs : step cfg s (.admin i act) = some s') :
    ∃ a a' sent, s.admins[i]? = some a ∧ Admin.Steps cfg a act a' sent ∧
      s' = { s with admins := s.admins.set i a', handler := signal s.handler sent } := by
  cases step_steps hs with
  | admin ha hr => exact ⟨_, _, _, ha, Admin.step_steps hr, rfl⟩

theorem unserved_pos {admins : List Admin} {i : Nat} {a : Admin} (ha : admins[i]? = some a)
    (hpc : a.pc ≠ .handedOver) : 1 ≤ unserved admins :=
  List.countP_pos_iff.mpr ⟨a, List.mem_of_getElem? ha, by simpa using hpc⟩

/-- Replacing an administrator that has not sent its `SIGUSR2`. -/
theorem unserved_set {admins : List Admin} {i : Nat} {a : Admin} (ha : admins[i]? = some a)
    (hpc : a.pc ≠ .handedOver) (a' : Admin) :
    unserved (admins.set i a') + 1
      = unserved admins + (if a'.pc ≠ .handedOver then 1 else 0) := by
  have hpos := unserved_pos ha hpc
  obtain ⟨hi, rfl⟩ := List.getElem?_eq_some_iff.mp ha
  have hset : unserved (admins.set i a')
      = unserved admins - 1 + (if a'.pc ≠ .handedOver then 1 else 0) := by
    rw [unserved, List.countP_set hi, if_pos (by simpa using hpc)]
    simp [unserved]
  omega

/-- An administrator that has a client finds no `SIGUSR2` pending. -/
theorem Inv.usr2_not_pending (h : Inv s) {i : Nat} {a : Admin} (ha : s.admins[i]? = some a)
    (hpc : a.pc ≠ .handedOver) : s.handler.pending .usr2 = none := by
  have hpos := unserved_pos ha hpc
  have hle := h.tokens_le
  rw [tokens, pendingCount] at hle
  cases hp : s.handler.pending .usr2 with
  | none => rfl
  | some v =>
      rw [hp, Option.isSome_some, if_pos rfl] at hle
      omega

theorem inv_admin {i : Nat} {act : AdminAction} (h : Inv s)
    (hs : step cfg s (.admin i act) = some s') : Inv s' ∧ tokens s' = tokens s := by
  obtain ⟨a, a', sent, ha, hstep, rfl⟩ := step_admin hs
  have hpc := h.looping (Or.inr (Or.inr (List.ne_nil_of_mem (List.mem_of_getElem? ha))))
  have hne := hstep.pc_ne
  have hset := unserved_set ha hne
  have ht : tokens { s with admins := s.admins.set i a', handler := signal s.handler sent }
      = tokens s := by
    cases hstep with
    | quiet _ hne' _ _ =>
        have := hset a'
        rw [if_pos hne'] at this
        simp only [tokens, signal]
        omega
    | announce _ hb =>
        have := hset { a with pc := .announced }
        rw [if_pos (by simp)] at this
        simp only [tokens, signal, pendingCount, Proc.send_frames,
          Proc.send_pending_ne (show Sig.usr2 ≠ .usr1 by decide)]
        omega
    | handOver hb =>
        have := hset { a with pc := .handedOver }
        rw [if_neg (by simp)] at this
        have hp := h.usr2_not_pending ha hne
        simp only [tokens, signal, pendingCount, Proc.send_frames, hp,
          Proc.send_pending_self h.alive hp, Option.isSome_some, Option.isSome_none,
          Bool.false_eq_true, if_true, if_false]
        omega
  refine ⟨h.busy hpc rfl ?_ ?_ ?_ ht.le, ht⟩
  · cases sent <;> simp [signal]
  · cases sent <;> simp [signal]
  · cases sent <;> simpa [signal] using h.nested

/-! ## Runs -/

/-- The calls of the processes that the action is about succeed. -/
def Action.succeeds : Action → Bool
  | forkFail => false
  | admin _ .fail => false
  | _ => true

/-- No call fails. -/
def NoFailure (_ : State) (a : Action) : Prop := a.succeeds = true

instance (s : State) (a : Action) : Decidable (NoFailure s a) :=
  inferInstanceAs (Decidable (_ = _))

/-- Steps of the scanner. -/
theorem inv_scanner {a : Action} (h : Inv s) (hs : step cfg s a = some s')
    (ha : a = .scannerInstall ∨ a = .scannerDeliver ∨ a = .store ∨ a = .scannerReturn) :
    Inv s' ∧ tokens s' = tokens s := by
  have hstep := step_steps hs
  rcases ha with rfl | rfl | rfl | rfl
  · cases hstep; exact h.frame rfl rfl rfl
  · cases hstep; exact h.frame rfl rfl rfl
  · cases hstep; exact h.frame rfl rfl rfl
  · cases hstep; exact h.frame rfl rfl rfl

/-- Every step keeps the invariant. -/
theorem step_inv {a : Action} (h : Inv s) (hs : step cfg s a = some s') : Inv s' := by
  cases a with
  | scannerInstall => exact (inv_scanner h hs (by simp)).1
  | scannerDeliver => exact (inv_scanner h hs (by simp)).1
  | store => exact (inv_scanner h hs (by simp)).1
  | scannerReturn => exact (inv_scanner h hs (by simp)).1
  | handlerMain => exact (inv_handlerMain h hs).1
  | handlerDeliver sig => exact (inv_handlerDeliver h hs).1
  | forward => exact (inv_forward h hs).1
  | fork => exact (inv_fork h hs).1
  | forkFail => exact inv_forkFail h hs
  | handlerReturn => exact (inv_handlerReturn h hs).1
  | admin i act => exact (inv_admin h hs).1

theorem step_handlerPc {a : Action} (ha : a ≠ .handlerMain) (hs : step cfg s a = some s') :
    s'.handlerPc = s.handlerPc := by
  cases step_steps hs with
  | usr1Installed _ => exact absurd rfl ha
  | usr2Installed _ => exact absurd rfl ha
  | looping _ => exact absurd rfl ha
  | _ => rfl

/-- Besides the main program only a failing `fork` changes the number of tokens. -/
theorem tokens_eq {a : Action} (h : Inv s) (hm : a ≠ .handlerMain) (hf : a ≠ .forkFail)
    (hs : step cfg s a = some s') : tokens s' = tokens s := by
  cases a with
  | handlerMain => exact absurd rfl hm
  | forkFail => exact absurd rfl hf
  | scannerInstall => exact (inv_scanner h hs (by simp)).2
  | scannerDeliver => exact (inv_scanner h hs (by simp)).2
  | store => exact (inv_scanner h hs (by simp)).2
  | scannerReturn => exact (inv_scanner h hs (by simp)).2
  | handlerDeliver sig => exact (inv_handlerDeliver h hs).2
  | forward => exact (inv_forward h hs).2
  | fork => exact (inv_fork h hs).2
  | handlerReturn => exact (inv_handlerReturn h hs).2
  | admin i act => exact (inv_admin h hs).2

/-- The main program makes the token, and only a failing `fork` destroys it. -/
theorem step_tokens {a : Action} (h : Inv s) (ha : NoFailure s a)
    (hs : step cfg s a = some s') (ht : s.handlerPc = .looping → tokens s = 1)
    (hl : s'.handlerPc = .looping) : tokens s' = 1 := by
  by_cases hm : a = .handlerMain
  · subst hm
    exact (inv_handlerMain h hs).2 hl
  · have hf : a ≠ .forkFail := by
      rintro rfl
      cases ha
    exact (tokens_eq h hm hf hs).trans (ht (step_handlerPc hm hs ▸ hl))

theorem reachable_inv {ok : State → Action → Prop} (h : Reachable (step cfg) ok initial s) :
    Inv s :=
  h.invariant inv_initial fun hi _ hs => step_inv hi hs

/-- In a run without failures there is one token from the handler's own
`SIGUSR2` on. -/
theorem reachable_tokens (h : Reachable (step cfg) NoFailure initial s)
    (hl : s.handlerPc = .looping) : tokens s = 1 := by
  have hboth := h.invariant (P := fun s => Inv s ∧ (s.handlerPc = .looping → tokens s = 1))
    ⟨inv_initial, fun hpc => absurd hpc (by decide)⟩
    fun hi ha hs => ⟨step_inv hi.1 hs, step_tokens hi.1 ha hs hi.2⟩
  exact hboth.2 hl

/-! ## The spare administrator -/

/-- It waits for a client, or is on its way to. -/
def AdminPc.waits : AdminPc → Bool
  | started | bound | announced | listening => true
  | accepted | handedOver | failed => false

/-- It has a client. -/
def AdminPc.served : AdminPc → Bool
  | accepted | handedOver => true
  | started | bound | announced | listening | failed => false

/-- The handler has caught up: no `SIGUSR2` is on its way, pending, or not yet
answered by a `fork`. -/
structure CaughtUp (s : State) : Prop where
  sent : ∀ a ∈ s.admins, a.pc ≠ .accepted
  pending : s.handler.pending .usr2 = none
  forked : s.handler.frames.countP Activation.unforked = 0

/-- The properties of a state with one spare administrator. -/
structure OneSpare (s : State) : Prop where
  /-- There is one token. -/
  tokens : tokens s = 1
  /-- No `SIGUSR2` is sent while one is pending. -/
  notLost : ∀ a ∈ s.admins, a.pc = .accepted → s.handler.pending .usr2 = none
  /-- Two administrators never wait at once. -/
  waiting : s.admins.countP (fun a => a.pc.waits) ≤ 1
  /-- There is one administrator more than there are clients. -/
  created : CaughtUp s → s.admins.length = 1 + s.admins.countP fun a => a.pc.served

theorem waits_le_unserved (admins : List Admin) :
    admins.countP (fun a => a.pc.waits) ≤ unserved admins :=
  List.countP_mono_left fun a _ hw => by
    cases hp : a.pc <;> simp_all [AdminPc.waits]

/-- When no administrator is between its client and its `SIGUSR2`, those with a
client are those that have sent it. -/
theorem length_eq_served {admins : List Admin} (h : ∀ a ∈ admins, a.pc ≠ .accepted) :
    admins.length = unserved admins + admins.countP fun a => a.pc.served := by
  rw [List.length_eq_countP_add_countP fun a : Admin => a.pc ≠ .handedOver, unserved]
  congr 1
  refine List.countP_congr fun a ha => ?_
  have hne := h a ha
  cases hp : a.pc <;> simp_all [AdminPc.served]

/-- In every state after the handler's own `SIGUSR2` there is exactly one spare
administrator. -/
theorem one_spare_administrator (h : Reachable (step cfg) NoFailure initial s)
    (hl : s.handlerPc = .looping) : OneSpare s := by
  have hi := reachable_inv h
  have ht := reachable_tokens h hl
  refine ⟨ht, ?_, ?_, ?_⟩
  · intro a ha hpc
    obtain ⟨i, hget⟩ := List.mem_iff_getElem?.mp ha
    exact hi.usr2_not_pending hget (by simp [hpc])
  · have := waits_le_unserved s.admins
    rw [tokens] at ht
    omega
  · intro hc
    have hlen := length_eq_served hc.sent
    have hcount := hc.forked
    rw [tokens, pendingCount, hc.pending] at ht
    simp only [Option.isSome_none, Bool.false_eq_true, if_false] at ht
    omega

/-- The handler starts, the first administrator gets a client, and its `SIGUSR2`
is delivered while its address is being forwarded. -/
def sampleSchedule : List Action :=
  [.scannerInstall, .handlerMain, .handlerMain, .handlerMain, .handlerDeliver .usr2, .fork,
    .handlerReturn, .admin 0 (.bind 1), .admin 0 .announce, .handlerDeliver .usr1,
    .admin 0 .listen, .admin 0 .accept, .admin 0 .handOver, .handlerDeliver .usr2, .fork]

theorem one_spare_administrator_sample :
    ∃ s, run (step ⟨.tcp, .little⟩) NoFailure initial sampleSchedule = some s ∧
      s.admins.length = 2 ∧ OneSpare s := by
  have hrun : (run (step ⟨.tcp, .little⟩) NoFailure initial sampleSchedule).map
      (fun s => (s.handlerPc, s.admins.length)) = some (.looping, 2) := by decide
  obtain ⟨s, hs, hv⟩ := Option.map_eq_some_iff.mp hrun
  obtain ⟨hl, hlen⟩ := Prod.mk.inj hv
  exact ⟨s, hs, hlen, one_spare_administrator (reachable_of_run hs) hl⟩

end Processes

end ServerSsh

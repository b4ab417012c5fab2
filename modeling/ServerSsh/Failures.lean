import ServerSsh.SpareAdministrator

/-!
# What a server process does not survive

Two things end the service of a server for good.

*A signal without a handler.*  The scanner is forked before it calls `sigaction`,
and the connection handler runs at the same time.  The first address can reach
the scanner before the call, and terminates it (`survives_iff`).  The handler
installs both its handlers before it sends itself the signal that starts
everything, so no signal terminates the handler.

*A failing call of an administrator.*  It exits without a `SIGUSR2`.  The token
that it had for a new administrator is gone, and nothing makes another one
(`attended_iff`).
-/

namespace ServerSsh

open Posix Transition

namespace Processes

variable {cfg : Config} {s s' : State}

/-! ## Death by a signal -/

/-- What a step does to the scanner. -/
inductive ScannerSteps (s : State) : Action → Process → Prop where
  | install : ScannerSteps s .scannerInstall (s.scanner.install .usr1)
  | takes {p : Process} :
      s.scanner.deliver mask scannerEnter .usr1 = some p → ScannerSteps s .scannerDeliver p
  | stores {data : UInt64} {rest : List Activation} :
      s.scanner.frames = .updateAdminInfo data false :: rest →
      ScannerSteps s .store (s.scanner.setTop (.updateAdminInfo data true))
  | returns : ScannerSteps s .scannerReturn s.scanner.ret
  | gets {info : UInt64} {rest : List Activation} :
      s.handler.frames = .sendAdminInfo info false :: rest →
      ScannerSteps s .forward (s.scanner.send .usr1 info)
  | other {a : Action} : a ≠ .scannerDeliver → a ≠ .forward → ScannerSteps s a s.scanner

theorem step_scanner {a : Action} (hs : step cfg s a = some s') :
    ScannerSteps s a s'.scanner := by
  cases step_steps hs with
  | scannerInstall => exact .install
  | scannerDeliver hd => exact .takes hd
  | store hf => exact .stores hf
  | scannerReturn _ => exact .returns
  | forward hf => exact .gets hf
  | _ => exact .other (by simp) (by simp)

/-- What a step does to the administrators. -/
inductive AdminsSteps (cfg : Config) (s : State) : Action → List Admin → Prop where
  | fork : AdminsSteps cfg s .fork (⟨.started, ⟨0, 0, 0⟩⟩ :: s.admins)
  | admin {i : Nat} {act : AdminAction} {a : Admin} {r : Admin × Option (Sig × UInt64)} :
      s.admins[i]? = some a → a.step cfg act = some r →
      AdminsSteps cfg s (.admin i act) (s.admins.set i r.1)
  | other {a : Action} : (∀ i act, a ≠ .admin i act) → AdminsSteps cfg s a s.admins

theorem step_admins {a : Action} (hs : step cfg s a = some s') :
    AdminsSteps cfg s a s'.admins := by
  cases step_steps hs with
  | fork _ => exact .fork
  | admin ha hr => exact .admin ha hr
  | _ => exact .other (by simp)

/-- No process has been terminated by a signal. -/
structure Survives (s : State) : Prop where
  scanner : s.scanner.alive = true
  handler : s.handler.alive = true

/-- The scanner has called `sigaction` before it takes a signal. -/
def scannerReady (s : State) : Action → Bool
  | .scannerDeliver => s.scanner.handled .usr1
  | _ => true

def ScannerReady (s : State) (a : Action) : Prop := scannerReady s a = true

instance (s : State) (a : Action) : Decidable (ScannerReady s a) :=
  inferInstanceAs (Decidable (_ = _))

/-- A delivery leaves the scanner alive exactly when the handler is installed. -/
theorem deliver_alive {p : Process} (hd : s.scanner.deliver mask scannerEnter .usr1 = some p) :
    s.scanner.alive = true ∧ p.alive = s.scanner.handled .usr1 := by
  obtain ⟨v, -, halive, -, hcase⟩ := Proc.deliver_cases hd
  rcases hcase with ⟨hh, rfl⟩ | ⟨hh, rfl⟩
  · exact ⟨halive, halive.trans hh.symm⟩
  · exact ⟨halive, hh.symm⟩

/-- Nothing brings the scanner back, and it only dies of a signal without a
handler. -/
theorem step_scanner_alive {a : Action} (hs : step cfg s a = some s') :
    s'.scanner.alive = true ↔ s.scanner.alive = true ∧ ScannerReady s a := by
  have hstep := step_scanner hs
  generalize s'.scanner = p at hstep ⊢
  cases hstep with
  | takes hd =>
      obtain ⟨halive, hp⟩ := deliver_alive hd
      rw [hp, ScannerReady, scannerReady]
      exact ⟨fun h => ⟨halive, h⟩, And.right⟩
  | install => simp [ScannerReady, scannerReady]
  | stores _ => simp [ScannerReady, scannerReady, Proc.setTop]
  | returns => simp [ScannerReady, scannerReady, Proc.ret]
  | gets _ => simp [ScannerReady, scannerReady]
  | other hne _ =>
      have hready : ScannerReady s a := by
        cases a <;> first | rfl | exact absurd rfl hne
      exact ⟨fun h => ⟨h, hready⟩, And.left⟩

/-- All processes are alive in exactly the states that runs reach in which the
scanner calls `sigaction` before it takes a signal. -/
theorem survives_iff (h : Reachable (step cfg) Any initial s) :
    Survives s ↔ Reachable (step cfg) ScannerReady initial s := by
  refine h.iff_of_exact (fun hr => ⟨?_, (reachable_inv hr).alive⟩) ?_ ?_
  · exact hr.invariant (P := fun s => s.scanner.alive = true) rfl
      fun hp hok hs => (step_scanner_alive hs).mpr ⟨hp, hok⟩
  · exact fun hr hs hp => ⟨((step_scanner_alive hs).mp hp.scanner).1, (reachable_inv hr).alive⟩
  · exact fun _ hs hp => ((step_scanner_alive hs).mp hp.scanner).2

/-- No address is forwarded before the scanner has called `sigaction`. -/
def InstalledFirst (s : State) (a : Action) : Prop :=
  a = .forward → s.scanner.handled .usr1 = true

/-- It is enough that the handler forwards the first address late. -/
theorem survives_of_installedFirst (h : Reachable (step cfg) InstalledFirst initial s) :
    Survives s := by
  have hkeep : s.scanner.alive = true ∧
      (s.scanner.pending .usr1 ≠ none → s.scanner.handled .usr1 = true) := by
    refine h.invariant (P := fun s => s.scanner.alive = true ∧
      (s.scanner.pending .usr1 ≠ none → s.scanner.handled .usr1 = true))
      ⟨rfl, fun hp => absurd rfl hp⟩ fun {s s' a} hp hok hs => ?_
    have hstep := step_scanner hs
    generalize s'.scanner = p at hstep ⊢
    cases hstep with
    | install => exact ⟨hp.1, fun _ => Proc.install_handled_self ..⟩
    | takes hd =>
        obtain ⟨v, hv, halive, -, rfl⟩ := Proc.deliver_handled hd hp.2
        exact ⟨halive, fun _ => hp.2 (by simp [hv])⟩
    | stores _ => exact hp
    | returns => exact hp
    | gets _ => exact ⟨by simpa using hp.1, fun _ => by simpa using hok rfl⟩
    | other _ _ => exact hp
  exact ⟨hkeep.1, (reachable_inv h).alive⟩

/-- The scanner installs its handler first. -/
theorem survives_iff_sample :
    ∃ s, run (step ⟨.tcp, .little⟩) ScannerReady initial
        [.scannerInstall, .handlerMain, .handlerMain, .handlerMain, .handlerDeliver .usr2, .fork,
          .handlerReturn, .admin 0 (.bind 1), .admin 0 .announce, .handlerDeliver .usr1, .forward,
          .scannerDeliver, .store] = some s ∧ s.admAddr = ⟨2, 0xa15b, 0⟩ ∧ Survives s := by
  have hrun : (run (step ⟨.tcp, .little⟩) ScannerReady initial
      [.scannerInstall, .handlerMain, .handlerMain, .handlerMain, .handlerDeliver .usr2, .fork,
        .handlerReturn, .admin 0 (.bind 1), .admin 0 .announce, .handlerDeliver .usr1, .forward,
        .scannerDeliver, .store]).map State.admAddr = some ⟨2, 0xa15b, 0⟩ := by decide
  obtain ⟨s, hs, haddr⟩ := Option.map_eq_some_iff.mp hrun
  have hr := reachable_of_run hs
  exact ⟨s, hs, haddr, (survives_iff hr.any).mpr hr⟩

/-- The first address overtakes the scanner's `sigaction`. -/
theorem scanner_terminated :
    ¬ ∀ (cfg : Config) (s : State), Reachable (step cfg) Any initial s → Survives s := by
  intro hclaim
  have hrun : (run (step ⟨.tcp, .little⟩) Any initial
      [.handlerMain, .handlerMain, .handlerMain, .handlerDeliver .usr2, .fork, .handlerReturn,
        .admin 0 (.bind 1), .admin 0 .announce, .handlerDeliver .usr1, .forward,
        .scannerDeliver]).map (fun s => s.scanner.alive) = some false := by decide
  obtain ⟨s, hs, hdead⟩ := Option.map_eq_some_iff.mp hrun
  have h := (hclaim _ s (reachable_of_run hs)).scanner
  rw [hdead] at h
  cases h

/-! ## Loss of the token -/

/-- It has the token for a new administrator: it waits for a client, is on its
way to, or is about to send its `SIGUSR2`. -/
def AdminPc.holds : AdminPc → Bool
  | started | bound | announced | listening | accepted => true
  | handedOver | failed => false

/-- After the handler's own `SIGUSR2` there is an administrator with the token, or
a `SIGUSR2` is pending, or an activation of `New_admin_request` is going to
fork. -/
def Attended (s : State) : Prop :=
  s.handlerPc = .looping → (∃ a ∈ s.admins, a.pc.holds = true) ∨
    s.handler.pending .usr2 ≠ none ∨ ∃ f ∈ s.handler.frames, f.unforked = true

/-- The administrators that have exited with the token. -/
def failedCount (admins : List Admin) : Nat := admins.countP fun a => a.pc = .failed

theorem unserved_eq (admins : List Admin) :
    unserved admins = admins.countP (fun a => a.pc.holds) + failedCount admins := by
  induction admins with
  | nil => rfl
  | cons a admins ih =>
      rw [unserved, failedCount] at ih ⊢
      rw [List.countP_cons, List.countP_cons, List.countP_cons, ih]
      cases a.pc <;> simp [AdminPc.holds] <;> omega

/-- Somebody has a token exactly when there are more tokens than exits. -/
theorem attended_iff_failedCount_lt (s : State) :
    Attended s ↔ (s.handlerPc = .looping → failedCount s.admins < tokens s) := by
  have hsplit : tokens s = s.admins.countP (fun a => a.pc.holds) + failedCount s.admins
      + pendingCount s.handler .usr2 + s.handler.frames.countP Activation.unforked := by
    rw [tokens, unserved_eq]
  have hpend : s.handler.pending .usr2 ≠ none ↔ 0 < pendingCount s.handler .usr2 := by
    rw [pendingCount]
    cases s.handler.pending .usr2 <;> simp
  have hlt : failedCount s.admins < tokens s ↔ 0 < s.admins.countP (fun a => a.pc.holds) ∨
      0 < pendingCount s.handler .usr2 ∨ 0 < s.handler.frames.countP Activation.unforked := by
    omega
  rw [Attended, hlt, List.countP_pos_iff, List.countP_pos_iff, hpend]

/-! ### Exits -/

/-- An administrator that has exited does nothing more, and exits on a failing
call only. -/
theorem Admin.step_failed {a : Admin} {act : AdminAction} {r : Admin × Option (Sig × UInt64)}
    (h : a.step cfg act = some r) : a.pc ≠ .failed ∧ (r.1.pc = .failed ↔ act = .fail) := by
  cases Admin.step_moves h with
  | bind hpc => simp [hpc]
  | announce hpc => simp [hpc]
  | listen hpc => simp [hpc]
  | accept hpc => rcases hpc with hpc | hpc <;> simp [hpc]
  | handOver hpc => simp [hpc]
  | fail hpc => rcases hpc with hpc | hpc | hpc <;> simp [hpc]

/-- An action that is the exit of an administrator. -/
def Action.exits : Action → Bool
  | admin _ .fail => true
  | _ => false

theorem exits_admin_iff {i : Nat} {act : AdminAction} :
    (Action.admin i act).exits = true ↔ act = .fail := by
  cases act <;> simp [Action.exits]

theorem step_failedCount {a : Action} (hs : step cfg s a = some s') :
    failedCount s'.admins = failedCount s.admins + (if a.exits then 1 else 0) := by
  have hstep := step_admins hs
  generalize s'.admins = admins at hstep ⊢
  cases hstep with
  | fork => exact List.countP_cons_of_neg (by simp)
  | admin ha hr =>
      obtain ⟨hne, hiff⟩ := Admin.step_failed hr
      obtain ⟨hi, rfl⟩ := List.getElem?_eq_some_iff.mp ha
      rw [failedCount, List.countP_set hi, if_neg (by simpa using hne), Nat.sub_zero, failedCount]
      simp only [decide_eq_true_eq, hiff, exits_admin_iff]
  | other hne =>
      have hexit : a.exits = false := by
        cases a with
        | admin i act => exact absurd rfl (hne i act)
        | _ => rfl
      rw [hexit]
      rfl

/-! ### Tokens -/

theorem tokens_forkFail (hs : step cfg s .forkFail = some s') : tokens s' + 1 = tokens s := by
  cases step_steps hs with
  | forkFail hf =>
      simp [tokens, pendingCount, Proc.setTop, hf]
      omega

/-- After the handler's own `SIGUSR2` no token comes in. -/
theorem step_looping {a : Action} (h : Inv s) (hl : s.handlerPc = .looping)
    (hs : step cfg s a = some s') : s'.handlerPc = .looping ∧ tokens s' ≤ tokens s := by
  have hm : a ≠ .handlerMain := by
    rintro rfl
    cases step_steps hs with
    | usr1Installed hpc => rw [hl] at hpc; cases hpc
    | usr2Installed hpc => rw [hl] at hpc; cases hpc
    | looping hpc => rw [hl] at hpc; cases hpc
  refine ⟨(step_handlerPc hm hs).trans hl, ?_⟩
  by_cases hf : a = .forkFail
  · subst hf
    have := tokens_forkFail hs
    omega
  · exact (tokens_eq h hm hf hs).le

/-- What fails, fails when the handler has sent itself the `SIGUSR2`. -/
theorem Inv.looping_of_failure (h : Inv s) {a : Action} (ha : ¬ NoFailure s a)
    (hs : step cfg s a = some s') : s.handlerPc = .looping := by
  cases step_steps hs with
  | forkFail hf => exact h.looping (Or.inl (by simp [hf]))
  | admin hget _ =>
      exact h.looping (Or.inr (Or.inr (List.ne_nil_of_mem (List.mem_of_getElem? hget))))
  | _ => exact absurd rfl ha

theorem failedCount_of_noFailure (h : Reachable (step cfg) NoFailure initial s) :
    failedCount s.admins = 0 := by
  refine h.invariant (P := fun s => failedCount s.admins = 0) rfl fun {s s' a} hp hok hs => ?_
  have hexit : a.exits = false := by
    cases a with
    | admin i act =>
        cases act with
        | fail => cases hok
        | _ => rfl
    | _ => rfl
  rw [step_failedCount hs, hp, hexit]
  rfl

/-- A failure takes the last token. -/
theorem not_attended_of_failure {a : Action} (hr : Reachable (step cfg) NoFailure initial s)
    (ha : ¬ NoFailure s a) (hs : step cfg s a = some s') : ¬ Attended s' := by
  have hi := reachable_inv hr
  have hl := hi.looping_of_failure ha hs
  have ht := reachable_tokens hr hl
  have hf := failedCount_of_noFailure hr
  have hf' := step_failedCount hs
  obtain ⟨hl', hle⟩ := step_looping hi hl hs
  intro hp
  have hlt := (attended_iff_failedCount_lt s').mp hp hl'
  cases a with
  | forkFail =>
      have := tokens_forkFail hs
      omega
  | admin i act =>
      cases act with
      | fail =>
          rw [if_pos (exits_admin_iff.mpr rfl)] at hf'
          omega
      | _ => exact absurd rfl ha
  | _ => exact absurd rfl ha

/-- There is a token in exactly the states that runs without a failing call
reach. -/
theorem attended_iff (h : Reachable (step cfg) Any initial s) :
    Attended s ↔ Reachable (step cfg) NoFailure initial s := by
  refine h.iff_of_exact ?_ ?_ ?_
  · intro s hr
    rw [attended_iff_failedCount_lt]
    intro hl
    rw [reachable_tokens hr hl, failedCount_of_noFailure hr]
    exact Nat.one_pos
  · intro s s' a hr hs hp
    rw [attended_iff_failedCount_lt] at hp ⊢
    intro hl
    obtain ⟨hl', hle⟩ := step_looping (reachable_inv hr) hl hs
    have := hp hl'
    have := step_failedCount hs
    omega
  · intro s s' a hr hs hp
    by_contra ha
    exact not_attended_of_failure hr ha hs hp

/-- The first administrator gets a client. -/
theorem attended_iff_sample :
    ∃ s, run (step ⟨.tcp, .little⟩) NoFailure initial sampleSchedule = some s ∧
      s.admins.length = 2 ∧ Attended s := by
  have hrun : (run (step ⟨.tcp, .little⟩) NoFailure initial sampleSchedule).map
      (fun s => s.admins.length) = some 2 := by decide
  obtain ⟨s, hs, hlen⟩ := Option.map_eq_some_iff.mp hrun
  have hr := reachable_of_run hs
  exact ⟨s, hs, hlen, (attended_iff hr.any).mpr hr⟩

/-- The `accept` of the first administrator fails. -/
theorem token_lost :
    ¬ ∀ (cfg : Config) (s : State), Reachable (step cfg) Any initial s → Attended s := by
  intro hclaim
  have hrun : (run (step ⟨.tcp, .little⟩) Any initial
      [.scannerInstall, .handlerMain, .handlerMain, .handlerMain, .handlerDeliver .usr2, .fork,
        .handlerReturn, .admin 0 (.bind 1), .admin 0 .announce, .admin 0 .listen,
        .admin 0 .fail]).map
      (fun s => (s.handlerPc, s.admins.map Admin.pc, s.handler.pending .usr2, s.handler.frames))
      = some (.looping, [.failed], none, []) := by decide
  obtain ⟨s, hs, hv⟩ := Option.map_eq_some_iff.mp hrun
  have h := hclaim _ s (reachable_of_run hs)
  obtain ⟨hl, hv⟩ := Prod.mk.inj hv
  obtain ⟨hpcs, hv⟩ := Prod.mk.inj hv
  obtain ⟨hpend, hframes⟩ := Prod.mk.inj hv
  rcases h hl with ⟨a, ha, hholds⟩ | hp | ⟨f, hf, -⟩
  · have hpc : a.pc ∈ s.admins.map Admin.pc := List.mem_map_of_mem ha
    rw [hpcs, List.mem_singleton] at hpc
    rw [hpc] at hholds
    cases hholds
  · exact hp hpend
  · rw [hframes] at hf
    cases hf

end Processes

end ServerSsh

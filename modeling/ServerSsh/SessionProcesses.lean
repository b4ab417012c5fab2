import ServerSsh.Dispatch
import ServerSsh.Transition

/-!
# The processes of a session

`Do_usual` forks for each command.  The child calls `execvp`, and when that fails
it returns -9 to `Parser` and from there to the session, of which it is a copy.  The
parent waits for the child to end, and reads what the child has written into the pipe
only then.

The machine below follows the processes over any sequence of commands.  A call is to
return in the process that has made it and in no other one.  `continues_iff` says
that this, and one session process, is kept by the runs in which the commands fit
into `argv`, no `execvp` fails and the pipe can take the output of each program, and
lost for good in every other run.
-/

namespace ServerSsh

open Libc Transition

namespace SessionProcesses

/-- What a process does. -/
inductive Status where
  /-- It is in the code that calls `Parser`. -/
  | session
  /-- It is in the `wait` of a call of `Do_usual`. -/
  | waiting (call child : Nat)
  /-- It is the child of a call, in front of its `execvp`. -/
  | forked (call : Nat) (exec : Exec)
  /-- `execvp` has replaced it.  It has `left` bytes to write, and `filled` bytes are in
  the pipe. -/
  | program (exec : Exec) (left filled : Nat)
  | ended
deriving DecidableEq

/-- A call of `Do_usual`, with the processes in which it has returned and what it has
returned there. -/
structure Call where
  caller : Nat
  returned : List (Nat × Int)
deriving DecidableEq

/-- The processes and the calls, numbered as they begin. -/
structure State where
  procs : List Status
  calls : List Call

/-- A session at its start. -/
def start : State := ⟨[.session], []⟩

inductive Action where
  /-- A session passes a message to `Parser`.  `forks` tells whether a `fork`
  succeeds. -/
  | message (i : Nat) {n : Nat} (message : Buf n) (forks : Bool)
  /-- `execvp` succeeds with a program that writes so many bytes to its outputs, or it
  fails. -/
  | execvp (j : Nat) (output : Option Nat)
  /-- `k` more bytes of a program go into the pipe. -/
  | write (j k : Nat)
  /-- A program that has written everything exits, or a session. -/
  | exit (j : Nat)
  /-- The `wait` of a call returns. -/
  | wait (i : Nat)

/-- A call returns in process `p`. -/
def returns (calls : List Call) (call p : Nat) (value : Int) : List Call :=
  calls.modify call fun c => { c with returned := c.returned ++ [(p, value)] }

/-- `Do_usual` up to its `execvp` and its `wait`, called by process `i`.  Without a
child the parent's `wait` and `read` return at once. -/
def callDoUsual (s : State) (i : Nat) (args : MessageBuf) (forks : Bool) : State :=
  match Server.doUsual args with
  | .error _ => ⟨s.procs.set i .ended, s.calls ++ [⟨i, []⟩]⟩
  | .ok exec =>
      if forks then
        ⟨s.procs.set i (.waiting s.calls.length s.procs.length) ++ [.forked s.calls.length exec],
          s.calls ++ [⟨i, []⟩]⟩
      else ⟨s.procs, s.calls ++ [⟨i, [(i, 1)]⟩]⟩

/-- One step of a process, with pipes of `capacity` bytes.  A process that uses a null
pointer or stores outside of an array has ended. -/
def step (capacity : Nat) (s : State) : Action → Option State
  | .message i message forks =>
      match s.procs[i]? with
      | some .session =>
          match Server.parser message with
          | .error _ => some { s with procs := s.procs.set i .ended }
          | .ok (.doUsual args) => some (callDoUsual s i args forks)
          | .ok _ => some s
      | _ => none
  | .execvp j output =>
      match s.procs[j]? with
      | some (.forked call exec) =>
          match output with
          | some n => some { s with procs := s.procs.set j (.program exec n 0) }
          | none => some ⟨s.procs.set j .session, returns s.calls call j (-9)⟩
      | _ => none
  | .write j k =>
      match s.procs[j]? with
      | some (.program exec left filled) =>
          if 0 < k ∧ k ≤ left ∧ filled + k ≤ capacity then
            some { s with procs := s.procs.set j (.program exec (left - k) (filled + k)) }
          else none
      | _ => none
  | .exit j =>
      match s.procs[j]? with
      | some .session | some (.program _ 0 _) => some { s with procs := s.procs.set j .ended }
      | _ => none
  | .wait i =>
      match s.procs[i]? with
      | some (.waiting call child) =>
          if s.procs[child]? = some .ended then
            some ⟨s.procs.set i .session, returns s.calls call i 1⟩
          else none
      | _ => none

/-! ## What is to hold -/

/-- The call has returned, in its caller and nowhere else, or the caller is in its
`wait`. -/
def Single (s : State) (k : Nat) (c : Call) : Prop :=
  c.returned = [(c.caller, 1)] ∨
    c.returned = [] ∧ ∃ child, s.procs[c.caller]? = some (.waiting k child)

/-- Every call returns once, in the process that has made it. -/
def ReturnsOnce (s : State) : Prop := ∀ (k : Nat) c, s.calls[k]? = some c → Single s k c

/-- The process goes on with the session. -/
def Status.Session : Status → Prop
  | session | waiting _ _ => True
  | forked _ _ | program _ _ _ | ended => False

/-- The run can go on until call `k` has returned 1 in process `i`, and nowhere else. -/
def CanReturn (capacity : Nat) (s : State) (k i : Nat) : Prop :=
  ∃ s', Reachable (step capacity) Any s s' ∧ s'.calls[k]? = some ⟨i, [(i, 1)]⟩

/-- Every call returns in its caller only, and none is kept from returning.  The process
that the session was started with is the only one that goes on with it. -/
structure Continues (capacity : Nat) (s : State) : Prop where
  once : ReturnsOnce s
  returns : ∀ (k : Nat) c, s.calls[k]? = some c → CanReturn capacity s k c.caller
  alone : ∀ (j : Nat) st, s.procs[j]? = some st → st.Session → j = 0

/-- The command of a call fits into `argv`, `execvp` succeeds, and the output of the
program fits into the pipe. -/
def Executed (capacity : Nat) (s : State) : Action → Prop
  | .message i message _ => s.procs[i]? = some .session →
      ∀ args, Server.parser message = .ok (.doUsual args) →
        (cut args.bytes).tail.count 32 + 2 ≤ maxUserCount
  | .execvp _ output => ∃ n, output = some n ∧ n ≤ capacity
  | .write _ _ | .exit _ | .wait _ => True

/-! ## One step -/

/-- What a step does.  The steps outside `Executed` are those that lose a call, bring a
child back, or start a program that fills the pipe. -/
inductive Move (capacity : Nat) (s : State) (a : Action) : State → Prop where
  | ended {i : Nat} {old : Status} :
      s.procs[i]? = some old → old = .session ∨ (∃ exec filled, old = .program exec 0 filled) →
      Executed capacity s a → Move capacity s a { s with procs := s.procs.set i .ended }
  | other : Executed capacity s a → Move capacity s a s
  | overrun {i : Nat} :
      s.procs[i]? = some .session → ¬ Executed capacity s a →
      Move capacity s a ⟨s.procs.set i .ended, s.calls ++ [⟨i, []⟩]⟩
  | forks {i : Nat} {exec : Exec} :
      s.procs[i]? = some .session → Executed capacity s a →
      Move capacity s a
        ⟨s.procs.set i (.waiting s.calls.length s.procs.length) ++ [.forked s.calls.length exec],
          s.calls ++ [⟨i, []⟩]⟩
  | forkFails {i : Nat} :
      s.procs[i]? = some .session → Executed capacity s a →
      Move capacity s a ⟨s.procs, s.calls ++ [⟨i, [(i, 1)]⟩]⟩
  | runs {j k n : Nat} {exec : Exec} :
      s.procs[j]? = some (.forked k exec) → (Executed capacity s a ↔ n ≤ capacity) →
      Move capacity s a { s with procs := s.procs.set j (.program exec n 0) }
  | writes {j k left filled : Nat} {exec : Exec} :
      s.procs[j]? = some (.program exec left filled) → k ≤ left → filled + k ≤ capacity →
      Executed capacity s a →
      Move capacity s a { s with procs := s.procs.set j (.program exec (left - k) (filled + k)) }
  | comesBack {j k : Nat} {exec : Exec} :
      s.procs[j]? = some (.forked k exec) → ¬ Executed capacity s a →
      Move capacity s a ⟨s.procs.set j .session, returns s.calls k j (-9)⟩
  | waits {i k child : Nat} :
      s.procs[i]? = some (.waiting k child) → s.procs[child]? = some .ended →
      Executed capacity s a →
      Move capacity s a ⟨s.procs.set i .session, returns s.calls k i 1⟩

variable {capacity : Nat} {s s' : State} {a : Action}

/-- The call of `Do_usual` in a session. -/
theorem move_callDoUsual {i n : Nat} {m : Buf n} {args : MessageBuf} {b : Bool}
    (hi : s.procs[i]? = some .session) (hm : Server.parser m = .ok (.doUsual args)) :
    Move capacity s (.message i m b) (callDoUsual s i args b) := by
  rw [callDoUsual]
  split
  next hexec =>
    refine .overrun hi fun hok => ?_
    obtain ⟨exec, hsome⟩ := (Server.doUsual_ok_iff hm).mpr (hok hi args hm)
    rw [hexec] at hsome
    cases hsome
  next exec hexec =>
    have hfits := (Server.doUsual_ok_iff hm).mp ⟨exec, hexec⟩
    have hok : Executed capacity s (.message i m b) := by
      intro _ args' hargs'
      rw [hm] at hargs'
      cases hargs'
      exact hfits
    cases b with
    | true => exact .forks hi hok
    | false => exact .forkFails hi hok

theorem move_of_step (h : step capacity s a = some s') : Move capacity s a s' := by
  cases a with
  | message i m b =>
      rw [step] at h
      split at h
      next hi =>
        split at h
        next hm =>
          cases h
          refine .ended hi (Or.inl rfl) fun _ args hargs => ?_
          rw [hm] at hargs
          cases hargs
        next args hm =>
          cases h
          exact move_callDoUsual hi hm
        next handler hne hm =>
          cases h
          refine .other fun _ args hargs => ?_
          rw [hm] at hargs
          exact absurd (Except.ok.inj hargs) (hne args)
      next => cases h
  | execvp j output =>
      rw [step] at h
      split at h
      next k exec hj =>
        cases output with
        | some n =>
            cases h
            exact .runs hj (by simp [Executed])
        | none =>
            cases h
            exact .comesBack hj (by simp [Executed])
      next => cases h
  | write j k =>
      rw [step] at h
      split at h
      next exec left filled hj =>
        split at h
        next hk =>
          cases h
          exact .writes hj hk.2.1 hk.2.2 trivial
        next => cases h
      next => cases h
  | exit j =>
      rw [step] at h
      split at h
      next hj =>
        cases h
        exact .ended hj (Or.inl rfl) trivial
      next exec filled hj =>
        cases h
        exact .ended hj (Or.inr ⟨exec, filled, rfl⟩) trivial
      next => cases h
  | wait i =>
      rw [step] at h
      split at h
      next k child hi =>
        split at h
        next hchild =>
          cases h
          exact .waits hi hchild trivial
        next => cases h
      next => cases h

/-! ## The calls -/

/-- The call that returns. -/
theorem getElem?_returns_self {calls : List Call} {c : Call} {k p : Nat} {value : Int}
    (h : calls[k]? = some c) :
    (returns calls k p value)[k]? = some { c with returned := c.returned ++ [(p, value)] } := by
  rw [returns, List.getElem?_modify_eq, h]
  rfl

theorem getElem?_returns_ne {calls : List Call} {k k' p : Nat} {value : Int} (hne : k ≠ k') :
    (returns calls k p value)[k']? = calls[k']? := by
  rw [returns, List.getElem?_modify_ne _ _ hne]

/-- What a process does that the step has not set. -/
theorem getElem?_of_set {procs : List Status} {i q : Nat} {st st' : Status} (hne : st ≠ st')
    (h : (procs.set i st)[q]? = some st') : procs[q]? = some st' := by
  rw [List.getElem?_set] at h
  split at h
  · split at h
    · exact absurd (Option.some.inj h) hne
    · cases h
  · exact h

/-- A process that waits goes on waiting while others change. -/
theorem waiting_set {procs : List Status} {i q k child : Nat} {st : Status}
    (hi : ∀ k child, procs[i]? ≠ some (.waiting k child))
    (h : procs[q]? = some (.waiting k child)) :
    (procs.set i st)[q]? = some (.waiting k child) := by
  have hne : i ≠ q := fun heq => hi k child (heq ▸ h)
  rw [List.getElem?_set_ne hne, h]

theorem Single.of_waiting {procs procs' : List Status} {calls calls' : List Call} {k : Nat}
    {c : Call} (h : Single ⟨procs', calls'⟩ k c)
    (hw : ∀ q child : Nat, procs'[q]? = some (Status.waiting k child) →
      procs[q]? = some (Status.waiting k child)) : Single ⟨procs, calls⟩ k c :=
  h.imp id fun ⟨hnil, child, hchild⟩ => ⟨hnil, child, hw _ _ hchild⟩

/-- A call that is lost, or that has come back in its child, stays so. -/
theorem Move.once_of_once (hm : Move capacity s a s') (h : ReturnsOnce s') : ReturnsOnce s := by
  intro k c hc
  cases hm with
  | ended _ _ _ => exact Single.of_waiting (h k c hc) fun q child => getElem?_of_set (by simp)
  | other _ => exact h k c hc
  | overrun _ _ =>
      exact Single.of_waiting (h k c (getElem?_append_of_some hc))
        fun q child => getElem?_of_set (by simp)
  | forks _ _ =>
      have hk : k ≠ s.calls.length := Nat.ne_of_lt (List.getElem?_eq_some_iff.mp hc).1
      refine Single.of_waiting (h k c (getElem?_append_of_some hc)) fun q child hq => ?_
      rcases getElem?_concat_cases hq with hq | ⟨-, heq⟩
      · exact getElem?_of_set (by simp [Ne.symm hk]) hq
      · cases heq
  | forkFails _ _ =>
      exact Single.of_waiting (h k c (getElem?_append_of_some hc)) fun q child hq => hq
  | runs _ _ => exact Single.of_waiting (h k c hc) fun q child => getElem?_of_set (by simp)
  | writes _ _ _ _ =>
      exact Single.of_waiting (h k c hc) fun q child => getElem?_of_set (by simp)
  | @comesBack j k' exec _ _ =>
      by_cases hk : k' = k
      · rw [hk] at h
        rcases h k _ (getElem?_returns_self hc) with hret | ⟨hnil, -⟩
        · simp [List.append_eq_singleton_iff] at hret
        · simp at hnil
      · rw [← getElem?_returns_ne hk] at hc
        exact Single.of_waiting (h k c hc) fun q child => getElem?_of_set (by simp)
  | @waits i k' child hi _ _ =>
      by_cases hk : k' = k
      · rw [hk] at h hi
        rcases h k _ (getElem?_returns_self hc) with hret | ⟨hnil, -⟩
        · have hret : c.returned = [] ∧ i = c.caller := by
            simpa [List.append_eq_singleton_iff] using hret
          exact Or.inr ⟨hret.1, child, hret.2 ▸ hi⟩
        · simp at hnil
      · rw [← getElem?_returns_ne hk] at hc
        exact Single.of_waiting (h k c hc) fun q child => getElem?_of_set (by simp)

/-- A call keeps its number and its caller. -/
theorem Move.caller (hm : Move capacity s a s') {k : Nat} {c : Call} (hc : s.calls[k]? = some c) :
    ∃ c', s'.calls[k]? = some c' ∧ c'.caller = c.caller := by
  have hreturns : ∀ k' p value, ∃ c', (returns s.calls k' p value)[k]? = some c' ∧
      c'.caller = c.caller := by
    intro k' p value
    by_cases hk : k' = k
    · subst hk
      exact ⟨_, getElem?_returns_self hc, rfl⟩
    · exact ⟨c, (getElem?_returns_ne hk).trans hc, rfl⟩
  cases hm with
  | ended _ _ _ | other _ | runs _ _ | writes _ _ _ _ => exact ⟨c, hc, rfl⟩
  | overrun _ _ | forks _ _ | forkFails _ _ => exact ⟨c, getElem?_append_of_some hc, rfl⟩
  | comesBack _ _ => exact hreturns _ _ _
  | waits _ _ _ => exact hreturns _ _ _

/-! ## Runs without a failure -/

/-- What holds while every command is executed. -/
structure Inv (capacity : Nat) (s : State) : Prop where
  once : ReturnsOnce s
  alone : ∀ (j : Nat) st, s.procs[j]? = some st → st.Session → j = 0
  /-- A child in front of its `execvp` is waited for. -/
  forked : ∀ (j k : Nat) exec, s.procs[j]? = some (.forked k exec) →
    ∃ i : Nat, s.procs[i]? = some (.waiting k j)
  waiting : ∀ i k child : Nat,
    s.procs[i]? = some (.waiting k child) → s.calls[k]? = some ⟨i, []⟩
  fits : ∀ (j : Nat) exec left filled,
    s.procs[j]? = some (.program exec left filled) → filled + left ≤ capacity

theorem inv_start : Inv capacity start where
  once := by simp [ReturnsOnce, start]
  alone := by
    intro j st h _
    rw [start, List.getElem?_singleton] at h
    split at h
    next hj => exact hj
    next => cases h
  forked := by simp [start, List.getElem?_singleton]
  waiting := by simp [start, List.getElem?_singleton]
  fits := by simp [start, List.getElem?_singleton]

/-- A process that goes on with the session did so before. -/
theorem alone_set {procs : List Status} {i : Nat} {st old : Status}
    (h : ∀ (j : Nat) st, procs[j]? = some st → st.Session → j = 0) (hi : procs[i]? = some old)
    (hst : st.Session → old.Session) :
    ∀ (j : Nat) st', (procs.set i st)[j]? = some st' → st'.Session → j = 0 := by
  intro j st' hj hsession
  by_cases hji : i = j
  · rw [← hji, List.getElem?_set_self (List.getElem?_eq_some_iff.mp hi).1] at hj
    cases hj
    exact hji ▸ h i old hi (hst hsession)
  · rw [List.getElem?_set_ne hji] at hj
    exact h j st' hj hsession

/-- A process that is not in a `wait` changes, and no call. -/
theorem Inv.set {i : Nat} {st old : Status} (h : Inv capacity s) (hi : s.procs[i]? = some old)
    (hold : ∀ k child, old ≠ .waiting k child) (hwait : ∀ k child, st ≠ .waiting k child)
    (hfork : ∀ k exec, st ≠ .forked k exec) (hst : st.Session → old.Session)
    (hfits : ∀ exec left filled, st = .program exec left filled → filled + left ≤ capacity) :
    Inv capacity { s with procs := s.procs.set i st } where
  once := by
    intro k c hc
    refine Single.of_waiting (h.once k c hc) fun q child => waiting_set ?_
    simpa [hi] using hold
  alone := alone_set h.alone hi hst
  forked := by
    intro j k exec hj
    obtain ⟨q, hq⟩ := h.forked j k exec (getElem?_of_set (hfork k exec) hj)
    exact ⟨q, waiting_set (by simpa [hi] using hold) hq⟩
  waiting := fun q k child hq => h.waiting q k child (getElem?_of_set (hwait k child) hq)
  fits := by
    intro j exec left filled hj
    by_cases hst : st = .program exec left filled
    · exact hfits exec left filled hst
    · exact h.fits j exec left filled (getElem?_of_set hst hj)

theorem Inv.forks {i : Nat} {exec : Exec} (h : Inv capacity s)
    (hi : s.procs[i]? = some .session) :
    Inv capacity
      ⟨s.procs.set i (.waiting s.calls.length s.procs.length) ++ [.forked s.calls.length exec],
        s.calls ++ [⟨i, []⟩]⟩ := by
  have hlt : i < s.procs.length := (List.getElem?_eq_some_iff.mp hi).1
  have hnew : (s.calls ++ [⟨i, []⟩])[s.calls.length]? = some (⟨i, []⟩ : Call) := by simp
  refine ⟨fun k c hc => ?_, fun j st hj hst => ?_, fun j k exec' hj => ?_,
    fun q k child hq => ?_, fun j exec' left filled hj => ?_⟩
  · rcases getElem?_concat_cases hc with hc | ⟨rfl, rfl⟩
    · refine Single.of_waiting (h.once k c hc) fun q child hq => ?_
      exact getElem?_append_of_some (waiting_set (by simp [hi]) hq)
    · refine Or.inr ⟨rfl, s.procs.length, getElem?_append_of_some ?_⟩
      exact List.getElem?_set_self hlt
  · rcases getElem?_concat_cases hj with hj | ⟨-, rfl⟩
    · exact alone_set h.alone hi (fun _ => trivial) j st hj hst
    · exact hst.elim
  · rcases getElem?_concat_cases hj with hj | ⟨hlast, heq⟩
    · obtain ⟨q, hq⟩ := h.forked j k exec' (getElem?_of_set (by simp) hj)
      exact ⟨q, getElem?_append_of_some (waiting_set (by simp [hi]) hq)⟩
    · cases heq
      rw [List.length_set] at hlast
      rw [hlast]
      exact ⟨i, getElem?_append_of_some (List.getElem?_set_self hlt)⟩
  · rcases getElem?_concat_cases hq with hq | ⟨-, heq⟩
    · by_cases hqi : i = q
      · rw [← hqi, List.getElem?_set_self hlt] at hq
        cases hq
        exact hqi ▸ hnew
      · rw [List.getElem?_set_ne hqi] at hq
        exact getElem?_append_of_some (h.waiting q k child hq)
    · cases heq
  · rcases getElem?_concat_cases hj with hj | ⟨-, heq⟩
    · exact h.fits j exec' left filled (getElem?_of_set (by simp) hj)
    · cases heq

theorem Inv.forkFails (h : Inv capacity s) (i : Nat) :
    Inv capacity ⟨s.procs, s.calls ++ [⟨i, [(i, 1)]⟩]⟩ where
  once := by
    intro k c hc
    rcases getElem?_concat_cases hc with hc | ⟨-, rfl⟩
    · exact Single.of_waiting (h.once k c hc) fun q child hq => hq
    · exact Or.inl rfl
  alone := h.alone
  forked := h.forked
  waiting := fun q k child hq => getElem?_append_of_some (h.waiting q k child hq)
  fits := h.fits

theorem Inv.waits {i k child : Nat} (h : Inv capacity s)
    (hi : s.procs[i]? = some (.waiting k child)) (hended : s.procs[child]? = some .ended) :
    Inv capacity ⟨s.procs.set i .session, returns s.calls k i 1⟩ := by
  have hk := h.waiting i k child hi
  refine ⟨fun k' c hc => ?_, alone_set h.alone hi fun _ => trivial, fun j k' exec hj => ?_,
    fun q k' child' hq => ?_, fun j exec left filled hj => ?_⟩
  · by_cases hkk : k = k'
    · rw [← hkk] at hc ⊢
      rw [getElem?_returns_self hk] at hc
      cases hc
      exact Or.inl rfl
    · rw [getElem?_returns_ne hkk] at hc
      refine Single.of_waiting (h.once k' c hc) fun q child' hq => ?_
      have hiq : i ≠ q := by
        intro heq
        rw [← heq, hi] at hq
        cases hq
        exact hkk rfl
      rw [List.getElem?_set_ne hiq, hq]
  · have hj := getElem?_of_set (by simp) hj
    obtain ⟨q, hq⟩ := h.forked j k' exec hj
    have hiq : i ≠ q := by
      intro heq
      rw [← heq, hi] at hq
      cases hq
      rw [hended] at hj
      cases hj
    exact ⟨q, (List.getElem?_set_ne hiq).trans hq⟩
  · -- two processes in the `wait` of one call would be the same
    have hiq : i ≠ q := by
      intro heq
      rw [← heq, List.getElem?_set_self (List.getElem?_eq_some_iff.mp hi).1] at hq
      cases hq
    rw [List.getElem?_set_ne hiq] at hq
    have hq' := h.waiting q k' child' hq
    have hkk : k ≠ k' := by
      intro heq
      rw [← heq, hk] at hq'
      cases hq'
      exact hiq rfl
    exact (getElem?_returns_ne hkk).trans hq'
  · exact h.fits j exec left filled (getElem?_of_set (by simp) hj)

/-- A step of `Executed` keeps the invariant. -/
theorem Move.inv (hm : Move capacity s a s') (h : Inv capacity s) (hok : Executed capacity s a) :
    Inv capacity s' := by
  cases hm with
  | ended hi hold _ =>
      refine h.set hi ?_ (by simp) (by simp) (fun hst => hst.elim) (by simp)
      rcases hold with rfl | ⟨exec, filled, rfl⟩
      · simp
      · simp
  | other _ => exact h
  | overrun _ hno => exact absurd hok hno
  | forks hi _ => exact h.forks hi
  | @forkFails i _ _ => exact h.forkFails i
  | runs hj hiff =>
      refine h.set hj (by simp) (by simp) (by simp) (fun hst => hst.elim) ?_
      rintro exec left filled ⟨⟩
      rw [Nat.zero_add]
      exact hiff.mp hok
  | @writes j k left filled exec hj hleft _ _ =>
      refine h.set hj (by simp) (by simp) (by simp) (fun hst => hst.elim) ?_
      rintro exec' left' filled' ⟨⟩
      have hfits := h.fits j exec left filled hj
      omega
  | comesBack _ hno => exact absurd hok hno
  | waits hi hended _ => exact h.waits hi hended

theorem inv_of_reachable (h : Reachable (step capacity) (Executed capacity) start s) :
    Inv capacity s :=
  h.invariant inv_start fun hp hok hs => (move_of_step hs).inv hp hok

/-! ## Every call can return -/

/-- A child that has not come back. -/
def Status.Child : Status → Prop
  | forked _ _ | program _ _ _ | ended => True
  | session | waiting _ _ => False

/-- A call that waits has a child to wait for. -/
def HasChild (s : State) : Prop := ∀ i k child : Nat,
  s.procs[i]? = some (.waiting k child) → ∃ st, s.procs[child]? = some st ∧ st.Child

theorem child_set {procs : List Status} {i j : Nat} {st : Status}
    (h : ∃ st', procs[j]? = some st' ∧ st'.Child)
    (hst : ∀ old, procs[i]? = some old → old.Child → st.Child) :
    ∃ st', (procs.set i st)[j]? = some st' ∧ st'.Child := by
  obtain ⟨old, hj, hold⟩ := h
  by_cases hij : i = j
  · rw [← hij] at hj ⊢
    exact ⟨st, List.getElem?_set_self (List.getElem?_eq_some_iff.mp hj).1, hst old hj hold⟩
  · exact ⟨old, (List.getElem?_set_ne hij).trans hj, hold⟩

/-- A process that is not a child is not waited for. -/
theorem not_child_of_getElem? {procs : List Status} {i : Nat} {st st' : Status}
    (hi : procs[i]? = some st) (hst : ¬ st.Child) (old : Status) (h : procs[i]? = some old)
    (hold : old.Child) : st'.Child := by
  rw [hi] at h
  cases h
  exact absurd hold hst

theorem Move.hasChild (hm : Move capacity s a s') (h : HasChild s)
    (hok : Executed capacity s a) : HasChild s' := by
  intro q k child hq
  cases hm with
  | ended _ _ _ =>
      exact child_set (h q k child (getElem?_of_set (by simp) hq)) fun _ _ _ => trivial
  | other _ => exact h q k child hq
  | overrun _ hno => exact absurd hok hno
  | @forks i exec hi _ =>
      have hlt : i < s.procs.length := (List.getElem?_eq_some_iff.mp hi).1
      rcases getElem?_concat_cases hq with hq | ⟨-, heq⟩
      · by_cases hiq : i = q
        · rw [← hiq, List.getElem?_set_self hlt] at hq
          cases hq
          exact ⟨.forked s.calls.length exec, by simp, trivial⟩
        · rw [List.getElem?_set_ne hiq] at hq
          obtain ⟨st, hst, hchild⟩ := child_set (h q k child hq) (not_child_of_getElem? hi id)
          exact ⟨st, getElem?_append_of_some hst, hchild⟩
      · cases heq
  | forkFails _ _ => exact h q k child hq
  | runs _ _ => exact child_set (h q k child (getElem?_of_set (by simp) hq)) fun _ _ _ => trivial
  | writes _ _ _ _ =>
      exact child_set (h q k child (getElem?_of_set (by simp) hq)) fun _ _ _ => trivial
  | comesBack _ hno => exact absurd hok hno
  | waits hi _ _ =>
      exact child_set (h q k child (getElem?_of_set (by simp) hq)) (not_child_of_getElem? hi id)

theorem hasChild_of_reachable (h : Reachable (step capacity) (Executed capacity) start s) :
    HasChild s := by
  refine h.invariant ?_ fun hp hok hs => (move_of_step hs).hasChild hp hok
  simp [HasChild, start, List.getElem?_singleton]

section CanReturn

variable {s₀ : State} {i k child : Nat}

theorem canReturn_of_ended (h : Inv capacity s) (hr : Reachable (step capacity) Any s₀ s)
    (hi : s.procs[i]? = some (.waiting k child)) (hchild : s.procs[child]? = some .ended) :
    CanReturn capacity s₀ k i := by
  have hstep : step capacity s (.wait i)
      = some ⟨s.procs.set i .session, returns s.calls k i 1⟩ := by
    rw [step, hi]
    exact if_pos hchild
  exact ⟨_, hr.tail (a := .wait i) trivial hstep,
    getElem?_returns_self (h.waiting i k child hi)⟩

/-- A program that has written everything exits. -/
theorem canReturn_of_written {exec : Exec} {filled : Nat} (h : Inv capacity s)
    (hr : Reachable (step capacity) Any s₀ s) (hi : s.procs[i]? = some (.waiting k child))
    (hchild : s.procs[child]? = some (.program exec 0 filled)) : CanReturn capacity s₀ k i := by
  have hstep : step capacity s (.exit child)
      = some { s with procs := s.procs.set child .ended } := by
    rw [step, hchild]
    rfl
  refine canReturn_of_ended ((move_of_step hstep).inv h trivial)
    (hr.tail (a := .exit child) trivial hstep) (waiting_set (by simp [hchild]) hi) ?_
  exact List.getElem?_set_self (List.getElem?_eq_some_iff.mp hchild).1

/-- The pipe has room for what a program has still to write. -/
theorem canReturn_of_program {exec : Exec} {left filled : Nat} (h : Inv capacity s)
    (hr : Reachable (step capacity) Any s₀ s) (hi : s.procs[i]? = some (.waiting k child))
    (hchild : s.procs[child]? = some (.program exec left filled)) :
    CanReturn capacity s₀ k i := by
  cases left with
  | zero => exact canReturn_of_written h hr hi hchild
  | succ n =>
      have hstep : step capacity s (.write child (n + 1)) = some { s with
          procs := s.procs.set child (.program exec 0 (filled + (n + 1))) } := by
        rw [step, hchild]
        simp [h.fits child exec (n + 1) filled hchild]
      have hwritten : (s.procs.set child (.program exec 0 (filled + (n + 1))))[child]?
          = some (.program exec 0 (filled + (n + 1))) :=
        List.getElem?_set_self (List.getElem?_eq_some_iff.mp hchild).1
      exact canReturn_of_written ((move_of_step hstep).inv h trivial)
        (hr.tail (a := .write child (n + 1)) trivial hstep)
        (waiting_set (by simp [hchild]) hi) hwritten

/-- A call that waits can return. -/
theorem canReturn_of_waiting (h : Reachable (step capacity) (Executed capacity) start s)
    (hi : s.procs[i]? = some (.waiting k child)) : CanReturn capacity s k i := by
  have hinv := inv_of_reachable h
  obtain ⟨st, hst, hchild⟩ := hasChild_of_reachable h i k child hi
  cases st with
  | session | waiting _ _ => exact hchild.elim
  | forked k' exec =>
      have hstep : step capacity s (.execvp child (some 0))
          = some { s with procs := s.procs.set child (.program exec 0 0) } := by
        rw [step, hst]
      have hprogram : (s.procs.set child (.program exec 0 0))[child]?
          = some (.program exec 0 0) :=
        List.getElem?_set_self (List.getElem?_eq_some_iff.mp hst).1
      exact canReturn_of_program
        ((move_of_step hstep).inv hinv ⟨0, rfl, Nat.zero_le capacity⟩)
        (Reachable.refl.tail (a := .execvp child (some 0)) trivial hstep)
        (waiting_set (by simp [hst]) hi) hprogram
  | program exec left filled => exact canReturn_of_program hinv .refl hi hst
  | ended => exact canReturn_of_ended hinv .refl hi hst

/-- Every call has returned or can return. -/
theorem canReturn_of_reachable (h : Reachable (step capacity) (Executed capacity) start s)
    {c : Call} (hc : s.calls[k]? = some c) : CanReturn capacity s k c.caller := by
  rcases (inv_of_reachable h).once k c hc with hret | ⟨-, child, hw⟩
  · refine ⟨s, .refl, hc.trans (congrArg some ?_)⟩
    rw [← hret]
  · exact canReturn_of_waiting h hw

end CanReturn

/-! ## Programs that fill the pipe -/

/-- Process `i` is in the `wait` of call `k`, and its child `j` has more to write than the
pipe can take. -/
structure Stuck (capacity : Nat) (i j k : Nat) (s : State) : Prop where
  waits : s.procs[i]? = some (.waiting k j)
  only : ∀ q child : Nat, s.procs[q]? = some (.waiting k child) → q = i
  blocks : ∃ exec left filled, s.procs[j]? = some (.program exec left filled) ∧
    filled ≤ capacity ∧ capacity < filled + left
  forked : ∀ (q : Nat) exec, s.procs[q]? ≠ some (.forked k exec)
  call : s.calls[k]? = some ⟨i, []⟩

/-- Other processes change, and other calls. -/
theorem Stuck.set {i j k q : Nat} {st : Status} {calls : List Call}
    (h : Stuck capacity i j k s) (hi : q ≠ i) (hj : q ≠ j)
    (hwait : ∀ child, st ≠ .waiting k child) (hfork : ∀ exec, st ≠ .forked k exec)
    (hcall : calls[k]? = some ⟨i, []⟩) : Stuck capacity i j k ⟨s.procs.set q st, calls⟩ := by
  obtain ⟨exec, left, filled, hprog, hle, hlt⟩ := h.blocks
  refine ⟨(List.getElem?_set_ne hi).trans h.waits, fun q' child hq' => ?_,
    ⟨exec, left, filled, (List.getElem?_set_ne hj).trans hprog, hle, hlt⟩,
    fun q' exec hq' => ?_, hcall⟩
  · exact h.only q' child (getElem?_of_set (hwait child) hq')
  · exact h.forked q' exec (getElem?_of_set (hfork exec) hq')

theorem Stuck.append {i j k : Nat} {st : Status} (h : Stuck capacity i j k s)
    (hwait : ∀ child, st ≠ .waiting k child) (hfork : ∀ exec, st ≠ .forked k exec) :
    Stuck capacity i j k ⟨s.procs ++ [st], s.calls⟩ := by
  obtain ⟨exec, left, filled, hprog, hle, hlt⟩ := h.blocks
  refine ⟨getElem?_append_of_some h.waits, fun q child hq => ?_,
    ⟨exec, left, filled, getElem?_append_of_some hprog, hle, hlt⟩, fun q exec hq => ?_, h.call⟩
  · rcases getElem?_concat_cases hq with hq | ⟨-, heq⟩
    · exact h.only q child hq
    · exact absurd heq.symm (hwait child)
  · rcases getElem?_concat_cases hq with hq | ⟨-, heq⟩
    · exact h.forked q exec hq
    · exact absurd heq.symm (hfork exec)

/-- Nothing that a process does helps the two. -/
theorem Move.stuck {i j k : Nat} (hm : Move capacity s a s') (h : Stuck capacity i j k s) :
    Stuck capacity i j k s' := by
  obtain ⟨exec, left, filled, hprog, hle, hlt⟩ := h.blocks
  have hi := h.waits
  have hk : s.calls.length ≠ k := Nat.ne_of_gt (List.getElem?_eq_some_iff.mp h.call).1
  have hother : ∀ {q : Nat} {old : Status}, s.procs[q]? = some old → old ≠ .waiting k j →
      old ≠ .program exec left filled → q ≠ i ∧ q ≠ j := by
    intro q old hq h1 h2
    refine ⟨?_, ?_⟩
    · rintro rfl
      rw [hi] at hq
      exact h1 (Option.some.inj hq).symm
    · rintro rfl
      rw [hprog] at hq
      exact h2 (Option.some.inj hq).symm
  cases hm with
  | ended hq hold _ =>
      rcases hold with rfl | ⟨exec', filled', rfl⟩
      · obtain ⟨hqi, hqj⟩ := hother hq (by simp) (by simp)
        exact h.set hqi hqj (by simp) (by simp) h.call
      · obtain ⟨hqi, hqj⟩ := hother hq (by simp) (by simp; omega)
        exact h.set hqi hqj (by simp) (by simp) h.call
  | other _ => exact h
  | overrun hq _ =>
      obtain ⟨hqi, hqj⟩ := hother hq (by simp) (by simp)
      exact h.set hqi hqj (by simp) (by simp) (getElem?_append_of_some h.call)
  | forks hq _ =>
      obtain ⟨hqi, hqj⟩ := hother hq (by simp) (by simp)
      exact (h.set hqi hqj (by simp [hk]) (by simp)
        (getElem?_append_of_some h.call)).append (by simp) (by simp [hk])
  | forkFails _ _ => exact ⟨hi, h.only, h.blocks, h.forked, getElem?_append_of_some h.call⟩
  | runs hq _ =>
      obtain ⟨hqi, hqj⟩ := hother hq (by simp) (by simp)
      exact h.set hqi hqj (by simp) (by simp) h.call
  | @writes q n left' filled' exec' hq hn hroom _ =>
      by_cases hqj : q = j
      · subst hqj
        rw [hprog] at hq
        cases hq
        have hlen := (List.getElem?_eq_some_iff.mp hprog).1
        refine ⟨waiting_set (by simp [hprog]) hi, fun q child hq => ?_,
          ⟨exec, left - n, filled + n, List.getElem?_set_self hlen, hroom, by omega⟩,
          fun q exec hq => ?_, h.call⟩
        · exact h.only q child (getElem?_of_set (by simp) hq)
        · exact h.forked q exec (getElem?_of_set (by simp) hq)
      · have hqi : q ≠ i := by
          rintro rfl
          rw [hi] at hq
          cases hq
        exact h.set hqi hqj (by simp) (by simp) h.call
  | @comesBack q k' exec' hq _ =>
      obtain ⟨hqi, hqj⟩ := hother hq (by simp) (by simp)
      have hkk : k' ≠ k := by
        rintro rfl
        exact h.forked q exec' hq
      exact h.set hqi hqj (by simp) (by simp) ((getElem?_returns_ne hkk).trans h.call)
  | @waits q k' child hq hended _ =>
      have hqi : q ≠ i := by
        rintro rfl
        rw [hi] at hq
        cases hq
        rw [hprog] at hended
        cases hended
      have hqj : q ≠ j := by
        rintro rfl
        rw [hprog] at hq
        cases hq
      have hkk : k' ≠ k := by
        rintro rfl
        exact hqi (h.only q child hq)
      exact h.set hqi hqj (by simp) (by simp) ((getElem?_returns_ne hkk).trans h.call)

/-- A call whose child has more to write than the pipe can take never returns. -/
theorem Stuck.not_canReturn {i j k : Nat} (h : Stuck capacity i j k s) :
    ¬ CanReturn capacity s k i := by
  rintro ⟨s', hr, hret⟩
  have hstuck := hr.invariant h fun hp _ hs => (move_of_step hs).stuck hp
  rw [hstuck.call] at hret
  cases hret

/-- A program that writes more than the pipe can take. -/
theorem Inv.stuck {j k n : Nat} {exec : Exec} (h : Inv capacity s)
    (hj : s.procs[j]? = some (.forked k exec)) (hn : capacity < n) :
    ∃ i, Stuck capacity i j k { s with procs := s.procs.set j (.program exec n 0) } := by
  obtain ⟨i, hi⟩ := h.forked j k exec hj
  have hcall := h.waiting i k j hi
  have honly : ∀ q child : Nat, s.procs[q]? = some (.waiting k child) → q = i := by
    intro q child hq
    have hq' := h.waiting q k child hq
    rw [hcall] at hq'
    cases hq'
    rfl
  have hlen := (List.getElem?_eq_some_iff.mp hj).1
  refine ⟨i, waiting_set (by simp [hj]) hi, fun q child hq => ?_,
    ⟨exec, n, 0, List.getElem?_set_self hlen, Nat.zero_le _, by omega⟩, fun q exec' hq => ?_,
    hcall⟩
  · exact honly q child (getElem?_of_set (by simp) hq)
  · -- the child of the call is `j`
    have hold := getElem?_of_set (by simp) hq
    obtain ⟨i', hi'⟩ := h.forked q k exec' hold
    rw [honly i' q hi', hi] at hi'
    cases hi'
    rw [List.getElem?_set_self hlen] at hq
    cases hq

/-! ## The other runs -/

/-- A step outside `Executed` loses a call, lets it return in the child, or keeps it from
returning. -/
theorem Move.executed (hm : Move capacity s a s') (h : Inv capacity s) (hs : ReturnsOnce s')
    (hr : ∀ (k : Nat) c, s'.calls[k]? = some c → CanReturn capacity s' k c.caller) :
    Executed capacity s a := by
  cases hm with
  | ended _ _ hok | other hok | forks _ hok | forkFails _ hok | writes _ _ _ hok
  | waits _ _ hok => exact hok
  | @overrun i hi _ =>
      rcases hs s.calls.length ⟨i, []⟩ List.getElem?_concat_length with
        hret | ⟨-, child, hw⟩
      · cases hret
      · rw [List.getElem?_set_self (List.getElem?_eq_some_iff.mp hi).1] at hw
        cases hw
  | @runs j k n exec hj hiff =>
      refine hiff.mpr (Nat.not_lt.mp fun hn => ?_)
      obtain ⟨i, hstuck⟩ := h.stuck hj hn
      exact hstuck.not_canReturn (hr k _ hstuck.call)
  | @comesBack j k exec hj _ =>
      obtain ⟨i, hi⟩ := h.forked j k exec hj
      rcases hs k _ (getElem?_returns_self (h.waiting i k j hi)) with hret | ⟨hnil, -⟩
      · simp at hret
      · simp at hnil

/-- A session passes on a command, and the `fork` succeeds. -/
theorem step_command {i n : Nat} {rest : Bytes} (hi : s.procs[i]? = some .session)
    (h0 : 0 ∉ rest) (hlen : (ascii "@# " ++ rest).length < maxCommandLenght)
    (hn : (ascii "@# " ++ rest).length < n) (hcount : rest.tail.count 32 + 2 ≤ maxUserCount) :
    ∃ exec, step capacity s (.message i (Buf.ofBytes (ascii "@# " ++ rest) hn.le) true) = some
      ⟨s.procs.set i (.waiting s.calls.length s.procs.length) ++ [.forked s.calls.length exec],
        s.calls ++ [⟨i, []⟩]⟩ := by
  obtain ⟨hlt, hparse⟩ := Server.parser_doUsual h0 hlen hn
  have hok : ∃ exec, Server.doUsual (Buf.ofBytes rest hlt.le) = .ok exec := by
    rw [Server.doUsual_ok_iff hparse, Buf.cut_ofBytes, cut_eq_self h0]
    exact hcount
  obtain ⟨exec, hexec⟩ := hok
  refine ⟨exec, ?_⟩
  rw [step, hi]
  dsimp only
  rw [hparse]
  dsimp only
  rw [callDoUsual, hexec]
  rfl

/-- The command `ls` of a session that has just started. -/
theorem exists_step_ls (capacity : Nat) : ∃ a exec, step capacity start a
    = some ⟨[.waiting 0 1, .forked 0 exec], [⟨0, []⟩]⟩ := by
  have h0 : 0 ∉ ascii "ls" := by decide
  obtain ⟨exec, h⟩ := step_command (n := 16) (show start.procs[0]? = some .session from rfl) h0
    (by decide) (by decide) (by decide)
  exact ⟨_, exec, h⟩

end SessionProcesses

end ServerSsh

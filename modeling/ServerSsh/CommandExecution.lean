import ServerSsh.Headers
import ServerSsh.Posix.Datagrams
import ServerSsh.Posix.Pipes
import ServerSsh.Transition

/-!
# Running a command

`Do_usual` starts a program with its two outputs on a pipe, waits for it to exit,
reads the pipe once and sends what it has read.  The program writes its output in
pieces, and a write may go into the pipe in several parts.  It exits when
everything is written.

Nobody reads while the parent waits.  So an output that fits into the pipe is
written and read in every run (`ends_returned`), and a longer one fills the pipe
in every run and leaves the two processes waiting for each other
(`ends_deadlock`).  What has been read is sent as one datagram, which fails when it
is too long for one.  The length of the output decides (`completes_iff`).
-/

namespace ServerSsh

open Libc Posix Transition

/-- `MAX_OUTPUT_LENGHT`. -/
abbrev maxOutputLenght : Nat := 65536

namespace CommandExecution

/-! ## The two processes -/

/-- `STDOUT_FILENO` and `STDERR_FILENO`. -/
inductive Stream where
  | stdout
  | stderr
deriving DecidableEq, Repr

/-- What a descriptor of the child stands for. -/
inductive Target where
  | inherited
  | pipe
deriving DecidableEq, Repr

/-- `dup2(file_pipes[1], s)`. -/
def dup2 (fds : Stream → Target) (s : Stream) : Stream → Target :=
  fun t => if t = s then .pipe else fds t

/-- The outputs of the program at the `execvp`. -/
def programFds : Stream → Target := dup2 (dup2 (fun _ => .inherited) .stdout) .stderr

/-- One `write` of the program. -/
structure Piece where
  stream : Stream
  data : Bytes

/-- The child, with what the program has still to write. -/
inductive Child where
  | running (left : List Piece)
  | exited

/-- The parent, from its `wait` on. -/
inductive Parent where
  | waiting
  | waited
  | received (output : Buf maxOutputLenght) (readC : Nat)
  /-- `sendto` has sent `sent`, or nothing when it has failed. -/
  | returned (sent : Option Bytes)

structure State (capacity : Nat) where
  child : Child
  pipe : Pipe UInt8 capacity
  parent : Parent

inductive Action where
  /-- `k` more bytes of a `write` go into the pipe. -/
  | write (k : Nat)
  /-- The `write` returns. -/
  | written
  | exit
  | wait
  | read
  | sendto

variable {capacity : Nat}

/-- A program at its start, and the parent at its `wait`. -/
def start (program : List Piece) : State capacity := ⟨.running program, .empty, .waiting⟩

/-- Write to one of the outputs. -/
def put (s : Stream) (data : Bytes) (pipe : Pipe UInt8 capacity) : Option (Pipe UInt8 capacity) :=
  match programFds s with
  | .inherited => some pipe
  | .pipe => pipe.write data

/-- Somebody has the writing end: the child has it until it exits, and the parent
has closed it. -/
def Child.writes : Child → Bool
  | running _ => true
  | exited => false

/-- `sendto`, which fails with `EMSGSIZE` for what is longer than a datagram. -/
def sendto (data : Bytes) : Option Bytes := if data.length ≤ maxDatagram then some data else none

/-- A step of `Do_usual` in one of the two processes. -/
def step (s : State capacity) : Action → Option (State capacity)
  | .write k =>
      match s.child with
      | .running (p :: left) =>
          if 0 < k ∧ k ≤ p.data.length then
            (put p.stream (p.data.take k) s.pipe).map fun pipe =>
              { s with child := .running ({ p with data := p.data.drop k } :: left), pipe := pipe }
          else none
      | _ => none
  | .written =>
      match s.child with
      | .running (p :: left) =>
          if p.data = [] then some { s with child := .running left } else none
      | _ => none
  | .exit =>
      match s.child with
      | .running [] => some { s with child := .exited }
      | _ => none
  | .wait =>
      match s.parent, s.child with
      | .waiting, .exited => some { s with parent := .waited }
      | _, _ => none
  | .read =>
      match s.parent with
      | .waited =>
          (s.pipe.read s.child.writes maxOutputLenght).map fun (data, pipe) =>
            { s with pipe := pipe, parent := .received (Buf.ofBytes data.1 data.2) data.1.length }
      | _ => none
  | .sendto =>
      match s.parent with
      | .received output readC =>
          match output.load readC with
          | .ok data => some { s with parent := .returned (sendto data) }
          | .error _ => none
      | _ => none

/-! ## What is to hold -/

/-- The output of a program. -/
def output (program : List Piece) : Bytes := (program.map Piece.data).flatten

/-- The child is in a `write` and the pipe is full. -/
def State.ChildBlocked (s : State capacity) : Prop :=
  ∃ p left, s.child = .running (p :: left) ∧ p.data ≠ [] ∧ programFds p.stream = .pipe ∧
    s.pipe.Full

/-- The parent is in its `wait` and the child has not exited. -/
def State.ParentBlocked (s : State capacity) : Prop := s.parent = .waiting ∧ s.child ≠ .exited

def Deadlock (s : State capacity) : Prop := s.ChildBlocked ∧ s.ParentBlocked

/-- The parent has returned, and has sent `data` if anything. -/
def Returned (sent : Option Bytes) (s : State capacity) : Prop := s.parent = .returned sent

/-- The parent has sent `data`. -/
def Sent (data : Bytes) (s : State capacity) : Prop := Returned (some data) s

/-- No run comes to a deadlock, and from the exit of the child on every run ends
with the start of the output sent. -/
structure Completes (capacity : Nat) (program : List Piece) : Prop where
  free : ∀ s : State capacity, Reachable step Any (start program) s → ¬ Deadlock s
  sent : ∀ s : State capacity, Reachable step Any (start program) s → s.child = .exited →
    Ends step (Sent ((output program).take maxOutputLenght)) s

/-! ## One step -/

/-- Both outputs are the pipe. -/
@[simp] theorem programFds_eq (s : Stream) : programFds s = .pipe := by
  cases s <;> rfl

@[simp] theorem output_cons (p : Piece) (program : List Piece) :
    output (p :: program) = p.data ++ output program := rfl

/-- What the program has still to write. -/
def Child.left : Child → List Piece
  | running left => left
  | exited => []

/-- How many steps of the child there may still be. -/
def Child.size : Child → Nat
  | running left => left.length + (output left).length + 1
  | exited => 0

/-- How many steps of the parent there are still. -/
def Parent.size : Parent → Nat
  | waiting => 3
  | waited => 2
  | received _ _ => 1
  | returned _ => 0

def State.size (s : State capacity) : Nat := s.child.size + s.parent.size

/-- What a step does. -/
inductive Move (s : State capacity) : State capacity → Prop where
  | child {child : Child} {pipe : Pipe UInt8 capacity} :
      s.child ≠ .exited → child.size < s.child.size →
      pipe.content ++ output child.left = s.pipe.content ++ output s.child.left →
      Move s { s with child := child, pipe := pipe }
  | wait : s.parent = .waiting → s.child = .exited → Move s { s with parent := .waited }
  | read {pipe : Pipe UInt8 capacity} {data : Bytes} (h : data.length ≤ maxOutputLenght) :
      s.parent = .waited → data = s.pipe.content.take maxOutputLenght →
      Move s { s with pipe := pipe, parent := .received (Buf.ofBytes data h) data.length }
  | sendto {b : Buf maxOutputLenght} {n : Nat} {data : Bytes} :
      s.parent = .received b n → b.load n = .ok data →
      Move s { s with parent := .returned (CommandExecution.sendto data) }

variable {program : List Piece} {s s' : State capacity} {a : Action}

/-- A part of a `write` moves from the program into the pipe. -/
theorem move_of_write {k : Nat} (h : step s (.write k) = some s') : Move s s' := by
  rw [step] at h
  split at h
  next p left hchild =>
    split at h
    next hk =>
      obtain ⟨pipe, hput, rfl⟩ := Option.map_eq_some_iff.mp h
      have hcontent : pipe.content = s.pipe.content ++ p.data.take k := by
        rw [put, programFds_eq] at hput
        exact Pipe.content_of_write hput
      refine .child (by simp [hchild]) ?_ ?_
      · simp only [hchild, Child.size, output_cons, List.length_append, List.length_cons,
          List.length_drop]
        omega
      · simp only [hchild, Child.left, output_cons, hcontent, List.append_assoc]
        rw [← List.append_assoc (p.data.take k), List.take_append_drop]
    next => cases h
  next => cases h

theorem move_of_step (h : step s a = some s') : Move s s' := by
  cases a with
  | write k => exact move_of_write h
  | written =>
      rw [step] at h
      split at h
      next p left hchild =>
        split at h
        next hdata =>
          cases h
          refine .child (by simp [hchild]) ?_ ?_
          · simp [hchild, Child.size, hdata]
          · simp [hchild, Child.left, hdata]
        next => cases h
      next => cases h
  | exit =>
      rw [step] at h
      split at h
      next hchild =>
        cases h
        refine .child (by simp [hchild]) ?_ ?_
        · simp [hchild, Child.size]
        · simp [hchild, Child.left]
      next => cases h
  | wait =>
      rw [step] at h
      split at h
      next hparent hchild =>
        cases h
        exact .wait hparent hchild
      next => cases h
  | read =>
      rw [step] at h
      split at h
      next hparent =>
        obtain ⟨⟨⟨data, hdata⟩, pipe⟩, hread, rfl⟩ := Option.map_eq_some_iff.mp h
        exact .read hdata hparent (Pipe.data_of_read hread)
      next => cases h
  | sendto =>
      rw [step] at h
      split at h
      next b n hparent =>
        split at h
        next data hload =>
          cases h
          exact .sendto hparent hload
        next => cases h
      next => cases h

/-- Every step is one of the finitely many that the two processes have. -/
theorem Move.size_lt (h : Move s s') : s'.size < s.size := by
  cases h with
  | child _ hlt _ => exact Nat.add_lt_add_right hlt _
  | wait hparent _ => simp [State.size, Parent.size, hparent]
  | read _ hparent _ => simp [State.size, Parent.size, hparent]
  | sendto hparent _ => simp [State.size, Parent.size, hparent]

/-- A child that can do nothing is in a `write` on a full pipe. -/
theorem childBlocked (hchild : s.child ≠ .exited) (h : ∀ a, step s a = none) :
    s.ChildBlocked := by
  cases hc : s.child with
  | exited => exact absurd hc hchild
  | running left =>
      cases left with
      | nil =>
          have hexit := h .exit
          rw [step, hc] at hexit
          cases hexit
      | cons p left =>
          cases hp : p.data with
          | nil =>
              have hwritten := h .written
              rw [step, hc] at hwritten
              simp [hp] at hwritten
          | cons b rest =>
              refine ⟨p, left, hc, by simp [hp], programFds_eq _, ?_⟩
              by_contra hfull
              obtain ⟨pipe, hpipe⟩ := Pipe.exists_write hfull b
              have hwrite := h (.write 1)
              rw [step, hc] at hwrite
              simp [hp, put, hpipe] at hwrite

/-! ## The runs -/

/-- Where the output is. -/
def Inv (program : List Piece) (s : State capacity) : Prop :=
  match s.parent with
  | .waiting => s.pipe.content ++ output s.child.left = output program
  | .waited => s.child = .exited ∧ s.pipe.content = output program
  | .received b n =>
      s.child = .exited ∧ b.load n = .ok ((output program).take maxOutputLenght)
  | .returned sent =>
      s.child = .exited ∧ sent = sendto ((output program).take maxOutputLenght)

theorem inv_start : Inv program (start program : State capacity) := rfl

/-- The child moves only while the parent waits. -/
theorem Inv.waiting (hi : Inv program s) (h : s.child ≠ .exited) : s.parent = .waiting := by
  cases hparent : s.parent with
  | waiting => rfl
  | waited | received | returned =>
      rw [Inv, hparent] at hi
      exact absurd hi.1 h

theorem Move.inv (h : Move s s') (hi : Inv program s) : Inv program s' := by
  cases h with
  | child hrunning _ heq =>
      have hparent := hi.waiting hrunning
      rw [Inv, hparent] at hi
      rw [Inv, hparent]
      exact heq.trans hi
  | wait hparent hchild =>
      rw [Inv, hparent, hchild] at hi
      exact ⟨hchild, by simpa [Child.left, output] using hi⟩
  | read hdata hparent heq =>
      rw [Inv, hparent] at hi
      refine ⟨hi.1, ?_⟩
      rw [← hi.2, ← heq]
      exact Buf.load_ofBytes hdata
  | sendto hparent hload =>
      rw [Inv, hparent] at hi
      exact ⟨hi.1, congrArg CommandExecution.sendto (Except.ok.inj (hload.symm.trans hi.2))⟩

theorem inv_of_reachable (h : Reachable step Any (start program) s) : Inv program s :=
  h.invariant inv_start fun hi _ hs => (move_of_step hs).inv hi

/-- The child exits for good. -/
theorem Move.exited (h : Move s s') (hchild : s.child = .exited) : s'.child = .exited := by
  cases h with
  | child hrunning _ _ => exact absurd hchild hrunning
  | wait | read | sendto => exact hchild

/-- What is sent of an output. -/
theorem sendto_take_iff {output : Bytes} :
    sendto (output.take maxOutputLenght) = some (output.take maxOutputLenght) ↔
      output.length ≤ maxDatagram := by
  have hmax : maxDatagram < maxOutputLenght := by decide
  rw [sendto, List.length_take]
  split
  next h => exact iff_of_true rfl (by omega)
  next h => exact iff_of_false (by simp) (by omega)

/-- A parent that can do nothing after the exit of the child has returned. -/
theorem returned_of_stuck (hi : Inv program s) (hchild : s.child = .exited)
    (h : ∀ a, step s a = none) : Returned (sendto ((output program).take maxOutputLenght)) s := by
  cases hparent : s.parent with
  | waiting =>
      have hwait := h .wait
      rw [step, hparent, hchild] at hwait
      cases hwait
  | waited =>
      obtain ⟨r, hr⟩ := s.pipe.exists_read maxOutputLenght
      have hread := h .read
      rw [step, hparent, hchild] at hread
      simp only [Child.writes, hr] at hread
      cases hread
  | received b n =>
      rw [Inv, hparent] at hi
      have hsendto := h .sendto
      rw [step, hparent] at hsendto
      simp only [hi.2] at hsendto
      cases hsendto
  | returned data =>
      rw [Inv, hparent] at hi
      exact hparent.trans (congrArg _ hi.2)

/-- From the exit of the child on every run ends with the `sendto` of the start of the
output. -/
theorem ends_of_exited (h : Reachable step Any (start program) s) (hchild : s.child = .exited) :
    Ends step (Returned (sendto ((output program).take maxOutputLenght))) s := by
  refine Ends.of_measure (I := fun s => Inv program s ∧ s.child = .exited) State.size ?_ ?_
    ⟨inv_of_reachable h, hchild⟩
  · rintro s s' a ⟨hi, hchild⟩ hs
    have hmove := move_of_step hs
    exact ⟨⟨hmove.inv hi, hmove.exited hchild⟩, hmove.size_lt⟩
  · rintro s ⟨hi, hchild⟩ hstop
    exact returned_of_stuck hi hchild hstop

/-- At a deadlock the pipe is full and there is more to write. -/
theorem Deadlock.lt_length (h : Deadlock s) (hi : Inv program s) :
    capacity < (output program).length := by
  obtain ⟨⟨p, left, hchild, hdata, -, hfull⟩, hparent, -⟩ := h
  rw [Inv, hparent, hchild] at hi
  have hlen := congrArg List.length hi
  have hpos := List.length_pos_iff.mpr hdata
  rw [List.length_append, hfull, Child.left, output_cons, List.length_append] at hlen
  omega

/-- A longer output than the pipe can take is never written. -/
theorem Inv.running (hi : Inv program s) (hlen : capacity < (output program).length)
    (hparent : s.parent = .waiting) : s.child ≠ .exited := by
  intro hchild
  rw [Inv, hparent, hchild] at hi
  have heq := congrArg List.length hi
  have hfits := s.pipe.fits
  rw [List.length_append, Child.left, output, List.map_nil, List.flatten_nil,
    List.length_nil] at heq
  omega

/-- With a longer output than the pipe can take every run ends in a deadlock. -/
theorem ends_deadlock (h : capacity < (output program).length) :
    Ends step Deadlock (start program : State capacity) := by
  refine Ends.of_measure (I := fun s => Inv program s ∧ s.parent = .waiting) State.size ?_ ?_
    ⟨inv_start, rfl⟩
  · rintro s s' a ⟨hi, hparent⟩ hs
    have hmove := move_of_step hs
    refine ⟨⟨hmove.inv hi, ?_⟩, hmove.size_lt⟩
    cases hmove with
    | child => exact hparent
    | wait _ hchild => exact absurd hchild (hi.running h hparent)
    | read _ hwaited => rw [hparent] at hwaited; cases hwaited
    | sendto hreceived => rw [hparent] at hreceived; cases hreceived
  · rintro s ⟨hi, hparent⟩ hstop
    have hchild := hi.running h hparent
    exact ⟨childBlocked hchild hstop, hparent, hchild⟩

/-- With an output that fits into the pipe every run ends with the `sendto` of its
start. -/
theorem ends_returned (h : (output program).length ≤ capacity) :
    Ends step (Returned (sendto ((output program).take maxOutputLenght)))
      (start program : State capacity) := by
  refine Ends.of_measure (I := Inv program) State.size ?_ ?_ inv_start
  · intro s s' a hi hs
    have hmove := move_of_step hs
    exact ⟨hmove.inv hi, hmove.size_lt⟩
  · intro s hi hstop
    by_cases hchild : s.child = .exited
    · exact returned_of_stuck hi hchild hstop
    · have hdead : Deadlock s := ⟨childBlocked hchild hstop, hi.waiting hchild, hchild⟩
      exact absurd (hdead.lt_length hi) (Nat.not_lt.mpr h)

/-- A run that has sent the output has sent a datagram. -/
theorem length_of_ends_sent (h : (output program).length ≤ capacity)
    (hsent : ∀ s : State capacity, Reachable step Any (start program) s → s.child = .exited →
      Ends step (Sent ((output program).take maxOutputLenght)) s) :
    (output program).length ≤ maxDatagram := by
  obtain ⟨s, hr, hs⟩ := (ends_returned h).exists_reachable .refl
  have hi := inv_of_reachable hr
  rw [Inv, hs] at hi
  obtain ⟨s', hr', hs'⟩ := (hsent s hr hi.1).exists_reachable hr
  have hi' := inv_of_reachable hr'
  rw [Inv, hs'] at hi'
  exact sendto_take_iff.mp hi'.2.symm

/-- A command runs to its end, whatever it writes and however the two processes
take turns, exactly when the pipe and a datagram can take its whole output. -/
theorem completes_iff (capacity : Nat) (program : List Piece) :
    Completes capacity program ↔
      (output program).length ≤ capacity ∧ (output program).length ≤ maxDatagram := by
  constructor
  · intro h
    have hlen : (output program).length ≤ capacity := by
      by_contra hlen
      obtain ⟨s, hr, hdead⟩ := (ends_deadlock (Nat.not_le.mp hlen)).exists_reachable .refl
      exact h.free s hr hdead
    exact ⟨hlen, length_of_ends_sent hlen h.sent⟩
  · rintro ⟨hlen, hmax⟩
    refine ⟨?_, ?_⟩
    · intro s hr hdead
      exact absurd (hdead.lt_length (inv_of_reachable hr)) (Nat.not_lt.mpr hlen)
    · intro s hr hchild
      have hends := ends_of_exited hr hchild
      rw [sendto_take_iff.mpr hmax] at hends
      exact hends

/-- A pipe of 65536 bytes, and a program that writes one more. -/
theorem output_too_long :
    ¬ ∀ (capacity : Nat) (program : List Piece), Completes capacity program := by
  intro hclaim
  have hlen : ∀ n, n < (output [⟨.stdout, List.replicate (n + 1) 97⟩]).length := by
    intro n
    rw [output_cons, List.length_append, List.length_replicate]
    omega
  obtain ⟨s, hr, hdead⟩ := (ends_deadlock (hlen 65536)).exists_reachable .refl
  exact (hclaim 65536 _).free s hr hdead

end CommandExecution

end ServerSsh

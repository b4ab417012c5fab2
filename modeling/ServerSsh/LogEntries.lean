import Mathlib.Data.List.Nodup
import Mathlib.Logic.Function.Basic
import ServerSsh.Libc.Decimal
import ServerSsh.Libc.Strings
import ServerSsh.Records
import ServerSsh.Transition

/-!
# The log file

`print_log` writes a timestamp, formats the message in a static buffer and writes it
from there.  The first call of a process also opens the file and writes an entry of
its own.  All processes append to one file.  A signal handler calls `print_log` in
front of a call that has not returned, with the same buffer.

Each write is atomic, but an entry is two of them.  `untorn_iff` says that the file
is a list of whole entries in the runs in which no timestamp is written between
the two writes of another call, and in no other run.  No run stops inside a call
(`exists_step`).
-/

namespace ServerSsh

open Libc Records Transition

/-- `LOG_SIZE`. -/
abbrev logSize : Nat := 16384

/-! ## The timestamp -/

/-- The fields of `struct tm` that are written.  `year` counts from 1900. -/
structure Tm where
  mday : Nat
  mon : Nat
  year : Nat
  hour : Nat
  min : Nat
  sec : Nat

/-- `%02d`. -/
def twoDigits (n : Nat) : Bytes := List.replicate (2 - (decimal n).length) 48 ++ decimal n

/-- What `print_time` writes. -/
def Tm.text (t : Tm) : Bytes :=
  twoDigits t.mday ++ ascii "." ++ twoDigits (t.mon + 1) ++ ascii "." ++ decimal (t.year + 1900)
    ++ ascii " " ++ twoDigits t.hour ++ ascii ":" ++ twoDigits t.min ++ ascii ":"
    ++ twoDigits t.sec ++ ascii " "

namespace LogEntries

/-! ## The calls -/

/-- A call of one of the two functions.  The formatted message of `print_log` is
shorter than the buffer. -/
inductive Body where
  | printLog (text : Bytes) (short : text.length < logSize)
  | initLog

/-- The message of a call. -/
def Body.text : Body → Bytes
  | printLog text _ => text
  | initLog => ascii "Successful log init.\n"

inductive Stage where
  /-- In front of the test of `log_fd`, or of the `open`. -/
  | entered
  /-- In front of `print_time`. -/
  | ready
  /-- Behind `print_time`.  `vsnprintf` has stored so many bytes. -/
  | stamped (stored : Nat)
  | returned
deriving DecidableEq

variable {ι : Type}

structure Call (ι : Type) where
  process : ι
  body : Body
  stage : Stage

/-- The static data of a process: `buf_log`, and whether `log_fd` is open. -/
structure Proc where
  buf : Buf logSize
  opened : Bool

/-- The calls in the order in which they have begun, the memory of the processes, and
what has been appended to the file. -/
structure State (ι : Type) where
  calls : List (Call ι)
  procs : ι → Proc
  log : List (Write Nat Tm Bytes)

/-- The processes at the start. -/
def start (procs : ι → Proc) : State ι := ⟨[], procs, []⟩

inductive Action (ι : Type) where
  /-- A process calls `print_log`.  When a call of the process has not returned, this
  is a signal handler. -/
  | call (p : ι) (text : Bytes) (short : text.length < logSize)
  /-- Process `q` begins as a copy of `p`.  It does not go on with the calls of `p`. -/
  | fork (p q : ι)
  /-- The test of `log_fd`, or the `open`. -/
  | enter (k : Nat)
  | printTime (k : Nat) (time : Tm)
  /-- `vsnprintf` stores one byte. -/
  | store (k : Nat)
  | write (k : Nat)

/-- Every later call of the same process has returned. -/
def Innermost (calls : List (Call ι)) (k : Nat) (c : Call ι) : Prop :=
  ∀ c' ∈ calls.drop (k + 1), c'.process = c.process → c'.stage = .returned

instance [DecidableEq ι] (calls : List (Call ι)) (k : Nat) (c : Call ι) :
    Decidable (Innermost calls k c) :=
  inferInstanceAs (Decidable (∀ c' ∈ calls.drop (k + 1), _))

/-- Call `k`, when its process can go on with it. -/
def innermost [DecidableEq ι] (s : State ι) (k : Nat) : Option (Call ι) :=
  s.calls[k]?.filter (Innermost s.calls k ·)

/-- A call goes on. -/
def setStage (calls : List (Call ι)) (k : Nat) (stage : Stage) : List (Call ι) :=
  calls.modify k fun c => { c with stage := stage }

/-- The call that goes on. -/
theorem getElem?_setStage_self {calls : List (Call ι)} {k : Nat} {c : Call ι} {stage : Stage}
    (h : calls[k]? = some c) :
    (setStage calls k stage)[k]? = some { c with stage := stage } := by
  rw [setStage, List.getElem?_modify_eq, h]
  rfl

theorem getElem?_setStage_ne {calls : List (Call ι)} {k j : Nat} {stage : Stage} (hne : k ≠ j) :
    (setStage calls k stage)[j]? = calls[j]? := by
  rw [setStage, List.getElem?_modify_ne _ _ hne]

theorem getElem?_setStage_of_ne {calls : List (Call ι)} {k j : Nat} {c c' : Call ι} {stage : Stage}
    (hk : calls[k]? = some c) (hj : calls[j]? = some c') (hne : c'.stage ≠ c.stage) :
    (setStage calls k stage)[j]? = some c' := by
  rw [getElem?_setStage_ne, hj]
  rintro rfl
  rw [hk] at hj
  cases hj
  exact hne rfl

theorem setStage_cases {calls : List (Call ι)} {k j : Nat} {c₀ c : Call ι} {stage : Stage}
    (hk : calls[k]? = some c₀) (h : (setStage calls k stage)[j]? = some c) :
    j = k ∧ c = { c₀ with stage := stage } ∨ j ≠ k ∧ calls[j]? = some c := by
  by_cases hjk : k = j
  · rw [← hjk, getElem?_setStage_self hk] at h
    exact Or.inl ⟨hjk.symm, (Option.some.inj h).symm⟩
  · rw [getElem?_setStage_ne hjk] at h
    exact Or.inr ⟨Ne.symm hjk, h⟩

/-- One step of a process. -/
def step [DecidableEq ι] (s : State ι) : Action ι → Option (State ι)
  | .call p text short =>
      some { s with calls := s.calls ++ [⟨p, .printLog text short, .entered⟩] }
  | .fork p q =>
      if ∀ c ∈ s.calls, c.process ≠ q then
        some { s with procs := Function.update s.procs q (s.procs p) }
      else none
  | .enter k =>
      match innermost s k with
      | some ⟨p, .printLog _ _, .entered⟩ =>
          let calls := setStage s.calls k .ready
          if (s.procs p).opened then some { s with calls := calls }
          else some { s with calls := calls ++ [⟨p, .initLog, .entered⟩] }
      | some ⟨p, .initLog, .entered⟩ =>
          some { s with
            calls := setStage s.calls k .ready
            procs := Function.update s.procs p { s.procs p with opened := true } }
      | _ => none
  | .printTime k time =>
      match innermost s k with
      | some ⟨_, _, .ready⟩ =>
          some { s with
            calls := setStage s.calls k (.stamped 0)
            log := s.log ++ [.head k time] }
      | _ => none
  | .store k =>
      match innermost s k with
      | some ⟨p, .printLog text _, .stamped i⟩ =>
          match (text ++ [0])[i]? with
          | none => none
          | some byte =>
              match (s.procs p).buf.set i byte with
              | .error _ => none
              | .ok buf =>
                  some { s with
                    calls := setStage s.calls k (.stamped (i + 1))
                    procs := Function.update s.procs p { s.procs p with buf := buf } }
      | _ => none
  | .write k =>
      match innermost s k with
      | some ⟨p, .printLog text _, .stamped i⟩ =>
          if i = text.length + 1 then
            match (s.procs p).buf.load text.length with
            | .ok data =>
                some { s with
                  calls := setStage s.calls k .returned
                  log := s.log ++ [.body k data] }
            | .error _ => none
          else none
      | some ⟨_, .initLog, .stamped _⟩ =>
          some { s with
            calls := setStage s.calls k .returned
            log := s.log ++ [.body k (Body.initLog.text)] }
      | _ => none

/-! ## What is to hold -/

/-- The bytes of the file. -/
def file (log : List (Write Nat Tm Bytes)) : Bytes :=
  log.flatMap fun
    | .head _ time => time.text
    | .body _ data => data

/-- The file is the entries `es`, one for each call that has returned and with its
message, and the timestamp `b` of a call that has not. -/
structure Logged (s : State ι) (es : List (Entry Nat Tm Bytes)) (b : Option (Nat × Tm)) :
    Prop where
  whole : Whole es b s.log
  nodup : (es.map Entry.record).Nodup
  entry : ∀ e ∈ es, ∃ c, s.calls[e.record]? = some c ∧ c.stage = .returned ∧ c.body.text = e.body
  returned : ∀ (k : Nat) c, s.calls[k]? = some c → c.stage = .returned →
    k ∈ es.map Entry.record
  begun : ∀ k time, b = some (k, time) →
    ∃ c i, s.calls[k]? = some c ∧ c.stage = .stamped i

/-- No entry is torn. -/
def Untorn (s : State ι) : Prop := ∃ es b, Logged s es b

/-- No call is between its two writes. -/
def Quiet (s : State ι) : Prop := ∀ (k : Nat) c i, s.calls[k]? = some c → c.stage ≠ .stamped i

/-- The timestamp is not written while another call is between its two writes. -/
def Alone (s : State ι) : Action ι → Prop
  | .printTime _ _ => Quiet s
  | .call .. | .fork .. | .enter _ | .store _ | .write _ => True

/-- Without a call between its writes no entry has begun. -/
theorem Logged.eq_none {s : State ι} {es : List (Entry Nat Tm Bytes)} {b : Option (Nat × Tm)}
    (h : Logged s es b) (hquiet : Quiet s) : b = none := by
  cases b with
  | none => rfl
  | some p =>
      obtain ⟨c, i, hc, hst⟩ := h.begun p.1 p.2 rfl
      exact absurd hst (hquiet p.1 c i hc)

/-- When every call has returned, the file is whole entries, one for each call. -/
theorem Untorn.file_eq {s : State ι} (h : Untorn s) (hret : ∀ c ∈ s.calls, c.stage = .returned) :
    ∃ es : List (Entry Nat Tm Bytes),
      file s.log = es.flatMap (fun e => e.head.text ++ e.body) ∧
      (es.map Entry.record).Perm (List.range s.calls.length) ∧
      ∀ e ∈ es, ∃ c, s.calls[e.record]? = some c ∧ c.body.text = e.body := by
  obtain ⟨es, b, h⟩ := h
  have hquiet : Quiet s := by
    intro k c i hc hst
    rw [hret c (List.mem_of_getElem? hc)] at hst
    cases hst
  obtain rfl := h.eq_none hquiet
  refine ⟨es, ?_, ?_, fun e he => ?_⟩
  · rw [h.whole, Option.toList_none, List.map_nil, List.append_nil, file, List.flatMap_assoc]
    exact congrArg (es.flatMap ·) (funext fun e => by simp [Entry.writes])
  · rw [List.perm_ext_iff_of_nodup h.nodup List.nodup_range]
    intro k
    rw [List.mem_range]
    constructor
    · intro hk
      obtain ⟨e, he, rfl⟩ := List.mem_map.mp hk
      obtain ⟨c, hc, -⟩ := h.entry e he
      exact (List.getElem?_eq_some_iff.mp hc).1
    · intro hk
      exact h.returned k _ (List.getElem?_eq_getElem hk) (hret _ (List.getElem_mem hk))
  · obtain ⟨c, hc, -, htext⟩ := h.entry e he
    exact ⟨c, hc, htext⟩

/-! ## One step -/

/-- The call has written its timestamp. -/
def Stage.Begun : Stage → Prop
  | stamped _ | returned => True
  | entered | ready => False

/-- A step that writes nothing, and changes no call that has begun to write. -/
structure Frame (s s' : State ι) : Prop where
  log : s'.log = s.log
  calls : ∀ (k : Nat) c, c.stage.Begun → (s'.calls[k]? = some c ↔ s.calls[k]? = some c)
  buf : ∀ (k : Nat) c, s.calls[k]? = some c → (s'.procs c.process).buf = (s.procs c.process).buf

/-- What a step does. -/
inductive Move [DecidableEq ι] (s : State ι) (a : Action ι) : State ι → Prop where
  | frame {s' : State ι} : Frame s s' → Alone s a → Move s a s'
  | stamps {k : Nat} {c : Call ι} {time : Tm} :
      s.calls[k]? = some c → c.stage = .ready → a = .printTime k time →
      Move s a ⟨setStage s.calls k (.stamped 0), s.procs, s.log ++ [.head k time]⟩
  | stores {k i : Nat} {p : ι} {text : Bytes} {short : text.length < logSize} {byte : UInt8}
      {buf : Buf logSize} :
      s.calls[k]? = some ⟨p, .printLog text short, .stamped i⟩ →
      (text ++ [0])[i]? = some byte → (s.procs p).buf.set i byte = .ok buf → Alone s a →
      Move s a ⟨setStage s.calls k (.stamped (i + 1)),
        Function.update s.procs p { s.procs p with buf := buf }, s.log⟩
  | writes {k i : Nat} {p : ι} {text data : Bytes} {short : text.length < logSize} :
      s.calls[k]? = some ⟨p, .printLog text short, .stamped i⟩ → i = text.length + 1 →
      (s.procs p).buf.load text.length = .ok data → Alone s a →
      Move s a ⟨setStage s.calls k .returned, s.procs, s.log ++ [.body k data]⟩
  | writesInit {k i : Nat} {p : ι} :
      s.calls[k]? = some ⟨p, .initLog, .stamped i⟩ → Alone s a →
      Move s a ⟨setStage s.calls k .returned, s.procs, s.log ++ [.body k Body.initLog.text]⟩

/-- A call that has not begun to write comes or goes on. -/
theorem begun_append {calls : List (Call ι)} {c₀ c : Call ι} {k : Nat} (h₀ : c₀.stage = .entered)
    (hc : c.stage.Begun) : (calls ++ [c₀])[k]? = some c ↔ calls[k]? = some c := by
  constructor
  · intro h
    rcases getElem?_concat_cases h with h | ⟨-, rfl⟩
    · exact h
    · rw [h₀] at hc
      exact hc.elim
  · exact getElem?_append_of_some

theorem begun_ready {calls : List (Call ι)} {c₀ c : Call ι} {k j : Nat}
    (hj : calls[j]? = some c₀) (h₀ : c₀.stage = .entered) (hc : c.stage.Begun) :
    (setStage calls j .ready)[k]? = some c ↔ calls[k]? = some c := by
  by_cases hjk : j = k
  · rw [← hjk, getElem?_setStage_self hj, hj]
    constructor
    · intro h
      cases h
      exact hc.elim
    · intro h
      cases h
      rw [h₀] at hc
      exact hc.elim
  · rw [getElem?_setStage_ne hjk]

section Step

variable [DecidableEq ι] {s s' : State ι} {a : Action ι}

theorem getElem?_of_innermost {k : Nat} {c : Call ι} (h : innermost s k = some c) :
    s.calls[k]? = some c :=
  (Option.filter_eq_some_iff.mp h).1

theorem frame_of_fork {p q : ι} (h : step s (.fork p q) = some s') : Frame s s' := by
  rw [step] at h
  split at h
  next hq =>
    cases h
    refine ⟨rfl, fun _ _ _ => Iff.rfl, fun k c hc => ?_⟩
    exact congrArg Proc.buf (Function.update_of_ne (hq c (List.mem_of_getElem? hc)) _ _)
  next => cases h

/-- The test of `log_fd` and the `open` write nothing. -/
theorem frame_of_enter {k : Nat} (h : step s (.enter k) = some s') : Frame s s' := by
  rw [step] at h
  split at h
  next p text short hk =>
    have hk := getElem?_of_innermost hk
    dsimp only at h
    split at h
    · cases h
      exact ⟨rfl, fun _ _ hc => begun_ready hk rfl hc, fun _ _ _ => rfl⟩
    · cases h
      refine ⟨rfl, fun j c hc => ?_, fun _ _ _ => rfl⟩
      exact (begun_append rfl hc).trans (begun_ready hk rfl hc)
  next p hk =>
    cases h
    refine ⟨rfl, fun _ _ hc => begun_ready (getElem?_of_innermost hk) rfl hc, fun j c _ => ?_⟩
    dsimp only
    by_cases hp : c.process = p
    · rw [hp, Function.update_self]
    · rw [Function.update_of_ne hp]
  next => cases h

theorem move_of_step (h : step s a = some s') : Move s a s' := by
  cases a with
  | call p text short =>
      cases h
      exact .frame ⟨rfl, fun k c hc => begun_append rfl hc, fun _ _ _ => rfl⟩ trivial
  | fork p q => exact .frame (frame_of_fork h) trivial
  | enter k => exact .frame (frame_of_enter h) trivial
  | printTime k time =>
      rw [step] at h
      split at h
      next p body hk =>
        cases h
        exact .stamps (getElem?_of_innermost hk) rfl rfl
      next => cases h
  | store k =>
      rw [step] at h
      split at h
      next p text short i hk =>
        split at h
        next => cases h
        next byte hbyte =>
          split at h
          next => cases h
          next buf hbuf =>
            cases h
            exact .stores (getElem?_of_innermost hk) hbyte hbuf trivial
      next => cases h
  | write k =>
      rw [step] at h
      split at h
      next p text short i hk =>
        split at h
        next hi =>
          split at h
          next data hdata =>
            cases h
            exact .writes (getElem?_of_innermost hk) hi hdata trivial
          next => cases h
        next => cases h
      next p i hk =>
        cases h
        exact .writesInit (getElem?_of_innermost hk) trivial
      next => cases h

end Step

/-! ## Every call can go on -/

/-- `vsnprintf` stores the message and its terminator. -/
def Bounded (s : State ι) : Prop := ∀ (k : Nat) p text short i,
  s.calls[k]? = some ⟨p, .printLog text short, .stamped i⟩ → i ≤ text.length + 1

section Bounded

variable [DecidableEq ι] {s s' : State ι} {a : Action ι}

theorem Move.bounded (hm : Move s a s') (h : Bounded s) : Bounded s' := by
  intro j p text short i hj
  cases hm with
  | frame hf _ =>
      exact h j p text short i ((hf.calls j ⟨p, .printLog text short, .stamped i⟩ trivial).mp hj)
  | stamps hk _ _ =>
      rcases setStage_cases hk hj with ⟨-, heq⟩ | ⟨-, hj⟩
      · obtain rfl : i = 0 := by simpa using congrArg Call.stage heq
        exact Nat.zero_le _
      · exact h j p text short i hj
  | stores hk hbyte _ _ =>
      rcases setStage_cases hk hj with ⟨-, heq⟩ | ⟨-, hj⟩
      · cases heq
        obtain ⟨hlt, -⟩ := List.getElem?_eq_some_iff.mp hbyte
        rwa [List.length_append, List.length_singleton] at hlt
      · exact h j p text short i hj
  | writes hk _ _ _ | writesInit hk _ =>
      rcases setStage_cases hk hj with ⟨-, heq⟩ | ⟨-, hj⟩
      · cases congrArg Call.stage heq
      · exact h j p text short i hj

theorem bounded_of_reachable {procs : ι → Proc} (h : Reachable step Any (start procs) s) :
    Bounded s := by
  refine h.invariant ?_ fun hp _ hs => (move_of_step hs).bounded hp
  simp [Bounded, start]

/-- In every run a call that has not returned can go on when no handler has to return
first. -/
theorem exists_step {procs : ι → Proc} (h : Reachable step Any (start procs) s) {k : Nat}
    {c : Call ι} (hk : innermost s k = some c) (hret : c.stage ≠ .returned) :
    ∃ a s', step s a = some s' := by
  obtain ⟨p, body, stage⟩ := c
  cases stage with
  | entered =>
      cases body with
      | printLog text short =>
          by_cases hopened : (s.procs p).opened = true
          · exact ⟨.enter k, _, by rw [step, hk]; exact if_pos hopened⟩
          · exact ⟨.enter k, _, by rw [step, hk]; exact if_neg hopened⟩
      | initLog => exact ⟨.enter k, _, by rw [step, hk]⟩
  | ready => exact ⟨.printTime k ⟨1, 0, 0, 0, 0, 0⟩, _, by rw [step, hk]⟩
  | stamped i =>
      cases body with
      | printLog text short =>
          have hle := bounded_of_reachable h k p text short i (getElem?_of_innermost hk)
          rcases Nat.lt_or_eq_of_le hle with hlt | heq
          · have hbyte : i < (text ++ [0]).length := by
              rwa [List.length_append, List.length_singleton]
            have hi : i < logSize := Nat.lt_of_le_of_lt (Nat.le_of_lt_succ hlt) short
            obtain ⟨buf, hbuf⟩ := (s.procs p).buf.exists_set hi (text ++ [0])[i]
            refine ⟨.store k, ?_⟩
            rw [step, hk]
            dsimp only
            rw [List.getElem?_eq_getElem hbyte]
            dsimp only
            rw [hbuf]
            exact ⟨_, rfl⟩
          · refine ⟨.write k, ?_⟩
            rw [step, hk]
            dsimp only
            rw [if_pos heq, Buf.load, if_pos short.le]
            exact ⟨_, rfl⟩
      | initLog => exact ⟨.write k, _, by rw [step, hk]⟩
  | returned => exact absurd rfl hret

end Bounded

/-! ## Runs in which the timestamps are alone -/

/-- What holds while every timestamp is written alone. -/
structure Inv (s : State ι) : Prop where
  logged : ∃ es b, Logged s es b ∧
    ∀ (k : Nat) c i, s.calls[k]? = some c → c.stage = .stamped i → ∃ time, b = some (k, time)
  /-- `vsnprintf` has stored the first `i` bytes of the message and its terminator. -/
  stored : ∀ (k : Nat) p text short i,
    s.calls[k]? = some ⟨p, .printLog text short, .stamped i⟩ →
    (s.procs p).buf.bytes.take i = (text ++ [0]).take i

theorem inv_start (procs : ι → Proc) : Inv (start procs) where
  logged := by
    refine ⟨[], none, ⟨whole_nil, List.nodup_nil, ?_, ?_, ?_⟩, ?_⟩ <;> simp [start]
  stored := by simp [start]

section Kept

variable {s s' : State ι}

/-- At most one call is between its two writes. -/
theorem Inv.unique {k j i i' : Nat} {c c' : Call ι} (h : Inv s) (hk : s.calls[k]? = some c)
    (hc : c.stage = .stamped i) (hj : s.calls[j]? = some c') (hc' : c'.stage = .stamped i') :
    k = j := by
  obtain ⟨es, b, -, hb⟩ := h.logged
  obtain ⟨time, hbk⟩ := hb k c i hk hc
  obtain ⟨time', hbj⟩ := hb j c' i' hj hc'
  rw [hbk] at hbj
  cases hbj
  rfl

theorem Stage.begun_of_stamped {stage : Stage} {i : Nat} (h : stage = .stamped i) :
    stage.Begun := h ▸ trivial

theorem Stage.begun_of_returned {stage : Stage} (h : stage = .returned) : stage.Begun := h ▸ trivial

theorem Frame.logged {es : List (Entry Nat Tm Bytes)} {b : Option (Nat × Tm)} (hf : Frame s s')
    (h : Logged s es b) : Logged s' es b where
  whole := hf.log ▸ h.whole
  nodup := h.nodup
  entry := by
    intro e he
    obtain ⟨c, hc, hret, htext⟩ := h.entry e he
    exact ⟨c, (hf.calls _ c (Stage.begun_of_returned hret)).mpr hc, hret, htext⟩
  returned := fun k c hc hret =>
    h.returned k c ((hf.calls k c (Stage.begun_of_returned hret)).mp hc) hret
  begun := by
    intro k time hb
    obtain ⟨c, i, hc, hst⟩ := h.begun k time hb
    exact ⟨c, i, (hf.calls k c (Stage.begun_of_stamped hst)).mpr hc, hst⟩

theorem Inv.frame (h : Inv s) (hf : Frame s s') : Inv s' where
  logged := by
    obtain ⟨es, b, hlog, hb⟩ := h.logged
    refine ⟨es, b, hf.logged hlog, fun k c i hc hst => ?_⟩
    exact hb k c i ((hf.calls k c (Stage.begun_of_stamped hst)).mp hc) hst
  stored := by
    intro k p text short i hc
    have hold := (hf.calls k ⟨p, .printLog text short, .stamped i⟩ trivial).mp hc
    rw [hf.buf k _ hold]
    exact h.stored k p text short i hold

/-- A call that has not returned is not the call of an entry. -/
theorem Logged.entry_setStage {es : List (Entry Nat Tm Bytes)} {b : Option (Nat × Tm)} {k : Nat}
    {c : Call ι} (h : Logged s es b) (hk : s.calls[k]? = some c) (hne : c.stage ≠ .returned)
    (stage : Stage) : ∀ e ∈ es, ∃ c', (setStage s.calls k stage)[e.record]? = some c' ∧
      c'.stage = .returned ∧ c'.body.text = e.body := by
  intro e he
  obtain ⟨c', hc', hret, htext⟩ := h.entry e he
  have hstage : c'.stage ≠ c.stage := by
    rw [hret]
    exact hne.symm
  exact ⟨c', getElem?_setStage_of_ne hk hc' hstage, hret, htext⟩

theorem Logged.returned_setStage {es : List (Entry Nat Tm Bytes)} {b : Option (Nat × Tm)}
    {k : Nat} {c : Call ι} {stage : Stage} (h : Logged s es b) (hk : s.calls[k]? = some c)
    (hne : stage ≠ .returned) : ∀ (j : Nat) c', (setStage s.calls k stage)[j]? = some c' →
      c'.stage = .returned → j ∈ es.map Entry.record := by
  intro j c' hj hret
  rcases setStage_cases hk hj with ⟨rfl, rfl⟩ | ⟨-, hj⟩
  · exact absurd hret hne
  · exact h.returned j c' hj hret

/-- A timestamp is written while no call is between its two writes. -/
theorem Inv.stamps {k : Nat} {c : Call ι} (h : Inv s) (hk : s.calls[k]? = some c)
    (hready : c.stage = .ready) (hquiet : Quiet s) (time : Tm) :
    Inv ⟨setStage s.calls k (.stamped 0), s.procs, s.log ++ [.head k time]⟩ := by
  obtain ⟨es, b, hlog, -⟩ := h.logged
  obtain rfl := hlog.eq_none hquiet
  refine ⟨⟨es, some (k, time), ⟨hlog.whole.begins, hlog.nodup, ?_, ?_, ?_⟩, ?_⟩, ?_⟩
  · exact hlog.entry_setStage hk (by simp [hready]) _
  · exact hlog.returned_setStage hk (by simp)
  · intro j time' hb
    cases hb
    exact ⟨_, 0, getElem?_setStage_self hk, rfl⟩
  · intro j c' i hj hst
    rcases setStage_cases hk hj with ⟨rfl, rfl⟩ | ⟨-, hj⟩
    · exact ⟨time, rfl⟩
    · exact absurd hst (hquiet j c' i hj)
  · intro j p text short i hj
    rcases setStage_cases hk hj with ⟨rfl, heq⟩ | ⟨-, hj⟩
    · obtain rfl : i = 0 := by simpa using congrArg Call.stage heq
      rw [List.take_zero, List.take_zero]
    · exact absurd rfl (hquiet j _ i hj)

/-- The message is written by the call that has begun. -/
theorem Inv.writes {k i : Nat} {c : Call ι} (h : Inv s) (hk : s.calls[k]? = some c)
    (hst : c.stage = .stamped i) :
    Inv ⟨setStage s.calls k .returned, s.procs, s.log ++ [.body k c.body.text]⟩ := by
  obtain ⟨es, b, hlog, hb⟩ := h.logged
  obtain ⟨time, rfl⟩ := hb k c i hk hst
  have hnew : k ∉ es.map Entry.record := by
    intro hmem
    obtain ⟨e, he, rfl⟩ := List.mem_map.mp hmem
    obtain ⟨c', hc', hret, -⟩ := hlog.entry e he
    rw [hk] at hc'
    cases hc'
    rw [hst] at hret
    cases hret
  refine ⟨⟨es ++ [⟨k, time, c.body.text⟩], none, ⟨hlog.whole.ends, ?_, ?_, ?_, ?_⟩, ?_⟩, ?_⟩
  · rw [List.map_append, List.map_singleton, ← List.concat_eq_append]
    exact List.Nodup.concat hnew hlog.nodup
  · intro e he
    rcases List.mem_append.mp he with he | he
    · exact hlog.entry_setStage hk (by simp [hst]) _ e he
    · rw [List.mem_singleton.mp he]
      exact ⟨_, getElem?_setStage_self hk, rfl, rfl⟩
  · intro j c' hj hret
    rw [List.map_append]
    rcases setStage_cases hk hj with ⟨rfl, -⟩ | ⟨-, hj⟩
    · exact List.mem_append_right _ (List.mem_singleton_self _)
    · exact List.mem_append_left _ (hlog.returned j c' hj hret)
  · intro j time' hb'
    cases hb'
  · intro j c' i' hj hst'
    rcases setStage_cases hk hj with ⟨rfl, rfl⟩ | ⟨hne, hj⟩
    · cases hst'
    · exact absurd (h.unique hj hst' hk hst) hne
  · intro j p text short i' hj
    rcases setStage_cases hk hj with ⟨rfl, heq⟩ | ⟨hne, hj⟩
    · cases congrArg Call.stage heq
    · exact absurd (h.unique hj rfl hk hst) hne

/-- What the call writes is its message. -/
theorem Inv.load_eq {k : Nat} {p : ι} {text data : Bytes} {short : text.length < logSize}
    (h : Inv s) (hk : s.calls[k]? = some ⟨p, .printLog text short, .stamped (text.length + 1)⟩)
    (hdata : (s.procs p).buf.load text.length = .ok data) : data = text := by
  have hstored := h.stored k p text short _ hk
  rw [Buf.load] at hdata
  split at hdata
  next =>
    cases hdata
    have htake := congrArg (List.take text.length) hstored
    rw [List.take_take, List.take_take, Nat.min_eq_left (Nat.le_succ _), List.take_left'] at htake
    · exact htake
    · rfl
  next => cases hdata

end Kept

section Step

variable [DecidableEq ι] {s s' : State ι} {a : Action ι}

/-- `vsnprintf` stores the next byte. -/
theorem Inv.stores {k i : Nat} {p : ι} {text : Bytes} {short : text.length < logSize}
    {byte : UInt8} {buf : Buf logSize} (h : Inv s)
    (hk : s.calls[k]? = some ⟨p, .printLog text short, .stamped i⟩)
    (hbyte : (text ++ [0])[i]? = some byte) (hbuf : (s.procs p).buf.set i byte = .ok buf) :
    Inv ⟨setStage s.calls k (.stamped (i + 1)),
      Function.update s.procs p { s.procs p with buf := buf }, s.log⟩ := by
  obtain ⟨es, b, hlog, hb⟩ := h.logged
  refine ⟨⟨es, b, ⟨hlog.whole, hlog.nodup, ?_, ?_, ?_⟩, ?_⟩, ?_⟩
  · exact hlog.entry_setStage hk (by simp) _
  · exact hlog.returned_setStage hk (by simp)
  · intro j time hbj
    obtain ⟨c', i', hj, hst⟩ := hlog.begun j time hbj
    obtain rfl := h.unique hk rfl hj hst
    exact ⟨_, i + 1, getElem?_setStage_self hk, rfl⟩
  · intro j c' i' hj hst
    rcases setStage_cases hk hj with ⟨rfl, rfl⟩ | ⟨-, hj⟩
    · exact hb j _ i hk rfl
    · exact hb j c' i' hj hst
  · intro j p' text' short' i' hj
    rcases setStage_cases hk hj with ⟨rfl, heq⟩ | ⟨hne, hj⟩
    · cases heq
      dsimp only
      rw [Function.update_self, Buf.take_of_set hbuf, h.stored j p text short i hk,
        List.take_add_one, hbyte]
      rfl
    · exact absurd (h.unique hj rfl hk rfl) hne

theorem Move.inv (hm : Move s a s') (h : Inv s) (hok : Alone s a) : Inv s' := by
  cases hm with
  | frame hf _ => exact h.frame hf
  | stamps hk hready ha =>
      rw [ha] at hok
      exact h.stamps hk hready hok _
  | stores hk hbyte hbuf _ => exact h.stores hk hbyte hbuf
  | writes hk hi hdata _ =>
      subst hi
      rw [h.load_eq hk hdata]
      exact h.writes hk rfl
  | writesInit hk _ => exact h.writes hk rfl

theorem inv_of_reachable {procs : ι → Proc} (h : Reachable step Alone (start procs) s) : Inv s :=
  h.invariant (inv_start procs) fun hp hok hs => (move_of_step hs).inv hp hok

/-! ## The other runs -/

theorem Move.entire_of_entire (hm : Move s a s') (h : Entire s'.log) : Entire s.log := by
  cases hm with
  | frame hf _ => exact hf.log ▸ h
  | stamps _ _ _ | writes _ _ _ _ | writesInit _ _ => exact h.of_append
  | stores _ _ _ _ => exact h

/-- A timestamp behind another one tears an entry. -/
theorem Move.alone (hm : Move s a s') (h : Inv s) (hs : Entire s'.log) : Alone s a := by
  cases hm with
  | frame _ ha | stores _ _ _ ha | writes _ _ _ ha | writesInit _ ha => exact ha
  | stamps _ _ ha =>
      rw [ha]
      intro j c i hj hst
      obtain ⟨es, b, hlog, hb⟩ := h.logged
      obtain ⟨time, rfl⟩ := hb j c i hj hst
      obtain ⟨es', b', hs⟩ := hs
      cases hs.of_head.1.eq_none hlog.whole

/-- No entry is torn in exactly the runs in which every timestamp is written alone. -/
theorem untorn_iff {procs : ι → Proc} (h : Reachable step Any (start procs) s) :
    Untorn s ↔ Reachable step Alone (start procs) s := by
  have hentire : Entire s.log ↔ Reachable step Alone (start procs) s := by
    refine h.iff_of_exact (P := fun s => Entire s.log) (fun hr => ?_) ?_ ?_
    · obtain ⟨es, b, hlog, -⟩ := (inv_of_reachable hr).logged
      exact ⟨es, b, hlog.whole⟩
    · exact fun _ hs => (move_of_step hs).entire_of_entire
    · exact fun hr hs => (move_of_step hs).alone (inv_of_reachable hr)
  constructor
  · rintro ⟨es, b, hlog⟩
    exact hentire.mp ⟨es, b, hlog.whole⟩
  · intro hr
    obtain ⟨es, b, hlog, -⟩ := (inv_of_reachable hr).logged
    exact ⟨es, b, hlog⟩

end Step

/-- A call of a process that has not opened the file. -/
theorem untorn_iff_init : ∃ s : State Unit, s.log.length = 4 ∧
    (Untorn s ↔ Reachable step Alone (start fun _ => ⟨.zero _, false⟩) s) := by
  let time : Tm := ⟨1, 0, 120, 12, 30, 0⟩
  have h : Reachable step Any (start fun _ : Unit => ⟨.zero _, false⟩) _ := .refl
  have h := h.tail (a := .call () (ascii "hi") (by decide)) trivial rfl
  have h := h.tail (a := .enter 0) trivial rfl
  have h := h.tail (a := .enter 1) trivial rfl
  have h := h.tail (a := .printTime 1 time) trivial rfl
  have h := h.tail (a := .write 1) trivial rfl
  have h := h.tail (a := .printTime 0 time) trivial rfl
  have h := h.tail (a := .store 0) trivial rfl
  have h := h.tail (a := .store 0) trivial rfl
  have h := h.tail (a := .store 0) trivial rfl
  have h := h.tail (a := .write 0) trivial rfl
  exact ⟨_, rfl, untorn_iff h⟩

/-- Two processes write their timestamps one behind the other. -/
theorem entries_torn :
    ¬ ∀ (ι : Type) [DecidableEq ι] (procs : ι → Proc) (s : State ι),
      Reachable step Any (start procs) s → Untorn s := by
  intro hclaim
  let time : Tm := ⟨1, 0, 120, 12, 30, 0⟩
  have h : Reachable step Any (start fun _ : Bool => ⟨.zero _, true⟩) _ := .refl
  have h := h.tail (a := .call true (ascii "hi") (by decide)) trivial rfl
  have h := h.tail (a := .call false (ascii "hi") (by decide)) trivial rfl
  have h := h.tail (a := .enter 0) trivial rfl
  have h := h.tail (a := .enter 1) trivial rfl
  have h := h.tail (a := .printTime 0 time) trivial rfl
  have h := h.tail (a := .printTime 1 time) trivial rfl
  obtain ⟨es, b, hlog⟩ := hclaim Bool _ _ h
  have hwhole : Whole es b ([.head 0 time] ++ [.head 1 time]) := hlog.whole
  have hfirst : Whole es none ([] ++ [.head 0 time]) := hwhole.of_head.1
  cases hfirst.of_head.2

end LogEntries

end ServerSsh

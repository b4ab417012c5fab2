import Mathlib.Data.List.AList

/-!
# The ends of pipes

A process has an end of a pipe as long as one of its descriptors stands for it.
`fork` copies the descriptors, and `close` and `dup2` change them.  Who has the ends
decides what a call does: an empty pipe is at its end when nobody has its writing
end, and a write kills the writer when nobody has the reading end.

A `Process` has calls to make before it begins its work.  The descriptors that it
will have then, `Process.after`, do not change while it makes them.
-/

namespace Posix

/-- The ends of a pipe. -/
inductive End where
  | reading
  | writing
deriving DecidableEq, Repr

/-- The descriptors `φ` of a process that stand for ends of the pipes `π`. -/
abbrev Fds (φ π : Type) := AList fun _ : φ => π × End

namespace Fds

variable {φ π : Type} [DecidableEq φ] {t : Fds φ π} {p : π} {e : End}

/-- A descriptor stands for the end `e` of `p`. -/
def Has (t : Fds φ π) (p : π) (e : End) : Prop := ∃ fd, t.lookup fd = some (p, e)

theorem has_iff : t.Has p e ↔ (p, e) ∈ t.entries.map Sigma.snd := by
  rw [List.mem_map]
  constructor
  · rintro ⟨fd, h⟩
    exact ⟨⟨fd, p, e⟩, AList.mem_lookup_iff.mp h, rfl⟩
  · rintro ⟨⟨fd, x⟩, h, rfl⟩
    exact ⟨fd, AList.mem_lookup_iff.mpr h⟩

instance [DecidableEq π] : Decidable (t.Has p e) := decidable_of_iff' _ has_iff

/-- `dup2`.  A descriptor that is not of a pipe is copied too. -/
def dup2 (t : Fds φ π) (old new : φ) : Fds φ π :=
  match t.lookup old with
  | some x => t.insert new x
  | none => t.erase new

theorem Has.of_erase {fd : φ} (h : Has (t.erase fd) p e) : t.Has p e := by
  obtain ⟨fd', h⟩ := h
  by_cases heq : fd' = fd
  · rw [heq, AList.lookup_erase] at h
    cases h
  · exact ⟨fd', (AList.lookup_erase_ne heq).symm.trans h⟩

theorem Has.of_dup2 {old new : φ} (h : (t.dup2 old new).Has p e) : t.Has p e := by
  unfold dup2 at h
  split at h
  next x hx =>
    obtain ⟨fd, h⟩ := h
    by_cases heq : fd = new
    · rw [heq, AList.lookup_insert] at h
      exact ⟨old, hx.trans h⟩
    · exact ⟨fd, (AList.lookup_insert_ne heq).symm.trans h⟩
  next => exact h.of_erase

end Fds

/-- A call that changes the descriptors. -/
inductive Call (φ : Type) where
  | close (fd : φ)
  | dup2 (old new : φ)

variable {φ π : Type} [DecidableEq φ] {p : π} {e : End}

/-- What a call does. -/
def Call.run (t : Fds φ π) : Call φ → Fds φ π
  | close fd => t.erase fd
  | dup2 old new => t.dup2 old new

theorem Call.has_of_run {c : Call φ} {t : Fds φ π} (h : (c.run t).Has p e) : t.Has p e := by
  cases c with
  | close fd => exact h.of_erase
  | dup2 old new => exact h.of_dup2

/-- A process with calls that it makes before its work. -/
structure Process (φ π : Type) where
  fds : Fds φ π
  calls : List (Call φ)

namespace Process

variable {q q' : Process φ π}

/-- The next of the calls. -/
def next (q : Process φ π) : Option (Process φ π) :=
  match q.calls with
  | [] => none
  | c :: cs => some ⟨c.run q.fds, cs⟩

/-- The descriptors after the calls. -/
def after (q : Process φ π) : Fds φ π := q.calls.foldl Call.run q.fds

theorem after_next (h : q.next = some q') : q'.after = q.after := by
  obtain ⟨fds, calls⟩ := q
  cases calls with
  | nil => cases h
  | cons c cs =>
      cases h
      rfl

/-- The calls are made. -/
def Ready (q : Process φ π) : Prop := q.calls = []

instance : Decidable q.Ready := by
  obtain ⟨fds, calls⟩ := q
  cases calls with
  | nil => exact .isTrue rfl
  | cons c cs => exact .isFalse (List.cons_ne_nil c cs)

theorem after_of_ready (h : q.Ready) : q.after = q.fds := by
  rw [after, h]
  rfl

/-- A call of a process at its work. -/
def call (q : Process φ π) (c : Call φ) : Process φ π := ⟨c.run q.fds, q.calls⟩

end Process

/-! ## Who has an end -/

/-- One of the processes with the descriptors `ts` has the end `e` of `p`. -/
def Held (ts : List (Fds φ π)) (p : π) (e : End) : Prop := ∃ t ∈ ts, t.Has p e

instance [DecidableEq π] (ts : List (Fds φ π)) : Decidable (Held ts p e) :=
  inferInstanceAs (Decidable (∃ t ∈ ts, t.Has p e))

end Posix

import Mathlib.Data.List.Basic
import Mathlib.Logic.Function.Basic

/-!
# Standard signals

A process as the kernel's signal code sees it.  Standard signals are not queued:
there is one pending instance per number, and a signal that is sent while one of
its number is pending is discarded, with its value.  A pending signal that is
not blocked may be delivered.  When it has a handler, an activation of the
handler is pushed on the stack of activations; otherwise the process is
terminated.  Each activation blocks signals until it returns.

`σ` is the type of signal numbers, `V` of the values that are sent with them,
and `A` of the handler activations.
-/

namespace Posix

/-- The signal state of a process. -/
structure Proc (σ V A : Type) where
  /-- The pending instance of each signal. -/
  pending : σ → Option V
  /-- The signals with a handler. -/
  handled : σ → Bool
  /-- The running handler activations, the innermost first. -/
  frames : List A
  alive : Bool

namespace Proc

variable {σ V A : Type} [DecidableEq σ]

/-- A process as it starts. -/
def start : Proc σ V A := ⟨fun _ => none, fun _ => false, [], true⟩

/-- `sigaction` with a handler. -/
def install (p : Proc σ V A) (s : σ) : Proc σ V A :=
  { p with handled := Function.update p.handled s true }

/-- `kill` or `sigqueue`. -/
def send (p : Proc σ V A) (s : σ) (v : V) : Proc σ V A :=
  match p.alive, p.pending s with
  | true, none => { p with pending := Function.update p.pending s (some v) }
  | _, _ => p

/-- Some activation blocks the signal. -/
def Blocked (mask : A → σ → Bool) (p : Proc σ V A) (s : σ) : Prop := ∃ f ∈ p.frames, mask f s

instance (mask : A → σ → Bool) (p : Proc σ V A) (s : σ) : Decidable (p.Blocked mask s) :=
  inferInstanceAs (Decidable (∃ f ∈ p.frames, mask f s))

/-- The process without its pending instance of a signal. -/
def take (p : Proc σ V A) (s : σ) : Proc σ V A :=
  { p with pending := Function.update p.pending s none }

/-- The kernel delivers a pending signal. -/
def deliver (mask : A → σ → Bool) (enter : σ → V → A) (p : Proc σ V A) (s : σ) :
    Option (Proc σ V A) :=
  match p.pending s with
  | none => none
  | some v =>
      if p.alive ∧ ¬ p.Blocked mask s then
        if p.handled s then some { p.take s with frames := enter s v :: p.frames }
        else some { p.take s with frames := [], alive := false }
      else none

/-- The innermost activation goes on. -/
def setTop (p : Proc σ V A) (f : A) : Proc σ V A := { p with frames := f :: p.frames.tail }

/-- The innermost activation returns. -/
def ret (p : Proc σ V A) : Proc σ V A := { p with frames := p.frames.tail }

/-! ## What the operations leave alone -/

variable (p : Proc σ V A) (s t : σ) (v : V) (f : A)

@[simp] theorem install_pending : (p.install s).pending = p.pending := rfl

@[simp] theorem install_frames : (p.install s).frames = p.frames := rfl

@[simp] theorem install_alive : (p.install s).alive = p.alive := rfl

@[simp] theorem install_handled_self : (p.install s).handled s = true := by simp [install]

theorem install_handled_mono (h : p.handled t = true) : (p.install s).handled t = true := by
  by_cases hts : t = s
  · rw [hts, install_handled_self]
  · simp [install, hts, h]

@[simp] theorem send_frames : (p.send s v).frames = p.frames := by
  unfold send
  split <;> rfl

@[simp] theorem send_handled : (p.send s v).handled = p.handled := by
  unfold send
  split <;> rfl

@[simp] theorem send_alive : (p.send s v).alive = p.alive := by
  unfold send
  split <;> rfl

variable {p s t v f}

/-- A signal that is not pending becomes pending. -/
theorem send_pending_self (ha : p.alive = true) (h : p.pending s = none) :
    (p.send s v).pending s = some v := by
  simp [send, ha, h]

theorem send_pending_ne (h : t ≠ s) : (p.send s v).pending t = p.pending t := by
  unfold send
  split
  · exact Function.update_of_ne h _ _
  · rfl

@[simp] theorem take_pending_self : (p.take s).pending s = none := by simp [take]

theorem take_pending_ne (h : t ≠ s) : (p.take s).pending t = p.pending t :=
  Function.update_of_ne h _ _

/-- What a delivery does. -/
theorem deliver_cases {mask : A → σ → Bool} {enter : σ → V → A} {p' : Proc σ V A}
    (h : p.deliver mask enter s = some p') :
    ∃ v, p.pending s = some v ∧ p.alive = true ∧ ¬ p.Blocked mask s ∧
      ((p.handled s = true ∧ p' = { p.take s with frames := enter s v :: p.frames }) ∨
        (p.handled s = false ∧ p' = { p.take s with frames := [], alive := false })) := by
  unfold deliver at h
  cases hp : p.pending s with
  | none => rw [hp] at h; cases h
  | some v =>
      rw [hp] at h
      dsimp only at h
      split at h
      next hc =>
        refine ⟨v, rfl, hc.1, hc.2, ?_⟩
        split at h
        next hh => exact Or.inl ⟨hh, (Option.some.inj h).symm⟩
        next hh => exact Or.inr ⟨by simpa using hh, (Option.some.inj h).symm⟩
      next => cases h

/-- A delivery to a process that has a handler. -/
theorem deliver_handled {mask : A → σ → Bool} {enter : σ → V → A} {p' : Proc σ V A}
    (h : p.deliver mask enter s = some p') (hh : p.pending s ≠ none → p.handled s = true) :
    ∃ v, p.pending s = some v ∧ p.alive = true ∧ ¬ p.Blocked mask s ∧
      p' = { p.take s with frames := enter s v :: p.frames } := by
  obtain ⟨v, hv, halive, hnb, ⟨-, hp'⟩ | ⟨hn, -⟩⟩ := deliver_cases h
  · exact ⟨v, hv, halive, hnb, hp'⟩
  · rw [hh (by simp [hv])] at hn
    cases hn

end Proc

end Posix

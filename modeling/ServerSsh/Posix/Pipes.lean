import Mathlib.Data.List.Basic

/-!
# Pipes

A pipe holds what has been written and not yet read, up to its capacity.  A write
puts in what there is room for and blocks while there is no room.  A read takes
what there is, up to a count.  While somebody has the writing end a read of an
empty pipe blocks, and after that it is the end of the file.
-/

namespace Posix

/-- A pipe. -/
structure Pipe (β : Type) (capacity : Nat) where
  content : List β
  fits : content.length ≤ capacity

namespace Pipe

variable {β : Type} {capacity : Nat} {p p' : Pipe β capacity} {data : List β}

/-- A new pipe. -/
def empty : Pipe β capacity := ⟨[], Nat.zero_le _⟩

/-- A write blocks. -/
def Full (p : Pipe β capacity) : Prop := p.content.length = capacity

/-- Put `data` behind what is in the pipe, `none` when there is no room for it. -/
def write (p : Pipe β capacity) (data : List β) : Option (Pipe β capacity) :=
  if h : (p.content ++ data).length ≤ capacity then some ⟨p.content ++ data, h⟩ else none

/-- Take up to `n` from the front of the pipe, `none` when the read blocks. -/
def read (p : Pipe β capacity) (writers : Bool) (n : Nat) :
    Option ({data : List β // data.length ≤ n} × Pipe β capacity) :=
  if p.content.isEmpty && writers then none
  else some (⟨p.content.take n, List.length_take_le ..⟩,
    ⟨p.content.drop n, Nat.le_trans (List.drop_sublist n p.content).length_le p.fits⟩)

theorem content_of_write (h : p.write data = some p') : p'.content = p.content ++ data := by
  unfold write at h
  split at h
  · cases h
    rfl
  · cases h

/-- As long as the pipe is not full there is room for one more. -/
theorem exists_write (h : ¬ p.Full) (b : β) : ∃ p', p.write [b] = some p' := by
  have hlt : p.content.length < capacity := Nat.lt_of_le_of_ne p.fits h
  have hroom : (p.content ++ [b]).length ≤ capacity := by
    rw [List.length_append, List.length_singleton]
    exact hlt
  exact ⟨⟨p.content ++ [b], hroom⟩, dif_pos hroom⟩

theorem data_of_read {writers : Bool} {n : Nat} {d : {data : List β // data.length ≤ n}}
    (h : p.read writers n = some (d, p')) : d.1 = p.content.take n := by
  unfold read at h
  split at h
  · cases h
  · cases h
    rfl

/-- Without writers a read does not block. -/
theorem exists_read (p : Pipe β capacity) (n : Nat) : ∃ r, p.read false n = some r := by
  rw [read, Bool.and_false, if_neg Bool.false_ne_true]
  exact ⟨_, rfl⟩

end Pipe

end Posix

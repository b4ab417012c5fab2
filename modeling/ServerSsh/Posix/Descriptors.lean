import Mathlib.Data.Finset.Card
import Mathlib.Data.Finset.Range

/-!
# Descriptor tables

The open descriptors of a process, with its limit.  A call that opens one gets
the lowest number that is free and fails when every number below the limit is
taken.
-/

namespace Posix

/-- The open descriptors of a process that may have `limit` of them. -/
structure Table (limit : Nat) where
  fds : Finset Nat
  below : ∀ fd ∈ fds, fd < limit

namespace Table

variable {limit : Nat} {t t' : Table limit} {fd : Nat}

/-- The lowest free descriptor. -/
def lowest (t : Table limit) : Option Nat := (List.range limit).find? (· ∉ t.fds)

theorem lowest_eq_some (h : t.lowest = some fd) : fd < limit ∧ fd ∉ t.fds := by
  have hmem := List.mem_of_find?_eq_some h
  have hfree := List.find?_some h
  exact ⟨List.mem_range.mp hmem, by simpa using hfree⟩

/-- There is a free descriptor as long as the table is not full. -/
theorem lowest_eq_none_iff : t.lowest = none ↔ limit ≤ t.fds.card := by
  rw [lowest, List.find?_eq_none]
  constructor
  · intro h
    have hsub : Finset.range limit ⊆ t.fds := by
      intro fd hfd
      have := h fd (List.mem_range.mpr (Finset.mem_range.mp hfd))
      simpa using this
    simpa using Finset.card_le_card hsub
  · intro h fd hfd
    have hsub : t.fds ⊆ Finset.range limit := fun fd hfd => Finset.mem_range.mpr (t.below fd hfd)
    have heq := Finset.eq_of_subset_of_card_le hsub (by simpa using h)
    have : fd ∈ t.fds := heq ▸ Finset.mem_range.mpr (List.mem_range.mp hfd)
    simpa using this

/-- The table with one more descriptor. -/
def insert (t : Table limit) (fd : Nat) (h : fd < limit) : Table limit where
  fds := Insert.insert fd t.fds
  below := by
    intro fd' hfd'
    rcases Finset.mem_insert.mp hfd' with rfl | hmem
    · exact h
    · exact t.below fd' hmem

/-- Open a descriptor: its number and the new table, or `none` for -1. -/
def openFd (t : Table limit) : Option (Nat × Table limit) :=
  match h : t.lowest with
  | some fd => some (fd, t.insert fd (lowest_eq_some h).1)
  | none => none

theorem openFd_eq_some (h : t.openFd = some (fd, t')) :
    fd ∉ t.fds ∧ t'.fds = Insert.insert fd t.fds := by
  unfold openFd at h
  split at h
  next fd' hlow =>
    cases h
    exact ⟨(lowest_eq_some hlow).2, rfl⟩
  next => cases h

theorem openFd_eq_none_iff : t.openFd = none ↔ limit ≤ t.fds.card := by
  rw [← lowest_eq_none_iff]
  unfold openFd
  split
  next fd hlow => simp [hlow]
  next hlow => simp [hlow]

/-- An opened descriptor counts. -/
theorem card_openFd (h : t.openFd = some (fd, t')) : t'.fds.card = t.fds.card + 1 := by
  obtain ⟨hfree, hfds⟩ := openFd_eq_some h
  rw [hfds, Finset.card_insert_of_notMem hfree]

end Table

end Posix

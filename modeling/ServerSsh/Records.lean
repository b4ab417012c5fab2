import Mathlib.Data.List.Basic

/-!
# Records of two writes

A log is only appended to, and each of its records is written in two parts, a head
and a body.  `Whole es b log` says that the log is the records `es` one behind the
other, with the head `b` of a further one at its end.

A head is in its place only behind a whole record (`Whole.of_head`), and a body only
behind its own head (`Whole.of_body`).  Nothing that is appended later puts a log in
order again (`Entire.of_append`).
-/

namespace Records

variable {κ α β : Type}

/-- One write. -/
inductive Write (κ α β : Type) where
  | head (record : κ) (data : α)
  | body (record : κ) (data : β)
deriving DecidableEq

structure Entry (κ α β : Type) where
  record : κ
  head : α
  body : β

/-- The two writes of a record. -/
def Entry.writes (e : Entry κ α β) : List (Write κ α β) :=
  [.head e.record e.head, .body e.record e.body]

/-- The log is a list of records and the head of one that has begun. -/
def Whole (es : List (Entry κ α β)) (b : Option (κ × α)) (log : List (Write κ α β)) : Prop :=
  log = es.flatMap Entry.writes ++ b.toList.map fun p => .head p.1 p.2

variable {es : List (Entry κ α β)} {b : Option (κ × α)} {log : List (Write κ α β)} {k : κ}

theorem whole_nil : Whole ([] : List (Entry κ α β)) none [] := rfl

theorem Whole.begins {d : α} (h : Whole es none log) :
    Whole es (some (k, d)) (log ++ [.head k d]) := by
  rw [h]
  simp [Whole]

theorem Whole.ends {d : α} {d' : β} (h : Whole es (some (k, d)) log) :
    Whole (es ++ [⟨k, d, d'⟩]) none (log ++ [.body k d']) := by
  rw [h]
  simp [Whole, Entry.writes]

theorem length_writes (es : List (Entry κ α β)) :
    (es.flatMap Entry.writes).length = 2 * es.length := by
  induction es with
  | nil => rfl
  | cons e es ih =>
      rw [List.flatMap_cons, List.length_append, ih, List.length_cons]
      exact Nat.add_comm 2 _

/-- The number of writes tells whether a record has begun. -/
theorem Whole.length (h : Whole es b log) : log.length = 2 * es.length + b.toList.length := by
  rw [h, List.length_append, List.length_map, length_writes]

/-- Behind a whole record no other one has begun. -/
theorem Whole.eq_none {es' : List (Entry κ α β)} (h : Whole es none log) (h' : Whole es' b log) :
    b = none := by
  cases b with
  | none => rfl
  | some p =>
      have hodd := h'.length
      rw [h.length, Option.toList_none, Option.toList_some] at hodd
      simp only [List.length_nil, List.length_singleton] at hodd
      omega

theorem writes_concat (es : List (Entry κ α β)) (e : Entry κ α β) :
    (es ++ [e]).flatMap Entry.writes
      = es.flatMap Entry.writes ++ [.head e.record e.head] ++ [.body e.record e.body] := by
  simp [Entry.writes]

theorem Whole.of_head {d : α} (h : Whole es b (log ++ [.head k d])) :
    Whole es none log ∧ b = some (k, d) := by
  cases b with
  | none =>
      rw [Whole, Option.toList_none, List.map_nil, List.append_nil] at h
      rcases List.eq_nil_or_concat es with rfl | ⟨es', e, rfl⟩
      · simp at h
      · rw [List.concat_eq_append, writes_concat] at h
        cases (List.append_inj' h rfl).2
  | some p =>
      obtain ⟨hlog, hw⟩ := List.append_inj' h rfl
      cases hw
      exact ⟨by rw [hlog, Whole, Option.toList_none, List.map_nil, List.append_nil], rfl⟩

theorem Whole.of_body {d' : β} (h : Whole es b (log ++ [.body k d'])) :
    ∃ es' d, es = es' ++ [⟨k, d, d'⟩] ∧ Whole es' (some (k, d)) log := by
  cases b with
  | none =>
      rw [Whole, Option.toList_none, List.map_nil, List.append_nil] at h
      rcases List.eq_nil_or_concat es with rfl | ⟨es', e, rfl⟩
      · simp at h
      · rw [List.concat_eq_append, writes_concat] at h
        obtain ⟨hlog, hw⟩ := List.append_inj' h rfl
        cases hw
        exact ⟨es', e.head, List.concat_eq_append, hlog⟩
  | some p => cases (List.append_inj' h rfl).2

/-- The log is whole as far as it goes. -/
def Entire (log : List (Write κ α β)) : Prop := ∃ es b, Whole es b log

/-- Nothing that is appended later puts a log in order again. -/
theorem Entire.of_append {w : Write κ α β} (h : Entire (log ++ [w])) : Entire log := by
  obtain ⟨es, b, h⟩ := h
  cases w with
  | head k d => exact ⟨es, none, h.of_head.1⟩
  | body k d' =>
      obtain ⟨es', d, -, h'⟩ := h.of_body
      exact ⟨es', _, h'⟩

end Records

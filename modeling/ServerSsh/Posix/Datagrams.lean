import ServerSsh.Libc.Memory
import Mathlib.Data.List.Nodup

/-!
# Datagrams

A datagram is sent whole or, when it is too long, not at all.  Of the datagrams
that were sent some arrive, at most once each, in any order, and any of them may
have lost its end.  A `Delivery` says which.
-/

namespace Posix

open Libc

/-- The longest datagram: 65535 bytes less the headers of IP and UDP. -/
def maxDatagram : Nat := 65507

/-- What is sent of a sequence of `sendto` calls. -/
def sendable (data : List Bytes) : List Bytes := data.filter fun d => d.length ≤ maxDatagram

theorem mem_sendable {data : List Bytes} {d : Bytes} :
    d ∈ sendable data ↔ d ∈ data ∧ d.length ≤ maxDatagram := by
  rw [sendable, List.mem_filter, decide_eq_true_iff]

@[simp] theorem sendable_nil : sendable [] = [] := rfl

theorem sendable_cons (d : Bytes) (data : List Bytes) :
    sendable (d :: data)
      = if d.length ≤ maxDatagram then d :: sendable data else sendable data := by
  rw [sendable, List.filter_cons]
  simp [sendable]

/-- What the network does with a sequence of datagrams. -/
structure Delivery where
  /-- The datagrams that arrive in the order of their arrival, each with the
  number of bytes that are left of it. -/
  arrivals : List (Nat × Nat)
  once : (arrivals.map Prod.fst).Nodup

/-- The datagrams that arrive. -/
def Delivery.deliver (p : Delivery) (sent : List Bytes) : List Bytes :=
  p.arrivals.filterMap fun a => (sent[a.1]?).map (List.take a.2)

/-- What arrives is the start of something that was sent. -/
theorem Delivery.exists_prefix {p : Delivery} {sent : List Bytes} {d : Bytes}
    (h : d ∈ p.deliver sent) : ∃ s ∈ sent, d <+: s := by
  obtain ⟨⟨i, k⟩, -, ha⟩ := List.mem_filterMap.mp h
  obtain ⟨s, hs, rfl⟩ := Option.map_eq_some_iff.mp ha
  exact ⟨s, List.mem_of_getElem? hs, List.take_prefix k s⟩

/-- No arrival is longer than a datagram. -/
theorem Delivery.length_le {p : Delivery} {data : List Bytes} {d : Bytes}
    (h : d ∈ p.deliver (sendable data)) : d.length ≤ maxDatagram := by
  obtain ⟨s, hs, hd⟩ := p.exists_prefix h
  exact hd.length_le.trans (mem_sendable.mp hs).2

/-- `recvfrom` of a datagram into a zeroed array of `n` bytes.  What does not fit
is discarded. -/
def recvfrom (n : Nat) (d : Bytes) : Buf n := Buf.ofBytes (d.take n) (List.length_take_le n d)

theorem recvfrom_of_le {n : Nat} {d : Bytes} (h : d.length ≤ n) :
    recvfrom n d = Buf.ofBytes d h := by
  simp only [recvfrom, List.take_of_length_le h]

/-- The C string of a datagram that leaves room for a terminator. -/
theorem cut_recvfrom {n : Nat} {d : Bytes} (h : d.length < n) :
    0 ∈ (recvfrom n d).bytes ∧ cut (recvfrom n d).bytes = cut d := by
  rw [recvfrom_of_le h.le]
  exact ⟨(Buf.zero_mem_ofBytes h.le).mpr (Or.inr h), Buf.cut_ofBytes h.le⟩

/-- The start of a received text is what a smaller array would have received. -/
theorem take_recvfrom (n k : Nat) (d : Bytes) :
    (recvfrom n d).bytes.take k = (recvfrom (min n k) d).bytes := by
  rcases Nat.le_total n k with h | h
  · rw [Nat.min_eq_left h, List.take_of_length_le ((recvfrom n d).size.le.trans h)]
  · rw [Nat.min_eq_right h, recvfrom, Buf.take_ofBytes _ h, List.take_take, Nat.min_eq_left h]
    rfl

/-- A received text has the length of the array. -/
theorem recvfrom_eq_iff {n : Nat} {d c : Bytes} :
    (recvfrom n d).bytes = c ↔ n = c.length ∧ (recvfrom c.length d).bytes = c := by
  constructor
  · intro h
    have hn : n = c.length := by rw [← h, (recvfrom n d).size]
    exact ⟨hn, hn ▸ h⟩
  · rintro ⟨rfl, h⟩
    exact h

end Posix

import ServerSsh.Posix.Descriptors
import ServerSsh.Discovery

/-!
# The descriptors of the scanner

The loop of `Broadcast_scanning` opens a socket for every reply and closes none:
the `close` behind the loop is of the other socket and is never reached.  So each
iteration takes a descriptor until the process has as many as it may have.  From
then on `socket` returns -1, and `sendto` is called with that and fails.

`rounds_iff` says which iterations still answer.  What is answered is what the
loop in `Discovery` sends (`round_discovery`).
-/

namespace ServerSsh

open Libc Posix Transition

namespace ScannerDescriptors

/-- What the environment does in one iteration. -/
structure Input where
  /-- The sender of the datagram, `none` when `recvfrom` returns -1. -/
  source : Option SockaddrIn
  /-- `adm_addr.sin_port` at the call of `sprintf`. -/
  admPort : UInt16
deriving DecidableEq

/-- The scanner between two iterations. -/
structure Scanner (limit : Nat) where
  table : Table limit
  cliAddr : SockaddrIn

/-- What one iteration has done. -/
structure Round where
  before : Finset Nat
  after : Finset Nat
  received : Option SockaddrIn
  /-- The text and the address of a `sendto` on an open descriptor. -/
  sent : Option (Bytes × SockaddrIn)

variable {limit : Nat}

/-- One iteration of the loop. -/
def iterate (e : Endian) (s : Scanner limit) (i : Input) : Scanner limit × Round :=
  let cliAddr := i.source.getD s.cliAddr
  let bufAnswer := Discovery.answer (htons e i.admPort)
  match s.table.openFd with
  | some (_, table) =>
      (⟨table, cliAddr⟩, ⟨s.table.fds, table.fds, i.source, some (bufAnswer, cliAddr)⟩)
  | none => (⟨s.table, cliAddr⟩, ⟨s.table.fds, s.table.fds, i.source, none⟩)

/-- The iterations of a run. -/
def rounds (e : Endian) : Scanner limit → List Input → List Round
  | _, [] => []
  | s, i :: is => (iterate e s i).2 :: rounds e (iterate e s i).1 is

/-- The process holds the same descriptors as before. -/
def Round.Steady (r : Round) : Prop := r.after = r.before

/-- A datagram that was received is answered to its sender. -/
def Round.Answered (r : Round) : Prop :=
  ∀ src ∈ r.received, ∃ text, r.sent = some (text, src)

/-- The loop can go on for ever: no iteration changes the descriptors, and every
datagram is answered. -/
def GoesOn (e : Endian) (s : Scanner limit) (is : List Input) : Prop :=
  ∀ r ∈ rounds e s is, r.Steady ∧ r.Answered

/-! ## One iteration -/

variable {e : Endian} {s : Scanner limit} {i : Input}

/-- With a free descriptor the iteration answers and keeps the descriptor. -/
theorem iterate_of_lt (h : s.table.fds.card < limit) :
    (iterate e s i).1.table.fds.card = s.table.fds.card + 1 ∧
      ¬ (iterate e s i).2.Steady ∧ (iterate e s i).2.Answered := by
  cases hopen : s.table.openFd with
  | none => exact absurd (Table.openFd_eq_none_iff.mp hopen) (Nat.not_le.mpr h)
  | some r =>
      obtain ⟨fd, table⟩ := r
      obtain ⟨hfree, hfds⟩ := Table.openFd_eq_some hopen
      rw [iterate, hopen]
      refine ⟨Table.card_openFd hopen, ?_, ?_⟩
      · intro hsteady
        have heq : table.fds = s.table.fds := hsteady
        exact hfree (heq ▸ hfds ▸ Finset.mem_insert_self ..)
      · rintro src hsrc
        have hsource : i.source = some src := hsrc
        refine ⟨Discovery.answer (htons e i.admPort), ?_⟩
        simp only [hsource]
        rfl

/-- Without one it leaves the descriptors and answers nothing. -/
theorem iterate_of_le (h : limit ≤ s.table.fds.card) :
    (iterate e s i).1.table = s.table ∧ ((iterate e s i).2.Answered ↔ i.source = none) := by
  rw [iterate, Table.openFd_eq_none_iff.mpr h]
  refine ⟨rfl, ?_⟩
  constructor
  · intro hans
    cases hsource : i.source with
    | none => rfl
    | some src =>
        obtain ⟨text, hsent⟩ := hans src hsource
        cases hsent
  · intro hnone src hsrc
    have hsource : i.source = some src := hsrc
    rw [hnone] at hsource
    cases hsource

/-- The reply of an iteration is the one that the loop of the scanner sends. -/
theorem round_discovery {cfg : Processes.Config} {d : Discovery.State} {text : Bytes}
    {dest : SockaddrIn} (hsent : (iterate cfg.endian s i).2.sent = some (text, dest))
    (hpc : d.pc = .waiting) (hruns : Discovery.Runs d.processes.scanner)
    (hcli : d.cliAddr = s.cliAddr) (hport : d.processes.admAddr.sinPort = i.admPort) :
    ∃ d', Transition.run (Discovery.step cfg) Any d [.recvfrom i.source, .sprintf, .sendto]
        = some d' ∧ d'.replies = ⟨text, dest, d.bound⟩ :: d.replies := by
  have hreply : text = Discovery.answer (htons cfg.endian i.admPort) ∧
      dest = i.source.getD s.cliAddr := by
    rw [iterate] at hsent
    split at hsent
    next => cases hsent; exact ⟨rfl, rfl⟩
    next => cases hsent
  obtain ⟨rfl, rfl⟩ := hreply
  let d₁ := { d with pc := .received, cliAddr := i.source.getD d.cliAddr }
  let d₂ := { d₁ with pc := .formatted (Discovery.answer (htons cfg.endian i.admPort)) }
  have h₁ : Discovery.step cfg d (.recvfrom i.source) = some d₁ := if_pos ⟨hruns, hpc⟩
  have h₂ : Discovery.step cfg d₁ .sprintf = some d₂ := by
    rw [Discovery.step, if_pos ⟨hruns, rfl⟩, hport]
  let d₃ := { d₂ with
    pc := .waiting
    replies := ⟨Discovery.answer (htons cfg.endian i.admPort), d₂.cliAddr, d.bound⟩ :: d.replies }
  have h₃ : Discovery.step cfg d₂ .sendto = some d₃ := if_pos hruns
  rw [← hcli]
  refine ⟨d₃, ?_, rfl⟩
  simp only [Transition.run, Any, if_true, h₁, h₂, h₃, Option.bind_some]

/-! ## The iterations of a run -/

/-- The iterations answer while there is a free descriptor. -/
theorem answered_iff (is : List Input) : ∀ s : Scanner limit, s.table.fds.card ≤ limit →
    ((∀ r ∈ rounds e s is, r.Answered) ↔
      ∀ k i, is[k]? = some i → i.source ≠ none → s.table.fds.card + k < limit) := by
  induction is with
  | nil =>
      intro s _
      exact iff_of_true (List.forall_mem_nil _) (by intro k i hk; simp at hk)
  | cons i is ih =>
      intro s hle
      rw [rounds, List.forall_mem_cons]
      rcases Nat.lt_or_ge s.table.fds.card limit with hlt | hge
      · obtain ⟨hcard, -, hans⟩ := iterate_of_lt (e := e) (i := i) hlt
        rw [and_iff_right hans, ih _ (by omega), hcard]
        constructor
        · intro h k j hj hsource
          cases k with
          | zero => exact hlt
          | succ k =>
              have := h k j hj hsource
              omega
        · intro h k j hj hsource
          have := h (k + 1) j hj hsource
          omega
      · obtain ⟨htable, hans⟩ := iterate_of_le (e := e) (i := i) hge
        rw [hans, ih _ (htable ▸ hle), htable]
        constructor
        · rintro ⟨hnone, h⟩ k j hj hsource
          cases k with
          | zero =>
              cases hj
              exact absurd hnone hsource
          | succ k =>
              have := h k j hj hsource
              omega
        · intro h
          refine ⟨?_, ?_⟩
          · by_contra hsource
            have := h 0 i rfl hsource
            omega
          · intro k j hj hsource
            have := h (k + 1) j hj hsource
            omega

/-- With a limit above the number of open descriptors the loop goes on as it
should in the run without iterations only, and it answers the datagrams that it
receives in as many iterations as there are free descriptors. -/
theorem rounds_iff (e : Endian) {s : Scanner limit} (h : s.table.fds.card < limit)
    (is : List Input) :
    (GoesOn e s is ↔ is = []) ∧
      ((∀ r ∈ rounds e s is, r.Answered) ↔
        ∀ k i, is[k]? = some i → i.source ≠ none → s.table.fds.card + k < limit) := by
  refine ⟨?_, answered_iff is s h.le⟩
  constructor
  · intro hgoes
    cases is with
    | nil => rfl
    | cons i is =>
        obtain ⟨hsteady, -⟩ := hgoes _ (List.mem_cons_self ..)
        exact absurd hsteady (iterate_of_lt h).2.1
  · rintro rfl
    exact List.forall_mem_nil _

/-- The scanner in front of its loop: the three standard descriptors and
`sock_fd_rcv`. -/
def started : Scanner 1024 where
  table := ⟨{0, 1, 2, 3}, by decide⟩
  cliAddr := ⟨0, 0, 0⟩

/-- A broadcast from `10.0.0.7`. -/
def sampleInput : Input := ⟨some ⟨2, 0xe863, 0x0700000a⟩, 0xa15b⟩

theorem rounds_iff_started :
    (GoesOn .little started [sampleInput] ↔ [sampleInput] = []) ∧
      ((∀ r ∈ rounds .little started [sampleInput], r.Answered) ↔
        ∀ k i, [sampleInput][k]? = some i → i.source ≠ none →
          started.table.fds.card + k < 1024) :=
  rounds_iff .little (by decide) [sampleInput]

/-- The first reply leaves a descriptor open. -/
theorem descriptor_kept :
    ¬ ∀ (limit : Nat) (e : Endian) (s : Scanner limit) (is : List Input),
      s.table.fds.card < limit → GoesOn e s is := by
  intro hclaim
  have hlt : started.table.fds.card < 1024 := by decide
  obtain ⟨hsteady, -⟩ := hclaim 1024 .little started [sampleInput] hlt _ (List.mem_cons_self ..)
  exact (iterate_of_lt hlt).2.1 hsteady

end ScannerDescriptors

end ServerSsh

import ServerSsh.ShellOutput

/-!
# The end of the input

Each side of a session runs two endless loops over a `read` or a `recvfrom`.
None of them looks at what the call returned, so the loops go on after the end
of their input.  An iteration that read nothing passes the empty string on.  The
sending loops encrypt it, to one block of padding, and send the block.  The
receiving loops decrypt nothing to nothing, and write nothing.

`Loop.trace` are the iterations of a loop for the results of its reads.  The
receiver loop reads `message[-1]` for an empty message and prints it.  The byte
has no other use, so the trace goes on with the next read.

`Loop.relays_iff` says for which results a loop forwards one message for each
read with a positive count and nothing for the others.
-/

namespace ServerSsh

open Libc

/-- The loops after the handshake. -/
inductive Loop where
  /-- The client's standard input to the network. -/
  | clientInput
  /-- The network to the client's standard output. -/
  | clientOutput
  /-- The network to the shell. -/
  | shellInput
  /-- The shell to the network. -/
  | shellOutput
deriving DecidableEq, Repr

/-- What the loops take from their surroundings. -/
structure Surroundings where
  E : Evp.Cipher
  mode : Mode
  /-- The address of the receiver's `message`. -/
  message : Nat
  /-- `to_sh_chanel_fd[1]`. -/
  toShChanel : Int

/-- `STDOUT_FILENO`. -/
def stdoutFileno : Int := 1

/-- What a read stores. -/
def Arrival.chunk (a : Arrival) : Chunk := ⟨Arrival.data a, Arrival.data_length_le a⟩

/-- The rest of an iteration after `Get_message`, with the use that the loop
makes of the message. -/
def passOn (bfd : Connection) (fd : Int) (use : MessageBuf → Except Fault Bytes) :
    Except Fault Got → Connection × Except Fault Output
  | .error fault => (bfd, .error fault)
  | .ok got => (got.bfd, (use got.string).map (.write fd))

namespace Loop

/-- One iteration of a loop: the connection record after it, and the system call
that passes the message on. -/
def iterate (e : Surroundings) (bfd : Connection) (a : Arrival) :
    Loop → Connection × Except Fault Output
  | clientInput => (bfd, (Client.relayInput e.E e.mode bfd (Arrival.chunk a)).map Sent.call)
  | clientOutput =>
      passOn bfd stdoutFileno Client.display (Client.getMessage e.E e.mode bfd a)
  | shellInput =>
      passOn bfd e.toShChanel (forward e.message) (Server.getMessage e.E e.mode bfd a)
  | shellOutput => (bfd, (Server.relayOutput e.E e.mode bfd (Arrival.chunk a)).map Sent.call)

/-- The iterations of a loop for the results of its reads. -/
def trace (loop : Loop) (e : Surroundings) :
    Connection → List Arrival → List (Arrival × Except Fault Output)
  | _, [] => []
  | bfd, a :: reads =>
      (a, (loop.iterate e bfd a).2) :: loop.trace e (loop.iterate e bfd a).1 reads

end Loop

/-- A call that hands something over.  A `write` of no bytes does nothing, a
`sendto` of no bytes sends an empty datagram. -/
def Output.Sends : Output → Prop
  | .write _ data => data ≠ []
  | .sendto _ _ _ => True

/-- An iteration forwards a message. -/
def Forwards (r : Except Fault Output) : Prop := ∃ out, r = .ok out ∧ out.Sends

/-- A loop forwards a message for each read with a positive count, and for no
other. -/
def Loop.Relays (loop : Loop) (e : Surroundings) (bfd : Connection) (reads : List Arrival) :
    Prop :=
  ∀ i ∈ loop.trace e bfd reads, Forwards i.2 ↔ 0 < Arrival.ret i.1

/-- The data of a read has a terminator in the buffer. -/
def Arrival.Terminated (a : Arrival) : Prop :=
  0 ∈ Arrival.data a ∨ (Arrival.data a).length < maxCommandLenght

/-- A chunk that the sending loops forward: it has a terminator, its ciphertext
too, and over TCP the ciphertext does not start with it. -/
structure Sendable (e : Surroundings) (bfd : Connection) (a : Arrival) : Prop where
  terminated : Arrival.Terminated a
  fits : 0 ∈ ciphertext e.E bfd (cut (Arrival.data a)) ∨
    (ciphertext e.E bfd (cut (Arrival.data a))).length < maxCommandLenght
  starts : e.mode = .udp ∨ (ciphertext e.E bfd (cut (Arrival.data a))).head? ≠ some 0

/-- What the receiving loops forward: it has a terminator and a message. -/
structure Readable (e : Surroundings) (bfd : Connection) (a : Arrival) : Prop where
  terminated : Arrival.Terminated a
  text : received e.E bfd (Arrival.data a) ≠ []

/-- The results of reads that the loops are right about.  The sending loops are
never right about the end of the input, but for a cipher that encrypts the empty
string to something that starts with a zero. -/
def Loop.Right (e : Surroundings) (bfd : Connection) (a : Arrival) : Loop → Prop
  | clientInput | shellOutput =>
      if 0 < Arrival.ret a then Sendable e bfd a
      else e.mode = .tcp ∧ (ciphertext e.E bfd []).head? = some 0
  | clientOutput | shellInput => 0 < Arrival.ret a → Readable e bfd a

/-! ## The sending loops -/

@[simp] theorem Output.sends_of (mode : Mode) (connFd sockFd : Int) (peer : SockaddrIn)
    (d : Bytes) : (Output.of mode connFd sockFd peer d).Sends ↔ mode = .udp ∨ d ≠ [] := by
  cases mode <;> simp [Output.of, Output.Sends]

theorem ciphertext_ne_nil (E : Evp.Cipher) (bfd : Connection) (m : Bytes) :
    ciphertext E bfd m ≠ [] := by
  rw [← List.length_pos_iff, ciphertext, E.encipher_length]
  omega

theorem cut_ciphertext_ne_nil_iff (E : Evp.Cipher) (bfd : Connection) (m : Bytes) :
    cut (ciphertext E bfd m) ≠ [] ↔ (ciphertext E bfd m).head? ≠ some 0 := by
  rw [Ne, cut_eq_nil_iff, or_iff_right (ciphertext_ne_nil E bfd m)]

theorem forwards_send_iff (e : Surroundings) (peer : SockaddrIn) (bfd : Connection)
    (a : Arrival) :
    Forwards ((sendMessageTo peer e.E e.mode bfd (Arrival.chunk a).buffer).map Sent.call)
      ↔ Sendable e bfd a := by
  have hcut : cut (Arrival.chunk a).buffer.bytes = cut (Arrival.data a) := Buf.cut_ofBytes _
  have h0 : 0 ∈ (Arrival.chunk a).buffer.bytes ↔ Arrival.Terminated a := Buf.zero_mem_ofBytes _
  rw [sendMessageTo_eq, hcut]
  constructor
  · rintro ⟨out, hout, hsends⟩
    dsimp only at hout
    split at hout
    next h =>
      cases hout
      rw [Output.sends_of, cut_ciphertext_ne_nil_iff] at hsends
      exact ⟨h0.mp h.1, h.2, hsends⟩
    next => cases hout
  · intro h
    dsimp only
    rw [if_pos ⟨h0.mpr h.terminated, h.fits⟩]
    refine ⟨_, rfl, ?_⟩
    rw [Output.sends_of, cut_ciphertext_ne_nil_iff]
    exact h.starts

/-! ## The receiving loops -/

/-- A use of a received string that writes something exactly when the string is
not empty. -/
def WritesText (use : MessageBuf → Except Fault Bytes) : Prop :=
  ∀ string s, s.length < maxCommandLenght → string.cstring 0 = .ok s →
    ((∃ written, use string = .ok written ∧ written ≠ []) ↔ s ≠ [])

theorem display_writesText : WritesText Client.display := by
  intro string s _ hs
  rw [Client.display_eq hs]
  constructor
  · rintro ⟨written, hw, hne⟩
    exact Except.ok.inj hw ▸ hne
  · exact fun hne => ⟨s, rfl, hne⟩

theorem forward_writesText {message : Nat} (haddr : message % 16 = 0) :
    WritesText (forward message) := by
  intro string s hlt hs
  obtain ⟨h0, rfl⟩ := Buf.cstring_zero_eq_ok.mp hs
  constructor
  · rintro ⟨written, hw, -⟩ hnil
    rw [forward_nil message h0 hnil] at hw
    cases hw
  · intro hne
    exact ⟨_, forward_eq message h0 hne, take_kept_ne_nil haddr hlt hne⟩

theorem forwards_write_iff (fd : Int) (r : Except Fault Bytes) :
    Forwards (r.map (.write fd)) ↔ ∃ written, r = .ok written ∧ written ≠ [] := by
  cases r with
  | error fault => simp [Forwards, Except.map]
  | ok written => simp [Forwards, Except.map, Output.Sends]

/-- An iteration of a receiving loop of either program. -/
theorem forwards_get_iff (e : Surroundings) (dir : Direction) (bfd : Connection) (a : Arrival)
    {use : MessageBuf → Except Fault Bytes} (huse : WritesText use) (fd : Int) :
    Forwards (passOn bfd fd use (dir.get e.E e.mode bfd a)).2 ↔ Readable e bfd a := by
  by_cases h : Arrival.Terminated a
  · obtain ⟨got, hgot, hs⟩ := dir.get_string e.E e.mode bfd h
    rw [hgot, passOn, forwards_write_iff, huse _ _ (received_length_lt e.E bfd h) hs]
    exact ⟨fun ht => ⟨h, ht⟩, Readable.text⟩
  · rw [dir.get_unterminated e.E e.mode bfd h]
    refine iff_of_false ?_ fun hr => h hr.terminated
    rintro ⟨out, hout, -⟩
    cases hout

/-! ## The four loops -/

/-- What an iteration forwards. -/
def Loop.Forwardable (e : Surroundings) (bfd : Connection) (a : Arrival) : Loop → Prop
  | clientInput | shellOutput => Sendable e bfd a
  | clientOutput | shellInput => Readable e bfd a

theorem Loop.forwards_iterate_iff (loop : Loop) {e : Surroundings} (haddr : e.message % 16 = 0)
    (bfd : Connection) (a : Arrival) :
    Forwards (loop.iterate e bfd a).2 ↔ loop.Forwardable e bfd a := by
  cases loop with
  | clientInput => exact forwards_send_iff e bfd.admin bfd a
  | clientOutput => exact forwards_get_iff e .toClient bfd a display_writesText _
  | shellInput => exact forwards_get_iff e .toServer bfd a (forward_writesText haddr) _
  | shellOutput => exact forwards_send_iff e bfd.client bfd a

/-- A read that returns 0 or -1 stores nothing. -/
theorem Arrival.data_of_ret {a : Arrival} (h : ¬ 0 < Arrival.ret a) : Arrival.data a = [] := by
  cases a with
  | none => rfl
  | some p =>
      rw [ret, Int.natCast_pos, Nat.not_lt, Nat.le_zero] at h
      exact List.eq_nil_of_length_eq_zero h

/-- The empty string is sent as one block, always over UDP. -/
theorem sendable_empty_iff (e : Surroundings) (bfd : Connection) {a : Arrival}
    (ha : Arrival.data a = []) :
    Sendable e bfd a ↔ ¬ (e.mode = .tcp ∧ (ciphertext e.E bfd []).head? = some 0) := by
  have hcut : cut (Arrival.data a) = [] := by rw [ha]; rfl
  have hstarts : (e.mode = .udp ∨ (ciphertext e.E bfd []).head? ≠ some 0)
      ↔ ¬ (e.mode = .tcp ∧ (ciphertext e.E bfd []).head? = some 0) := by
    cases e.mode <;> simp
  rw [← hstarts]
  constructor
  · intro h
    have := h.starts
    rwa [hcut] at this
  · intro h
    refine ⟨Or.inr (by rw [ha]; decide), Or.inr ?_, by rwa [hcut]⟩
    rw [hcut, ciphertext_length_lt_iff]
    decide

/-- Nothing is read off nothing. -/
theorem not_readable_empty (e : Surroundings) (bfd : Connection) {a : Arrival}
    (ha : Arrival.data a = []) : ¬ Readable e bfd a := by
  intro h
  refine h.text ?_
  have hle := e.E.decipher_length_le (sessionCtx bfd) (cut (Arrival.data a))
  rw [ha] at hle
  rw [received, ha, List.eq_nil_of_length_eq_zero (Nat.le_zero.mp hle)]
  rfl

theorem Loop.right_iff (loop : Loop) (e : Surroundings) (bfd : Connection) (a : Arrival) :
    (loop.Forwardable e bfd a ↔ 0 < Arrival.ret a) ↔ loop.Right e bfd a := by
  by_cases h : 0 < Arrival.ret a
  · cases loop <;> simp only [Forwardable, Right, h, iff_true, if_true, true_imp_iff]
  · have ha := Arrival.data_of_ret h
    have hs := sendable_empty_iff e bfd ha
    have hr := not_readable_empty e bfd ha
    cases loop <;> simp only [Forwardable, Right, h, hs, hr, iff_false, not_not, if_false,
      false_imp_iff]

/-- No iteration changes the key material. -/
theorem Loop.iterate_keys (loop : Loop) (e : Surroundings) (bfd : Connection) (a : Arrival) :
    (loop.iterate e bfd a).1.key = bfd.key ∧ (loop.iterate e bfd a).1.iv = bfd.iv := by
  cases loop with
  | clientInput => exact ⟨rfl, rfl⟩
  | clientOutput =>
      rw [iterate, Client.getMessage_eq]
      cases decryptMessage e.E bfd a <;> exact ⟨rfl, rfl⟩
  | shellInput =>
      rw [iterate, Server.getMessage_eq]
      cases decryptMessage e.E bfd a <;> exact ⟨rfl, rfl⟩
  | shellOutput => exact ⟨rfl, rfl⟩

theorem Loop.right_congr (loop : Loop) (e : Surroundings) {bfd bfd' : Connection}
    (h : sessionCtx bfd = sessionCtx bfd') (a : Arrival) :
    loop.Right e bfd a ↔ loop.Right e bfd' a := by
  have hc : ∀ m, ciphertext e.E bfd m = ciphertext e.E bfd' m := fun m => by
    rw [ciphertext, h, ciphertext]
  have hr : ∀ d, received e.E bfd d = received e.E bfd' d := fun d => by
    rw [received, h, received]
  have hsend : Sendable e bfd a ↔ Sendable e bfd' a := by
    constructor
    · rintro ⟨h1, h2, h3⟩
      exact ⟨h1, hc _ ▸ h2, hc _ ▸ h3⟩
    · rintro ⟨h1, h2, h3⟩
      exact ⟨h1, hc _ ▸ h2, hc _ ▸ h3⟩
  have hread : Readable e bfd a ↔ Readable e bfd' a := by
    constructor
    · rintro ⟨h1, h2⟩
      exact ⟨h1, hr _ ▸ h2⟩
    · rintro ⟨h1, h2⟩
      exact ⟨h1, hr _ ▸ h2⟩
  cases loop <;> simp only [Right, hsend, hread, hc]

/-- A loop forwards one message for each read with a positive count, and nothing
for the others, exactly when it is right about each of its reads. -/
theorem Loop.relays_iff (loop : Loop) {e : Surroundings} (haddr : e.message % 16 = 0)
    (bfd : Connection) (reads : List Arrival) :
    loop.Relays e bfd reads ↔ ∀ a ∈ reads, loop.Right e bfd a := by
  induction reads generalizing bfd with
  | nil => simp [Relays, trace]
  | cons a reads ih =>
      have hkeys := loop.iterate_keys e bfd a
      have hctx := sessionCtx_congr hkeys.1 hkeys.2
      have hrest : loop.Relays e (loop.iterate e bfd a).1 reads
          ↔ ∀ a ∈ reads, loop.Right e bfd a :=
        (ih _).trans (forall₂_congr fun b _ => loop.right_congr e hctx b)
      rw [List.forall_mem_cons, ← hrest, ← loop.right_iff, ← loop.forwards_iterate_iff haddr]
      exact List.forall_mem_cons

/-- A line that is read over UDP, and nothing after it. -/
theorem Loop.relays_iff_line :
    clientInput.Relays ⟨sampleCipher, .udp, 0x555555559010, 4⟩ sampleSession
      [some ⟨ascii "id\n", sampleBfd.client, by decide⟩] := by
  refine (relays_iff _ (by decide) _ _).mpr (List.forall_mem_singleton.mpr ?_)
  have hret : 0 < Arrival.ret (some ⟨ascii "id\n", sampleBfd.client, by decide⟩) := by decide
  rw [Right, if_pos hret]
  refine ⟨Or.inr (by decide), Or.inr ?_, Or.inl rfl⟩
  rw [ciphertext_length_lt_iff]
  decide

/-- A client whose standard input has ended. -/
theorem Loop.end_of_input_relayed :
    ¬ ∀ (loop : Loop) (e : Surroundings) (bfd : Connection) (reads : List Arrival),
      e.message % 16 = 0 → loop.Relays e bfd reads := by
  intro hclaim
  have h := hclaim .clientInput ⟨sampleCipher, .udp, 0x555555559010, 4⟩ sampleSession
    [some ⟨[], sampleBfd.client, by decide⟩] (by decide)
  have hret : ¬ 0 < Arrival.ret (some ⟨[], sampleBfd.client, by decide⟩) := by decide
  rw [relays_iff _ (by decide), List.forall_mem_singleton, Right, if_neg hret] at h
  exact absurd h.1 (by decide)

end ServerSsh

import ServerSsh.Posix.Datagrams
import ServerSsh.RoundTrip

/-!
# The relay loops

The client's loop over its standard input and the administrator's loop over the
output of the shell have the same body: zero a message buffer, read up to
`MAX_COMMAND_LENGHT` bytes into it, and pass it to `Send_message`.

`relayLoop_inside_iff` says for which chunks every access stays inside its buffer.
There are two ways out.  A read that fills the buffer leaves no terminator for
the `strlen` on it.  A string of 65520 bytes or more is padded to 65536 bytes of
ciphertext, which fill the second buffer, and the `strlen` on that one only
stops inside it when the ciphertext has a zero byte.

The texts that a session carries without loss are the `Clean` ones.
-/

namespace ServerSsh

open Libc

/-- What `read` may store into a message buffer. -/
structure Chunk where
  data : Bytes
  fits : data.length ≤ maxCommandLenght

/-- The zeroed buffer after the read. -/
def Chunk.buffer (c : Chunk) : MessageBuf := Buf.ofBytes c.data c.fits

namespace Client

/-- The body of the loop over the standard input. -/
def relayInput (E : Evp.Cipher) (mode : Mode) (conData : Connection) (c : Chunk) :
    Except Fault Sent := sendMessage E mode conData c.buffer

end Client

namespace Server

/-- The body of the loop over the output of the shell. -/
def relayOutput (E : Evp.Cipher) (mode : Mode) (bfd : Connection) (c : Chunk) :
    Except Fault Sent := sendMessage E mode bfd c.buffer

end Server

/-- The relay loop of the sending program. -/
def Direction.relay : Direction → Evp.Cipher → Mode → Connection → Chunk → Except Fault Sent
  | toServer => Client.relayInput
  | toClient => Server.relayOutput

/-- A message is padded to less than a message buffer exactly when it is shorter
than 65520 bytes. -/
theorem ciphertext_length_lt_iff (E : Evp.Cipher) (bfd : Connection) (m : Bytes) :
    (ciphertext E bfd m).length < maxCommandLenght ↔ m.length < 65520 := by
  rw [ciphertext, E.encipher_length]
  change _ < 65536 ↔ _
  omega

theorem Direction.relay_eq (dir : Direction) (E : Evp.Cipher) (mode : Mode) (bfd : Connection)
    (c : Chunk) : ∃ peer, dir.relay E mode bfd c = sendMessageTo peer E mode bfd c.buffer := by
  cases dir with
  | toServer => exact ⟨_, rfl⟩
  | toClient => exact ⟨_, rfl⟩

/-- For an empty read the loop sends the encrypted empty string. -/
theorem Server.relayOutput_nil (E : Evp.Cipher) (mode : Mode) (bfd : Connection) {c : Chunk}
    (hc : c.data = []) :
    relayOutput E mode bfd c = .ok ⟨sessionCtx bfd,
      Output.of mode bfd.connFd bfd.sockFd bfd.client (cut (ciphertext E bfd []))⟩ := by
  have h0 : 0 ∈ c.buffer.bytes :=
    (Buf.zero_mem_ofBytes c.fits).mpr (Or.inr (by rw [hc]; decide))
  have hcut : cut c.buffer.bytes = [] := (Buf.cut_ofBytes c.fits).trans (by rw [hc, cut_nil])
  have hfit : (ciphertext E bfd []).length < maxCommandLenght :=
    (ciphertext_length_lt_iff ..).mpr (by decide)
  rw [relayOutput, sendMessage, sendMessageTo_eq, hcut]
  exact if_pos ⟨h0, Or.inr hfit⟩

theorem Direction.relay_inside_iff (dir : Direction) (E : Evp.Cipher) (mode : Mode)
    (bfd : Connection) (c : Chunk) :
    dir.relay E mode bfd c ≠ .error .outOfBounds ↔
      (0 ∈ c.data ∨ c.data.length < maxCommandLenght) ∧
        (0 ∈ ciphertext E bfd (cut c.data) ∨
          (ciphertext E bfd (cut c.data)).length < maxCommandLenght) := by
  obtain ⟨peer, hrelay⟩ := dir.relay_eq E mode bfd c
  rw [hrelay, sendMessageTo_inside_iff, Chunk.buffer, Buf.cut_ofBytes, Buf.zero_mem_ofBytes]

/-- The body of a relay loop stays inside its buffers exactly when the chunk has
or leaves room for a terminator, and its ciphertext too. -/
theorem relayLoop_inside_iff (E : Evp.Cipher) (mode : Mode) (dir : Direction) (bfd : Connection)
    (c : Chunk) :
    dir.relay E mode bfd c ≠ .error .outOfBounds ↔
      (0 ∈ c.data ∨ c.data.length < maxCommandLenght) ∧
        ((cut c.data).length < 65520 ∨ 0 ∈ ciphertext E bfd (cut c.data)) := by
  rw [dir.relay_inside_iff, ciphertext_length_lt_iff]
  exact and_congr_right fun _ => or_comm

/-- A full buffer of one letter. -/
theorem relayLoop_outside :
    ¬ ∀ (E : Evp.Cipher) (mode : Mode) (dir : Direction) (bfd : Connection) (c : Chunk),
      dir.relay E mode bfd c ≠ .error .outOfBounds := by
  intro hclaim
  let c : Chunk := ⟨List.replicate maxCommandLenght 97, List.length_replicate.le⟩
  have h := hclaim sampleCipher .tcp .toServer sampleSession c
  rw [Direction.relay_inside_iff] at h
  rcases h.1 with h0 | hlt
  · exact absurd (List.eq_of_mem_replicate h0) (by decide)
  · exact absurd (List.length_replicate.symm.trans_lt hlt) (Nat.lt_irrefl _)

/-! ## Texts that are carried -/

/-- The longest ciphertext that can be sent: its buffer needs room for a terminator, and
over UDP it has to fit into a datagram. -/
def Mode.longest : Mode → Nat
  | udp => Posix.maxDatagram
  | tcp => maxCommandLenght - 1

theorem Mode.longest_lt (mode : Mode) : mode.longest < maxCommandLenght := by
  cases mode <;> decide

/-- A text that the cipher carries: it is not empty, it has no zero byte and neither has
its ciphertext, and that can be sent. -/
structure Clean (E : Evp.Cipher) (mode : Mode) (bfd : Connection) (m : Bytes) : Prop where
  nonempty : m ≠ []
  noZero : 0 ∉ m
  fits : (ciphertext E bfd m).length ≤ mode.longest
  cipher : 0 ∉ ciphertext E bfd m

namespace Clean

variable {E : Evp.Cipher} {mode : Mode} {bfd bfd' : Connection} {m : Bytes}

theorem length_lt (h : Clean E mode bfd m) : (ciphertext E bfd m).length < maxCommandLenght :=
  h.fits.trans_lt mode.longest_lt

theorem short (h : Clean E mode bfd m) : m.length < 65520 :=
  (ciphertext_length_lt_iff E bfd m).mp h.length_lt

/-- Only the keys of a record matter. -/
theorem congr (h : Clean E mode bfd m) (hctx : sessionCtx bfd = sessionCtx bfd') :
    Clean E mode bfd' m := by
  have hcipher : ciphertext E bfd m = ciphertext E bfd' m := by
    rw [ciphertext, ciphertext, hctx]
  exact ⟨h.nonempty, h.noZero, hcipher ▸ h.fits, hcipher ▸ h.cipher⟩

/-- The buffer that a clean text has been read into. -/
theorem buffer {c : Chunk} (h : Clean E mode bfd c.data) :
    0 ∈ c.buffer.bytes ∧ cut c.buffer.bytes = c.data := by
  rw [Chunk.buffer, Buf.cut_ofBytes, Buf.zero_mem_ofBytes]
  exact ⟨Or.inr (h.short.trans (by decide)), cut_eq_self h.noZero⟩

/-- A clean text is sent, as its whole ciphertext. -/
theorem relay {c : Chunk} (h : Clean E mode bfd c.data) (dir : Direction) :
    ∃ sent, dir.relay E mode bfd c = .ok sent ∧
      sent.call.data = ciphertext E bfd c.data := by
  obtain ⟨h0, hcut⟩ := h.buffer
  obtain ⟨peer, hrelay⟩ := dir.relay_eq E mode bfd c
  rw [hrelay, sendMessageTo_eq, hcut, if_pos ⟨h0, Or.inr h.length_lt⟩, cut_eq_self h.cipher]
  exact ⟨_, rfl, Output.data_of ..⟩

end Clean

theorem clean_id (mode : Mode) : Clean sampleCipher mode sampleSession (ascii "id\n") where
  nonempty := by decide
  noZero := by decide
  fits := by
    rw [ciphertext, sampleCipher.encipher_length]
    cases mode <;> decide
  cipher := ciphertext_id

end ServerSsh

import ServerSsh.Boundaries
import ServerSsh.Evp.Chaining
import ServerSsh.ShellOutput

/-!
# The ciphertexts of a session on the wire

All the messages of a session, in both directions, are encrypted in CBC mode under
one key and one IV, and nothing is sent along that would let the receiving program
tell a message from something else.  `B.cbc` is the cipher here, for any block
cipher `B`.

The ciphertexts give away which messages begin alike: `shared_blocks_visible` says
that two datagrams, from whichever of the programs, show the same first blocks
exactly when the two messages have them.  And they can be changed: of a part of a
datagram the receiving program passes a part of the message on
(`received_of_isPrefix`), and whoever knows a block of a message behind the first one
can have it replaced by any other block, at the price of the block in front of it
(`block_replaced`).
-/

namespace ServerSsh

open Libc

/-! ## The receiving programs -/

/-- The body of the client's loop over the network: the connection record after it,
and the bytes written to the standard output. -/
def Client.receive (E : Evp.Cipher) (mode : Mode) (conData : Connection) (a : Arrival) :
    Except Fault (Connection × Bytes) := do
  let got ← Client.getMessage E mode conData a
  let written ← Client.display got.string
  pure (got.bfd, written)

namespace Direction

/-- The loop body of the receiving program.  The administrator's message buffer is
at the given address. -/
def pass (dir : Direction) (E : Evp.Cipher) (mode : Mode) (address : Nat) (bfd : Connection)
    (a : Arrival) : Except Fault (Connection × Bytes) :=
  match dir with
  | toServer => ServerSsh.receive E mode bfd address a
  | toClient => Client.receive E mode bfd a

/-- What is passed on of a message. -/
def passed (dir : Direction) (address : Nat) (m : Bytes) : Bytes :=
  match dir with
  | toServer => m.take (kept address m)
  | toClient => m

theorem passed_isPrefix (dir : Direction) (address : Nat) (m : Bytes) :
    dir.passed address m <+: m := by
  cases dir with
  | toServer => exact List.take_prefix _ _
  | toClient => exact List.prefix_rfl

/-- The receiving program passes its message on, unless it is an empty one at the
administrator. -/
theorem pass_cases (dir : Direction) (E : Evp.Cipher) (mode : Mode) (address : Nat)
    (bfd : Connection) {a : Arrival}
    (h : 0 ∈ Arrival.data a ∨ (Arrival.data a).length < maxCommandLenght) :
    let m := received E bfd (Arrival.data a)
    (∃ bfd', dir.pass E mode address bfd a = .ok (bfd', dir.passed address m)) ∨
      m = [] ∧ dir.pass E mode address bfd a = .error .outOfBounds := by
  cases dir with
  | toServer =>
      rcases receive_cases E mode bfd address h with hnil | ⟨-, hok⟩
      · exact Or.inr hnil
      · exact Or.inl hok
  | toClient =>
      obtain ⟨got, hgot, hs⟩ := toClient.get_string E mode bfd h
      have hget : Client.getMessage E mode bfd a = .ok got := hgot
      refine Or.inl ⟨got.bfd, ?_⟩
      show Client.receive E mode bfd a = _
      rw [Client.receive, hget, ok_bind, Client.display_eq hs]
      rfl

/-- A message that is not empty, and whose ciphertext arrives whole, is passed on. -/
theorem pass_ciphertext (dir : Direction) {E : Evp.Cipher} (mode : Mode) (address : Nat)
    {bfd : Connection} {p : Packet} {t : Bytes} (ht0 : 0 ∉ t) (hne : t ≠ [])
    (hshort : t.length < 65520) (hp : p.data = ciphertext E bfd t) (hc : 0 ∉ ciphertext E bfd t) :
    ∃ bfd', dir.pass E mode address bfd (some p) = .ok (bfd', dir.passed address t) := by
  have hlt : (Arrival.data (some p)).length < maxCommandLenght := by
    rw [Arrival.data, hp]
    exact (ciphertext_length_lt_iff E bfd t).mpr hshort
  have hrec : received E bfd (Arrival.data (some p)) = t := by
    rw [Arrival.data, hp]
    exact received_ciphertext E rfl ht0 hc
  have hcases := dir.pass_cases E mode address bfd (Or.inr hlt)
  rw [hrec] at hcases
  exact hcases.resolve_right fun h => hne h.1

/-- The record that the program goes on with has the same keys. -/
theorem pass_ctx {dir : Direction} {E : Evp.Cipher} {mode : Mode} {address : Nat}
    {bfd bfd' : Connection} {a : Arrival} {written : Bytes}
    (h : dir.pass E mode address bfd a = .ok (bfd', written)) :
    sessionCtx bfd' = sessionCtx bfd := by
  cases dir with
  | toServer =>
      obtain ⟨got, hgot, h⟩ := bind_eq_ok.mp h
      obtain ⟨w, -, h⟩ := bind_eq_ok.mp h
      rw [Server.getMessage_eq] at hgot
      obtain ⟨r, -, rfl⟩ := map_eq_ok.mp hgot
      cases h
      rfl
  | toClient =>
      obtain ⟨got, hgot, h⟩ := bind_eq_ok.mp h
      obtain ⟨w, -, h⟩ := bind_eq_ok.mp h
      rw [Client.getMessage_eq] at hgot
      obtain ⟨r, -, rfl⟩ := map_eq_ok.mp hgot
      cases h
      rfl

end Direction

variable {B : Evp.BlockCipher} {sender receiver : Connection}

/-! ## Messages that begin alike -/

/-- Two datagrams of a session show the same first blocks exactly when the two
padded messages have them, whichever program has sent them. -/
theorem shared_blocks_visible {sender' : Connection} (hctx : sessionCtx sender = sessionCtx sender')
    {dir dir' : Direction} {mode mode' : Mode} {string string' : MessageBuf} {sent sent' : Sent}
    (h : dir.send B.cbc mode sender string = .ok sent)
    (h' : dir'.send B.cbc mode' sender' string' = .ok sent') {k : Nat}
    (hk : 16 * k ≤ sent.call.data.length) (hk' : 16 * k ≤ sent'.call.data.length) :
    sent.call.data.take (16 * k) = sent'.call.data.take (16 * k) ↔
      (Evp.pad (cut string.bytes)).take (16 * k) = (Evp.pad (cut string'.bytes)).take (16 * k) := by
  have hstart : ∀ {c : Bytes}, 16 * k ≤ (cut c).length →
      (cut c).take (16 * k) = c.take (16 * k) := fun {c} hc => by
    rw [← take_cut_length c, List.take_take, Nat.min_eq_left hc]
  have hblocks : ∀ {bfd : Connection} {m : Bytes},
      16 * k ≤ (cut (ciphertext B.cbc bfd m)).length → k ≤ m.length / 16 + 1 := by
    intro bfd m hc
    have hle := hc.trans (cut_length_le _)
    rw [ciphertext, B.cbc.encipher_length] at hle
    omega
  obtain ⟨-, hdata, -⟩ := Direction.send_ok h
  obtain ⟨-, hdata', -⟩ := Direction.send_ok h'
  rw [hdata] at hk ⊢
  rw [hdata'] at hk' ⊢
  rw [hstart hk, hstart hk', ciphertext, ciphertext, hctx, Evp.BlockCipher.cbc_encipher,
    Evp.BlockCipher.cbc_encipher]
  exact Evp.BlockCipher.cbcEncrypt_take_eq_iff _ (hblocks hk) (hblocks hk')

theorem sampleLine_fits : (ascii "id\n").length ≤ maxCommandLenght := by decide

/-- A line that both programs send. -/
def sampleLine : MessageBuf := Buf.ofBytes (ascii "id\n") sampleLine_fits

/-- The command `id`, and its echo. -/
theorem shared_blocks_visible_echo :
    ∃ sent sent', Client.sendMessage sampleCipher .udp sampleSession sampleLine = .ok sent ∧
      Server.sendMessage sampleCipher .udp sampleSession sampleLine = .ok sent' ∧
      sent.call.data.take (16 * 1) = sent'.call.data.take (16 * 1) := by
  have hcut : cut sampleLine.bytes = ascii "id\n" := (Buf.cut_ofBytes _).trans (by decide)
  have h0 : 0 ∈ sampleLine.bytes := (Buf.zero_mem_ofBytes _).mpr (Or.inr (by decide))
  have hlen : (ciphertext sampleCipher sampleSession (cut sampleLine.bytes)).length = 16 := by
    rw [hcut]
    exact sampleCipher.encipher_length _ _
  have hwhole : cut (ciphertext sampleCipher sampleSession (cut sampleLine.bytes))
      = ciphertext sampleCipher sampleSession (cut sampleLine.bytes) := by
    rw [hcut]
    exact cut_eq_self ciphertext_id
  have hsend := fun dir => Direction.send_data dir sampleCipher .udp sampleSession h0
    (hlen.trans_lt (by decide))
  obtain ⟨sent, h, hdata⟩ := hsend .toServer
  obtain ⟨sent', h', hdata'⟩ := hsend .toClient
  rw [hwhole] at hdata hdata'
  exact ⟨sent, sent', h, h', (shared_blocks_visible rfl h h' (by rw [hdata, hlen])
    (by rw [hdata', hlen])).mpr rfl⟩

/-! ## Parts of a datagram -/

/-- A part of a datagram decrypts to a part of the message. -/
theorem received_of_isPrefix (hctx : sessionCtx sender = sessionCtx receiver) {m d : Bytes}
    (hm0 : 0 ∉ m) (hd : d <+: ciphertext B.cbc sender m) :
    received B.cbc receiver d <+: m := by
  have hcut := List.prefix_iff_eq_take.mp ((cut_isPrefix d).trans hd)
  have hpre := Evp.BlockCipher.decipher_take_isPrefix (B := B) (sessionCtx sender) m (cut d).length
  rw [← Evp.BlockCipher.cbc_encipher, ← ciphertext, ← hcut, hctx] at hpre
  rwa [received, cut_eq_self fun h => hm0 (hpre.subset h)]

/-! ## A replaced block -/

/-- A message with a block replaced, and the block in front of it lost. -/
def replaced (m g t : Bytes) (i : Nat) : Bytes :=
  m.take (16 * i) ++ (g ++ (t ++ m.drop (16 * (i + 2))))

/-- The block of a message behind the one with the given number. -/
def nextBlock (m : Bytes) (i : Nat) : Bytes := (m.drop (16 * (i + 1))).take 16

theorem spread_xor {m t : Bytes} {i : Nat} (g : Bytes) (hi : 16 * (i + 2) ≤ m.length)
    (ht : t.length = 16) : Evp.spread g (Evp.xor (nextBlock m i) t) i m = replaced m g t i := by
  have hb : (nextBlock m i).length = 16 := Evp.length_block hi
  have hx : Evp.xor (nextBlock m i) (Evp.xor (nextBlock m i) t) = t := by
    rw [Evp.xor_comm (nextBlock m i) t, Evp.xor_comm, Evp.xor_xor_cancel (ht.trans hb.symm)]
  rw [Evp.spread, replaced, ← nextBlock, hx]

/-- A command of which the second block is replaced. -/
def sampleRemoval : Bytes := ascii "rm -rf /home/user/build/cache-old\n"

theorem sampleRemoval_fits : sampleRemoval.length < maxCommandLenght := by decide

theorem removal_whole : 0 ∉ ciphertext sampleCipher sampleSession sampleRemoval := by
  rw [ciphertext, sessionCtx_sample]
  decide

end ServerSsh

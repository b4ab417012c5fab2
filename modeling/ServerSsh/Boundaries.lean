import ServerSsh.KeyAgreement
import ServerSsh.RoundTrip

/-!
# Message boundaries in TCP mode

In TCP mode a message is what one `write` hands over and what one `read`
returns, and nothing in the stream says where a message ends.  `sendAll` and
`getAll` are the successive calls of the two functions, and `Cuts` says that the
reads are the written bytes in order, cut in any way into non-empty pieces.

When every read returns what one write handed over, the messages arrive as they
were sent (`delivered_of_whole`).  Otherwise look at the first read that differs
from its write.  When it goes on into the next message, the padding of its own
message comes out as text.  When it ends too early, the end of its message is
lost, with the one exception of `PaddingCut`: a message of whole blocks is
already complete when the read ends inside the block of padding.  Then the rest
of the padding is left for the next read.
-/

namespace ServerSsh

open Libc

/-! ## The calls -/

/-- Successive calls of `Send_message`, with the bytes handed to the kernel. -/
def sendAll (E : Evp.Cipher) (dir : Direction) (sender : Connection) :
    List MessageBuf → Except Fault (List Bytes)
  | [] => .ok []
  | string :: strings => do
      let sent ← dir.send E .tcp sender string
      let rest ← sendAll E dir sender strings
      pure (sent.call.data :: rest)

/-- Successive calls of `Get_message`, with the C strings they leave. -/
def getAll (E : Evp.Cipher) (dir : Direction) :
    Connection → List Packet → Except Fault (List Bytes)
  | _, [] => .ok []
  | receiver, p :: reads => do
      let got ← dir.get E .tcp receiver (some p)
      let s ← got.string.cstring 0
      let rest ← getAll E dir got.bfd reads
      pure (s :: rest)

/-- What the client may write first. -/
def opening : Option (UInt64 × UInt64) → List Bytes
  | none => []
  | some (B1, B2) => [answerText B1 B2]

/-- The non-empty reads that a byte stream is cut into. -/
structure Cuts (writes : List Bytes) (reads : List Packet) : Prop where
  nonempty : ∀ p ∈ reads, p.data ≠ []
  stream : (reads.map Packet.data).flatten = writes.flatten

/-- The handshake, with the record `bfd` of that time, reads the answer and no
more. -/
def ReadsAnswer (bfd : Connection) (g : Server.Greeted) (p : Packet) (B1 B2 : UInt64) : Prop :=
  p.data = answerText B1 B2 ∧
    ∃ s, Server.readAnswer .tcp bfd g (some p) = .ok s ∧ s.B1 = B1 ∧ s.B2 = B2

/-- The messages arrive as they were sent, after the answer if there is one. -/
def Delivered (E : Evp.Cipher) (dir : Direction) (bfd receiver : Connection) (g : Server.Greeted)
    (ms : List Bytes) (reads : List Packet) : Option (UInt64 × UInt64) → Prop
  | none => getAll E dir receiver reads = .ok ms
  | some (B1, B2) => ∃ p rest, reads = p :: rest ∧ ReadsAnswer bfd g p B1 B2 ∧
      getAll E dir receiver rest = .ok ms

/-- The first read that differs from its write ends inside the block of padding
after a message of whole blocks. -/
inductive PaddingCut : List Bytes → List Bytes → List Bytes → Prop where
  | here {m w r : Bytes} {ms ws rs : List Bytes} :
      m.length % 16 = 0 → r <+: w → r ≠ w → m.length < r.length →
      PaddingCut (m :: ms) (w :: ws) (r :: rs)
  | later {m w : Bytes} {ms ws rs : List Bytes} :
      PaddingCut ms ws rs → PaddingCut (m :: ms) (w :: ws) (w :: rs)

/-! ## One call -/

section Calls

variable {E : Evp.Cipher} {dir : Direction} {bfd : Connection}

theorem Direction.send_ok {mode : Mode} {string : MessageBuf} {sent : Sent}
    (h : dir.send E mode bfd string = .ok sent) :
    0 ∈ string.bytes ∧ sent.call.data = cut (ciphertext E bfd (cut string.bytes)) ∧
      sent.call.data.length < maxCommandLenght := by
  obtain ⟨peer, hp⟩ : ∃ peer, sendMessageTo peer E mode bfd string = .ok sent := by
    cases dir with
    | toServer => exact ⟨_, h⟩
    | toClient => exact ⟨_, h⟩
  obtain ⟨h0, hc, rfl⟩ := sendMessageTo_ok hp
  rw [Output.data_of]
  refine ⟨h0, rfl, ?_⟩
  rcases hc with hc | hlt
  · exact (cut_length_lt hc).trans_le
      (ciphertext_length_le E bfd ((cut_length_lt h0).trans_eq string.size))
  · exact (cut_length_le _).trans_lt hlt

theorem Direction.get_ok {p : Packet} {got : Got} {s : Bytes}
    (h : dir.get E .tcp bfd (some p) = .ok got) (hs : got.string.cstring 0 = .ok s) :
    got.bfd = bfd ∧ s = received E bfd p.data := by
  have hcases : ∀ r, decryptMessage E bfd (some p) = .ok r → r.out = got.string →
      s = received E bfd p.data := by
    intro r hr hout
    rw [← hout] at hs
    exact (Buf.cstring_zero_eq_ok.mp hs).2.symm.trans (decryptMessage_ok hr).2
  cases dir with
  | toServer =>
      obtain ⟨r, hr, rfl⟩ := map_eq_ok.mp ((Server.getMessage_eq ..).symm.trans h)
      exact ⟨rfl, hcases r hr rfl⟩
  | toClient =>
      obtain ⟨r, hr, rfl⟩ := map_eq_ok.mp ((Client.getMessage_eq ..).symm.trans h)
      exact ⟨rfl, hcases r hr rfl⟩

end Calls

/-! ## One read -/

section Read

variable {E : Evp.Cipher} {sender receiver : Connection} {m r : Bytes}

theorem zero_notMem_padding (n : Nat) : 0 ∉ Evp.padding n := by
  intro h
  have hk : 16 - n % 16 < 256 ∧ 16 - n % 16 ≠ 0 := by omega
  have := congrArg UInt8.toNat (List.eq_of_mem_replicate h)
  rw [UInt8.toNat_ofNat_of_lt' hk.1] at this
  exact hk.2 this.symm

/-- A whole ciphertext gives its message. -/
theorem received_whole (hctx : sessionCtx sender = sessionCtx receiver) (hm0 : 0 ∉ m)
    (h0 : 0 ∉ ciphertext E sender m) : received E receiver (ciphertext E sender m) = m := by
  have h := (received_cut_iff E hctx hm0).mpr (Or.inl h0)
  rwa [cut_eq_self h0] at h

/-- A read that goes on after the ciphertext gives padding as text. -/
theorem received_longer (hctx : sessionCtx sender = sessionCtx receiver) (hm0 : 0 ∉ m)
    {e : Bytes} (he : e ≠ []) (h0 : 0 ∉ ciphertext E sender m ++ e) :
    received E receiver (ciphertext E sender m ++ e) ≠ m := by
  intro h
  have hpad := E.decrypt_padding (sessionCtx sender) m he
  obtain ⟨u, hu⟩ := hpad.trans (List.prefix_append _ ((E.decryptFinal (sessionCtx sender)
    (E.encipher (sessionCtx sender) m ++ e)).getD []))
  have hlen : (m ++ Evp.padding m.length ++ cut u).length = m.length := by
    have hz : 0 ∉ m ++ Evp.padding m.length := by
      simp [hm0, zero_notMem_padding]
    rw [received, cut_eq_self h0, ← hctx, ciphertext, Evp.Cipher.decipher] at h
    rw [← cut_append hz u, hu]
    exact congrArg List.length h
  simp [Evp.padding] at hlen
  omega

/-- A read that ends inside a ciphertext gives the message only when it ends
inside a block of padding. -/
theorem received_shorter (h0 : 0 ∉ ciphertext E sender m) (hr : r <+: ciphertext E sender m)
    (hne : r ≠ ciphertext E sender m) (hnil : r ≠ []) (h : received E receiver r = m) :
    m.length % 16 = 0 ∧ m.length < r.length := by
  have hr0 : 0 ∉ r := fun hmem => h0 (hr.subset hmem)
  have hlt : r.length < 16 * (m.length / 16 + 1) := by
    refine (Nat.lt_of_le_of_ne hr.length_le fun he => hne (hr.eq_of_length he)).trans_eq ?_
    exact E.encipher_length ..
  rw [received, cut_eq_self hr0] at h
  have hle : m.length ≤ (E.decipher (sessionCtx receiver) r).length := by
    conv_lhs => rw [← h]
    exact cut_length_le _
  by_cases hal : r.length % 16 = 0
  · have := decipher_length_lt_of_aligned E (sessionCtx receiver) hnil hal
    omega
  · rw [(decipher_of_unaligned E (sessionCtx receiver) hal).2] at hle
    omega

end Read

/-! ## All the reads -/

section Reads

variable {E : Evp.Cipher} {dir : Direction} {sender receiver : Connection}

/-- The C strings in message buffers. -/
def messages (strings : List MessageBuf) : List Bytes := strings.map fun s => cut s.bytes

theorem zero_notMem_messages {strings : List MessageBuf} {m : Bytes}
    (h : m ∈ messages strings) : 0 ∉ m := by
  obtain ⟨s, -, rfl⟩ := List.mem_map.mp h
  exact zero_notMem_cut _

/-- What is written for messages whose ciphertexts have no zero byte. -/
theorem sendAll_ok : ∀ {strings : List MessageBuf} {ws : List Bytes},
    sendAll E dir sender strings = .ok ws →
    (∀ m ∈ messages strings, 0 ∉ ciphertext E sender m) →
    ws = (messages strings).map (ciphertext E sender) ∧ ∀ w ∈ ws, w.length < maxCommandLenght
  | [], ws, h, _ => by
      cases h
      exact ⟨rfl, by simp⟩
  | string :: strings, ws, h, h0 => by
      obtain ⟨sent, hsent, h⟩ := bind_eq_ok.mp h
      obtain ⟨rest, hrest, h⟩ := bind_eq_ok.mp h
      cases h
      obtain ⟨-, hdata, hlt⟩ := Direction.send_ok hsent
      obtain ⟨hr, hrlt⟩ := sendAll_ok hrest fun m hm => h0 m (List.mem_cons_of_mem _ hm)
      rw [cut_eq_self (h0 _ (List.mem_cons_self ..))] at hdata
      refine ⟨?_, List.forall_mem_cons.mpr ⟨hlt, hrlt⟩⟩
      rw [hdata, hr]
      rfl

/-- The C strings that `Get_message` leaves, read by read. -/
theorem getAll_ok : ∀ {reads : List Packet} {ms : List Bytes},
    getAll E dir receiver reads = .ok ms → ms = reads.map fun p => received E receiver p.data
  | [], ms, h => by
      cases h
      rfl
  | p :: reads, ms, h => by
      obtain ⟨got, hgot, h⟩ := bind_eq_ok.mp h
      obtain ⟨s, hs, h⟩ := bind_eq_ok.mp h
      obtain ⟨rest, hrest, h⟩ := bind_eq_ok.mp h
      cases h
      obtain ⟨hbfd, rfl⟩ := Direction.get_ok hgot hs
      rw [hbfd] at hrest
      rw [List.map_cons, ← getAll_ok hrest]

/-- Reads that leave room for a terminator do not fail. -/
theorem getAll_of_lt : ∀ {reads : List Packet},
    (∀ p ∈ reads, p.data.length < maxCommandLenght) →
    getAll E dir receiver reads = .ok (reads.map fun p => received E receiver p.data)
  | [], _ => rfl
  | p :: reads, h => by
      obtain ⟨hp, hrest⟩ := List.forall_mem_cons.mp h
      obtain ⟨got, hgot, hs⟩ := dir.get_string E .tcp receiver (a := some p) (Or.inr hp)
      have hbfd := (Direction.get_ok hgot hs).1
      rw [getAll, hgot, ok_bind, hs, ok_bind, hbfd, getAll_of_lt hrest]
      rfl

/-- Whole reads give the messages. -/
theorem received_of_whole (hctx : sessionCtx sender = sessionCtx receiver) :
    ∀ {ms : List Bytes} {reads : List Packet}, (∀ m ∈ ms, 0 ∉ m) →
    (∀ m ∈ ms, 0 ∉ ciphertext E sender m) →
    reads.map Packet.data = ms.map (ciphertext E sender) →
    (reads.map fun p => received E receiver p.data) = ms
  | [], [], _, _, _ => rfl
  | m :: ms, p :: reads, hm, hc, h => by
      obtain ⟨hm, hms⟩ := List.forall_mem_cons.mp hm
      obtain ⟨hc, hcs⟩ := List.forall_mem_cons.mp hc
      obtain ⟨hp, hreads⟩ := List.cons.inj h
      rw [List.map_cons, hp, received_whole hctx hm hc, received_of_whole hctx hms hcs hreads]

/-- Reads that give the messages are whole, up to a cut inside padding. -/
theorem whole_of_received (hctx : sessionCtx sender = sessionCtx receiver) :
    ∀ {ms : List Bytes} {reads : List Packet}, (∀ m ∈ ms, 0 ∉ m) →
    (∀ m ∈ ms, 0 ∉ ciphertext E sender m) → Cuts (ms.map (ciphertext E sender)) reads →
    (reads.map fun p => received E receiver p.data) = ms →
    reads.map Packet.data = ms.map (ciphertext E sender) ∨
      PaddingCut ms (ms.map (ciphertext E sender)) (reads.map Packet.data)
  | [], [], _, _, _, _ => Or.inl rfl
  | m :: ms, p :: reads, hm, hc, hcuts, h => by
      have hstream : p.data ++ (reads.map Packet.data).flatten
          = ciphertext E sender m ++ (ms.map (ciphertext E sender)).flatten := hcuts.stream
      obtain ⟨hp, hreads⟩ := List.cons.inj h
      have hcs := (List.forall_mem_cons.mp hc).2
      by_cases hw : p.data = ciphertext E sender m
      · -- A whole read leaves the stream of the remaining messages.
        rw [hw] at hstream
        have hrest : Cuts (ms.map (ciphertext E sender)) reads :=
          ⟨(List.forall_mem_cons.mp hcuts.nonempty).2, List.append_cancel_left hstream⟩
        rw [List.map_cons, List.map_cons, hw]
        rcases whole_of_received hctx (List.forall_mem_cons.mp hm).2 hcs hrest hreads with h | h
        · exact Or.inl (congrArg _ h)
        · exact Or.inr (.later h)
      · rcases List.append_eq_append_iff.mp hstream with ⟨e, he, -⟩ | ⟨e, he, hbeyond⟩
        · -- The read ends inside the ciphertext of its message.
          have hpre : p.data <+: ciphertext E sender m := ⟨e, he.symm⟩
          obtain ⟨hal, hlen⟩ := received_shorter (hc m (List.mem_cons_self ..)) hpre hw
            (hcuts.nonempty p (List.mem_cons_self ..)) hp
          exact Or.inr (.here hal hpre hw hlen)
        · -- The read goes on into the next ciphertext.
          have hz : 0 ∉ ciphertext E sender m ++ e := by
            intro hmem
            rcases List.mem_append.mp hmem with h | h
            · exact hc m (List.mem_cons_self ..) h
            · have : (0 : UInt8) ∈ (ms.map (ciphertext E sender)).flatten := by
                rw [hbeyond]
                exact List.mem_append_left _ h
              obtain ⟨w, hw, h0⟩ := List.mem_flatten.mp this
              obtain ⟨m', hm', rfl⟩ := List.mem_map.mp hw
              exact hcs m' hm' h0
          have hne : e ≠ [] := by
            rintro rfl
            exact hw (by simpa using he)
          replace hp : received E receiver p.data = m := hp
          rw [he] at hp
          exact absurd hp (received_longer hctx (hm m (List.mem_cons_self ..)) hne hz)

/-- What the calls hand to the kernel. -/
theorem sendAll_of_fits : ∀ {strings : List MessageBuf},
    (∀ s ∈ strings, 0 ∈ s.bytes ∧
      (ciphertext E sender (cut s.bytes)).length < maxCommandLenght) →
    sendAll E dir sender strings
      = .ok ((messages strings).map fun m => cut (ciphertext E sender m))
  | [], _ => rfl
  | s :: strings, h => by
      obtain ⟨⟨h0, hlt⟩, hs⟩ := List.forall_mem_cons.mp h
      obtain ⟨sent, hsent, hdata⟩ := dir.send_data E .tcp sender h0 hlt
      rw [sendAll, hsent, ok_bind, sendAll_of_fits hs, ok_bind, hdata]
      rfl

/-- The messages alone: whole reads deliver them, and reads that deliver them
are whole up to a cut inside padding. -/
theorem getAll_boundaries {strings : List MessageBuf} {ws : List Bytes} {reads : List Packet}
    (hctx : sessionCtx sender = sessionCtx receiver)
    (hsend : sendAll E dir sender strings = .ok ws)
    (hc : ∀ m ∈ messages strings, 0 ∉ ciphertext E sender m) :
    (reads.map Packet.data = ws → getAll E dir receiver reads = .ok (messages strings)) ∧
    (Cuts ws reads → getAll E dir receiver reads = .ok (messages strings) →
      reads.map Packet.data = ws ∨ PaddingCut (messages strings) ws (reads.map Packet.data)) := by
  obtain ⟨rfl, hlt⟩ := sendAll_ok hsend hc
  have hm : ∀ m ∈ messages strings, 0 ∉ m := fun _ => zero_notMem_messages
  constructor
  · intro hwhole
    have hreads : ∀ p ∈ reads, p.data.length < maxCommandLenght := fun p hp =>
      hlt _ (hwhole ▸ List.mem_map_of_mem hp)
    rw [getAll_of_lt hreads, received_of_whole hctx hm hc hwhole]
  · intro hcuts hget
    exact whole_of_received hctx hm hc hcuts (getAll_ok hget).symm

end Reads

/-- The server reads back an answer that arrives alone. -/
theorem readsAnswer_of_data (bfd : Connection) (g : Server.Greeted) {p : Packet} {B1 B2 : UInt64}
    (h1 : B1.toNat < 2 ^ 31) (h2 : B2.toNat < 2 ^ 31) (hp : p.data = answerText B1 B2) :
    ReadsAnswer bfd g p B1 B2 :=
  ⟨hp, _, Server.readAnswer_eq .tcp bfd g h1 h2 hp, rfl, rfl⟩

/-- A message of whole blocks is needed for a cut inside padding. -/
theorem not_paddingCut {ms ws rs : List Bytes} (hal : ∀ m ∈ ms, m.length % 16 ≠ 0) :
    ¬ PaddingCut ms ws rs := by
  intro h
  induction h with
  | here hm _ _ _ => exact hal _ (List.mem_cons_self ..) hm
  | later _ ih => exact ih fun m hm => hal m (List.mem_cons_of_mem _ hm)

section Delivery

variable {E : Evp.Cipher} {dir : Direction} {bfd sender receiver : Connection}
  {strings : List MessageBuf} {ws : List Bytes} {reads : List Packet}
  {answer : Option (UInt64 × UInt64)}

/-- Reads that each return what one write handed over deliver the messages. -/
theorem delivered_of_whole (g : Server.Greeted) (hctx : sessionCtx sender = sessionCtx receiver)
    (hsend : sendAll E dir sender strings = .ok ws)
    (hc : ∀ m ∈ messages strings, 0 ∉ ciphertext E sender m)
    (hB : ∀ B ∈ answer, B.1 < publicKeyP ∧ B.2 < publicKeyP)
    (hwhole : reads.map Packet.data = opening answer ++ ws) :
    Delivered E dir bfd receiver g (messages strings) reads answer := by
  cases answer with
  | none => exact (getAll_boundaries hctx hsend hc).1 hwhole
  | some B =>
      obtain ⟨B1, B2⟩ := B
      obtain ⟨h1, h2⟩ := hB (B1, B2) rfl
      obtain ⟨p, rest, rfl, hp, hrest⟩ := List.map_eq_cons_iff.mp hwhole
      refine ⟨p, rest, rfl, readsAnswer_of_data bfd g ?_ ?_ hp, ?_⟩
      · exact (UInt64.lt_iff_toNat_lt.mp h1).trans (by decide)
      · exact (UInt64.lt_iff_toNat_lt.mp h2).trans (by decide)
      · exact (getAll_boundaries hctx hsend hc).1 hrest

/-- Reads that deliver the messages return what the writes handed over, up to a
cut inside padding. -/
theorem whole_of_delivered {g : Server.Greeted} (hctx : sessionCtx sender = sessionCtx receiver)
    (hsend : sendAll E dir sender strings = .ok ws)
    (hc : ∀ m ∈ messages strings, 0 ∉ ciphertext E sender m)
    (hcuts : Cuts (opening answer ++ ws) reads)
    (h : Delivered E dir bfd receiver g (messages strings) reads answer) :
    reads.map Packet.data = opening answer ++ ws ∨
      ∃ rest, reads.map Packet.data = opening answer ++ rest ∧
        PaddingCut (messages strings) ws rest := by
  cases answer with
  | none => exact ((getAll_boundaries hctx hsend hc).2 hcuts h).imp_right fun h => ⟨_, rfl, h⟩
  | some B =>
      obtain ⟨B1, B2⟩ := B
      obtain ⟨p, rest, rfl, ⟨hp, -⟩, hget⟩ := h
      have hrest : Cuts ws rest := by
        refine ⟨(List.forall_mem_cons.mp hcuts.nonempty).2, ?_⟩
        have hstream : p.data ++ (rest.map Packet.data).flatten
            = answerText B1 B2 ++ ws.flatten := hcuts.stream
        rw [hp] at hstream
        exact List.append_cancel_left hstream
      rw [List.map_cons, hp]
      exact ((getAll_boundaries hctx hsend hc).2 hrest hget).imp (congrArg _)
        fun h => ⟨_, rfl, h⟩

end Delivery

/-! ## Two commands -/

/-- The commands `id` and `ls`. -/
def sampleStrings : List MessageBuf :=
  [Buf.ofBytes (ascii "id\n") (by decide), Buf.ofBytes (ascii "ls\n") (by decide)]

/-- Their ciphertexts in the sample session. -/
def sampleWrites : List Bytes :=
  [[188, 57, 222, 65, 149, 136, 29, 124, 204, 190, 207, 236, 74, 78, 218, 70],
    [153, 71, 7, 186, 171, 169, 68, 177, 144, 216, 30, 100, 182, 48, 226, 171]]

theorem messages_sampleStrings : messages sampleStrings = [ascii "id\n", ascii "ls\n"] := by
  simp only [messages, sampleStrings, List.map_cons, List.map_nil, Buf.cut_ofBytes]
  rfl

theorem ciphertext_sampleStrings :
    (messages sampleStrings).map (ciphertext sampleCipher sampleSession) = sampleWrites := by
  rw [messages_sampleStrings, List.map_cons, List.map_cons, ciphertext, ciphertext,
    sessionCtx_sample]
  decide

theorem zero_notMem_sampleWrites {m : Bytes} (hm : m ∈ messages sampleStrings) :
    0 ∉ ciphertext sampleCipher sampleSession m := by
  have hall : ∀ w ∈ sampleWrites, (0 : UInt8) ∉ w := by decide
  exact hall _ (ciphertext_sampleStrings ▸ List.mem_map_of_mem hm)

theorem sendAll_sampleStrings (dir : Direction) :
    sendAll sampleCipher dir sampleSession sampleStrings = .ok sampleWrites := by
  have hcut : sampleWrites.map cut = sampleWrites := by decide
  rw [sendAll_of_fits, ← hcut, ← ciphertext_sampleStrings, List.map_map]
  · rfl
  · simp only [sampleStrings, List.forall_mem_cons, Buf.zero_mem_ofBytes, Buf.cut_ofBytes,
      ciphertext, Evp.Cipher.encipher_length, List.not_mem_nil, false_implies, implies_true]
    decide

/-- Reads that each return what one write handed over deliver the messages, and
reads that deliver the messages are of this kind up to a cut inside padding,
which needs a message of whole blocks.  The two numbers of an answer are reduced
modulo `PUBLIC_KEY_P`. -/
theorem delivered_boundaries (E : Evp.Cipher) (dir : Direction) {bfd sender receiver : Connection}
    (g : Server.Greeted) {strings : List MessageBuf} {ws : List Bytes} {reads : List Packet}
    {answer : Option (UInt64 × UInt64)} (hkey : sender.key = receiver.key)
    (hiv : sender.iv = receiver.iv) (hsend : sendAll E dir sender strings = .ok ws)
    (hc : ∀ m ∈ messages strings, 0 ∉ ciphertext E sender m)
    (hB : ∀ B ∈ answer, B.1 < publicKeyP ∧ B.2 < publicKeyP)
    (hcuts : Cuts (opening answer ++ ws) reads) :
    (reads.map Packet.data = opening answer ++ ws →
      Delivered E dir bfd receiver g (messages strings) reads answer) ∧
    (Delivered E dir bfd receiver g (messages strings) reads answer →
      reads.map Packet.data = opening answer ++ ws ∨
        ∃ rest, reads.map Packet.data = opening answer ++ rest ∧
          PaddingCut (messages strings) ws rest) ∧
    ((∀ m ∈ messages strings, m.length % 16 ≠ 0) →
      (Delivered E dir bfd receiver g (messages strings) reads answer ↔
        reads.map Packet.data = opening answer ++ ws)) := by
  have hctx := sessionCtx_congr hkey hiv
  refine ⟨delivered_of_whole g hctx hsend hc hB, whole_of_delivered hctx hsend hc hcuts,
    fun hal => ⟨fun hd => ?_, delivered_of_whole g hctx hsend hc hB⟩⟩
  refine (whole_of_delivered hctx hsend hc hcuts hd).resolve_right ?_
  rintro ⟨rest, -, hcut⟩
  exact not_paddingCut hal hcut

/-- The two commands after an answer, in a read each. -/
theorem delivered_boundaries_sample :
    Delivered sampleCipher .toServer sampleBfd sampleSession ⟨1, 1, 7, 7, .write 4 []⟩
      (messages sampleStrings)
      [⟨answerText 7 49, sampleBfd.client, (answerText_fits 7 49).le⟩,
        ⟨sampleWrites[0], sampleBfd.client, by decide⟩,
        ⟨sampleWrites[1], sampleBfd.client, by decide⟩] (some (7, 49)) := by
  refine (delivered_boundaries sampleCipher .toServer _ rfl rfl (sendAll_sampleStrings _)
    (fun _ => zero_notMem_sampleWrites) (by rintro B ⟨⟩; decide) ⟨?_, rfl⟩).1 rfl
  simp only [List.forall_mem_cons, List.not_mem_nil, false_implies, implies_true, and_true]
  decide

/-- The two commands in one read. -/
theorem boundaries_lost :
    ¬ ∀ (E : Evp.Cipher) (dir : Direction) (bfd sender receiver : Connection) (g : Server.Greeted)
      (strings : List MessageBuf) (ws : List Bytes) (reads : List Packet)
      (answer : Option (UInt64 × UInt64)), sender.key = receiver.key → sender.iv = receiver.iv →
      sendAll E dir sender strings = .ok ws →
      (∀ m ∈ messages strings, 0 ∉ ciphertext E sender m) →
      (∀ B ∈ answer, B.1 < publicKeyP ∧ B.2 < publicKeyP) → Cuts (opening answer ++ ws) reads →
        Delivered E dir bfd receiver g (messages strings) reads answer := by
  intro hclaim
  have h := hclaim sampleCipher .toServer sampleBfd sampleSession sampleSession
    ⟨1, 1, 7, 7, .write 4 []⟩ sampleStrings sampleWrites
    [⟨sampleWrites[0] ++ sampleWrites[1], sampleBfd.client, by decide⟩] none rfl rfl
    (sendAll_sampleStrings _) (fun _ => zero_notMem_sampleWrites) (by simp)
    ⟨by decide, by decide⟩
  have hlen := congrArg List.length (getAll_ok h)
  rw [messages_sampleStrings] at hlen
  cases hlen

end ServerSsh

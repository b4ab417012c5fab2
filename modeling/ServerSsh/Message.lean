import ServerSsh.Encrypting.Cipher

/-!
# Send_message and Get_message

`message.c` of the two programs.  `Send_message` encrypts a C string into a
zeroed buffer and hands what `strlen` finds there to `write` or `sendto`;
`Get_message` receives into a zeroed buffer and decrypts what `strlen` finds
there into the caller's buffer.  The programs differ in the peer: the server
sends to `bfd->client` and lets `recvfrom` overwrite it, the client does both
with `bfd->admin`.  `sendMessageTo` and `decryptMessage` are the common text.

`Encrypt` and `Decrypt` take the key before the IV, and both functions pass
`bfd->iv` before `bfd->key`.  So the context of a session, `sessionCtx`, has the
start of the IV buffer as its key and the start of the key buffer as its IV.

The client leaves the program when its `write` fails.  That is the end of the
process and not a result of `Send_message`, so it has no counterpart here.
-/

namespace ServerSsh

open Libc

/-- What a returning `Send_message` has done. -/
structure Sent where
  /-- The key and the IV that reached EVP. -/
  ctx : Evp.Ctx
  /-- The system call. -/
  call : Output

/-- What a returning `Get_message` leaves behind. -/
structure Got where
  /-- The key and the IV that reached EVP. -/
  ctx : Evp.Ctx
  /-- The connection record. -/
  bfd : Connection
  /-- The caller's buffer. -/
  string : MessageBuf

/-- The context of the messages of a session. -/
def sessionCtx (bfd : Connection) : Evp.Ctx := evpInit bfd.iv bfd.key

/-- Two records with the same key material have the same context. -/
theorem sessionCtx_congr {sender receiver : Connection} (hkey : sender.key = receiver.key)
    (hiv : sender.iv = receiver.iv) : sessionCtx sender = sessionCtx receiver := by
  rw [sessionCtx, sessionCtx, hkey, hiv]

/-- `Send_message` to a given peer address. -/
def sendMessageTo (peer : SockaddrIn) (E : Evp.Cipher) (mode : Mode) (bfd : Connection)
    (string : MessageBuf) : Except Fault Sent := do
  let len ← string.strlen
  let r ← encrypt E string len bfd.iv bfd.key (Buf.zero _)
  let n ← r.out.strlen
  let data ← r.out.load n
  pure ⟨r.ctx, Output.of mode bfd.connFd bfd.sockFd peer data⟩

/-- The decryption of `Get_message`. -/
def decryptMessage (E : Evp.Cipher) (bfd : Connection) (a : Arrival) : Except Fault Ciphered := do
  let newString := Arrival.buffer a
  let n ← newString.strlen
  decrypt E newString n bfd.iv bfd.key (Buf.zero _)

namespace Server

/-- `Send_message` of the server. -/
def sendMessage (E : Evp.Cipher) (mode : Mode) (bfd : Connection) (string : MessageBuf) :
    Except Fault Sent := sendMessageTo bfd.client E mode bfd string

/-- `Get_message` of the server. -/
def getMessage (E : Evp.Cipher) (mode : Mode) (bfd : Connection) (a : Arrival) :
    Except Fault Got := do
  let bfd := { bfd with client := Arrival.peer mode bfd.client a }
  let r ← decryptMessage E bfd a
  pure ⟨r.ctx, bfd, r.out⟩

end Server

namespace Client

/-- `Send_message` of the client. -/
def sendMessage (E : Evp.Cipher) (mode : Mode) (bfd : Connection) (string : MessageBuf) :
    Except Fault Sent := sendMessageTo bfd.admin E mode bfd string

/-- `Get_message` of the client. -/
def getMessage (E : Evp.Cipher) (mode : Mode) (bfd : Connection) (a : Arrival) :
    Except Fault Got := do
  let bfd := { bfd with admin := Arrival.peer mode bfd.admin a }
  let r ← decryptMessage E bfd a
  pure ⟨r.ctx, bfd, r.out⟩

end Client

/-! ## What is sent -/

/-- The ciphertext of a message under the session context. -/
def ciphertext (E : Evp.Cipher) (bfd : Connection) (m : Bytes) : Bytes :=
  E.encipher (sessionCtx bfd) m

/-- The padded ciphertext of a string shorter than a message buffer fits in a
message buffer. -/
theorem ciphertext_length_le (E : Evp.Cipher) (bfd : Connection) {m : Bytes}
    (hm : m.length < maxCommandLenght) : (ciphertext E bfd m).length ≤ maxCommandLenght := by
  rw [ciphertext, E.encipher_length]
  change m.length < 65536 at hm
  change _ ≤ 65536
  omega

/-- `Send_message` returns exactly when the two `strlen` calls stay inside their
buffers, and then it sends the ciphertext up to its first zero byte. -/
theorem sendMessageTo_eq (peer : SockaddrIn) (E : Evp.Cipher) (mode : Mode) (bfd : Connection)
    (string : MessageBuf) :
    sendMessageTo peer E mode bfd string
      = let c := ciphertext E bfd (cut string.bytes)
        if 0 ∈ string.bytes ∧ (0 ∈ c ∨ c.length < maxCommandLenght) then
          .ok ⟨sessionCtx bfd, Output.of mode bfd.connFd bfd.sockFd peer (cut c)⟩
        else .error .outOfBounds := by
  by_cases h0 : 0 ∈ string.bytes
  · have hfit := ciphertext_length_le E bfd ((cut_length_lt h0).trans_eq string.size)
    have henc : encrypt E string (cut string.bytes).length bfd.iv bfd.key (Buf.zero _)
        = .ok ⟨sessionCtx bfd, Buf.ofBytes (ciphertext E bfd (cut string.bytes)) hfit,
            (ciphertext E bfd (cut string.bytes)).length⟩ :=
      encrypt_eq E bfd.iv bfd.key (Buf.load_cut string) hfit
    have hload := Buf.load_cut (Buf.ofBytes _ hfit)
    rw [Buf.cut_ofBytes] at hload
    rw [sendMessageTo, Buf.strlen_of_mem h0, ok_bind, henc, ok_bind]
    dsimp only
    rw [Buf.strlen_ofBytes hfit]
    by_cases hc : 0 ∈ ciphertext E bfd (cut string.bytes)
        ∨ (ciphertext E bfd (cut string.bytes)).length < maxCommandLenght
    · rw [if_pos hc, if_pos ⟨h0, hc⟩, ok_bind, hload]
      rfl
    · rw [if_neg hc, if_neg fun h => hc h.2, error_bind]
  · rw [sendMessageTo, Buf.strlen_of_notMem h0, error_bind]
    exact (if_neg fun h => h0 h.1).symm

theorem sendMessageTo_inside_iff (peer : SockaddrIn) (E : Evp.Cipher) (mode : Mode)
    (bfd : Connection) (string : MessageBuf) :
    sendMessageTo peer E mode bfd string ≠ .error .outOfBounds ↔
      0 ∈ string.bytes ∧ (0 ∈ ciphertext E bfd (cut string.bytes) ∨
        (ciphertext E bfd (cut string.bytes)).length < maxCommandLenght) := by
  rw [sendMessageTo_eq]
  dsimp only
  split
  next h => exact ⟨fun _ => h, by simp⟩
  next h => exact ⟨fun he => absurd rfl he, fun hc => absurd hc h⟩

/-- What a returning `Send_message` has done. -/
theorem sendMessageTo_ok {peer : SockaddrIn} {E : Evp.Cipher} {mode : Mode} {bfd : Connection}
    {string : MessageBuf} {sent : Sent} (h : sendMessageTo peer E mode bfd string = .ok sent) :
    let c := ciphertext E bfd (cut string.bytes)
    0 ∈ string.bytes ∧ (0 ∈ c ∨ c.length < maxCommandLenght) ∧
      sent = ⟨sessionCtx bfd, Output.of mode bfd.connFd bfd.sockFd peer (cut c)⟩ := by
  rw [sendMessageTo_eq] at h
  dsimp only at h ⊢
  split at h
  next hc =>
    cases h
    exact ⟨hc.1, hc.2, rfl⟩
  next => cases h

/-- A message that is sent was encrypted in the session context. -/
theorem sendMessageTo_ctx {peer : SockaddrIn} {E : Evp.Cipher} {mode : Mode} {bfd : Connection}
    {string : MessageBuf} {sent : Sent} (h : sendMessageTo peer E mode bfd string = .ok sent) :
    sent.ctx = sessionCtx bfd := by
  obtain ⟨-, -, rfl⟩ := sendMessageTo_ok h
  rfl

/-! ## What is received -/

/-- `Get_message` returns exactly when the received data has a zero byte or
leaves room for one, and then its buffer holds what the decryption of the data
up to its first zero byte writes. -/
theorem decryptMessage_eq (E : Evp.Cipher) (bfd : Connection) (a : Arrival) :
    decryptMessage E bfd a
      = let d := cut (Arrival.data a)
        if 0 ∈ Arrival.data a ∨ (Arrival.data a).length < maxCommandLenght then
          .ok ⟨sessionCtx bfd, Buf.ofBytes (E.decipher (sessionCtx bfd) d)
            ((E.decipher_length_le _ _).trans
              ((cut_length_le _).trans (Arrival.data_length_le a))),
            (E.decipher (sessionCtx bfd) d).length⟩
        else .error .outOfBounds := by
  have hload := Buf.load_cut (Arrival.buffer a)
  have hcut : cut (Arrival.buffer a).bytes = cut (Arrival.data a) := Buf.cut_ofBytes _
  rw [hcut] at hload
  dsimp only
  rw [decryptMessage, show (Arrival.buffer a).strlen = _ from Buf.strlen_ofBytes _]
  split
  · rw [ok_bind]
    exact decrypt_eq E bfd.iv bfd.key hload _
  · rfl

/-- The C string that `Get_message` leaves for the received data. -/
def received (E : Evp.Cipher) (bfd : Connection) (data : Bytes) : Bytes :=
  cut (E.decipher (sessionCtx bfd) (cut data))

/-- The decryption of data that has a zero byte or leaves room for one leaves
room for a terminator. -/
theorem decipher_cut_length_lt (E : Evp.Cipher) (ctx : Evp.Ctx) {a : Arrival}
    (h : 0 ∈ Arrival.data a ∨ (Arrival.data a).length < maxCommandLenght) :
    (E.decipher ctx (cut (Arrival.data a))).length < maxCommandLenght := by
  have hcut : (cut (Arrival.data a)).length < maxCommandLenght := by
    rcases h with h | h
    · exact (cut_length_lt h).trans_le (Arrival.data_length_le a)
    · exact (cut_length_le _).trans_lt h
  exact (E.decipher_length_le ..).trans_lt hcut

theorem received_length_lt (E : Evp.Cipher) (bfd : Connection) {a : Arrival}
    (h : 0 ∈ Arrival.data a ∨ (Arrival.data a).length < maxCommandLenght) :
    (received E bfd (Arrival.data a)).length < maxCommandLenght :=
  (cut_length_le _).trans_lt (decipher_cut_length_lt E _ h)

theorem decryptMessage_string (E : Evp.Cipher) (bfd : Connection) {a : Arrival}
    (h : 0 ∈ Arrival.data a ∨ (Arrival.data a).length < maxCommandLenght) :
    ∃ r, decryptMessage E bfd a = .ok r ∧
      r.out.cstring 0 = .ok (received E bfd (Arrival.data a)) := by
  have hlt := decipher_cut_length_lt E (sessionCtx bfd) h
  refine ⟨_, (decryptMessage_eq E bfd a).trans (if_pos h), ?_⟩
  exact Buf.cstring_zero_eq_ok.mpr
    ⟨(Buf.zero_mem_ofBytes hlt.le).mpr (Or.inr hlt), Buf.cut_ofBytes hlt.le⟩

/-- What a returning decryption has done. -/
theorem decryptMessage_ok {E : Evp.Cipher} {bfd : Connection} {a : Arrival} {r : Ciphered}
    (h : decryptMessage E bfd a = .ok r) :
    r.ctx = sessionCtx bfd ∧ cut r.out.bytes = received E bfd (Arrival.data a) := by
  rw [decryptMessage_eq] at h
  dsimp only at h
  split at h
  · cases h
    dsimp only
    rw [Buf.cut_ofBytes]
    exact ⟨rfl, rfl⟩
  · cases h

/-- The address that `recvfrom` overwrites does not enter the decryption. -/
theorem decryptMessage_congr (E : Evp.Cipher) {bfd bfd' : Connection} (hkey : bfd.key = bfd'.key)
    (hiv : bfd.iv = bfd'.iv) (a : Arrival) : decryptMessage E bfd a = decryptMessage E bfd' a := by
  rw [decryptMessage, decryptMessage, hkey, hiv]

theorem Server.getMessage_eq (E : Evp.Cipher) (mode : Mode) (bfd : Connection) (a : Arrival) :
    Server.getMessage E mode bfd a = (decryptMessage E bfd a).map fun r =>
      ⟨r.ctx, { bfd with client := Arrival.peer mode bfd.client a }, r.out⟩ := by
  have hd : decryptMessage E { bfd with client := Arrival.peer mode bfd.client a } a
      = decryptMessage E bfd a := decryptMessage_congr E rfl rfl a
  simp only [Server.getMessage, hd]
  cases decryptMessage E bfd a <;> rfl

theorem Client.getMessage_eq (E : Evp.Cipher) (mode : Mode) (bfd : Connection) (a : Arrival) :
    Client.getMessage E mode bfd a = (decryptMessage E bfd a).map fun r =>
      ⟨r.ctx, { bfd with admin := Arrival.peer mode bfd.admin a }, r.out⟩ := by
  have hd : decryptMessage E { bfd with admin := Arrival.peer mode bfd.admin a } a
      = decryptMessage E bfd a := decryptMessage_congr E rfl rfl a
  simp only [Client.getMessage, hd]
  cases decryptMessage E bfd a <;> rfl

end ServerSsh

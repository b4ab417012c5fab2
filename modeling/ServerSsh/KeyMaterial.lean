import ServerSsh.Encrypting.Keys
import ServerSsh.Evp.Cbc
import ServerSsh.Message

/-!
# The key under which messages are encrypted

The key set-up leaves the first 32 characters of `K1K2K1K2..` in the key buffer
and the first 16 characters of `K2K1K2K1..` in the IV buffer.  `DerivedKey` says
that these are what reaches EVP.  `Send_message` and `Get_message` pass the two
buffers in the other order, so what reaches EVP as the 32-byte key is the start
of the IV buffer: at most 16 characters, and zeros after them.
-/

namespace ServerSsh

open Libc

/-- The key and the IV in use are the derived ones, and the key is all
digits. -/
structure DerivedKey (K1 K2 : UInt64) (ctx : Evp.Ctx) : Prop where
  key : ctx.key = (keyText K1 K2).take 32
  digits : ∀ b ∈ ctx.key, isDigit b = true
  iv : ctx.iv = (keyText K2 K1).take 16

/-- Every message of a session, in both programs and both ways, is encrypted or
decrypted under the derived key. -/
structure RunsUnderDerivedKey (E : Evp.Cipher) (K1 K2 : UInt64) (bfd : Connection) : Prop where
  serverSend {mode : Mode} {string : MessageBuf} {sent : Sent} :
    Server.sendMessage E mode bfd string = .ok sent → DerivedKey K1 K2 sent.ctx
  serverGet {mode : Mode} {a : Arrival} {got : Got} :
    Server.getMessage E mode bfd a = .ok got → DerivedKey K1 K2 got.ctx
  clientSend {mode : Mode} {string : MessageBuf} {sent : Sent} :
    Client.sendMessage E mode bfd string = .ok sent → DerivedKey K1 K2 sent.ctx
  clientGet {mode : Mode} {a : Arrival} {got : Got} :
    Client.getMessage E mode bfd a = .ok got → DerivedKey K1 K2 got.ctx

/-! ## What reaches EVP -/

/-- A string filled up with zeros. -/
def zeroPad (k : Nat) (s : Bytes) : Bytes := s ++ List.replicate (k - s.length) 0

theorem sessionCtx_key {bfd session : Connection} {K1 K2 : UInt64}
    (h : keySetUp bfd K1 K2 = .ok session) :
    (sessionCtx session).key = zeroPad 32 ((keyText K2 K1).take 16) := by
  rw [keySetUp_eq] at h
  cases h
  have hle : ((keyText K2 K1).take 16).length ≤ 32 := by rw [List.length_take]; omega
  change (ivBuf K1 K2).bytes.take 32 = _
  rw [ivBuf, Buf.take_ofBytes _ (by decide), List.take_of_length_le hle]
  rfl

theorem sessionCtx_iv {bfd session : Connection} {K1 K2 : UInt64}
    (h : keySetUp bfd K1 K2 = .ok session) :
    (sessionCtx session).iv = zeroPad 16 ((keyText K1 K2).take 16) := by
  rw [keySetUp_eq] at h
  cases h
  have htake : ((keyText K1 K2).take 32).take 16 = (keyText K1 K2).take 16 := by
    rw [List.take_take]
    rfl
  change (keyBuf K1 K2).bytes.take 16 = _
  rw [keyBuf, Buf.take_ofBytes _ (by decide), htake]
  rfl

/-- The second half of the key in use is zeros. -/
theorem not_derivedKey {bfd session : Connection} {K1 K2 : UInt64}
    (h : keySetUp bfd K1 K2 = .ok session) : ¬ DerivedKey K1 K2 (sessionCtx session) := by
  intro hd
  have hmem : (0 : UInt8) ∈ (sessionCtx session).key := by
    rw [sessionCtx_key h, zeroPad, List.mem_append, List.mem_replicate, List.length_take]
    exact Or.inr ⟨by omega, rfl⟩
  have := hd.digits 0 hmem
  simp [isDigit] at this

theorem Server.getMessage_ctx {E : Evp.Cipher} {mode : Mode} {bfd : Connection} {a : Arrival}
    {got : Got} (h : Server.getMessage E mode bfd a = .ok got) : got.ctx = sessionCtx bfd := by
  rw [Server.getMessage_eq] at h
  obtain ⟨r, hr, rfl⟩ := map_eq_ok.mp h
  exact (decryptMessage_ok hr).1

theorem Client.getMessage_ctx {E : Evp.Cipher} {mode : Mode} {bfd : Connection} {a : Arrival}
    {got : Got} (h : Client.getMessage E mode bfd a = .ok got) : got.ctx = sessionCtx bfd := by
  rw [Client.getMessage_eq] at h
  obtain ⟨r, hr, rfl⟩ := map_eq_ok.mp h
  exact (decryptMessage_ok hr).1

/-- A failed read leaves an empty buffer, which is decrypted. -/
theorem Server.getMessage_none (E : Evp.Cipher) (mode : Mode) (bfd : Connection) :
    ∃ got, Server.getMessage E mode bfd none = .ok got := by
  have hlt : (Arrival.data none).length < maxCommandLenght := by decide
  rw [Server.getMessage_eq, decryptMessage_eq]
  dsimp only
  rw [if_pos (Or.inr hlt)]
  exact ⟨_, rfl⟩

theorem not_runsUnderDerivedKey (E : Evp.Cipher) {bfd session : Connection} {K1 K2 : UInt64}
    (h : keySetUp bfd K1 K2 = .ok session) : ¬ RunsUnderDerivedKey E K1 K2 session := by
  intro hr
  obtain ⟨got, hg⟩ := Server.getMessage_none E .tcp session
  exact not_derivedKey h (Server.getMessage_ctx hg ▸ hr.serverGet hg)

/-! ## A session

The session whose secret numbers are `3827876` and `20912969`.  They come from
the exponents `1804289383` and `846930886` on the server and `1681692777` and
`1714636915` on the client. -/

/-- A record before the key set-up. -/
def sampleBfd : Connection where
  client := ⟨2, 0xe863, 0x0100007f⟩
  admin := ⟨2, 0xa15b, 0⟩
  sockFd := 3
  connFd := 4
  key := Buf.zero _
  iv := Buf.zero _

/-- The record after it. -/
def sampleSession : Connection :=
  { sampleBfd with key := keyBuf 3827876 20912969, iv := ivBuf 3827876 20912969 }

theorem keySetUp_sample : keySetUp sampleBfd 3827876 20912969 = .ok sampleSession :=
  keySetUp_eq ..

/-- The context of its messages. -/
def sampleCtx : Evp.Ctx where
  key := ascii "2091296938278762" ++ List.replicate 16 0
  iv := ascii "3827876209129693"
  key_size := rfl
  iv_size := rfl

/-- Blocks and their AES-256 images under the key of `sampleCtx`: the first block
of `pwd`, of `id` and of `ls`, each with a newline, and the first two blocks of
`rm -rf /home/user/build/cache-old`, all as CBC presents them. -/
def sampleBlocks : List (Bytes × Bytes) :=
  [([67, 79, 86, 61, 52, 59, 58, 62, 60, 53, 61, 62, 53, 58, 53, 63],
    [87, 0, 208, 23, 190, 135, 177, 164, 195, 96, 120, 236, 137, 54, 43, 18]),
   ([90, 92, 56, 58, 53, 58, 59, 63, 61, 52, 60, 63, 52, 59, 52, 62],
    [188, 57, 222, 65, 149, 136, 29, 124, 204, 190, 207, 236, 74, 78, 218, 70]),
   ([95, 75, 56, 58, 53, 58, 59, 63, 61, 52, 60, 63, 52, 59, 52, 62],
    [153, 71, 7, 186, 171, 169, 68, 177, 144, 216, 30, 100, 182, 48, 226, 171]),
   ([65, 85, 18, 26, 74, 81, 22, 29, 88, 86, 92, 87, 22, 67, 74, 86],
    [193, 240, 189, 182, 113, 197, 3, 12, 2, 185, 6, 27, 65, 152, 220, 58]),
   ([179, 223, 223, 195, 24, 169, 103, 35, 97, 216, 101, 115, 36, 181, 179, 86],
    [49, 246, 66, 235, 90, 74, 244, 226, 11, 55, 73, 49, 153, 217, 249, 60])]

/-- A cipher that agrees with AES-256-CBC on these blocks. -/
def sampleCipher : Evp.Cipher := (Evp.ofPairs sampleBlocks (by decide)).cbc

theorem sessionCtx_sample : sessionCtx sampleSession = sampleCtx := by
  have hk : (sessionCtx sampleSession).key = sampleCtx.key :=
    (sessionCtx_key keySetUp_sample).trans (by decide)
  have hv : (sessionCtx sampleSession).iv = sampleCtx.iv :=
    (sessionCtx_iv keySetUp_sample).trans (by decide)
  cases hs : sessionCtx sampleSession
  rw [hs] at hk hv
  cases hk
  cases hv
  rfl

/-! ## No session uses the derived key -/

/-- No message of any session, in either program and either way, is handled
under the derived key. -/
theorem never_under_derived_key (E : Evp.Cipher) {bfd session : Connection} {K1 K2 : UInt64}
    (h : keySetUp bfd K1 K2 = .ok session) :
    (∀ mode string sent, Server.sendMessage E mode session string = .ok sent →
      ¬ DerivedKey K1 K2 sent.ctx) ∧
    (∀ mode a got, Server.getMessage E mode session a = .ok got → ¬ DerivedKey K1 K2 got.ctx) ∧
    (∀ mode string sent, Client.sendMessage E mode session string = .ok sent →
      ¬ DerivedKey K1 K2 sent.ctx) ∧
    (∀ mode a got, Client.getMessage E mode session a = .ok got → ¬ DerivedKey K1 K2 got.ctx) ∧
    ¬ RunsUnderDerivedKey E K1 K2 session := by
  have hn := not_derivedKey h
  refine ⟨?_, ?_, ?_, ?_, not_runsUnderDerivedKey E h⟩
  · intro mode string sent hs
    rwa [sendMessageTo_ctx hs]
  · intro mode a got hg
    rwa [Server.getMessage_ctx hg]
  · intro mode string sent hs
    rwa [sendMessageTo_ctx hs]
  · intro mode a got hg
    rwa [Client.getMessage_ctx hg]

theorem never_under_derived_key_sample :
    ¬ RunsUnderDerivedKey sampleCipher 3827876 20912969 sampleSession :=
  (never_under_derived_key _ keySetUp_sample).2.2.2.2

/-- Numbers below the modulus do not make the session run under the derived
key. -/
theorem derived_key_not_used :
    ¬ ∀ (E : Evp.Cipher) (K1 K2 : UInt64) (bfd session : Connection),
      K1 < publicKeyP → K2 < publicKeyP → keySetUp bfd K1 K2 = .ok session →
        RunsUnderDerivedKey E K1 K2 session := by
  intro hclaim
  refine not_runsUnderDerivedKey sampleCipher keySetUp_sample ?_
  exact hclaim _ 3827876 20912969 sampleBfd sampleSession (by decide) (by decide) keySetUp_sample

end ServerSsh

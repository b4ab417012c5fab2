import ServerSsh.KeyMaterial

/-!
# The round trip of a message

`Send_message` hands over the ciphertext up to its first zero byte, although
`Encrypt` returns the real length, and `Get_message` decrypts what it reads up to
the first zero byte.  `roundTrips_iff` says for which messages the peer still
gets the message back: when the ciphertext has no zero byte, and in one more
case.  A message whose length is a multiple of the block size is followed by a
whole block of padding.  When the cut falls inside that block, past its first
byte, the Update call still writes the whole message and only the Final call
fails, which nobody looks at.

`cut_decipher_cut_iff` is the statement about the cipher alone.
-/

namespace ServerSsh

open Libc

/-- The message survives the cut of its ciphertext `c`. -/
def Recoverable (m c : Bytes) : Prop :=
  0 ∉ c ∨ m.length % 16 = 0 ∧ (m = [] ∨ 0 ∉ c.take (m.length + 1))

/-! ## The cipher alone -/

section Cut

variable (E : Evp.Cipher) (ctx : Evp.Ctx)

/-- A ciphertext that is cut at a block boundary loses the end of the message:
its last whole block is held back as padding. -/
theorem decipher_length_lt_of_aligned {d : Bytes} (hne : d ≠ []) (hd : d.length % 16 = 0) :
    (E.decipher ctx d).length + 1 ≤ d.length := by
  have hu := E.decryptUpdate_length ctx d
  have hb : Evp.updateBlocks d.length = d.length / 16 - 1 := if_pos hd
  have hpos := List.length_pos_iff.mpr hne
  have hq : ((E.decryptFinal ctx d).getD []).length < 16 := by
    cases h : E.decryptFinal ctx d with
    | none => simp
    | some q => exact E.decryptFinal_length h
  rw [Evp.Cipher.decipher, List.length_append, hu, hb]
  omega

/-- A ciphertext that is cut inside a block gives its complete blocks. -/
theorem decipher_of_unaligned {d : Bytes} (hd : d.length % 16 ≠ 0) :
    E.decipher ctx d = E.decryptUpdate ctx d ∧
      (E.decipher ctx d).length = 16 * (d.length / 16) := by
  have he := E.decipher_of_none (E.decryptFinal_eq_none ctx hd)
  have hb : Evp.updateBlocks d.length = d.length / 16 := if_neg hd
  exact ⟨he, by rw [he, E.decryptUpdate_length, hb]⟩

/-- The Update call alone gives a message whose length is a multiple of the
block size. -/
theorem decryptUpdate_encipher {m : Bytes} (hm : m.length % 16 = 0) :
    E.decryptUpdate ctx (E.encipher ctx m) = m := by
  obtain ⟨q, hq, hu⟩ := E.decrypt_encrypt ctx m
  have hlen := congrArg List.length hu
  have hc := E.encipher_length ctx m
  have hb : Evp.updateBlocks (16 * (m.length / 16 + 1)) = m.length / 16 := by
    unfold Evp.updateBlocks
    split <;> omega
  rw [Evp.Cipher.encipher] at hc ⊢
  rw [List.length_append, E.decryptUpdate_length, hc, hb] at hlen
  have hq0 : q = [] := List.eq_nil_of_length_eq_zero (by omega)
  rw [hq0, List.append_nil] at hu
  exact hu

variable {m : Bytes}

/-- What the cut of a ciphertext leaves is shorter than the ciphertext when
there is something to cut. -/
theorem cut_encipher_length (h0 : 0 ∈ E.encipher ctx m) :
    (cut (E.encipher ctx m)).length < 16 * (m.length / 16 + 1) :=
  (cut_length_lt h0).trans_eq (E.encipher_length ctx m)

/-- If the message comes back although its ciphertext was cut, the cut fell in
the block of padding. -/
theorem recoverable_of_decipher_cut (h0 : 0 ∈ E.encipher ctx m)
    (h : cut (E.decipher ctx (cut (E.encipher ctx m))) = m) :
    m.length % 16 = 0 ∧ (m = [] ∨ 0 ∉ (E.encipher ctx m).take (m.length + 1)) := by
  have hlt := cut_encipher_length E ctx h0
  have hle : m.length ≤ (E.decipher ctx (cut (E.encipher ctx m))).length := by
    conv_lhs => rw [← h]
    exact cut_length_le _
  by_cases hal : (cut (E.encipher ctx m)).length % 16 = 0
  · -- At a block boundary more than the padding is lost.
    have hnil : cut (E.encipher ctx m) = [] := by
      by_contra hne
      have := decipher_length_lt_of_aligned E ctx hne hal
      have := List.length_pos_iff.mpr hne
      omega
    rw [hnil] at hle
    have hm : m = [] :=
      List.length_eq_zero_iff.mp (Nat.le_zero.mp (hle.trans (E.decipher_length_le ctx [])))
    subst hm
    exact ⟨rfl, Or.inl rfl⟩
  · rw [(decipher_of_unaligned E ctx hal).2] at hle
    have hge : m.length + 1 ≤ (cut (E.encipher ctx m)).length := by omega
    refine ⟨by omega, Or.inr fun hmem => ?_⟩
    have hz := zero_notMem_cut (E.encipher ctx m)
    rw [← take_cut_length] at hz
    exact hz (List.take_subset_take_left _ hge hmem)

/-- The cut may fall inside the block of padding. -/
theorem decipher_cut_of_recoverable (hm0 : 0 ∉ m) (h0 : 0 ∈ E.encipher ctx m)
    (hal : m.length % 16 = 0) (h : m = [] ∨ 0 ∉ (E.encipher ctx m).take (m.length + 1)) :
    cut (E.decipher ctx (cut (E.encipher ctx m))) = m := by
  have hlt := cut_encipher_length E ctx h0
  rcases h with rfl | h
  · -- Nothing of a single cut block is written.
    rw [E.decipher_of_lt ctx hlt, cut_nil]
  · have hge : m.length + 1 ≤ (cut (E.encipher ctx m)).length := by
      by_contra hcon
      obtain ⟨t, ht⟩ := cut_isPrefix (E.encipher ctx m)
      have hmem : (0 : UInt8) ∈ (E.encipher ctx m).take ((cut (E.encipher ctx m)).length + 1) := by
        rw [take_succ_cut_length h0]
        exact List.mem_append_right _ (List.mem_singleton_self _)
      exact h (List.take_subset_take_left _ (by omega) hmem)
    have hd : (cut (E.encipher ctx m)).length % 16 ≠ 0 := by omega
    obtain ⟨he, hlen⟩ := decipher_of_unaligned E ctx hd
    have hpre : E.decryptUpdate ctx (cut (E.encipher ctx m)) <+: m := by
      obtain ⟨t, ht⟩ := cut_isPrefix (E.encipher ctx m)
      have := E.decryptUpdate_append ctx (cut (E.encipher ctx m)) t
      rwa [ht, decryptUpdate_encipher E ctx hal] at this
    rw [he, hpre.eq_of_length (by rw [← he, hlen]; omega), cut_eq_self hm0]

/-- Exactly the recoverable messages come back from their cut ciphertext. -/
theorem cut_decipher_cut_iff (hm0 : 0 ∉ m) :
    cut (E.decipher ctx (cut (E.encipher ctx m))) = m ↔ Recoverable m (E.encipher ctx m) := by
  by_cases h0 : 0 ∈ E.encipher ctx m
  · constructor
    · intro h
      exact Or.inr (recoverable_of_decipher_cut E ctx h0 h)
    · rintro (h | ⟨hal, h⟩)
      · exact absurd h0 h
      · exact decipher_cut_of_recoverable E ctx hm0 h0 hal h
  · rw [cut_eq_self h0, E.decipher_encipher, cut_eq_self hm0]
    exact ⟨fun _ => Or.inl h0, fun _ => rfl⟩

end Cut

/-! ## The two programs -/

/-- The direction of a message. -/
inductive Direction where
  | toServer
  | toClient
deriving DecidableEq, Repr

namespace Direction

/-- `Send_message` of the sending program. -/
def send : Direction → Evp.Cipher → Mode → Connection → MessageBuf → Except Fault Sent
  | toServer => Client.sendMessage
  | toClient => Server.sendMessage

/-- `Get_message` of the receiving program. -/
def get : Direction → Evp.Cipher → Mode → Connection → Arrival → Except Fault Got
  | toServer => Server.getMessage
  | toClient => Client.getMessage

variable (dir : Direction) (E : Evp.Cipher) (mode : Mode) (bfd : Connection)

/-- What reaches the kernel when `Send_message` returns. -/
theorem send_data {string : MessageBuf} (h0 : 0 ∈ string.bytes)
    (hfit : (ciphertext E bfd (cut string.bytes)).length < maxCommandLenght) :
    ∃ sent, dir.send E mode bfd string = .ok sent ∧
      sent.call.data = cut (ciphertext E bfd (cut string.bytes)) := by
  have heq := fun peer => (sendMessageTo_eq peer E mode bfd string).trans
    (if_pos ⟨h0, Or.inr hfit⟩)
  cases dir with
  | toServer => exact ⟨_, heq bfd.admin, Output.data_of ..⟩
  | toClient => exact ⟨_, heq bfd.client, Output.data_of ..⟩

/-- The C string that `Get_message` leaves. -/
theorem get_string {a : Arrival}
    (h : 0 ∈ Arrival.data a ∨ (Arrival.data a).length < maxCommandLenght) :
    ∃ got, dir.get E mode bfd a = .ok got ∧
      got.string.cstring 0 = .ok (received E bfd (Arrival.data a)) := by
  obtain ⟨r, hr, hs⟩ := decryptMessage_string E bfd h
  cases dir with
  | toServer => exact ⟨_, (Server.getMessage_eq ..).trans (congrArg (Except.map _) hr), hs⟩
  | toClient => exact ⟨_, (Client.getMessage_eq ..).trans (congrArg (Except.map _) hr), hs⟩

/-- Data without a terminator takes `Get_message` out of its buffer. -/
theorem get_unterminated {a : Arrival}
    (h : ¬ (0 ∈ Arrival.data a ∨ (Arrival.data a).length < maxCommandLenght)) :
    dir.get E mode bfd a = .error .outOfBounds := by
  have hd : decryptMessage E bfd a = .error .outOfBounds :=
    (decryptMessage_eq E bfd a).trans (if_neg h)
  cases dir with
  | toServer => rw [get, Server.getMessage_eq, hd]; rfl
  | toClient => rw [get, Client.getMessage_eq, hd]; rfl

end Direction

/-- The peer gets the message `m` in the buffer `string` back when its read
returns what `Send_message` handed over. -/
def RoundTrips (E : Evp.Cipher) (mode : Mode) (dir : Direction) (sender receiver : Connection)
    (string : MessageBuf) (m : Bytes) : Prop :=
  ∃ sent, dir.send E mode sender string = .ok sent ∧
    ∀ p : Packet, p.data = sent.call.data →
      ∃ got, dir.get E mode receiver (some p) = .ok got ∧ got.string.cstring 0 = .ok m

/-- The round trip is a matter of what the peer decrypts. -/
theorem roundTrips_iff_received (E : Evp.Cipher) (mode : Mode) (dir : Direction)
    {sender receiver : Connection} {string : MessageBuf} {m : Bytes}
    (hs : string.cstring 0 = .ok m) (hfit : 16 * (m.length / 16 + 1) < maxCommandLenght) :
    RoundTrips E mode dir sender receiver string m
      ↔ received E receiver (cut (ciphertext E sender m)) = m := by
  obtain ⟨h0, rfl⟩ := Buf.cstring_zero_eq_ok.mp hs
  have hlen : (ciphertext E sender (cut string.bytes)).length < maxCommandLenght :=
    (E.encipher_length ..).trans_lt hfit
  have hcut := (cut_length_le _).trans_lt hlen
  obtain ⟨sent, hsend, hdata⟩ := dir.send_data E mode sender h0 hlen
  have hget : ∀ p : Packet, p.data = sent.call.data → ∃ got,
      dir.get E mode receiver (some p) = .ok got ∧ got.string.cstring 0
        = .ok (received E receiver (cut (ciphertext E sender (cut string.bytes)))) := by
    intro p hp
    have harr : Arrival.data (some p) = cut (ciphertext E sender (cut string.bytes)) :=
      hp.trans hdata
    rw [← harr] at hcut ⊢
    exact dir.get_string E mode receiver (Or.inr hcut)
  constructor
  · rintro ⟨sent', hsend', hall⟩
    obtain rfl : sent = sent' := Except.ok.inj (hsend.symm.trans hsend')
    let p : Packet := ⟨sent.call.data, sender.client, hdata ▸ hcut.le⟩
    obtain ⟨got, hgot, hstr⟩ := hget p rfl
    obtain ⟨got', hgot', hstr'⟩ := hall p rfl
    obtain rfl : got = got' := Except.ok.inj (hgot.symm.trans hgot')
    exact Except.ok.inj (hstr.symm.trans hstr')
  · intro hrec
    refine ⟨sent, hsend, fun p hp => ?_⟩
    obtain ⟨got, hgot, hstr⟩ := hget p hp
    exact ⟨got, hgot, hstr.trans (congrArg Except.ok hrec)⟩

theorem received_cut_iff (E : Evp.Cipher) {sender receiver : Connection}
    (hctx : sessionCtx sender = sessionCtx receiver) {m : Bytes} (hm0 : 0 ∉ m) :
    received E receiver (cut (ciphertext E sender m)) = m
      ↔ Recoverable m (ciphertext E sender m) := by
  rw [received, cut_cut, ← hctx]
  exact cut_decipher_cut_iff E (sessionCtx sender) hm0

/-- A ciphertext without a zero byte is decrypted to its message. -/
theorem received_ciphertext (E : Evp.Cipher) {sender receiver : Connection}
    (hctx : sessionCtx sender = sessionCtx receiver) {m : Bytes} (hm0 : 0 ∉ m)
    (hc : 0 ∉ ciphertext E sender m) : received E receiver (ciphertext E sender m) = m := by
  have h := (received_cut_iff E hctx hm0).mpr (Or.inl hc)
  rwa [cut_eq_self hc] at h

/-- A message makes its round trip exactly when it survives the cut of its
ciphertext. -/
theorem roundTrips_iff (E : Evp.Cipher) (mode : Mode) (dir : Direction)
    {sender receiver : Connection} (hkey : sender.key = receiver.key)
    (hiv : sender.iv = receiver.iv) {string : MessageBuf} {m : Bytes}
    (hs : string.cstring 0 = .ok m) (hfit : 16 * (m.length / 16 + 1) < maxCommandLenght) :
    RoundTrips E mode dir sender receiver string m ↔ Recoverable m (ciphertext E sender m) := by
  have hm0 : 0 ∉ m := by
    obtain ⟨-, rfl⟩ := Buf.cstring_zero_eq_ok.mp hs
    exact zero_notMem_cut _
  exact (roundTrips_iff_received E mode dir hs hfit).trans
    (received_cut_iff E (sessionCtx_congr hkey hiv) hm0)

theorem ciphertext_id : 0 ∉ ciphertext sampleCipher sampleSession (ascii "id\n") := by
  rw [ciphertext, sessionCtx_sample]
  decide

/-- The command `id` makes its round trip. -/
theorem roundTrips_iff_id :
    RoundTrips sampleCipher .tcp .toServer sampleSession sampleSession
      (Buf.ofBytes (ascii "id\n") (by decide)) (ascii "id\n") := by
  exact (roundTrips_iff _ _ _ rfl rfl (Buf.cstring_ofBytes (by decide) (by decide))
    (by decide)).mpr (Or.inl ciphertext_id)

/-- The second byte of the ciphertext of `pwd` is a zero. -/
theorem roundTrips_fails :
    ¬ ∀ (E : Evp.Cipher) (mode : Mode) (dir : Direction) (sender receiver : Connection)
      (string : MessageBuf) (m : Bytes), sender.key = receiver.key → sender.iv = receiver.iv →
      string.cstring 0 = .ok m → 16 * (m.length / 16 + 1) < maxCommandLenght →
        RoundTrips E mode dir sender receiver string m := by
  intro hclaim
  have hs : Buf.cstring (n := maxCommandLenght) (Buf.ofBytes (ascii "pwd\n") (by decide)) 0
      = .ok (ascii "pwd\n") := Buf.cstring_ofBytes (by decide) (by decide)
  have h := hclaim sampleCipher .tcp .toServer sampleSession sampleSession _ _ rfl rfl hs
    (by decide)
  rw [roundTrips_iff_received _ _ _ hs (by decide), received, ciphertext, sessionCtx_sample] at h
  revert h
  decide

end ServerSsh

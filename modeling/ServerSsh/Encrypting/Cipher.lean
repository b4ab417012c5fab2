import ServerSsh.Headers
import ServerSsh.Evp.Interface

/-!
# Encrypt and Decrypt

`encrypt` and `decrypt` are `Encrypt` and `Decrypt`, the same text in both
programs, over any `Evp.Cipher`.  Both write the output of the Update call at
the start of the output buffer and the output of the Final call right after it.
`Decrypt` does not look at what `EVP_DecryptFinal_ex` returns.

The result also carries the context, which is the record of what reached EVP as
the key and as the IV.
-/

namespace ServerSsh

open Libc

/-- What a call of `Encrypt` or `Decrypt` leaves behind. -/
structure Ciphered where
  /-- The key and the IV that reached EVP. -/
  ctx : Evp.Ctx
  /-- The output buffer. -/
  out : MessageBuf
  /-- The return value. -/
  len : Nat

/-- The EVP context for two pointers to message buffers. -/
def evpInit (key iv : MessageBuf) : Evp.Ctx := Evp.initEx key iv (by decide)

/-- `Encrypt`. -/
def encrypt (E : Evp.Cipher) (plaintext : MessageBuf) (plaintextLen : Nat) (key iv : MessageBuf)
    (ciphertext : MessageBuf) : Except Fault Ciphered := do
  let ctx := evpInit key iv
  let p ← plaintext.load plaintextLen
  let ciphertext ← ciphertext.write 0 (E.encryptUpdate ctx p)
  let len := (E.encryptUpdate ctx p).length
  let ciphertext ← ciphertext.write len (E.encryptFinal ctx p)
  pure ⟨ctx, ciphertext, len + (E.encryptFinal ctx p).length⟩

/-- `Decrypt`. -/
def decrypt (E : Evp.Cipher) (ciphertext : MessageBuf) (ciphertextLen : Nat) (key iv : MessageBuf)
    (plaintext : MessageBuf) : Except Fault Ciphered := do
  let ctx := evpInit key iv
  let d ← ciphertext.load ciphertextLen
  let plaintext ← plaintext.write 0 (E.decryptUpdate ctx d)
  let len := (E.decryptUpdate ctx d).length
  -- A failing Final call writes nothing and sets its length to 0.
  let last := (E.decryptFinal ctx d).getD []
  let plaintext ← plaintext.write len last
  pure ⟨ctx, plaintext, len + last.length⟩

/-- Two writes in a row into a zeroed buffer. -/
theorem write_two {u v : Bytes} (h : (u ++ v).length ≤ maxCommandLenght) :
    ((Buf.zero maxCommandLenght).write 0 u >>= fun b => b.write u.length v)
      = .ok (Buf.ofBytes (u ++ v) h) := by
  have hu : u.length ≤ maxCommandLenght := by
    rw [List.length_append] at h
    omega
  rw [Buf.write_zero, dif_pos hu, ok_bind, Buf.write_ofBytes hu, dif_pos h]

/-- Into a zeroed buffer with room for it, `Encrypt` writes the ciphertext. -/
theorem encrypt_eq (E : Evp.Cipher) {plaintext : MessageBuf} {len : Nat} (key iv : MessageBuf)
    {p : Bytes} (hp : plaintext.load len = .ok p)
    (h : (E.encipher (evpInit key iv) p).length ≤ maxCommandLenght) :
    encrypt E plaintext len key iv (Buf.zero _)
      = .ok ⟨evpInit key iv, Buf.ofBytes _ h, (E.encipher (evpInit key iv) p).length⟩ := by
  obtain ⟨b, hb, hw⟩ := bind_eq_ok.mp (write_two h)
  simp only [encrypt, hp, hb, hw, ok_bind, ← List.length_append]
  rfl

/-- Into a zeroed buffer `Decrypt` writes what the two EVP calls output. -/
theorem decrypt_eq (E : Evp.Cipher) {ciphertext : MessageBuf} {len : Nat} (key iv : MessageBuf)
    {d : Bytes} (hd : ciphertext.load len = .ok d)
    (h : (E.decipher (evpInit key iv) d).length ≤ maxCommandLenght) :
    decrypt E ciphertext len key iv (Buf.zero _)
      = .ok ⟨evpInit key iv, Buf.ofBytes _ h, (E.decipher (evpInit key iv) d).length⟩ := by
  obtain ⟨b, hb, hw⟩ := bind_eq_ok.mp (write_two h)
  simp only [decrypt, hd, hb, hw, ok_bind, ← List.length_append]
  rfl

end ServerSsh

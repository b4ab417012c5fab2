import ServerSsh.Libc.Memory

/-!
# The EVP cipher calls

The library calls of one AES-256-CBC operation, as their documentation
describes them.  A `Ctx` is what `EVP_EncryptInit_ex` or `EVP_DecryptInit_ex`
reads through its key and IV pointers.  A `Cipher` gives what the Update and the
Final call write, for a whole operation with one Update call: `encryptUpdate`
and `decryptUpdate` take the data of the Update call, `encryptFinal` and
`decryptFinal` what is written after that Update call.  `decryptFinal` is `none`
when `EVP_DecryptFinal_ex` reports an error.

The fields after the four functions are the documented behaviour.

* Encryption pads to a multiple of the block size, with one whole block of
  padding when the data is a multiple already.
* Decryption holds the last block back when the data ends at a block boundary,
  since it may hold the padding, and never writes an incomplete block.
* Update is a streaming call: what it writes for a part of the data is the start
  of what it writes for all of it.
* Final writes less than a block, and fails unless the data is a non-empty
  multiple of the block size.
* Decryption under the same key and IV inverts encryption, and the padding is
  `n` bytes of value `n`.
-/

namespace Evp

open Libc

/-- The key and the IV of one operation. -/
structure Ctx where
  /-- The 256-bit key. -/
  key : Bytes
  /-- The IV of one block. -/
  iv : Bytes
  key_size : key.length = 32
  iv_size : iv.length = 16
deriving DecidableEq

/-- `EVP_EncryptInit_ex` and `EVP_DecryptInit_ex` for `EVP_aes_256_cbc()`: they
read 32 bytes from the key pointer and 16 from the IV pointer. -/
def initEx {n : Nat} (key iv : Buf n) (hn : 32 ≤ n) : Ctx where
  key := key.bytes.take 32
  iv := iv.bytes.take 16
  key_size := by simp [key.size, hn]
  iv_size := by simp [iv.size]; omega

/-- The number of blocks `EVP_DecryptUpdate` writes for `n` bytes. -/
def updateBlocks (n : Nat) : Nat := if n % 16 = 0 then n / 16 - 1 else n / 16

theorem updateBlocks_le (n : Nat) : 16 * updateBlocks n ≤ n := by
  unfold updateBlocks
  split <;> omega

theorem updateBlocks_mono {n m : Nat} (h : n ≤ m) : updateBlocks n ≤ updateBlocks m := by
  unfold updateBlocks
  split <;> split <;> omega

/-- The PKCS#7 padding of `n` bytes. -/
def padding (n : Nat) : Bytes := List.replicate (16 - n % 16) (UInt8.ofNat (16 - n % 16))

/-- The calls of AES-256-CBC and their documented behaviour. -/
structure Cipher where
  /-- What `EVP_EncryptUpdate` writes. -/
  encryptUpdate : Ctx → Bytes → Bytes
  /-- What `EVP_EncryptFinal_ex` writes. -/
  encryptFinal : Ctx → Bytes → Bytes
  /-- What `EVP_DecryptUpdate` writes. -/
  decryptUpdate : Ctx → Bytes → Bytes
  /-- What `EVP_DecryptFinal_ex` writes, or `none` when it fails. -/
  decryptFinal : Ctx → Bytes → Option Bytes
  encrypt_length (c : Ctx) (p : Bytes) :
    (encryptUpdate c p ++ encryptFinal c p).length = 16 * (p.length / 16 + 1)
  decryptUpdate_length (c : Ctx) (d : Bytes) :
    (decryptUpdate c d).length = 16 * updateBlocks d.length
  decryptUpdate_append (c : Ctx) (d e : Bytes) : decryptUpdate c d <+: decryptUpdate c (d ++ e)
  decryptFinal_length {c : Ctx} {d q : Bytes} : decryptFinal c d = some q → q.length < 16
  decryptFinal_aligned {c : Ctx} {d q : Bytes} :
    decryptFinal c d = some q → d ≠ [] ∧ d.length % 16 = 0
  decrypt_encrypt (c : Ctx) (p : Bytes) :
    ∃ q, decryptFinal c (encryptUpdate c p ++ encryptFinal c p) = some q ∧
      decryptUpdate c (encryptUpdate c p ++ encryptFinal c p) ++ q = p
  decrypt_padding (c : Ctx) (p : Bytes) {e : Bytes} : e ≠ [] →
    p ++ padding p.length <+: decryptUpdate c (encryptUpdate c p ++ encryptFinal c p ++ e)

namespace Cipher

variable (E : Cipher)

/-- The ciphertext of a message. -/
def encipher (c : Ctx) (p : Bytes) : Bytes := E.encryptUpdate c p ++ E.encryptFinal c p

/-- All that a decryption writes, when the result of the Final call is not
looked at: a failing Final call writes nothing. -/
def decipher (c : Ctx) (d : Bytes) : Bytes := E.decryptUpdate c d ++ (E.decryptFinal c d).getD []

theorem encipher_length (c : Ctx) (p : Bytes) :
    (E.encipher c p).length = 16 * (p.length / 16 + 1) := E.encrypt_length c p

/-- Final fails on data that does not end at a block boundary. -/
theorem decryptFinal_eq_none (c : Ctx) {d : Bytes} (hd : d.length % 16 ≠ 0) :
    E.decryptFinal c d = none := by
  cases h : E.decryptFinal c d with
  | none => rfl
  | some q => exact absurd (E.decryptFinal_aligned h).2 hd

theorem decipher_of_none {c : Ctx} {d : Bytes} (h : E.decryptFinal c d = none) :
    E.decipher c d = E.decryptUpdate c d := by
  rw [decipher, h]
  exact List.append_nil _

/-- A decryption writes no more than it reads. -/
theorem decipher_length_le (c : Ctx) (d : Bytes) : (E.decipher c d).length ≤ d.length := by
  have hu := E.decryptUpdate_length c d
  have hle := updateBlocks_le d.length
  cases h : E.decryptFinal c d with
  | none => rw [E.decipher_of_none h, hu]; exact hle
  | some q =>
      have hq := E.decryptFinal_length h
      obtain ⟨hne, hal⟩ := E.decryptFinal_aligned h
      have hpos := List.length_pos_iff.mpr hne
      have hb : updateBlocks d.length = d.length / 16 - 1 := if_pos hal
      rw [decipher, h, List.length_append, hu, hb, Option.getD_some]
      omega

/-- The Update call writes nothing for at most one block. -/
theorem decryptUpdate_eq_nil_iff (c : Ctx) (d : Bytes) :
    E.decryptUpdate c d = [] ↔ d.length ≤ 16 := by
  rw [← List.length_eq_zero_iff, E.decryptUpdate_length, updateBlocks]
  split <;> omega

/-- Less than a block gives nothing. -/
theorem decipher_of_lt (c : Ctx) {d : Bytes} (hd : d.length < 16) : E.decipher c d = [] := by
  have hnone : E.decryptFinal c d = none := by
    cases h : E.decryptFinal c d with
    | none => rfl
    | some q =>
        obtain ⟨hne, hal⟩ := E.decryptFinal_aligned h
        have := List.length_pos_iff.mpr hne
        omega
  rw [E.decipher_of_none hnone, E.decryptUpdate_eq_nil_iff]
  omega

/-- Decryption inverts encryption. -/
theorem decipher_encipher (c : Ctx) (p : Bytes) : E.decipher c (E.encipher c p) = p := by
  obtain ⟨q, hq, hp⟩ := E.decrypt_encrypt c p
  rw [decipher, encipher, hq]
  exact hp

end Cipher

end Evp

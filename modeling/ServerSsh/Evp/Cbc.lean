import ServerSsh.Evp.Interface
import Mathlib.Logic.Equiv.Basic

/-!
# CBC with PKCS#7 padding

The calls of `Evp.Cipher` for a block cipher in CBC mode.  A `BlockCipher` is a
permutation of the blocks for each key, given with its inverse.  `cbc` chains it
over a message and satisfies every documented behaviour of the interface, so the
interface can be met by any block cipher.

`ofPairs` is the block cipher that exchanges the two blocks of each listed pair
and keeps every other block.  It takes the values of a real cipher at the blocks
a computation looks at.
-/

namespace Evp

open Libc

/-- A block cipher on 16-byte blocks. -/
structure BlockCipher where
  /-- Encrypt a block under a key. -/
  enc : Bytes → Bytes → Bytes
  /-- Decrypt a block under a key. -/
  dec : Bytes → Bytes → Bytes
  enc_length {k b : Bytes} : b.length = 16 → (enc k b).length = 16
  dec_length {k b : Bytes} : b.length = 16 → (dec k b).length = 16
  dec_enc {k b : Bytes} : b.length = 16 → dec k (enc k b) = b

/-! ## Exclusive or of blocks -/

/-- Bytewise exclusive or. -/
def xor (a b : Bytes) : Bytes := List.zipWith (· ^^^ ·) a b

theorem xor_length {a b : Bytes} (h : a.length = b.length) : (xor a b).length = a.length := by
  rw [xor, List.length_zipWith, h, Nat.min_self]

theorem xor_xor_cancel {a b : Bytes} (h : a.length = b.length) : xor (xor a b) b = a := by
  induction a generalizing b with
  | nil => rfl
  | cons x a ih =>
      cases b with
      | nil => cases h
      | cons y b =>
          have ht : a.length = b.length := by simpa using h
          have hx : x ^^^ y ^^^ y = x := by rw [UInt8.xor_assoc, UInt8.xor_self, UInt8.xor_zero]
          simp only [xor, List.zipWith_cons_cons] at ih ⊢
          rw [ih ht, hx]

/-! ## Chaining -/

section Chain

variable (f : Bytes → Bytes)

/-- CBC encryption of the first `k` blocks of `p` under the chaining value
`v`. -/
def cbcEnc : Nat → Bytes → Bytes → Bytes
  | 0, _, _ => []
  | k + 1, v, p =>
      let c := f (xor (p.take 16) v)
      c ++ cbcEnc k c (p.drop 16)

/-- CBC decryption of the first `k` blocks of `d` under the chaining value
`v`. -/
def cbcDec : Nat → Bytes → Bytes → Bytes
  | 0, _, _ => []
  | k + 1, v, d => xor (f (d.take 16)) v ++ cbcDec k (d.take 16) (d.drop 16)

variable {f}

theorem cbcEnc_length (hf : ∀ b : Bytes, b.length = 16 → (f b).length = 16) :
    ∀ (k : Nat) {v p : Bytes}, v.length = 16 → 16 * k ≤ p.length → (cbcEnc f k v p).length = 16 * k
  | 0, _, _, _, _ => rfl
  | k + 1, v, p, hv, hp => by
      have ht : (p.take 16).length = 16 := by rw [List.length_take]; omega
      have hc : (f (xor (p.take 16) v)).length = 16 := hf _ (by rw [xor_length (by omega), ht])
      rw [cbcEnc, List.length_append, hc,
        cbcEnc_length hf k hc (by rw [List.length_drop]; omega)]
      omega

theorem cbcDec_length (hf : ∀ b : Bytes, b.length = 16 → (f b).length = 16) :
    ∀ (k : Nat) {v d : Bytes}, v.length = 16 → 16 * k ≤ d.length → (cbcDec f k v d).length = 16 * k
  | 0, _, _, _, _ => rfl
  | k + 1, v, d, hv, hd => by
      have ht : (d.take 16).length = 16 := by rw [List.length_take]; omega
      rw [cbcDec, List.length_append, xor_length (by rw [hf _ ht, hv]), hf _ ht,
        cbcDec_length hf k ht (by rw [List.length_drop]; omega)]
      omega

/-- Decrypting fewer blocks of a shorter part writes the start of what
decrypting more blocks of the whole writes. -/
theorem cbcDec_append (e : Bytes) :
    ∀ {k k' : Nat} {v d : Bytes}, k ≤ k' → 16 * k ≤ d.length →
      cbcDec f k v d <+: cbcDec f k' v (d ++ e)
  | 0, _, _, _, _, _ => List.nil_prefix
  | k + 1, 0, _, _, h, _ => by omega
  | k + 1, k' + 1, v, d, h, hd => by
      rw [cbcDec, cbcDec, List.take_append_of_le_length (by omega),
        List.drop_append_of_le_length (by omega), List.prefix_append_right_inj]
      exact cbcDec_append e (by omega) (by rw [List.length_drop]; omega)

theorem cbcDec_cbcEnc {g : Bytes → Bytes} (hf : ∀ b : Bytes, b.length = 16 → (f b).length = 16)
    (hg : ∀ b : Bytes, b.length = 16 → g (f b) = b) :
    ∀ (k : Nat) {v p : Bytes}, v.length = 16 → 16 * k ≤ p.length →
      cbcDec g k v (cbcEnc f k v p) = p.take (16 * k)
  | 0, _, _, _, _ => by simp [cbcDec]
  | k + 1, v, p, hv, hp => by
      have ht : (p.take 16).length = 16 := by rw [List.length_take]; omega
      have hx : (xor (p.take 16) v).length = 16 := by rw [xor_length (by omega), ht]
      have hc := hf _ hx
      rw [cbcEnc, cbcDec, List.take_left' hc, List.drop_left' hc, hg _ hx,
        xor_xor_cancel (by omega), cbcDec_cbcEnc hf hg k hc (by rw [List.length_drop]; omega),
        show 16 * (k + 1) = 16 + 16 * k by omega, List.take_add]

end Chain

/-! ## Padding -/

/-- A message with its padding. -/
def pad (p : Bytes) : Bytes := p ++ padding p.length

/-- Take the padding off the last block, if it is well formed. -/
def unpad (b : Bytes) : Option Bytes :=
  match b.getLast? with
  | none => none
  | some n =>
      if 1 ≤ n.toNat ∧ n.toNat ≤ 16 ∧ b.drop (16 - n.toNat) = List.replicate n.toNat n then
        some (b.take (16 - n.toNat))
      else none

theorem pad_length (p : Bytes) : (pad p).length = 16 * (p.length / 16 + 1) := by
  rw [pad, List.length_append, padding, List.length_replicate]
  omega

theorem unpad_length {b q : Bytes} (h : unpad b = some q) : q.length < 16 := by
  rw [unpad] at h
  cases hb : b.getLast? with
  | none => rw [hb] at h; cases h
  | some n =>
      rw [hb] at h
      simp only at h
      split at h
      next hn =>
        cases h
        rw [List.length_take]
        omega
      next => cases h

/-- The last block of a padded message gives the rest of the message. -/
theorem unpad_append_padding {b : Bytes} {n : Nat} (hb : b.length = n % 16) :
    unpad (b ++ padding n) = some b := by
  have hn : 16 - n % 16 ≤ 16 := by omega
  have hv : (UInt8.ofNat (16 - n % 16)).toNat = 16 - n % 16 := by
    rw [UInt8.toNat_ofNat_of_lt' (show 16 - n % 16 < 2 ^ 8 by omega)]
  have hlast : (b ++ padding n).getLast? = some (UInt8.ofNat (16 - n % 16)) := by
    rw [padding, List.getLast?_append, List.getLast?_replicate, if_neg (by omega)]
    rfl
  have hk : 16 - (16 - n % 16) = b.length := by omega
  rw [unpad, hlast]
  simp only [hv, hk, List.drop_left, List.take_left]
  rw [if_pos ⟨by omega, hn, rfl⟩]

/-! ## The cipher -/

namespace BlockCipher

variable (B : BlockCipher)

/-- All the blocks of the ciphertext of `p`. -/
def cbcEncrypt (c : Ctx) (p : Bytes) : Bytes :=
  cbcEnc (B.enc c.key) (p.length / 16 + 1) c.iv (pad p)

/-- The first `k` blocks of the plaintext of `d`. -/
def cbcDecrypt (c : Ctx) (k : Nat) (d : Bytes) : Bytes := cbcDec (B.dec c.key) k c.iv d

/-- Encryption writes the complete blocks of the message in the Update call. -/
def cbcUpdate (c : Ctx) (p : Bytes) : Bytes := (B.cbcEncrypt c p).take (16 * (p.length / 16))

/-- The last block, which holds the padding, is written by the Final call. -/
def cbcFinal (c : Ctx) (p : Bytes) : Bytes := (B.cbcEncrypt c p).drop (16 * (p.length / 16))

/-- Decryption writes what is left of the block it held back. -/
def cbcDecryptFinal (c : Ctx) (d : Bytes) : Option Bytes :=
  if d ≠ [] ∧ d.length % 16 = 0 then
    unpad ((B.cbcDecrypt c (d.length / 16) d).drop (16 * updateBlocks d.length))
  else none

variable {B}

theorem cbcEncrypt_length (c : Ctx) (p : Bytes) :
    (B.cbcEncrypt c p).length = 16 * (p.length / 16 + 1) :=
  cbcEnc_length (fun _ => B.enc_length) _ c.iv_size (pad_length p).ge

theorem cbcUpdate_append_cbcFinal (c : Ctx) (p : Bytes) :
    B.cbcUpdate c p ++ B.cbcFinal c p = B.cbcEncrypt c p := List.take_append_drop _ _

/-- Decrypting the whole ciphertext gives the padded message. -/
theorem cbcDecrypt_cbcEncrypt (c : Ctx) (p : Bytes) :
    B.cbcDecrypt c (p.length / 16 + 1) (B.cbcEncrypt c p) = pad p := by
  rw [cbcDecrypt, cbcEncrypt,
    cbcDec_cbcEnc (fun _ => B.enc_length) (fun _ => B.dec_enc) _ c.iv_size (pad_length p).ge,
    ← pad_length, List.take_length]

theorem cbcDecrypt_length (c : Ctx) (k : Nat) {d : Bytes} (hk : 16 * k ≤ d.length) :
    (B.cbcDecrypt c k d).length = 16 * k :=
  cbcDec_length (fun _ => B.dec_length) _ c.iv_size hk

/-- Decrypting fewer blocks gives the start of what decrypting more gives. -/
theorem cbcDecrypt_start (c : Ctx) {k k' : Nat} {d : Bytes} (hk : k ≤ k')
    (hd : 16 * k ≤ d.length) : (B.cbcDecrypt c k' d).take (16 * k) = B.cbcDecrypt c k d := by
  have hpre := cbcDec_append (f := B.dec c.key) [] (v := c.iv) hk hd
  rw [List.append_nil] at hpre
  change B.cbcDecrypt c k _ <+: B.cbcDecrypt c _ _ at hpre
  rw [List.prefix_iff_eq_take, cbcDecrypt_length c k hd] at hpre
  exact hpre.symm

/-- Decrypting fewer blocks gives the start of the padded message. -/
theorem cbcDecrypt_take (c : Ctx) (p : Bytes) {k : Nat} (hk : k ≤ p.length / 16 + 1) :
    B.cbcDecrypt c k (B.cbcEncrypt c p) = (pad p).take (16 * k) := by
  have hlen : 16 * k ≤ (B.cbcEncrypt c p).length := by rw [cbcEncrypt_length]; omega
  rw [← cbcDecrypt_start c hk hlen, cbcDecrypt_cbcEncrypt]

/-- Data whose blocks decrypt to a padded message gives the message. -/
theorem cbc_decrypt_of_pad (c : Ctx) {d t : Bytes} (hd : d.length = 16 * (t.length / 16 + 1))
    (h : B.cbcDecrypt c (t.length / 16 + 1) d = pad t) :
    ∃ q, B.cbcDecryptFinal c d = some q ∧ B.cbcDecrypt c (updateBlocks d.length) d ++ q = t := by
  have hne : d ≠ [] := by
    rintro rfl
    rw [List.length_nil] at hd
    omega
  have hblocks : updateBlocks d.length = t.length / 16 := by
    rw [hd, updateBlocks, if_pos (by omega)]
    omega
  have hstart : (B.cbcDecrypt c (t.length / 16 + 1) d).take (16 * (t.length / 16))
      = B.cbcDecrypt c (t.length / 16) d := cbcDecrypt_start c (by omega) (by omega)
  have hpad : (pad t).drop (16 * (t.length / 16))
      = t.drop (16 * (t.length / 16)) ++ padding t.length :=
    List.drop_append_of_le_length (by omega)
  refine ⟨t.drop (16 * (t.length / 16)), ?_, ?_⟩
  · rw [cbcDecryptFinal, if_pos ⟨hne, by omega⟩, hblocks,
      show d.length / 16 = t.length / 16 + 1 by omega, h, hpad]
    exact unpad_append_padding (by rw [List.length_drop]; omega)
  · rw [hblocks, ← hstart, h, pad, List.take_append_of_le_length (by omega),
      List.take_append_drop]

theorem cbc_decrypt_encrypt (c : Ctx) (p : Bytes) :
    ∃ q, B.cbcDecryptFinal c (B.cbcEncrypt c p) = some q ∧
      B.cbcDecrypt c (updateBlocks (B.cbcEncrypt c p).length) (B.cbcEncrypt c p) ++ q = p :=
  cbc_decrypt_of_pad c (cbcEncrypt_length c p) (cbcDecrypt_cbcEncrypt c p)

/-- A message that more data follows is decrypted with its padding. -/
theorem cbc_decrypt_padding (c : Ctx) (p : Bytes) {e : Bytes} (he : e ≠ []) :
    pad p <+: B.cbcDecrypt c (updateBlocks (B.cbcEncrypt c p ++ e).length)
      (B.cbcEncrypt c p ++ e) := by
  have hlen := cbcEncrypt_length (B := B) c p
  have hpos := List.length_pos_iff.mpr he
  rw [← cbcDecrypt_cbcEncrypt (B := B) c p]
  refine cbcDec_append e ?_ hlen.ge
  rw [List.length_append, hlen]
  unfold updateBlocks
  split <;> omega

variable (B)

/-- CBC mode with PKCS#7 padding has the documented behaviour of the EVP
calls. -/
def cbc : Cipher where
  encryptUpdate := B.cbcUpdate
  encryptFinal := B.cbcFinal
  decryptUpdate c d := B.cbcDecrypt c (updateBlocks d.length) d
  decryptFinal := B.cbcDecryptFinal
  encrypt_length c p := by rw [cbcUpdate_append_cbcFinal, cbcEncrypt_length]
  decryptUpdate_length c d := cbcDecrypt_length c _ (updateBlocks_le _)
  decryptUpdate_append c d e :=
    cbcDec_append e (updateBlocks_mono (by simp)) (updateBlocks_le _)
  decryptFinal_length h := by
    rw [cbcDecryptFinal] at h
    split at h
    · exact unpad_length h
    · cases h
  decryptFinal_aligned h := by
    rw [cbcDecryptFinal] at h
    split at h
    next hd => exact hd
    next => cases h
  decrypt_encrypt c p := by rw [cbcUpdate_append_cbcFinal]; exact cbc_decrypt_encrypt c p
  decrypt_padding c p _ he := by rw [cbcUpdate_append_cbcFinal]; exact cbc_decrypt_padding c p he

end BlockCipher

/-! ## Block ciphers from a table -/

/-- The permutation of blocks that exchanges the blocks of each pair, the last
pair first. -/
def exchange : List (Bytes × Bytes) → Equiv.Perm Bytes
  | [] => Equiv.refl _
  | p :: pairs => (exchange pairs).trans (Equiv.swap p.1 p.2)

theorem swap_length {x y b : Bytes} (hx : x.length = 16) (hy : y.length = 16)
    (hb : b.length = 16) : (Equiv.swap x y b).length = 16 := by
  rw [Equiv.swap_apply_def]
  split
  · exact hy
  · split
    · exact hx
    · exact hb

theorem exchange_length {pairs : List (Bytes × Bytes)}
    (h : ∀ p ∈ pairs, p.1.length = 16 ∧ p.2.length = 16) {b : Bytes} (hb : b.length = 16) :
    (exchange pairs b).length = 16 ∧ ((exchange pairs).symm b).length = 16 := by
  induction pairs generalizing b with
  | nil => exact ⟨hb, hb⟩
  | cons p pairs ih =>
      have hp := h p (List.mem_cons_self ..)
      have hs : ∀ q ∈ pairs, q.1.length = 16 ∧ q.2.length = 16 := fun q hq =>
        h q (List.mem_cons_of_mem _ hq)
      simp only [exchange, Equiv.trans_apply, Equiv.symm_trans_apply, Equiv.symm_swap]
      exact ⟨swap_length hp.1 hp.2 (ih hs hb).1, (ih hs (swap_length hp.1 hp.2 hb)).2⟩

/-- The block cipher that exchanges the blocks of each pair, under every
key. -/
def ofPairs (pairs : List (Bytes × Bytes)) (h : ∀ p ∈ pairs, p.1.length = 16 ∧ p.2.length = 16) :
    BlockCipher where
  enc _ := exchange pairs
  dec _ := (exchange pairs).symm
  enc_length hb := (exchange_length h hb).1
  dec_length hb := (exchange_length h hb).2
  dec_enc _ := (exchange pairs).symm_apply_apply _

end Evp

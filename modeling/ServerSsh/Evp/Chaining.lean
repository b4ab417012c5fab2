import ServerSsh.Evp.Cbc

/-!
# What chaining does to parts of a message

A block of a CBC ciphertext depends on the blocks of the message up to it, and a
block of a decrypted message on two neighbouring blocks of the ciphertext.  Three
things follow for a cipher without authentication, and each of them is stated here
for the calls of the interface.

* Under one key and IV two ciphertexts begin with the same blocks exactly when the
  two padded messages do (`cbcEncrypt_take_eq_iff`).
* A part of a ciphertext decrypts to a part of its message
  (`decipher_take_isPrefix`).
* A difference that is added to one block of a ciphertext is added to the next
  block of the message, and garbles the block itself (`decipher_tamper`).
-/

namespace Evp

open Libc

theorem xor_assoc (a b c : Bytes) : xor (xor a b) c = xor a (xor b c) := by
  induction a generalizing b c with
  | nil => rfl
  | cons x a ih =>
      cases b with
      | nil => rfl
      | cons y b =>
          cases c with
          | nil => rfl
          | cons z c =>
              have hx : x ^^^ y ^^^ z = x ^^^ (y ^^^ z) := UInt8.xor_assoc x y z
              have ht := ih b c
              simp only [xor, List.zipWith_cons_cons] at ht ⊢
              rw [hx, ht]

theorem xor_comm (a b : Bytes) : xor a b = xor b a := by
  rw [xor, xor, List.zipWith_comm]
  exact congrArg (List.zipWith · b a) (funext fun x => funext fun y => UInt8.xor_comm y x)

/-! ## The blocks of a ciphertext -/

section Chain

variable {f g : Bytes → Bytes}

/-- The first blocks of a ciphertext are the ciphertext of the first blocks. -/
theorem cbcEnc_take (hf : ∀ b : Bytes, b.length = 16 → (f b).length = 16) :
    ∀ {j k : Nat} {v p : Bytes}, v.length = 16 → j ≤ k → 16 * k ≤ p.length →
      (cbcEnc f k v p).take (16 * j) = cbcEnc f j v p
  | 0, _, _, _, _, _, _ => List.take_zero
  | j + 1, 0, _, _, _, hj, _ => absurd hj (Nat.not_succ_le_zero j)
  | j + 1, k + 1, v, p, hv, hj, hp => by
      have ht : (p.take 16).length = 16 := by rw [List.length_take]; omega
      have hc : (f (xor (p.take 16) v)).length = 16 := hf _ (by rw [xor_length (by omega), ht])
      have hrest := cbcEnc_take hf hc (Nat.le_of_succ_le_succ hj) (p := p.drop 16)
        (by rw [List.length_drop]; omega)
      have hlen : 16 * (j + 1) = (f (xor (p.take 16) v)).length + 16 * j := by omega
      simp only [cbcEnc]
      rw [hlen, List.take_length_add_append, hrest]

/-- The first blocks of a ciphertext depend on the first blocks only. -/
theorem cbcEnc_congr {k : Nat} {v p q : Bytes} (h : p.take (16 * k) = q.take (16 * k)) :
    cbcEnc f k v p = cbcEnc f k v q := by
  induction k generalizing v p q with
  | zero => rfl
  | succ k ih =>
      have hsum : 16 * (k + 1) = 16 + 16 * k := by omega
      rw [hsum] at h
      have hhead : p.take 16 = q.take 16 := by
        have := congrArg (List.take 16) h
        simpa [List.take_take] using this
      have htail : (p.drop 16).take (16 * k) = (q.drop 16).take (16 * k) := by
        have := congrArg (List.drop 16) h
        simpa [List.drop_take] using this
      simp only [cbcEnc, hhead, ih htail]

/-- Different first blocks have different ciphertexts. -/
theorem cbcEnc_eq_iff (hf : ∀ b : Bytes, b.length = 16 → (f b).length = 16)
    (hg : ∀ b : Bytes, b.length = 16 → g (f b) = b) {k : Nat} {v p q : Bytes}
    (hv : v.length = 16) (hp : 16 * k ≤ p.length) (hq : 16 * k ≤ q.length) :
    cbcEnc f k v p = cbcEnc f k v q ↔ p.take (16 * k) = q.take (16 * k) := by
  refine ⟨fun h => ?_, cbcEnc_congr⟩
  have hdec := congrArg (cbcDec g k v) h
  rwa [cbcDec_cbcEnc hf hg k hv hp, cbcDec_cbcEnc hf hg k hv hq] at hdec

/-! ## A difference in one block -/

/-- Add a difference to the block with the given number. -/
def tamper (δ : Bytes) : Nat → Bytes → Bytes
  | 0, d => xor (d.take 16) δ ++ d.drop 16
  | i + 1, d => d.take 16 ++ tamper δ i (d.drop 16)

/-- Replace a block, and add a difference to the block behind it. -/
def spread (g δ : Bytes) (i : Nat) (t : Bytes) : Bytes :=
  t.take (16 * i) ++ (g ++ (xor ((t.drop (16 * (i + 1))).take 16) δ ++ t.drop (16 * (i + 2))))

theorem spread_zero {a b t g δ : Bytes} (ha : a.length = 16) (hb : b.length = 16) :
    spread g δ 0 (a ++ (b ++ t)) = g ++ (xor b δ ++ t) := by
  have htail : (a ++ (b ++ t)).drop (16 * 2) = t := by
    rw [← List.append_assoc]
    exact List.drop_left' (by rw [List.length_append]; omega)
  rw [spread, htail, List.drop_left' ha, List.take_left' hb]
  rfl

theorem spread_succ {a t g δ : Bytes} (ha : a.length = 16) (i : Nat) :
    spread g δ (i + 1) (a ++ t) = a ++ spread g δ i t := by
  have hlen : ∀ n, 16 * (n + 1) = a.length + 16 * n := fun n => by omega
  have hdrop : ∀ n, (a ++ t).drop (16 * (n + 1)) = t.drop (16 * n) := fun n => by
    rw [hlen, List.drop_length_add_append]
  have htake : (a ++ t).take (16 * (i + 1)) = a ++ t.take (16 * i) := by
    rw [hlen, List.take_length_add_append]
  rw [spread, hdrop, hdrop, htake, List.append_assoc]
  rfl

theorem length_block {t : Bytes} {i : Nat} (hi : 16 * (i + 1) ≤ t.length) :
    ((t.drop (16 * i)).take 16).length = 16 := by
  rw [List.length_take, List.length_drop]
  omega

theorem spread_length {g δ t : Bytes} (hg : g.length = 16) (hδ : δ.length = 16) {i : Nat}
    (hi : 16 * (i + 2) ≤ t.length) : (spread g δ i t).length = t.length := by
  have hb := length_block (i := i + 1) hi
  have hx := xor_length (hb.trans hδ.symm)
  simp only [spread, List.length_append, hx, hb, hg, List.length_take, List.length_drop]
  omega

/-- What follows the two blocks does not matter. -/
theorem spread_append {g δ t : Bytes} (e : Bytes) {i : Nat} (hi : 16 * (i + 2) ≤ t.length) :
    spread g δ i (t ++ e) = spread g δ i t ++ e := by
  rw [spread, List.take_append_of_le_length (by omega), List.drop_append_of_le_length (by omega),
    List.take_append_of_le_length (by rw [List.length_drop]; omega),
    List.drop_append_of_le_length (by omega)]
  simp only [spread, List.append_assoc]

theorem tamper_length {δ : Bytes} (hδ : δ.length = 16) :
    ∀ {i : Nat} {d : Bytes}, 16 * (i + 1) ≤ d.length → (tamper δ i d).length = d.length
  | 0, d, hd => by
      have ht : (d.take 16).length = 16 := List.length_take_of_le (by omega)
      rw [tamper, List.length_append, xor_length (by omega), ht, List.length_drop]
      omega
  | i + 1, d, hd => by
      have ht : (d.take 16).length = 16 := List.length_take_of_le (by omega)
      have hrest : 16 * (i + 1) ≤ (d.drop 16).length := by rw [List.length_drop]; omega
      rw [tamper, List.length_append, ht, tamper_length hδ hrest, List.length_drop]
      omega

/-- A difference in a block of the ciphertext garbles that block, is added to the
next one, and leaves all the others as they are. -/
theorem cbcDec_tamper (hf : ∀ b : Bytes, b.length = 16 → (f b).length = 16) {δ : Bytes}
    (hδ : δ.length = 16) :
    ∀ {i k : Nat} {v d : Bytes}, v.length = 16 → i + 2 ≤ k → 16 * k ≤ d.length →
      ∃ g : Bytes, g.length = 16 ∧
        cbcDec f k v (tamper δ i d) = spread g δ i (cbcDec f k v d)
  | 0, k + 2, v, d, hv, _, hd => by
      have hb : (d.take 16).length = 16 := List.length_take_of_le (by omega)
      have hb' : ((d.drop 16).take 16).length = 16 := length_block (i := 1) (by omega)
      have hx : (xor (d.take 16) δ).length = 16 := by rw [xor_length (by omega), hb]
      have hfst : (xor (f (d.take 16)) v).length = 16 := by
        rw [xor_length (by rw [hf _ hb, hv]), hf _ hb]
      have hsnd : (xor (f ((d.drop 16).take 16)) (d.take 16)).length = 16 := by
        rw [xor_length (by rw [hf _ hb', hb]), hf _ hb']
      refine ⟨xor (f (xor (d.take 16) δ)) v, ?_, ?_⟩
      · rw [xor_length (by rw [hf _ hx, hv]), hf _ hx]
      · simp only [tamper, cbcDec, List.take_left' hx, List.drop_left' hx]
        rw [spread_zero hfst hsnd, xor_assoc]
  | i + 1, k + 1, v, d, hv, hk, hd => by
      have hb : (d.take 16).length = 16 := List.length_take_of_le (by omega)
      have hfst : (xor (f (d.take 16)) v).length = 16 := by
        rw [xor_length (by rw [hf _ hb, hv]), hf _ hb]
      obtain ⟨g, hg, heq⟩ := cbcDec_tamper hf hδ (v := d.take 16) (d := d.drop 16) hb
        (Nat.le_of_succ_le_succ hk) (by rw [List.length_drop]; omega)
      refine ⟨g, hg, ?_⟩
      simp only [tamper, cbcDec, List.take_left' hb, List.drop_left' hb, heq]
      rw [spread_succ hfst]

end Chain

/-! ## The calls of the interface -/

namespace BlockCipher

variable {B : BlockCipher} (c : Ctx)

theorem cbc_encipher (p : Bytes) : B.cbc.encipher c p = B.cbcEncrypt c p :=
  cbcUpdate_append_cbcFinal c p

/-- Under one key and IV two ciphertexts begin with the same blocks exactly when
the two padded messages do. -/
theorem cbcEncrypt_take_eq_iff {p q : Bytes} {k : Nat} (hp : k ≤ p.length / 16 + 1)
    (hq : k ≤ q.length / 16 + 1) :
    (B.cbcEncrypt c p).take (16 * k) = (B.cbcEncrypt c q).take (16 * k) ↔
      (pad p).take (16 * k) = (pad q).take (16 * k) := by
  have hf : ∀ b : Bytes, b.length = 16 → (B.enc c.key b).length = 16 := fun _ => B.enc_length
  have hpad : ∀ {s : Bytes}, k ≤ s.length / 16 + 1 → 16 * k ≤ (pad s).length := fun hs => by
    rw [pad_length]
    omega
  rw [cbcEncrypt, cbcEncrypt, cbcEnc_take hf c.iv_size hp (pad_length p).ge,
    cbcEnc_take hf c.iv_size hq (pad_length q).ge]
  exact cbcEnc_eq_iff hf (fun _ => B.dec_enc) c.iv_size (hpad hp) (hpad hq)

/-- Data whose blocks decrypt to a padded message decrypts to the message. -/
theorem decipher_of_pad {d t : Bytes} (hd : d.length = 16 * (t.length / 16 + 1))
    (h : B.cbcDecrypt c (t.length / 16 + 1) d = pad t) : B.cbc.decipher c d = t := by
  obtain ⟨q, hq, ht⟩ := cbc_decrypt_of_pad c hd h
  change B.cbcDecrypt c (updateBlocks d.length) d ++ (B.cbcDecryptFinal c d).getD [] = t
  rw [hq]
  exact ht

theorem unpad_isPrefix {b q : Bytes} (h : unpad b = some q) : q <+: b := by
  rw [unpad] at h
  split at h
  next => cases h
  next n _ =>
    split at h
    next =>
      cases h
      exact List.take_prefix _ _
    next => cases h

/-- Blocks that are complete in a part of the data are decrypted in the part. -/
theorem cbcDecrypt_of_take {d : Bytes} {k n : Nat} (hk : 16 * k ≤ n) (hn : n ≤ d.length) :
    B.cbcDecrypt c k (d.take n) = B.cbcDecrypt c k d := by
  have htake : (d.take n).length = n := List.length_take_of_le hn
  have hpre := cbcDec_append (f := B.dec c.key) (d.drop n) (v := c.iv) (Nat.le_refl k)
    (htake.symm ▸ hk)
  rw [List.take_append_drop] at hpre
  refine hpre.eq_of_length ?_
  rw [← cbcDecrypt, ← cbcDecrypt, cbcDecrypt_length c k (htake.symm ▸ hk),
    cbcDecrypt_length c k (hk.trans hn)]

/-- A part of a ciphertext decrypts to a part of its message. -/
theorem decipher_take_isPrefix (p : Bytes) (n : Nat) :
    B.cbc.decipher c ((B.cbcEncrypt c p).take n) <+: p := by
  have hlen := cbcEncrypt_length (B := B) c p
  by_cases hn : n < (B.cbcEncrypt c p).length
  · -- Without the end of the ciphertext only whole blocks of the message are in it.
    have hd : ((B.cbcEncrypt c p).take n).length = n := List.length_take_of_le hn.le
    have hblocks : ∀ {k : Nat}, 16 * k ≤ n →
        B.cbcDecrypt c k ((B.cbcEncrypt c p).take n) = p.take (16 * k) := by
      intro k hk
      rw [cbcDecrypt_of_take c hk hn.le, cbcDecrypt_take c p (by omega), pad,
        List.take_append_of_le_length (by omega)]
    have hle := updateBlocks_le n
    change B.cbcDecrypt c (updateBlocks _) _ ++ (B.cbcDecryptFinal c _).getD [] <+: p
    rw [hd, hblocks hle]
    cases hq : B.cbcDecryptFinal c ((B.cbcEncrypt c p).take n) with
    | none =>
        rw [Option.getD_none, List.append_nil]
        exact List.take_prefix _ _
    | some q =>
        rw [cbcDecryptFinal, hd] at hq
        split at hq
        next =>
          rw [hblocks (by omega)] at hq
          have hlast := (List.prefix_append_right_inj (p.take (16 * updateBlocks n))).mpr
            (unpad_isPrefix hq)
          have hwhole : p.take (16 * updateBlocks n)
              ++ (p.take (16 * (n / 16))).drop (16 * updateBlocks n) = p.take (16 * (n / 16)) := by
            have hmin : p.take (16 * updateBlocks n)
                = (p.take (16 * (n / 16))).take (16 * updateBlocks n) := by
              rw [List.take_take, Nat.min_eq_left (by omega)]
            rw [hmin, List.take_append_drop]
          rw [hwhole] at hlast
          exact hlast.trans (List.take_prefix _ _)
        next => cases hq
  · have hwhole : B.cbc.decipher c ((B.cbcEncrypt c p).take n) = p := by
      rw [List.take_of_length_le (Nat.not_lt.mp hn), ← cbc_encipher, B.cbc.decipher_encipher]
    exact ⟨[], (List.append_nil _).trans hwhole⟩

/-- A difference in a block of a ciphertext is added to the next block of the
message and garbles its own, when there is a next block in the message. -/
theorem decipher_tamper {δ : Bytes} (hδ : δ.length = 16) {p : Bytes} {i : Nat}
    (hi : 16 * (i + 2) ≤ p.length) :
    ∃ g : Bytes, g.length = 16 ∧
      B.cbc.decipher c (tamper δ i (B.cbcEncrypt c p)) = spread g δ i p := by
  have hlen := cbcEncrypt_length (B := B) c p
  obtain ⟨g, hg, heq⟩ := cbcDec_tamper (f := B.dec c.key) (fun _ => B.dec_length) hδ
    (i := i) (k := p.length / 16 + 1) (d := B.cbcEncrypt c p) c.iv_size (by omega) hlen.ge
  change B.cbcDecrypt c _ _ = spread g δ i (B.cbcDecrypt c _ _) at heq
  have hspread := spread_length hg hδ hi
  refine ⟨g, hg, decipher_of_pad c ?_ ?_⟩
  · rw [tamper_length hδ (by omega), hspread, hlen]
  · rw [hspread, heq, cbcDecrypt_cbcEncrypt, pad, pad, hspread, spread_append _ hi]

end BlockCipher

end Evp

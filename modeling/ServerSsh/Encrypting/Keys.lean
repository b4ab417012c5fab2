import ServerSsh.Headers

/-!
# The key and IV buffers

`makeKeys` is `Make_keys`, the same text in both programs: the two numbers are
printed four times each, in alternation, appended to the caller's buffers, and
everything past the first 32 and the first 16 characters is cleared.
`keySetUp` is how both callers use it (`Administraitor` on the server,
`Generetion_keys` on the client): on two zeroed buffers, which the connection
record then points to.
-/

namespace ServerSsh

open Libc

/-- The output of `"%zu%zu%zu%zu%zu%zu%zu%zu"` for `K1` and `K2` in turn. -/
def keyText (K1 K2 : UInt64) : Bytes :=
  decimal K1.toNat ++ decimal K2.toNat ++ decimal K1.toNat ++ decimal K2.toNat
    ++ decimal K1.toNat ++ decimal K2.toNat ++ decimal K1.toNat ++ decimal K2.toNat

/-- `Make_keys`. -/
def makeKeys (K1 K2 : UInt64) (key IV : MessageBuf) : Except Fault (MessageBuf × MessageBuf) := do
  let A ← (Buf.zero maxCommandLenght).sprintf (keyText K1 K2)
  let B ← (Buf.zero maxCommandLenght).sprintf (keyText K2 K1)
  let key ← key.strcat A
  let IV ← IV.strcat B
  pure (key.clearFrom 32, IV.clearFrom 16)

/-- The key set-up of both programs. -/
def keySetUp (bfd : Connection) (K1 K2 : UInt64) : Except Fault Connection := do
  let (key, IV) ← makeKeys K1 K2 (Buf.zero _) (Buf.zero _)
  pure { bfd with key := key, iv := IV }

/-! ## What the buffers hold -/

theorem decimal_uint64_length (K : UInt64) : (decimal K.toNat).length ≤ 20 := by
  rw [decimal_length_le_iff (by omega)]
  have := K.toNat_lt
  omega

theorem keyText_length (K1 K2 : UInt64) : (keyText K1 K2).length ≤ 160 := by
  have h1 := decimal_uint64_length K1
  have h2 := decimal_uint64_length K2
  simp only [keyText, List.length_append]
  omega

theorem keyText_fits (K1 K2 : UInt64) : (keyText K1 K2).length < maxCommandLenght :=
  Nat.lt_of_le_of_lt (keyText_length K1 K2) (by decide)

theorem isDigit_of_mem_keyText {K1 K2 : UInt64} {b : UInt8} (h : b ∈ keyText K1 K2) :
    isDigit b = true := by
  simp only [keyText, List.mem_append] at h
  rcases h with ((((((h | h) | h) | h) | h) | h) | h) | h <;> exact isDigit_of_mem_decimal h

theorem zero_notMem_keyText (K1 K2 : UInt64) : 0 ∉ keyText K1 K2 := by
  intro h
  have := isDigit_of_mem_keyText h
  simp [isDigit] at this

theorem take_keyText_fits (k : Nat) (K1 K2 : UInt64) :
    ((keyText K1 K2).take k).length ≤ maxCommandLenght :=
  (List.length_take_le' ..).trans (keyText_fits K1 K2).le

/-- The key buffer of a session. -/
def keyBuf (K1 K2 : UInt64) : MessageBuf :=
  Buf.ofBytes ((keyText K1 K2).take 32) (take_keyText_fits ..)

/-- The IV buffer of a session. -/
def ivBuf (K1 K2 : UInt64) : MessageBuf :=
  Buf.ofBytes ((keyText K2 K1).take 16) (take_keyText_fits ..)

/-- On zeroed buffers `Make_keys` leaves the first 32 and the first 16
characters. -/
theorem makeKeys_zero (K1 K2 : UInt64) :
    makeKeys K1 K2 (Buf.zero _) (Buf.zero _) = .ok (keyBuf K1 K2, ivBuf K1 K2) := by
  have h12 := zero_notMem_keyText K1 K2
  have h21 := zero_notMem_keyText K2 K1
  have f12 := keyText_fits K1 K2
  have f21 := keyText_fits K2 K1
  rw [makeKeys, Buf.sprintf_zero f12, ok_bind, Buf.sprintf_zero f21, ok_bind,
    Buf.strcat_zero h12 f12 f12, ok_bind, Buf.strcat_zero h21 f21 f21, ok_bind,
    Buf.clearFrom_ofBytes, Buf.clearFrom_ofBytes]
  rfl

theorem keySetUp_eq (bfd : Connection) (K1 K2 : UInt64) :
    keySetUp bfd K1 K2 = .ok { bfd with key := keyBuf K1 K2, iv := ivBuf K1 K2 } := by
  rw [keySetUp, makeKeys_zero, ok_bind]
  rfl

end ServerSsh

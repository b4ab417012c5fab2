import ServerSsh.Headers

/-!
# Addresses as signal values

`Encrypt_signal` packs the address and the port of a socket address into the
`size_t` that travels as the value of a signal, and `Translate_signal` takes it
apart again.  Both go through host byte order, so the byte order of the machine
is a parameter.  The family is not packed: `Translate_signal` leaves it
uninitialised, and its caller sets it.
-/

namespace ServerSsh

/-- The byte order of the machine. -/
inductive Endian where
  | little
  | big
deriving DecidableEq, Repr

/-- `htons` and `ntohs`. -/
def htons (e : Endian) (x : UInt16) : UInt16 :=
  match e with
  | .big => x
  | .little => UInt16.ofNat (x.toNat % 256 * 256 + x.toNat / 256)

/-- `htonl` and `ntohl`. -/
def htonl (e : Endian) (x : UInt32) : UInt32 :=
  match e with
  | .big => x
  | .little =>
      UInt32.ofNat (x.toNat % 256 * 16777216 + x.toNat / 256 % 256 * 65536
        + x.toNat / 65536 % 256 * 256 + x.toNat / 16777216)

/-- `Encrypt_signal`. -/
def encryptSignal (e : Endian) (data : SockaddrIn) : UInt64 :=
  (0 : UInt64) ||| (htonl e data.sinAddr).toUInt64 ||| ((htons e data.sinPort).toUInt64 <<< 32)

/-- `Translate_signal`, with the family that its caller sets. -/
def translateSignal (e : Endian) (family : UInt16) (data : UInt64) : SockaddrIn where
  sinFamily := family
  sinAddr := htonl e (data &&& 0xffffffff).toUInt32
  sinPort := htons e ((data >>> 32) &&& 0xffff).toUInt16

/-! ## Packing and unpacking -/

theorem htons_little_toNat (x : UInt16) :
    (htons .little x).toNat = x.toNat % 256 * 256 + x.toNat / 256 := by
  have hx := x.toNat_lt
  exact (UInt16.toNat_ofNat' ..).trans (Nat.mod_eq_of_lt (by omega))

theorem htonl_little_toNat (x : UInt32) :
    (htonl .little x).toNat = x.toNat % 256 * 16777216 + x.toNat / 256 % 256 * 65536
      + x.toNat / 65536 % 256 * 256 + x.toNat / 16777216 := by
  have hx := x.toNat_lt
  exact (UInt32.toNat_ofNat' ..).trans (Nat.mod_eq_of_lt (by omega))

/-- The bytes of a number that is written as four bytes. -/
theorem bytes_of {n b0 b1 b2 b3 : Nat} (h1 : b1 < 256) (h2 : b2 < 256) (h3 : b3 < 256)
    (hn : n = b0 * 16777216 + b1 * 65536 + b2 * 256 + b3) :
    n % 256 = b3 ∧ n / 256 % 256 = b2 ∧ n / 65536 % 256 = b1 ∧ n / 16777216 = b0 := by
  omega

theorem htons_htons (e : Endian) (x : UInt16) : htons e (htons e x) = x := by
  cases e with
  | big => rfl
  | little =>
      have hx := x.toNat_lt
      refine UInt16.toNat_inj.mp ?_
      rw [htons_little_toNat, htons_little_toNat]
      omega

theorem htonl_htonl (e : Endian) (x : UInt32) : htonl e (htonl e x) = x := by
  cases e with
  | big => rfl
  | little =>
      have hx := x.toNat_lt
      obtain ⟨h3, h2, h1, h0⟩ := bytes_of (Nat.mod_lt _ (by omega)) (Nat.mod_lt _ (by omega))
        (by omega) (htonl_little_toNat x)
      refine UInt32.toNat_inj.mp ?_
      rw [htonl_little_toNat, h3, h2, h1, h0]
      omega

/-- The packed value is the port above the address. -/
theorem encryptSignal_toNat (e : Endian) (data : SockaddrIn) :
    (encryptSignal e data).toNat
      = 2 ^ 32 * (htons e data.sinPort).toNat + (htonl e data.sinAddr).toNat := by
  have ha := (htonl e data.sinAddr).toNat_lt
  have hp := (htons e data.sinPort).toNat_lt
  rw [Nat.two_pow_add_eq_or_of_lt ha, Nat.or_comm]
  have hshift : (htons e data.sinPort).toNat <<< 32 % 2 ^ 64
      = 2 ^ 32 * (htons e data.sinPort).toNat := by
    rw [Nat.shiftLeft_eq, Nat.mul_comm]
    exact Nat.mod_eq_of_lt (by omega)
  rw [encryptSignal, UInt64.toNat_or, UInt64.toNat_or, UInt64.toNat_shiftLeft,
    UInt32.toNat_toUInt64, UInt16.toNat_toUInt64, UInt64.toNat_zero, Nat.zero_or,
    show (32 : UInt64).toNat % 64 = 32 from rfl, hshift]

/-- The address in a packed value. -/
theorem toUInt32_and_toNat (d : UInt64) :
    (d &&& 0xffffffff).toUInt32.toNat = d.toNat % 2 ^ 32 := by
  rw [UInt64.toNat_toUInt32, UInt64.toNat_and]
  change ((_ &&& (2 ^ 32 - 1)) % 2 ^ 32) = _
  rw [Nat.and_two_pow_sub_one_eq_mod, Nat.mod_mod]

/-- The port in a packed value. -/
theorem toUInt16_shiftRight_toNat (d : UInt64) :
    ((d >>> 32) &&& 0xffff).toUInt16.toNat = d.toNat / 2 ^ 32 % 2 ^ 16 := by
  rw [UInt64.toNat_toUInt16, UInt64.toNat_and, UInt64.toNat_shiftRight]
  change ((_ >>> 32 &&& (2 ^ 16 - 1)) % 2 ^ 16) = _
  rw [Nat.and_two_pow_sub_one_eq_mod, Nat.mod_mod, Nat.shiftRight_eq_div_pow]

/-- An address survives the way through a signal value. -/
theorem translateSignal_encryptSignal (e : Endian) (data : SockaddrIn) :
    translateSignal e data.sinFamily (encryptSignal e data) = data := by
  have ha := (htonl e data.sinAddr).toNat_lt
  have hp := (htons e data.sinPort).toNat_lt
  have hn := encryptSignal_toNat e data
  have haddr : (encryptSignal e data &&& 0xffffffff).toUInt32 = htonl e data.sinAddr := by
    refine UInt32.toNat_inj.mp ?_
    rw [toUInt32_and_toNat, hn]
    omega
  have hport : ((encryptSignal e data >>> 32) &&& 0xffff).toUInt16 = htons e data.sinPort := by
    refine UInt16.toNat_inj.mp ?_
    rw [toUInt16_shiftRight_toNat, hn]
    omega
  rw [translateSignal, haddr, hport, htonl_htonl, htons_htons]

/-- A value keeps its lower 48 bits on the way through an address. -/
theorem encryptSignal_translateSignal (e : Endian) (family : UInt16) (d : UInt64) :
    (encryptSignal e (translateSignal e family d)).toNat = d.toNat % 2 ^ 48 := by
  rw [encryptSignal_toNat]
  simp only [translateSignal, htonl_htonl, htons_htons, toUInt32_and_toNat,
    toUInt16_shiftRight_toNat]
  omega

example : encryptSignal .little ⟨2, 0xa15b, 0⟩ = 0x5ba100000000 := by decide

end ServerSsh

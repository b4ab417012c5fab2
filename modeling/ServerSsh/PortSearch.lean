import ServerSsh.Processes
import ServerSsh.Search

/-!
# The search for a port

`Administraitor` binds its socket to the first port above `BROADCAST_PORT` for
which `bind` succeeds.  The addition to the port is an `int`, and `htons` keeps
16 bits of the sum.  Behind 65535 the search tries port 0, for which `bind` takes
any free port: the socket is bound, and the address that is announced has the
port 0.  Behind that come the ports below `BROADCAST_PORT`.

The occupied ports do not change during the search, so an addition fails when it
has failed one round before.  With every port occupied the loop goes on until
the sum overflows, which is not modelled: then no number of attempts is enough.
-/

namespace ServerSsh

open Processes Search

namespace PortSearch

/-- The ports of the machine. -/
structure Ports where
  occupied : UInt16 → Bool
  /-- The port that the kernel takes for port 0. -/
  pick : Option UInt16
  pick_free : ∀ p ∈ pick, p ≠ 0 ∧ occupied p = false
  /-- The kernel takes a port when there is one. -/
  pick_of_free : ∀ p, p ≠ 0 → occupied p = false → pick ≠ none

/-- A port above `BROADCAST_PORT` that `bind` succeeds for. -/
def Ports.Usable (k : Ports) (q : Nat) : Prop :=
  broadcastPort < q ∧ q ≤ 65535 ∧ k.occupied (UInt16.ofNat q) = false

/-- `bind`: the port that the socket has afterwards. -/
def Ports.bind (k : Ports) (e : Endian) (addr : SockaddrIn) : Option UInt16 :=
  let port := htons e addr.sinPort
  if port = 0 then k.pick else if k.occupied port then none else some port

/-- The administrator behind its bind loop. -/
structure Bound where
  additionPort : Nat
  /-- `bfd->admin`. -/
  addr : SockaddrIn
  /-- The port of the socket. -/
  port : UInt16
deriving DecidableEq

/-- One round of the bind loop. -/
def attempt (cfg : Config) (k : Ports) (additionPort : Nat) : Option Bound :=
  let addr := adminAddr cfg additionPort
  (k.bind cfg.endian addr).map fun port => ⟨additionPort, addr, port⟩

/-- The bind loop, for at most `fuel` rounds. -/
def bindLoop (cfg : Config) (k : Ports) (fuel : Nat) : Option Bound := first (attempt cfg k) fuel

/-- `mine_info`. -/
def mineInfo (cfg : Config) (b : Bound) : UInt64 := encryptSignal cfg.endian b.addr

/-- The port in `bfd->admin.sin_port`. -/
def Bound.recorded (cfg : Config) (b : Bound) : UInt16 := htons cfg.endian b.addr.sinPort

/-- What the administrator has recorded and announces is the port of its socket,
the least usable one. -/
structure Recorded (cfg : Config) (k : Ports) (b : Bound) : Prop where
  nonzero : b.recorded cfg ≠ 0
  port : b.recorded cfg = b.port
  least : IsLeast {q | k.Usable q} (b.recorded cfg).toNat
  announced : (mineInfo cfg b).toNat / 2 ^ 32 = (b.recorded cfg).toNat

/-- The loop stops, with the least usable port recorded, and without one nothing is
announced. -/
structure FindsPort (cfg : Config) (k : Ports) : Prop where
  ends : ∃ fuel, bindLoop cfg k fuel ≠ none
  recorded : ∀ {fuel b}, bindLoop cfg k fuel = some b → Recorded cfg k b
  silent : (¬ ∃ q, k.Usable q) → ∀ fuel, bindLoop cfg k fuel = none

instance (k : Ports) (q : Nat) : Decidable (k.Usable q) := inferInstanceAs (Decidable (_ ∧ _ ∧ _))

/-! ## One round -/

variable {cfg : Config} {k : Ports}

/-- For port 0 the kernel takes a port. -/
theorem Ports.bind_zero {e : Endian} {addr : SockaddrIn} (h : htons e addr.sinPort = 0) :
    k.bind e addr = k.pick := by
  simp only [bind, h, if_true]

/-- When no port is free, no `bind` succeeds. -/
theorem Ports.bind_full (h : k.pick = none) (e : Endian) (addr : SockaddrIn) :
    k.bind e addr = none := by
  by_cases hport : htons e addr.sinPort = 0
  · rw [bind_zero hport, h]
  · have hocc : k.occupied (htons e addr.sinPort) = true := by
      by_contra hfree
      exact k.pick_of_free _ hport (Bool.eq_false_iff.mpr hfree) h
    simp only [bind, if_neg hport, hocc, if_true]

theorem recorded_adminAddr (cfg : Config) (a : Nat) :
    htons cfg.endian (adminAddr cfg a).sinPort = UInt16.ofNat (broadcastPort + a) :=
  htons_htons ..

theorem toNat_port {q : Nat} (h : q ≤ 65535) : (UInt16.ofNat q).toNat = q :=
  UInt16.toNat_ofNat_of_lt' (show q < 2 ^ 16 by omega)

/-- Up to port 65535 a round succeeds for the usable ports. -/
theorem attempt_of_le {a : Nat} (ha : 0 < a) (hle : broadcastPort + a ≤ 65535) :
    attempt cfg k a = if k.Usable (broadcastPort + a)
      then some ⟨a, adminAddr cfg a, UInt16.ofNat (broadcastPort + a)⟩ else none := by
  have hne : UInt16.ofNat (broadcastPort + a) ≠ 0 := by
    intro h
    have hnat := congrArg UInt16.toNat h
    rw [toNat_port hle, UInt16.toNat_zero] at hnat
    omega
  rw [attempt]
  simp only [Ports.bind, recorded_adminAddr, if_neg hne]
  by_cases husable : k.Usable (broadcastPort + a)
  · rw [if_pos husable, if_neg (by rw [husable.2.2]; decide)]
    rfl
  · have hocc : k.occupied (UInt16.ofNat (broadcastPort + a)) = true := by
      by_contra hfree
      exact husable ⟨by omega, hle, Bool.eq_false_iff.mpr hfree⟩
    rw [if_neg husable, if_pos hocc]
    rfl

/-- The round behind port 65535 tries port 0. -/
theorem attempt_zero : attempt cfg k 42080
    = k.pick.map fun port => ⟨42080, ⟨afInet, 0, 0⟩, port⟩ := by
  have hport : htons cfg.endian (UInt16.ofNat (broadcastPort + 42080)) = 0 := by
    cases cfg.endian <;> rfl
  have haddr : adminAddr cfg 42080 = ⟨afInet, 0, 0⟩ := by rw [adminAddr, hport]
  have hzero : htons cfg.endian 0 = 0 := by cases cfg.endian <;> rfl
  rw [attempt, haddr, Ports.bind_zero hzero]

/-! ## The loop -/

/-- When no port is free, the loop does not stop. -/
theorem bindLoop_full (h : k.pick = none) (fuel : Nat) : bindLoop cfg k fuel = none :=
  first_eq_none (fun a _ => by rw [attempt, Ports.bind_full h, Option.map_none]) fuel

/-- A usable port is tried and taken. -/
theorem attempt_usable {q : Nat} (hq : k.Usable q) :
    0 < q - broadcastPort ∧ (attempt cfg k (q - broadcastPort)).isSome := by
  have hlt := hq.1
  have hle := hq.2.1
  have hsum : broadcastPort + (q - broadcastPort) = q := by omega
  refine ⟨by omega, ?_⟩
  rw [attempt_of_le (by omega) (by omega), hsum, if_pos hq]
  rfl

/-- With a usable port the search stops before the wrap and records it. -/
theorem recorded_of_usable {q fuel : Nat} {b : Bound} (hq : k.Usable q)
    (h : bindLoop cfg k fuel = some b) : Recorded cfg k b := by
  obtain ⟨a, hb, ⟨ha, -⟩, hleast⟩ := first_eq_some h
  have hbelow : ∀ {q'}, k.Usable q' → a ≤ q' - broadcastPort := fun hq' =>
    hleast (attempt_usable hq')
  have hle : broadcastPort + a ≤ 65535 := by
    have := hbelow hq
    have := hq.1
    have := hq.2.1
    omega
  rw [attempt_of_le ha hle] at hb
  split at hb
  next husable =>
    cases hb
    have hrec : (⟨a, adminAddr cfg a, UInt16.ofNat (broadcastPort + a)⟩ : Bound).recorded cfg
        = UInt16.ofNat (broadcastPort + a) := recorded_adminAddr cfg a
    have hnat := toNat_port hle
    refine ⟨?_, hrec, ?_, ?_⟩
    · rw [hrec]
      intro h0
      rw [h0, UInt16.toNat_zero] at hnat
      omega
    · rw [hrec, hnat]
      refine ⟨husable, ?_⟩
      intro q' hq'
      have := hbelow hq'
      have := hq'.1
      omega
    · have haddr := (htonl cfg.endian (adminAddr cfg a).sinAddr).toNat_lt
      rw [mineInfo, encryptSignal_toNat, Nat.mul_add_div (by omega), Nat.div_eq_of_lt haddr,
        Nat.add_zero]
      rfl
  next => cases hb

/-- Without a usable port the search goes on to port 0, and what is announced is
not the port of the socket. -/
theorem bindLoop_wraps {p : UInt16} (hnone : ¬ ∃ q, k.Usable q) (hp : k.pick = some p) :
    (∃ fuel b, bindLoop cfg k fuel = some b) ∧
      ∀ fuel b, bindLoop cfg k fuel = some b → b.recorded cfg = 0 ∧ b.port = p ∧ p ≠ 0 := by
  have hzero : (attempt cfg k 42080).isSome := by rw [attempt_zero, hp]; rfl
  refine ⟨exists_first (by omega) hzero, ?_⟩
  intro fuel b h
  obtain ⟨a, hb, ⟨ha, hsome⟩, hleast⟩ := first_eq_some h
  have hle : a ≤ 42080 := hleast ⟨by omega, hzero⟩
  have hwrap : a = 42080 := by
    by_contra hne
    have hbp : broadcastPort = 23456 := rfl
    rw [attempt_of_le ha (by omega), if_neg fun hu => hnone ⟨_, hu⟩] at hsome
    cases hsome
  subst hwrap
  rw [attempt_zero, hp] at hb
  cases hb
  refine ⟨?_, rfl, (k.pick_free p hp).1⟩
  show htons cfg.endian 0 = 0
  cases cfg.endian <;> rfl

/-- The steps of the administrator that record the address and announce it. -/
theorem admin_announces {fuel : Nat} {b : Bound} {addr : SockaddrIn}
    (h : bindLoop cfg k fuel = some b) :
    (⟨.started, addr⟩ : Admin).step cfg (.bind b.additionPort) = some (⟨.bound, b.addr⟩, none) ∧
      (⟨.bound, b.addr⟩ : Admin).step cfg .announce
        = some (⟨.announced, b.addr⟩, some (.usr1, mineInfo cfg b)) := by
  obtain ⟨a, hb, ⟨ha, -⟩, -⟩ := first_eq_some h
  obtain ⟨port, -, rfl⟩ := Option.map_eq_some_iff.mp hb
  exact ⟨if_pos ⟨rfl, ha⟩, rfl⟩

/-! ## The port that is announced -/

/-- The search ends with the least usable port recorded and announced exactly
when there is a usable port.  Otherwise the loop records port 0, or does not stop. -/
theorem finds_port_iff (cfg : Config) (k : Ports) : FindsPort cfg k ↔ ∃ q, k.Usable q := by
  constructor
  · intro h
    by_contra hnone
    cases hpick : k.pick with
    | none =>
        obtain ⟨fuel, hends⟩ := h.ends
        exact hends (bindLoop_full hpick fuel)
    | some p =>
        obtain ⟨⟨fuel, b, hb⟩, hwraps⟩ := bindLoop_wraps hnone hpick
        exact (h.recorded hb).nonzero (hwraps fuel b hb).1
  · rintro ⟨q, hq⟩
    refine ⟨?_, recorded_of_usable hq, fun hnone => absurd ⟨q, hq⟩ hnone⟩
    obtain ⟨ha, hsome⟩ := attempt_usable hq
    obtain ⟨fuel, b, hb⟩ := exists_first ha hsome
    exact ⟨fuel, Option.ne_none_iff_exists'.mpr ⟨b, hb⟩⟩

/-- A machine with every port above `BROADCAST_PORT` occupied. -/
def crowded : Ports where
  occupied p := decide (23456 < p.toNat)
  pick := some 1024
  pick_free := by
    intro p hp
    cases hp
    exact ⟨by decide, by decide⟩
  pick_of_free := by
    intro p _ _ h
    cases h

/-- There the port that is announced is 0. -/
theorem port_zero_announced : ¬ ∀ (cfg : Config) (k : Ports), FindsPort cfg k := by
  intro hclaim
  have hnone : ¬ ∃ q, crowded.Usable q := by
    rintro ⟨q, hlt, hle, hfree⟩
    have hocc : decide (23456 < (UInt16.ofNat q).toNat) = false := hfree
    rw [toNat_port hle] at hocc
    exact of_decide_eq_false hocc hlt
  have hfinds := hclaim ⟨.udp, .little⟩ crowded
  obtain ⟨⟨fuel, b, hb⟩, hwraps⟩ := bindLoop_wraps hnone rfl
  exact (hfinds.recorded hb).nonzero (hwraps fuel b hb).1

end PortSearch

end ServerSsh

import ServerSsh.Libc.Strings
import ServerSsh.Processes

/-!
# The connection argument

`main` of the client cuts its third argument, `_USER_@_IP_:_PORT_`, at two
positions that it searches for independently: the first `'@'` and the first
`':'`.  The lengths of the copies are differences of these positions.  The test
behind the second search is of the first result again, so an argument without a
`':'` goes on with a null pointer, and a `':'` before the `'@'` makes the length
of the second copy negative, which `strncpy` takes as a huge one.

`inet_pton` is a parameter: the address of a text, if it is one.
-/

namespace ServerSsh

open Libc

/-- The conversion of an `int` to `uint16_t`. -/
def shortOfInt (i : Int) : UInt16 := UInt16.ofNat (i % 2 ^ 16).toNat

namespace Client

/-- What `main` makes of the argument. -/
structure Destination where
  userName : MessageBuf
  ipForConnection : MessageBuf
  portForConnection : MessageBuf
  lenUser : Int
  lenIp : Int
  /-- `con_data.admin`. -/
  admin : SockaddrIn

variable {n : Nat} (e : Endian) (inetPton : Bytes → Option UInt32)

/-- The part of `main` from the search for `':'` on, where `user` has been copied
and ends at `spaceUser`. -/
def splitAddress (argv3 : Buf n) (userName : MessageBuf) (lenUser : Int) (spaceUser : Nat) :
    Except Fault Destination := do
  let spaceIp ← argv3.strchr 0 58
  -- The code tests `space_user` here, which is not null.
  let spaceIp ← deref spaceIp
  let lenIp : Int := spaceIp - spaceUser - 1
  let ip ← (Buf.zero maxCommandLenght).strncpy argv3 (spaceUser + 1) (sizeOfInt lenIp).toNat
  let port ← (Buf.zero maxCommandLenght).strcpy argv3 (spaceIp + 1)
  let ipText ← ip.cstring 0
  let portText ← port.cstring 0
  pure
    { userName := userName
      ipForConnection := ip
      portForConnection := port
      lenUser := lenUser
      lenIp := lenIp
      admin := ⟨Processes.afInet, htons e (shortOfInt (atoi portText)),
        (inetPton ipText).getD 0⟩ }

/-- The part of `main` that splits its third argument, `none` for its
`exit(EXIT_FAILURE)`. -/
def splitArgument (argv3 : Buf n) : Except Fault (Option Destination) := do
  match ← argv3.strchr 0 64 with
  | none => pure none
  | some spaceUser => do
      let lenUser : Int := spaceUser
      let userName ← (Buf.zero maxCommandLenght).strncpy argv3 0 (sizeOfInt lenUser).toNat
      let d ← splitAddress e inetPton argv3 userName lenUser spaceUser
      pure (some d)

/-! ## What is right -/

/-- An argument is rejected when it has no `'@'` with a `':'` behind it, and
otherwise split as it is written. -/
def SplitRight (s : Bytes) : Except Fault (Option Destination) → Prop
  | .ok none => ¬ ∃ user ip port, s = user ++ 64 :: (ip ++ 58 :: port)
  | .ok (some d) =>
      0 ≤ d.lenUser ∧ 0 ≤ d.lenIp ∧
        ∃ user ip port, s = user ++ 64 :: (ip ++ 58 :: port) ∧ 64 ∉ user ∧
          d.userName.cstring 0 = .ok user ∧ d.ipForConnection.cstring 0 = .ok ip ∧
          d.portForConnection.cstring 0 = .ok port
  | .error _ => False

/-- There is no `'@'`, or the first `':'` stands behind the first `'@'`. -/
def InOrder (s : Bytes) : Prop :=
  64 ∉ s ∨ ∃ user ip port, s = user ++ 64 :: (ip ++ 58 :: port) ∧ 64 ∉ user ∧ 58 ∉ user

/-! ## The three ways through the code -/

section Ways

variable {n : Nat} (e : Endian) (inetPton : Bytes → Option UInt32) {s user : Bytes}

/-- Without an `'@'` the client exits. -/
theorem splitArgument_of_notMem (h0 : 0 ∉ s) (hn : s.length < n) (h : 64 ∉ s) :
    splitArgument e inetPton (Buf.ofBytes s hn.le) = .ok none := by
  obtain ⟨rest, hfrom⟩ := Buf.exists_from_zero hn rfl
  rw [splitArgument, hfrom.strchr_none h0 h (by decide)]
  rfl

/-- Up to the first `'@'` the user is copied. -/
theorem splitArgument_of_user {t : Bytes} (h0 : 0 ∉ s) (hs : s.length < maxCommandLenght)
    (hn : s.length < n) (huser : 64 ∉ user) (hsplit : s = user ++ 64 :: t) :
    ∃ userName : MessageBuf, userName.cstring 0 = .ok user ∧
      splitArgument e inetPton (Buf.ofBytes s hn.le)
        = (splitAddress e inetPton (Buf.ofBytes s hn.le) userName user.length user.length).map
            some := by
  have hmax : maxCommandLenght = 65536 := rfl
  obtain ⟨rest, hfrom⟩ := Buf.exists_from_zero hn hsplit
  rw [List.append_assoc, List.cons_append] at hfrom
  have hlen : user.length < s.length := by
    rw [hsplit, List.length_append, List.length_cons]
    omega
  have hu0 : 0 ∉ user := fun h => h0 (hsplit ▸ List.mem_append_left _ h)
  have hchr := hfrom.strchr hu0 huser
  rw [Nat.zero_add] at hchr
  have hcopy := Buf.strncpy_eq_take (n := maxCommandLenght) hu0 hfrom rfl (by omega)
  refine ⟨_, Buf.cstring_ofBytes hu0 (by omega), ?_⟩
  rw [splitArgument, hchr, ok_bind]
  show (Buf.strncpy _ _ 0 (sizeOfInt (user.length : Int)).toNat >>= _) = _
  rw [sizeOfInt_toNat (by omega), hcopy, ok_bind]
  cases splitAddress e inetPton (Buf.ofBytes s hn.le) _ user.length user.length <;> rfl

/-- Without a `':'` the client uses a null pointer. -/
theorem splitAddress_of_notMem (userName : MessageBuf) (lenUser : Int) (spaceUser : Nat)
    (h0 : 0 ∉ s) (hn : s.length < n) (h : 58 ∉ s) :
    splitAddress e inetPton (Buf.ofBytes s hn.le) userName lenUser spaceUser
      = .error .nullPointer := by
  obtain ⟨rest, hfrom⟩ := Buf.exists_from_zero hn rfl
  rw [splitAddress, hfrom.strchr_none h0 h (by decide)]
  rfl

/-- The search for `':'` stops at the first one. -/
theorem strchr_colon {front t : Bytes} (h0 : 0 ∉ s) (hn : s.length < n) (hfront : 58 ∉ front)
    (hsplit : s = front ++ 58 :: t) :
    (Buf.ofBytes s hn.le).strchr 0 58 = .ok (some front.length) := by
  obtain ⟨rest, hfrom⟩ := Buf.exists_from_zero hn hsplit
  rw [List.append_assoc, List.cons_append] at hfrom
  have hchr := hfrom.strchr (fun h => h0 (hsplit ▸ List.mem_append_left _ h)) hfront
  rwa [Nat.zero_add] at hchr

/-- With the first `':'` before the end of the user the second copy is too
long. -/
theorem splitAddress_of_early {front t : Bytes} (userName : MessageBuf) (lenUser : Int)
    {spaceUser : Nat} (h0 : 0 ∉ s) (hs : s.length < maxCommandLenght) (hn : s.length < n)
    (hfront : 58 ∉ front) (hsplit : s = front ++ 58 :: t) (hlt : front.length < spaceUser)
    (hle : spaceUser ≤ s.length) :
    splitAddress e inetPton (Buf.ofBytes s hn.le) userName lenUser spaceUser
      = .error .outOfBounds := by
  have hmax : maxCommandLenght = 65536 := rfl
  have hhuge := sizeOfInt_toNat_of_neg (i := (front.length : Int) - spaceUser - 1) (by omega)
    (by omega)
  rw [splitAddress, strchr_colon h0 hn hfront hsplit, ok_bind]
  show (Buf.strncpy _ _ (spaceUser + 1) (sizeOfInt _).toNat >>= _) = _
  rw [Buf.strncpy_of_lt _ _ _ (by omega)]
  rfl

/-- With the first `':'` behind the user both parts are copied. -/
theorem splitAddress_of_parts {ip port : Bytes} (userName : MessageBuf) (h0 : 0 ∉ s)
    (hs : s.length < maxCommandLenght) (hn : s.length < n) (huser : 58 ∉ user) (hip : 58 ∉ ip)
    (hsplit : s = user ++ 64 :: (ip ++ 58 :: port)) :
    ∃ d, splitAddress e inetPton (Buf.ofBytes s hn.le) userName user.length user.length = .ok d ∧
      d.userName = userName ∧ d.lenUser = user.length ∧ d.lenIp = ip.length ∧
      d.ipForConnection.cstring 0 = .ok ip ∧ d.portForConnection.cstring 0 = .ok port := by
  have hmax : maxCommandLenght = 65536 := rfl
  obtain ⟨rest, hfrom⟩ := Buf.exists_from_zero hn hsplit
  simp only [List.append_assoc, List.cons_append] at hfrom
  have hlen := congrArg List.length hsplit
  simp only [List.length_append, List.length_cons] at hlen
  have hfront : 58 ∉ user ++ 64 :: ip := by simp [huser, hip]
  have hsplit' : s = (user ++ 64 :: ip) ++ 58 :: port := by simp [hsplit]
  have hfrontlen : (user ++ 64 :: ip).length = user.length + 1 + ip.length := by
    rw [List.length_append, List.length_cons]
    omega
  have hzero := h0
  rw [hsplit, List.mem_append, List.mem_cons, List.mem_append, List.mem_cons] at hzero
  simp only [not_or] at hzero
  obtain ⟨-, -, hi0, -, hp0⟩ := hzero
  have hipFrom := hfrom.skip_cons
  have hportFrom := hipFrom.skip_cons
  rw [Nat.zero_add] at hipFrom hportFrom
  have hcopy := Buf.strncpy_eq_take (n := maxCommandLenght) hi0 hipFrom rfl (by omega)
  have hstrcpy := Buf.strcpy_eq (n := maxCommandLenght) (hportFrom.cstring hp0) (by omega)
  have hlenIp : (((user.length + 1 + ip.length : Nat) : Int) - user.length - 1) = ip.length := by
    omega
  have hipText := Buf.cstring_ofBytes hi0 (show ip.length < maxCommandLenght by omega)
  have hportText := Buf.cstring_ofBytes hp0 (show port.length < maxCommandLenght by omega)
  rw [splitAddress, strchr_colon h0 hn hfront hsplit', ok_bind, hfrontlen]
  show ∃ d, (Buf.strncpy _ _ (user.length + 1) (sizeOfInt _).toNat >>= _) = _ ∧ _
  rw [hlenIp, sizeOfInt_toNat (by omega), hcopy, ok_bind, hstrcpy, ok_bind, hipText, ok_bind,
    hportText, ok_bind]
  exact ⟨_, rfl, rfl, rfl, rfl, hipText, hportText⟩

end Ways

/-! ## Split or rejected -/

/-- The argument is split right, or rejected right, exactly when it has no `'@'`
or has its first `':'` behind its first `'@'`. -/
theorem connection_argument_iff (e : Endian) (inetPton : Bytes → Option UInt32) {n : Nat}
    {s : Bytes} (h0 : 0 ∉ s) (hs : s.length < maxCommandLenght) (hn : s.length < n) :
    SplitRight s (splitArgument e inetPton (Buf.ofBytes s hn.le)) ↔ InOrder s := by
  by_cases hat : 64 ∈ s
  · obtain ⟨user, t, hsplit, huser⟩ := List.eq_append_cons_of_mem hat
    obtain ⟨userName, htext, heq⟩ := splitArgument_of_user e inetPton h0 hs hn huser hsplit
    rw [heq]
    by_cases hearly : 58 ∈ user
    · obtain ⟨front, back, rfl, hfront⟩ := List.eq_append_cons_of_mem hearly
      have hsplit' : s = front ++ 58 :: (back ++ 64 :: t) := by
        rw [hsplit, List.append_assoc, List.cons_append]
      rw [splitAddress_of_early e inetPton userName _ h0 hs hn hfront hsplit' (by simp)
        (by simp [hsplit])]
      refine iff_of_false id ?_
      rintro (h | ⟨user', ip, port, h, huser', hcolon⟩)
      · exact h hat
      · -- The split at the first `'@'` is unique.
        obtain ⟨rfl, -⟩ := append_cons_inj huser' huser (h.symm.trans hsplit)
        exact hcolon hearly
    · by_cases hcolon : 58 ∈ t
      · obtain ⟨ip, port, rfl, hip⟩ := List.eq_append_cons_of_mem hcolon
        obtain ⟨d, hd, hname, hlu, hli, hipText, hportText⟩ :=
          splitAddress_of_parts e inetPton userName h0 hs hn hearly hip hsplit
        rw [hd]
        refine iff_of_true ?_ (Or.inr ⟨user, ip, port, hsplit, huser, hearly⟩)
        refine ⟨by omega, by omega, user, ip, port, hsplit, huser, ?_, hipText, hportText⟩
        rw [hname, htext]
      · have hnone : 58 ∉ s := by simp [hsplit, hearly, hcolon]
        rw [splitAddress_of_notMem e inetPton userName _ _ h0 hn hnone]
        refine iff_of_false id ?_
        rintro (h | ⟨user', ip, port, h, -, -⟩)
        · exact h hat
        · exact hnone (by simp [h])
  · rw [splitArgument_of_notMem e inetPton h0 hn hat]
    refine iff_of_true ?_ (Or.inl hat)
    rintro ⟨user, ip, port, h⟩
    exact hat (by simp [h])

/-- An argument as the comment in `main` writes it. -/
theorem connection_argument_iff_bob :
    SplitRight (ascii "bob@10.0.0.7:23457")
      (splitArgument .little (fun t => if t = ascii "10.0.0.7" then some 0x0700000a else none)
        (Buf.ofBytes (ascii "bob@10.0.0.7:23457") (show _ ≤ 32 by decide))) :=
  (connection_argument_iff _ _ (by decide) (by decide) (by decide)).mpr
    (Or.inr ⟨ascii "bob", ascii "10.0.0.7", ascii "23457", by decide, by decide, by decide⟩)

/-- Without a port the client uses a null pointer. -/
theorem connection_argument_null :
    ¬ ∀ (e : Endian) (inetPton : Bytes → Option UInt32) (n : Nat) (s : Bytes), 0 ∉ s →
      s.length < maxCommandLenght → ∀ hn : s.length < n,
        SplitRight s (splitArgument e inetPton (Buf.ofBytes s hn.le)) := by
  intro hclaim
  have hn : (ascii "bob@10.0.0.7").length < 32 := by decide
  have h := hclaim .little (fun _ => none) 32 (ascii "bob@10.0.0.7") (by decide) (by decide) hn
  have hsplit : ascii "bob@10.0.0.7" = ascii "bob" ++ 64 :: ascii "10.0.0.7" := by decide
  obtain ⟨userName, -, heq⟩ := splitArgument_of_user .little (fun _ => none) (by decide) (by decide)
    hn (by decide) hsplit
  rw [heq, splitAddress_of_notMem _ _ userName _ _ (by decide) hn (by decide)] at h
  exact h

end Client

end ServerSsh

import ServerSsh.Arguments
import ServerSsh.Discovery
import ServerSsh.ServerList

/-!
# From a reply to a connection

The three programs agree on a server's address by texts.  The scanner sends the port
of an administrator in decimal, the client prints it behind the dotted address of the
sender, and the user types both into the argument of the next start of the client,
which reads them with `inet_pton` and `atoi`.

`typed_endpoint` follows an address along this way: what the client gets in
`con_data.admin` is the address from which the reply came, and the port of a socket
that an administrator had bound, unless the reply says 0.
-/

namespace ServerSsh

open Libc Transition ServerList

namespace Endpoint

/-! ## Dotted addresses -/

/-- A field of a dotted address.  It has no leading zero. -/
def octet (t : Bytes) : Option Nat :=
  if t ≠ [] ∧ t.length ≤ 3 ∧ t.all isDigit ∧ (t.head? = some 48 → t.length = 1)
      ∧ digitsVal t ≤ 255 then
    some (digitsVal t)
  else none

/-- `inet_pton` for `AF_INET`. -/
def inetPton (e : Endian) (src : Bytes) : Option UInt32 :=
  match (src.splitOn 46).map octet with
  | [some h0, some h1, some h2, some h3] =>
      some (htonl e (UInt32.ofNat (h0 * 16777216 + h1 * 65536 + h2 * 256 + h3)))
  | _ => none

theorem octet_decimal {n : Nat} (h : n < 256) : octet (decimal n) = some n := by
  have hval := digitsVal_decimal n noDigit_nil
  rw [List.append_nil] at hval
  rw [octet, hval, if_pos]
  refine ⟨decimal_ne_nil n, ?_, List.all_eq_true.mpr fun b => isDigit_of_mem_decimal, ?_, by omega⟩
  · rw [decimal_length_le_iff (by decide)]
    omega
  · intro hzero
    rw [decimal_head_iff.mp hzero]
    rfl

/-- A printed address is read back. -/
theorem inetPton_inetNtoa (e : Endian) (sinAddr : UInt32) :
    inetPton e (inetNtoa e sinAddr) = some sinAddr := by
  have hdot : ∀ n, 46 ∉ decimal n := notMem_decimal (by decide)
  have hlt := (htonl e sinAddr).toNat_lt
  rw [inetPton, inetNtoa, List.splitOn_append_cons_self_of_not_mem (hdot _),
    List.splitOn_append_cons_self_of_not_mem (hdot _),
    List.splitOn_append_cons_self_of_not_mem (hdot _), List.splitOn_eq_singleton (hdot _)]
  simp only [List.map_cons, List.map_nil]
  rw [octet_decimal (by omega), octet_decimal (by omega), octet_decimal (by omega),
    octet_decimal (by omega)]
  dsimp only
  have hsum : (htonl e sinAddr).toNat / 16777216 * 16777216
      + (htonl e sinAddr).toNat / 65536 % 256 * 65536
      + (htonl e sinAddr).toNat / 256 % 256 * 256 + (htonl e sinAddr).toNat % 256
      = (htonl e sinAddr).toNat := by omega
  rw [hsum, UInt32.ofNat_toNat, htonl_htonl]

/-! ## What is printed of a reply -/

/-- What a user types for a line that was printed: his name, the address, and the port
without the newline. -/
def typed (user : Bytes) (l : Line) : Bytes :=
  user ++ 64 :: (l.ip ++ 58 :: l.answer.takeWhile (· ≠ 10))

/-- The line that is printed of the answer of a scanner. -/
theorem line_of_poll {e : Endian} {find : Find} {d : Reply} {l : Line} {port : UInt16}
    (hd : d.data = Discovery.answer port) (hl : (poll e find (some d)).2 = some l) :
    l.ip = inetNtoa e d.source.sinAddr ∧ l.answer.takeWhile (· ≠ 10) = decimal port.toNat := by
  have hnewline : ∀ b ∈ decimal port.toNat, decide (b ≠ 10) = true := fun b hb =>
    decide_eq_true fun h => notMem_decimal (by decide) port.toNat (h ▸ hb)
  have hzero : 0 ∉ Discovery.answer port := by
    simp [Discovery.answer, ascii, notMem_decimal (show isDigit 0 = false from rfl)]
  have hshort : (Discovery.answer port).length < maxCommandLenght := by
    have hlen : (decimal port.toNat).length ≤ 5 := by
      rw [decimal_length_le_iff (by decide)]
      exact port.toNat_lt.trans (by decide)
    have hmax : maxCommandLenght = 65536 := rfl
    rw [Discovery.answer, List.length_append]
    have hend : (ascii "\n").length = 1 := by decide
    omega
  rw [poll] at hl
  split at hl
  next =>
    cases hl
    refine ⟨rfl, ?_⟩
    have hcut := (Posix.cut_recvfrom (hd ▸ hshort)).2
    show (cut (Posix.recvfrom maxCommandLenght d.data).bytes).takeWhile _ = _
    rw [hcut, hd, cut_eq_self hzero, Discovery.answer, List.takeWhile_append_of_pos hnewline]
    simp [ascii]
  next => cases hl

/-! ## What the client makes of it -/

/-- The address that the client connects to. -/
theorem splitAddress_admin {n : Nat} {e : Endian} {pton : Bytes → Option UInt32} {argv3 : Buf n}
    {userName : MessageBuf} {lenUser : Int} {spaceUser : Nat} {d : Client.Destination}
    (h : Client.splitAddress e pton argv3 userName lenUser spaceUser = .ok d) :
    ∃ ip port, d.ipForConnection.cstring 0 = .ok ip ∧ d.portForConnection.cstring 0 = .ok port ∧
      d.admin = ⟨Processes.afInet, htons e (shortOfInt (atoi port)), (pton ip).getD 0⟩ := by
  obtain ⟨spaceIp, -, h⟩ := bind_eq_ok.mp h
  obtain ⟨spaceIp, -, h⟩ := bind_eq_ok.mp h
  obtain ⟨ip, -, h⟩ := bind_eq_ok.mp h
  obtain ⟨port, -, h⟩ := bind_eq_ok.mp h
  obtain ⟨ipText, hip, h⟩ := bind_eq_ok.mp h
  obtain ⟨portText, hport, h⟩ := bind_eq_ok.mp h
  cases h
  exact ⟨ipText, portText, hip, hport, rfl⟩

/-- An argument with a printed address and a printed port. -/
theorem splitArgument_printed {n : Nat} (e : Endian) {s user : Bytes} (sinAddr : UInt32)
    (port : UInt16) (h0 : 0 ∉ s) (hs : s.length < maxCommandLenght) (hn : s.length < n)
    (huser : 64 ∉ user) (hcolon : 58 ∉ user)
    (hsplit : s = user ++ 64 :: (inetNtoa e sinAddr ++ 58 :: decimal port.toNat)) :
    ∃ d, Client.splitArgument e (inetPton e) (Buf.ofBytes s hn.le) = .ok (some d) ∧
      d.userName.cstring 0 = .ok user ∧
      d.admin = ⟨Processes.afInet, htons e port, sinAddr⟩ := by
  have hip : 58 ∉ inetNtoa e sinAddr := by
    simp [inetNtoa, notMem_decimal (show isDigit 58 = false from rfl)]
  obtain ⟨userName, hname, hsplitArgument⟩ :=
    Client.splitArgument_of_user e (inetPton e) h0 hs hn huser hsplit
  obtain ⟨d, hd, hdname, -, -, hdip, hdport⟩ :=
    Client.splitAddress_of_parts e (inetPton e) userName h0 hs hn hcolon hip hsplit
  obtain ⟨ip, portText, hip', hport', hadmin⟩ := splitAddress_admin hd
  cases Except.ok.inj (hdip.symm.trans hip')
  cases Except.ok.inj (hdport.symm.trans hport')
  have hatoi : atoi (decimal port.toNat) = port.toNat := by
    have h := atoi_decimal (port.toNat_lt.trans (by decide)) noDigit_nil
    rwa [List.append_nil] at h
  have hshort : shortOfInt (port.toNat : Int) = port := by
    have hlt := port.toNat_lt
    have hmod : ((port.toNat : Int) % 2 ^ 16).toNat = port.toNat := by omega
    rw [shortOfInt, hmod, UInt16.ofNat_toNat]
  refine ⟨d, ?_, hdname ▸ hname, ?_⟩
  · rw [hsplitArgument, hd]
    rfl
  · rw [hadmin, hatoi, hshort, inetPton_inetNtoa]
    rfl

/-! ## The whole way -/

/-- `d` is a reply that a server sent in one of its runs. -/
structure Sent (cfg : Processes.Config) (d : Reply) (r : Discovery.Reply) : Prop where
  text : d.data = r.bufAnswer
  sent : ∃ s, Reachable (Discovery.step cfg) Any Discovery.initial s ∧ r ∈ s.replies

/-- The port in the text of a reply. -/
theorem Sent.port {cfg : Processes.Config} {d : Reply} {r : Discovery.Reply} (h : Sent cfg d r) :
    ∃ port, d.data = Discovery.answer port ∧
      (port = 0 ∨ ∃ addr ∈ r.bound, addr.sinPort ≠ 0 ∧ port = htons cfg.endian addr.sinPort) := by
  obtain ⟨s, hs, hr⟩ := h.sent
  rcases (Discovery.reachable_answers hs).sent r hr with hzero | ⟨addr, haddr, hport, htext⟩
  · exact ⟨0, h.text.trans hzero, Or.inl rfl⟩
  · exact ⟨_, h.text.trans htext, Or.inr ⟨addr, haddr, hport, rfl⟩⟩

theorem Sent.ne_nil {cfg : Processes.Config} {d : Reply} {r : Discovery.Reply} (h : Sent cfg d r) :
    d.data ≠ [] := by
  obtain ⟨port, hport, -⟩ := h.port
  simp [hport, Discovery.answer, decimal_ne_nil]

/-- Each line is printed of a reply. -/
theorem exists_poll_of_listed {e : Endian} {l : Line} (rs : List (Option Reply)) :
    ∀ s : Find, (∀ d, some d ∈ rs → d.data ≠ []) → s.servAddr.sinAddr = s.previos.sinAddr →
      l ∈ listed e s rs → ∃ d, some d ∈ rs ∧ ∃ find, (poll e find (some d)).2 = some l := by
  induction rs with
  | nil =>
      intro s _ _ hl
      cases hl
  | cons r rs ih =>
      intro s hrs hs hl
      have htail : ∀ d, some d ∈ rs → d.data ≠ [] := fun d h => hrs d (List.mem_cons_of_mem _ h)
      have hnext : (poll e s r).1.servAddr.sinAddr = (poll e s r).1.previos.sinAddr := by
        cases r with
        | none => rw [poll_none hs]; exact hs
        | some d =>
            rw [poll_some (hrs d (List.mem_cons_self ..))]
            split
            next => rfl
            next heq => exact (not_not.mp heq).symm
      rw [listed, List.mem_append, Option.mem_toList] at hl
      rcases hl with hl | hl
      · cases r with
        | none => rw [poll_none hs] at hl; cases hl
        | some d => exact ⟨d, List.mem_cons_self .., s, hl⟩
      · obtain ⟨d, hd, hfind⟩ := ih _ htail hnext hl
        exact ⟨d, List.mem_cons_of_mem _ hd, hfind⟩

/-- Of each line that is printed of the replies of servers, the client makes the
address of its sender and a port that was bound there, or 0. -/
theorem typed_endpoint {e : Endian} {rs : List (Option Reply)} {l : Line} {user : Bytes} {n : Nat}
    (hrs : ∀ d, some d ∈ rs → ∃ cfg r, Sent cfg d r) (hl : l ∈ listed e (.start e) rs)
    (h0 : 0 ∉ user) (hat : 64 ∉ user) (hcolon : 58 ∉ user)
    (hlen : (typed user l).length < maxCommandLenght) (hn : (typed user l).length < n) :
    ∃ d cfg r dest, some d ∈ rs ∧ Sent cfg d r ∧
      Client.splitArgument e (inetPton e) (Buf.ofBytes (typed user l) hn.le) = .ok (some dest) ∧
      dest.userName.cstring 0 = .ok user ∧ dest.admin.sinAddr = d.source.sinAddr ∧
      (r.bufAnswer = Discovery.answer 0 ∧ dest.admin.sinPort = 0 ∨
        ∃ addr ∈ r.bound, addr.sinPort ≠ 0 ∧
          htons e dest.admin.sinPort = htons cfg.endian addr.sinPort) := by
  have hdata : ∀ d, some d ∈ rs → d.data ≠ [] := by
    intro d hd
    obtain ⟨cfg, r, hsent⟩ := hrs d hd
    exact hsent.ne_nil
  obtain ⟨d, hd, find, hfind⟩ := exists_poll_of_listed rs (.start e) hdata rfl hl
  obtain ⟨cfg, r, hsent⟩ := hrs d hd
  obtain ⟨port, htext, hport⟩ := hsent.port
  obtain ⟨hip, hanswer⟩ := line_of_poll htext hfind
  have htyped : typed user l
      = user ++ 64 :: (inetNtoa e d.source.sinAddr ++ 58 :: decimal port.toNat) := by
    rw [typed, hip, hanswer]
  have hzero : 0 ∉ typed user l := by
    simp [htyped, h0, inetNtoa, notMem_decimal (show isDigit 0 = false from rfl)]
  obtain ⟨dest, hdest, hname, hadmin⟩ :=
    splitArgument_printed e d.source.sinAddr port hzero hlen hn hat hcolon htyped
  refine ⟨d, cfg, r, dest, hd, hsent, hdest, hname, ?_, ?_⟩
  · rw [hadmin]
  rw [hadmin, htons_htons]
  rcases hport with rfl | ⟨addr, haddr, hne, rfl⟩
  · exact Or.inl ⟨hsent.text.symm.trans htext, by cases e <;> rfl⟩
  · exact Or.inr ⟨addr, haddr, hne, rfl⟩

/-- The reply of `sampleSchedule`, and bob's argument for it. -/
theorem typed_endpoint_bob :
    ∃ dest, Client.splitArgument .little (inetPton .little)
        (Buf.ofBytes (ascii "bob@10.0.0.7:23457") (show _ ≤ 32 by decide)) = .ok (some dest) ∧
      dest.userName.cstring 0 = .ok (ascii "bob") ∧ dest.admin.sinAddr = 0x0700000a := by
  have hrun : (run (Discovery.step ⟨.tcp, .little⟩) Any Discovery.initial
      Discovery.sampleSchedule).map (fun s => s.replies.map Discovery.Reply.bufAnswer)
        = some [ascii "23457\n"] := by decide
  obtain ⟨s, hs, htext⟩ := Option.map_eq_some_iff.mp hrun
  obtain ⟨r, hr, hanswer⟩ := List.mem_map.mp (htext ▸ List.mem_singleton.mpr rfl :
    ascii "23457\n" ∈ s.replies.map Discovery.Reply.bufAnswer)
  let d : Reply := ⟨ascii "23457\n", ⟨2, 0xa05b, 0x0700000a⟩, by decide⟩
  have hrs : ∀ d', some d' ∈ [none, some d] → ∃ cfg r, Sent cfg d' r := by
    intro d' hd'
    have hd' : d' = d := by simpa using hd'
    exact ⟨_, r, hd' ▸ hanswer.symm, s, reachable_of_run hs, hr⟩
  have hl : (⟨ascii "10.0.0.7", ascii "23457\n"⟩ : Line)
      ∈ listed .little (.start .little) [none, some d] := by
    have hcut := (Posix.cut_recvfrom (n := maxCommandLenght) (d := d.data) (by decide)).2
    have hip : inetNtoa .little d.source.sinAddr = ascii "10.0.0.7" := by decide
    rw [listed, poll_none (by decide), listed, poll_some (by decide), if_pos (by decide), hcut, hip]
    exact List.mem_append_right _ (List.mem_append_left _ (List.mem_singleton.mpr rfl))
  obtain ⟨d', _, _, dest, hmem, -, hdest, hname, haddr, -⟩ :=
    typed_endpoint (n := 32) hrs hl (show 0 ∉ ascii "bob" by decide) (by decide) (by decide)
      (by decide) (by decide)
  have hd' : d' = d := by simpa using hmem
  exact ⟨dest, hdest, hname, by rw [haddr, hd']⟩

end Endpoint

end ServerSsh

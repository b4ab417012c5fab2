import ServerSsh.Libc.Strings
import ServerSsh.Posix.Datagrams
import ServerSsh.SignalsOperations
import ServerSsh.Stutter

/-!
# The servers that the client lists

`Broadcast_find` sends its broadcast and polls for replies until its time is up.
A reply is printed when its address is not that of the last reply printed, so one
address is remembered.  A poll without a datagram returns -1, which passes the
test of `n`, and leaves `serv_addr` as it was.

`addresses_listed` says what is printed: the addresses of the replies without the
repetitions that follow each other.  So every server is listed, and none of them
twice exactly when the replies of each server come in a row (`lists_once_iff`).
-/

namespace ServerSsh

open Libc Posix Stutter

namespace ServerList

/-- A datagram that `recvfrom` takes. -/
structure Reply where
  data : Bytes
  source : SockaddrIn
  fits : data.length ≤ maxDatagram

/-- `inet_ntoa`. -/
def inetNtoa (e : Endian) (sinAddr : UInt32) : Bytes :=
  let h := (htonl e sinAddr).toNat
  decimal (h / 16777216) ++ 46 :: (decimal (h / 65536 % 256) ++ 46 ::
    (decimal (h / 256 % 256) ++ 46 :: decimal (h % 256)))

/-- What is printed of a reply. -/
structure Line where
  ip : Bytes
  answer : Bytes

/-- The output of the `printf`. -/
def Line.text (l : Line) : Bytes :=
  ascii "\tGet answer from server: ip = " ++ l.ip ++ ascii ":" ++ l.answer

/-- `INADDR_BROADCAST`. -/
def inaddrBroadcast : UInt32 := 0xffffffff

/-- The variables of the loop. -/
structure Find where
  servAddr : SockaddrIn
  previos : SockaddrIn

/-- The variables in front of the loop. -/
def Find.start (e : Endian) : Find :=
  let servAddr : SockaddrIn :=
    ⟨2, htons e (UInt16.ofNat broadcastPort), htonl e inaddrBroadcast⟩
  ⟨servAddr, servAddr⟩

/-- One round of the loop, with what is printed.  `recvfrom` returns -1 when there
is no datagram. -/
def poll (e : Endian) (s : Find) (r : Option Reply) : Find × Option Line :=
  let n : Int := r.elim (-1) fun r => r.data.length
  let servAddr := r.elim s.servAddr Reply.source
  let buf := r.elim (Buf.zero maxCommandLenght) fun r => recvfrom maxCommandLenght r.data
  if n ≠ 0 ∧ s.previos.sinAddr ≠ servAddr.sinAddr then
    (⟨servAddr, { s.previos with sinAddr := servAddr.sinAddr }⟩,
      some ⟨inetNtoa e servAddr.sinAddr, cut buf.bytes⟩)
  else (⟨servAddr, s.previos⟩, none)

/-- What the loop prints. -/
def listed (e : Endian) : Find → List (Option Reply) → List Line
  | _, [] => []
  | s, r :: rs => (poll e s r).2.toList ++ listed e (poll e s r).1 rs

/-- The addresses of the replies. -/
def replied (rs : List (Option Reply)) : List UInt32 :=
  rs.filterMap fun r => r.map fun r => r.source.sinAddr

/-- A reply that is not empty and does not come from the broadcast address. -/
def Reply.Proper (r : Reply) : Prop := r.data ≠ [] ∧ r.source.sinAddr ≠ inaddrBroadcast

/-- The addresses that are printed are those that have replied, each of them once. -/
structure ListsOnce (e : Endian) (rs : List (Option Reply)) : Prop where
  all : ∀ ip, ip ∈ (listed e (.start e) rs).map Line.ip ↔ ∃ a ∈ replied rs, ip = inetNtoa e a
  once : ((listed e (.start e) rs).map Line.ip).Nodup

/-! ## Dotted addresses -/

/-- Two addresses are printed differently. -/
theorem inetNtoa_injective (e : Endian) : Function.Injective (inetNtoa e) := by
  intro a b h
  have hdot : ∀ n, 46 ∉ decimal n := notMem_decimal (by decide)
  obtain ⟨h0, h⟩ := append_cons_inj (hdot _) (hdot _) h
  obtain ⟨h1, h⟩ := append_cons_inj (hdot _) (hdot _) h
  obtain ⟨h2, h3⟩ := append_cons_inj (hdot _) (hdot _) h
  have h0 := decimal_injective h0
  have h1 := decimal_injective h1
  have h2 := decimal_injective h2
  have h3 := decimal_injective h3
  have heq : htonl e a = htonl e b := UInt32.toNat_inj.mp (by omega)
  rw [← htonl_htonl e a, heq, htonl_htonl]

theorem htonl_inaddrBroadcast (e : Endian) : htonl e inaddrBroadcast = inaddrBroadcast := by
  cases e <;> decide

/-! ## The loop -/

/-- A poll without a datagram prints nothing when the last reply was printed or
was a repetition. -/
theorem poll_none {e : Endian} {s : Find} (h : s.servAddr.sinAddr = s.previos.sinAddr) :
    poll e s none = (s, none) := by
  rw [poll, if_neg fun hc => hc.2 h.symm]
  rfl

/-- A reply is printed unless it has the address of the last one. -/
theorem poll_some {e : Endian} {s : Find} {r : Reply} (hr : r.data ≠ []) :
    poll e s (some r) =
      if s.previos.sinAddr ≠ r.source.sinAddr then
        (⟨r.source, { s.previos with sinAddr := r.source.sinAddr }⟩,
          some ⟨inetNtoa e r.source.sinAddr, cut (recvfrom maxCommandLenght r.data).bytes⟩)
      else (⟨r.source, s.previos⟩, none) := by
  have hn : ((r.data.length : Nat) : Int) ≠ 0 := by
    have hpos := List.length_pos_iff.mpr hr
    omega
  by_cases hp : s.previos.sinAddr ≠ r.source.sinAddr
  · rw [if_pos hp]
    exact if_pos ⟨hn, hp⟩
  · rw [if_neg hp]
    exact if_neg fun hc => hp hc.2

/-- Behind the address that is remembered, what is printed are the addresses of the
replies without repetitions. -/
theorem addresses_listed {e : Endian} (rs : List (Option Reply)) :
    ∀ s : Find, (∀ r, some r ∈ rs → r.data ≠ []) → s.servAddr.sinAddr = s.previos.sinAddr →
      inetNtoa e s.previos.sinAddr :: (listed e s rs).map Line.ip
        = ((replied rs).destutter' (· ≠ ·) s.previos.sinAddr).map (inetNtoa e) := by
  induction rs with
  | nil =>
      intro s _ _
      rfl
  | cons r rs ih =>
      intro s hrs hs
      have htail : ∀ r, some r ∈ rs → r.data ≠ [] := fun r h => hrs r (List.mem_cons_of_mem _ h)
      cases r with
      | none =>
          rw [listed, poll_none hs]
          exact ih s htail hs
      | some r =>
          rw [listed, poll_some (hrs r (List.mem_cons_self ..))]
          show _ = ((r.source.sinAddr :: replied rs).destutter' (· ≠ ·) s.previos.sinAddr).map _
          by_cases hp : s.previos.sinAddr ≠ r.source.sinAddr
          · rw [if_pos hp, List.destutter'_cons_pos _ hp]
            let s' : Find := ⟨r.source, { s.previos with sinAddr := r.source.sinAddr }⟩
            exact congrArg _ (ih s' htail rfl)
          · rw [if_neg hp, List.destutter'_cons_neg _ hp]
            exact ih ⟨r.source, s.previos⟩ htail (not_not.mp hp).symm

/-- The addresses that are printed, each as often as in `t`. -/
theorem exists_listed (e : Endian) {rs : List (Option Reply)} (h : ∀ r, some r ∈ rs → r.Proper) :
    ∃ t : List UInt32, (listed e (.start e) rs).map Line.ip = t.map (inetNtoa e) ∧
      (∀ a, a ∈ t ↔ a ∈ replied rs) ∧ (t.Nodup ↔ Grouped (replied rs)) := by
  have hlisted := addresses_listed (e := e) rs (.start e) (fun r hr => (h r hr).1) rfl
  have hbroadcast : (Find.start e).previos.sinAddr ∉ replied rs := by
    intro hmem
    obtain ⟨r, hr, hsome⟩ := List.mem_filterMap.mp hmem
    obtain ⟨r, rfl, haddr⟩ := Option.map_eq_some_iff.mp hsome
    exact (h r hr).2 (haddr.trans (htonl_inaddrBroadcast e))
  obtain ⟨t, ht, hmem, hnodup⟩ := exists_destutter' hbroadcast
  rw [ht, List.map_cons] at hlisted
  exact ⟨t, (List.cons.inj hlisted).2, hmem, hnodup⟩

/-- For replies that are not empty and do not come from the broadcast address, each
address that has replied is listed once exactly when no address replies again
after another one. -/
theorem lists_once_iff (e : Endian) {rs : List (Option Reply)}
    (h : ∀ r, some r ∈ rs → r.Proper) : ListsOnce e rs ↔ Grouped (replied rs) := by
  obtain ⟨t, ht, hmem, hnodup⟩ := exists_listed e h
  rw [← hnodup, ← List.nodup_map_iff (inetNtoa_injective e), ← ht]
  refine ⟨ListsOnce.once, fun honce => ⟨?_, honce⟩⟩
  intro ip
  rw [ht, List.mem_map]
  constructor
  · rintro ⟨a, ha, rfl⟩
    exact ⟨a, (hmem a).mp ha, rfl⟩
  · rintro ⟨a, ha, rfl⟩
    exact ⟨a, (hmem a).mpr ha, rfl⟩

/-- A reply from port 23457 of an address. -/
def sampleReply (sinAddr : UInt32) : Reply where
  data := ascii "23457\n"
  source := ⟨2, 0xa15b, sinAddr⟩
  fits := by decide

theorem sampleReply_proper {sinAddr : UInt32} (h : sinAddr ≠ inaddrBroadcast) :
    (sampleReply sinAddr).Proper := ⟨by simp [sampleReply, ascii], h⟩

/-- Two servers, with a poll between their replies. -/
theorem lists_once_iff_two :
    ListsOnce .little [some (sampleReply 0x0700000a), none, some (sampleReply 0x0800000a)] := by
  refine (lists_once_iff .little ?_).mpr ?_
  · intro r hr
    simp only [List.mem_cons, Option.some.injEq, reduceCtorEq, List.not_mem_nil, or_false,
      false_or] at hr
    rcases hr with rfl | rfl
    · exact sampleReply_proper (by decide)
    · exact sampleReply_proper (by decide)
  · intro a b hab
    have hlen : 3 ≤ 2 := hab.length_le
    omega

/-- A server that replies again after another one is listed twice. -/
theorem listed_twice :
    ¬ ∀ (e : Endian) (rs : List (Option Reply)), (∀ r, some r ∈ rs → r.Proper) →
      ListsOnce e rs := by
  intro hclaim
  let rs := [some (sampleReply 0x0700000a), some (sampleReply 0x0800000a),
    some (sampleReply 0x0700000a)]
  have hrs : ∀ r, some r ∈ rs → r.Proper := by
    intro r hr
    simp only [rs, List.mem_cons, Option.some.injEq, List.not_mem_nil, or_false] at hr
    rcases hr with rfl | rfl | rfl
    · exact sampleReply_proper (by decide)
    · exact sampleReply_proper (by decide)
    · exact sampleReply_proper (by decide)
  obtain ⟨t, ht, -, hnodup⟩ := exists_listed .little hrs
  have honce := (hclaim .little rs hrs).once
  rw [ht, List.nodup_map_iff (inetNtoa_injective _), hnodup] at honce
  have heq := honce 0x0700000a 0x0800000a (List.Sublist.refl _)
  exact absurd heq (by decide)

end ServerList

end ServerSsh

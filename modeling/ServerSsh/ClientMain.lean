import ServerSsh.Endpoint
import ServerSsh.PortSearch

/-!
# The start of the client

`main` of the client up to `Generetion_keys`.  It chooses its task by the first
argument and the mode by the second, opens a socket, binds it to the first port above
`OWN_PORT` for which `bind` succeeds, and only then looks at the third argument.  The
number of the arguments is tested once, in front of the first of them: the pointer
behind the last one is null.

`main_outcome` says which command lines lead to a session, and with which mode and
addresses, which ones end the client on an error of its own, and when it does not get
out of its bind loop.
-/

namespace ServerSsh

open Libc Processes Search

namespace ClientMain

/-- `OWN_PORT`. -/
def ownPort : Nat := 25575

/-- What `main` finds on its machine. -/
structure Host where
  endian : Endian
  inetPton : Bytes → Option UInt32
  /-- The descriptor that `socket` returns, unless it fails. -/
  socket : Mode → Option Int
  ports : PortSearch.Ports

/-- How `main` ends, or gets to `Generetion_keys`. -/
inductive Outcome where
  /-- The text about the arguments, and `return 0`. -/
  | usage
  /-- `Broadcast_find`, which always returns 0, and `return 0`. -/
  | searches
  /-- The text about the mode, and `return 0`. -/
  | wrongMode
  /-- The exit without a socket. -/
  | noSocket (status : Nat)
  /-- The `exit(EXIT_FAILURE)` without an `'@'`. -/
  | wrongArgument
  | connects (mode : Mode) (sockFdOwn : Int) (client : SockaddrIn) (d : Client.Destination)

/-- The address for the own socket. -/
def ownAddr (e : Endian) (additionPort : Nat) : SockaddrIn :=
  ⟨afInet, htons e (UInt16.ofNat (ownPort + additionPort)), 0⟩

variable (w : Host)

/-- A round of the bind loop. -/
def attempt (additionPort : Nat) : Option SockaddrIn :=
  let client := ownAddr w.endian additionPort
  (w.ports.bind w.endian client).map fun _ => client

/-- The bind loop, for at most `fuel` rounds. -/
def bindLoop (fuel : Nat) : Option SockaddrIn := first (attempt w) fuel

/-- From the third argument on. -/
def readArgument (mode : Mode) (sockFdOwn : Int) (client : SockaddrIn) (argv3 : Option Bytes) :
    Except Fault Outcome :=
  match argv3 with
  | none => .error .nullPointer
  | some s => do
      let argument : Buf (s.length + 1) := Buf.ofBytes s (Nat.le_succ _)
      match ← Client.splitArgument w.endian w.inetPton argument with
      | none => pure .wrongArgument
      | some d => pure (.connects mode sockFdOwn client d)

/-- The status of the exit without a socket. -/
def socketStatus : Mode → Nat
  | .tcp => 0
  | .udp => 1

/-- From the socket on, `none` when the fuel is not enough. -/
def connect (fuel : Nat) (mode : Mode) (argv3 : Option Bytes) :
    Option (Except Fault Outcome) :=
  match w.socket mode with
  | none => some (.ok (.noSocket (socketStatus mode)))
  | some sockFdOwn => (bindLoop w fuel).map fun client => readArgument w mode sockFdOwn client argv3

/-- The mode that the second argument names. -/
def modeOf (s : Bytes) : Option Mode :=
  if s = ascii "TCP" then some .tcp else if s = ascii "UDP" then some .udp else none

/-- `main`. -/
def main (fuel : Nat) : List Bytes → Option (Except Fault Outcome)
  | _ :: task :: rest =>
      if task = ascii "-broadcast" then some (.ok .searches)
      else if task = ascii "-t" then
        match rest with
        | [] => some (.error .nullPointer)
        | s :: rest =>
            match modeOf s with
            | none => some (.ok .wrongMode)
            | some mode => connect w fuel mode rest.head?
      else some (.ok .usage)
  | _ => some (.ok .usage)

/-! ## The bind loop -/

variable {w}

/-- Behind port 65535 comes port 0, for which the kernel takes any. -/
theorem attempt_zero : attempt w 39961 = w.ports.pick.map fun _ => ownAddr w.endian 39961 := by
  have hport : htons w.endian (ownAddr w.endian 39961).sinPort = 0 := by
    rw [ownAddr, htons_htons]
    rfl
  rw [attempt, PortSearch.Ports.bind_zero hport]

/-- A port is found exactly when one is free. -/
theorem exists_attempt_iff : (∃ a, 0 < a ∧ (attempt w a).isSome) ↔ w.ports.pick ≠ none := by
  constructor
  · rintro ⟨a, -, ha⟩ hfull
    rw [attempt, PortSearch.Ports.bind_full hfull] at ha
    cases ha
  · intro h
    refine ⟨39961, by decide, ?_⟩
    rw [attempt_zero, Option.isSome_map]
    exact Option.isSome_iff_ne_none.mpr h

theorem attempt_eq {a : Nat} {client : SockaddrIn} (h : attempt w a = some client) :
    client = ownAddr w.endian a := by
  obtain ⟨port, -, rfl⟩ := Option.map_eq_some_iff.mp h
  rfl

/-- The least addition to the port for which `bind` succeeds. -/
def Binds (w : Host) (client : SockaddrIn) : Prop :=
  ∃ a, IsLeast {i | 0 < i ∧ (attempt w i).isSome} a ∧ client = ownAddr w.endian a

theorem bindLoop_iff {client : SockaddrIn} :
    (∃ fuel, bindLoop w fuel = some client) ↔ Binds w client := by
  constructor
  · rintro ⟨fuel, h⟩
    obtain ⟨a, ha, hleast⟩ := first_eq_some h
    exact ⟨a, hleast, attempt_eq ha⟩
  · rintro ⟨a, hleast, rfl⟩
    obtain ⟨fuel, client, hloop⟩ := exists_first hleast.1.1 hleast.1.2
    obtain ⟨a', ha', hleast'⟩ := first_eq_some hloop
    cases hleast.unique hleast'
    exact ⟨fuel, attempt_eq ha' ▸ hloop⟩

theorem Binds.pick {client : SockaddrIn} (h : Binds w client) : w.ports.pick ≠ none := by
  obtain ⟨a, hleast, -⟩ := h
  exact exists_attempt_iff.mp ⟨a, hleast.1⟩

/-- With a free port the loop ends. -/
theorem exists_bindLoop (h : w.ports.pick ≠ none) :
    ∃ fuel client, bindLoop w fuel = some client := by
  obtain ⟨a, ha, hsome⟩ := exists_attempt_iff.mpr h
  exact exists_first ha hsome

theorem bindLoop_none (h : w.ports.pick = none) (fuel : Nat) : bindLoop w fuel = none :=
  first_eq_none (fun a _ => by rw [attempt, PortSearch.Ports.bind_full h, Option.map_none]) fuel

/-! ## The third argument -/

/-- The argument is of the form `_USER_@_IP_:_PORT_`. -/
structure Written (s user ip port : Bytes) : Prop where
  text : s = user ++ 64 :: (ip ++ 58 :: port)
  user_at : 64 ∉ user
  user_colon : 58 ∉ user
  ip_colon : 58 ∉ ip

theorem Written.mem_at {s user ip port : Bytes} (h : Written s user ip port) : 64 ∈ s := by
  simp [h.text]

theorem Written.unique {s user ip port user' ip' port' : Bytes} (h : Written s user ip port)
    (h' : Written s user' ip' port') : user = user' ∧ ip = ip' ∧ port = port' := by
  obtain ⟨huser, hrest⟩ := append_cons_inj h.user_at h'.user_at (h.text.symm.trans h'.text)
  obtain ⟨hip, hport⟩ := append_cons_inj h.ip_colon h'.ip_colon hrest
  exact ⟨huser, hip, hport⟩

/-- The three parts, and the address that they give. -/
structure Names (w : Host) (user ip port : Bytes) (d : Client.Destination) : Prop where
  userName : d.userName.cstring 0 = .ok user
  ipForConnection : d.ipForConnection.cstring 0 = .ok ip
  portForConnection : d.portForConnection.cstring 0 = .ok port
  admin : d.admin = ⟨afInet, htons w.endian (shortOfInt (atoi port)), (w.inetPton ip).getD 0⟩

/-- What `main` makes of its third argument. -/
inductive Split (w : Host) (s : Bytes) : Except Fault (Option Client.Destination) → Prop where
  | rejects : 64 ∉ s → Split w s (.ok none)
  | splits {user ip port : Bytes} {d : Client.Destination} : Written s user ip port →
      Names w user ip port d → Split w s (.ok (some d))
  | faults {f : Fault} : 64 ∈ s → (¬ ∃ user ip port, Written s user ip port) →
      Split w s (.error f)

theorem split {s : Bytes} {n : Nat} (h0 : 0 ∉ s) (hs : s.length < maxCommandLenght)
    (hn : s.length < n) :
    Split w s (Client.splitArgument w.endian w.inetPton (Buf.ofBytes s hn.le)) := by
  by_cases hat : 64 ∈ s
  · obtain ⟨user, t, hsplit, huser⟩ := List.eq_append_cons_of_mem hat
    obtain ⟨userName, hname, heq⟩ :=
      Client.splitArgument_of_user w.endian w.inetPton h0 hs hn huser hsplit
    rw [heq]
    by_cases hearly : 58 ∈ user
    · obtain ⟨front, back, rfl, hfront⟩ := List.eq_append_cons_of_mem hearly
      have hsplit' : s = front ++ 58 :: (back ++ 64 :: t) := by
        rw [hsplit, List.append_assoc, List.cons_append]
      rw [Client.splitAddress_of_early w.endian w.inetPton userName _ h0 hs hn hfront hsplit'
        (by simp) (by simp [hsplit])]
      refine .faults hat ?_
      rintro ⟨user, ip, port, h⟩
      obtain ⟨rfl, -⟩ := append_cons_inj h.user_at huser (h.text.symm.trans hsplit)
      exact h.user_colon hearly
    · by_cases hcolon : 58 ∈ t
      · obtain ⟨ip, port, rfl, hip⟩ := List.eq_append_cons_of_mem hcolon
        obtain ⟨d, hd, hdname, -, -, hipText, hportText⟩ :=
          Client.splitAddress_of_parts w.endian w.inetPton userName h0 hs hn hearly hip hsplit
        obtain ⟨ip', port', hip', hport', hadmin⟩ := Endpoint.splitAddress_admin hd
        cases Except.ok.inj (hipText.symm.trans hip')
        cases Except.ok.inj (hportText.symm.trans hport')
        rw [hd]
        exact .splits ⟨hsplit, huser, hearly, hip⟩ ⟨hdname ▸ hname, hipText, hportText, hadmin⟩
      · have hnone : 58 ∉ s := by simp [hsplit, hearly, hcolon]
        rw [Client.splitAddress_of_notMem w.endian w.inetPton userName _ _ h0 hn hnone]
        refine .faults hat ?_
        rintro ⟨user, ip, port, h⟩
        exact hnone (by simp [h.text])
  · rw [Client.splitArgument_of_notMem w.endian w.inetPton h0 hn hat]
    exact .rejects hat

/-- What `main` makes of its third argument, once its socket is bound. -/
inductive Reads (w : Host) (mode : Mode) (fd : Int) (client : SockaddrIn) :
    Option Bytes → Except Fault Outcome → Prop where
  | missing : Reads w mode fd client none (.error .nullPointer)
  | rejects {s : Bytes} : 64 ∉ s → Reads w mode fd client (some s) (.ok .wrongArgument)
  | connects {s user ip port : Bytes} {d : Client.Destination} : Written s user ip port →
      Names w user ip port d → Reads w mode fd client (some s) (.ok (.connects mode fd client d))
  | faults {s : Bytes} {f : Fault} : 64 ∈ s → (¬ ∃ user ip port, Written s user ip port) →
      Reads w mode fd client (some s) (.error f)

theorem readArgument_reads (mode : Mode) (fd : Int) (client : SockaddrIn) {argv3 : Option Bytes}
    (h : ∀ s ∈ argv3, 0 ∉ s ∧ s.length < maxCommandLenght) :
    Reads w mode fd client argv3 (readArgument w mode fd client argv3) := by
  cases argv3 with
  | none => exact .missing
  | some s =>
      obtain ⟨h0, hlt⟩ := h s rfl
      have hsplit := split (w := w) h0 hlt (Nat.lt_succ_self _)
      rw [readArgument]
      generalize Client.splitArgument w.endian w.inetPton (Buf.ofBytes s _) = r at hsplit ⊢
      cases hsplit with
      | rejects hat => exact .rejects hat
      | splits hwritten hnames => exact .connects hwritten hnames
      | faults hat hnone => exact .faults hat hnone

/-! ## The command line -/

/-- A command line that asks for a session, and its third argument. -/
def Session (argv : List Bytes) (mode : Mode) (argv3 : Option Bytes) : Prop :=
  ∃ prog s rest, argv = prog :: ascii "-t" :: s :: rest ∧ modeOf s = some mode ∧ argv3 = rest.head?

/-- The results of `main`. -/
inductive Starts (w : Host) (argv : List Bytes) : Except Fault Outcome → Prop where
  | early {r : Outcome} : (∀ mode fd client d, r ≠ .connects mode fd client d) →
      Starts w argv (.ok r)
  | noMode {prog : Bytes} : argv = [prog, ascii "-t"] → Starts w argv (.error .nullPointer)
  | reads {mode : Mode} {argv3 : Option Bytes} {fd : Int} {client : SockaddrIn}
      {r : Except Fault Outcome} : Session argv mode argv3 → w.socket mode = some fd →
      Binds w client → Reads w mode fd client argv3 r → Starts w argv r

theorem main_session {argv : List Bytes} {mode : Mode} {argv3 : Option Bytes} (fuel : Nat)
    (h : Session argv mode argv3) : main w fuel argv = connect w fuel mode argv3 := by
  obtain ⟨prog, s, rest, rfl, hmode, rfl⟩ := h
  have hne : ascii "-t" ≠ ascii "-broadcast" := by decide
  simp only [main, if_neg hne, if_true, hmode]

/-- A command line that does not ask for a session. -/
theorem main_early {argv : List Bytes} (h : ∀ mode argv3, ¬ Session argv mode argv3) :
    (∃ prog, argv = [prog, ascii "-t"] ∧ ∀ fuel, main w fuel argv = some (.error .nullPointer)) ∨
      ∃ r, (∀ mode fd client d, r ≠ Outcome.connects mode fd client d) ∧
        ∀ fuel, main w fuel argv = some (.ok r) := by
  match argv with
  | [] => exact Or.inr ⟨.usage, by simp, fun _ => rfl⟩
  | [prog] => exact Or.inr ⟨.usage, by simp, fun _ => rfl⟩
  | prog :: task :: rest =>
      by_cases hb : task = ascii "-broadcast"
      · exact Or.inr ⟨.searches, by simp, fun _ => by simp [main, hb]⟩
      · by_cases ht : task = ascii "-t"
        · subst ht
          cases rest with
          | nil => exact Or.inl ⟨prog, rfl, fun _ => by rw [main, if_neg hb, if_pos rfl]⟩
          | cons s rest =>
              cases hmode : modeOf s with
              | some mode => exact absurd ⟨prog, s, rest, rfl, hmode, rfl⟩ (h mode rest.head?)
              | none =>
                  refine Or.inr ⟨.wrongMode, by simp, fun _ => ?_⟩
                  rw [main, if_neg hb, if_pos rfl]
                  simp only [hmode]
        · exact Or.inr ⟨.usage, by simp, fun _ => by simp [main, hb, ht]⟩

theorem connect_starts {argv : List Bytes} {mode : Mode} {argv3 : Option Bytes} {fuel : Nat}
    {r : Except Fault Outcome} (h : ∀ s ∈ argv3, 0 ∉ s ∧ s.length < maxCommandLenght)
    (hsession : Session argv mode argv3) (hr : connect w fuel mode argv3 = some r) :
    Starts w argv r := by
  rw [connect] at hr
  split at hr
  next hsocket =>
    cases hr
    exact .early (by simp)
  next fd hsocket =>
    obtain ⟨client, hclient, rfl⟩ := Option.map_eq_some_iff.mp hr
    exact .reads hsession hsocket (bindLoop_iff.mp ⟨fuel, hclient⟩) (readArgument_reads _ _ _ h)

/-- The third argument is one of the arguments. -/
theorem Session.mem {argv : List Bytes} {mode : Mode} {argv3 : Option Bytes}
    (h : Session argv mode argv3) : ∀ s ∈ argv3, s ∈ argv := by
  obtain ⟨prog, s, rest, rfl, -, rfl⟩ := h
  intro t ht
  simp [List.mem_of_mem_head? ht]

theorem main_starts {argv : List Bytes} {fuel : Nat} {r : Except Fault Outcome}
    (h : ∀ s ∈ argv, 0 ∉ s ∧ s.length < maxCommandLenght) (hr : main w fuel argv = some r) :
    Starts w argv r := by
  by_cases hs : ∃ mode argv3, Session argv mode argv3
  · obtain ⟨mode, argv3, hsession⟩ := hs
    rw [main_session fuel hsession] at hr
    exact connect_starts (fun s hs => h s (hsession.mem s hs)) hsession hr
  · have hs : ∀ mode argv3, ¬ Session argv mode argv3 := fun mode argv3 h => hs ⟨mode, argv3, h⟩
    rcases main_early (w := w) hs with ⟨prog, hprog, hmain⟩ | ⟨r', hr', hmain⟩
    · rw [hmain fuel] at hr
      cases hr
      exact .noMode hprog
    · rw [hmain fuel] at hr
      cases hr
      exact .early hr'

/-- With a socket and a port `main` gets to the third argument. -/
theorem main_reads {argv : List Bytes} {mode : Mode} {argv3 : Option Bytes} {fd : Int}
    {client : SockaddrIn} (hsession : Session argv mode argv3) (hsocket : w.socket mode = some fd)
    (hclient : Binds w client) :
    ∃ fuel, main w fuel argv = some (readArgument w mode fd client argv3) := by
  obtain ⟨fuel, hfuel⟩ := bindLoop_iff.mpr hclient
  refine ⟨fuel, ?_⟩
  rw [main_session fuel hsession, connect, hsocket, hfuel]
  rfl

theorem Names.unique {user ip port user' ip' port' : Bytes} {d : Client.Destination}
    (h : Names w user ip port d) (h' : Names w user' ip' port' d) :
    user = user' ∧ ip = ip' ∧ port = port' :=
  ⟨Except.ok.inj (h.userName.symm.trans h'.userName),
    Except.ok.inj (h.ipForConnection.symm.trans h'.ipForConnection),
    Except.ok.inj (h.portForConnection.symm.trans h'.portForConnection)⟩

/-! ## What a command line leads to -/

section Outcomes

variable {argv : List Bytes}

/-- The command lines that lead to a session. -/
theorem main_connects_iff (h : ∀ s ∈ argv, 0 ∉ s ∧ s.length < maxCommandLenght) (mode : Mode)
    (fd : Int) (client : SockaddrIn) (user ip port : Bytes) :
    (∃ fuel d, main w fuel argv = some (.ok (.connects mode fd client d)) ∧
        Names w user ip port d) ↔
      w.socket mode = some fd ∧ Binds w client ∧
        ∃ s, Session argv mode (some s) ∧ Written s user ip port := by
  constructor
  · rintro ⟨fuel, d, hmain, hnames⟩
    cases main_starts h hmain with
    | early hr => exact absurd rfl (hr mode fd client d)
    | reads hsession hsocket hclient hreads =>
        cases hreads with
        | connects hwritten hnames' =>
            obtain ⟨rfl, rfl, rfl⟩ := hnames.unique hnames'
            exact ⟨hsocket, hclient, _, hsession, hwritten⟩
  · rintro ⟨hsocket, hclient, s, hsession, hwritten⟩
    obtain ⟨fuel, hmain⟩ := main_reads hsession hsocket hclient
    have hargv3 : ∀ t ∈ some s, 0 ∉ t ∧ t.length < maxCommandLenght := fun t ht =>
      h t (hsession.mem t ht)
    have hreads := readArgument_reads (w := w) mode fd client hargv3
    generalize readArgument w mode fd client (some s) = r at hmain hreads
    cases hreads with
    | rejects hat => exact absurd hwritten.mem_at hat
    | connects hwritten' hnames =>
        obtain ⟨rfl, rfl, rfl⟩ := hwritten.unique hwritten'
        exact ⟨fuel, _, hmain, hnames⟩
    | faults hat hnone => exact absurd ⟨user, ip, port, hwritten⟩ hnone

/-- The command lines that end the client on a null pointer or on a write outside a
buffer. -/
theorem main_faults_iff (h : ∀ s ∈ argv, 0 ∉ s ∧ s.length < maxCommandLenght) :
    (∃ fuel f, main w fuel argv = some (.error f)) ↔
      (∃ prog, argv = [prog, ascii "-t"]) ∨
        ∃ mode argv3, Session argv mode argv3 ∧ w.socket mode ≠ none ∧ w.ports.pick ≠ none ∧
          ∀ s ∈ argv3, 64 ∈ s ∧ ¬ ∃ user ip port, Written s user ip port := by
  constructor
  · rintro ⟨fuel, f, hmain⟩
    cases main_starts h hmain with
    | @noMode prog hprog => exact Or.inl ⟨prog, hprog⟩
    | @reads mode argv3 fd client _ hsession hsocket hclient hreads =>
        refine Or.inr ⟨mode, argv3, hsession, by simp [hsocket], hclient.pick, ?_⟩
        cases hreads with
        | missing => exact fun s hs => by cases hs
        | faults hat hnone =>
            intro s hs
            cases hs
            exact ⟨hat, hnone⟩
  · rintro (⟨prog, rfl⟩ | ⟨mode, argv3, hsession, hsocket, hpick, hbad⟩)
    · exact ⟨0, .nullPointer, by simp [main, show ascii "-t" ≠ ascii "-broadcast" by decide]⟩
    · obtain ⟨fd, hfd⟩ := Option.ne_none_iff_exists'.mp hsocket
      obtain ⟨fuel, client, hfuel⟩ := exists_bindLoop hpick
      obtain ⟨fuel, hmain⟩ := main_reads hsession hfd (bindLoop_iff.mp ⟨fuel, hfuel⟩)
      have hreads := readArgument_reads (w := w) mode fd client fun t ht =>
        h t (hsession.mem t ht)
      generalize readArgument w mode fd client argv3 = r at hmain hreads
      cases hreads with
      | missing => exact ⟨fuel, _, hmain⟩
      | @rejects s hat => exact absurd (hbad s rfl).1 hat
      | @connects s user ip port _ hwritten _ =>
          exact absurd ⟨user, ip, port, hwritten⟩ (hbad s rfl).2
      | faults _ _ => exact ⟨fuel, _, hmain⟩

/-- The command lines with which the client does not get out of its bind loop. -/
theorem main_none_iff :
    (∀ fuel, main w fuel argv = none) ↔
      ∃ mode argv3, Session argv mode argv3 ∧ w.socket mode ≠ none ∧ w.ports.pick = none := by
  constructor
  · intro hnone
    by_cases hs : ∃ mode argv3, Session argv mode argv3
    · obtain ⟨mode, argv3, hsession⟩ := hs
      have hsocket : w.socket mode ≠ none := by
        intro hsocket
        have hmain := hnone 0
        rw [main_session 0 hsession, connect, hsocket] at hmain
        cases hmain
      refine ⟨mode, argv3, hsession, hsocket, ?_⟩
      by_contra hpick
      obtain ⟨fd, hfd⟩ := Option.ne_none_iff_exists'.mp hsocket
      obtain ⟨fuel, client, hfuel⟩ := exists_bindLoop hpick
      obtain ⟨fuel, hmain⟩ := main_reads hsession hfd (bindLoop_iff.mp ⟨fuel, hfuel⟩)
      rw [hnone fuel] at hmain
      cases hmain
    · have hs : ∀ mode argv3, ¬ Session argv mode argv3 := fun mode argv3 h => hs ⟨mode, argv3, h⟩
      rcases main_early (w := w) hs with ⟨prog, -, hmain⟩ | ⟨r, -, hmain⟩
      · have h := hmain 0
        rw [hnone 0] at h
        cases h
      · have h := hmain 0
        rw [hnone 0] at h
        cases h
  · rintro ⟨mode, argv3, hsession, hsocket, hpick⟩ fuel
    obtain ⟨fd, hfd⟩ := Option.ne_none_iff_exists'.mp hsocket
    rw [main_session fuel hsession, connect, hfd, bindLoop_none hpick]
    rfl

/-- What the command lines lead to. -/
theorem main_outcome (w : Host) {argv : List Bytes}
    (h : ∀ s ∈ argv, 0 ∉ s ∧ s.length < maxCommandLenght) :
    (∀ mode fd client user ip port,
      (∃ fuel d, main w fuel argv = some (.ok (.connects mode fd client d)) ∧
          Names w user ip port d) ↔
        w.socket mode = some fd ∧ Binds w client ∧
          ∃ s, Session argv mode (some s) ∧ Written s user ip port) ∧
    ((∃ fuel f, main w fuel argv = some (.error f)) ↔
      (∃ prog, argv = [prog, ascii "-t"]) ∨
        ∃ mode argv3, Session argv mode argv3 ∧ w.socket mode ≠ none ∧ w.ports.pick ≠ none ∧
          ∀ s ∈ argv3, 64 ∈ s ∧ ¬ ∃ user ip port, Written s user ip port) ∧
    ((∀ fuel, main w fuel argv = none) ↔
      ∃ mode argv3, Session argv mode argv3 ∧ w.socket mode ≠ none ∧ w.ports.pick = none) :=
  ⟨main_connects_iff h, main_faults_iff h, main_none_iff⟩

/-- A machine on which no port is occupied. -/
def quiet : PortSearch.Ports where
  occupied _ := false
  pick := some 32768
  pick_free := by
    intro p hp
    cases hp
    exact ⟨by decide, rfl⟩
  pick_of_free := by
    intro p _ _ h
    cases h

/-- bob's client on it. -/
def sampleHost : Host := ⟨.little, Endpoint.inetPton .little, fun _ => some 3, quiet⟩

def sampleLine : List Bytes :=
  [ascii "client", ascii "-t", ascii "TCP", ascii "bob@10.0.0.7:23457"]

theorem main_outcome_bob :
    ∃ fuel d, main sampleHost fuel sampleLine
        = some (.ok (.connects .tcp 3 (ownAddr .little 1) d)) ∧
      Names sampleHost (ascii "bob") (ascii "10.0.0.7") (ascii "23457") d := by
  have hargs : ∀ s ∈ sampleLine, 0 ∉ s ∧ s.length < maxCommandLenght := by decide
  have hbinds : Binds sampleHost (ownAddr .little 1) :=
    ⟨1, ⟨⟨by decide, by decide⟩, fun i hi => hi.1⟩, rfl⟩
  have hwritten : Written (ascii "bob@10.0.0.7:23457") (ascii "bob") (ascii "10.0.0.7")
      (ascii "23457") := ⟨by decide, by decide, by decide, by decide⟩
  have h := (main_outcome sampleHost hargs).1 .tcp 3 (ownAddr .little 1)
    (ascii "bob") (ascii "10.0.0.7") (ascii "23457")
  exact h.mpr ⟨rfl, hbinds, _, ⟨_, _, _, rfl, by decide, rfl⟩, hwritten⟩

end Outcomes

end ClientMain

end ServerSsh

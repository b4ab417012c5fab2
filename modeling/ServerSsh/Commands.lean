import ServerSsh.Headers
import ServerSsh.Libc.Strings

/-!
# Typed commands

What the user types becomes a command in three places.  `Read_input` cuts the
line at its first space, `Command_exec` writes both parts into one datagram, and
on the server `Parser` cuts the datagram at its first space again.  `Do_usual`
replaces the spaces of what is left by terminators, in place, and passes the
words to `execvp`.

`Do_task` and `Parser` end with a call of another function.  Which one, and with
which arguments, is what their definitions give: a `Task` and a `Handler`.
-/

namespace ServerSsh

open Libc

/-- `MAX_USER_COUNT`, the number of entries of `argv` in `Do_usual`. -/
abbrev maxUserCount : Nat := 100

/-! ## The client -/

/-- `input`. -/
structure Input where
  cmd : MessageBuf
  arg : MessageBuf
deriving DecidableEq

/-- The line that `Read_input` reads, without its last byte, and what is left of
the standard input. -/
def Client.readEnter (stdin : Bytes) : Except Fault (MessageBuf × Bytes) := do
  let (enter, stdin) ← (Buf.zero maxCommandLenght).fgets stdin
  let len ← enter.strlen
  let enter ← enter.terminate ((len : Int) - 1)
  pure (enter, stdin)

/-- `Read_input`. -/
def Client.readInput (stdin : Bytes) : Except Fault (Input × Bytes) := do
  let (enter, stdin) ← Client.readEnter stdin
  match ← enter.strchr 0 32 with
  | none => do
      let cmd ← (Buf.zero maxCommandLenght).strcpy enter 0
      pure (⟨cmd, .zero _⟩, stdin)
  | some sizeCommand => do
      let cmd ← (Buf.zero maxCommandLenght).strncpy enter 0 sizeCommand
      let arg ← (Buf.zero maxCommandLenght).strncpy enter (sizeCommand + 1)
        (maxCommandLenght - 1 - sizeCommand)
      pure (⟨cmd, arg⟩, stdin)

/-- What `Do_task` ends with. -/
inductive Task where
  | commandExit
  | commandCopyTo (message : MessageBuf)
  | commandCopyFrom (message : MessageBuf)
  | unknown
  | commandExec (enter : Input)
deriving DecidableEq

/-- `Do_task`. -/
def Client.doTask (enter : Input) : Except Fault Task := do
  let cmd ← enter.cmd.cstring 0
  if cmd = ascii "@exit" then pure .commandExit
  else if cmd = ascii "@copy_to" then pure (.commandCopyTo enter.arg)
  else if cmd = ascii "@copy_from" then pure (.commandCopyFrom enter.arg)
  else do
    let c ← enter.cmd.get 0
    if c = 64 then pure .unknown else pure (.commandExec enter)

/-- What a command of the client sends, and what it prints of the answer. -/
structure Exchange where
  sent : List Output
  printed : Except Fault Bytes

/-- The string in `admin_message` after `admin_message[n] = '\0'`. -/
def Client.adminMessage (answer : Arrival) : Except Fault Bytes := do
  let message ← (Arrival.buffer answer).terminate (Arrival.ret answer)
  message.cstring 0

/-- `Command_exec`. -/
def Client.commandExec (data : Connection) (enter : Input) (answer : Arrival) :
    Except Fault Exchange := do
  let cmd ← enter.cmd.cstring 0
  let arg ← enter.arg.cstring 0
  let message ← (Buf.zero (3 * maxCommandLenght)).sprintf (ascii "@# " ++ (cmd ++ 32 :: arg))
  let len ← message.strlen
  let text ← message.load len
  pure
    { sent := [.sendto data.sockFd text data.admin]
      printed := (Client.adminMessage answer).map fun s => 10 :: s ++ [10] }

/-! ## The server -/

/-- What `Parser` ends with, `failed` for its `return -1`.  The calls for
`@Login` and `@Have_previos_session` are commented out. -/
inductive Handler where
  | disconnected
  | doUsual (args : MessageBuf)
  | copyTo (args : MessageBuf)
  | copyFrom (args : MessageBuf)
  | failed
deriving DecidableEq

/-- The comparisons of `Parser`. -/
def Server.handlerOf (cmd : Bytes) (args : MessageBuf) : Handler :=
  if cmd = ascii "@Login" then .failed
  else if cmd = ascii "@Have_previos_session" then .failed
  else if cmd = ascii "@#" then .doUsual args
  else if cmd = ascii "@Copy_to" then .copyTo args
  else if cmd = ascii "@Copy_from" then .copyFrom args
  else .failed

/-- `Parser`.  Without a space in the message `space` is null, and unless the
message is `@Disconnected` it is written through. -/
def Server.parser {n : Nat} (message : Buf n) : Except Fault Handler := do
  match ← message.strchr 0 32 with
  | none => do
      let text ← message.cstring 0
      if text = ascii "@Disconnected" then pure .disconnected else .error .nullPointer
  | some space => do
      let message ← message.set space 0
      let cmd ← (Buf.zero maxCommandLenght).strcpy message 0
      let args ← (Buf.zero maxCommandLenght).strcpy message (space + 1)
      let text ← cmd.cstring 0
      pure (Server.handlerOf text args)

/-- A call of `execvp`. -/
structure Exec where
  file : Bytes
  /-- The strings before the null pointer. -/
  argv : List Bytes
deriving DecidableEq

/-- The loop of `Do_usual`.  `argv` lists the offsets that are stored, so `count`
is its length.  A word is stored at `count` and the null pointer behind it. -/
def Server.tokenise {n : Nat} (space : Nat) (command : Buf n) (argv : List Nat) :
    Except Fault (Buf n × List Nat) :=
  match command.strchr (space + 1) 32 with
  | .error f => .error f
  | .ok none => .ok (command, argv)
  | .ok (some space) =>
      match command.set space 0 with
      | .error f => .error f
      | .ok command =>
          if argv.length + 1 < maxUserCount then
            Server.tokenise space command (argv ++ [space + 1])
          else .error .outOfBounds
termination_by maxUserCount - argv.length
decreasing_by simp; omega

/-- The call of `execvp` in `Do_usual`. -/
def Server.doUsual {n : Nat} (command : Buf n) : Except Fault Exec := do
  let (command, argv) ← Server.tokenise 0 command [0]
  let file ← command.cstring 0
  let words ← argv.mapM command.cstring
  pure ⟨file, words⟩

/-! ## Lines with and without a space -/

theorem Client.readEnter_eq {s : Bytes} (h0 : 0 ∉ s) (h10 : 10 ∉ s) (rest : Bytes)
    (h : s.length + 1 < maxCommandLenght) :
    readEnter (s ++ 10 :: rest) = .ok (Buf.ofBytes s (by omega), rest) := by
  have hline : (s ++ [10]).length < maxCommandLenght := by simpa using h
  have h0' : 0 ∉ s ++ [10] := by simpa using h0
  have hlast : (((s ++ [10]).length : Nat) : Int) - 1 = s.length := by simp
  rw [readEnter, Buf.fgets_eq h10 rest hline, ok_bind]
  show ((Buf.ofBytes (s ++ [10]) hline.le).strlen >>= _) = _
  rw [Buf.strlen_ofBytes, if_pos (Or.inr hline), ok_bind, cut_eq_self h0', hlast, Buf.terminate,
    if_neg (by omega), Int.toNat_natCast, Buf.set_ofBytes_last, ok_bind]
  rfl

/-- A line with a space is cut at the first one. -/
theorem Client.readInput_of_space {cmd arg : Bytes} (hcmd : ∀ b ∈ [0, 10, 32], b ∉ cmd)
    (harg : ∀ b ∈ [0, 10], b ∉ arg) (rest : Bytes)
    (h : (cmd ++ 32 :: arg).length + 1 < maxCommandLenght) :
    readInput (cmd ++ 32 :: arg ++ 10 :: rest)
      = .ok (⟨Buf.ofBytes cmd (by simp at h; omega), Buf.ofBytes arg (by simp at h; omega)⟩,
          rest) := by
  have hlen : cmd.length + arg.length + 2 < maxCommandLenght := by simp at h; omega
  have h0 : 0 ∉ cmd ++ 32 :: arg := by
    simpa using ⟨hcmd 0 (by simp), harg 0 (by simp)⟩
  have h10 : 10 ∉ cmd ++ 32 :: arg := by
    simpa using ⟨hcmd 10 (by simp), harg 10 (by simp)⟩
  have hc0 : 0 ∉ cmd := hcmd 0 (by simp)
  obtain ⟨zeros, hbytes⟩ := Buf.bytes_ofBytes (n := maxCommandLenght) (s := cmd ++ 32 :: arg)
    (by omega)
  rw [List.append_assoc, List.cons_append] at hbytes
  have hfst : (Buf.ofBytes (cmd ++ 32 :: arg) (by omega) : MessageBuf).From 0
      (cmd ++ 32 :: (arg ++ 0 :: zeros)) := hbytes
  have hsnd := hfst.skip_cons
  have hchr := hfst.strchr hc0 (hcmd 32 (by simp))
  rw [Nat.zero_add] at hchr hsnd
  rw [readInput, readEnter_eq h0 h10 rest h, ok_bind]
  show ((Buf.ofBytes (cmd ++ 32 :: arg) _ : MessageBuf).strchr 0 32 >>= _) = _
  rw [hchr, ok_bind]
  show (Buf.strncpy _ _ 0 cmd.length >>= _) = _
  rw [Buf.strncpy_eq_take hc0 hfst rfl (by omega), ok_bind]
  show (Buf.strncpy _ _ (cmd.length + 1) _ >>= _) = _
  rw [Buf.strncpy_eq (harg 0 (by simp)) hsnd (by omega) (by omega), ok_bind]
  rfl

/-- A line without a space is a command without arguments. -/
theorem Client.readInput_of_no_space {cmd : Bytes} (hcmd : ∀ b ∈ [0, 10, 32], b ∉ cmd)
    (rest : Bytes) (h : cmd.length + 1 < maxCommandLenght) :
    readInput (cmd ++ 10 :: rest) = .ok (⟨Buf.ofBytes cmd (by omega), .zero _⟩, rest) := by
  have h0 : 0 ∉ cmd := hcmd 0 (by simp)
  obtain ⟨zeros, hbytes⟩ := Buf.bytes_ofBytes (n := maxCommandLenght) (s := cmd) (by omega)
  have hchr : (Buf.ofBytes cmd (by omega) : MessageBuf).strchr 0 32 = .ok none :=
    Buf.From.strchr_none (i := 0) h0 (hcmd 32 (by simp)) (by decide) hbytes
  have hstr : (Buf.ofBytes cmd (by omega) : MessageBuf).cstring 0 = .ok cmd :=
    Buf.cstring_ofBytes h0 (by omega)
  rw [readInput, readEnter_eq h0 (hcmd 10 (by simp)) rest h, ok_bind]
  show ((Buf.ofBytes cmd _ : MessageBuf).strchr 0 32 >>= _) = _
  rw [hchr, ok_bind]
  show (Buf.strcpy _ _ 0 >>= _) = _
  rw [Buf.strcpy_eq hstr (by omega), ok_bind]
  rfl

/-! ## Commands for the server -/

/-- What does not begin with `'@'` is sent to the server. -/
theorem Client.doTask_of_remote {enter : Input} {name : Bytes}
    (h : enter.cmd.cstring 0 = .ok name) (hne : name ≠ []) (hat : name.head? ≠ some 64) :
    doTask enter = .ok (.commandExec enter) := by
  obtain ⟨c, s, rfl⟩ := List.exists_cons_of_ne_nil hne
  have hc : c ≠ 64 := fun hc => hat (congrArg some hc)
  have hlocal : ∀ k : Bytes, k.head? = some 64 → c :: s ≠ k := by
    rintro k hk rfl
    exact hat hk
  obtain ⟨rest, hbytes⟩ : c :: s <+: enter.cmd.bytes :=
    (Buf.cstring_zero_eq_ok.mp h).2 ▸ cut_isPrefix _
  have hget : enter.cmd.get 0 = .ok c := by
    rw [Buf.get, ← hbytes]
    rfl
  rw [doTask, h, ok_bind, if_neg (hlocal _ rfl), if_neg (hlocal _ rfl), if_neg (hlocal _ rfl), hget,
    ok_bind, if_neg hc]
  rfl

/-- The datagram of a command. -/
theorem Client.commandExec_eq {enter : Input} {cmd arg : Bytes} (data : Connection)
    (answer : Arrival) (hcmd : enter.cmd.cstring 0 = .ok cmd)
    (harg : enter.arg.cstring 0 = .ok arg)
    (h : (cmd ++ 32 :: arg).length + 3 < 3 * maxCommandLenght) :
    commandExec data enter answer = .ok
      { sent := [.sendto data.sockFd (ascii "@# " ++ (cmd ++ 32 :: arg)) data.admin]
        printed := (adminMessage answer).map fun s => 10 :: s ++ [10] } := by
  have hc0 : 0 ∉ cmd := (Buf.cstring_zero_eq_ok.mp hcmd).2 ▸ zero_notMem_cut _
  have ha0 : 0 ∉ arg := (Buf.cstring_zero_eq_ok.mp harg).2 ▸ zero_notMem_cut _
  have h0 : 0 ∉ ascii "@# " ++ (cmd ++ 32 :: arg) := by
    have hfmt : 0 ∉ ascii "@# " := by decide
    simp [hfmt, hc0, ha0]
  have hlen : (ascii "@# " ++ (cmd ++ 32 :: arg)).length < 3 * maxCommandLenght := by
    rw [List.length_append, Nat.add_comm]
    exact h
  obtain ⟨hstrlen, hload⟩ := Buf.strlen_load_ofBytes h0 hlen
  rw [commandExec, hcmd, ok_bind, harg, ok_bind, Buf.sprintf_zero hlen, ok_bind, hstrlen, ok_bind,
    hload, ok_bind]
  rfl

/-! ## Messages with and without a space -/

theorem Server.parser_of_space {n : Nat} {message : Buf n} {cmd args rest : Bytes}
    (hcmd : 0 ∉ cmd) (hspace : 32 ∉ cmd) (hargs : 0 ∉ args)
    (hc : cmd.length < maxCommandLenght) (ha : args.length < maxCommandLenght)
    (h : message.bytes = cmd ++ 32 :: (args ++ 0 :: rest)) :
    parser message = .ok (handlerOf cmd (Buf.ofBytes args ha.le)) := by
  have hchr : message.strchr 0 32 = .ok (some (0 + cmd.length)) :=
    Buf.From.strchr (i := 0) hcmd hspace h
  obtain ⟨message', hset, hbytes⟩ := Buf.set_of_bytes 0 h
  have hfst : message'.cstring 0 = .ok cmd := Buf.From.cstring (i := 0) hcmd hbytes
  have hsnd : message'.cstring (cmd.length + 1) = .ok args :=
    Buf.From.cstring hargs (by simpa using Buf.From.skip_cons (i := 0) hbytes)
  rw [Nat.zero_add] at hchr
  rw [parser, hchr, ok_bind]
  show (message.set cmd.length 0 >>= _) = _
  rw [hset, ok_bind, Buf.strcpy_eq hfst hc, ok_bind, Buf.strcpy_eq hsnd ha, ok_bind,
    Buf.cstring_ofBytes hcmd hc]
  rfl

theorem Server.parser_of_no_space {n : Nat} {message : Buf n} (h0 : 0 ∈ message.bytes)
    (hspace : 32 ∉ cut message.bytes) :
    parser message = if cut message.bytes = ascii "@Disconnected" then .ok .disconnected
      else .error .nullPointer := by
  obtain ⟨rest, hrest⟩ := exists_eq_cut_append h0
  have hzero := zero_notMem_cut message.bytes
  have hchr : message.strchr 0 32 = .ok none :=
    Buf.From.strchr_none (i := 0) hzero hspace (by decide) hrest
  have hstr : message.cstring 0 = .ok (cut message.bytes) := Buf.cstring_zero_eq_ok.mpr ⟨h0, rfl⟩
  rw [parser, hchr, ok_bind]
  show (message.cstring 0 >>= _) = _
  rw [hstr, ok_bind]
  rfl

/-- The message that matters is the C string. -/
theorem Server.parser_of_cut {n : Nat} {message : Buf n} {cmd args : Bytes}
    (h0 : 0 ∈ message.bytes) (hlen : (cut message.bytes).length < maxCommandLenght)
    (hspace : 32 ∉ cmd) (h : cut message.bytes = cmd ++ 32 :: args) :
    ∃ ha : args.length ≤ maxCommandLenght,
      parser message = .ok (handlerOf cmd (Buf.ofBytes args ha)) := by
  obtain ⟨rest, hrest⟩ := exists_eq_cut_append h0
  have hzero := zero_notMem_cut message.bytes
  rw [h] at hrest hzero hlen
  rw [List.append_assoc, List.cons_append] at hrest
  simp only [List.mem_append, List.mem_cons, not_or] at hzero
  simp only [List.length_append, List.length_cons] at hlen
  exact ⟨by omega, parser_of_space hzero.1 hspace hzero.2.2 (by omega) (by omega) hrest⟩

end ServerSsh

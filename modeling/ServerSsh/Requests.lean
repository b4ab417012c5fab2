import ServerSsh.Dispatch
import ServerSsh.Upload

/-!
# Requests

A line that the user types is a request: to leave, to copy a file to the server,
to run a command there, or nothing that the server is to hear of.
`Request.ofLine` reads the line as it is meant, and `Request.done` says what the
server is to make of it.

Between the two stand `Read_input`, `Do_task` and the functions of the client
that write the datagrams, and on the server `Parser` and the functions that it
calls.  When the datagrams arrive as they were sent, a file is copied exactly when
the datagrams can be sent, and a command is run exactly when its words fit into
`argv` as well, the program ends, and its output can be sent (`requests_served`).
Every other line leaves the server as it was.
-/

namespace ServerSsh

open Libc Posix

/-! ## The client -/

/-- `Command_exit`. -/
def Client.commandExit (data : Connection) : Except Fault (List Output) := do
  let message ← (Buf.zero maxCommandLenght).sprintf (ascii "@Disconnected")
  let len ← message.strlen
  let text ← message.load len
  pure [.sendto data.sockFd text data.admin]

/-- What the end of `Do_task` sends.  `Command_copy_from` is empty, and for an
unknown command there is a line on the screen. -/
def Client.call (data : Connection) (source : Bytes → Option Source) (answer : Arrival) :
    Task → Except Fault (List Output)
  | .commandExit => commandExit data
  | .commandCopyTo message => (commandCopyTo data source message answer).map Exchange.sent
  | .commandCopyFrom _ => pure []
  | .unknown => pure []
  | .commandExec enter => (commandExec data enter answer).map Exchange.sent

/-- The datagrams for a line, from `Read_input` on. -/
def Client.sent (data : Connection) (source : Bytes → Option Source) (answer : Arrival)
    (stdin : Bytes) : Except Fault (List Bytes) := do
  let (enter, _) ← Client.readInput stdin
  let task ← Client.doTask enter
  let calls ← Client.call data source answer task
  pure (calls.map Output.data)

/-- `Parser` on the datagrams for a line, when all that can be sent arrives as it
was sent. -/
def served {ι : Type} [DecidableEq ι] (host : Host ι) (data : Connection)
    (source : Bytes → Option Source) (answer : Arrival) (files : ι → Option Bytes)
    (stdin : Bytes) : Except Fault (Server.State ι × Ending) := do
  let sent ← Client.sent data source answer stdin
  pure (Server.serve host ⟨files, sendable sent, []⟩)

/-! ## What is meant -/

/-- What is before the first space. -/
def word (s : Bytes) : Bytes := s.takeWhile (· ≠ 32)

/-- What is behind the first space. -/
def afterWord (s : Bytes) : Bytes := (s.dropWhile (· ≠ 32)).tail

/-- What the server is asked for. -/
inductive Request where
  | exit
  | copyTo (pathFrom pathTo : Bytes)
  | exec (command : Bytes)
deriving DecidableEq

namespace Request

/-- The request of a line. -/
def ofLine (line : Bytes) : Option Request :=
  if word line = ascii "@exit" then some .exit
  else if word line = ascii "@copy_to" then
    if 32 ∈ afterWord line then
      some (.copyTo (word (afterWord line)) (afterWord (afterWord line)))
    else none
  else if word line = ascii "@copy_from" then none
  else if line.head? = some 64 then none
  else some (.exec (word line ++ 32 :: afterWord line))

/-- The words that a command is split into.  A space at its start belongs to the
first word. -/
def words : Bytes → List Bytes
  | [] => [[]]
  | c :: s => (s.splitOn 32).modifyHead (c :: ·)

/-- The program of a command and its arguments. -/
def program (command : Bytes) : Exec := ⟨(words command).headD [], words command⟩

/-- The source of a request, as the client sees it. -/
def opened (source : Bytes → Option Source) (pathFrom : Bytes) : Source :=
  (source pathFrom).getD .failed

/-- The datagrams of a request. -/
def datagrams (source : Bytes → Option Source) : Request → List Bytes
  | exit => [ascii "@Disconnected"]
  | copyTo pathFrom pathTo =>
      [ascii "@Copy_to " ++ pathTo, decimal (opened source pathFrom).stSize,
        (opened source pathFrom).text]
  | exec command => [ascii "@# " ++ command]

variable {ι : Type} [DecidableEq ι]

/-- The server after a request, with nothing left to receive. -/
def done (host : Host ι) (source : Bytes → Option Source) (files : ι → Option Bytes) :
    Request → Server.State ι
  | exit => ⟨files, [], []⟩
  | copyTo pathFrom pathTo =>
      ⟨fun i => if host.opens pathTo ∧ host.file pathTo = i
          then some ((opened source pathFrom).text.take host.room) else files i,
        [], [ascii "@Success"]⟩
  | exec command =>
      ⟨(host.exec (program command) files).1, [], (host.exec (program command) files).2.toList⟩

/-- What `Parser` is to return. -/
def ret : Request → Int
  | exit => 0
  | copyTo _ _ => 1
  | exec _ => 1

/-- The program of a command ends, and its output is no longer than a datagram. -/
def Answered (host : Host ι) (files : ι → Option Bytes) (command : Bytes) : Prop :=
  ∃ output, (host.exec (program command) files).2 = some output ∧ output.length ≤ maxDatagram

/-- The datagrams can be sent, `argv` has room for the words and a null pointer, and
there is an answer. -/
def Fits (host : Host ι) (source : Bytes → Option Source) (files : ι → Option Bytes) :
    Request → Prop
  | exit => True
  | copyTo pathFrom pathTo =>
      (ascii "@Copy_to " ++ pathTo).length ≤ maxDatagram ∧
        (opened source pathFrom).stSize ≤ maxDatagram
  | exec command =>
      (ascii "@# " ++ command).length ≤ maxDatagram ∧
        command.tail.count 32 + 2 ≤ maxUserCount ∧ Answered host files command

end Request

/-! ## The first space -/

theorem notMem_word (s : Bytes) : 32 ∉ word s := by
  intro h
  simpa using List.mem_takeWhile_imp h

/-- The test of the two searches. -/
theorem ne_space_of_notMem {s : Bytes} (h : 32 ∉ s) : ∀ b ∈ s, decide (b ≠ 32) = true := by
  intro b hb
  have hne : b ≠ 32 := fun hb' => h (hb' ▸ hb)
  simpa using hne

theorem eq_word_append {s : Bytes} (h : 32 ∈ s) : s = word s ++ 32 :: afterWord s := by
  obtain ⟨u, v, rfl, hu⟩ := List.eq_append_cons_of_mem h
  have hpos := ne_space_of_notMem hu
  rw [word, afterWord, List.takeWhile_append_of_pos hpos, List.dropWhile_append_of_pos hpos]
  simp

theorem word_of_notMem {s : Bytes} (h : 32 ∉ s) : word s = s ∧ afterWord s = [] := by
  have hpos := ne_space_of_notMem h
  rw [word, afterWord, List.takeWhile_eq_self_iff.mpr hpos, List.dropWhile_eq_nil_iff.mpr hpos]
  exact ⟨rfl, rfl⟩

theorem head?_word (s : Bytes) : (word s).head? = some 64 ↔ s.head? = some 64 := by
  cases s with
  | nil => rfl
  | cons b s =>
      rw [word, List.takeWhile_cons]
      split
      next hb => simp
      next hb =>
        have hb' : b = 32 := by simpa using hb
        simp [hb']

theorem mem_of_mem_word {s : Bytes} {b : UInt8} (h : b ∈ word s) : b ∈ s :=
  (List.takeWhile_prefix _).subset h

theorem mem_of_mem_afterWord {s : Bytes} {b : UInt8} (h : b ∈ afterWord s) : b ∈ s :=
  (List.dropWhile_suffix _).subset (List.mem_of_mem_tail h)

theorem length_words_le (s : Bytes) : (word s).length + (afterWord s).length ≤ s.length := by
  have h := congrArg List.length (List.takeWhile_append_dropWhile (p := fun b => b ≠ 32) (l := s))
  rw [List.length_append] at h
  have htail := List.length_tail (l := s.dropWhile fun b => b ≠ 32)
  rw [word, afterWord]
  omega

/-! ## The datagrams of a line -/

section Client

variable {line name : Bytes} {enter : Input}

/-- `Read_input` cuts a line at its first space. -/
theorem Client.readInput_line (h0 : 0 ∉ line) (h10 : 10 ∉ line) (rest : Bytes)
    (h : line.length + 1 < maxCommandLenght) :
    ∃ (hc : (word line).length ≤ maxCommandLenght)
      (ha : (afterWord line).length ≤ maxCommandLenght), readInput (line ++ 10 :: rest)
        = .ok (⟨Buf.ofBytes (word line) hc, Buf.ofBytes (afterWord line) ha⟩, rest) := by
  have hlen := length_words_le line
  refine ⟨by omega, by omega, ?_⟩
  have hword : ∀ b ∈ [0, 10, 32], b ∉ word line := by
    simp only [List.forall_mem_cons]
    exact ⟨fun hm => h0 (mem_of_mem_word hm), fun hm => h10 (mem_of_mem_word hm), notMem_word line,
      by simp⟩
  have hafter : ∀ b ∈ [0, 10], b ∉ afterWord line := by
    simp only [List.forall_mem_cons]
    exact ⟨fun hm => h0 (mem_of_mem_afterWord hm), fun hm => h10 (mem_of_mem_afterWord hm), by simp⟩
  by_cases hspace : 32 ∈ line
  · have heq := eq_word_append hspace
    have hread := readInput_of_space hword hafter rest (heq ▸ h)
    exact (congrArg (fun s => readInput (s ++ 10 :: rest)) heq).trans hread
  · obtain ⟨hw, ha⟩ := word_of_notMem hspace
    have hread := readInput_of_no_space hword rest (hw.symm ▸ h)
    simp only [hw, ha] at hread ⊢
    exact hread

/-- The calls of `Do_task`. -/
theorem Client.doTask_eq (h : enter.cmd.cstring 0 = .ok name) :
    doTask enter = .ok
      (if name = ascii "@exit" then .commandExit
      else if name = ascii "@copy_to" then .commandCopyTo enter.arg
      else if name = ascii "@copy_from" then .commandCopyFrom enter.arg
      else if name.head? = some 64 then .unknown
      else .commandExec enter) := by
  obtain ⟨h0, rfl⟩ := Buf.cstring_zero_eq_ok.mp h
  obtain ⟨rest, hbytes⟩ := exists_eq_cut_append h0
  obtain ⟨c, hget, hhead⟩ : ∃ c, enter.cmd.get 0 = .ok c ∧
      ((cut enter.cmd.bytes).head? = some 64 ↔ c = 64) := by
    rw [Buf.get]
    cases hcut : cut enter.cmd.bytes with
    | nil =>
        rw [hbytes, hcut]
        exact ⟨0, rfl, by simp⟩
    | cons c s =>
        rw [hbytes, hcut]
        exact ⟨c, rfl, by simp⟩
  rw [doTask, h, ok_bind, hget]
  simp only [hhead, ok_bind]
  split
  · rfl
  split
  · rfl
  split
  · rfl
  split <;> rfl

theorem Client.commandExit_eq (data : Connection) :
    commandExit data = .ok [.sendto data.sockFd (ascii "@Disconnected") data.admin] := by
  have hlen : (ascii "@Disconnected").length < maxCommandLenght := by decide
  obtain ⟨hstrlen, hload⟩ := Buf.strlen_load_ofBytes (show 0 ∉ ascii "@Disconnected" by decide) hlen
  rw [commandExit, Buf.sprintf_zero hlen, ok_bind, hstrlen, ok_bind, hload, ok_bind]
  rfl

/-- `Command_copy_to` on an argument with two paths, or with one. -/
theorem Client.commandCopyTo_line (data : Connection) (source : Bytes → Option Source)
    (answer : Arrival) {arg : Bytes} (h0 : 0 ∉ arg)
    (h : (ascii "@Copy_to " ++ arg).length ≤ maxCommandLenght)
    (ha : arg.length ≤ maxCommandLenght) :
    (commandCopyTo data source (Buf.ofBytes arg ha) answer).map Exchange.sent =
      if 32 ∈ arg then
        .ok (((Request.copyTo (word arg) (afterWord arg)).datagrams source).map fun d =>
          .sendto data.sockFd d data.admin)
      else .error .nullPointer := by
  rw [List.length_append] at h
  have hcopy : (ascii "@Copy_to ").length = 9 := rfl
  obtain ⟨zeros, hbytes⟩ := Buf.bytes_ofBytes (n := maxCommandLenght) (s := arg) (by omega)
  split
  next hspace =>
    have heq := eq_word_append hspace
    have hlen := congrArg List.length heq
    rw [List.length_append, List.length_cons] at hlen
    have hfrom : 0 ∉ word arg ∧ 32 ∉ word arg :=
      ⟨fun hm => h0 (mem_of_mem_word hm), notMem_word arg⟩
    have hto : 0 ∉ afterWord arg := fun hm => h0 (mem_of_mem_afterWord hm)
    have hsplit : arg ++ 0 :: zeros = word arg ++ 32 :: (afterWord arg ++ 0 :: zeros) := by
      rw [← List.cons_append, ← List.append_assoc, ← heq]
    refine commandCopyTo_eq data source answer hfrom hto ?_ (hbytes.trans hsplit)
    rw [List.length_append]
    omega
  next hspace =>
    have hchr : (Buf.ofBytes arg ha).strchr 0 32 = .ok none :=
      Buf.From.strchr_none (i := 0) h0 hspace (by decide) hbytes
    rw [commandCopyTo, hchr]
    rfl

/-- The datagrams that the functions of the client write. -/
theorem Client.sent_eq (rest : Bytes) (data : Connection) (source : Bytes → Option Source)
    (answer : Arrival) (h0 : 0 ∉ line) (h10 : 10 ∉ line) (h : line.length + 1 < maxCommandLenght) :
    sent data source answer (line ++ 10 :: rest)
      = match Request.ofLine line with
        | some r => .ok (r.datagrams source)
        | none => if word line = ascii "@copy_to" then .error .nullPointer else .ok [] := by
  obtain ⟨hc, ha, hread⟩ := readInput_line h0 h10 rest h
  have hlen := length_words_le line
  have hw0 : 0 ∉ word line := fun hm => h0 (mem_of_mem_word hm)
  have ha0 : 0 ∉ afterWord line := fun hm => h0 (mem_of_mem_afterWord hm)
  have hcmd : (Buf.ofBytes (word line) hc).cstring 0 = .ok (word line) :=
    Buf.cstring_ofBytes hw0 (by omega)
  have harg : (Buf.ofBytes (afterWord line) ha).cstring 0 = .ok (afterWord line) :=
    Buf.cstring_ofBytes ha0 (by omega)
  rw [sent, hread, ok_bind]
  show (doTask _ >>= _) = _
  rw [doTask_eq hcmd, ok_bind, Request.ofLine]
  simp only [head?_word]
  split
  · rw [call, commandExit_eq]
    rfl
  split
  next hcopy =>
    rw [call, commandCopyTo_line data source answer ha0 ?_ ha]
    · split
      · rw [ok_bind, List.map_map]
        exact congrArg Except.ok (List.map_id _)
      · rfl
    · by_cases hspace : 32 ∈ line
      · have hlen := congrArg List.length (eq_word_append hspace)
        rw [hcopy, List.length_append, List.length_cons] at hlen
        have hword : (ascii "@copy_to").length = 8 := rfl
        have hcopy : (ascii "@Copy_to ").length = 9 := rfl
        rw [List.length_append]
        omega
      · rw [(word_of_notMem hspace).2]
        decide
  split
  next hcopy hfrom =>
    rfl
  split
  next hat =>
    rfl
  next hat =>
    have hmax : maxCommandLenght = 65536 := rfl
    have hfits : (word line ++ 32 :: afterWord line).length + 3 < 3 * maxCommandLenght := by
      rw [List.length_append, List.length_cons]
      omega
    rw [call, commandExec_eq data answer hcmd harg hfits]
    rfl

end Client

/-! ## The words of a command -/

namespace Server

/-- `Do_usual` splits every command that `argv` has room for. -/
theorem doUsual_program {n : Nat} {b : Buf n} {command rest : Bytes} (hne : command ≠ [])
    (h0 : 0 ∉ command) (hcount : command.tail.count 32 + 2 ≤ maxUserCount)
    (hb : b.bytes = command ++ 0 :: rest) : doUsual b = .ok (Request.program command) := by
  obtain ⟨c, t, rfl⟩ := List.exists_cons_of_ne_nil hne
  obtain ⟨s, ws, hsplit⟩ := List.exists_cons_of_ne_nil (List.splitOn_ne_nil 32 t)
  have hlen := length_splitOn 32 t
  have hwords : ∀ w ∈ s :: ws, 0 ∉ w ∧ 32 ∉ w := by
    intro w hw
    obtain ⟨h32, hsub⟩ := notMem_of_mem_splitOn t (hsplit ▸ hw)
    exact ⟨fun hm => h0 (List.mem_cons_of_mem _ (hsub 0 hm)), h32⟩
  rw [hsplit, List.length_cons] at hlen
  rw [List.tail_cons] at hcount
  -- The search for spaces starts behind the first byte of the command.
  have hjoin : c :: t ++ 0 :: rest = [c] ++ ([32].intercalate (s :: ws) ++ 0 :: rest) := by
    rw [← hsplit, List.intercalate_splitOn]
    rfl
  obtain ⟨b', htok, hb'⟩ := tokenise_eq ws s [c] 0 b [0] hwords rfl
    (by rw [List.length_singleton]; omega) (hb.trans hjoin)
  have hcons : [c] ++ ([0].intercalate (s :: ws) ++ 0 :: rest)
      = [0].intercalate ((c :: s) :: ws) ++ 0 :: rest := by
    cases ws with
    | nil => simp
    | cons w ws => simp
  have hzero : ∀ w ∈ (c :: s) :: ws, 0 ∉ w := by
    obtain ⟨hs, hws⟩ := List.forall_mem_cons.mp hwords
    refine List.forall_mem_cons.mpr ⟨?_, fun w hw => (hws w hw).1⟩
    have hc : 0 ≠ c := fun hc => h0 (hc ▸ List.mem_cons_self ..)
    rw [List.mem_cons, not_or]
    exact ⟨hc, hs.1⟩
  have hmap := Buf.mapM_cstring_wordStarts (i := 0) hzero (hb'.trans hcons)
  have hoffsets : [0] ++ wordStarts ([c].length + s.length + 1) ws
      = wordStarts 0 ((c :: s) :: ws) := by
    simp [wordStarts, Nat.add_comm]
  obtain ⟨rest', hrest⟩ := exists_intercalate_zero (c :: s) ws rest
  have hfile : b'.cstring 0 = .ok (c :: s) :=
    Buf.From.cstring (i := 0) (hzero _ (List.mem_cons_self ..)) ((hb'.trans hcons).trans hrest)
  rw [doUsual, htok, hoffsets, ok_bind]
  show (b'.cstring 0 >>= _) = _
  rw [hfile, ok_bind, hmap, Request.program, Request.words, hsplit]
  rfl

end Server

/-! ## The server -/

namespace Request

/-- A call that ends in another way does something else. -/
theorem ne_of_ending {ι : Type} {r : Server.State ι × Ending} {s : Server.State ι} {e : Ending}
    (h : r.2 ≠ e) : r ≠ (s, e) := fun heq => h (congrArg Prod.snd heq)

section

variable {ι : Type} [DecidableEq ι] (host : Host ι) (source : Bytes → Option Source)
  (files : ι → Option Bytes)

theorem cut_copyTo {pathTo : Bytes} (h0 : 0 ∉ pathTo) :
    cut (ascii "@Copy_to " ++ pathTo) = ascii "@Copy_to" ++ 32 :: pathTo :=
  cut_eq_self (by simpa [ascii] using h0)

/-- `Parser` writes through a null pointer when it is called on the size of a file. -/
theorem serve_decimal {k : Nat} (hk : (decimal k).length ≤ maxDatagram) (inbox : List Bytes) :
    (Server.serve host ⟨files, decimal k :: inbox, []⟩).2 = .fault .nullPointer := by
  obtain ⟨hmem, hcut⟩ := cut_recvfrom (n := maxCommandLenght) (hk.trans_lt (by decide))
  rw [cut_eq_self (notMem_decimal rfl _)] at hcut
  have hspace : 32 ∉ cut (recvfrom maxCommandLenght (decimal k)).bytes := by
    rw [hcut]
    exact notMem_decimal rfl _
  have hword : decimal k ≠ ascii "@Disconnected" := by
    intro h
    have hat : 64 ∈ decimal k := h ▸ (by decide)
    exact notMem_decimal rfl _ hat
  have hparse := Server.parser_of_no_space hmem hspace
  rw [hcut, if_neg hword] at hparse
  rw [Server.serve_error hparse]

theorem serve_exit : Server.serve host ⟨files, sendable (datagrams source exit), []⟩
    = (done host source files exit, .returned 0) := by
  have hlen : (ascii "@Disconnected").length ≤ maxDatagram := by decide
  have h0 : 0 ∉ ascii "@Disconnected" := by decide
  obtain ⟨hmem, hcut⟩ := cut_recvfrom (n := maxCommandLenght) (hlen.trans_lt (by decide))
  rw [cut_eq_self h0] at hcut
  have hparse := Server.parser_of_no_space hmem (hcut ▸ (by decide))
  rw [if_pos hcut] at hparse
  rw [datagrams, sendable_cons, if_pos hlen, sendable_nil, Server.serve_ok hparse]
  rfl

/-- A program that does not end leaves the server waiting, and an answer that is too long
for a datagram is not sent. -/
theorem execute_iff (command : Bytes) :
    Server.execute host (program command) ⟨files, [], []⟩
        = (done host source files (exec command), .returned 1) ↔
      Answered host files command := by
  have hmax : maxDatagram < maxOutputLenght := by decide
  rw [done, Answered]
  cases hexec : host.exec (program command) files with
  | mk files' output =>
  simp only [Server.execute, hexec]
  cases output with
  | none =>
      refine iff_of_false (ne_of_ending (by simp)) ?_
      rintro ⟨output, h, -⟩
      cases h
  | some output =>
      dsimp only
      by_cases hlen : output.length ≤ maxDatagram
      · have hsend := CommandExecution.sendto_take_iff.mpr hlen
        rw [List.take_of_length_le (hlen.trans hmax.le)] at hsend ⊢
        rw [hsend]
        exact iff_of_true rfl ⟨output, rfl, hlen⟩
      · have hfail : CommandExecution.sendto (output.take maxOutputLenght) = none := by
          rw [CommandExecution.sendto, if_neg]
          rw [List.length_take]
          omega
        refine iff_of_false (by simp [hfail]) ?_
        rintro ⟨output', h, hle⟩
        cases h
        exact hlen hle

theorem serve_exec_iff {command : Bytes} (hne : command ≠ []) (h0 : 0 ∉ command) :
    Server.serve host ⟨files, sendable (datagrams source (exec command)), []⟩
        = (done host source files (exec command), .returned 1) ↔
      (exec command).Fits host source files := by
  rw [datagrams, sendable_cons, sendable_nil]
  by_cases hlen : (ascii "@# " ++ command).length ≤ maxDatagram
  · have hcut : cut (ascii "@# " ++ command) = ascii "@#" ++ 32 :: command :=
      cut_eq_self (by simpa [ascii] using h0)
    obtain ⟨ha, -, hserve⟩ := Server.serve_command host files [] [] _ _ hlen (by decide) hcut
    have hlt : command.length < maxCommandLenght := by
      rw [List.length_append] at hlen
      exact (Nat.le_of_add_left_le hlen).trans_lt (by decide)
    rw [if_pos hlen, hserve]
    show Server.call host _ (.doUsual _) = _ ↔ _
    rw [Server.call]
    by_cases hcount : command.tail.count 32 + 2 ≤ maxUserCount
    · obtain ⟨zeros, hbytes⟩ := Buf.bytes_ofBytes hlt
      rw [Server.doUsual_program hne h0 hcount hbytes]
      exact (execute_iff host source files command).trans
        ⟨fun h => ⟨hlen, hcount, h⟩, fun h => h.2.2⟩
    · refine iff_of_false ?_ fun h => hcount h.2.1
      split
      next f hf => exact ne_of_ending (by simp)
      next e he =>
        obtain ⟨r, hr, -⟩ := bind_eq_ok.mp he
        exact absurd ((Server.tokenise_args_iff h0 hlt).mp ⟨r, hr⟩) hcount
  · rw [if_neg hlen]
    refine iff_of_false (ne_of_ending ?_) fun h => hlen h.1
    simp [Server.serve]

/-- The three datagrams of an upload, when all can be sent. -/
theorem serve_copyTo {pathFrom pathTo : Bytes} (h0 : 0 ∉ pathTo)
    (hto : (ascii "@Copy_to " ++ pathTo).length ≤ maxDatagram)
    (hlen : (opened source pathFrom).stSize ≤ maxDatagram) :
    Server.serve host ⟨files, datagrams source (copyTo pathFrom pathTo), []⟩
      = (done host source files (copyTo pathFrom pathTo), .returned 1) := by
  obtain ⟨ha, hstr, hserve⟩ := Server.serve_command host files
    [decimal (opened source pathFrom).stSize, (opened source pathFrom).text] [] _ _ hto (by decide)
    (cut_copyTo h0)
  have htext : Server.text (opened source pathFrom).stSize (opened source pathFrom).text
      = (opened source pathFrom).text := by
    rw [Server.text, if_neg (by omega), Int.toNat_natCast, recvfrom_of_le (Source.length_text _).le]
    simp [Buf.ofBytes]
  rw [datagrams, hserve]
  show Server.copyTo host _ _ = _
  rw [Server.copyTo_done hstr (Source.length_decimal_le _),
    Upload.atoi_cut_decimal (hlen.trans_lt (by decide)), htext]
  refine Prod.ext ?_ rfl
  refine congrArg (fun f => (⟨f, [], [ascii "@Success"]⟩ : Server.State ι)) ?_
  funext i
  exact Host.write_apply pathTo _ i

theorem serve_copyTo_iff {pathFrom pathTo : Bytes} (h0 : 0 ∉ pathTo) :
    Server.serve host ⟨files, sendable (datagrams source (copyTo pathFrom pathTo)), []⟩
        = (done host source files (copyTo pathFrom pathTo), .returned 1) ↔
      (copyTo pathFrom pathTo).Fits host source files := by
  have hsize := (opened source pathFrom).length_decimal_le
  rw [datagrams, sendable_cons, sendable_cons, sendable_cons, sendable_nil, if_pos hsize,
    Source.length_text]
  by_cases hto : (ascii "@Copy_to " ++ pathTo).length ≤ maxDatagram
  · rw [if_pos hto]
    by_cases hlen : (opened source pathFrom).stSize ≤ maxDatagram
    · rw [if_pos hlen]
      exact iff_of_true (serve_copyTo host source files h0 hto hlen) ⟨hto, hlen⟩
    · -- The target is truncated, and the server waits for the text.
      obtain ⟨ha, hstr, hserve⟩ := Server.serve_command host files
        [decimal (opened source pathFrom).stSize] [] _ _ hto (by decide) (cut_copyTo h0)
      rw [if_neg hlen, hserve]
      refine iff_of_false ?_ fun h => hlen h.2
      show ¬ Server.copyTo host _ _ = _
      rw [Server.copyTo_waiting hstr (by simp) (by simpa using hsize)]
      exact ne_of_ending (by simp)
  · -- `Parser` is called on the size.
    rw [if_neg hto]
    refine iff_of_false (ne_of_ending ?_) fun h => hto h.1
    rw [serve_decimal host files hsize]
    simp

/-- No text of a request has a terminator in it, and no command is empty. -/
def Plain : Request → Prop
  | exit => True
  | copyTo _ pathTo => 0 ∉ pathTo
  | exec command => command ≠ [] ∧ 0 ∉ command

theorem plain_of_ofLine {line : Bytes} {r : Request} (h0 : 0 ∉ line) (hr : ofLine line = some r) :
    r.Plain := by
  rw [ofLine] at hr
  split at hr
  · cases hr
    trivial
  split at hr
  · split at hr
    · cases hr
      exact fun hm => h0 (mem_of_mem_afterWord (mem_of_mem_afterWord hm))
    · cases hr
  split at hr
  · cases hr
  split at hr
  · cases hr
  · cases hr
    refine ⟨by simp, ?_⟩
    rw [List.mem_append, List.mem_cons]
    intro hm
    rcases hm with hm | hm | hm
    · exact h0 (mem_of_mem_word hm)
    · cases hm
    · exact h0 (mem_of_mem_afterWord hm)

/-- The datagrams of a request are served as it is meant exactly when it fits. -/
theorem serve_iff {r : Request} (hr : r.Plain) :
    Server.serve host ⟨files, sendable (r.datagrams source), []⟩
        = (r.done host source files, .returned r.ret) ↔ r.Fits host source files := by
  cases r with
  | exit => exact iff_of_true (serve_exit host source files) trivial
  | copyTo pathFrom pathTo => exact serve_copyTo_iff host source files hr
  | exec command => exact serve_exec_iff host source files hr.1 hr.2

end

end Request

end ServerSsh

import ServerSsh.Commands

/-!
# The words of a command

A `CommandLine` is a line of words with single spaces between them that
`Read_input` reads whole.  `typed` follows such a line from `Read_input` to the
`execvp` of `Do_usual`.

The loop of `Do_usual` undoes the joining of the words (`tokenise_eq`).  But
`Command_exec` writes a space after the command also when nothing follows it, so
a command without arguments arrives with an empty word behind it (`typed_eq`).
Every line of two or more words arrives as it is (`typed_words_iff`).
-/

namespace ServerSsh

open Libc

/-! ## The loop of `Do_usual` -/

/-- One iteration, at a space. -/
theorem Server.tokenise_of_space {n : Nat} {b : Buf n} {space : Nat} {s t : Bytes}
    (argv : List Nat) (h0 : 0 ∉ s) (h32 : 32 ∉ s) (hb : b.From (space + 1) (s ++ 32 :: t)) :
    ∃ b', b'.bytes = (b.bytes.take (space + 1) ++ s) ++ 0 :: t ∧
      b'.From (space + 1 + s.length + 1) t ∧
      tokenise space b argv =
        if argv.length + 1 < maxUserCount then
          tokenise (space + 1 + s.length) b' (argv ++ [space + 1 + s.length + 1])
        else .error .outOfBounds := by
  have hbytes : b.bytes = (b.bytes.take (space + 1) ++ s) ++ 32 :: t := by
    rw [List.append_assoc, ← hb, List.take_append_drop]
  have hpre : (b.bytes.take (space + 1) ++ s).length = space + 1 + s.length := by
    have hlen := congrArg List.length hb
    rw [List.length_drop, List.length_append, List.length_cons] at hlen
    rw [List.length_append, List.length_take]
    omega
  obtain ⟨b', hset, hb'⟩ := Buf.set_of_bytes 0 hbytes
  rw [hpre] at hset
  refine ⟨b', hb', ?_, ?_⟩
  · rw [List.append_cons] at hb'
    have hskip := Buf.from_of_bytes hb'
    rwa [List.length_append, hpre, List.length_singleton] at hskip
  · rw [tokenise, hb.strchr h0 h32]
    simp only [hset]

/-- The loop replaces the separators after the start of the search by
terminators and collects the offsets of the words behind them.  The first of
the words in `b` starts before the search does. -/
theorem Server.tokenise_eq {n : Nat} {rest : Bytes} (ws : List Bytes) :
    ∀ (s pre : Bytes) (space : Nat) (b : Buf n) (argv : List Nat),
      (∀ w ∈ s :: ws, 0 ∉ w ∧ 32 ∉ w) → pre.length = space + 1 →
      argv.length + ws.length < maxUserCount →
      b.bytes = pre ++ ([32].intercalate (s :: ws) ++ 0 :: rest) →
        ∃ b', tokenise space b argv
            = .ok (b', argv ++ wordStarts (pre.length + s.length + 1) ws) ∧
          b'.bytes = pre ++ ([0].intercalate (s :: ws) ++ 0 :: rest) := by
  induction ws with
  | nil =>
      intro s pre space b argv hs hpre _ hb
      obtain ⟨h0, h32⟩ := hs s (List.mem_singleton_self s)
      have hfrom := Buf.from_of_bytes hb
      rw [List.intercalate_singleton, hpre] at hfrom
      refine ⟨b, ?_, hb⟩
      rw [tokenise, hfrom.strchr_none h0 h32 (by decide), wordStarts, List.append_nil]
  | cons w ws ih =>
      intro s pre space b argv hs hpre hcount hb
      obtain ⟨⟨h0, h32⟩, hws⟩ := List.forall_mem_cons.mp hs
      rw [intercalate_cons, List.append_assoc, List.cons_append] at hb
      have hfrom := Buf.from_of_bytes hb
      rw [hpre] at hfrom
      have hspace : space + 1 + s.length = (pre ++ s).length := by rw [List.length_append, hpre]
      obtain ⟨b₁, hb₁, -, hstep⟩ := tokenise_of_space argv h0 h32 hfrom
      rw [hb, List.take_left' hpre] at hb₁
      have hlen : argv.length + 1 < maxUserCount := by
        rw [List.length_cons] at hcount
        omega
      -- The terminator belongs to the part that the loop has left behind.
      rw [List.append_cons] at hb₁
      obtain ⟨b', htok, hb'⟩ := ih w _ _ b₁ (argv ++ [(pre ++ s).length + 1]) hws
        (List.length_append ..) (by simp at hcount ⊢; omega) hb₁
      refine ⟨b', ?_, ?_⟩
      · rw [hstep, if_pos hlen, hspace, htok, wordStarts]
        simp [Nat.add_assoc]
      · rw [hb', intercalate_cons]
        simp

/-- `Do_usual` calls `execvp` with the words of its argument, of which the first
is not empty. -/
theorem Server.doUsual_eq {n : Nat} {w rest : Bytes} {ws : List Bytes} {b : Buf n}
    (hne : w ≠ []) (hws : ∀ v ∈ w :: ws, 0 ∉ v ∧ 32 ∉ v) (hcount : ws.length + 1 < maxUserCount)
    (hb : b.bytes = [32].intercalate (w :: ws) ++ 0 :: rest) :
    doUsual b = .ok ⟨w, w :: ws⟩ := by
  obtain ⟨c, s, rfl⟩ := List.exists_cons_of_ne_nil hne
  -- The search for spaces starts behind the first byte of the command.
  have hhead : ∀ d : UInt8,
      [d].intercalate ((c :: s) :: ws) = [c] ++ [d].intercalate (s :: ws) := by
    intro d
    cases ws with
    | nil => simp
    | cons v ws => simp
  rw [hhead, List.append_assoc] at hb
  have hs : ∀ v ∈ s :: ws, 0 ∉ v ∧ 32 ∉ v := by
    obtain ⟨⟨h0, h32⟩, hrest⟩ := List.forall_mem_cons.mp hws
    exact List.forall_mem_cons.mpr
      ⟨⟨fun h => h0 (List.mem_cons_of_mem _ h), fun h => h32 (List.mem_cons_of_mem _ h)⟩, hrest⟩
  obtain ⟨b', htok, hb'⟩ := tokenise_eq ws s [c] 0 b [0] hs rfl
    (by simpa [Nat.add_comm] using hcount) hb
  rw [← List.append_assoc, ← hhead] at hb'
  have hwords := Buf.mapM_cstring_wordStarts (i := 0) (fun v hv => (hws v hv).1) hb'
  have hoffsets : [0] ++ wordStarts ([c].length + s.length + 1) ws
      = wordStarts 0 ((c :: s) :: ws) := by
    simp [wordStarts, Nat.add_comm]
  obtain ⟨rest', hrest⟩ := exists_intercalate_zero (c :: s) ws rest
  have hfile : b'.cstring 0 = .ok (c :: s) :=
    Buf.From.cstring (i := 0) (hws _ (List.mem_cons_self ..)).1 (hb'.trans hrest)
  rw [doUsual, htok, hoffsets, ok_bind]
  show (b'.cstring 0 >>= _) = _
  rw [hfile, ok_bind, hwords]
  rfl

/-! ## From the line to `execvp` -/

/-- A line of words with single spaces between them. -/
structure CommandLine where
  name : Bytes
  args : List Bytes
  /-- The words are not empty and contain no terminator, newline or space. -/
  plain : ∀ w ∈ name :: args, w ≠ [] ∧ 0 ∉ w ∧ 10 ∉ w ∧ 32 ∉ w
  /-- The command is for the server. -/
  remote : name.head? ≠ some 64
  few : args.length + 1 ≤ 98
  /-- `Read_input` reads the line with its newline. -/
  fits : ([32].intercalate (name :: args)).length + 1 < maxCommandLenght

namespace CommandLine

/-- The words `w1`, .., `wn`. -/
def words (l : CommandLine) : List Bytes := l.name :: l.args

/-- The line without its newline. -/
def text (l : CommandLine) : Bytes := [32].intercalate l.words

/-- The words of the datagram.  The format `"@# %s %s"` has a space after the
command also when there is nothing to follow. -/
def sentWords (l : CommandLine) : List Bytes :=
  l.name :: if l.args = [] then [[]] else l.args

end CommandLine

/-- `Read_input`, `Do_task` and `Command_exec`, then `Parser` and `Do_usual` on
the string sent, in an array of `n` bytes.  There is no call of `execvp` when
another function is called on the way. -/
def typed (n : Nat) (data : Connection) (answer : Arrival) (stdin : Bytes) :
    Except Fault (Option Exec) := do
  let (enter, _) ← Client.readInput stdin
  match ← Client.doTask enter with
  | .commandExec enter => do
      let exchange ← Client.commandExec data enter answer
      match exchange.sent with
      | [sent] => do
          let message ← (Buf.zero n).sprintf sent.data
          match ← Server.parser message with
          | .doUsual args => (Server.doUsual args).map some
          | _ => pure none
      | _ => pure none
  | _ => pure none

namespace CommandLine

variable (l : CommandLine)

/-- The datagram has the words in it, joined by the format. -/
theorem intercalate_sentWords :
    [32].intercalate l.sentWords = l.name ++ 32 :: [32].intercalate l.args := by
  cases hargs : l.args with
  | nil => simp [sentWords, hargs]
  | cons w ws => simp [sentWords, hargs]

theorem sentWords_eq_iff : l.sentWords = l.words ↔ l.args ≠ [] := by
  rw [sentWords, words]
  constructor
  · intro h hargs
    rw [if_pos hargs, hargs] at h
    cases h
  · intro hargs
    rw [if_neg hargs]

theorem notMem_sentWords : ∀ w ∈ l.sentWords, 0 ∉ w ∧ 32 ∉ w := by
  have hplain : ∀ w ∈ l.name :: l.args, 0 ∉ w ∧ 32 ∉ w := fun w hw =>
    ⟨(l.plain w hw).2.1, (l.plain w hw).2.2.2⟩
  obtain ⟨hname, hargs⟩ := List.forall_mem_cons.mp hplain
  rw [sentWords]
  refine List.forall_mem_cons.mpr ⟨hname, ?_⟩
  by_cases h : l.args = []
  · rw [if_pos h]
    simp
  · rw [if_neg h]
    exact hargs

/-- The words of the datagram are at most one byte longer than the line. -/
theorem length_sentWords_le : ([32].intercalate l.sentWords).length ≤ l.text.length + 1 := by
  rw [intercalate_sentWords, text, words]
  cases l.args with
  | nil => simp
  | cons w ws => simp

theorem length_sentWords_lt : ([32].intercalate l.sentWords).length < maxCommandLenght :=
  l.length_sentWords_le.trans_lt l.fits

/-- `Read_input` cuts the line behind the first word. -/
theorem readInput_eq (rest : Bytes) :
    ∃ enter, Client.readInput (l.text ++ 10 :: rest) = .ok (enter, rest) ∧
      enter.cmd.cstring 0 = .ok l.name ∧ enter.arg.cstring 0 = .ok ([32].intercalate l.args) := by
  have hlen := l.fits
  have hplain : ∀ w ∈ l.name :: l.args, ∀ b ∈ [0, 10, 32], b ∉ w := by
    intro w hw
    obtain ⟨-, h0, h10, h32⟩ := l.plain w hw
    simp [h0, h10, h32]
  obtain ⟨hname, hargs⟩ := List.forall_mem_cons.mp hplain
  have hzero : ∀ b ∈ [0, 10], b ∉ [32].intercalate l.args := by
    have harg : ∀ b ∈ [0, 10, 32], ∀ w ∈ l.args, b ∉ w := fun b hb w hw => hargs w hw b hb
    simp only [List.forall_mem_cons]
    exact ⟨notMem_intercalate (by decide) (harg 0 (by simp)),
      notMem_intercalate (by decide) (harg 10 (by simp)), by simp⟩
  rw [text, words]
  cases hl : l.args with
  | nil =>
      rw [hl, List.intercalate_singleton] at hlen
      rw [List.intercalate_singleton]
      exact ⟨_, Client.readInput_of_no_space hname rest hlen,
        Buf.cstring_ofBytes (hname 0 (by simp)) (by omega), Buf.cstring_ofBytes (s := []) (by simp)
          (by decide)⟩
  | cons w ws =>
      rw [hl] at hzero
      rw [hl, intercalate_cons] at hlen
      rw [intercalate_cons]
      have hsum : l.name.length + ([32].intercalate (w :: ws)).length + 2 < maxCommandLenght := by
        simp only [List.length_append, List.length_cons] at hlen
        omega
      exact ⟨_, Client.readInput_of_space hname hzero rest hlen,
        Buf.cstring_ofBytes (hname 0 (by simp)) (by omega),
        Buf.cstring_ofBytes (hzero 0 (by simp)) (by omega)⟩

/-- `Command_exec` sends the words behind `"@# "`. -/
theorem commandExec_eq {enter : Input} (data : Connection) (answer : Arrival)
    (hcmd : enter.cmd.cstring 0 = .ok l.name)
    (harg : enter.arg.cstring 0 = .ok ([32].intercalate l.args)) :
    ∃ printed, Client.commandExec data enter answer = .ok
      ⟨[.sendto data.sockFd (ascii "@# " ++ [32].intercalate l.sentWords) data.admin],
        printed⟩ := by
  have hmax : maxCommandLenght = 65536 := rfl
  have hlen := l.length_sentWords_lt
  rw [intercalate_sentWords] at hlen ⊢
  exact ⟨_, Client.commandExec_eq data answer hcmd harg (by omega)⟩

/-- `Parser` passes the words on to `Do_usual`, which splits them. -/
theorem parser_eq {n : Nat} (h : (ascii "@# " ++ [32].intercalate l.sentWords).length < n) :
    ∃ args, Server.parser (Buf.ofBytes (ascii "@# " ++ [32].intercalate l.sentWords) h.le)
        = .ok (.doUsual args) ∧
      Server.doUsual args = .ok ⟨l.name, l.sentWords⟩ := by
  have hlen := l.length_sentWords_lt
  have h0 : 0 ∉ [32].intercalate l.sentWords :=
    notMem_intercalate (by decide) fun w hw => (l.notMem_sentWords w hw).1
  obtain ⟨zeros, hmessage⟩ := Buf.bytes_ofBytes h
  obtain ⟨zeros', hargs⟩ := Buf.bytes_ofBytes hlen
  have hsplit := hmessage.trans (List.append_assoc (ascii "@#" ++ [32]) _ _)
  rw [List.append_assoc, List.singleton_append] at hsplit
  have hparse := Server.parser_of_space (by decide) (by decide) h0 (by decide) hlen hsplit
  have hcount : (if l.args = [] then [[]] else l.args).length + 1 < maxUserCount := by
    split
    · decide
    · exact Nat.lt_of_le_of_lt l.few (by decide)
  obtain ⟨hne, -⟩ := l.plain l.name (List.mem_cons_self ..)
  exact ⟨_, hparse, Server.doUsual_eq hne l.notMem_sentWords hcount hargs⟩

/-- `execvp` is called with the words of the datagram. -/
theorem typed_eq {n : Nat} (data : Connection) (answer : Arrival) (rest : Bytes)
    (hn : l.text.length + 5 ≤ n) :
    typed n data answer (l.text ++ 10 :: rest) = .ok (some ⟨l.name, l.sentWords⟩) := by
  obtain ⟨hne, -⟩ := l.plain l.name (List.mem_cons_self ..)
  obtain ⟨enter, hread, hcmd, harg⟩ := l.readInput_eq rest
  obtain ⟨printed, hexec⟩ := l.commandExec_eq data answer hcmd harg
  have hfits : (ascii "@# " ++ [32].intercalate l.sentWords).length < n := by
    have hlen := l.length_sentWords_le
    rw [List.length_append]
    show 3 + _ < n
    omega
  obtain ⟨args, hparse, husual⟩ := l.parser_eq hfits
  rw [typed, hread, ok_bind]
  show (Client.doTask enter >>= _) = _
  rw [Client.doTask_of_remote hcmd hne l.remote, ok_bind]
  show (Client.commandExec data enter answer >>= _) = _
  rw [hexec, ok_bind]
  show ((Buf.zero n).sprintf (ascii "@# " ++ [32].intercalate l.sentWords) >>= _) = _
  rw [Buf.sprintf_zero hfits, ok_bind, hparse, ok_bind]
  show (Server.doUsual args).map some = _
  rw [husual]
  rfl

end CommandLine

/-- The words arrive as they were typed exactly when there is more than one. -/
theorem typed_words_iff (l : CommandLine) {n : Nat} (data : Connection) (answer : Arrival)
    (rest : Bytes) (hn : l.text.length + 5 ≤ n) :
    typed n data answer (l.text ++ 10 :: rest) = .ok (some ⟨l.name, l.words⟩) ↔ l.args ≠ [] := by
  rw [l.typed_eq data answer rest hn, ← l.sentWords_eq_iff]
  constructor
  · intro h
    injection h with h
    injection h with h
    injection h
  · intro h
    rw [h]

/-- A command with one argument. -/
theorem typed_words_iff_ls :
    typed 64 ⟨⟨0, 0, 0⟩, ⟨0, 0, 0⟩, 3, 4, .zero _, .zero _⟩ none (ascii "ls -l\n")
      = .ok (some ⟨ascii "ls", [ascii "ls", ascii "-l"]⟩) :=
  (typed_words_iff ⟨ascii "ls", [ascii "-l"], by decide, by decide, by decide, by decide⟩ _ none []
    (by decide)).mpr (List.cons_ne_nil _ _)

/-- A command without arguments arrives with an empty one. -/
theorem empty_argument_added :
    ¬ ∀ (l : CommandLine) (n : Nat) (data : Connection) (answer : Arrival) (rest : Bytes),
      l.text.length + 5 ≤ n →
        typed n data answer (l.text ++ 10 :: rest) = .ok (some ⟨l.name, l.words⟩) := by
  intro hclaim
  have h := hclaim ⟨ascii "ls", [], by decide, by decide, by decide, by decide⟩ 64
    ⟨⟨0, 0, 0⟩, ⟨0, 0, 0⟩, 3, 4, .zero _, .zero _⟩ none [] (by decide)
  rw [CommandLine.typed_eq _ _ none [] (by decide)] at h
  injection h with h
  injection h with h
  injection h with _ h
  exact (CommandLine.sentWords_eq_iff _).mp h rfl

end ServerSsh

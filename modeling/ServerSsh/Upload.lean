import ServerSsh.CommandExecution
import ServerSsh.Commands
import ServerSsh.Posix.Datagrams
import Mathlib.Logic.Function.Basic

/-!
# Uploading a file

`Command_copy_to` sends three datagrams: the command with the target path, the
size of the file, and its contents.  On the server `Parser` is called on the
first datagram that arrives, and `Copy_to` opens and truncates the target before
it waits for the other two.  Neither program looks at what its system calls
return.

The client sends `st_size` bytes of an array that it has passed to one `read`.  They
are the bytes of the file only when the size is the length of the file and the `read`
returns all of it.

An `Upload` is everything that decides how this ends: the paths, the source, the
network and the files of the server.
-/

namespace ServerSsh

open Libc Posix

/-! ## The client -/

/-- What `fstat` and `read` say of an open file. -/
structure Source where
  /-- The bytes of the file. -/
  contents : Bytes
  stSize : Nat
  /-- What the `read` of `st_size` bytes stores, nothing when it fails. -/
  got : Bytes
  got_isPrefix : got <+: contents
  fits : got.length ≤ stSize
  /-- `st_size` is an `off_t`. -/
  stSize_lt : stSize < 2 ^ 63

/-- After a failing `open` the calls of `fstat` and `read` fail, and the size stays the 0
of `calloc`. -/
def Source.failed : Source := ⟨[], 0, [], List.prefix_rfl, Nat.le_refl 0, by decide⟩

/-- `text`, `st_size` bytes of `calloc` with what has been read at the start. -/
def Source.text (f : Source) : Bytes := f.got ++ List.replicate (f.stSize - f.got.length) 0

@[simp] theorem Source.length_text (f : Source) : f.text.length = f.stSize := by
  have hfits := f.fits
  rw [text, List.length_append, List.length_replicate]
  omega

/-- Of a file that is read whole the array has the bytes. -/
theorem Source.text_eq {f : Source} (hsize : f.stSize = f.contents.length)
    (hgot : f.got = f.contents) : f.text = f.contents := by
  rw [text, hsize, hgot, Nat.sub_self, List.replicate_zero, List.append_nil]

/-- `Command_copy_to`, where `source` gives the paths that can be opened for
reading. -/
def Client.commandCopyTo (data : Connection) (source : Bytes → Option Source)
    (message : MessageBuf) (answer : Arrival) : Except Fault Exchange := do
  let space ← message.strchr 0 32
  let space ← deref space
  let message ← message.set space 0
  let pathFrom ← message.cstring 0
  let pathTo ← message.cstring (space + 1)
  let fdFrom := (source pathFrom).getD .failed
  let firstSend ← (Buf.zero maxCommandLenght).sprintf (ascii "@Copy_to " ++ pathTo)
  let size ← (Buf.zero maxCommandLenght).sprintf (decimal fdFrom.stSize)
  let firstLen ← firstSend.strlen
  let firstText ← firstSend.load firstLen
  let sizeLen ← size.strlen
  let sizeText ← size.load sizeLen
  pure
    { sent := [firstText, sizeText, fdFrom.text].map fun d => .sendto data.sockFd d data.admin
      printed := (Client.adminMessage answer).map fun s =>
        ascii "\nSIZE " ++ decimal fdFrom.stSize ++ [10] ++ (s ++ [10]) }

theorem Source.length_decimal_le (f : Source) : (decimal f.stSize).length ≤ maxDatagram :=
  ((decimal_length_le_iff (by decide)).mpr
    (f.stSize_lt.trans (by decide : 2 ^ 63 < 10 ^ 19))).trans (by decide)

theorem Client.commandCopyTo_eq {message : MessageBuf} {pathFrom pathTo rest : Bytes}
    (data : Connection) (source : Bytes → Option Source) (answer : Arrival)
    (hfrom : 0 ∉ pathFrom ∧ 32 ∉ pathFrom) (hto : 0 ∉ pathTo)
    (hlen : (ascii "@Copy_to " ++ pathTo).length < maxCommandLenght)
    (h : message.bytes = pathFrom ++ 32 :: (pathTo ++ 0 :: rest)) :
    (commandCopyTo data source message answer).map Exchange.sent = .ok
      ([ascii "@Copy_to " ++ pathTo, decimal ((source pathFrom).getD .failed).stSize,
        ((source pathFrom).getD .failed).text].map fun d => .sendto data.sockFd d data.admin) := by
  have hchr : message.strchr 0 32 = .ok (some (0 + pathFrom.length)) :=
    Buf.From.strchr (i := 0) hfrom.1 hfrom.2 h
  rw [Nat.zero_add] at hchr
  obtain ⟨message', hset, hbytes⟩ := Buf.set_of_bytes 0 h
  have hfst : message'.cstring 0 = .ok pathFrom := Buf.From.cstring (i := 0) hfrom.1 hbytes
  have hsnd : message'.cstring (pathFrom.length + 1) = .ok pathTo :=
    Buf.From.cstring hto (by simpa using Buf.From.skip_cons (i := 0) hbytes)
  have hdec : (decimal ((source pathFrom).getD .failed).stSize).length < maxCommandLenght :=
    (Source.length_decimal_le _).trans_lt (by decide)
  have h0 : 0 ∉ ascii "@Copy_to " ++ pathTo := by
    have hfmt : 0 ∉ ascii "@Copy_to " := by decide
    simp [hfmt, hto]
  obtain ⟨hlen1, hload1⟩ := Buf.strlen_load_ofBytes h0 hlen
  obtain ⟨hlen2, hload2⟩ := Buf.strlen_load_ofBytes (notMem_decimal rfl _) hdec
  rw [commandCopyTo, hchr, ok_bind, deref, ok_bind, hset, ok_bind, hfst, ok_bind, hsnd, ok_bind]
  dsimp only
  rw [Buf.sprintf_zero hlen, ok_bind, Buf.sprintf_zero hdec, ok_bind, hlen1, ok_bind, hload1,
    ok_bind, hlen2, ok_bind, hload2, ok_bind]
  rfl

/-! ## The server -/

/-- The system calls of the server.  `ι` is the type of files, of which several
paths may name one. -/
structure Host (ι : Type) where
  /-- The file that a path names. -/
  file : Bytes → ι
  /-- `open` of the path for writing succeeds. -/
  opens : Bytes → Bool
  /-- The number of bytes that a `write` can store, 0 when it fails. -/
  room : Nat
  /-- The number of bytes that a pipe holds. -/
  capacity : Nat
  /-- What the child of `Do_usual` does to the files, and what it has written to the pipe
  when it has ended.  It may not end: a program that runs on or that fills the pipe, or a
  child that goes on with the session when there is no such program. -/
  exec : Exec → (ι → Option Bytes) → (ι → Option Bytes) × Option Bytes
  exec_fits : ∀ e files, ∀ output ∈ (exec e files).2, output.length ≤ capacity

/-- The state of the server.  A file that does not exist has no contents. -/
structure Server.State (ι : Type) where
  files : ι → Option Bytes
  /-- The datagrams that have arrived. -/
  inbox : List Bytes
  /-- The answers sent. -/
  answers : List Bytes

/-- How far a function has come. -/
inductive Ending where
  | returned (ret : Int)
  /-- The end of `Copy_from`, which has no return statement. -/
  | fellOff
  | waiting
  | fault (f : Fault)
deriving DecidableEq

section Server

variable {ι : Type} [DecidableEq ι]

/-- `open` with `O_CREAT | O_TRUNC | O_RDWR`. -/
def Host.openTrunc (host : Host ι) (path : Bytes) (files : ι → Option Bytes) :
    Option ι × (ι → Option Bytes) :=
  if host.opens path then
    (some (host.file path), Function.update files (host.file path) (some []))
  else (none, files)

/-- `write` to a file that has just been truncated. -/
def Host.write (host : Host ι) (fd : Option ι) (text : Bytes) (files : ι → Option Bytes) :
    ι → Option Bytes :=
  match fd with
  | some i => Function.update files i (some (text.take host.room))
  | none => files

/-- The `size` bytes that `Copy_to` writes.  For a negative size `calloc` returns
null and neither the `recvfrom` nor the `write` transfers anything. -/
def Server.text (size : Int) (d : Bytes) : Bytes :=
  if size < 0 then [] else (recvfrom size.toNat d).bytes

/-- `Copy_to`. -/
def Server.copyTo (host : Host ι) (message : MessageBuf) (s : State ι) : State ι × Ending :=
  match message.cstring 0 with
  | .error f => (s, .fault f)
  | .ok path =>
      let (fdFile, files) := host.openTrunc path s.files
      match s.inbox with
      | [] => ({ s with files }, .waiting)
      | d :: inbox =>
          match (recvfrom maxCommandLenght d).cstring 0 with
          | .error f => ({ s with files, inbox }, .fault f)
          | .ok sizeStr =>
              match inbox with
              | [] => ({ s with files, inbox }, .waiting)
              | d :: inbox =>
                  ({ files := host.write fdFile (text (atoi sizeStr) d) files
                     inbox
                     answers := s.answers ++ [ascii "@Success"] }, .returned 1)

/-- `Do_usual` from its `fork` on, in the parent.  It waits for the child, reads the pipe
once and answers what it has read, if that can be sent. -/
def Server.execute (host : Host ι) (e : Exec) (s : State ι) : State ι × Ending :=
  let (files, output) := host.exec e s.files
  match output with
  | none => ({ s with files }, .waiting)
  | some output =>
      ({ s with
          files
          answers := s.answers
            ++ (CommandExecution.sendto (output.take maxOutputLenght)).toList }, .returned 1)

/-- The end of `Parser`. -/
def Server.call (host : Host ι) (s : State ι) : Handler → State ι × Ending
  | .disconnected => (s, .returned 0)
  | .failed => (s, .returned (-1))
  | .copyFrom _ => (s, .fellOff)
  | .copyTo args => copyTo host args s
  | .doUsual args =>
      match doUsual args with
      | .error f => (s, .fault f)
      | .ok e => execute host e s

/-- `Parser` on the next datagram. -/
def Server.serve (host : Host ι) (s : State ι) : State ι × Ending :=
  match s.inbox with
  | [] => (s, .waiting)
  | d :: inbox =>
      match parser (recvfrom maxCommandLenght d) with
      | .error f => ({ s with inbox }, .fault f)
      | .ok handler => call host { s with inbox } handler

/-! ## One file -/

variable {host : Host ι} {files : ι → Option Bytes}

theorem Host.openTrunc_apply (path : Bytes) (i : ι) :
    (host.openTrunc path files).2 i
      = if host.opens path ∧ host.file path = i then some [] else files i := by
  rw [openTrunc]
  by_cases ho : host.opens path
  · by_cases hi : host.file path = i
    · simp [ho, hi]
    · simp [ho, hi, Function.update_of_ne (Ne.symm hi)]
  · simp [ho]

theorem Host.write_apply (path : Bytes) (text : Bytes) (i : ι) :
    host.write (host.openTrunc path files).1 text (host.openTrunc path files).2 i
      = if host.opens path ∧ host.file path = i then some (text.take host.room) else files i := by
  rw [openTrunc]
  by_cases ho : host.opens path
  · by_cases hi : host.file path = i
    · simp [ho, hi, write]
    · simp [ho, hi, write, Function.update_of_ne (Ne.symm hi)]
  · simp [ho, write]

/-- What is written of a received text. -/
theorem Server.take_text (size : Int) (d : Bytes) (k : Nat) :
    (text size d).take k = (recvfrom (min size.toNat k) d).bytes := by
  rw [text]
  split
  · have hsize : size.toNat = 0 := by omega
    rw [hsize, Nat.zero_min, List.take_nil]
    exact (List.eq_nil_of_length_eq_zero (recvfrom 0 d).size).symm
  · exact take_recvfrom size.toNat k d

/-! ## The datagrams of the server -/

theorem cstring_recvfrom {d : Bytes} (h : d.length ≤ maxDatagram) :
    (recvfrom maxCommandLenght d).cstring 0 = .ok (cut d) :=
  Buf.cstring_zero_eq_ok.mpr (cut_recvfrom (h.trans_lt (by decide)))

/-- `Copy_to` waits with the file already truncated. -/
theorem Server.copyTo_waiting {message : MessageBuf} {path : Bytes} {s : State ι}
    (hpath : message.cstring 0 = .ok path) (hinbox : s.inbox.length < 2)
    (hd : ∀ d ∈ s.inbox, d.length ≤ maxDatagram) :
    copyTo host message s
      = ({ s with files := (host.openTrunc path s.files).2, inbox := [] }, .waiting) := by
  obtain ⟨files, inbox, answers⟩ := s
  rw [copyTo, hpath]
  match inbox, hinbox, hd with
  | [], _, _ => rfl
  | [d], _, hd => simp [cstring_recvfrom (hd d (List.mem_singleton_self d))]

/-- With both datagrams `Copy_to` writes and answers. -/
theorem Server.copyTo_done {message : MessageBuf} {path size d : Bytes} {inbox : List Bytes}
    {answers : List Bytes} (hpath : message.cstring 0 = .ok path)
    (hsize : size.length ≤ maxDatagram) :
    copyTo host message ⟨files, size :: d :: inbox, answers⟩
      = ({ files := host.write (host.openTrunc path files).1 (text (atoi (cut size)) d)
             (host.openTrunc path files).2
           inbox
           answers := answers ++ [ascii "@Success"] }, .returned 1) := by
  rw [copyTo, hpath]
  simp [cstring_recvfrom hsize]

variable {d : Bytes} {inbox answers : List Bytes}

theorem Server.serve_ok {handler : Handler}
    (h : parser (recvfrom maxCommandLenght d) = .ok handler) :
    serve host ⟨files, d :: inbox, answers⟩ = call host ⟨files, inbox, answers⟩ handler := by
  simp only [serve, h]

theorem Server.serve_error {f : Fault} (h : parser (recvfrom maxCommandLenght d) = .error f) :
    serve host ⟨files, d :: inbox, answers⟩ = (⟨files, inbox, answers⟩, .fault f) := by
  simp only [serve, h]

/-- A datagram with a command, a space and the arguments. -/
theorem Server.serve_command (host : Host ι) (files : ι → Option Bytes) (inbox answers : List Bytes)
    (cmd args : Bytes) (hd : d.length ≤ maxDatagram) (hcmd : 32 ∉ cmd)
    (h : cut d = cmd ++ 32 :: args) :
    ∃ ha : args.length ≤ maxCommandLenght,
      (Buf.ofBytes args ha : MessageBuf).cstring 0 = .ok args ∧
        serve host ⟨files, d :: inbox, answers⟩
          = call host ⟨files, inbox, answers⟩ (handlerOf cmd (Buf.ofBytes args ha)) := by
  have hlt : d.length < maxCommandLenght := hd.trans_lt (by decide)
  obtain ⟨h0, hcut⟩ := cut_recvfrom hlt
  have hlen := (cut_length_le d).trans_lt hlt
  obtain ⟨ha, hparse⟩ := parser_of_cut h0 (hcut ▸ hlen) hcmd (hcut.trans h)
  have hargs : 0 ∉ args := by
    have hzero := zero_notMem_cut d
    rw [h] at hzero
    simp only [List.mem_append, List.mem_cons, not_or] at hzero
    exact hzero.2.2
  have hlt' : args.length < maxCommandLenght := by
    rw [h, List.length_append, List.length_cons] at hlen
    omega
  exact ⟨ha, Buf.cstring_ofBytes hargs hlt', serve_ok hparse⟩

/-- A message that is no command for `Copy_to` or `Do_usual` changes nothing. -/
theorem Server.serve_quiet (hd : d.length ≤ maxDatagram)
    (hcopy : ∀ path, cut d ≠ ascii "@Copy_to " ++ path) (hexec : ∀ r, cut d ≠ ascii "@# " ++ r) :
    (serve host ⟨files, d :: inbox, answers⟩).1 = ⟨files, inbox, answers⟩ := by
  by_cases hspace : 32 ∈ cut d
  · obtain ⟨cmd, args, hsplit, hcmd⟩ := List.eq_append_cons_of_mem hspace
    have hne1 : cmd ≠ ascii "@Copy_to" := by
      rintro rfl
      exact hcopy args hsplit
    have hne2 : cmd ≠ ascii "@#" := by
      rintro rfl
      exact hexec args hsplit
    obtain ⟨ha, -, hserve⟩ := serve_command host files inbox answers cmd args hd hcmd hsplit
    rw [hserve, handlerOf, if_neg hne1, if_neg hne2]
    split
    · rfl
    split
    · rfl
    split <;> rfl
  · obtain ⟨h0, hcut⟩ := cut_recvfrom (n := maxCommandLenght) (hd.trans_lt (by decide))
    have hparse := parser_of_no_space h0 (hcut ▸ hspace)
    split at hparse
    · rw [serve_ok hparse]
      rfl
    · rw [serve_error hparse]

end Server

/-! ## The transfer -/

/-- An upload and what becomes of its system calls and datagrams. -/
structure Upload (ι : Type) where
  pathFrom : Bytes
  pathTo : Bytes
  /-- The argument of `Command_copy_to` is cut at its first space. -/
  plainFrom : 0 ∉ pathFrom ∧ 32 ∉ pathFrom
  plainTo : 0 ∉ pathTo
  fits : (pathFrom ++ 32 :: pathTo).length < maxCommandLenght
  data : Connection
  answer : Arrival
  /-- The files of the client that can be opened. -/
  source : Bytes → Option Source
  delivery : Delivery
  host : Host ι
  /-- The files of the server before the upload. -/
  files : ι → Option Bytes

namespace Upload

variable {ι : Type} (u : Upload ι)

/-- The argument of `Command_copy_to`. -/
def argument : MessageBuf := Buf.ofBytes (u.pathFrom ++ 32 :: u.pathTo) u.fits.le

/-- The bytes of the source file, if it can be opened. -/
def contents : Option Bytes := (u.source u.pathFrom).map Source.contents

/-- The source as the client sees it. -/
def opened : Source := (u.source u.pathFrom).getD .failed

def target : ι := u.host.file u.pathTo

/-- The datagrams of `Command_copy_to`. -/
def sent : List Bytes :=
  match Client.commandCopyTo u.data u.source u.argument u.answer with
  | .ok exchange => sendable (exchange.sent.map Output.data)
  | .error _ => []

def arrivals : List Bytes := u.delivery.deliver u.sent

/-- The server after the upload, or where it waits for ever. -/
def final [DecidableEq ι] : Server.State ι := (Server.serve u.host ⟨u.files, u.arrivals, []⟩).1

/-- The target holds the bytes of the source. -/
def Stored (s : Server.State ι) : Prop := ∃ c, u.contents = some c ∧ s.files u.target = some c

/-- The target is as it was or holds the bytes of the source, and success is
answered only in the second case. -/
structure AllOrNothing (s : Server.State ι) : Prop where
  target : s.files u.target = u.files u.target ∨ u.Stored s
  answer : ascii "@Success" ∈ s.answers → u.Stored s

/-! ## The datagrams of an upload -/

/-- The size that `Copy_to` reads. -/
theorem atoi_cut_decimal {k : Nat} (h : k < 2 ^ 31) : atoi (cut (decimal k)) = k := by
  have hatoi := atoi_decimal h noDigit_nil
  rwa [List.append_nil, ← cut_eq_self (notMem_decimal rfl _)] at hatoi

theorem sent_eq (hto : (ascii "@Copy_to " ++ u.pathTo).length ≤ maxDatagram)
    (hlen : u.opened.stSize ≤ maxDatagram) :
    u.sent = [ascii "@Copy_to " ++ u.pathTo, decimal u.opened.stSize, u.opened.text] := by
  obtain ⟨rest, hbytes⟩ := Buf.bytes_ofBytes u.fits
  rw [List.append_assoc, List.cons_append] at hbytes
  obtain ⟨exchange, hok, hsent⟩ := map_eq_ok.mp <|
    Client.commandCopyTo_eq u.data u.source u.answer u.plainFrom u.plainTo
      (hto.trans_lt (by decide)) hbytes
  rw [← Source.length_text] at hlen
  rw [sent, argument, hok]
  show sendable (exchange.sent.map Output.data) = _
  rw [hsent]
  show sendable [ascii "@Copy_to " ++ u.pathTo, decimal u.opened.stSize, u.opened.text] = _
  rw [sendable_cons, if_pos hto, sendable_cons, if_pos u.opened.length_decimal_le, sendable_cons,
    if_pos hlen, sendable_nil]

theorem cut_command : cut (ascii "@Copy_to " ++ u.pathTo) = ascii "@Copy_to " ++ u.pathTo := by
  refine cut_eq_self ?_
  have hfmt : 0 ∉ ascii "@Copy_to " := by decide
  simp [hfmt, u.plainTo]

/-- No arrival is longer than a datagram. -/
theorem length_le_of_mem_arrivals {d : Bytes} (h : d ∈ u.arrivals) : d.length ≤ maxDatagram := by
  rw [arrivals, sent] at h
  split at h
  · exact Delivery.length_le h
  · simp [Delivery.deliver] at h

/-! ## When it is all or nothing -/

/-- `Copy_to` for this path truncates the target. -/
def Truncates (path : Bytes) : Prop := u.host.opens path ∧ u.host.file path = u.target

/-- What arrives after the command makes a `Copy_to` of `path` harmless.  A
datagram for the text is filled up with zeros. -/
def CopyHarmless (path : Bytes) : List Bytes → Prop
  | size :: text :: _ =>
      ∃ c, u.contents = some c ∧
        (u.Truncates path → min (atoi (cut size)).toNat u.host.room = c.length ∧
          (recvfrom c.length text).bytes = c) ∧
        (¬ u.Truncates path → u.files u.target = some c)
  | _ => u.Truncates path → u.files u.target = some [] ∨ u.contents = some []

/-- What becomes of the command is harmless. -/
def ExecHarmless (command : Bytes) : Prop :=
  ∀ h : command.length ≤ maxCommandLenght, ∀ e, Server.doUsual (Buf.ofBytes command h) = .ok e →
    u.AllOrNothing (Server.execute u.host e ⟨u.files, [], []⟩).1

/-- The datagram that arrives first is no command, or it is harmless with what
arrives behind it. -/
def Harmless : List Bytes → Prop
  | [] => True
  | d :: inbox =>
      (∀ path, cut d = ascii "@Copy_to " ++ path → u.CopyHarmless path inbox) ∧
        ∀ command, cut d = ascii "@# " ++ command → u.ExecHarmless command

variable {u} {s : Server.State ι}

theorem allOrNothing_of_unchanged (hfiles : s.files u.target = u.files u.target)
    (hanswers : s.answers = []) : u.AllOrNothing s :=
  ⟨Or.inl hfiles, fun h => absurd h (by simp [hanswers])⟩

theorem AllOrNothing.congr {s' : Server.State ι} (h : u.AllOrNothing s)
    (hfiles : s.files = s'.files) (hanswers : s.answers = s'.answers) : u.AllOrNothing s' := by
  obtain ⟨htarget, hanswer⟩ := h
  rw [Stored, hfiles] at htarget hanswer
  rw [hanswers] at hanswer
  exact ⟨htarget, hanswer⟩

/-- Once success is answered there is only the second case. -/
theorem allOrNothing_iff_of_success (h : ascii "@Success" ∈ s.answers) :
    u.AllOrNothing s ↔ u.Stored s :=
  ⟨fun hs => hs.answer h, fun hs => ⟨Or.inr hs, fun _ => hs⟩⟩

/-- Without an answer the target is as it was, unless it has been truncated. -/
theorem allOrNothing_iff_of_waiting {path : Bytes}
    (hfiles : (u.Truncates path → s.files u.target = some []) ∧
      (¬ u.Truncates path → s.files u.target = u.files u.target)) (hanswers : s.answers = []) :
    u.AllOrNothing s ↔ (u.Truncates path → u.files u.target = some [] ∨ u.contents = some []) := by
  constructor
  · intro h htrunc
    rcases h.target with htarget | ⟨c, hc, htarget⟩
    · exact Or.inl (htarget.symm.trans (hfiles.1 htrunc))
    · refine Or.inr (hc.trans ?_)
      rw [← htarget, hfiles.1 htrunc]
  · intro h
    by_cases htrunc : u.Truncates path
    · refine ⟨?_, fun hs => absurd hs (by simp [hanswers])⟩
      rw [hfiles.1 htrunc]
      rcases h htrunc with hold | hnew
      · exact Or.inl hold.symm
      · exact Or.inr ⟨[], hnew, hfiles.1 htrunc⟩
    · exact allOrNothing_of_unchanged (hfiles.2 htrunc) hanswers

/-- The datagrams that wait do not matter for a command. -/
theorem execute_inbox (host : Host ι) (e : Exec) (files : ι → Option Bytes) (inbox : List Bytes) :
    (Server.execute host e ⟨files, inbox, []⟩).1.files
        = (Server.execute host e ⟨files, [], []⟩).1.files ∧
      (Server.execute host e ⟨files, inbox, []⟩).1.answers
        = (Server.execute host e ⟨files, [], []⟩).1.answers := by
  simp only [Server.execute]
  split
  · exact ⟨rfl, rfl⟩
  · exact ⟨rfl, rfl⟩

variable [DecidableEq ι] {path : Bytes}

theorem openTrunc_target :
    (u.Truncates path → (u.host.openTrunc path u.files).2 u.target = some []) ∧
      (¬ u.Truncates path → (u.host.openTrunc path u.files).2 u.target = u.files u.target) := by
  rw [Host.openTrunc_apply]
  exact ⟨fun h => if_pos h, fun h => if_neg h⟩

theorem write_target {text : Bytes} :
    (u.Truncates path → u.host.write (u.host.openTrunc path u.files).1 text
        (u.host.openTrunc path u.files).2 u.target = some (text.take u.host.room)) ∧
      (¬ u.Truncates path → u.host.write (u.host.openTrunc path u.files).1 text
        (u.host.openTrunc path u.files).2 u.target = u.files u.target) := by
  rw [Host.write_apply]
  exact ⟨fun h => if_pos h, fun h => if_neg h⟩

theorem copyTo_iff {message : MessageBuf} {inbox : List Bytes}
    (hpath : message.cstring 0 = .ok path) (hinbox : ∀ d ∈ inbox, d.length ≤ maxDatagram) :
    u.AllOrNothing (Server.copyTo u.host message ⟨u.files, inbox, []⟩).1
      ↔ u.CopyHarmless path inbox := by
  match inbox, hinbox with
  | [], hinbox =>
      rw [Server.copyTo_waiting hpath (by simp) hinbox]
      exact allOrNothing_iff_of_waiting openTrunc_target rfl
  | [d], hinbox =>
      rw [Server.copyTo_waiting hpath (by simp) hinbox]
      exact allOrNothing_iff_of_waiting openTrunc_target rfl
  | size :: text :: inbox, hinbox =>
      rw [Server.copyTo_done hpath (hinbox size (List.mem_cons_self ..)),
        allOrNothing_iff_of_success (List.mem_append_right _ (List.mem_singleton_self _))]
      refine exists_congr fun c => and_congr_right fun _ => ?_
      show u.host.write _ _ _ u.target = some c ↔ _
      by_cases htrunc : u.Truncates path
      · rw [write_target.1 htrunc, Server.take_text, Option.some.injEq, recvfrom_eq_iff]
        exact ⟨fun h => ⟨fun _ => h, fun hn => absurd htrunc hn⟩, fun h => h.1 htrunc⟩
      · rw [write_target.2 htrunc]
        exact ⟨fun h => ⟨fun ht => absurd ht htrunc, fun _ => h⟩, fun h => h.2 htrunc⟩

theorem exec_iff {command : Bytes} {inbox : List Bytes} (h : command.length ≤ maxCommandLenght) :
    u.AllOrNothing (Server.call u.host ⟨u.files, inbox, []⟩ (.doUsual (Buf.ofBytes command h))).1
      ↔ u.ExecHarmless command := by
  cases he : Server.doUsual (Buf.ofBytes command h) with
  | error f =>
      simp only [Server.call, he]
      refine iff_of_true (allOrNothing_of_unchanged rfl rfl) fun _ e he' => ?_
      rw [he] at he'
      cases he'
  | ok e =>
      simp only [Server.call, he]
      obtain ⟨hfiles, hanswers⟩ := execute_inbox u.host e u.files inbox
      constructor
      · intro hs _ e' he'
        rw [he] at he'
        cases he'
        exact hs.congr hfiles hanswers
      · intro hs
        exact (hs h e he).congr hfiles.symm hanswers.symm

/-- A datagram is not a command for both. -/
theorem copyTo_ne_exec (path command : Bytes) :
    ascii "@Copy_to " ++ path ≠ ascii "@# " ++ command := by
  intro h
  have h1 := congrArg (fun l => l[1]?) h
  revert h1
  show some (67 : UInt8) ≠ some 35
  decide

/-! ## Uploads of which everything arrives -/

/-- Of a source that is read whole the target gets the bytes. -/
theorem upload_complete {f : Source} (hf : u.source u.pathFrom = some f)
    (hsize : f.stSize = f.contents.length) (hgot : f.got = f.contents)
    (hlen : f.stSize ≤ maxDatagram) (hto : (ascii "@Copy_to " ++ u.pathTo).length ≤ maxDatagram)
    (harrive : u.arrivals = u.sent) (hopen : u.host.opens u.pathTo)
    (hroom : f.stSize ≤ u.host.room) :
    u.Stored u.final ∧ u.final.answers = [ascii "@Success"] := by
  have hopened : u.opened = f := by rw [opened, hf]; rfl
  have hsent := u.sent_eq hto (hopened ▸ hlen)
  rw [hopened, Source.text_eq hsize hgot] at hsent
  obtain ⟨ha, hstr, hserve⟩ := Server.serve_command u.host u.files
    [decimal f.stSize, f.contents] [] (ascii "@Copy_to") u.pathTo hto (by decide) u.cut_command
  have hfinal : u.final = (Server.copyTo u.host (Buf.ofBytes u.pathTo ha)
      ⟨u.files, [decimal f.stSize, f.contents], []⟩).1 := by
    rw [final, harrive, hsent]
    exact congrArg Prod.fst hserve
  have htrunc : u.Truncates u.pathTo := ⟨hopen, rfl⟩
  rw [hfinal, Server.copyTo_done hstr f.length_decimal_le]
  refine ⟨⟨f.contents, by rw [contents, hf]; rfl, (write_target.1 htrunc).trans ?_⟩, rfl⟩
  rw [atoi_cut_decimal (hlen.trans_lt (by decide)), Server.take_text, Int.toNat_natCast,
    Nat.min_eq_left hroom, recvfrom_of_le hsize.ge]
  simp [Buf.ofBytes, hsize]

end Upload

end ServerSsh

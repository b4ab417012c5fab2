import ServerSsh.CommandWords

/-!
# What `Parser` calls

The messages of the server are `@Disconnected` and a command, a space and its
argument.  `Dispatches` is that grammar, with the function that is called for
each message and `return -1` for every other one.

`Parser` looks for the space first, and goes on to write through the result when
there is none and the message is not `@Disconnected`.  So it follows the grammar
on the messages with a space, known and unknown, and on `@Disconnected`
(`dispatch_iff`).

The second part is about the array that `Do_usual` splits the argument of `@#`
into.  Its loop stores a word and the null pointer behind it for every space, so
the number of spaces decides whether the stores are inside (`argv_stores_iff`).
-/

namespace ServerSsh

open Libc

namespace Server

/-- The commands with an argument. -/
inductive Verb where
  | doUsual
  | copyTo
  | copyFrom
deriving DecidableEq, Repr

/-- The word of a command. -/
def Verb.name : Verb → Bytes
  | .doUsual => ascii "@#"
  | .copyTo => ascii "@Copy_to"
  | .copyFrom => ascii "@Copy_from"

/-- The call for a command. -/
def Verb.handler : Verb → MessageBuf → Handler
  | .doUsual => .doUsual
  | .copyTo => .copyTo
  | .copyFrom => .copyFrom

/-- What is to be called for a message. -/
inductive Dispatches (m : Bytes) : Handler → Prop where
  | disconnected : m = ascii "@Disconnected" → Dispatches m .disconnected
  | verb (v : Verb) {args : MessageBuf} {rest : Bytes} :
      m = v.name ++ 32 :: rest → args.cstring 0 = .ok rest → Dispatches m (v.handler args)
  | failed :
      m ≠ ascii "@Disconnected" → (∀ (v : Verb) (rest : Bytes), m ≠ v.name ++ 32 :: rest) →
      Dispatches m .failed

/-! ## The comparisons -/

theorem space_notMem_name (v : Verb) : 32 ∉ v.name := by
  cases v <;> decide

theorem handlerOf_name (v : Verb) (args : MessageBuf) : handlerOf v.name args = v.handler args := by
  cases v <;> rfl

theorem handlerOf_unknown {cmd : Bytes} (args : MessageBuf) (h : ∀ v : Verb, cmd ≠ v.name) :
    handlerOf cmd args = .failed := by
  have h1 : cmd ≠ ascii "@#" := h .doUsual
  have h2 : cmd ≠ ascii "@Copy_to" := h .copyTo
  have h3 : cmd ≠ ascii "@Copy_from" := h .copyFrom
  rw [handlerOf, if_neg h1, if_neg h2, if_neg h3, ite_self, ite_self]

/-- The argument that is passed on is the one that `Parser` has copied. -/
theorem args_of_handlerOf {cmd : Bytes} {args args' : MessageBuf}
    (h : handlerOf cmd args = .doUsual args') : args = args' := by
  by_cases hknown : ∃ v : Verb, cmd = v.name
  · obtain ⟨v, rfl⟩ := hknown
    rw [handlerOf_name] at h
    cases v with
    | doUsual => injection h
    | copyTo => cases h
    | copyFrom => cases h
  · rw [handlerOf_unknown args fun v hv => hknown ⟨v, hv⟩] at h
    cases h

/-- A message with a space is dispatched by the word before the first one. -/
theorem dispatches_of_space {cmd rest : Bytes} {args : MessageBuf} (hspace : 32 ∉ cmd)
    (hargs : args.cstring 0 = .ok rest) :
    Dispatches (cmd ++ 32 :: rest) (handlerOf cmd args) := by
  by_cases hknown : ∃ v : Verb, cmd = v.name
  · obtain ⟨v, rfl⟩ := hknown
    rw [handlerOf_name]
    exact .verb v rfl hargs
  · rw [handlerOf_unknown args fun v hv => hknown ⟨v, hv⟩]
    refine .failed ?_ ?_
    · intro h
      have hmem : 32 ∈ ascii "@Disconnected" := h ▸ List.mem_append_right _ (List.mem_cons_self ..)
      exact absurd hmem (by decide)
    · intro v rest' h
      exact hknown ⟨v, (append_cons_inj hspace (space_notMem_name v) h).1⟩

/-! ## The messages that are dispatched -/

/-- `Parser` calls what the grammar says, and returns -1 where it says nothing,
exactly when the message has a space or is `@Disconnected`. -/
theorem dispatch_iff {n : Nat} {message : Buf n} (h0 : 0 ∈ message.bytes)
    (hlen : (cut message.bytes).length < maxCommandLenght) :
    (∃ h, parser message = .ok h ∧ Dispatches (cut message.bytes) h) ↔
      32 ∈ cut message.bytes ∨ cut message.bytes = ascii "@Disconnected" := by
  by_cases hspace : 32 ∈ cut message.bytes
  · obtain ⟨cmd, rest, hcut, hcmd⟩ := List.eq_append_cons_of_mem hspace
    obtain ⟨hrest, hparse⟩ := parser_of_cut h0 hlen hcmd hcut
    refine iff_of_true ⟨_, hparse, ?_⟩ (Or.inl hspace)
    rw [hcut]
    refine dispatches_of_space hcmd ?_
    rw [hcut, List.length_append, List.length_cons] at hlen
    have hzero := zero_notMem_cut message.bytes
    rw [hcut, List.mem_append, List.mem_cons, not_or, not_or] at hzero
    exact Buf.cstring_ofBytes hzero.2.2 (by omega)
  · rw [parser_of_no_space h0 hspace]
    by_cases hdis : cut message.bytes = ascii "@Disconnected"
    · rw [if_pos hdis]
      exact iff_of_true ⟨_, rfl, .disconnected hdis⟩ (Or.inr hdis)
    · rw [if_neg hdis]
      refine iff_of_false ?_ ?_
      · rintro ⟨h, hh, -⟩
        cases hh
      · rintro (h | h)
        · exact hspace h
        · exact hdis h

/-- A program to run. -/
theorem dispatch_iff_ls :
    ∃ h, parser (Buf.ofBytes (ascii "@# ls") (show _ ≤ 16 by decide)) = .ok h ∧
      Dispatches (ascii "@# ls") h :=
  (dispatch_iff (by decide) (by decide)).mpr (Or.inl (by decide))

/-- A message without a space is no reason to return -1. -/
theorem dispatch_null :
    ¬ ∀ (n : Nat) (message : Buf n), 0 ∈ message.bytes →
      (cut message.bytes).length < maxCommandLenght →
        ∃ h, parser message = .ok h ∧ Dispatches (cut message.bytes) h := by
  intro hclaim
  let message : Buf 16 := Buf.ofBytes (ascii "hello") (by decide)
  obtain ⟨h, hh, -⟩ := hclaim 16 message (by decide) (by decide)
  rw [parser_of_no_space (by decide) (by decide), if_neg (by decide)] at hh
  cases hh

/-! ## The array of words -/

/-- A string with `k + 1` spaces, at the first one. -/
theorem exists_cut_at_space {s : Bytes} {k : Nat} (h0 : 0 ∈ s) (h : (cut s).count 32 = k + 1) :
    ∃ u v rest, s = u ++ 32 :: (v ++ 0 :: rest) ∧ 0 ∉ u ∧ 32 ∉ u ∧ 0 ∉ v ∧
      (cut (v ++ 0 :: rest)).count 32 = k := by
  have hmem : 32 ∈ cut s := List.count_pos_iff.mp (by omega)
  obtain ⟨u, v, hcut, hu⟩ := List.eq_append_cons_of_mem hmem
  obtain ⟨rest, hrest⟩ := exists_eq_cut_append h0
  have hzero := zero_notMem_cut s
  rw [hcut, List.mem_append, List.mem_cons, not_or, not_or] at hzero
  rw [hcut, List.append_assoc, List.cons_append] at hrest
  refine ⟨u, v, rest, hrest, hzero.1, hu, hzero.2.2, ?_⟩
  rw [hcut, List.count_append, List.count_eq_zero.mpr hu, List.count_cons_self] at h
  rw [cut_append_zero rest hzero.2.2]
  omega

/-- The rest of the command is split as long as there is room for a word and the
null pointer behind it. -/
theorem tokenise_ok_iff {n : Nat} (k : Nat) :
    ∀ {space : Nat} {b : Buf n} {s : Bytes} {argv : List Nat}, b.From (space + 1) s → 0 ∈ s →
      (cut s).count 32 = k → argv.length < maxUserCount →
        ((∃ r, tokenise space b argv = .ok r) ↔ argv.length + k < maxUserCount) := by
  induction k with
  | zero =>
      intro space b s argv hb h0 hcount hargv
      obtain ⟨rest, hrest⟩ := exists_eq_cut_append h0
      have hnone := Buf.From.strchr_none (zero_notMem_cut s) (List.count_eq_zero.mp hcount)
        (by decide) (hrest ▸ hb)
      refine iff_of_true ?_ hargv
      rw [tokenise, hnone]
      exact ⟨_, rfl⟩
  | succ k ih =>
      intro space b s argv hb h0 hcount hargv
      obtain ⟨u, v, rest, rfl, hu0, hu, hv0, hcountv⟩ := exists_cut_at_space h0 hcount
      -- Behind the space the command is as it was.
      obtain ⟨b', -, hfrom, hstep⟩ := tokenise_of_space argv hu0 hu hb
      rw [hstep]
      by_cases hroom : argv.length + 1 < maxUserCount
      · rw [if_pos hroom, ih hfrom (List.mem_append_right _ (List.mem_cons_self ..)) hcountv
          (by simpa using hroom), List.length_append, List.length_singleton]
        omega
      · rw [if_neg hroom]
        refine iff_of_false ?_ (by omega)
        rintro ⟨r, hr⟩
        cases hr

/-- A terminator more leaves every string of the buffer with an end. -/
theorem zero_mem_drop_of_set {pre t : Bytes} {c : UInt8} (o : Nat)
    (h : 0 ∈ (pre ++ c :: t).drop o) : 0 ∈ (pre ++ 0 :: t).drop o := by
  rw [List.drop_append, List.mem_append] at h ⊢
  refine h.imp id ?_
  intro h
  cases hk : o - pre.length with
  | zero => exact List.mem_cons_self ..
  | succ k =>
      rw [hk] at h
      exact h

/-- The words that the loop stores have an end in the buffer. -/
theorem zero_mem_of_tokenise {n : Nat} {r : Buf n × List Nat} (k : Nat) :
    ∀ {space : Nat} {b : Buf n} {s : Bytes} {argv : List Nat}, b.From (space + 1) s → 0 ∈ s →
      (cut s).count 32 = k → (∀ o ∈ argv, 0 ∈ b.bytes.drop o) → tokenise space b argv = .ok r →
        (∀ o ∈ argv, o ∈ r.2) ∧ ∀ o ∈ r.2, 0 ∈ r.1.bytes.drop o := by
  induction k with
  | zero =>
      intro space b s argv hb h0 hcount hargv hr
      obtain ⟨rest, hrest⟩ := exists_eq_cut_append h0
      have hnone := Buf.From.strchr_none (zero_notMem_cut s) (List.count_eq_zero.mp hcount)
        (by decide) (hrest ▸ hb)
      rw [tokenise, hnone] at hr
      cases hr
      exact ⟨fun o ho => ho, hargv⟩
  | succ k ih =>
      intro space b s argv hb h0 hcount hargv hr
      obtain ⟨u, v, rest, rfl, hu0, hu, hv0, hcountv⟩ := exists_cut_at_space h0 hcount
      obtain ⟨b', hb', hfrom, hstep⟩ := tokenise_of_space argv hu0 hu hb
      rw [hstep] at hr
      split at hr
      · have hbytes : b.bytes = (b.bytes.take (space + 1) ++ u) ++ 32 :: (v ++ 0 :: rest) := by
          rw [List.append_assoc, ← hb, List.take_append_drop]
        obtain ⟨hsub, hzero⟩ := ih hfrom (List.mem_append_right _ (List.mem_cons_self ..)) hcountv
          (by
            intro o ho
            rcases List.mem_append.mp ho with ho | ho
            · rw [hb']
              refine zero_mem_drop_of_set (c := 32) o ?_
              rw [← hbytes]
              exact hargv o ho
            · rw [List.mem_singleton.mp ho, hfrom]
              exact List.mem_append_right _ (List.mem_cons_self ..)) hr
        exact ⟨fun o ho => hsub o (List.mem_append_left _ ho), hzero⟩
      · cases hr

/-- The argument that `Parser` passes on is a string in a zeroed buffer. -/
theorem args_of_doUsual {n : Nat} {message : Buf n} {args : MessageBuf}
    (h : parser message = .ok (.doUsual args)) :
    ∃ (rest : Bytes) (hlt : rest.length < maxCommandLenght), 0 ∉ rest ∧
      args = Buf.ofBytes rest hlt.le := by
  obtain ⟨o, -, h⟩ := bind_eq_ok.mp h
  cases o with
  | none =>
      obtain ⟨text, -, h⟩ := bind_eq_ok.mp h
      split at h
      · cases h
      · cases h
  | some space =>
      obtain ⟨message', -, h⟩ := bind_eq_ok.mp h
      obtain ⟨cmd, -, h⟩ := bind_eq_ok.mp h
      obtain ⟨args', hargs, h⟩ := bind_eq_ok.mp h
      obtain ⟨text, -, h⟩ := bind_eq_ok.mp h
      obtain rfl := args_of_handlerOf (Except.ok.inj h)
      exact Buf.strcpy_ok hargs

/-- The spaces behind the first character of the command decide. -/
theorem tokenise_args_iff {rest : Bytes} (h0 : 0 ∉ rest) (hlt : rest.length < maxCommandLenght) :
    (∃ r, tokenise 0 (Buf.ofBytes rest hlt.le) [0] = .ok r) ↔
      rest.tail.count 32 + 2 ≤ maxUserCount := by
  obtain ⟨k, hfrom⟩ := Buf.exists_zeros hlt (i := 1) (by decide)
  have hzero : 0 ∈ rest.drop 1 ++ List.replicate (k + 1) 0 :=
    List.mem_append_right _ (zero_mem_zeros k)
  have hcut : cut (rest.drop 1 ++ List.replicate (k + 1) 0) = rest.tail := by
    rw [cut_append_zeros, List.drop_one, cut_eq_self fun h => h0 (List.mem_of_mem_tail h)]
  rw [tokenise_ok_iff _ hfrom hzero (congrArg _ hcut) (by decide), List.length_singleton,
    Nat.add_comm 1]
  exact Iff.rfl

/-- `Do_usual` gets to its `execvp` under the same condition. -/
theorem doUsual_ok_iff {n : Nat} {message : Buf n} {args : MessageBuf}
    (h : parser message = .ok (.doUsual args)) :
    (∃ exec, doUsual args = .ok exec) ↔ (cut args.bytes).tail.count 32 + 2 ≤ maxUserCount := by
  obtain ⟨rest, hlt, h0, rfl⟩ := args_of_doUsual h
  rw [Buf.cut_ofBytes, cut_eq_self h0, ← tokenise_args_iff h0 hlt]
  constructor
  · rintro ⟨exec, hexec⟩
    obtain ⟨r, hr, -⟩ := bind_eq_ok.mp hexec
    exact ⟨r, hr⟩
  · rintro ⟨r, hr⟩
    obtain ⟨k, hfrom⟩ := Buf.exists_zeros hlt (i := 1) (by decide)
    have hzero : 0 ∈ rest.drop 1 ++ List.replicate (k + 1) 0 :=
      List.mem_append_right _ (zero_mem_zeros k)
    have hstart : ∀ o ∈ [0], 0 ∈ (Buf.ofBytes rest hlt.le).bytes.drop o := by
      intro o ho
      rw [List.mem_singleton.mp ho]
      exact (Buf.zero_mem_ofBytes hlt.le).mpr (Or.inr hlt)
    obtain ⟨hsub, hends⟩ := zero_mem_of_tokenise _ hfrom hzero rfl hstart hr
    have hfile := Buf.cstring_of_mem (hends 0 (hsub 0 (List.mem_singleton_self 0)))
    obtain ⟨words, hwords⟩ := Buf.exists_mapM_cstring hends
    rw [doUsual, hr, ok_bind]
    show ∃ exec, (r.1.cstring 0 >>= _) = _
    rw [hfile, ok_bind, hwords]
    exact ⟨_, rfl⟩

/-- For every command that `Parser` passes on, the stores into `argv`, of a word
and of the null pointer behind it, are inside exactly when there are at most 98
spaces behind its first character. -/
theorem argv_stores_iff {n : Nat} {message : Buf n} {args : MessageBuf}
    (h : parser message = .ok (.doUsual args)) :
    (∃ r, tokenise 0 args [0] = .ok r) ↔
      (cut args.bytes).tail.count 32 + 2 ≤ maxUserCount := by
  obtain ⟨rest, hlt, h0, rfl⟩ := args_of_doUsual h
  rw [tokenise_args_iff h0 hlt, Buf.cut_ofBytes, cut_eq_self h0]

/-- `Parser` passes on what follows the command word. -/
theorem parser_doUsual {n : Nat} {rest : Bytes} (h0 : 0 ∉ rest)
    (hlen : (ascii "@# " ++ rest).length < maxCommandLenght)
    (hn : (ascii "@# " ++ rest).length < n) :
    ∃ hlt : rest.length < maxCommandLenght,
      parser (Buf.ofBytes (ascii "@# " ++ rest) hn.le)
        = .ok (.doUsual (Buf.ofBytes rest hlt.le)) := by
  have hcut : cut (Buf.ofBytes (ascii "@# " ++ rest) hn.le).bytes = ascii "@#" ++ 32 :: rest := by
    rw [Buf.cut_ofBytes]
    exact cut_eq_self (by simpa [ascii] using h0)
  have hmem := (Buf.zero_mem_ofBytes hn.le).mpr (Or.inr hn)
  have hshort : (ascii "@#" ++ 32 :: rest).length < maxCommandLenght := hlen
  obtain ⟨hle, hparse⟩ := parser_of_cut hmem (by rwa [hcut]) (by decide) hcut
  have hlt : rest.length < maxCommandLenght := by
    rw [List.length_append, List.length_cons] at hshort
    omega
  exact ⟨hlt, hparse⟩

/-- A command of two words. -/
theorem argv_stores_iff_ls :
    ∃ args, parser (Buf.ofBytes (ascii "@# ls -l") (show _ ≤ 16 by decide)) = .ok (.doUsual args) ∧
      ∃ r, tokenise 0 args [0] = .ok r := by
  obtain ⟨hlt, hparse⟩ := parser_doUsual (n := 16) (show 0 ∉ ascii "ls -l" by decide)
    (by decide) (by decide)
  refine ⟨_, hparse, (argv_stores_iff hparse).mpr ?_⟩
  rw [Buf.cut_ofBytes]
  decide

/-- A command with 100 spaces stores behind the array. -/
theorem argv_overrun :
    ¬ ∀ (n : Nat) (message : Buf n) (args : MessageBuf), parser message = .ok (.doUsual args) →
      ∃ r, tokenise 0 args [0] = .ok r := by
  intro hclaim
  let rest : Bytes := 97 :: List.replicate 100 32
  have h0 : 0 ∉ rest := by
    rw [List.mem_cons, List.mem_replicate]
    decide
  have hlen : (ascii "@# " ++ rest).length = 104 := rfl
  obtain ⟨hlt, hparse⟩ := parser_doUsual (n := 128) h0 (by rw [hlen]; decide)
    (by rw [hlen]; decide)
  have hfits := (tokenise_args_iff h0 hlt).mp (hclaim _ _ _ hparse)
  rw [List.tail_cons, List.count_replicate_self] at hfits
  exact absurd hfits (by decide)

end Server

end ServerSsh

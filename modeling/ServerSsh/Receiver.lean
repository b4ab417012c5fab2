import ServerSsh.Relay

/-!
# The receiver loop

The administrator's receiver looks for the first newline of a message, blanks
what follows it, and writes what `strlen` then finds to the standard input of
the shell.  The end of the message is computed as an `int` from a pointer
difference, also when `strchr` found nothing and the pointer is null: then it
depends on the address of the buffer.  The blanking loop compares with a
`strlen` that its own first store shortens, so it stores one zero.

`forward_eq` is the effect of the loop body: the shell gets the message up to
the computed end.
-/

namespace ServerSsh

open Libc

/-- `space - message + 1`, stored in an `int` and compared as a `size_t`, for a
buffer at address `message`. -/
def trueLen (message : Nat) (space : Option Nat) : Nat :=
  let pointer : Int := match space with
    | some k => message + k
    | none => 0
  (sizeOfInt ((pointer - message + 1).bmod (2 ^ 32))).toNat

/-- The last character of a message, which is only printed. -/
def badChar (message : MessageBuf) : Except Fault UInt8 := do
  let n ← message.strlen
  if n = 0 then .error .outOfBounds else message.get (n - 1)

theorem strlen_lt {b : MessageBuf} {n : Nat} (h : b.strlen = .ok n) : n < maxCommandLenght := by
  rw [Buf.strlen, strlen_eq] at h
  split at h
  next h0 =>
    cases h
    exact (cut_length_lt h0).trans_eq b.size
  next => cases h

/-- The loop `for (i = true_len; i < strlen(message); i++) message[i] = 0`. -/
def blankFrom (message : MessageBuf) (i : Nat) : Except Fault MessageBuf :=
  match _hn : message.strlen with
  | .error e => .error e
  | .ok n =>
      if i < n then
        match message.set i 0 with
        | .error e => .error e
        | .ok blanked => blankFrom blanked (i + 1)
      else .ok message
termination_by maxCommandLenght - i
decreasing_by
  have := strlen_lt _hn
  omega

/-- The body of the receiver loop after `Get_message`, with the bytes written to
the standard input of the shell. -/
def forward (address : Nat) (message : MessageBuf) : Except Fault Bytes := do
  let _ ← badChar message
  let space ← message.strchr 0 10
  let message ← blankFrom message (trueLen address space)
  let n ← message.strlen
  message.load n

/-! ## One zero is stored -/

theorem set_zero {b : MessageBuf} {i : Nat} (hi : i < (cut b.bytes).length) :
    ∃ b', b.set i 0 = .ok b' ∧ 0 ∈ b'.bytes ∧ cut b'.bytes = (cut b.bytes).take i := by
  have hlt : i < b.bytes.length := hi.trans_le (cut_length_le _)
  refine ⟨⟨b.bytes.set i 0, by simp [b.size]⟩, ?_, List.mem_set hlt 0, ?_⟩
  · rw [Buf.set, if_pos (hlt.trans_eq b.size)]
  · have htake : b.bytes.take i = (cut b.bytes).take i := by
      rw [← take_cut_length b.bytes, List.take_take, Nat.min_eq_left hi.le]
    have hz : 0 ∉ (cut b.bytes).take i := fun h => zero_notMem_cut _ (List.mem_of_mem_take h)
    change cut (b.bytes.set i 0) = _
    rw [List.set_eq_take_append_cons_drop, if_pos hlt, htake, cut_append_zero _ hz]

theorem blankFrom_of_strlen {b : MessageBuf} {n : Nat} (h : b.strlen = .ok n) (i : Nat) :
    blankFrom b i = if i < n then b.set i 0 >>= fun blanked => blankFrom blanked (i + 1)
      else .ok b := by
  rw [blankFrom]
  split
  next e he =>
    rw [h] at he
    cases he
  next n' hn =>
    rw [h] at hn
    cases hn
    split
    · cases b.set i 0 <;> rfl
    · rfl

/-- The blanking loop cuts a string at its start index. -/
theorem blankFrom_eq {b : MessageBuf} (h0 : 0 ∈ b.bytes) (i : Nat) :
    ∃ b', blankFrom b i = .ok b' ∧ 0 ∈ b'.bytes ∧ cut b'.bytes = (cut b.bytes).take i := by
  rw [blankFrom_of_strlen (Buf.strlen_of_mem h0)]
  by_cases hi : i < (cut b.bytes).length
  · obtain ⟨b', hset, h0', hcut⟩ := set_zero hi
    have hlen : (cut b'.bytes).length = i := by
      rw [hcut, List.length_take]
      omega
    -- The string is `i` long after the first store, so the loop ends at `i + 1`.
    refine ⟨b', ?_, h0', hcut⟩
    rw [if_pos hi, hset, ok_bind, blankFrom_of_strlen (Buf.strlen_of_mem h0'), hlen,
      if_neg (by omega)]
  · refine ⟨b, if_neg hi, h0, ?_⟩
    rw [List.take_of_length_le (Nat.not_lt.mp hi)]

/-! ## The loop body -/

/-- The offset of the first newline. -/
def newline (m : Bytes) : Option Nat := m.findIdx? (· = 10)

/-- The number of bytes that the shell gets of a message at an address. -/
def kept (address : Nat) (m : Bytes) : Nat := trueLen address (newline m)

/-- A newline ends the message there. -/
theorem trueLen_some (address : Nat) {k : Nat} (hk : k < maxCommandLenght) :
    trueLen address (some k) = k + 1 := by
  change k < 65536 at hk
  have hdiff : ((address : Int) + k - address + 1).bmod (2 ^ 32) = ((k + 1 : Nat) : Int) := by
    rw [show (address : Int) + k - address + 1 = ((k + 1 : Nat) : Int) by omega]
    exact Int.bmod_eq_of_le (by omega) (by omega)
  rw [trueLen, hdiff, sizeOfInt_natCast,
    UInt64.toNat_ofNat_of_lt' (by simp only [UInt64.size]; omega)]

theorem strchr_newline {b : MessageBuf} (h0 : 0 ∈ b.bytes) :
    b.strchr 0 10 = .ok (newline (cut b.bytes)) := by
  rw [Buf.strchr, Libc.strchr, List.drop_zero, strchrFrom_eq (by decide) h0, newline]
  simp

theorem badChar_ok {b : MessageBuf} (h0 : 0 ∈ b.bytes) (hne : cut b.bytes ≠ []) :
    ∃ v, badChar b = .ok v := by
  have hpos := List.length_pos_iff.mpr hne
  have hlt : (cut b.bytes).length - 1 < b.bytes.length := by
    have := cut_length_le b.bytes
    omega
  refine ⟨b.bytes[(cut b.bytes).length - 1], ?_⟩
  rw [badChar, Buf.strlen_of_mem h0, ok_bind, if_neg hpos.ne', Buf.get,
    List.getElem?_eq_getElem hlt]

/-- The shell gets the start of a non-empty message. -/
theorem forward_eq (address : Nat) {b : MessageBuf} (h0 : 0 ∈ b.bytes) (hne : cut b.bytes ≠ []) :
    forward address b = .ok ((cut b.bytes).take (kept address (cut b.bytes))) := by
  obtain ⟨v, hv⟩ := badChar_ok h0 hne
  obtain ⟨b', hb, h0', hcut⟩ := blankFrom_eq h0 (kept address (cut b.bytes))
  rw [forward, hv, ok_bind, strchr_newline h0, ok_bind, ← kept, hb, ok_bind,
    Buf.strlen_of_mem h0', ok_bind, Buf.load_cut, hcut]

/-- Nothing is written for an empty message. -/
theorem forward_nil (address : Nat) {b : MessageBuf} (h0 : 0 ∈ b.bytes) (hnil : cut b.bytes = []) :
    forward address b = .error .outOfBounds := by
  rw [forward, badChar, Buf.strlen_of_mem h0, ok_bind, hnil]
  rfl

/-! ## Typed input -/

/-- A message layer that delivers every C string. -/
def Intact (layer : MessageBuf → Except Fault MessageBuf) : Prop :=
  ∀ string s, string.cstring 0 = .ok s →
    ∃ message, layer string = .ok message ∧ message.cstring 0 = .ok s

/-- A chunk of typed input: not empty, without a zero, and shorter than the
buffer. -/
structure Typed (c : Chunk) : Prop where
  nonempty : c.data ≠ []
  noZero : 0 ∉ c.data
  short : c.data.length < maxCommandLenght

/-- The bytes that the shell gets for the chunks that the client reads, with the
receiver's buffer at the given address. -/
def shellInput (layer : MessageBuf → Except Fault MessageBuf) (address : Nat) :
    List Chunk → Except Fault Bytes
  | [] => .ok []
  | c :: cs => do
      let message ← layer c.buffer
      let written ← forward address message
      let rest ← shellInput layer address cs
      pure (written ++ rest)

/-- Nothing follows the first newline, and without a newline the end that comes
out of the null pointer is not before the end of the message. -/
def Unbroken (address : Nat) (m : Bytes) : Prop :=
  match newline m with
  | some k => k + 1 = m.length
  | none => (m.length : Int) ≤ (1 - address) % 2 ^ 32

theorem trueLen_none (address : Nat) {n : Nat} (hn : n < maxCommandLenght) :
    n ≤ trueLen address none ↔ (n : Int) ≤ (1 - address) % 2 ^ 32 := by
  change n < 65536 at hn
  have hlt : ((0 - (address : Int) + 1).bmod (2 ^ 32) % 2 ^ 64).toNat < 2 ^ 64 := by omega
  rw [trueLen, sizeOfInt, UInt64.toNat_ofNat_of_lt' hlt, Int.bmod_def]
  split <;> omega

theorem newline_lt {m : Bytes} {k : Nat} (h : newline m = some k) : k < m.length :=
  (List.findIdx?_eq_some_iff_getElem.mp h).1

theorem take_kept_iff (address : Nat) {m : Bytes} (hm : m.length < maxCommandLenght) :
    m.take (kept address m) = m ↔ Unbroken address m := by
  have htake : m.take (kept address m) = m ↔ m.length ≤ kept address m := by
    refine ⟨fun h => ?_, List.take_of_length_le⟩
    have := congrArg List.length h
    rw [List.length_take] at this
    omega
  rw [htake, kept, Unbroken]
  cases h : newline m with
  | none => exact trueLen_none address hm
  | some k =>
      have hk := newline_lt h
      rw [trueLen_some address (hk.trans hm)]
      dsimp only
      omega

theorem shellInput_eq {layer : MessageBuf → Except Fault MessageBuf} (hlayer : Intact layer)
    (address : Nat) : ∀ {chunks : List Chunk}, (∀ c ∈ chunks, Typed c) →
    shellInput layer address chunks
      = .ok (chunks.map fun c => c.data.take (kept address c.data)).flatten
  | [], _ => rfl
  | c :: cs, h => by
      obtain ⟨hc, hcs⟩ := List.forall_mem_cons.mp h
      obtain ⟨message, hl, hm⟩ :=
        hlayer c.buffer c.data (Buf.cstring_ofBytes hc.noZero hc.short)
      obtain ⟨h0, hcut⟩ := Buf.cstring_zero_eq_ok.mp hm
      have hw := forward_eq address h0 (hcut ▸ hc.nonempty)
      rw [shellInput, hl, ok_bind, hw, ok_bind, shellInput_eq hlayer address hcs, ok_bind, hcut]
      rfl

/-- Prefixes of the parts of a sequence make up the sequence only when they are
the parts. -/
theorem flatten_map_eq_iff {α β : Type} {f g : β → List α} (hf : ∀ b, f b <+: g b) :
    ∀ l : List β, (l.map f).flatten = (l.map g).flatten ↔ ∀ b ∈ l, f b = g b := by
  have hle : ∀ l : List β, (l.map f).flatten.length ≤ (l.map g).flatten.length := by
    intro l
    induction l with
    | nil => exact Nat.le_refl _
    | cons b l ih =>
        have := (hf b).length_le
        simp only [List.map_cons, List.flatten_cons, List.length_append]
        omega
  intro l
  induction l with
  | nil => simp
  | cons b l ih =>
      rw [List.forall_mem_cons, ← ih]
      simp only [List.map_cons, List.flatten_cons]
      constructor
      · intro h
        have hlen := congrArg List.length h
        simp only [List.length_append] at hlen
        have hb := (hf b).eq_of_length (by have := hle l; have := (hf b).length_le; omega)
        rw [hb] at h
        exact ⟨hb, List.append_cancel_left h⟩
      · rintro ⟨hb, hl⟩
        rw [hb, hl]

/-- All the typed bytes reach the shell exactly when no chunk is broken. -/
theorem typed_input_iff {layer : MessageBuf → Except Fault MessageBuf} (hlayer : Intact layer)
    (address : Nat) {chunks : List Chunk} (h : ∀ c ∈ chunks, Typed c) :
    shellInput layer address chunks = .ok (chunks.map Chunk.data).flatten ↔
      ∀ c ∈ chunks, Unbroken address c.data := by
  rw [shellInput_eq hlayer address h, Except.ok.injEq,
    flatten_map_eq_iff fun c => List.take_prefix _ _]
  exact forall₂_congr fun c hc => take_kept_iff address (h c hc).short

/-- One line in one chunk. -/
theorem typed_input_iff_ls :
    shellInput .ok 0x555555559010 [⟨ascii "ls\n", by decide⟩] = .ok (ascii "ls\n") :=
  (typed_input_iff (fun string s h => ⟨string, rfl, h⟩) _
    (List.forall_mem_singleton.mpr ⟨by decide, by decide, by decide⟩)).mpr
    (List.forall_mem_singleton.mpr rfl)

/-- Two lines in one chunk. -/
theorem typed_input_lost :
    ¬ ∀ (layer : MessageBuf → Except Fault MessageBuf) (address : Nat) (chunks : List Chunk),
      Intact layer → (∀ c ∈ chunks, Typed c) →
        shellInput layer address chunks = .ok (chunks.map Chunk.data).flatten := by
  intro hclaim
  have hlayer : Intact .ok := fun string s h => ⟨string, rfl, h⟩
  have htyped : ∀ c ∈ [Chunk.mk (ascii "cd /tmp\nls\n") (by decide)], Typed c :=
    List.forall_mem_singleton.mpr ⟨by decide, by decide, by decide⟩
  have h := hclaim .ok 0x555555559010 _ hlayer htyped
  rw [shellInput_eq hlayer _ htyped] at h
  revert h
  decide

/-! ## Rejected input -/

/-- The body of the receiver loop: the connection record after it, and the bytes
written to the standard input of the shell. -/
def receive (E : Evp.Cipher) (mode : Mode) (bfd : Connection) (address : Nat) (a : Arrival) :
    Except Fault (Connection × Bytes) := do
  let got ← Server.getMessage E mode bfd a
  let written ← forward address got.string
  pure (got.bfd, written)

/-- `EVP_DecryptFinal_ex` rejects what was received. -/
structure Rejected (E : Evp.Cipher) (bfd : Connection) (a : Arrival) : Prop where
  terminated : 0 ∈ Arrival.data a ∨ (Arrival.data a).length < maxCommandLenght
  final : E.decryptFinal (sessionCtx bfd) (cut (Arrival.data a)) = none

/-- The receiver loop writes nothing to the shell. -/
def WritesNothing (E : Evp.Cipher) (mode : Mode) (bfd : Connection) (address : Nat) (a : Arrival) :
    Prop := ∀ bfd' written, receive E mode bfd address a = .ok (bfd', written) → written = []

/-- A buffer from `calloc` is aligned, so its address leaves at least one byte of
a message. -/
theorem kept_pos {address : Nat} (haddr : address % 16 = 0) (m : Bytes)
    (hm : m.length < maxCommandLenght) : 1 ≤ kept address m := by
  rw [kept]
  cases h : newline m with
  | none => exact (trueLen_none address (by decide)).mpr (by omega)
  | some k =>
      rw [trueLen_some address ((newline_lt h).trans hm)]
      omega

/-- Something of a message that is not empty is passed on. -/
theorem take_kept_ne_nil {address : Nat} (haddr : address % 16 = 0) {m : Bytes}
    (hm : m.length < maxCommandLenght) (hne : m ≠ []) : m.take (kept address m) ≠ [] := by
  have hkept := kept_pos haddr m hm
  intro hnil
  rcases List.take_eq_nil_iff.mp hnil with h | h
  · omega
  · exact hne h

/-- What the shell gets for received data. -/
theorem receive_cases (E : Evp.Cipher) (mode : Mode) (bfd : Connection) (address : Nat)
    {a : Arrival} (h : 0 ∈ Arrival.data a ∨ (Arrival.data a).length < maxCommandLenght) :
    let m := received E bfd (Arrival.data a)
    (m = [] ∧ receive E mode bfd address a = .error .outOfBounds) ∨
      (m ≠ [] ∧ ∃ bfd', receive E mode bfd address a = .ok (bfd', m.take (kept address m))) := by
  obtain ⟨got, hgot, hs⟩ := Direction.toServer.get_string E mode bfd h
  obtain ⟨h0, hcut⟩ := Buf.cstring_zero_eq_ok.mp hs
  have hget : Server.getMessage E mode bfd a = .ok got := hgot
  dsimp only
  rw [receive, hget, ok_bind, ← hcut]
  by_cases hm : cut got.string.bytes = []
  · rw [forward_nil address h0 hm]
    exact Or.inl ⟨hm, rfl⟩
  · rw [forward_eq address h0 hm]
    exact Or.inr ⟨hm, got.bfd, rfl⟩

theorem writesNothing_iff_received (E : Evp.Cipher) (mode : Mode) (bfd : Connection)
    {address : Nat} (haddr : address % 16 = 0) {a : Arrival}
    (h : 0 ∈ Arrival.data a ∨ (Arrival.data a).length < maxCommandLenght) :
    WritesNothing E mode bfd address a ↔ received E bfd (Arrival.data a) = [] := by
  rcases receive_cases E mode bfd address h with ⟨hm, he⟩ | ⟨hm, bfd', hok⟩
  · refine ⟨fun _ => hm, fun _ bfd' written hw => ?_⟩
    rw [he] at hw
    cases hw
  · have hne := take_kept_ne_nil haddr (received_length_lt E bfd h) hm
    exact ⟨fun hw => absurd (hw _ _ hok) hne, fun hnil => absurd hnil hm⟩

/-- What the Update call writes comes through although the Final call fails. -/
theorem received_of_rejected {E : Evp.Cipher} {bfd : Connection} {a : Arrival}
    (h : Rejected E bfd a) :
    received E bfd (Arrival.data a)
      = cut (E.decryptUpdate (sessionCtx bfd) (cut (Arrival.data a))) := by
  rw [received, E.decipher_of_none h.final]

/-- Nothing is written for rejected input exactly when it has at most one block
or its first block decrypts to a block that starts with a zero. -/
theorem rejected_writes_nothing_iff (E : Evp.Cipher) (mode : Mode) (bfd : Connection)
    {address : Nat} (haddr : address % 16 = 0) {a : Arrival} (h : Rejected E bfd a) :
    WritesNothing E mode bfd address a ↔ (cut (Arrival.data a)).length ≤ 16 ∨
      (E.decryptUpdate (sessionCtx bfd) (cut (Arrival.data a))).head? = some 0 := by
  rw [writesNothing_iff_received E mode bfd haddr h.terminated, received_of_rejected h,
    cut_eq_nil_iff, E.decryptUpdate_eq_nil_iff]

/-- Half a block is rejected and not written. -/
theorem rejected_writes_nothing_iff_half :
    WritesNothing sampleCipher .tcp sampleSession 0x555555559010
      (some ⟨[188, 57, 222, 65, 149, 136, 29, 124], sampleBfd.client, by decide⟩) :=
  (rejected_writes_nothing_iff _ _ _ (by decide)
    ⟨Or.inr (by decide), Evp.Cipher.decryptFinal_eq_none _ _ (by decide)⟩).mpr
    (Or.inl (by decide))

/-- The first two blocks of `rm -rf /home/user/build/cache-old`. -/
theorem rejected_input_written :
    ¬ ∀ (E : Evp.Cipher) (mode : Mode) (bfd : Connection) (address : Nat) (a : Arrival),
      address % 16 = 0 → Rejected E bfd a → WritesNothing E mode bfd address a := by
  intro hclaim
  let p : Packet := ⟨[193, 240, 189, 182, 113, 197, 3, 12, 2, 185, 6, 27, 65, 152, 220, 58,
    49, 246, 66, 235, 90, 74, 244, 226, 11, 55, 73, 49, 153, 217, 249, 60], sampleBfd.client,
    by decide⟩
  have hrej : Rejected sampleCipher sampleSession (some p) := by
    refine ⟨Or.inr (by decide), ?_⟩
    rw [sessionCtx_sample]
    decide
  have h := hclaim _ .tcp _ 0x555555559010 _ (by decide) hrej
  rw [writesNothing_iff_received _ _ _ (by decide) hrej.terminated, received,
    sessionCtx_sample] at h
  revert h
  decide

end ServerSsh

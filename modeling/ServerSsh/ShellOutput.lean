import ServerSsh.Receiver

/-!
# The output of the shell

The administrator's sender reads what the shell has printed into a zeroed buffer
and passes the buffer to `Send_message`.  What `read` returned is not kept, so
the length of the output is from there on what `strlen` finds: in the sender, on
the ciphertext, and in the client before its `write`.

`shell_output_iff` is what a perfect message layer makes of it.  The client
writes what the shell has printed exactly when there is no zero byte in it, and
how the output is split into reads does not matter.
-/

namespace ServerSsh

open Libc

/-- The body of the client's loop over the network after `Get_message`, with the
bytes written to the standard output. -/
def Client.display (content : MessageBuf) : Except Fault Bytes := do
  let n ← content.strlen
  content.load n

/-- The bytes that the client writes to its standard output for the chunks that
the administrator reads from the shell. -/
def clientOutput (layer : MessageBuf → Except Fault MessageBuf) :
    List Chunk → Except Fault Bytes
  | [] => .ok []
  | c :: cs => do
      let content ← layer c.buffer
      let written ← Client.display content
      let rest ← clientOutput layer cs
      pure (written ++ rest)

/-- The client writes the C string that it has received. -/
theorem Client.display_eq {content : MessageBuf} {s : Bytes} (h : content.cstring 0 = .ok s) :
    Client.display content = .ok s := by
  obtain ⟨h0, hcut⟩ := Buf.cstring_zero_eq_ok.mp h
  rw [display, Buf.strlen_of_mem h0, ok_bind, Buf.load_cut, hcut]

/-- Of a chunk that leaves room for a terminator the buffer has the C string up
to the first zero. -/
theorem Chunk.cstring_buffer {c : Chunk} (hc : c.data.length < maxCommandLenght) :
    c.buffer.cstring 0 = .ok (cut c.data) :=
  Buf.cstring_zero_eq_ok.mpr
    ⟨(Buf.zero_mem_ofBytes c.fits).mpr (Or.inr hc), Buf.cut_ofBytes c.fits⟩

/-- The part of each chunk before its first zero is delivered. -/
theorem clientOutput_eq {layer : MessageBuf → Except Fault MessageBuf} (hlayer : Intact layer) :
    ∀ {chunks : List Chunk}, (∀ c ∈ chunks, c.data.length < maxCommandLenght) →
      clientOutput layer chunks = .ok (chunks.map fun c => cut c.data).flatten
  | [], _ => rfl
  | c :: cs, h => by
      obtain ⟨hc, hcs⟩ := List.forall_mem_cons.mp h
      obtain ⟨content, hl, hs⟩ := hlayer c.buffer (cut c.data) (Chunk.cstring_buffer hc)
      rw [clientOutput, hl, ok_bind, Client.display_eq hs, ok_bind, clientOutput_eq hlayer hcs,
        ok_bind]
      rfl

/-- No chunk is cut exactly when there is no zero in the whole output. -/
theorem forall_cut_eq_self_iff (chunks : List Chunk) :
    (∀ c ∈ chunks, cut c.data = c.data) ↔ 0 ∉ (chunks.map Chunk.data).flatten := by
  simp only [cut_eq_self_iff, List.mem_flatten, List.mem_map]
  constructor
  · rintro h ⟨-, ⟨c, hc, rfl⟩, h0⟩
    exact h c hc h0
  · intro h c hc h0
    exact h ⟨c.data, ⟨c, hc, rfl⟩, h0⟩

/-- The client writes what the shell has printed exactly when there is no zero
byte in it. -/
theorem shell_output_iff {layer : MessageBuf → Except Fault MessageBuf} (hlayer : Intact layer)
    {output : Bytes} {chunks : List Chunk} (hsplit : (chunks.map Chunk.data).flatten = output)
    (hchunks : ∀ c ∈ chunks, c.data ≠ [] ∧ c.data.length < maxCommandLenght) :
    clientOutput layer chunks = .ok output ↔ 0 ∉ output := by
  rw [clientOutput_eq hlayer fun c hc => (hchunks c hc).2, ← hsplit, Except.ok.injEq,
    flatten_map_eq_iff fun c => cut_isPrefix _, forall_cut_eq_self_iff]

/-- Two lines in two reads. -/
theorem shell_output_iff_lines :
    clientOutput .ok [⟨ascii "a\n", by decide⟩, ⟨ascii "b\n", by decide⟩]
      = .ok (ascii "a\nb\n") :=
  (shell_output_iff (fun string s h => ⟨string, rfl, h⟩) (by decide) (by decide)).mpr
    (by decide)

/-- The first bytes of an executable file. -/
theorem shell_output_lost :
    ¬ ∀ (layer : MessageBuf → Except Fault MessageBuf) (output : Bytes) (chunks : List Chunk),
      Intact layer → (chunks.map Chunk.data).flatten = output →
      (∀ c ∈ chunks, c.data ≠ [] ∧ c.data.length < maxCommandLenght) →
        clientOutput layer chunks = .ok output := by
  intro hclaim
  have hlayer : Intact .ok := fun string s h => ⟨string, rfl, h⟩
  have h := hclaim .ok _ [⟨[127, 69, 76, 70, 2, 1, 1, 0, 0, 62], by decide⟩] hlayer rfl
    (by decide)
  rw [clientOutput_eq hlayer (by decide)] at h
  revert h
  decide

end ServerSsh

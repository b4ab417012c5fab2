import ServerSsh.Libc.Fields

/-!
# Lines, copies and words

`fgets` reads a line, `strcpy` and `strncpy` copy a C string from inside one
array to the start of another.  The lemmas about them have the contents of the
source written out around the string, `s ++ 0 :: rest` from some offset on.

The second part is about words in one array.  Separators that are replaced by
zeros leave one C string for each word, at the offsets that `wordStarts` gives,
and `mapM_cstring_wordStarts` reads all of them back.
-/

namespace Libc

/-- The first line of a stream, with its newline if there is one. -/
def firstLine (stream : Bytes) : Bytes :=
  stream.takeWhile (· ≠ 10) ++ (stream.dropWhile (· ≠ 10)).take 1

theorem firstLine_append {s : Bytes} (hs : 10 ∉ s) (rest : Bytes) :
    firstLine (s ++ 10 :: rest) = s ++ [10] := by
  have hpos : ∀ b ∈ s, decide (b ≠ 10) = true := by
    intro b hb
    have : b ≠ 10 := fun h => hs (h ▸ hb)
    simpa using this
  rw [firstLine, List.takeWhile_append_of_pos hpos, List.dropWhile_append_of_pos hpos]
  simp

/-- The parts around the first occurrence of a byte are unique. -/
theorem append_cons_inj {c : UInt8} {s s' t t' : Bytes} (hs : c ∉ s) (hs' : c ∉ s')
    (h : s ++ c :: t = s' ++ c :: t') : s = s' ∧ t = t' := by
  induction s generalizing s' with
  | nil =>
      cases s' with
      | nil => exact ⟨rfl, List.tail_eq_of_cons_eq h⟩
      | cons b s' =>
          obtain ⟨rfl, -⟩ := List.cons.inj h
          exact absurd (List.mem_cons_self ..) hs'
  | cons a s ih =>
      cases s' with
      | nil =>
          obtain ⟨rfl, -⟩ := List.cons.inj h
          exact absurd (List.mem_cons_self ..) hs
      | cons b s' =>
          obtain ⟨rfl, htail⟩ := List.cons.inj h
          obtain ⟨rfl, rfl⟩ := ih (fun hm => hs (List.mem_cons_of_mem _ hm))
            (fun hm => hs' (List.mem_cons_of_mem _ hm)) htail
          exact ⟨rfl, rfl⟩

/-! ## Words -/

/-- The offsets of words that follow each other with one byte after each. -/
def wordStarts : Nat → List Bytes → List Nat
  | _, [] => []
  | i, w :: ws => i :: wordStarts (i + w.length + 1) ws

/-- A word in front of others. -/
theorem intercalate_cons (c : UInt8) (s w : Bytes) (ws : List Bytes) :
    [c].intercalate (s :: w :: ws) = s ++ c :: [c].intercalate (w :: ws) := by
  rw [List.intercalate_cons_cons, List.append_assoc, List.singleton_append]

/-- The first of several words ends at a zero. -/
theorem exists_intercalate_zero (w : Bytes) (ws : List Bytes) (rest : Bytes) :
    ∃ rest', [0].intercalate (w :: ws) ++ 0 :: rest = w ++ 0 :: rest' := by
  cases ws with
  | nil => exact ⟨rest, by rw [List.intercalate_singleton]⟩
  | cons v ws =>
      exact ⟨_, by rw [intercalate_cons, List.append_assoc, List.cons_append]⟩

/-- A byte that is in no word and is not the separator is not in the whole. -/
theorem notMem_intercalate {c d : UInt8} (hc : c ≠ d) :
    ∀ {ws : List Bytes}, (∀ w ∈ ws, c ∉ w) → c ∉ [d].intercalate ws
  | [], _ => by simp
  | [w], h => by
      rw [List.intercalate_singleton]
      exact h w (List.mem_singleton_self w)
  | w :: v :: ws, h => by
      obtain ⟨hw, hws⟩ := List.forall_mem_cons.mp h
      rw [intercalate_cons, List.mem_append, List.mem_cons]
      rintro (hm | hm | hm)
      · exact hw hm
      · exact hc hm
      · exact notMem_intercalate hc hws hm

/-- The words of a text contain no separator and nothing else. -/
theorem notMem_of_mem_splitOn {c : UInt8} {w : Bytes} (s : Bytes) (hw : w ∈ s.splitOn c) :
    c ∉ w ∧ ∀ b ∈ w, b ∈ s := by
  induction s generalizing w with
  | nil =>
      rw [List.splitOn_nil, List.mem_singleton] at hw
      simp [hw]
  | cons b s ih =>
      rw [List.splitOn_cons_eq_if_modifyHead] at hw
      split at hw
      next hb =>
        rcases List.mem_cons.mp hw with rfl | hw
        · simp
        · exact ⟨(ih hw).1, fun d hd => List.mem_cons_of_mem _ ((ih hw).2 d hd)⟩
      next hb =>
        obtain ⟨v, vs, hvs⟩ := List.exists_cons_of_ne_nil (List.splitOn_ne_nil c s)
        rw [hvs] at hw ih
        have hbc : c ≠ b := by
          rintro rfl
          simp at hb
        rw [List.modifyHead_cons] at hw
        rcases List.mem_cons.mp hw with rfl | hw
        · obtain ⟨h1, h2⟩ := ih (List.mem_cons_self ..)
          refine ⟨?_, ?_⟩
          · simp [h1, hbc]
          · intro d hd
            rcases List.mem_cons.mp hd with rfl | hd
            · exact List.mem_cons_self ..
            · exact List.mem_cons_of_mem _ (h2 d hd)
        · obtain ⟨h1, h2⟩ := ih (List.mem_cons_of_mem _ hw)
          exact ⟨h1, fun d hd => List.mem_cons_of_mem _ (h2 d hd)⟩

theorem length_splitOn (c : UInt8) (s : Bytes) : (s.splitOn c).length = s.count c + 1 := by
  induction s with
  | nil => simp [List.splitOn_nil]
  | cons b s ih =>
      rw [List.splitOn_cons_eq_if_modifyHead, List.count_cons]
      split
      next hb => simp [ih]
      next hb => simp [ih]

namespace Buf

variable {n m : Nat}

/-- `strcpy(dst, src + off)`. -/
def strcpy (dst : Buf n) (src : Buf m) (off : Nat) : Except Fault (Buf n) := do
  let s ← src.cstring off
  dst.write 0 (s ++ [0])

/-- `strncpy(dst, src + off, count)`.  At most `count` bytes are read, none after
a terminator, and zeros are stored for what is left of `count`. -/
def strncpy (dst : Buf n) (src : Buf m) (off count : Nat) : Except Fault (Buf n) :=
  let s := src.bytes.drop off
  if 0 ∈ s ∨ count ≤ s.length then
    let t := (cut s).take count
    dst.write 0 (t ++ List.replicate (count - t.length) 0)
  else .error .outOfBounds

/-- `fgets(b, n, stream)` and what is left of the stream.  At the end of the
stream nothing is stored. -/
def fgets (b : Buf n) (stream : Bytes) : Except Fault (Buf n × Bytes) :=
  let line := (firstLine stream).take (n - 1)
  if line = [] then .ok (b, stream)
  else (b.write 0 (line ++ [0])).map fun b => (b, stream.drop line.length)

/-! ## Strings inside an array -/

theorem from_of_bytes {b : Buf n} {s t : Bytes} (h : b.bytes = s ++ t) : b.From s.length t := by
  rw [From, h, List.drop_left]

theorem From.cstring {b : Buf n} {i : Nat} {s rest : Bytes} (hs : 0 ∉ s)
    (h : b.From i (s ++ 0 :: rest)) : b.cstring i = .ok s := by
  rw [Buf.cstring, h, cstring_eq, if_pos (List.mem_append_right _ (List.mem_cons_self ..)),
    cut_append_zero rest hs]

/-- The search stops at the byte after a string without it. -/
theorem From.strchr {b : Buf n} {i : Nat} {c : UInt8} {s rest : Bytes} (hs : 0 ∉ s)
    (hc : c ∉ s) (h : b.From i (s ++ c :: rest)) : b.strchr i c = .ok (some (i + s.length)) := by
  rw [Buf.strchr, Libc.strchr, h, strchrFrom_append _ hs hc, strchrFrom, if_pos rfl]

/-- The search ends at the terminator. -/
theorem From.strchr_none {b : Buf n} {i : Nat} {c : UInt8} {s rest : Bytes} (hs : 0 ∉ s)
    (hc : c ∉ s) (hc0 : c ≠ 0) (h : b.From i (s ++ 0 :: rest)) : b.strchr i c = .ok none := by
  rw [Buf.strchr, Libc.strchr, h, strchrFrom_append _ hs hc, strchrFrom, if_neg hc0.symm,
    if_pos rfl]

/-- A store replaces one byte. -/
theorem set_of_bytes {b : Buf n} {s t : Bytes} {c : UInt8} (v : UInt8)
    (h : b.bytes = s ++ c :: t) :
    ∃ b', b.set s.length v = .ok b' ∧ b'.bytes = s ++ v :: t := by
  have hlt : s.length < n := by
    have hsize := b.size
    rw [h, List.length_append, List.length_cons] at hsize
    omega
  refine ⟨_, if_pos hlt, ?_⟩
  show b.bytes.set s.length v = _
  rw [h, List.set_append_right _ _ (Nat.le_refl _), Nat.sub_self, List.set_cons_zero]

/-- A store inside the array. -/
theorem exists_set (b : Buf n) {i : Nat} (h : i < n) (v : UInt8) : ∃ b', b.set i v = .ok b' := by
  rw [Buf.set, if_pos h]
  exact ⟨_, rfl⟩

/-- The bytes up to a store. -/
theorem take_of_set {b b' : Buf n} {i : Nat} {v : UInt8} (h : b.set i v = .ok b') :
    b'.bytes.take (i + 1) = b.bytes.take i ++ [v] := by
  rw [Buf.set] at h
  split at h
  next hi =>
    cases h
    have hlt : i < b.bytes.length := by rwa [b.size]
    rw [List.take_add_one, List.take_set_of_le (Nat.le_refl i), List.getElem?_set_self hlt]
    rfl
  next => cases h

/-- The bytes of a zero-filled array with a string in it. -/
theorem bytes_ofBytes {s : Bytes} (h : s.length < n) :
    ∃ rest, (ofBytes s h.le).bytes = s ++ 0 :: rest := by
  obtain ⟨k, hk⟩ : ∃ k, n - s.length = k + 1 := ⟨n - s.length - 1, by omega⟩
  refine ⟨List.replicate k 0, ?_⟩
  show s ++ List.replicate (n - s.length) 0 = _
  rw [hk, List.replicate_succ]

/-- A string at the start of an array, with its terminator. -/
theorem exists_from_zero {s t : Bytes} (hn : s.length < n) (h : s = t) :
    ∃ rest, (ofBytes s hn.le).From 0 (t ++ 0 :: rest) := by
  obtain ⟨rest, hbytes⟩ := bytes_ofBytes hn
  exact ⟨rest, hbytes.trans (congrArg (· ++ 0 :: rest) h)⟩

/-- The last byte of the contents of a zero-filled array is cleared. -/
theorem set_ofBytes_last {s : Bytes} {c : UInt8} (h : (s ++ [c]).length ≤ n) :
    (ofBytes (s ++ [c]) h).set s.length 0
      = .ok (ofBytes s ((List.prefix_append s [c]).length_le.trans h)) := by
  have hbytes : (ofBytes (s ++ [c]) h).bytes
      = s ++ c :: List.replicate (n - (s ++ [c]).length) 0 := by
    show (s ++ [c]) ++ _ = _
    rw [List.append_assoc, List.singleton_append]
  obtain ⟨b', hb', hbytes'⟩ := set_of_bytes 0 hbytes
  rw [hb']
  refine congrArg Except.ok (ext ?_)
  rw [hbytes', ← ofBytes_append_zero (by simpa using h)]
  show _ = (s ++ [0]) ++ List.replicate (n - (s ++ [0]).length) 0
  simp

/-! ## The copies -/

theorem strcpy_eq {src : Buf m} {off : Nat} {s : Bytes} (hs : src.cstring off = .ok s)
    (h : s.length < n) : (zero n).strcpy src off = .ok (ofBytes s h.le) := by
  rw [strcpy, hs, ok_bind]
  exact sprintf_zero h

/-- What a copy into a zeroed array leaves there. -/
theorem strcpy_ok {src : Buf m} {off : Nat} {b : Buf n} (h : (zero n).strcpy src off = .ok b) :
    ∃ (s : Bytes) (hlt : s.length < n), 0 ∉ s ∧ b = ofBytes s hlt.le := by
  obtain ⟨s, hs, h⟩ := bind_eq_ok.mp h
  have h0 : 0 ∉ s := by
    rw [cstring, cstring_eq] at hs
    split at hs
    · cases hs
      exact zero_notMem_cut _
    · cases hs
  rw [write_zero] at h
  split at h
  next hd =>
    have hlt : s.length < n := by
      have hd' := hd
      rw [List.length_append, List.length_singleton] at hd'
      exact hd'
    rw [ofBytes_append_zero] at h
    exact ⟨s, hlt, h0, (Except.ok.inj h).symm⟩
  next => cases h

/-- A copy of at most `count` bytes of a longer or equally long text. -/
theorem strncpy_eq_take {src : Buf m} {off count : Nat} {s rest : Bytes} (hs : 0 ∉ s)
    (hsrc : src.From off (s ++ rest)) (hcount : s.length = count) (h : s.length ≤ n) :
    (zero n).strncpy src off count = .ok (ofBytes s h) := by
  have hin : 0 ∈ src.bytes.drop off ∨ count ≤ (src.bytes.drop off).length := by
    right
    rw [hsrc, List.length_append]
    omega
  rw [strncpy, if_pos hin, hsrc, cut_append hs, ← hcount, List.take_left]
  show (zero n).write 0 (s ++ List.replicate (s.length - s.length) 0) = _
  rw [Nat.sub_self, List.replicate_zero, List.append_nil, write_zero, dif_pos h]

/-- A copy that ends at the terminator, with zeros after it. -/
theorem strncpy_eq {src : Buf m} {off count : Nat} {s rest : Bytes} (hs : 0 ∉ s)
    (hsrc : src.From off (s ++ 0 :: rest)) (hcount : s.length ≤ count) (hn : count ≤ n) :
    (zero n).strncpy src off count = .ok (ofBytes s (hcount.trans hn)) := by
  have hin : 0 ∈ src.bytes.drop off ∨ count ≤ (src.bytes.drop off).length := by
    left
    rw [hsrc]
    exact List.mem_append_right _ (List.mem_cons_self ..)
  have hlen : (s ++ List.replicate (count - s.length) 0).length ≤ n := by simp; omega
  rw [strncpy, if_pos hin, hsrc, cut_append_zero rest hs, List.take_of_length_le hcount,
    write_zero, dif_pos hlen]
  refine congrArg Except.ok (ext ?_)
  simp only [ofBytes, List.append_assoc, List.replicate_append_replicate, List.length_append,
    List.length_replicate]
  congr 2
  omega

/-- A copy of more bytes than the array has. -/
theorem strncpy_of_lt (dst : Buf n) (src : Buf m) (off : Nat) {count : Nat} (h : n < count) :
    dst.strncpy src off count = .error .outOfBounds := by
  rw [strncpy]
  split
  · have hlen : ((cut (src.bytes.drop off)).take count).length ≤ count := List.length_take_le ..
    refine dif_neg ?_
    rw [List.length_append, List.length_replicate]
    omega
  · rfl

/-- A line that fits is read with its newline. -/
theorem fgets_eq {s : Bytes} (hs : 10 ∉ s) (rest : Bytes) (h : (s ++ [10]).length < n) :
    (zero n).fgets (s ++ 10 :: rest) = .ok (ofBytes (s ++ [10]) h.le, rest) := by
  have htake : (firstLine (s ++ 10 :: rest)).take (n - 1) = s ++ [10] := by
    rw [firstLine_append hs]
    exact List.take_of_length_le (by omega)
  have hdrop : (s ++ 10 :: rest).drop (s ++ [10]).length = rest := by
    have hsplit : s ++ 10 :: rest = (s ++ [10]) ++ rest := List.append_cons s 10 rest
    rw [hsplit, List.drop_left]
  have hw : (zero n).write 0 ((s ++ [10]) ++ [0]) = .ok (ofBytes (s ++ [10]) h.le) :=
    sprintf_zero h
  rw [fgets, htake, if_neg (by simp), hw, hdrop]
  rfl

/-! ## Words in an array -/

/-- All strings with an end can be read. -/
theorem exists_mapM_cstring {b : Buf n} {offs : List Nat} (h : ∀ o ∈ offs, 0 ∈ b.bytes.drop o) :
    ∃ words, offs.mapM b.cstring = .ok words := by
  induction offs with
  | nil => exact ⟨[], rfl⟩
  | cons o offs ih =>
      obtain ⟨ho, hoffs⟩ := List.forall_mem_cons.mp h
      obtain ⟨words, hwords⟩ := ih hoffs
      rw [List.mapM_cons, cstring_of_mem ho, ok_bind, hwords]
      exact ⟨_, rfl⟩

/-- Words with zeros between them are C strings at their offsets. -/
theorem mapM_cstring_wordStarts {b : Buf n} {rest : Bytes} :
    ∀ {ws : List Bytes} {i : Nat}, (∀ w ∈ ws, 0 ∉ w) →
      b.From i ([0].intercalate ws ++ 0 :: rest) →
        (wordStarts i ws).mapM b.cstring = .ok ws
  | [], _, _, _ => rfl
  | [w], i, h0, h => by
      rw [List.intercalate_singleton] at h
      rw [wordStarts, List.mapM_cons, From.cstring (h0 w (List.mem_singleton_self w)) h]
      rfl
  | w :: v :: ws, i, h0, h => by
      obtain ⟨hw, hws⟩ := List.forall_mem_cons.mp h0
      rw [intercalate_cons, List.append_assoc, List.cons_append] at h
      rw [wordStarts, List.mapM_cons, h.cstring hw, ok_bind,
        mapM_cstring_wordStarts hws h.skip_cons]
      rfl

end Buf

end Libc

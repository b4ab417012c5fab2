import Mathlib.Data.List.PeriodicityLemma
import Mathlib.Data.Nat.Periodic

/-!
# Repetitions of words

A word written over and over again, and what a part of the result says about the
word.  `forever w` is the infinite sequence, `times k w` its first `k` rounds.

Two words commute exactly when they give the same infinite sequence
(`commute_iff_forever_eq`).  That they do is visible from the first letters, as
many as both words have together (`commute_of_agree`).  A rotation of a word
gives the same sequence later on (`forever_rotate`).
-/

namespace Words

variable {α : Type} {u v w w' : List α}

/-- The word written `k` times. -/
def times (k : Nat) (w : List α) : List α := (List.replicate k w).flatten

/-- The letter at a position of the word written for ever. -/
def forever (w : List α) (i : Nat) : Option α := w[i % w.length]?

/-- The order in which the two words are written does not matter. -/
def Commute (u v : List α) : Prop := u ++ v = v ++ u

instance [DecidableEq α] (u v : List α) : Decidable (Commute u v) :=
  inferInstanceAs (Decidable (_ = _))

/-! ## Finitely many rounds -/

theorem times_succ (k : Nat) (w : List α) : times (k + 1) w = w ++ times k w := by
  rw [times, List.replicate_succ, List.flatten_cons, times]

theorem length_times (k : Nat) (w : List α) : (times k w).length = k * w.length := by
  induction k with
  | zero => rw [times, List.replicate_zero, List.flatten_nil, List.length_nil, Nat.zero_mul]
  | succ k ih => rw [times_succ, List.length_append, ih, Nat.succ_mul, Nat.add_comm]

theorem forever_of_lt {i : Nat} (h : i < w.length) : forever w i = w[i]? := by
  rw [forever, Nat.mod_eq_of_lt h]

theorem forever_periodic (w : List α) : Function.Periodic (forever w) w.length := by
  intro i
  rw [forever, forever, Nat.add_mod_right]

theorem forever_sub {i : Nat} (h : w.length ≤ i) : forever w (i - w.length) = forever w i := by
  have hp := forever_periodic w (i - w.length)
  rw [Nat.sub_add_cancel h] at hp
  exact hp.symm

theorem getElem?_times {k i : Nat} (h : i < k * w.length) : (times k w)[i]? = forever w i := by
  induction k generalizing i with
  | zero => omega
  | succ k ih =>
      rw [Nat.succ_mul] at h
      rw [times_succ]
      rcases Nat.lt_or_ge i w.length with hi | hi
      · rw [List.getElem?_append_left hi, forever_of_lt hi]
      · rw [List.getElem?_append_right hi, ih (by omega), forever_sub hi]

/-- What can be seen of a repetition: its length and its letters. -/
theorem take_times_eq_iff {k m : Nat} :
    (times k w).take m = (times k w').take m ↔
      min m (k * w.length) = min m (k * w'.length) ∧
        ∀ i < min m (k * w.length), forever w i = forever w' i := by
  constructor
  · intro h
    have hlen := congrArg List.length h
    rw [List.length_take, List.length_take, length_times, length_times] at hlen
    refine ⟨hlen, ?_⟩
    intro i hi
    have hget := congrArg (·[i]?) h
    simp only [List.getElem?_take_of_lt (show i < m by omega)] at hget
    rwa [getElem?_times (by omega), getElem?_times (by omega)] at hget
  · rintro ⟨hlen, hletters⟩
    refine List.ext_getElem? ?_
    intro i
    rcases Nat.lt_or_ge i (min m (k * w.length)) with hi | hi
    · have him : i < m := by omega
      rw [List.getElem?_take_of_lt him, List.getElem?_take_of_lt him, getElem?_times (by omega),
        getElem?_times (by omega), hletters i hi]
    · rw [List.getElem?_eq_none, List.getElem?_eq_none]
      · rw [List.length_take, length_times]
        omega
      · rw [List.length_take, length_times]
        omega

/-! ## Periods of a sequence -/

section Periodic

variable {β : Type} {f g : Nat → β} {d n : Nat}

/-- The difference of two periods is a period. -/
theorem periodic_of_add (hn : Function.Periodic f n) (hd : Function.Periodic f (d + n)) :
    Function.Periodic f d := by
  intro i
  calc
    f (i + d) = f (i + d + n) := (hn _).symm
    _ = f (i + (d + n)) := by rw [Nat.add_assoc]
    _ = f i := hd i

/-- One common period decides whether two sequences are equal. -/
theorem eq_of_periodic (hd : 0 < d) (hf : Function.Periodic f d) (hg : Function.Periodic g d)
    (h : ∀ i < d, f i = g i) : f = g := by
  funext i
  rw [← hf.map_mod_nat i, ← hg.map_mod_nat i]
  exact h _ (Nat.mod_lt _ hd)

end Periodic

/-! ## Rotations -/

/-- A rotation gives the sequence from a later letter on. -/
theorem forever_rotate (u v : List α) (i : Nat) :
    forever (v ++ u) i = forever (u ++ v) (i + u.length) := by
  rcases Nat.eq_zero_or_pos (v ++ u).length with h0 | hpos
  · have hvu := List.length_eq_zero_iff.mp h0
    obtain ⟨rfl, rfl⟩ := List.append_eq_nil_iff.mp hvu
    rfl
  · have hlen : (u ++ v).length = (v ++ u).length := by
      rw [List.length_append, List.length_append, Nat.add_comm]
    have hj := Nat.mod_lt i hpos
    rw [forever, forever, hlen, Nat.add_mod]
    -- Only the place within one round matters.
    generalize i % (v ++ u).length = j at hj ⊢
    rw [List.length_append] at hj ⊢
    rcases Nat.eq_zero_or_pos v.length with hv | hv
    · obtain rfl := List.length_eq_zero_iff.mp hv
      have hju : j < u.length := by
        rw [List.length_nil, Nat.zero_add] at hj
        exact hj
      simp [Nat.mod_eq_of_lt hju]
    · rw [Nat.mod_eq_of_lt (show u.length < v.length + u.length by omega)]
      rcases Nat.lt_or_ge j v.length with hjv | hjv
      · rw [Nat.mod_eq_of_lt (by omega), List.getElem?_append_left hjv,
          List.getElem?_append_right (Nat.le_add_left _ _), Nat.add_sub_cancel]
      · have hmod : (j + u.length) % (v.length + u.length) = j - v.length := by
          rw [Nat.mod_eq_sub_mod (by omega), Nat.mod_eq_of_lt (by omega)]
          omega
        rw [hmod, List.getElem?_append_right hjv, List.getElem?_append_left (by omega)]

/-- A period of the sequence is one of its rotation. -/
theorem periodic_rotate {u v : List α} {d : Nat} (h : Function.Periodic (forever (u ++ v)) d) :
    Function.Periodic (forever (v ++ u)) d := by
  intro i
  rw [forever_rotate u v, forever_rotate u v, Nat.add_right_comm]
  exact h _

/-! ## Words that commute -/

/-- Written once after another word, a word goes on with the sequence of the
other. -/
theorem getElem?_append_of_agree
    (h : ∀ i < w.length + w'.length, forever w i = forever w' i) {i : Nat}
    (hi : i < w.length + w'.length) : (w ++ w')[i]? = forever w i := by
  rcases Nat.lt_or_ge i w.length with hlt | hge
  · rw [List.getElem?_append_left hlt, forever_of_lt hlt]
  · rw [List.getElem?_append_right hge, ← forever_of_lt (by omega), ← h _ (by omega),
      forever_sub hge]

/-- Words whose sequences agree for as many letters as both have together
commute. -/
theorem commute_of_agree (h : ∀ i < w.length + w'.length, forever w i = forever w' i) :
    Commute w w' := by
  refine List.ext_getElem? ?_
  intro i
  rcases Nat.lt_or_ge i (w.length + w'.length) with hi | hi
  · have h' : ∀ j < w'.length + w.length, forever w' j = forever w j := by
      intro j hj
      exact (h j (by omega)).symm
    rw [getElem?_append_of_agree h hi, getElem?_append_of_agree h' (by omega), h i hi]
  · rw [List.getElem?_eq_none (by rw [List.length_append]; omega),
      List.getElem?_eq_none (by rw [List.length_append]; omega)]

/-- Words of one length commute when they agree on one round. -/
theorem commute_of_length (hlen : w.length = w'.length)
    (h : ∀ i < w.length, forever w i = forever w' i) : Commute w w' := by
  refine commute_of_agree ?_
  intro i hi
  have hpos : 0 < w.length := by omega
  have heq := eq_of_periodic hpos (forever_periodic w) (hlen ▸ forever_periodic w') h
  exact congrFun heq i

/-- The product of commuting words has the length of each as a period. -/
theorem Commute.hasPeriod (h : Commute u v) : (u ++ v).HasPeriod u.length := by
  refine ⟨u, ?_⟩
  calc
    u ++ v ++ u = u ++ (v ++ u) := List.append_assoc ..
    _ = u ++ (u ++ v) := by rw [← h]
    _ = (u ++ v).take u.length ++ (u ++ v) := by rw [List.take_left]

theorem Commute.symm (h : Commute u v) : Commute v u := Eq.symm h

/-- The letters of a word of which a multiple of a period of the product is the
length. -/
theorem forever_eq_of_hasPeriod {z : List α} {d : Nat} (hu : u ≠ []) (hpre : u <+: z)
    (hd : z.HasPeriod d) (hdvd : d ∣ u.length) (i : Nat) : forever u i = z[i % d]? := by
  have hlt := Nat.mod_lt i (List.length_pos_iff.mpr hu)
  obtain ⟨t, rfl⟩ := hpre
  have hlen : i % u.length < (u ++ t).length := by
    rw [List.length_append]
    omega
  have hleft : (u ++ t)[i % u.length]? = u[i % u.length]? := List.getElem?_append_left hlt
  rw [forever, ← hleft, ← hd.getElem?_mod _ _ _ hlen, Nat.mod_mod_of_dvd _ hdvd]

/-- Commuting words give one sequence. -/
theorem Commute.forever_eq (h : Commute u v) (hu : u ≠ []) (hv : v ≠ []) :
    forever u = forever v := by
  have hlen : u.length + v.length - u.length.gcd v.length ≤ (u ++ v).length := by
    rw [List.length_append]
    exact Nat.sub_le _ _
  have hgcd := h.hasPeriod.gcd (h.symm ▸ h.symm.hasPeriod) hlen
  funext i
  rw [forever_eq_of_hasPeriod hu (List.prefix_append u v) hgcd (Nat.gcd_dvd_left ..),
    forever_eq_of_hasPeriod hv (h ▸ List.prefix_append v u) hgcd (Nat.gcd_dvd_right ..)]

theorem commute_iff_forever_eq (hu : u ≠ []) (hv : v ≠ []) :
    Commute u v ↔ forever u = forever v := by
  constructor
  · intro h
    exact h.forever_eq hu hv
  · intro h
    exact commute_of_agree fun i _ => congrFun h i

/-- Commuting words of one length are equal. -/
theorem Commute.eq_of_length (h : Commute u v) (hlen : u.length = v.length) : u = v :=
  (List.append_inj h hlen).1

end Words

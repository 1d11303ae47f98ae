import Qanat.General.Splice

namespace BlockStream

variable {σ α : Type} (f : σ → List α → σ) (n : Nat)

/-- Whole blocks of `n` entries are taken in order; what is left is shorter than a block. -/
def run (s : σ) (m : List α) : σ × List α :=
  if _ : 0 < n ∧ n ≤ m.length then run (f s (m.take n)) (m.drop n) else (s, m)
termination_by m.length
decreasing_by
  rw [List.length_drop]
  omega

/-- The first blocks of a text. -/
def blocks : Nat → σ → List α → σ
  | 0, s, _ => s
  | k + 1, s, m => blocks k (f s (m.take n)) (m.drop n)

variable {f n} {s : σ} {a b m : List α}

theorem run_short (h : m.length < n) : run f n s m = (s, m) := by
  rw [run, dif_neg (by omega)]

theorem run_block (hn : 0 < n) (h : b.length = n) : run f n s (b ++ m) = run f n (f s b) m := by
  rw [run, dif_pos ⟨hn, by rw [List.length_append]; omega⟩, ← h, List.take_left, List.drop_left]

theorem run_last (hn : 0 < n) (h : b.length = n) : run f n s b = (f s b, []) := by
  have hlast := @run_block σ α f n s b [] hn h
  have hnil : run f n (f s b) [] = (f s b, []) := run_short hn
  rwa [List.append_nil, hnil] at hlast

theorem run_append (hn : 0 < n) (s : σ) (a b : List α) :
    run f n s (a ++ b) = run f n (run f n s a).1 ((run f n s a).2 ++ b) := by
  induction hk : a.length using Nat.strong_induction_on generalizing s a with
  | _ k ih =>
    subst hk
    by_cases hshort : a.length < n
    · rw [run_short hshort]
    · have hsplit := List.take_append_drop n a
      have hlen : (a.take n).length = n := List.length_take_of_le (Nat.not_lt.mp hshort)
      rw [← hsplit, List.append_assoc, run_block hn hlen, run_block hn hlen]
      exact ih (a.drop n).length (by rw [List.length_drop]; omega) _ _ rfl

theorem length_run (hn : 0 < n) (s : σ) (m : List α) : (run f n s m).2.length = m.length % n := by
  induction hk : m.length using Nat.strong_induction_on generalizing s m with
  | _ k ih =>
    subst hk
    by_cases hshort : m.length < n
    · rw [run_short hshort, Nat.mod_eq_of_lt hshort]
    · rw [run, dif_pos ⟨hn, Nat.not_lt.mp hshort⟩, ih _ (by rw [List.length_drop]; omega) _ _ rfl, List.length_drop,
        Nat.mod_eq_sub_mod (Nat.not_lt.mp hshort)]

theorem run_blocks (hn : 0 < n) {k : Nat} (h : k * n ≤ m.length) :
    run f n s m = run f n (blocks f n k s m) (m.drop (k * n)) := by
  induction k generalizing s m with
  | zero => rw [Nat.zero_mul, List.drop_zero, blocks]
  | succ k ih =>
    have hle : n ≤ m.length := by
      rw [Nat.succ_mul] at h
      omega
    rw [run, dif_pos ⟨hn, hle⟩, blocks, @ih (f s (m.take n)) (m.drop n), List.drop_drop, Nat.succ_mul, Nat.add_comm n]
    rw [List.length_drop]
    rw [Nat.succ_mul] at h
    omega

/-- What the whole blocks of a text leave behind is shorter than a block. -/
theorem run_whole (hn : 0 < n) : run f n s m = (blocks f n (m.length / n) s m, m.drop (m.length / n * n)) := by
  rw [@run_blocks σ α f n s m hn (m.length / n) (Nat.div_mul_le_self _ _), run_short]
  rw [List.length_drop]
  have hdiv := Nat.div_add_mod m.length n
  have hmod := Nat.mod_lt m.length hn
  rw [Nat.mul_comm] at hdiv
  omega

/-- The whole blocks of a text are taken alone. -/
theorem run_take (hn : 0 < n) :
    run f n s m = ((run f n s (m.take (m.length / n * n))).1, m.drop (m.length / n * n)) := by
  have hle : m.length / n * n ≤ m.length := Nat.div_mul_le_self _ _
  have hnil : (run f n s (m.take (m.length / n * n))).2 = [] := by
    rw [← List.length_eq_zero_iff, length_run hn, List.length_take_of_le hle, Nat.mul_mod_left]
  have hshort : (m.drop (m.length / n * n)).length < n := by
    rw [List.length_drop, Nat.mul_comm, ← Nat.mod_eq_sub_mul_div]
    exact Nat.mod_lt _ hn
  have happend := @run_append _ _ f n hn s (m.take (m.length / n * n)) (m.drop (m.length / n * n))
  rwa [List.take_append_drop, hnil, List.nil_append, run_short hshort] at happend

section Chunks

/-- The blocks of a text, of which the last may be short. -/
def chunks (n : Nat) (m : List α) : List (List α) :=
  if _ : 0 < n ∧ m ≠ [] then m.take n :: chunks n (m.drop n) else []
termination_by m.length
decreasing_by
  rename_i h
  have hpos := List.length_pos_iff.mpr h.2
  rw [List.length_drop]
  omega

/-- The whole blocks of a text are taken in order, and what is left is its last, short block. -/
theorem run_chunks (hn : 0 < n) (s : σ) (m : List α) : ∃ whole, (∀ b ∈ whole, b.length = n) ∧
    (run f n s m).1 = whole.foldl f s ∧
      chunks n m = whole ++ if (run f n s m).2 = [] then [] else [(run f n s m).2] := by
  induction hk : m.length using Nat.strong_induction_on generalizing s m with
  | _ k ih =>
    subst hk
    by_cases hshort : m.length < n
    · refine ⟨[], fun b hb => absurd hb List.not_mem_nil, ?_, ?_⟩
      · rw [run_short hshort]
        rfl
      · rw [run_short hshort, List.nil_append, chunks]
        by_cases hnil : m = []
        · rw [dif_neg fun h => h.2 hnil, if_pos hnil]
        · rw [dif_pos ⟨hn, hnil⟩, if_neg hnil, List.take_of_length_le hshort.le, List.drop_of_length_le hshort.le,
            chunks, dif_neg fun h => h.2 rfl]
    · have hle := Nat.not_lt.mp hshort
      have hnil : m ≠ [] := fun h => by
        rw [h, List.length_nil] at hle
        omega
      obtain ⟨whole, hall, hfold, hchunks⟩ := ih (m.drop n).length (by rw [List.length_drop]; omega) (f s (m.take n))
        (m.drop n) rfl
      refine ⟨m.take n :: whole, ?_, ?_, ?_⟩
      · intro b hb
        obtain rfl | hb := List.mem_cons.mp hb
        · exact List.length_take_of_le hle
        · exact hall b hb
      · rw [run, dif_pos ⟨hn, hle⟩, hfold]
        rfl
      · rw [chunks, dif_pos ⟨hn, hnil⟩, hchunks, run.eq_1 f n s m, dif_pos ⟨hn, hle⟩]
        rfl

end Chunks

section Buffer

open Splice (splice)

/-- A value and a partly filled block that stand for a text from a first value on. -/
structure Holds (f : σ → List α → σ) (n : Nat) (iv : σ) (m : List α) (h : σ) (buf : List α) (cnt : Nat) : Prop where
  room : buf.length = n
  count : cnt < n
  taken : run f n iv m = (h, buf.take cnt)

theorem take_splice {i : Nat} (h : i ≤ b.length) : (splice b i a).take (i + a.length) = b.take i ++ a := by
  have hlen : (b.take i ++ a).length = i + a.length := by
    rw [List.length_append, List.length_take_of_le h]
  rw [splice, ← hlen, List.take_left]

theorem splice_end {i : Nat} (h : i + a.length = b.length) : splice b i a = b.take i ++ a := by
  rw [splice, h, List.drop_length, List.append_nil]

variable {iv h : σ} {buf d : List α} {cnt : Nat}

theorem Holds.start (hn : 0 < n) (hroom : buf.length = n) : Holds f n iv [] iv buf 0 :=
  ⟨hroom, hn, run_short hn⟩

theorem Holds.append (hh : Holds f n iv m h buf cnt) (d : List α) :
    run f n iv (m ++ d) = run f n h (buf.take cnt ++ d) := by
  rw [run_append (Nat.zero_lt_of_lt hh.count), hh.taken]

theorem Holds.count_eq (hh : Holds f n iv m h buf cnt) : cnt = m.length % n := by
  have hlen := @length_run _ _ f n (Nat.zero_lt_of_lt hh.count) iv m
  rwa [hh.taken, List.length_take_of_le (by rw [hh.room]; exact hh.count.le)] at hlen

/-- Some entries that do not complete the block. -/
theorem Holds.fill (hh : Holds f n iv m h buf cnt) (hd : cnt + d.length < n) :
    Holds f n iv (m ++ d) h (splice buf cnt d) (cnt + d.length) := by
  have hroom := hh.room
  have hcount := hh.count
  refine ⟨?_, hd, ?_⟩
  · rw [Splice.length_splice (by omega), hroom]
  · rw [hh.append, take_splice (by omega), run_short]
    rw [List.length_append, List.length_take_of_le (by omega)]
    exact hd

/-- The entries that complete the block. -/
theorem Holds.complete (hh : Holds f n iv m h buf cnt) (hd : cnt + d.length = n) :
    Holds f n iv (m ++ d) (f h (splice buf cnt d)) (splice buf cnt d) 0 := by
  have hroom := hh.room
  have hcount := hh.count
  have hsplice : splice buf cnt d = buf.take cnt ++ d := splice_end (by omega)
  refine ⟨?_, Nat.zero_lt_of_lt hcount, ?_⟩
  · rw [Splice.length_splice (by omega), hroom]
  · rw [hh.append, List.take_zero, hsplice, run_last (Nat.zero_lt_of_lt hcount)]
    rw [List.length_append, List.length_take_of_le (by omega)]
    exact hd

end Buffer

end BlockStream

import Qanat.Hpack
import Qanat.General.CanonicalCode

namespace Qanat

open CanonicalCode

/-- The code of the tables `huff_count` and `huff_first_code`. -/
def huffCode : Code where
  len := huffMaxLen
  count n := huffCount.getD n 0
  first n := huffFirstCode.getD n 0
  count_zero := rfl
  first_zero := rfl
  first_succ := by decide
  full := by decide

/-- The symbol of the word at a place of the code. -/
def huffSymAt (n off : Nat) : Nat :=
  huffSym.getD (huffFirstIndex.getD n 0 + off) 0

/-- The words of the code with their symbols, by length and place. -/
def huffTable : List (Nat × List Nat) :=
  (List.range (huffMaxLen + 1)).flatMap fun n =>
    (List.range (huffCount.getD n 0)).map fun off => (huffSymAt n off, huffCode.word n off)

/-- The word of a symbol. -/
def huffWord (sym : Nat) : List Nat :=
  (huffTable.lookup sym).getD []

theorem huffTable_keys : huffTable.map Prod.fst = huffSym := by
  decide +kernel

theorem testBit_mask (l : List Nat) (m i : Nat) :
    (l.foldl (fun m s => m ||| 2 ^ s) m).testBit i = (m.testBit i || decide (i ∈ l)) := by
  induction l generalizing m with
  | nil => simp
  | cons s l ih =>
    rw [List.foldl_cons, ih, Nat.testBit_or, Nat.testBit_two_pow, Bool.or_assoc, ← Bool.decide_or]
    simp only [List.mem_cons, eq_comm]

/-- As many numbers as there are below a bound, with a full mask, are those below it. -/
theorem perm_range_of_mask {l : List Nat} {n : Nat} (hlen : l.length = n)
    (hmask : (l.foldl (fun m s => m ||| 2 ^ s) 0 + 1).beq (2 ^ n) = true) : l.Perm (List.range n) := by
  have hmask := Nat.eq_sub_of_add_eq (Nat.eq_of_beq_eq_true hmask)
  have hsub : ∀ s ∈ List.range n, s ∈ l := by
    intro s hs
    have hbit := testBit_mask l 0 s
    rw [hmask, Nat.testBit_two_pow_sub_one, Nat.zero_testBit, Bool.false_or] at hbit
    exact of_decide_eq_true (hbit.symm.trans (decide_eq_true (List.mem_range.mp hs)))
  exact ((List.nodup_range.subperm hsub).perm_of_length_le (by rw [hlen, List.length_range])).symm

/-- The table of symbols holds each of them once. -/
theorem huffSym_perm : huffSym.Perm (List.range (huffEos + 1)) :=
  perm_range_of_mask (by decide +kernel) (by decide +kernel)

theorem huffSym_nodup : huffSym.Nodup :=
  huffSym_perm.nodup_iff.mpr List.nodup_range

theorem mem_huffSym {sym : Nat} : sym ∈ huffSym ↔ sym ≤ huffEos := by
  rw [huffSym_perm.mem_iff, List.mem_range, Nat.lt_succ_iff]

theorem lookup_of_mem {α β : Type*} [DecidableEq α] {l : List (α × β)} {a : α} {b : β}
    (hn : (l.map Prod.fst).Nodup) (h : (a, b) ∈ l) : l.lookup a = some b := by
  obtain ⟨l₁, l₂, rfl⟩ := List.append_of_mem h
  refine List.lookup_eq_some_iff.mpr ⟨l₁, l₂, rfl, fun p hp => ?_⟩
  rw [List.map_append, List.map_cons, List.nodup_append] at hn
  exact bne_iff_ne.mpr fun heq => hn.2.2 p.1 (List.mem_map_of_mem hp) a List.mem_cons_self heq.symm

theorem mem_huffTable {sym : Nat} {w : List Nat} : (sym, w) ∈ huffTable ↔
    ∃ n off, n ≤ huffMaxLen ∧ off < huffCount.getD n 0 ∧ sym = huffSymAt n off ∧ w = huffCode.word n off := by
  unfold huffTable
  simp only [List.mem_flatMap, List.mem_range, List.mem_map, Prod.mk.injEq]
  constructor
  · rintro ⟨n, hn, off, hoff, rfl, rfl⟩
    exact ⟨n, off, Nat.le_of_lt_succ hn, hoff, rfl, rfl⟩
  · rintro ⟨n, off, hn, hoff, rfl, rfl⟩
    exact ⟨n, Nat.lt_succ_of_le hn, off, hoff, rfl, rfl⟩

/-- The word of a symbol is the one of its place. -/
theorem huffWord_symAt {n off : Nat} (hn : n ≤ huffMaxLen) (hoff : off < huffCount.getD n 0) :
    huffWord (huffSymAt n off) = huffCode.word n off := by
  have hnodup : (huffTable.map Prod.fst).Nodup := by
    rw [huffTable_keys]
    exact huffSym_nodup
  rw [huffWord, lookup_of_mem hnodup (mem_huffTable.mpr ⟨n, off, hn, hoff, rfl, rfl⟩)]
  rfl

theorem huffSymAt_of_le {sym : Nat} (h : sym ≤ huffEos) :
    ∃ n off, n ≤ huffMaxLen ∧ off < huffCount.getD n 0 ∧ sym = huffSymAt n off := by
  have hmem := mem_huffSym.mpr h
  rw [← huffTable_keys] at hmem
  obtain ⟨⟨s, w⟩, hw, rfl⟩ := List.mem_map.mp hmem
  obtain ⟨n, off, hn, hoff, hsym, -⟩ := mem_huffTable.mp hw
  exact ⟨n, off, hn, hoff, hsym⟩

theorem huffSymAt_le {n off : Nat} (hn : n ≤ huffMaxLen) (hoff : off < huffCount.getD n 0) :
    huffSymAt n off ≤ huffEos := by
  rw [← mem_huffSym, ← huffTable_keys]
  exact @List.mem_map_of_mem _ _ _ _ Prod.fst (mem_huffTable.mpr ⟨n, off, hn, hoff, rfl, rfl⟩)

/-- The symbol of a word. -/
def huffSymOf (w : List Nat) : Nat :=
  huffSymAt w.length (value w - huffCode.first w.length)

theorem huffWord_word {sym : Nat} (h : sym ≤ huffEos) : huffCode.Word (huffWord sym) := by
  obtain ⟨n, off, hn, hoff, rfl⟩ := huffSymAt_of_le h
  rw [huffWord_symAt hn hoff]
  exact Code.word_word hn hoff

theorem huffSymOf_huffWord {sym : Nat} (h : sym ≤ huffEos) : huffSymOf (huffWord sym) = sym := by
  obtain ⟨n, off, hn, hoff, rfl⟩ := huffSymAt_of_le h
  have hval : value (huffCode.word n off) = huffCode.first n + off := Code.value_word hn hoff
  have hlen : (huffCode.word n off).length = n := length_bits n _
  rw [huffWord_symAt hn hoff, huffSymOf, hlen, hval, Nat.add_sub_cancel_left]

theorem huffSymOf_le {w : List Nat} (h : huffCode.Word w) : huffSymOf w ≤ huffEos :=
  huffSymAt_le h.length_le (Nat.sub_lt_left_of_lt_add h.first_le h.lt_last)

theorem huffWord_huffSymOf {w : List Nat} (h : huffCode.Word w) : huffWord (huffSymOf w) = w := by
  rw [huffSymOf, huffWord_symAt h.length_le (Nat.sub_lt_left_of_lt_add h.first_le h.lt_last)]
  exact h.eq_word.symm

/-- No word of a symbol begins with that of another. -/
theorem huffWord_prefix {a b : Nat} (ha : a ≤ huffEos) (hb : b ≤ huffEos) (h : huffWord a <+: huffWord b) : a = b := by
  have heq := Code.prefix_free (huffWord_word ha) (huffWord_word hb) h
  rw [← huffSymOf_huffWord ha, heq, huffSymOf_huffWord hb]

/-- Every long enough row of bits begins with the word of a symbol. -/
theorem huffWord_complete {w : List Nat} (hw : Binary w) (hlen : huffMaxLen ≤ w.length) :
    ∃ sym ≤ huffEos, huffWord sym <+: w := by
  obtain ⟨u, hu, hpre⟩ := @Code.complete huffCode w hw hlen
  refine ⟨huffSymOf u, huffSymOf_le hu, ?_⟩
  rwa [huffWord_huffSymOf hu]

end Qanat

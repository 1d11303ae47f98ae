import Mathlib.Algebra.Order.Ring.Nat
import Mathlib.Data.List.Infix
import Mathlib.Tactic.Ring

namespace CanonicalCode

/-- The `n` low bits of a number, the highest first. -/
def bits : Nat → Nat → List Nat
  | 0, _ => []
  | n + 1, v => bits n (v / 2) ++ [v % 2]

def value (w : List Nat) : Nat :=
  w.foldl (fun v b => v * 2 + b) 0

def Binary (w : List Nat) : Prop :=
  ∀ b ∈ w, b < 2

theorem value_snoc (w : List Nat) (b : Nat) : value (w ++ [b]) = value w * 2 + b := by
  rw [value, List.foldl_append]
  rfl

theorem binary_nil : Binary [] := fun _ h => absurd h List.not_mem_nil

theorem binary_append {u w : List Nat} : Binary (u ++ w) ↔ Binary u ∧ Binary w :=
  List.forall_mem_append

theorem binary_snoc {w : List Nat} {b : Nat} : Binary (w ++ [b]) ↔ Binary w ∧ b < 2 := by
  rw [binary_append]
  exact and_congr_right fun _ => List.forall_mem_singleton

theorem length_bits (n v : Nat) : (bits n v).length = n := by
  induction n generalizing v with
  | zero => rfl
  | succ n ih => rw [bits, List.length_append, ih]; rfl

theorem binary_bits (n v : Nat) : Binary (bits n v) := by
  induction n generalizing v with
  | zero => exact binary_nil
  | succ n ih => exact binary_snoc.mpr ⟨ih _, Nat.mod_lt _ (by omega)⟩

theorem value_bits {n v : Nat} (h : v < 2 ^ n) : value (bits n v) = v := by
  induction n generalizing v with
  | zero =>
    rw [Nat.pow_zero] at h
    rw [show v = 0 by omega]
    rfl
  | succ n ih =>
    rw [bits, value_snoc, ih (by rw [Nat.pow_succ] at h; omega)]
    omega

theorem bits_value {w : List Nat} (h : Binary w) : bits w.length (value w) = w := by
  induction w using List.reverseRecOn with
  | nil => rfl
  | append_singleton w b ih =>
    obtain ⟨hw, hb⟩ := binary_snoc.mp h
    rw [List.length_append, List.length_singleton, bits, value_snoc, show (value w * 2 + b) / 2 = value w by omega,
      show (value w * 2 + b) % 2 = b by omega, ih hw]

theorem value_lt {w : List Nat} (h : Binary w) : value w < 2 ^ w.length := by
  induction w using List.reverseRecOn with
  | nil => exact Nat.one_pos
  | append_singleton w b ih =>
    obtain ⟨hw, hb⟩ := binary_snoc.mp h
    have := ih hw
    rw [List.length_append, List.length_singleton, value_snoc, Nat.pow_succ]
    omega

theorem value_inj {u w : List Nat} (hu : Binary u) (hw : Binary w) (hlen : u.length = w.length)
    (h : value u = value w) : u = w := by
  rw [← bits_value hu, ← bits_value hw, hlen, h]

theorem value_ones (k : Nat) : value (List.replicate k 1) = 2 ^ k - 1 := by
  induction k with
  | zero => rfl
  | succ k ih =>
    have := Nat.two_pow_pos k
    rw [List.replicate_succ', value_snoc, ih, Nat.pow_succ]
    omega

theorem binary_ones (k : Nat) : Binary (List.replicate k 1) := by
  intro b hb
  rw [List.eq_of_mem_replicate hb]
  omega

/-- A code in canonical form: how many words there are of each length, and the first of each length, which follows
from those before it; the longest words fill up the space. -/
structure Code where
  len : Nat
  count : Nat → Nat
  first : Nat → Nat
  count_zero : count 0 = 0
  first_zero : first 0 = 0
  first_succ : ∀ n < len, first (n + 1) = 2 * (first n + count n)
  full : first len + count len = 2 ^ len

variable {c : Code} {u w t : List Nat} {b : Nat}

/-- The words of a length fit below it. -/
theorem Code.last_le {n k : Nat} (h : n + k = c.len) : c.first n + c.count n ≤ 2 ^ n := by
  induction k generalizing n with
  | zero =>
    obtain rfl : n = c.len := h
    exact c.full.le
  | succ k ih =>
    have hnext := @ih (n + 1) (by omega)
    rw [c.first_succ n (by omega), Nat.pow_succ] at hnext
    omega

structure Code.Word (c : Code) (w : List Nat) : Prop where
  binary : Binary w
  length_le : w.length ≤ c.len
  first_le : c.first w.length ≤ value w
  lt_last : value w < c.first w.length + c.count w.length

/-- A word by its length and its place among those of that length. -/
def Code.word (c : Code) (n off : Nat) : List Nat :=
  bits n (c.first n + off)

theorem Code.value_word {n off : Nat} (hn : n ≤ c.len) (hoff : off < c.count n) :
    value (c.word n off) = c.first n + off := by
  have := c.last_le (Nat.add_sub_cancel' hn)
  exact value_bits (by omega)

theorem Code.word_word {n off : Nat} (hn : n ≤ c.len) (hoff : off < c.count n) : c.Word (c.word n off) := by
  have hval := Code.value_word hn hoff
  have hlen : (c.word n off).length = n := length_bits n _
  exact ⟨binary_bits n _, by rw [hlen]; exact hn, by rw [hlen]; omega, by rw [hlen]; omega⟩

theorem Code.Word.eq_word (h : c.Word w) : w = c.word w.length (value w - c.first w.length) := by
  rw [Code.word, Nat.add_sub_cancel' h.first_le, bits_value h.binary]

/-- Some bits that no word begins or ends in. -/
structure Code.Inner (c : Code) (w : List Nat) : Prop where
  binary : Binary w
  length_le : w.length ≤ c.len
  last_le : c.first w.length + c.count w.length ≤ value w

theorem Code.inner_nil (c : Code) : c.Inner [] where
  binary := binary_nil
  length_le := Nat.zero_le _
  last_le := by
    rw [List.length_nil, c.first_zero, c.count_zero]
    exact Nat.le_refl 0

theorem Code.Inner.not_word (h : c.Inner w) : ¬c.Word w :=
  fun hw => Nat.not_lt.mpr h.last_le hw.lt_last

theorem Code.Inner.length_lt (h : c.Inner w) : w.length < c.len := by
  rcases Nat.lt_or_eq_of_le h.length_le with hlt | heq
  · exact hlt
  · have hle := h.last_le
    have hlt := value_lt h.binary
    rw [heq, c.full] at hle
    rw [heq] at hlt
    omega

/-- One more bit either ends a word, or does not. -/
theorem Code.Inner.snoc (h : c.Inner w) (hb : b < 2) : c.Inner (w ++ [b]) ∨ c.Word (w ++ [b]) := by
  have hbin := binary_snoc.mpr ⟨h.binary, hb⟩
  have hlen : (w ++ [b]).length = w.length + 1 := List.length_append
  have hfirst := c.first_succ w.length h.length_lt
  have hlast := h.last_le
  have hval := value_snoc w b
  by_cases hword : value (w ++ [b]) < c.first (w.length + 1) + c.count (w.length + 1)
  · exact .inr ⟨hbin, hlen ▸ h.length_lt, by rw [hlen]; omega, by rw [hlen]; exact hword⟩
  · exact .inl ⟨hbin, hlen ▸ h.length_lt, by rw [hlen]; omega⟩

theorem Code.inner_of_first_le (hbin : Binary (w ++ [b])) (hlen : (w ++ [b]).length ≤ c.len)
    (h : c.first (w ++ [b]).length ≤ value (w ++ [b])) : c.Inner w := by
  rw [List.length_append, List.length_singleton] at hlen h
  have hfirst := c.first_succ w.length (by omega)
  have hb := (binary_snoc.mp hbin).2
  rw [value_snoc] at h
  exact ⟨(binary_snoc.mp hbin).1, by omega, by omega⟩

theorem Code.Word.init (h : c.Word (w ++ [b])) : c.Inner w :=
  Code.inner_of_first_le h.binary h.length_le h.first_le

theorem Code.Inner.init (h : c.Inner (w ++ [b])) : c.Inner w :=
  Code.inner_of_first_le h.binary h.length_le ((Nat.le_add_right _ _).trans h.last_le)

theorem Code.Inner.left (h : c.Inner (u ++ t)) : c.Inner u := by
  induction t using List.reverseRecOn with
  | nil => rwa [List.append_nil] at h
  | append_singleton t b ih =>
    rw [← List.append_assoc] at h
    exact ih h.init

theorem Code.Word.left (h : c.Word (u ++ t)) (ht : t ≠ []) : c.Inner u := by
  obtain ⟨t, b, rfl⟩ := (List.eq_nil_or_concat t).resolve_left ht
  rw [List.concat_eq_append, ← List.append_assoc] at h
  exact h.init.left

/-- No word begins with another. -/
theorem Code.prefix_free (hu : c.Word u) (hw : c.Word w) (h : u <+: w) : u = w := by
  obtain ⟨t, rfl⟩ := h
  by_cases ht : t = []
  · rw [ht, List.append_nil]
  · exact absurd hu (hw.left ht).not_word

theorem Code.Inner.not_prefix (hw : c.Inner w) (hu : c.Word u) : ¬u <+: w := by
  rintro ⟨t, rfl⟩
  exact hw.left.not_word hu

/-- Whatever is long enough begins with a word. -/
theorem Code.complete (hw : Binary w) (hlen : c.len ≤ w.length) : ∃ u, c.Word u ∧ u <+: w := by
  have hsplit : ∀ v t, w = v ++ t → c.Inner v → ∃ u, c.Word u ∧ u <+: w := by
    intro v t
    induction t generalizing v with
    | nil =>
      rintro rfl hv
      have := hv.length_lt
      rw [List.append_nil] at hlen
      omega
    | cons b t ih =>
      intro heq hv
      have heq' : w = (v ++ [b]) ++ t := by rw [heq, List.append_assoc]; rfl
      have hb : b < 2 := hw b (by rw [heq]; exact List.mem_append_right _ List.mem_cons_self)
      rcases hv.snoc hb with hinner | hword
      · exact ih (v ++ [b]) heq' hinner
      · exact ⟨v ++ [b], hword, t, heq'.symm⟩
  exact hsplit [] w rfl c.inner_nil

/-- Bits fall into words, and some left over, in one way only. -/
theorem Code.unique_split {us ws : List (List Nat)} {v z : List Nat} (hu : ∀ x ∈ us, c.Word x) (hv : c.Inner v)
    (hw : ∀ x ∈ ws, c.Word x) (hz : c.Inner z) (h : us.flatten ++ v = ws.flatten ++ z) : us = ws ∧ v = z := by
  induction us generalizing ws with
  | nil =>
    cases ws with
    | nil => exact ⟨rfl, h⟩
    | cons x ws =>
      refine absurd ⟨ws.flatten ++ z, ?_⟩ (hv.not_prefix (hw x List.mem_cons_self))
      rw [← List.append_assoc]
      exact h.symm
  | cons x us ih =>
    have hx := hu x List.mem_cons_self
    cases ws with
    | nil =>
      refine absurd ⟨us.flatten ++ v, ?_⟩ (hz.not_prefix hx)
      rw [← List.append_assoc]
      exact h
    | cons y ws =>
      have hy := hw y List.mem_cons_self
      rw [List.flatten_cons, List.flatten_cons, List.append_assoc, List.append_assoc] at h
      have hxy : x = y := by
        rcases List.prefix_or_prefix_of_prefix ⟨_, h⟩ (List.prefix_append y _) with hp | hp
        · exact Code.prefix_free hx hy hp
        · exact (Code.prefix_free hy hx hp).symm
      subst hxy
      obtain ⟨rfl, hvz⟩ := ih (fun a ha => hu a (List.mem_cons_of_mem x ha))
        (fun a ha => hw a (List.mem_cons_of_mem x ha)) (List.append_cancel_left h)
      exact ⟨rfl, hvz⟩

end CanonicalCode

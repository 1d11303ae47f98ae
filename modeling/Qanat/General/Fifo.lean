import Mathlib.Data.List.Basic
import Mathlib.Data.List.Range

/-- The reading operations of a queue. -/
structure Fifo (ρ α : Type) where
  count : ρ → Nat
  peek : ρ → Nat → α
  pop : ρ → α × ρ

namespace Fifo

variable {ρ α : Type}

/-- A list is a queue. -/
def ofList [Inhabited α] : Fifo (List α) α where
  count := List.length
  peek l i := l.getD i default
  pop l := (l.headD default, l.tail)

/-- Takes `n` elements away. -/
def drop (Q : Fifo ρ α) : Nat → ρ → ρ
  | 0, r => r
  | n + 1, r => Q.drop n (Q.pop r).2

/-- The operations read the list of contents. -/
structure Reads (Q : Fifo ρ α) (contents : ρ → List α) : Prop where
  count : ∀ r, Q.count r = (contents r).length
  peek : ∀ r i, i < (contents r).length → (contents r)[i]? = some (Q.peek r i)
  pop : ∀ r a t, contents r = a :: t → (Q.pop r).1 = a ∧ contents (Q.pop r).2 = t

variable {Q : Fifo ρ α} {contents : ρ → List α} {r : ρ}

theorem Reads.count_eq_zero (h : Q.Reads contents) : Q.count r = 0 ↔ contents r = [] := by
  rw [h.count, List.length_eq_zero_iff]

theorem Reads.peek_getD [Inhabited α] (h : Q.Reads contents) {i : Nat} (hi : i < Q.count r) :
    Q.peek r i = (contents r).getD i default := by
  rw [h.count] at hi
  rw [List.getD_eq_getElem?_getD, h.peek r i hi, Option.getD_some]

theorem Reads.drop (h : Q.Reads contents) {n : Nat} (hn : n ≤ (contents r).length) :
    contents (Q.drop n r) = (contents r).drop n := by
  induction n generalizing r with
  | zero => rfl
  | succ n ih =>
    cases hc : contents r with
    | nil =>
      rw [hc] at hn
      exact absurd hn (Nat.not_succ_le_zero n)
    | cons a t =>
      obtain ⟨-, ht⟩ := h.pop r a t hc
      rw [hc, List.length_cons] at hn
      rw [Fifo.drop, ih (by rw [ht]; omega), ht, List.drop_succ_cons]

end Fifo

namespace Circular

variable {α : Type} {cap : Nat}

/-- The `n` elements of a circular buffer from its head on. -/
def contents (v : Vector α cap) (hcap : 0 < cap) (head n : Nat) : List α :=
  (List.range n).map fun i => v.get ⟨(head + i) % cap, Nat.mod_lt _ hcap⟩

/-- Writes elements from a position on, around the end. -/
def write : List α → Nat → Vector α cap → Vector α cap
  | [], _, v => v
  | a :: t, tail, v => write t ((tail + 1) % cap) (v.setIfInBounds tail a)

variable (v : Vector α cap) (hcap : 0 < cap) (head n : Nat)

theorem length_contents : (contents v hcap head n).length = n := by
  rw [contents, List.length_map, List.length_range]

theorem contents_getElem? {i : Nat} (h : i < n) :
    (contents v hcap head n)[i]? = some (v.get ⟨(head + i) % cap, Nat.mod_lt _ hcap⟩) := by
  rw [contents, List.getElem?_map, List.getElem?_range h]
  rfl

/-- The head stands first, and the rest is what follows it. -/
theorem contents_succ :
    contents v hcap head (n + 1) =
      v.get ⟨head % cap, Nat.mod_lt _ hcap⟩ :: contents v hcap ((head + 1) % cap) n := by
  unfold contents
  rw [List.range_succ_eq_map, List.map_cons, List.map_map]
  congr 1
  refine List.map_congr_left fun i _ => congrArg v.get (Fin.ext ?_)
  change (head + (i + 1)) % cap = ((head + 1) % cap + i) % cap
  rw [Nat.mod_add_mod]
  congr 1
  omega

/-- Writing behind the last element appends, while there is room. -/
theorem contents_set (a : α) (h : n < cap) :
    contents (v.setIfInBounds ((head + n) % cap) a) hcap head (n + 1) = contents v hcap head n ++ [a] := by
  have hbound : (head + n) % cap < cap := Nat.mod_lt _ hcap
  unfold contents
  rw [List.range_succ, List.map_append, List.map_singleton]
  congr 1
  · refine List.map_congr_left fun i hi => ?_
    have hi := List.mem_range.mp hi
    have hne : (head + n) % cap ≠ (head + i) % cap := by
      intro he
      have hsub := Nat.sub_mod_eq_zero_of_mod_eq he
      rw [show head + n - (head + i) = n - i by omega, Nat.mod_eq_of_lt (by omega)] at hsub
      omega
    exact Vector.getElem_setIfInBounds_ne _ hne
  · exact congrArg (· :: []) (Vector.getElem_setIfInBounds_self _)

theorem contents_write (as : List α) (h : n + as.length ≤ cap) :
    contents (write as ((head + n) % cap) v) hcap head (n + as.length) = contents v hcap head n ++ as := by
  induction as generalizing v n with
  | nil => rw [write, List.length_nil, List.append_nil, Nat.add_zero]
  | cons a t ih =>
    rw [List.length_cons] at h
    have hnext : ((head + n) % cap + 1) % cap = (head + (n + 1)) % cap := by
      rw [Nat.mod_add_mod]
      rfl
    rw [write, hnext, List.length_cons, show n + (t.length + 1) = n + 1 + t.length by omega, ih _ _ (by omega),
      contents_set v hcap head n a (by omega), List.append_assoc, List.singleton_append]

end Circular

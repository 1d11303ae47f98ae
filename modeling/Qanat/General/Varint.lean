import Mathlib.Algebra.Order.Ring.Nat
import Mathlib.Tactic.Ring

namespace Varint

/-- The bytes of one number: seven bits in each, with the high bit on all but the last. -/
inductive Groups : List UInt8 → Prop
  | last {c : UInt8} : c.toNat < 128 → Groups [c]
  | more {c : UInt8} {l : List UInt8} : 128 ≤ c.toNat → Groups l → Groups (c :: l)

/-- The number they stand for, the lowest bits first. -/
def value : List UInt8 → Nat
  | [] => 0
  | c :: l => c.toNat % 128 + 128 * value l

def groups (n : Nat) : List UInt8 :=
  if n < 128 then [UInt8.ofNat n] else UInt8.ofNat (n % 128 + 128) :: groups (n / 128)
termination_by n
decreasing_by omega

theorem groups_small {n : Nat} (h : n < 128) : groups n = [UInt8.ofNat n] := by
  rw [groups, if_pos h]

theorem groups_large {n : Nat} (h : 128 ≤ n) :
    groups n = UInt8.ofNat (n % 128 + 128) :: groups (n / 128) := by
  rw [groups, if_neg (Nat.not_lt.mpr h)]

theorem toNat_ofNat {n : Nat} (h : n < 256) : (UInt8.ofNat n).toNat = n := by
  rw [UInt8.toNat_ofNat']
  exact Nat.mod_eq_of_lt h

theorem groups_spec (n : Nat) : Groups (groups n) ∧ value (groups n) = n := by
  induction n using Nat.strongRecOn with
  | ind n ih =>
    rcases Nat.lt_or_ge n 128 with h | h
    · have hc := toNat_ofNat (show n < 256 by omega)
      rw [groups_small h]
      refine ⟨.last (by omega), ?_⟩
      simp only [value, hc]
      omega
    · obtain ⟨hgroups, hvalue⟩ := ih (n / 128) (by omega)
      have hc := toNat_ofNat (show n % 128 + 128 < 256 by omega)
      rw [groups_large h]
      refine ⟨.more (by omega) hgroups, ?_⟩
      simp only [value, hc, hvalue]
      omega

theorem length_groups_le {n k : Nat} (h : n < 128 ^ (k + 1)) : (groups n).length ≤ k + 1 := by
  induction k generalizing n with
  | zero =>
    rw [groups_small (by simpa using h)]
    exact Nat.le_refl 1
  | succ k ih =>
    rcases Nat.lt_or_ge n 128 with hn | hn
    · rw [groups_small hn]
      exact Nat.le_add_left 1 _
    · rw [groups_large hn, List.length_cons]
      have := @ih (n / 128) (Nat.div_lt_of_lt_mul (by rw [← Nat.pow_succ']; exact h))
      omega

/-- Every list of bytes ends within a number, or begins with one. -/
theorem groups_or_open (l : List UInt8) :
    (∀ c ∈ l, 128 ≤ c.toNat) ∨ ∃ g r, l = g ++ r ∧ Groups g := by
  induction l with
  | nil => exact .inl fun c hc => absurd hc List.not_mem_nil
  | cons c l ih =>
    rcases Nat.lt_or_ge c.toNat 128 with hc | hc
    · exact .inr ⟨[c], l, rfl, .last hc⟩
    · rcases ih with hopen | ⟨g, r, rfl, hg⟩
      · exact .inl (List.forall_mem_cons.mpr ⟨hc, hopen⟩)
      · exact .inr ⟨c :: g, r, rfl, .more hc hg⟩

theorem Groups.ne_nil {g : List UInt8} (h : Groups g) : g ≠ [] := by
  cases h <;> exact List.cons_ne_nil _ _

theorem Groups.not_open {g r : List UInt8} (h : Groups g) : ¬∀ c ∈ g ++ r, 128 ≤ c.toNat := by
  induction h with
  | last hc =>
    intro hall
    have := hall _ List.mem_cons_self
    omega
  | more _ _ ih => exact fun hall => ih fun c hc => hall c (List.mem_cons_of_mem _ hc)

/-- A number begins a list of bytes in one way only. -/
theorem Groups.unique {g r g' r' : List UInt8} (h : Groups g) (h' : Groups g') (heq : g ++ r = g' ++ r') :
    g = g' ∧ r = r' := by
  induction h generalizing g' with
  | last hc =>
    cases h' with
    | last hd =>
      obtain ⟨rfl, hr⟩ := List.cons.inj heq
      exact ⟨rfl, hr⟩
    | more hd _ =>
      obtain ⟨rfl, -⟩ := List.cons.inj heq
      omega
  | more hc _ ih =>
    cases h' with
    | last hd =>
      obtain ⟨rfl, -⟩ := List.cons.inj heq
      omega
    | more hd hg =>
      obtain ⟨rfl, htail⟩ := List.cons.inj heq
      obtain ⟨rfl, hr⟩ := ih hg htail
      exact ⟨rfl, hr⟩

end Varint

import Mathlib.Logic.Function.Basic
import Mathlib.Data.Nat.Bitwise

namespace Feistel

section Network

variable {α κ : Type*} (op : α → α → α) (mix : κ → α → α)

/-- One keyed round: the halves change places and the old left half is masked. -/
def round (x : α × α) (k : κ) : α × α :=
  (x.2, op x.1 (mix k x.2))

def network (keys : List κ) (x : α × α) : α × α :=
  keys.foldl (round op mix) x

variable {op mix}

theorem round_injective (cancel : ∀ a b, op (op a b) b = a) (k : κ) :
    Function.Injective fun x => round op mix x k := by
  rintro ⟨l, r⟩ ⟨l', r'⟩ h
  obtain ⟨rfl, hl⟩ := Prod.mk.inj h
  have : l = l' := by rw [← cancel l (mix k r), ← cancel l' (mix k r)]; exact congrArg (op · _) hl
  rw [this]

/-- The network loses nothing, whatever the round function is. -/
theorem network_injective (cancel : ∀ a b, op (op a b) b = a) (keys : List κ) :
    Function.Injective (network op mix keys) := by
  induction keys with
  | nil => exact fun _ _ h => h
  | cons k keys ih =>
    intro x y h
    exact round_injective cancel k (ih h)

theorem network_mem {s : Set α} (closed : ∀ a ∈ s, ∀ k, ∀ b ∈ s, op a (mix k b) ∈ s)
    (keys : List κ) {l r : α} (hl : l ∈ s) (hr : r ∈ s) :
    (network op mix keys (l, r)).1 ∈ s ∧ (network op mix keys (l, r)).2 ∈ s := by
  induction keys generalizing l r with
  | nil => exact ⟨hl, hr⟩
  | cons k keys ih => exact ih hr (closed _ hl k _ hr)

end Network

section Halves

variable {h l r : Nat}

theorem join_div (hr : r < 2 ^ h) : (l <<< h ||| r) >>> h = l := by
  rw [← Nat.shiftLeft_add_eq_or_of_lt hr, Nat.shiftLeft_eq, Nat.shiftRight_eq_div_pow,
    Nat.mul_comm, Nat.mul_add_div (Nat.two_pow_pos h), Nat.div_eq_of_lt hr, Nat.add_zero]

theorem join_mod (hr : r < 2 ^ h) : (l <<< h ||| r) % 2 ^ h = r := by
  rw [← Nat.shiftLeft_add_eq_or_of_lt hr, Nat.shiftLeft_eq, Nat.mul_comm, Nat.mul_add_mod,
    Nat.mod_eq_of_lt hr]

theorem join_lt (hl : l < 2 ^ h) (hr : r < 2 ^ h) : l <<< h ||| r < 2 ^ (2 * h) := by
  rw [← Nat.shiftLeft_add_eq_or_of_lt hr, Nat.shiftLeft_eq, Nat.two_mul, Nat.pow_add]
  calc l * 2 ^ h + r < l * 2 ^ h + 2 ^ h := by omega
    _ = (l + 1) * 2 ^ h := by rw [Nat.add_mul, Nat.one_mul]
    _ ≤ 2 ^ h * 2 ^ h := Nat.mul_le_mul_right _ hl

theorem split_join (x : Nat) : (x >>> h) <<< h ||| x % 2 ^ h = x := by
  rw [← Nat.shiftLeft_add_eq_or_of_lt (Nat.mod_lt _ (Nat.two_pow_pos h)), Nat.shiftLeft_eq,
    Nat.shiftRight_eq_div_pow, Nat.mul_comm, Nat.div_add_mod]

end Halves

end Feistel

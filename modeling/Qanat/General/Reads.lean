import Mathlib.Data.List.Basic

namespace Reads

/-- A number of two bytes, the high one first. -/
def be16 (hi lo : UInt8) : Nat :=
  hi.toNat * 256 + lo.toNat

/-- A number of three bytes. -/
def be24 (a b c : UInt8) : Nat :=
  a.toNat * 65536 + be16 b c

/-- A number of four bytes. -/
def be32 (a b c d : UInt8) : Nat :=
  a.toNat * 16777216 + be24 b c d

/-- What holds of 256 numbers holds of every byte. -/
theorem forall_byte {P : UInt8 → Prop} (h : ∀ n : Fin 256, P (UInt8.ofNat n)) (c : UInt8) : P c := by
  have := h ⟨c.toNat, c.toNat_lt⟩
  rwa [show UInt8.ofNat (⟨c.toNat, c.toNat_lt⟩ : Fin 256) = c from UInt8.ofNat_toNat] at this

variable {α β : Type}

theorem behind (pre rest : List α) (k : Nat) : (pre ++ rest)[pre.length + k]? = rest[k]? := by
  rw [List.getElem?_append_right (Nat.le_add_right _ _), Nat.add_sub_cancel_left]

theorem behind_zero (pre rest : List α) : (pre ++ rest)[pre.length]? = rest[0]? :=
  behind pre rest 0

/-- A read that is inside its input gives way to what follows it. -/
theorem bind_of_some {o : Option α} {a : α} (h : o = some a) (f : α → Option β) : (o >>= f) = f a := by
  rw [h]
  rfl

theorem isSome_of_lt {b : List α} {i : Nat} (h : i < b.length) : ∃ c, b[i]? = some c :=
  ⟨_, List.getElem?_eq_getElem h⟩

theorem lt_of_some {b : List α} {i : Nat} {c : α} (h : b[i]? = some c) : i < b.length :=
  (List.getElem?_eq_some_iff.mp h).1

end Reads

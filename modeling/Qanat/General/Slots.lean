import Mathlib.Data.List.Basic

namespace Slots

variable {α : Type} (key : α → Nat)

/-- The entry a key has in a small table. -/
def find (k : Nat) (l : List α) : Option α :=
  l.find? fun a => key a = k

/-- A change of the first entry with a key, or of a fresh one where the table of `room` entries has none. -/
def alter (fresh : α) (f : α → α) (k : Nat) : Nat → List α → Option (List α)
  | 0, [] => none
  | _ + 1, [] => some [f fresh]
  | room, a :: l => if key a = k then some (f a :: l) else (alter fresh f k (room - 1) l).map (a :: ·)

end Slots

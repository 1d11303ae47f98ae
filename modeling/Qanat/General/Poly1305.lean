import Qanat.General.BlockStream
import Qanat.General.Limbs
import Mathlib.Data.List.Induction

namespace Poly1305

open Limbs (leValue leBytes)
open BlockStream (chunks)

/-- The prime of RFC 8439. -/
def prime : Nat :=
  2 ^ 130 - 5

/-- The bits of the multiplier that are kept. -/
def clamp (r : Nat) : Nat :=
  r &&& 0x0ffffffc0ffffffc0ffffffc0fffffff

/-- A block of a message with a bit behind it. -/
def blockValue (b : List UInt8) : Nat :=
  leValue b + 2 ^ (8 * b.length)

/-- The sum of the coefficients, each with its power of `r`; the last one has the first power. -/
def weigh (r : Nat) : List Nat → Nat
  | [] => 0
  | c :: cs => c * r ^ (cs.length + 1) + weigh r cs

/-- The tag of a message under a key of 32 bytes. -/
def tag (key m : List UInt8) : List UInt8 :=
  leBytes 16 ((weigh (clamp (leValue (key.take 16))) ((chunks 16 m).map blockValue) % prime +
    leValue ((key.drop 16).take 16)) % 2 ^ 128)

theorem weigh_append (r : Nat) (cs : List Nat) (c : Nat) : weigh r (cs ++ [c]) = (weigh r cs + c) * r := by
  induction cs with
  | nil =>
    change c * r ^ 1 + 0 = (0 + c) * r
    ring
  | cons d cs ih =>
    rw [List.cons_append, weigh, weigh, ih, List.length_append, List.length_singleton]
    ring

/-- The sum is computed with one multiplication for each coefficient. -/
theorem foldl_weigh (r : Nat) (cs : List Nat) : cs.foldl (fun a c => (a + c) * r) 0 = weigh r cs := by
  induction cs using List.reverseRecOn with
  | nil => rfl
  | append_singleton cs c ih => rw [List.foldl_append, ih, weigh_append, List.foldl_cons, List.foldl_nil]

end Poly1305

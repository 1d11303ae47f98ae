import Qanat.Hpack
import Qanat.General.Varint

namespace Qanat

open Varint

/-- The loop of `hpack_uint`, with the room left. -/
def hpackUintMore : Nat → Nat → Option Bytes
  | 0, _ => none
  | room + 1, value =>
    if 128 ≤ value then (hpackUintMore room (value / 128)).map (UInt8.ofNat (value % 128 + 128) :: ·)
    else some [UInt8.ofNat value]

/-- `hpack_uint`. -/
def hpackUint (first : UInt8) (bits value : Nat) : Nat → Option Bytes
  | 0 => none
  | room + 1 =>
    let mask := 2 ^ bits - 1
    if value < mask then some [first ||| UInt8.ofNat value]
    else (hpackUintMore room (value - mask)).map ((first ||| UInt8.ofNat mask) :: ·)

/-- `hpack_string`. -/
def hpackString (s : Bytes) (cap : Nat) : Option Bytes :=
  if uint32Max < s.length then none
  else (hpackUint 0 7 s.length cap).bind fun head => if cap - head.length < s.length then none else some (head ++ s)

/-- `literal_indexed_name`. -/
def literalIndexedName (name : Nat) (value : Bytes) (cap : Nat) : Option Bytes :=
  (hpackUint 0 4 name cap).bind fun a => (hpackString value (cap - a.length)).map (a ++ ·)

/-- `literal_new_name`. -/
def literalNewName (name value : Bytes) (cap : Nat) : Option Bytes :=
  if cap = 0 then none
  else (hpackString name (cap - 1)).bind fun a => (hpackString value (cap - 1 - a.length)).map fun b => 0 :: (a ++ b)

/-- The bytes of an integer behind the high bits of its first byte. -/
def hpackBytes (first : UInt8) (bits value : Nat) : Bytes :=
  if value < 2 ^ bits - 1 then [first ||| UInt8.ofNat value]
  else (first ||| UInt8.ofNat (2 ^ bits - 1)) :: groups (value - (2 ^ bits - 1))

theorem hpackUintMore_eq (room value : Nat) :
    hpackUintMore room value = if (groups value).length ≤ room then some (groups value) else none := by
  induction room generalizing value with
  | zero =>
    have hpos := List.length_pos_iff.mpr (groups_spec value).1.ne_nil
    rw [if_neg (by omega)]
    rfl
  | succ room ih =>
    rcases Nat.lt_or_ge value 128 with h | h
    · rw [groups_small h, List.length_singleton, if_pos (Nat.le_add_left 1 room), hpackUintMore,
        if_neg (Nat.not_le.mpr h)]
    · rw [groups_large h, hpackUintMore, if_pos h, ih, List.length_cons]
      by_cases hroom : (groups (value / 128)).length ≤ room
      · rw [if_pos hroom, if_pos (Nat.succ_le_succ hroom)]
        rfl
      · rw [if_neg hroom, if_neg (fun hc => hroom (Nat.le_of_succ_le_succ hc))]
        rfl

/-- With enough room the whole integer is written, else nothing is. -/
theorem hpackUint_eq (first : UInt8) (bits value cap : Nat) :
    hpackUint first bits value cap =
      if (hpackBytes first bits value).length ≤ cap then some (hpackBytes first bits value) else none := by
  unfold hpackBytes
  cases cap with
  | zero =>
    rw [if_neg]
    · rfl
    · split <;> exact Nat.not_succ_le_zero _
  | succ room =>
    by_cases h : value < 2 ^ bits - 1
    · rw [if_pos h, List.length_singleton, if_pos (Nat.le_add_left 1 room)]
      exact if_pos h
    · refine (if_neg h).trans ?_
      rw [if_neg h, hpackUintMore_eq, List.length_cons]
      by_cases hroom : (groups (value - (2 ^ bits - 1))).length ≤ room
      · rw [if_pos hroom, if_pos (Nat.succ_le_succ hroom)]
        rfl
      · rw [if_neg hroom, if_neg (fun hc => hroom (Nat.le_of_succ_le_succ hc))]
        rfl

theorem hpackBytes_length_le {first : UInt8} {bits value : Nat} (hv : value < 2 ^ 32) :
    (hpackBytes first bits value).length ≤ 6 := by
  unfold hpackBytes
  split
  · exact Nat.le_add_left 1 5
  · exact Nat.succ_le_succ (@length_groups_le _ 4 (by omega))

theorem hpackUint_some {first : UInt8} {bits value cap : Nat} {out : Bytes}
    (h : hpackUint first bits value cap = some out) : out = hpackBytes first bits value ∧ out.length ≤ cap := by
  rw [hpackUint_eq] at h
  split at h
  next hlen =>
    obtain rfl := Option.some.inj h
    exact ⟨rfl, hlen⟩
  next => cases h

theorem hpackString_some {s out : Bytes} {cap : Nat} (h : hpackString s cap = some out) :
    s.length ≤ uint32Max ∧ out = hpackBytes 0 7 s.length ++ s := by
  unfold hpackString at h
  split at h
  next => cases h
  next hlen =>
    obtain ⟨head, hhead, h⟩ := Option.bind_eq_some_iff.mp h
    split at h
    next => cases h
    next =>
      obtain rfl := Option.some.inj h
      rw [(hpackUint_some hhead).1]
      exact ⟨Nat.not_lt.mp hlen, rfl⟩

theorem literalIndexedName_some {name cap : Nat} {value out : Bytes}
    (h : literalIndexedName name value cap = some out) :
    value.length ≤ uint32Max ∧ out = hpackBytes 0 4 name ++ (hpackBytes 0 7 value.length ++ value) := by
  obtain ⟨a, ha, h⟩ := Option.bind_eq_some_iff.mp h
  obtain ⟨b, hb, rfl⟩ := Option.map_eq_some_iff.mp h
  obtain ⟨hlen, rfl⟩ := hpackString_some hb
  rw [(hpackUint_some ha).1]
  exact ⟨hlen, rfl⟩

theorem literalNewName_some {cap : Nat} {name value out : Bytes} (h : literalNewName name value cap = some out) :
    name.length ≤ uint32Max ∧ value.length ≤ uint32Max ∧
      out = 0 :: (hpackBytes 0 7 name.length ++ name ++ (hpackBytes 0 7 value.length ++ value)) := by
  unfold literalNewName at h
  split at h
  next => cases h
  next =>
    obtain ⟨a, ha, h⟩ := Option.bind_eq_some_iff.mp h
    obtain ⟨b, hb, rfl⟩ := Option.map_eq_some_iff.mp h
    obtain ⟨hname, rfl⟩ := hpackString_some ha
    obtain ⟨hvalue, rfl⟩ := hpackString_some hb
    exact ⟨hname, hvalue, rfl⟩

end Qanat

import Qanat.HpackWrite

namespace Qanat

open Varint

/-- The integer at the front of some bytes, by the encoding alone: its value, how many continuation bytes it
takes, and what follows. -/
inductive HpackDenotes (bits : Nat) : Bytes → Nat → Nat → Bytes → Prop
  | short {c : UInt8} {t : Bytes} : c.toNat % 2 ^ bits ≠ 2 ^ bits - 1 →
      HpackDenotes bits (c :: t) (c.toNat % 2 ^ bits) 0 t
  | long {c : UInt8} {g r t : Bytes} : c.toNat % 2 ^ bits = 2 ^ bits - 1 → Groups g → t = g ++ r →
      HpackDenotes bits (c :: t) (2 ^ bits - 1 + value g) g.length r

/-- The bytes end before an integer does. -/
def HpackCut (bits : Nat) (p : Bytes) : Prop :=
  p = [] ∨ ∃ c t, p = c :: t ∧ c.toNat % 2 ^ bits = 2 ^ bits - 1 ∧ ∀ d ∈ t, 128 ≤ d.toNat

theorem hpackDenotes_or_cut (bits : Nat) (p : Bytes) : HpackCut bits p ∨ ∃ v k r, HpackDenotes bits p v k r := by
  cases p with
  | nil => exact .inl (.inl rfl)
  | cons c t =>
    by_cases h : c.toNat % 2 ^ bits = 2 ^ bits - 1
    · rcases groups_or_open t with hopen | ⟨g, r, rfl, hg⟩
      · exact .inl (.inr ⟨c, t, rfl, h, hopen⟩)
      · exact .inr ⟨_, _, _, .long h hg rfl⟩
    · exact .inr ⟨_, _, _, .short h⟩

theorem HpackDenotes.not_cut {bits v k : Nat} {p r : Bytes} (h : HpackDenotes bits p v k r) : ¬HpackCut bits p := by
  rintro (rfl | ⟨c, t, rfl, hc, hall⟩)
  · cases h
  · cases h with
    | short hne => exact hne hc
    | long _ hg ht => exact hg.not_open (ht ▸ hall)

theorem HpackDenotes.unique {bits v k v' k' : Nat} {p r r' : Bytes} (h : HpackDenotes bits p v k r)
    (h' : HpackDenotes bits p v' k' r') : v = v' ∧ k = k' ∧ r = r' := by
  cases h with
  | short hne =>
    cases h' with
    | short _ => exact ⟨rfl, rfl, rfl⟩
    | long heq _ _ => exact absurd heq hne
  | long heq hg ht =>
    cases h' with
    | short hne => exact absurd heq hne
    | long _ hg' ht' =>
      obtain ⟨rfl, rfl⟩ := hg.unique hg' (ht.symm.trans ht')
      exact ⟨rfl, rfl, rfl⟩

/-- The loop of `pull_hpack_int` on a whole number, after `j` of its bytes: `v` has room for what is left exactly
when the test on shifted values says so. -/
theorem pullHpackMore_groups {g : Bytes} (hg : Groups g) (r : Bytes) (v j : Nat) (hv : v ≤ uint32Max) :
    pullHpackMore v (7 * j) (g ++ r) =
      if j + g.length ≤ 5 ∧ v + value g * 2 ^ (7 * j) ≤ uint32Max then some (v + value g * 2 ^ (7 * j), r)
      else none := by
  induction hg generalizing v j with
  | @last c hc =>
    have htest := @Nat.div_lt_iff_lt_mul (2 ^ (7 * j)) (uint32Max - v) (c.toNat % 128) (Nat.two_pow_pos _)
    have hval : value [c] = c.toNat % 128 := Nat.add_zero _
    rw [hval, List.singleton_append, pullHpackMore, List.length_singleton]
    by_cases hfit : j + 1 ≤ 5 ∧ v + c.toNat % 128 * 2 ^ (7 * j) ≤ uint32Max
    · rw [if_pos hfit, if_neg (by omega)]
      exact if_neg (Nat.not_le.mpr hc)
    · rw [if_neg hfit, if_pos (by omega)]
  | @more c l hc hl ih =>
    have htest := @Nat.div_lt_iff_lt_mul (2 ^ (7 * j)) (uint32Max - v) (c.toNat % 128) (Nat.two_pow_pos _)
    have hval : v + value (c :: l) * 2 ^ (7 * j) =
        v + c.toNat % 128 * 2 ^ (7 * j) + value l * 2 ^ (7 * (j + 1)) := by
      rw [value, Nat.mul_succ, Nat.pow_add]
      ring
    rw [hval, List.cons_append, pullHpackMore, List.length_cons]
    by_cases hstop : 28 < 7 * j ∨ (uint32Max - v) / 2 ^ (7 * j) < c.toNat % 128
    · rw [if_pos hstop, if_neg (by omega)]
    · rw [if_neg hstop]
      refine (if_pos hc).trans ((ih (v + c.toNat % 128 * 2 ^ (7 * j)) (j + 1) (by omega)).trans ?_)
      rw [Nat.add_right_comm j 1, ← Nat.add_assoc]

/-- Within a number that is cut there is no result. -/
theorem pullHpackMore_open {t : Bytes} (h : ∀ c ∈ t, 128 ≤ c.toNat) (v shift : Nat) :
    pullHpackMore v shift t = none := by
  induction t generalizing v shift with
  | nil => rfl
  | cons c t ih =>
    obtain ⟨hc, ht⟩ := List.forall_mem_cons.mp h
    rw [pullHpackMore]
    by_cases hstop : 28 < shift ∨ (uint32Max - v) / 2 ^ shift < c.toNat % 128
    · exact if_pos hstop
    · exact (if_neg hstop).trans ((if_pos hc).trans (ih ht (v + c.toNat % 128 * 2 ^ shift) (shift + 7)))

theorem pullHpackInt_cut {bits : Nat} {p : Bytes} (h : HpackCut bits p) : pullHpackInt bits p = none := by
  rcases h with rfl | ⟨c, t, rfl, hc, hall⟩
  · rfl
  · exact (if_neg (not_not_intro hc)).trans (pullHpackMore_open hall _ _)

/-- An integer is read exactly when it fits and takes no more than five continuation bytes. -/
theorem pullHpackInt_denotes {bits v k : Nat} {p r : Bytes} (hbits : bits ≤ 8) (h : HpackDenotes bits p v k r) :
    pullHpackInt bits p = if k ≤ 5 ∧ v ≤ uint32Max then some (v, r) else none := by
  have hmask : 2 ^ bits ≤ 2 ^ 8 := Nat.pow_le_pow_right (by omega) hbits
  cases h with
  | @short c t hne =>
    have hlt := Nat.mod_lt c.toNat (Nat.two_pow_pos bits)
    rw [if_pos ⟨Nat.zero_le 5, by unfold uint32Max; omega⟩]
    exact if_pos hne
  | @long c g r t heq hg ht =>
    have hmore := pullHpackMore_groups hg r (2 ^ bits - 1) 0 (by unfold uint32Max; omega)
    rw [ht]
    refine (if_neg (not_not_intro heq)).trans ?_
    simpa using hmore

/-- `pull_hpack_int` reads exactly the integers of 32 bits in at most five continuation bytes, and fails on
everything else. -/
theorem pullHpackInt_exact {bits : Nat} (hbits : bits ≤ 8) (p : Bytes) :
    (∀ v r, pullHpackInt bits p = some (v, r) ↔ ∃ k, HpackDenotes bits p v k r ∧ k ≤ 5 ∧ v < 2 ^ 32) ∧
    (pullHpackInt bits p = none ↔ HpackCut bits p ∨ ∃ v k r, HpackDenotes bits p v k r ∧ (2 ^ 32 ≤ v ∨ 5 < k)) := by
  have hmax : uint32Max = 2 ^ 32 - 1 := rfl
  rcases hpackDenotes_or_cut bits p with hcut | ⟨v, k, r, hden⟩
  · rw [pullHpackInt_cut hcut]
    refine ⟨fun v r => ⟨fun h => (by cases h), ?_⟩, fun _ => .inl hcut, fun _ => rfl⟩
    rintro ⟨k, hden, _⟩
    exact absurd hcut hden.not_cut
  · rw [pullHpackInt_denotes hbits hden]
    by_cases hfit : k ≤ 5 ∧ v ≤ uint32Max
    · rw [if_pos hfit]
      constructor
      · intro v' r'
        constructor
        · intro h
          obtain ⟨rfl, rfl⟩ := Prod.mk.inj (Option.some.inj h)
          exact ⟨k, hden, hfit.1, by omega⟩
        · rintro ⟨k', hden', _⟩
          obtain ⟨rfl, rfl, rfl⟩ := hden.unique hden'
          rfl
      · refine ⟨fun h => (by cases h), ?_⟩
        rintro (hcut | ⟨v', k', r', hden', hbad⟩)
        · exact absurd hcut hden.not_cut
        · obtain ⟨rfl, rfl, rfl⟩ := hden.unique hden'
          omega
    · rw [if_neg hfit]
      constructor
      · intro v' r'
        refine ⟨fun h => (by cases h), ?_⟩
        rintro ⟨k', hden', hfit'⟩
        obtain ⟨rfl, rfl, rfl⟩ := hden.unique hden'
        omega
      · exact ⟨fun _ => .inr ⟨v, k, r, hden, by omega⟩, fun _ => rfl⟩

theorem firstByte_mod {first : UInt8} {bits n : Nat} (hbits : bits ≤ 8) (hfirst : first.toNat % 2 ^ bits = 0)
    (hn : n < 2 ^ bits) : (first ||| UInt8.ofNat n).toNat % 2 ^ bits = n := by
  have hmask : 2 ^ bits ≤ 2 ^ 8 := Nat.pow_le_pow_right (by omega) hbits
  rw [UInt8.toNat_or, toNat_ofNat (by omega), Nat.or_mod_two_pow, hfirst, Nat.zero_or, Nat.mod_eq_of_lt hn]

theorem hpackBytes_denotes {first : UInt8} {bits v : Nat} (hbits : bits ≤ 8) (hfirst : first.toNat % 2 ^ bits = 0)
    (hv : v < 2 ^ 32) (rest : Bytes) : ∃ k, HpackDenotes bits (hpackBytes first bits v ++ rest) v k rest ∧ k ≤ 5 := by
  have hpos := Nat.two_pow_pos bits
  unfold hpackBytes
  by_cases hshort : v < 2 ^ bits - 1
  · have hmod := firstByte_mod hbits hfirst (show v < 2 ^ bits by omega)
    have hden := @HpackDenotes.short bits (first ||| UInt8.ofNat v) rest (by omega)
    rw [hmod] at hden
    rw [if_pos hshort]
    exact ⟨0, hden, Nat.zero_le 5⟩
  · have hmod := firstByte_mod hbits hfirst (show 2 ^ bits - 1 < 2 ^ bits by omega)
    obtain ⟨hgroups, hvalue⟩ := groups_spec (v - (2 ^ bits - 1))
    have hden := @HpackDenotes.long bits (first ||| UInt8.ofNat (2 ^ bits - 1)) _ rest _ hmod hgroups rfl
    rw [hvalue, Nat.add_sub_cancel' (Nat.not_lt.mp hshort)] at hden
    rw [if_neg hshort]
    exact ⟨_, hden, @length_groups_le _ 4 (by omega)⟩

theorem pullHpackInt_hpackBytes {first : UInt8} {bits v : Nat} (hbits : bits ≤ 8)
    (hfirst : first.toNat % 2 ^ bits = 0) (hv : v < 2 ^ 32) (rest : Bytes) :
    pullHpackInt bits (hpackBytes first bits v ++ rest) = some (v, rest) := by
  obtain ⟨k, hden, hk⟩ := hpackBytes_denotes hbits hfirst hv rest
  exact ((pullHpackInt_exact hbits _).1 v rest).mpr ⟨k, hden, hk, hv⟩

/-- The first byte of a string is its length in seven bits, without the mark of a Huffman string. -/
theorem hpackBytes_plain (bits v : Nat) (h : bits < 8) (t : Bytes) :
    byteAt (hpackBytes 0 bits v ++ t) 0 < 2 ^ bits := by
  have hpow : 2 ^ bits ≤ 2 ^ 7 := Nat.pow_le_pow_right (by omega) (by omega)
  have hpos := Nat.two_pow_pos bits
  have hzero : ∀ n, n < 2 ^ bits → ((0 : UInt8) ||| UInt8.ofNat n).toNat < 2 ^ bits := by
    intro n hn
    rw [UInt8.zero_or, toNat_ofNat (by omega)]
    exact hn
  unfold hpackBytes
  split
  next hv => exact hzero v (by omega)
  next => exact hzero _ (by omega)

theorem pullHpackString_plain {s : Bytes} (hs : s.length ≤ uint32Max) (cap : Nat) (rest : Bytes) :
    pullHpackString cap (hpackBytes 0 7 s.length ++ (s ++ rest)) =
      some (⟨s, s.length, false, s.any isUpper⟩, rest) := by
  have hpull := @pullHpackInt_hpackBytes 0 7 s.length (by omega) rfl
    (show s.length < 2 ^ 32 by unfold uint32Max at hs; omega) (s ++ rest)
  have hplain := hpackBytes_plain 7 s.length (by omega) (s ++ rest)
  unfold pullHpackString
  rw [hpull]
  dsimp only
  rw [if_neg (by rw [List.length_append]; omega), if_neg (by omega), List.take_left, List.drop_left]

/-- A plain string as the decoder hands it on. -/
def HStr.plain (s : Bytes) : HStr :=
  ⟨s, s.length, false, s.any isUpper⟩

/-- A field with an indexed name: the index is read back, then the value; `parse_hpack` takes it for the same field
when the index names an entry of the static table. -/
theorem pull_literalIndexedName {name cap : Nat} {value out : Bytes} (hname : name < 2 ^ 32)
    (h : literalIndexedName name value cap = some out) (size : Nat) (rest : Bytes) :
    (∃ r, pullHpackInt 4 (out ++ rest) = some (name, r) ∧
      pullHpackString size r = some (HStr.plain value, rest)) ∧
    (1 ≤ name → name ≤ 61 →
      pullField (out ++ rest) = some (.literal name ⟨[], 0, false, false⟩ (HStr.plain value), rest)) := by
  obtain ⟨hlen, rfl⟩ := literalIndexedName_some h
  rw [List.append_assoc, List.append_assoc]
  have hint := @pullHpackInt_hpackBytes 0 4 name (by omega) rfl hname (hpackBytes 0 7 value.length ++ (value ++ rest))
  have hfirst := hpackBytes_plain 4 name (by omega) (hpackBytes 0 7 value.length ++ (value ++ rest))
  refine ⟨⟨_, hint, pullHpackString_plain hlen size rest⟩, fun hlo hhi => ?_⟩
  unfold pullField
  rw [if_neg (by omega), if_neg (by omega), if_neg (by omega), hint]
  dsimp only
  rw [if_neg (by omega), if_neg (by omega)]
  dsimp only
  rw [pullHpackString_plain hlen hpackValueMax rest]
  rfl

theorem pull_literalNewName {cap : Nat} {name value out : Bytes} (h : literalNewName name value cap = some out)
    (rest : Bytes) :
    pullField (out ++ rest) = some (.literal 0 (HStr.plain name) (HStr.plain value), rest) := by
  obtain ⟨hname, hvalue, rfl⟩ := literalNewName_some h
  have hint : ∀ t, pullHpackInt 4 (0 :: t) = some (0, t) := fun _ => rfl
  have hfirst : ∀ t : Bytes, byteAt (0 :: t) 0 = 0 := fun _ => rfl
  rw [List.cons_append, List.append_assoc, List.append_assoc, List.append_assoc]
  unfold pullField
  rw [hfirst, if_neg (by omega), if_neg (by omega), if_neg (by omega), hint]
  dsimp only
  rw [if_neg (by omega), if_pos rfl, pullHpackString_plain hname]
  dsimp only
  rw [pullHpackString_plain hvalue]
  rfl

/-- Integers and strings of header compression: what `hpack_uint` writes is read back to its end, what is read is
exactly what the bytes denote, and the fields of a request are read as they were meant. -/
theorem hpack_round_trips :
    (∀ bits value (first : UInt8), 1 ≤ bits → bits ≤ 8 → value < 2 ^ 32 → first.toNat % 2 ^ bits = 0 →
      ∃ out, out.length ≤ 6 ∧
        (∀ cap, hpackUint first bits value cap = if out.length ≤ cap then some out else none) ∧
        ∀ rest, pullHpackInt bits (out ++ rest) = some (value, rest)) ∧
    (∀ bits, 1 ≤ bits → bits ≤ 8 → ∀ p,
      (∀ v r, pullHpackInt bits p = some (v, r) ↔ ∃ k, HpackDenotes bits p v k r ∧ k ≤ 5 ∧ v < 2 ^ 32) ∧
      (pullHpackInt bits p = none ↔ HpackCut bits p ∨ ∃ v k r, HpackDenotes bits p v k r ∧ (2 ^ 32 ≤ v ∨ 5 < k))) ∧
    (∀ name value cap out, name < 2 ^ 32 → literalIndexedName name value cap = some out → ∀ size rest,
      (∃ r, pullHpackInt 4 (out ++ rest) = some (name, r) ∧
        pullHpackString size r = some (HStr.plain value, rest)) ∧
      (1 ≤ name → name ≤ 61 →
        pullField (out ++ rest) = some (.literal name ⟨[], 0, false, false⟩ (HStr.plain value), rest))) ∧
    (∀ name value cap out, literalNewName name value cap = some out → ∀ rest,
      pullField (out ++ rest) = some (.literal 0 (HStr.plain name) (HStr.plain value), rest)) := by
  refine ⟨?_, fun bits _ hbits p => pullHpackInt_exact hbits p, ?_, ?_⟩
  · intro bits value first _ hbits hvalue hfirst
    exact ⟨hpackBytes first bits value, hpackBytes_length_le hvalue, hpackUint_eq first bits value,
      pullHpackInt_hpackBytes hbits hfirst hvalue⟩
  · exact fun name value cap out hname h => pull_literalIndexedName hname h
  · exact fun name value cap out h => pull_literalNewName h

theorem hpack_round_trips_edge : pullHpackInt 5 (0xFF :: 0x9A :: 0x0A :: [1]) = some (1337, [1]) ∧
    pullHpackInt 5 [0x1F, 0xFF, 0xFF, 0xFF, 0xFF, 0x0F] = none :=
  ⟨((hpack_round_trips.2.1 5 (by omega) (by omega) _).1 1337 [1]).mpr ⟨2,
      @HpackDenotes.long 5 0xFF [0x9A, 0x0A] [1] _ rfl (.more (by decide) (.last (by decide))) rfl,
      by omega, by omega⟩,
    (hpack_round_trips.2.1 5 (by omega) (by omega) _).2.mpr (.inr ⟨_, 5, [],
      @HpackDenotes.long 5 0x1F [0xFF, 0xFF, 0xFF, 0xFF, 0x0F] [] _ rfl
        (.more (by decide) (.more (by decide) (.more (by decide) (.more (by decide) (.last (by decide)))))) rfl,
      .inl (by decide)⟩)⟩

end Qanat

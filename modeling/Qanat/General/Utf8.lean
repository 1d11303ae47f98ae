import Mathlib.Data.List.Basic

namespace Utf8

/-- The values that RFC 3629 encodes: no surrogates, and nothing above U+10FFFF. -/
def Scalar (v : Nat) : Prop :=
  v < 0xD800 ∨ (0xE000 ≤ v ∧ v ≤ 0x10FFFF)

instance (v : Nat) : Decidable (Scalar v) :=
  inferInstanceAs (Decidable (_ ∨ _))

def encode (v : Nat) : List UInt8 :=
  if v < 0x80 then [UInt8.ofNat v]
  else if v < 0x800 then [UInt8.ofNat (0xC0 + v / 64), UInt8.ofNat (0x80 + v % 64)]
  else if v < 0x10000 then
    [UInt8.ofNat (0xE0 + v / 4096), UInt8.ofNat (0x80 + v / 64 % 64), UInt8.ofNat (0x80 + v % 64)]
  else
    [UInt8.ofNat (0xF0 + v / 262144), UInt8.ofNat (0x80 + v / 4096 % 64), UInt8.ofNat (0x80 + v / 64 % 64),
      UInt8.ofNat (0x80 + v % 64)]

/-- The encoding of a scalar value stands at the front of a text. -/
def At (s : List UInt8) (v : Nat) : Prop :=
  Scalar v ∧ encode v <+: s

def isTail (b : UInt8) : Bool :=
  0x80 ≤ b && b < 0xC0

/-- The value of a sequence: what its first byte adds to zero, and then its tails. -/
def valueOf (first : Nat) (tails : List UInt8) : Nat :=
  tails.foldl (fun v b => v * 64 + b.toNat % 64) first

/-- How many tails a first byte asks for, the payload of the byte and the least value of that length. -/
def lead (c : UInt8) : Option (Nat × Nat × Nat) :=
  if c < 0x80 then some (0, c.toNat, 0)
  else if c < 0xC2 then none
  else if c < 0xE0 then some (1, c.toNat % 32, 0x80)
  else if c < 0xF0 then some (2, c.toNat % 16, 0x800)
  else if c < 0xF5 then some (3, c.toNat % 8, 0x10000)
  else none

/-- The scalar at the front of a text. -/
def front : List UInt8 → Option Nat
  | [] => none
  | c :: t =>
    match lead c with
    | none => none
    | some (need, first, least) =>
      let tails := t.take need
      let v := valueOf first tails
      if tails.length = need ∧ tails.all isTail ∧ least ≤ v ∧ Scalar v then some v else none

section Encode

variable {v : Nat}

theorem toNat_tail {n : Nat} (h : n < 64) : (UInt8.ofNat (0x80 + n)).toNat % 64 = n := by
  rw [UInt8.toNat_ofNat']
  omega

theorem isTail_ofNat {n : Nat} (h : n < 64) : isTail (UInt8.ofNat (0x80 + n)) = true := by
  unfold isTail
  rw [Bool.and_eq_true, decide_eq_true_eq, decide_eq_true_eq, UInt8.le_iff_toNat_le, UInt8.lt_iff_toNat_lt,
    UInt8.toNat_ofNat']
  change 128 ≤ _ ∧ _ < 192
  omega

/-- The encoding of a value above ASCII: its first byte announces its length and carries the rest of the value. -/
theorem encode_eq (hv : v ≤ 0x10FFFF) :
    ∃ c need first least tails, encode v = c :: tails ∧ lead c = some (need, first, least) ∧ tails.length = need ∧
      tails.all isTail = true ∧ least ≤ v ∧ valueOf first tails = v := by
  have hb : ∀ n, n < 256 → (UInt8.ofNat n).toNat = n := fun n hn => by
    rw [UInt8.toNat_ofNat', Nat.mod_eq_of_lt hn]
  have hm : ∀ n : Nat, n % 64 < 64 := fun n => Nat.mod_lt n (by decide)
  unfold encode
  split
  next h =>
    refine ⟨_, 0, v, 0, [], rfl, ?_, rfl, rfl, Nat.zero_le _, rfl⟩
    rw [lead, if_pos (by rw [UInt8.lt_iff_toNat_lt, hb v (by omega)]; exact h), hb v (by omega)]
  next h₁ =>
    split
    next h₂ =>
      have hc := hb (0xC0 + v / 64) (by omega)
      refine ⟨_, 1, v / 64, 0x80, _, rfl, ?_, rfl, ?_, by omega, ?_⟩
      · rw [lead, if_neg (by rw [UInt8.lt_iff_toNat_lt, hc]; change ¬_ < 128; omega),
          if_neg (by rw [UInt8.lt_iff_toNat_lt, hc]; change ¬_ < 194; omega),
          if_pos (by rw [UInt8.lt_iff_toNat_lt, hc]; change _ < 224; omega), hc]
        congr 3
        omega
      · rw [List.all_cons, isTail_ofNat (hm v)]
        rfl
      · change v / 64 * 64 + (UInt8.ofNat (0x80 + v % 64)).toNat % 64 = v
        rw [toNat_tail (hm v)]
        omega
    next h₂ =>
      split
      next h₃ =>
        have hc := hb (0xE0 + v / 4096) (by omega)
        refine ⟨_, 2, v / 4096, 0x800, _, rfl, ?_, rfl, ?_, by omega, ?_⟩
        · rw [lead, if_neg (by rw [UInt8.lt_iff_toNat_lt, hc]; change ¬_ < 128; omega),
            if_neg (by rw [UInt8.lt_iff_toNat_lt, hc]; change ¬_ < 194; omega),
            if_neg (by rw [UInt8.lt_iff_toNat_lt, hc]; change ¬_ < 224; omega),
            if_pos (by rw [UInt8.lt_iff_toNat_lt, hc]; change _ < 240; omega), hc]
          congr 3
          omega
        · rw [List.all_cons, List.all_cons, isTail_ofNat (hm _), isTail_ofNat (hm v)]
          rfl
        · change (v / 4096 * 64 + (UInt8.ofNat (0x80 + v / 64 % 64)).toNat % 64) * 64 +
            (UInt8.ofNat (0x80 + v % 64)).toNat % 64 = v
          rw [toNat_tail (hm _), toNat_tail (hm v)]
          omega
      next h₃ =>
        have hc := hb (0xF0 + v / 262144) (by omega)
        refine ⟨_, 3, v / 262144, 0x10000, _, rfl, ?_, rfl, ?_, by omega, ?_⟩
        · rw [lead, if_neg (by rw [UInt8.lt_iff_toNat_lt, hc]; change ¬_ < 128; omega),
            if_neg (by rw [UInt8.lt_iff_toNat_lt, hc]; change ¬_ < 194; omega),
            if_neg (by rw [UInt8.lt_iff_toNat_lt, hc]; change ¬_ < 224; omega),
            if_neg (by rw [UInt8.lt_iff_toNat_lt, hc]; change ¬_ < 240; omega),
            if_pos (by rw [UInt8.lt_iff_toNat_lt, hc]; change _ < 245; omega), hc]
          congr 3
          omega
        · rw [List.all_cons, List.all_cons, List.all_cons, isTail_ofNat (hm _), isTail_ofNat (hm _),
            isTail_ofNat (hm v)]
          rfl
        · change ((v / 262144 * 64 + (UInt8.ofNat (0x80 + v / 4096 % 64)).toNat % 64) * 64 +
            (UInt8.ofNat (0x80 + v / 64 % 64)).toNat % 64) * 64 + (UInt8.ofNat (0x80 + v % 64)).toNat % 64 = v
          rw [toNat_tail (hm _), toNat_tail (hm _), toNat_tail (hm v)]
          omega

end Encode

section Front

variable {v : Nat} {s rest : List UInt8}

theorem Scalar.le (h : Scalar v) : v ≤ 0x10FFFF := by
  unfold Scalar at h
  omega

theorem front_encode (h : Scalar v) (rest : List UInt8) : front (encode v ++ rest) = some v := by
  obtain ⟨c, need, first, least, tails, he, hl, hlen, hall, hle, hval⟩ := encode_eq h.le
  rw [he, List.cons_append, front, hl]
  dsimp only
  rw [List.take_left' hlen, hval, if_pos ⟨hlen, hall, hle, h⟩]

theorem isTail_bounds {b : UInt8} (h : isTail b = true) : 0x80 ≤ b.toNat ∧ b.toNat < 0xC0 := by
  unfold isTail at h
  rw [Bool.and_eq_true, decide_eq_true_eq, decide_eq_true_eq, UInt8.le_iff_toNat_le, UInt8.lt_iff_toNat_lt] at h
  exact h

/-- A byte is the one that a number of its value stands for. -/
theorem ofNat_eq {b : UInt8} {n : Nat} (h : n = b.toNat) : UInt8.ofNat n = b := by
  rw [h, UInt8.ofNat_toNat]

/-- A first byte with the tails it asks for, of a value no shorter sequence has, is that value's encoding. -/
theorem encode_valueOf {c : UInt8} {need first least : Nat} {tails : List UInt8}
    (hl : lead c = some (need, first, least)) (hlen : tails.length = need) (hall : tails.all isTail = true)
    (hle : least ≤ valueOf first tails) (hs : Scalar (valueOf first tails)) :
    encode (valueOf first tails) = c :: tails := by
  have hmax := hs.le
  unfold lead at hl
  split at hl
  next h =>
    cases hl
    rw [UInt8.lt_iff_toNat_lt] at h
    obtain rfl := List.length_eq_zero_iff.mp hlen
    rw [encode, if_pos (show valueOf c.toNat [] < 0x80 from h)]
    exact congrArg (· :: []) (ofNat_eq rfl)
  next h₀ =>
    split at hl
    next => cases hl
    next h₁ =>
      rw [UInt8.lt_iff_toNat_lt] at h₁
      change ¬_ < 194 at h₁
      split at hl
      next h₂ =>
        cases hl
        rw [UInt8.lt_iff_toNat_lt] at h₂
        change _ < 224 at h₂
        obtain ⟨p, rfl⟩ := List.length_eq_one_iff.mp hlen
        have hp := isTail_bounds (List.all_eq_true.mp hall p List.mem_cons_self)
        have hv : valueOf (c.toNat % 32) [p] = c.toNat % 32 * 64 + p.toNat % 64 := rfl
        rw [hv] at hle hmax ⊢
        rw [encode, if_neg (by omega), if_pos (by omega), @ofNat_eq c _ (by omega), @ofNat_eq p _ (by omega)]
      next h₂ =>
        rw [UInt8.lt_iff_toNat_lt] at h₂
        change ¬_ < 224 at h₂
        split at hl
        next h₃ =>
          cases hl
          rw [UInt8.lt_iff_toNat_lt] at h₃
          change _ < 240 at h₃
          obtain ⟨p, q, rfl⟩ := List.length_eq_two.mp hlen
          have hp := isTail_bounds (List.all_eq_true.mp hall p List.mem_cons_self)
          have hq := isTail_bounds (List.all_eq_true.mp hall q (List.mem_cons_of_mem _ List.mem_cons_self))
          have hv : valueOf (c.toNat % 16) [p, q] = (c.toNat % 16 * 64 + p.toNat % 64) * 64 + q.toNat % 64 := rfl
          rw [hv] at hle hmax ⊢
          rw [encode, if_neg (by omega), if_neg (by omega), if_pos (by omega), @ofNat_eq c _ (by omega),
            @ofNat_eq p _ (by omega), @ofNat_eq q _ (by omega)]
        next h₃ =>
          rw [UInt8.lt_iff_toNat_lt] at h₃
          change ¬_ < 240 at h₃
          split at hl
          next h₄ =>
            cases hl
            rw [UInt8.lt_iff_toNat_lt] at h₄
            change _ < 245 at h₄
            obtain ⟨p, q, r, rfl⟩ := List.length_eq_three.mp hlen
            have hp := isTail_bounds (List.all_eq_true.mp hall p List.mem_cons_self)
            have hq := isTail_bounds (List.all_eq_true.mp hall q (List.mem_cons_of_mem _ List.mem_cons_self))
            have hr := isTail_bounds (List.all_eq_true.mp hall r (by simp))
            have hv : valueOf (c.toNat % 8) [p, q, r] =
                ((c.toNat % 8 * 64 + p.toNat % 64) * 64 + q.toNat % 64) * 64 + r.toNat % 64 := rfl
            rw [hv] at hle hmax ⊢
            rw [encode, if_neg (by omega), if_neg (by omega), if_neg (by omega), @ofNat_eq c _ (by omega),
              @ofNat_eq p _ (by omega), @ofNat_eq q _ (by omega), @ofNat_eq r _ (by omega)]
          next => cases hl

/-- The scalar at the front is the one whose encoding stands there. -/
theorem front_eq_some : front s = some v ↔ At s v := by
  constructor
  · intro h
    cases s with
    | nil => cases h
    | cons c t =>
      rw [front] at h
      cases hl : lead c with
      | none =>
        rw [hl] at h
        cases h
      | some p =>
        obtain ⟨need, first, least⟩ := p
        rw [hl] at h
        dsimp only at h
        split at h
        next hc =>
          obtain ⟨hlen, hall, hle, hs⟩ := hc
          obtain rfl := Option.some.inj h
          refine ⟨hs, ?_⟩
          rw [encode_valueOf hl hlen hall hle hs]
          exact List.cons_prefix_cons.mpr ⟨rfl, List.take_prefix _ _⟩
        next => cases h
  · rintro ⟨hs, rest, rfl⟩
    exact front_encode hs rest

theorem At.unique {w : Nat} (hv : At s v) (hw : At s w) : v = w :=
  Option.some.inj ((front_eq_some.mpr hv).symm.trans (front_eq_some.mpr hw))

end Front

section Scan

/-- The positions of a text from left to right: what starts there, and a position on where nothing does. -/
def scan (next : List UInt8 → Option (Nat × Nat)) : Nat → Nat → List UInt8 → List (Nat × Option Nat)
  | _, _, [] => []
  | skip + 1, pos, _ :: t => scan next skip (pos + 1) t
  | 0, pos, c :: t =>
    match next (c :: t) with
    | some (v, n) => (pos, some v) :: scan next (n - 1) (pos + 1) t
    | none => (pos, none) :: scan next 0 (pos + 1) t

/-- A scalar and its length. -/
def measured (s : List UInt8) : Option (Nat × Nat) :=
  (front s).map fun v => (v, (encode v).length)

theorem measured_cons {c : UInt8} {need first least : Nat} {t : List UInt8} (hl : lead c = some (need, first, least)) :
    measured (c :: t) =
      if (t.take need).length = need ∧ (t.take need).all isTail ∧ least ≤ valueOf first (t.take need) ∧
          Scalar (valueOf first (t.take need)) then some (valueOf first (t.take need), need + 1) else none := by
  rw [measured, front, hl]
  dsimp only
  split
  next h =>
    rw [Option.map_some, encode_valueOf hl h.1 h.2.1 h.2.2.1 h.2.2.2, List.length_cons, h.1]
  next => rfl

theorem measured_none {c : UInt8} {t : List UInt8} (hl : lead c = none) : measured (c :: t) = none := by
  rw [measured, front, hl]
  rfl

end Scan

end Utf8

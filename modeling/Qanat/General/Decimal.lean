import Mathlib.Data.List.TakeWhile
import Mathlib.Tactic.IntervalCases

namespace Decimal

def isDigit (c : UInt8) : Bool :=
  48 ≤ c && c ≤ 57

def isSpace (c : UInt8) : Bool :=
  c == 32 || (9 ≤ c && c ≤ 13)

/-- The decimal digits of a number, as `%u` prints them. -/
def render (n : Nat) : List UInt8 :=
  (Nat.toDigits 10 n).map fun c => UInt8.ofNat c.toNat

/-- The number that digits stand for. -/
def value (ds : List UInt8) : Nat :=
  ds.foldl (fun v c => 10 * v + (c.toNat - 48)) 0

/-- A sign at the front of a number, and what follows it. -/
def takeSign : List UInt8 → Bool × List UInt8
  | c :: t => if c = 45 then (true, t) else if c = 43 then (false, t) else (false, c :: t)
  | [] => (false, [])

/-- `strtoull` in base ten: the value, whether it was out of range, and what stands behind the digits. -/
def strtoull (text : List UInt8) : Nat × Bool × List UInt8 :=
  let (neg, t) := takeSign (text.dropWhile isSpace)
  let ds := t.takeWhile isDigit
  if ds = [] then (0, false, text)
  else if 2 ^ 64 - 1 < value ds then (2 ^ 64 - 1, true, t.dropWhile isDigit)
  else (if neg then (2 ^ 64 - value ds) % 2 ^ 64 else value ds, false, t.dropWhile isDigit)

/-- `strtol` in base ten: the value, held inside its type, and what stands behind the digits. -/
def strtol (text : List UInt8) : Int × List UInt8 :=
  let (neg, t) := takeSign (text.dropWhile isSpace)
  let ds := t.takeWhile isDigit
  if ds = [] then (0, text)
  else (if neg then max (-2 ^ 63) (-(value ds : Int)) else min (2 ^ 63 - 1) (value ds : Int), t.dropWhile isDigit)

/-- A whole text as a number that has no sign in front. -/
def read (text : List UInt8) : Option Nat :=
  if text = [] ∨ text.head? = some 45 ∨ text.head? = some 43 then none
  else
    let (v, erange, rest) := strtoull text
    if erange ∨ rest ≠ [] then none else some v

theorem digit_bounds {c : Char} (h : c.isDigit = true) : 48 ≤ c.toNat ∧ c.toNat ≤ 57 := by
  rw [Char.isDigit, Bool.and_eq_true, decide_eq_true_eq, decide_eq_true_eq] at h
  exact h

theorem toNat_byte {c : Char} (h : c.isDigit = true) : (UInt8.ofNat c.toNat).toNat = c.toNat := by
  have := digit_bounds h
  rw [UInt8.toNat_ofNat']
  omega

theorem isDigit_byte {c : Char} (h : c.isDigit = true) : isDigit (UInt8.ofNat c.toNat) = true := by
  have hb := digit_bounds h
  have hn := toNat_byte h
  rw [isDigit, Bool.and_eq_true, decide_eq_true_eq, decide_eq_true_eq, UInt8.le_iff_toNat_le, UInt8.le_iff_toNat_le, hn]
  exact hb

theorem isDigit_render {n : Nat} {c : UInt8} (h : c ∈ render n) : isDigit c = true := by
  obtain ⟨d, hd, rfl⟩ := List.mem_map.mp h
  exact isDigit_byte (Nat.isDigit_of_mem_toDigits (by decide) (by decide) hd)

theorem render_ne_nil (n : Nat) : render n ≠ [] := by
  unfold render
  rw [ne_eq, List.map_eq_nil_iff]
  exact Nat.toDigits_ne_nil

/-- Only the number zero is written with a zero in front. -/
theorem head_render {n : Nat} (h : (render n).head? = some 48) : n = 0 := by
  induction n using Nat.strongRecOn with
  | ind n ih =>
    unfold render at h
    by_cases hn : n < 10
    · rw [Nat.toDigits_of_lt_base hn] at h
      revert h
      interval_cases n <;> decide
    · have hpos : n / 10 ≠ 0 := by omega
      rw [Nat.toDigits_of_base_le (by decide) (by omega), List.map_append] at h
      obtain ⟨c, t, hct⟩ := List.exists_cons_of_ne_nil (render_ne_nil (n / 10))
      have hhead : (render (n / 10)).head? = some 48 := by
        rw [hct]
        unfold render at hct
        rw [hct] at h
        exact h
      exact absurd (ih (n / 10) (by omega) hhead) hpos

theorem length_render_le {n k : Nat} (hk : 0 < k) (h : n < 10 ^ k) : (render n).length ≤ k := by
  unfold render
  rw [List.length_map]
  exact (Nat.length_toDigits_le_iff (by decide) hk).mpr h

theorem value_render (n : Nat) : value (render n) = n := by
  have key : ∀ (l : List Char) (v : Nat), (∀ c ∈ l, c.isDigit = true) →
      (l.map fun c => UInt8.ofNat c.toNat).foldl (fun v c => 10 * v + (c.toNat - 48)) v = Nat.ofDigitChars 10 l v := by
    intro l
    induction l with
    | nil => exact fun v _ => rfl
    | cons c l ih =>
      intro v hl
      rw [List.map_cons, List.foldl_cons, toNat_byte (hl c List.mem_cons_self), ih _ fun d hd =>
        hl d (List.mem_cons_of_mem _ hd), Nat.ofDigitChars_cons]
      rfl
  unfold value render
  rw [key _ 0 fun c hc => Nat.isDigit_of_mem_toDigits (by decide) (by decide) hc]
  exact Nat.ofDigitChars_toDigits (by decide) (by decide)

theorem not_isSpace {c : UInt8} (hc : isDigit c = true) : isSpace c = false := by
  by_contra hs
  rw [Bool.not_eq_false, isSpace, Bool.or_eq_true, Bool.and_eq_true, decide_eq_true_eq, decide_eq_true_eq,
    beq_iff_eq] at hs
  rw [isDigit, Bool.and_eq_true, decide_eq_true_eq, decide_eq_true_eq] at hc
  obtain rfl | hs := hs
  · exact absurd hc.1 (by decide)
  · exact absurd (UInt8.le_trans hc.1 hs.2) (by decide)

theorem not_isDigit_of {c d : UInt8} (h : isDigit c = true) (hd : isDigit d = false) : c ≠ d := by
  rintro rfl
  rw [h] at hd
  cases hd

/-- Behind a first digit, `strtol` reads on through the digits. -/
theorem strtol_digit {c : UInt8} {t : List UInt8} (hc : isDigit c = true) :
    strtol (c :: t) = (min (2 ^ 63 - 1) (value ((c :: t).takeWhile isDigit) : Int), (c :: t).dropWhile isDigit) := by
  have hspace := not_isSpace hc
  have hminus := not_isDigit_of hc (show isDigit 45 = false by decide)
  have hplus := not_isDigit_of hc (show isDigit 43 = false by decide)
  have hdrop : (c :: t).dropWhile isSpace = c :: t := List.dropWhile_cons_of_neg (by simp [hspace])
  have hsign : takeSign (c :: t) = (false, c :: t) := by rw [takeSign, if_neg hminus, if_neg hplus]
  have hne : (c :: t).takeWhile isDigit ≠ [] := by
    rw [List.takeWhile_cons_of_pos hc]
    exact List.cons_ne_nil _ _
  unfold strtol
  rw [hdrop, hsign]
  dsimp only
  rw [if_neg hne, if_neg Bool.false_ne_true]

/-- Reading the digits of a number in range. -/
theorem read_render {n : Nat} (h : n < 2 ^ 64) : read (render n) = some n := by
  have hall : ∀ c ∈ render n, isDigit c = true := fun c hc => isDigit_render hc
  obtain ⟨c, t, hct⟩ := List.exists_cons_of_ne_nil (render_ne_nil n)
  have hc : isDigit c = true := hall c (hct ▸ List.mem_cons_self)
  have hspace := not_isSpace hc
  have hminus := not_isDigit_of hc (show isDigit 45 = false by decide)
  have hplus := not_isDigit_of hc (show isDigit 43 = false by decide)
  have hdrop : (render n).dropWhile isSpace = render n := by
    rw [hct, List.dropWhile_cons_of_neg (by simp [hspace])]
  have hsign : takeSign (render n) = (false, render n) := by
    rw [hct, takeSign, if_neg hminus, if_neg hplus]
  have htake : (render n).takeWhile isDigit = render n := List.takeWhile_eq_self_iff.mpr hall
  have hrest : (render n).dropWhile isDigit = [] := List.dropWhile_eq_nil_iff.mpr hall
  have hstr : strtoull (render n) = (n, false, []) := by
    unfold strtoull
    rw [hdrop, hsign]
    simp only [htake, hrest, render_ne_nil, value_render, if_false, Bool.false_eq_true]
    rw [if_neg (by omega)]
  unfold read
  rw [hstr, if_neg]
  · simp
  · rw [hct]
    simp [hminus, hplus]

end Decimal

import Qanat.ScanPlan
import Qanat.TunnelLink
import Qanat.General.Decimal
import Mathlib.Algebra.Order.Floor.Semiring
import Mathlib.Data.Rat.Floor
import Mathlib.Tactic.Linarith
import Mathlib.Tactic.NormNum
import Mathlib.Tactic.Positivity

namespace Qanat

section Count

theorem mulU64_eq {a b : Nat} (h : a * b < 2 ^ 64) : mulU64 a b = some (a * b) := by
  unfold mulU64
  rw [if_neg]
  rintro ⟨ha, hlt⟩
  rw [Nat.div_lt_iff_lt_mul (Nat.pos_of_ne_zero ha), Nat.mul_comm] at hlt
  omega

theorem addU64_eq {a b : Nat} (h : a + b < 2 ^ 64) : addU64 a b = some (a + b) := by
  unfold addU64
  rw [if_neg (by omega)]

/-- Dividing the two parts apart rounds up the same. -/
theorem ceil_split (total ppm : Nat) :
    total / coverageScale * ppm + (total % coverageScale * ppm / coverageScale +
      if total % coverageScale * ppm % coverageScale ≠ 0 then 1 else 0) = (total * ppm + (coverageScale - 1)) / coverageScale := by
  have hsplit : total * ppm = coverageScale * (total / coverageScale * ppm) + total % coverageScale * ppm := by
    conv_lhs => rw [← Nat.div_add_mod total coverageScale, Nat.add_mul, Nat.mul_assoc]
  rw [hsplit]
  generalize total / coverageScale * ppm = whole
  generalize total % coverageScale * ppm = scaled
  unfold coverageScale
  split <;> omega

theorem coverageCount_some {total ppm count : Nat} (h : coverageCount total ppm = some count) :
    count = (total * ppm + (coverageScale - 1)) / coverageScale := by
  unfold coverageCount at h
  split at h
  next => cases h
  next =>
    split at h
    next whole scaled hwhole hscaled =>
      rw [← ceil_split, mulU64_some hwhole, mulU64_some hscaled]
      exact (addU64_some h).symm
    next => cases h

theorem coverageCount_eq {total ppm : Nat} (h0 : 0 < total) (h64 : total < 2 ^ 64) (hlow : 100 ≤ ppm)
    (hhigh : ppm ≤ coverageScale) :
    coverageCount total ppm = some ((total * ppm + (coverageScale - 1)) / coverageScale) := by
  have hwhole : total / coverageScale * ppm ≤ total := by
    calc total / coverageScale * ppm ≤ total / coverageScale * coverageScale := Nat.mul_le_mul_left _ hhigh
      _ ≤ total := Nat.div_mul_le_self _ _
  have hscaled : total % coverageScale * ppm < 2 ^ 64 := by
    have hlt : total % coverageScale < coverageScale := Nat.mod_lt _ (by decide)
    calc total % coverageScale * ppm ≤ coverageScale * coverageScale := Nat.mul_le_mul hlt.le hhigh
      _ < 2 ^ 64 := by decide
  have hsum : (total * ppm + (coverageScale - 1)) / coverageScale ≤ total := by
    have : total * ppm ≤ total * coverageScale := Nat.mul_le_mul_left _ hhigh
    unfold coverageScale at *
    omega
  unfold coverageCount
  rw [if_neg (by omega), mulU64_eq (by omega), mulU64_eq hscaled]
  dsimp only
  rw [addU64_eq (by rw [ceil_split]; omega), ceil_split]

theorem ceil_eq (n : Nat) : (n + (coverageScale - 1)) / coverageScale = ⌈(n / coverageScale : ℚ)⌉₊ := by
  refine eq_of_forall_ge_iff fun k => ?_
  have hpos : (0 : ℚ) < coverageScale := rfl
  rw [Nat.ceil_le, div_le_iff₀ hpos, ← Nat.cast_mul, Nat.cast_le]
  unfold coverageScale
  omega

end Count

section Parse

/-- The digits before the point. -/
def coverageWhole (whole : Nat) : Bytes → Option (Nat × Bytes)
  | [] => some (whole, [])
  | c :: t =>
    if Decimal.isDigit c then
      let whole := whole * 10 + (c.toNat - 48)
      if 100 < whole then none else coverageWhole whole t
    else some (whole, c :: t)

/-- The digits behind the point, of which there are at most four. -/
def coverageDigits (digits fraction : Nat) : Bytes → Option (Nat × Nat × Bytes)
  | [] => some (digits, fraction, [])
  | c :: t =>
    if Decimal.isDigit c then
      if 4 ≤ digits then none else coverageDigits (digits + 1) (fraction * 10 + (c.toNat - 48)) t
    else some (digits, fraction, c :: t)

def coverageFraction (s : Bytes) : Option (Nat × Nat × Bytes) :=
  if s.head? = some chDot then if s.tail.head?.any Decimal.isDigit then coverageDigits 0 0 s.tail else none
  else some (0, 0, s)

/-- The loop that fills the fraction up to four digits. -/
def padFraction : Nat → Nat → Nat
  | 0, fraction => fraction
  | k + 1, fraction => padFraction k (fraction * 10)

/-- `qn_coverage_parse`. -/
def coverageParse (text : Bytes) : Option Nat :=
  if text = [] ∨ text.head? = some 43 ∨ text.head? = some chDash then none
  else if !text.head?.any Decimal.isDigit then none
  else do
    let (whole, s) ← coverageWhole 0 text
    let (digits, fraction, s) ← coverageFraction s
    let s := if s.head? = some chPercent then s.tail else s
    if s ≠ [] then none
    else
      let fraction := padFraction (4 - digits) fraction + whole * 10000
      if fraction < 100 ∨ coverageScale < fraction then none else some fraction

/-- A decimal with digits before the point, at most four behind it, and perhaps a percent sign. -/
structure CoverageText (text whole fraction : Bytes) : Prop where
  whole_ne : whole ≠ []
  whole_digits : ∀ c ∈ whole, Decimal.isDigit c = true
  fraction_digits : ∀ c ∈ fraction, Decimal.isDigit c = true
  fraction_length : fraction.length ≤ 4
  shape : ∃ percent : Bool, text = whole ++ (if fraction = [] then [] else chDot :: fraction) ++
    if percent then [chPercent] else []

/-- The exact value of the decimal. -/
def coverageValue (whole fraction : Bytes) : ℚ :=
  Decimal.value whole + Decimal.value fraction / 10 ^ fraction.length

theorem padFraction_eq (k fraction : Nat) : padFraction k fraction = fraction * 10 ^ k := by
  induction k generalizing fraction with
  | zero => rw [padFraction, Nat.pow_zero, Nat.mul_one]
  | succ k ih => rw [padFraction, ih, Nat.pow_succ, Nat.mul_assoc, Nat.mul_comm 10]

/-- The value of digits behind a number. -/
def valueFrom (v : Nat) (ds : Bytes) : Nat :=
  ds.foldl (fun v c => 10 * v + (c.toNat - 48)) v

theorem le_valueFrom (v : Nat) (ds : Bytes) : v ≤ valueFrom v ds := by
  induction ds generalizing v with
  | nil => exact Nat.le_refl _
  | cons c ds ih =>
    have := ih (10 * v + (c.toNat - 48))
    rw [valueFrom, List.foldl_cons]
    exact Nat.le_trans (by omega) this

theorem coverageWhole_eq {v : Nat} (hv : v ≤ 100) (text : Bytes) :
    coverageWhole v text =
      if 100 < valueFrom v (text.takeWhile Decimal.isDigit) then none
      else some (valueFrom v (text.takeWhile Decimal.isDigit), text.dropWhile Decimal.isDigit) := by
  induction text generalizing v with
  | nil => rw [coverageWhole, List.takeWhile_nil, if_neg (show ¬ 100 < valueFrom v [] from Nat.not_lt_of_le hv)]; rfl
  | cons c t ih =>
    unfold coverageWhole
    by_cases hc : Decimal.isDigit c = true
    · have hnext : valueFrom v (c :: t.takeWhile Decimal.isDigit) =
          valueFrom (v * 10 + (c.toNat - 48)) (t.takeWhile Decimal.isDigit) := by
        rw [valueFrom, List.foldl_cons, Nat.mul_comm 10]
        rfl
      rw [if_pos hc, List.takeWhile_cons_of_pos hc, List.dropWhile_cons_of_pos hc, hnext]
      dsimp only
      split
      next hbig =>
        have := le_valueFrom (v * 10 + (c.toNat - 48)) (t.takeWhile Decimal.isDigit)
        rw [if_pos (by omega)]
      next hsmall => exact ih (by omega)
    · rw [if_neg hc, List.takeWhile_cons_of_neg hc, List.dropWhile_cons_of_neg hc,
        if_neg (show ¬ 100 < valueFrom v [] from Nat.not_lt_of_le hv)]
      rfl

theorem coverageDigits_eq {digits : Nat} (hd : digits ≤ 4) (fraction : Nat) (text : Bytes) :
    coverageDigits digits fraction text =
      if 4 < digits + (text.takeWhile Decimal.isDigit).length then none
      else some (digits + (text.takeWhile Decimal.isDigit).length, valueFrom fraction (text.takeWhile Decimal.isDigit),
        text.dropWhile Decimal.isDigit) := by
  induction text generalizing digits fraction with
  | nil => rw [coverageDigits, List.takeWhile_nil, List.length_nil, if_neg (by omega)]; rfl
  | cons c t ih =>
    unfold coverageDigits
    by_cases hc : Decimal.isDigit c = true
    · rw [if_pos hc, List.takeWhile_cons_of_pos hc, List.dropWhile_cons_of_pos hc, List.length_cons]
      split
      next => rw [if_pos (by omega)]
      next =>
        rw [ih (by omega), valueFrom, valueFrom, List.foldl_cons, Nat.mul_comm 10,
          show digits + 1 + (t.takeWhile Decimal.isDigit).length = digits + ((t.takeWhile Decimal.isDigit).length + 1) by omega]
    · rw [if_neg hc, List.takeWhile_cons_of_neg hc, List.dropWhile_cons_of_neg hc, List.length_nil, if_neg (by omega)]
      rfl

theorem coverage_scaled (whole : Bytes) {fraction : Bytes} (h : fraction.length ≤ 4) :
    ((padFraction (4 - fraction.length) (Decimal.value fraction) + Decimal.value whole * 10000 : Nat) : ℚ) =
      coverageValue whole fraction * 10000 := by
  have hpow : (10 : ℚ) ^ (4 - fraction.length) * 10 ^ fraction.length = 10000 := by
    rw [← pow_add, Nat.sub_add_cancel h]
    norm_num
  have hne : (10 : ℚ) ^ fraction.length ≠ 0 := pow_ne_zero _ (by norm_num)
  have hfraction : (Decimal.value fraction : ℚ) * 10 ^ (4 - fraction.length) =
      Decimal.value fraction / 10 ^ fraction.length * 10000 := by
    rw [div_mul_eq_mul_div, eq_div_iff hne, mul_assoc, hpow]
  rw [padFraction_eq, coverageValue]
  push_cast
  rw [hfraction, add_mul, add_comm]

theorem coverage_range {whole fraction : Bytes} (h : fraction.length ≤ 4) {v : Nat}
    (hv : v = padFraction (4 - fraction.length) (Decimal.value fraction) + Decimal.value whole * 10000) :
    (v : ℚ) = coverageValue whole fraction * 10000 ∧
      (100 ≤ v ∧ v ≤ coverageScale ↔ 1 / 100 ≤ coverageValue whole fraction ∧ coverageValue whole fraction ≤ 100) := by
  have hscaled := coverage_scaled whole h
  rw [← hv] at hscaled
  refine ⟨hscaled, and_congr ?_ ?_⟩
  · rw [← Nat.cast_le (α := ℚ), hscaled]
    constructor <;>
    · intro hle
      norm_num at *
      linarith
  · rw [← Nat.cast_le (α := ℚ), hscaled]
    unfold coverageScale
    constructor <;>
    · intro hle
      norm_num at *
      linarith

/-- What the part from the point on reads. -/
theorem coverageFraction_some {s rest : Bytes} {digits fraction : Nat}
    (h : coverageFraction s = some (digits, fraction, rest)) :
    ∃ f : Bytes, (∀ c ∈ f, Decimal.isDigit c = true) ∧ f.length ≤ 4 ∧ digits = f.length ∧ fraction = Decimal.value f ∧
      s = (if f = [] then [] else chDot :: f) ++ rest := by
  unfold coverageFraction at h
  split at h
  next hdot =>
    obtain ⟨t, rfl⟩ : ∃ t, s = chDot :: t := by
      cases s with
      | nil => cases hdot
      | cons c t => exact ⟨t, by rw [Option.some.inj hdot]⟩
    split at h
    next hany =>
      rw [List.tail_cons, coverageDigits_eq (Nat.zero_le 4), Nat.zero_add] at h
      split at h
      next => cases h
      next hlen =>
        obtain ⟨rfl, hpair⟩ := Prod.mk.inj (Option.some.inj h)
        obtain ⟨rfl, rfl⟩ := Prod.mk.inj hpair
        have hne : t.takeWhile Decimal.isDigit ≠ [] := by
          cases t with
          | nil => cases hany
          | cons c t =>
            rw [List.takeWhile_cons_of_pos (by simpa using hany)]
            exact List.cons_ne_nil _ _
        refine ⟨t.takeWhile Decimal.isDigit, fun c hc => List.mem_takeWhile_imp hc, by omega, rfl, rfl, ?_⟩
        rw [if_neg hne, List.cons_append, List.takeWhile_append_dropWhile]
    next => cases h
  next =>
    obtain ⟨rfl, hpair⟩ := Prod.mk.inj (Option.some.inj h)
    obtain ⟨rfl, rfl⟩ := Prod.mk.inj hpair
    exact ⟨[], by simp, by simp, rfl, rfl, rfl⟩

theorem percent_rest {rest : Bytes} (h : (if rest.head? = some chPercent then rest.tail else rest) = []) :
    ∃ percent : Bool, rest = if percent then [chPercent] else [] := by
  split at h
  next hhead =>
    cases rest with
    | nil => cases hhead
    | cons c t =>
      rw [List.tail_cons] at h
      exact ⟨true, by rw [h, Option.some.inj hhead]; rfl⟩
  next => exact ⟨false, h⟩

theorem takeWhile_stop {rest : Bytes} (h : rest.head?.any Decimal.isDigit = false) :
    rest.takeWhile Decimal.isDigit = [] := by
  cases rest with
  | nil => rfl
  | cons c t => exact List.takeWhile_cons_of_neg (by simpa using h)

theorem dropWhile_stop {rest : Bytes} (h : rest.head?.any Decimal.isDigit = false) :
    rest.dropWhile Decimal.isDigit = rest := by
  cases rest with
  | nil => rfl
  | cons c t => exact List.dropWhile_cons_of_neg (by simpa using h)

theorem coverageParse_sound {text : Bytes} {v : Nat} (h : coverageParse text = some v) :
    ∃ whole fraction, CoverageText text whole fraction ∧ 1 / 100 ≤ coverageValue whole fraction ∧
      coverageValue whole fraction ≤ 100 ∧ (v : ℚ) = coverageValue whole fraction * 10000 := by
  unfold coverageParse at h
  split at h
  next => cases h
  next =>
    split at h
    next => cases h
    next hhead =>
      obtain ⟨⟨w, s⟩, hwhole, h⟩ := Option.bind_eq_some_iff.mp h
      obtain ⟨⟨digits, fraction, rest⟩, hfraction, h⟩ := Option.bind_eq_some_iff.mp h
      rw [coverageWhole_eq (by decide)] at hwhole
      split at hwhole
      next => cases hwhole
      next =>
        obtain ⟨rfl, rfl⟩ := Prod.mk.inj (Option.some.inj hwhole)
        obtain ⟨f, hf, hlen, rfl, rfl, hs⟩ := coverageFraction_some hfraction
        dsimp only at h
        by_cases hend : (if rest.head? = some chPercent then rest.tail else rest) = []
        · rw [if_neg (not_not.mpr hend)] at h
          split at h
          next => cases h
          next hrange =>
            have hv := Option.some.inj h
            obtain ⟨hvalue, hiff⟩ := @coverage_range (text.takeWhile Decimal.isDigit) _ hlen _ hv.symm
            rw [hv, not_or, Nat.not_lt, Nat.not_lt] at hrange
            obtain ⟨hlow, hhigh⟩ := hiff.mp hrange
            refine ⟨text.takeWhile Decimal.isDigit, f, ⟨?_, fun c hc => List.mem_takeWhile_imp hc, hf, hlen, ?_⟩, hlow,
              hhigh, hvalue⟩
            · cases text with
              | nil => simp at hhead
              | cons c t =>
                rw [List.takeWhile_cons_of_pos (by simpa using hhead)]
                exact List.cons_ne_nil _ _
            · obtain ⟨percent, rfl⟩ := percent_rest hend
              refine ⟨percent, ?_⟩
              rw [List.append_assoc, ← hs, List.takeWhile_append_dropWhile]
        · rw [if_pos hend] at h
          cases h

theorem percent_iff {percent : Bool} :
    (if (if percent then [chPercent] else ([] : Bytes)).head? = some chPercent then
      (if percent then [chPercent] else ([] : Bytes)).tail else if percent then [chPercent] else []) = [] := by
  cases percent <;> rfl

theorem coverageFraction_eq {f rest : Bytes} (hf : ∀ c ∈ f, Decimal.isDigit c = true) (hlen : f.length ≤ 4)
    (hrest : rest.head? ≠ some chDot) (hstop : rest.head?.any Decimal.isDigit = false) :
    coverageFraction ((if f = [] then [] else chDot :: f) ++ rest) = some (f.length, Decimal.value f, rest) := by
  unfold coverageFraction
  by_cases hnil : f = []
  · subst hnil
    rw [if_pos rfl, List.nil_append, if_neg hrest]
    rfl
  · obtain ⟨c, t, rfl⟩ := List.exists_cons_of_ne_nil hnil
    have htake : ((c :: t) ++ rest).takeWhile Decimal.isDigit = c :: t := by
      rw [List.takeWhile_append_of_pos hf, takeWhile_stop hstop, List.append_nil]
    have hdrop : ((c :: t) ++ rest).dropWhile Decimal.isDigit = rest := by
      rw [List.dropWhile_append_of_pos hf, dropWhile_stop hstop]
    rw [if_neg hnil, List.cons_append, List.head?_cons, if_pos rfl, List.tail_cons,
      if_pos (by simpa using hf c List.mem_cons_self), coverageDigits_eq (Nat.zero_le 4), htake, hdrop, Nat.zero_add,
      if_neg (by omega)]
    rfl

/-- Every decimal of that shape and range is read, as its exact value. -/
theorem coverageParse_complete {text whole fraction : Bytes} (ht : CoverageText text whole fraction)
    (hlow : 1 / 100 ≤ coverageValue whole fraction) (hhigh : coverageValue whole fraction ≤ 100) {v : Nat}
    (hv : (v : ℚ) = coverageValue whole fraction * 10000) : coverageParse text = some v := by
  obtain ⟨percent, htext⟩ := ht.shape
  obtain ⟨c, t, hc⟩ := List.exists_cons_of_ne_nil ht.whole_ne
  have hcd : Decimal.isDigit c = true := ht.whole_digits c (by rw [hc]; exact List.mem_cons_self)
  have hhead : text.head? = some c := by rw [htext, hc]; rfl
  have hpercent : (if percent then [chPercent] else ([] : Bytes)).head?.any Decimal.isDigit = false ∧
      (if percent then [chPercent] else ([] : Bytes)).head? ≠ some chDot := by
    cases percent <;> decide
  have hstop : ((if fraction = [] then [] else chDot :: fraction) ++
      if percent then [chPercent] else []).head?.any Decimal.isDigit = false := by
    split
    next => exact hpercent.1
    next => rfl
  have htake : text.takeWhile Decimal.isDigit = whole := by
    rw [htext, List.append_assoc, List.takeWhile_append_of_pos ht.whole_digits, takeWhile_stop hstop, List.append_nil]
  have hdrop : text.dropWhile Decimal.isDigit = (if fraction = [] then [] else chDot :: fraction) ++
      if percent then [chPercent] else [] := by
    rw [htext, List.append_assoc, List.dropWhile_append_of_pos ht.whole_digits, dropWhile_stop hstop]
  have hwhole : Decimal.value whole ≤ 100 := by
    have hnonneg : (0 : ℚ) ≤ Decimal.value fraction / 10 ^ fraction.length := by positivity
    have hle : (Decimal.value whole : ℚ) ≤ 100 := by
      unfold coverageValue at hhigh
      linarith
    exact_mod_cast hle
  have hscaled := @coverage_range whole _ ht.fraction_length _ rfl
  rw [hscaled.1.symm] at hv
  have hvnat : v = padFraction (4 - fraction.length) (Decimal.value fraction) + Decimal.value whole * 10000 := by
    exact_mod_cast hv
  have hrange := hscaled.2.mpr ⟨hlow, hhigh⟩
  rw [← hvnat] at hrange
  unfold coverageParse
  rw [hhead, if_neg, if_neg]
  · rw [coverageWhole_eq (by decide), htake, hdrop, show valueFrom 0 whole = Decimal.value whole from rfl,
      if_neg (Nat.not_lt_of_le hwhole)]
    simp only [Option.bind_eq_bind, Option.bind_some]
    rw [coverageFraction_eq ht.fraction_digits ht.fraction_length hpercent.2 hpercent.1, Option.bind_some]
    dsimp only
    rw [percent_iff, if_neg (by simp), ← hvnat, if_neg (by omega)]
  · simpa using hcd
  · rintro (hnil | hplus | hminus)
    · rw [hnil] at hhead
      cases hhead
    · exact Decimal.not_isDigit_of hcd (by decide) (Option.some.inj hplus)
    · exact Decimal.not_isDigit_of hcd (by decide) (Option.some.inj hminus)

end Parse

/-- Coverage is counted rounded up and read exactly. -/
theorem coverage_exact :
    (∀ total ppm, 1 ≤ total → total ≤ 2 ^ 64 - 1 → 100 ≤ ppm → ppm ≤ 1000000 →
      ∃ count, coverageCount total ppm = some count ∧ count = ⌈(total * ppm / 1000000 : ℚ)⌉₊ ∧ 1 ≤ count ∧ count ≤ total ∧
        (ppm = 1000000 → count = total)) ∧
    (∀ total total' ppm ppm' count count', coverageCount total ppm = some count →
      coverageCount total' ppm' = some count' → total ≤ total' → ppm ≤ ppm' → count ≤ count') ∧
    ∀ text v, coverageParse text = some v ↔
      ∃ whole fraction, CoverageText text whole fraction ∧ 1 / 100 ≤ coverageValue whole fraction ∧
        coverageValue whole fraction ≤ 100 ∧ (v : ℚ) = coverageValue whole fraction * 10000 := by
  refine ⟨fun total ppm h0 h64 hlow hhigh => ?_, fun total total' ppm ppm' count count' h h' ht hp => ?_, fun text v => ?_⟩
  · have heq := coverageCount_eq h0 (by omega) hlow hhigh
    obtain ⟨hle, hfull⟩ := coverageCount_le heq
    refine ⟨_, heq, ?_, ?_, hle, hfull⟩
    · rw [ceil_eq]
      push_cast
      rfl
    · have hprod : 1 ≤ total * ppm := Nat.mul_pos h0 (by omega)
      unfold coverageScale
      omega
  · rw [coverageCount_some h, coverageCount_some h']
    exact Nat.div_le_div_right (Nat.add_le_add_right (Nat.mul_le_mul ht hp) _)
  · constructor
    · exact coverageParse_sound
    · rintro ⟨whole, fraction, ht, hlow, hhigh, hv⟩
      exact coverageParse_complete ht hlow hhigh hv

example : coverageParse (ascii "012.5%".toList) = some 125000 := by decide

end Qanat

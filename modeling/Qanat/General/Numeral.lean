import Qanat.General.Decimal

namespace Numeral

open Decimal

/-- The digit a byte stands for, in bases up to 36; 36 where it is none. -/
def digit (c : UInt8) : Nat :=
  if isDigit c then c.toNat - 48
  else if 97 ≤ c.toNat ∧ c.toNat ≤ 122 then c.toNat - 87
  else if 65 ≤ c.toNat ∧ c.toNat ≤ 90 then c.toNat - 55
  else 36

def valueIn (base : Nat) (ds : List UInt8) : Nat :=
  ds.foldl (fun v c => base * v + digit c) 0

/-- The digits at the front of a text: their number, and what stands behind them. -/
def digitsIn (base : Nat) (t : List UInt8) : Option (Nat × List UInt8) :=
  if t.takeWhile (digit · < base) = [] then none
  else some (valueIn base (t.takeWhile (digit · < base)), t.dropWhile (digit · < base))

/-- Whether a hexadecimal digit follows the mark of base sixteen. -/
def hexMarked (t : List UInt8) : Bool :=
  (t.getD 1 0 == 120 || t.getD 1 0 == 88) && digit (t.getD 2 0) < 16

/-- Digits in the base that their front shows, as in base zero of `strtoull`. -/
def digitsAuto (t : List UInt8) : Option (Nat × List UInt8) :=
  if t.head? = some 48 then if hexMarked t then digitsIn 16 (t.drop 2) else digitsIn 8 t
  else digitsIn 10 t

/-- `strtoull`, by how it reads digits: the value, whether it was out of range, and what stands behind. -/
def strtoull (num : List UInt8 → Option (Nat × List UInt8)) (text : List UInt8) : Nat × Bool × List UInt8 :=
  let s := takeSign (text.dropWhile isSpace)
  match num s.2 with
  | none => (0, false, text)
  | some (m, rest) =>
    if 2 ^ 64 - 1 < m then (2 ^ 64 - 1, true, rest) else (if s.1 then (2 ^ 64 - m) % 2 ^ 64 else m, false, rest)

theorem digit_lt_ten (c : UInt8) : digit c < 10 ↔ isDigit c = true := by
  unfold digit
  by_cases h : isDigit c = true
  · have hb : 48 ≤ c.toNat ∧ c.toNat ≤ 57 := by
      rw [isDigit, Bool.and_eq_true, decide_eq_true_eq, decide_eq_true_eq] at h
      exact ⟨UInt8.le_iff_toNat_le.mp h.1, UInt8.le_iff_toNat_le.mp h.2⟩
    rw [if_pos h]
    exact ⟨fun _ => h, fun _ => by omega⟩
  · rw [if_neg h]
    refine ⟨fun hlt => ?_, fun hd => absurd hd h⟩
    split at hlt
    next => omega
    next =>
      split at hlt
      next => omega
      next => omega

/-- A digit is no white space and no sign. -/
theorem digit_plain {c : UInt8} (h : digit c < 36) : isSpace c = false ∧ c ≠ 45 ∧ c ≠ 43 := by
  refine ⟨?_, ?_, ?_⟩
  · by_contra hs
    rw [Bool.not_eq_false, isSpace, Bool.or_eq_true, Bool.and_eq_true, decide_eq_true_eq, decide_eq_true_eq,
      beq_iff_eq, UInt8.le_iff_toNat_le, UInt8.le_iff_toNat_le] at hs
    rcases hs with rfl | ⟨hlo, hhi⟩
    · exact absurd h (by decide)
    · have hhi : c.toNat ≤ 13 := hhi
      have hnd : ¬isDigit c = true := by
        rw [isDigit, Bool.and_eq_true, decide_eq_true_eq, decide_eq_true_eq, UInt8.le_iff_toNat_le]
        intro hd
        have : 48 ≤ c.toNat := hd.1
        omega
      rw [digit, if_neg hnd, if_neg (by omega), if_neg (by omega)] at h
      omega
  · rintro rfl
    exact absurd h (by decide)
  · rintro rfl
    exact absurd h (by decide)

theorem valueIn_ten {ds : List UInt8} (h : ∀ c ∈ ds, isDigit c = true) : valueIn 10 ds = value ds := by
  have key : ∀ v, ds.foldl (fun v c => 10 * v + digit c) v = ds.foldl (fun v c => 10 * v + (c.toNat - 48)) v := by
    induction ds with
    | nil => exact fun _ => rfl
    | cons c ds ih =>
      intro v
      have hc : digit c = c.toNat - 48 := if_pos (h c List.mem_cons_self)
      rw [List.foldl_cons, List.foldl_cons, hc]
      exact ih (fun d hd => h d (List.mem_cons_of_mem c hd)) _
  exact key 0

theorem digitsIn_eq_some {base m : Nat} {t rest : List UInt8} : digitsIn base t = some (m, rest) ↔
    ∃ ds, ds ≠ [] ∧ (∀ c ∈ ds, digit c < base) ∧ t = ds ++ rest ∧ m = valueIn base ds ∧
      ∀ c ∈ rest.head?, ¬digit c < base := by
  unfold digitsIn
  constructor
  · intro h
    split at h
    next => cases h
    next hne =>
      obtain ⟨rfl, rfl⟩ := Prod.mk.inj (Option.some.inj h)
      refine ⟨_, hne, ?_, List.takeWhile_append_dropWhile.symm, rfl, ?_⟩
      · intro c hc
        simpa using List.mem_takeWhile_imp hc
      · intro c hc
        have hnot := List.head?_dropWhile_not (fun c => decide (digit c < base)) t
        rw [Option.mem_def.mp hc] at hnot
        simpa using hnot
  · rintro ⟨ds, hne, hds, rfl, rfl, hrest⟩
    have hall : ∀ c ∈ ds, decide (digit c < base) = true := fun c hc => decide_eq_true (hds c hc)
    have htake : (ds ++ rest).takeWhile (digit · < base) = ds := by
      rw [List.takeWhile_append_of_pos hall]
      cases rest with
      | nil => exact List.append_nil ds
      | cons c rest => rw [List.takeWhile_cons_of_neg (by simpa using hrest c rfl), List.append_nil]
    have hdrop : (ds ++ rest).dropWhile (digit · < base) = rest := by
      rw [List.dropWhile_append_of_pos hall]
      cases rest with
      | nil => rfl
      | cons c rest => exact List.dropWhile_cons_of_neg (by simpa using hrest c rfl)
    rw [htake, hdrop, if_neg hne]

/-- A way to read digits that takes neither white space nor a sign for one. -/
def Plain (num : List UInt8 → Option (Nat × List UInt8)) : Prop :=
  ∀ t r, num t = some r → ∃ c ∈ t.head?, isSpace c = false ∧ c ≠ 45 ∧ c ≠ 43

theorem plain_digitsIn {base : Nat} (hbase : base ≤ 36) : Plain (digitsIn base) := by
  rintro t ⟨m, rest⟩ h
  obtain ⟨ds, hne, hds, rfl, -, -⟩ := digitsIn_eq_some.mp h
  obtain ⟨c, ds, rfl⟩ := List.exists_cons_of_ne_nil hne
  exact ⟨c, rfl, digit_plain ((hds c List.mem_cons_self).trans_le hbase)⟩

theorem plain_digitsAuto : Plain digitsAuto := by
  intro t r h
  unfold digitsAuto at h
  split at h
  next hzero => exact ⟨48, hzero, digit_plain (by decide)⟩
  next => exact plain_digitsIn (by omega) t r h

/-- White space, and a sign or none. -/
inductive Front : List UInt8 → List UInt8 → Bool → Prop
  | bare {sp body : List UInt8} : (∀ c ∈ sp, isSpace c = true) → Front (sp ++ body) body false
  | plus {sp body : List UInt8} : (∀ c ∈ sp, isSpace c = true) → Front (sp ++ 43 :: body) body false
  | minus {sp body : List UInt8} : (∀ c ∈ sp, isSpace c = true) → Front (sp ++ 45 :: body) body true

theorem Front.length_le {text body : List UInt8} {neg : Bool} (h : Front text body neg) :
    body.length ≤ text.length := by
  cases h <;> simp only [List.length_append, List.length_cons] <;> omega

theorem exists_front (text : List UInt8) :
    Front text (takeSign (text.dropWhile isSpace)).2 (takeSign (text.dropWhile isSpace)).1 := by
  have hsp : ∀ c ∈ text.takeWhile isSpace, isSpace c = true := fun c hc => List.mem_takeWhile_imp hc
  have hsplit : text.takeWhile isSpace ++ text.dropWhile isSpace = text := List.takeWhile_append_dropWhile
  cases hdrop : text.dropWhile isSpace with
  | nil =>
    rw [hdrop] at hsplit
    have h := @Front.bare _ [] hsp
    rwa [hsplit] at h
  | cons c t =>
    rw [hdrop] at hsplit
    by_cases hminus : c = 45
    · subst hminus
      have h := @Front.minus _ t hsp
      rwa [hsplit] at h
    · by_cases hplus : c = 43
      · subst hplus
        have h := @Front.plus _ t hsp
        rwa [hsplit] at h
      · have hsign : takeSign (c :: t) = (false, c :: t) := by rw [takeSign, if_neg hminus, if_neg hplus]
        have h := @Front.bare _ (c :: t) hsp
        rw [hsign]
        rwa [hsplit] at h

theorem dropWhile_space {sp t : List UInt8} (hsp : ∀ c ∈ sp, isSpace c = true) {c : UInt8} (hc : isSpace c = false) :
    (sp ++ c :: t).dropWhile isSpace = c :: t := by
  rw [List.dropWhile_append_of_pos hsp]
  exact List.dropWhile_cons_of_neg (by simp [hc])

theorem Front.takeSign_eq {num : List UInt8 → Option (Nat × List UInt8)} (hnum : Plain num)
    {text body : List UInt8} {neg : Bool} (h : Front text body neg) {r : Nat × List UInt8} (hr : num body = some r) :
    takeSign (text.dropWhile isSpace) = (neg, body) := by
  cases h with
  | bare hsp =>
    obtain ⟨c, hc, hspace, hminus, hplus⟩ := hnum body r hr
    obtain ⟨t, rfl⟩ := List.head?_eq_some_iff.mp hc
    rw [dropWhile_space hsp hspace, takeSign, if_neg hminus, if_neg hplus]
  | plus hsp =>
    rw [dropWhile_space hsp (by decide)]
    rfl
  | minus hsp =>
    rw [dropWhile_space hsp (by decide)]
    rfl

/-- The value is that of the digits behind white space and a sign, negated below zero. -/
theorem strtoull_front {num : List UInt8 → Option (Nat × List UInt8)} (hnum : Plain num) {text body rest : List UInt8}
    {neg : Bool} {m : Nat} (h : Front text body neg) (hr : num body = some (m, rest)) :
    strtoull num text =
      if 2 ^ 64 - 1 < m then (2 ^ 64 - 1, true, rest) else (if neg then (2 ^ 64 - m) % 2 ^ 64 else m, false, rest) := by
  unfold strtoull
  rw [h.takeSign_eq hnum hr]
  dsimp only
  rw [hr]

theorem strtoull_none {num : List UInt8 → Option (Nat × List UInt8)} {text : List UInt8}
    (h : num (takeSign (text.dropWhile isSpace)).2 = none) : strtoull num text = (0, false, text) := by
  unfold strtoull
  dsimp only
  rw [h]

/-- Base ten is the one in `Decimal`. -/
theorem strtoull_ten (text : List UInt8) : Decimal.strtoull text = strtoull (digitsIn 10) text := by
  have hpred : (fun c => decide (digit c < 10)) = isDigit := by
    funext c
    rw [Bool.eq_iff_iff, decide_eq_true_eq]
    exact digit_lt_ten c
  unfold Decimal.strtoull strtoull digitsIn
  rw [hpred]
  dsimp only
  by_cases hnone : (takeSign (text.dropWhile isSpace)).2.takeWhile isDigit = []
  · rw [if_pos hnone, if_pos hnone]
  · rw [if_neg hnone, if_neg hnone, valueIn_ten fun c hc => List.mem_takeWhile_imp hc]

/-- An integer constant, in the base that its front shows. -/
inductive Literal : List UInt8 → Nat → Prop
  | decimal {ds : List UInt8} : ds ≠ [] → ds.head? ≠ some 48 → (∀ c ∈ ds, digit c < 10) → Literal ds (valueIn 10 ds)
  | octal {ds : List UInt8} : (∀ c ∈ ds, digit c < 8) → Literal (48 :: ds) (valueIn 8 ds)
  | hex {x : UInt8} {ds : List UInt8} : x = 120 ∨ x = 88 → ds ≠ [] → (∀ c ∈ ds, digit c < 16) →
      Literal (48 :: x :: ds) (valueIn 16 ds)

theorem digitsIn_all {base m : Nat} {t : List UInt8} :
    digitsIn base t = some (m, []) ↔ t ≠ [] ∧ (∀ c ∈ t, digit c < base) ∧ m = valueIn base t := by
  rw [digitsIn_eq_some]
  constructor
  · rintro ⟨ds, hne, hds, rfl, rfl, -⟩
    rw [List.append_nil]
    exact ⟨hne, hds, rfl⟩
  · rintro ⟨hne, hds, rfl⟩
    exact ⟨t, hne, hds, (List.append_nil t).symm, rfl, fun c hc => by cases hc⟩

theorem valueIn_zero_cons (base : Nat) (ds : List UInt8) : valueIn base (48 :: ds) = valueIn base ds := by
  rw [valueIn, List.foldl_cons]
  rfl

/-- Reading a whole text in the base it shows. -/
theorem digitsAuto_all {t : List UInt8} {m : Nat} : digitsAuto t = some (m, []) ↔ Literal t m := by
  unfold digitsAuto
  by_cases hzero : t.head? = some 48
  · obtain ⟨t, rfl⟩ := List.head?_eq_some_iff.mp hzero
    rw [if_pos hzero]
    by_cases hmark : hexMarked (48 :: t) = true
    · rw [if_pos hmark, digitsIn_all]
      rw [hexMarked, Bool.and_eq_true, Bool.or_eq_true, beq_iff_eq, beq_iff_eq, decide_eq_true_eq] at hmark
      obtain ⟨hx, hh⟩ := hmark
      match t with
      | [] => exact absurd hx (by decide)
      | [x] => exact absurd hh (show ¬digit 0 < 16 by decide)
      | x :: h :: t =>
        constructor
        · rintro ⟨hne, hall, rfl⟩
          exact .hex hx hne hall
        · intro hlit
          cases hlit with
          | decimal _ hhead _ => exact absurd rfl hhead
          | octal hall =>
            have hx8 := hall x List.mem_cons_self
            have hx : x = 120 ∨ x = 88 := hx
            rcases hx with rfl | rfl <;> exact absurd hx8 (by decide)
          | hex _ hne hall => exact ⟨hne, hall, rfl⟩
    · rw [if_neg hmark, digitsIn_all]
      constructor
      · rintro ⟨-, hall, rfl⟩
        rw [valueIn_zero_cons]
        exact .octal fun c hc => hall c (List.mem_cons_of_mem _ hc)
      · intro hlit
        cases hlit with
        | decimal _ hhead _ => exact absurd rfl hhead
        | octal hall =>
          refine ⟨List.cons_ne_nil _ _, List.forall_mem_cons.mpr ⟨by decide, hall⟩, ?_⟩
          rw [valueIn_zero_cons]
        | @hex x ds hx hne hall =>
          obtain ⟨h, ds, rfl⟩ := List.exists_cons_of_ne_nil hne
          refine absurd ?_ hmark
          have hh : digit h < 16 := hall h List.mem_cons_self
          rcases hx with rfl | rfl
          · simp [hexMarked, hh]
          · simp [hexMarked, hh]
  · rw [if_neg hzero, digitsIn_all]
    constructor
    · rintro ⟨hne, hall, rfl⟩
      exact .decimal hne hzero hall
    · intro hlit
      cases hlit with
      | decimal hne _ hall => exact ⟨hne, hall, rfl⟩
      | octal _ => exact absurd rfl hzero
      | hex _ _ _ => exact absurd rfl hzero

theorem Literal.no_sign {t : List UInt8} {m : Nat} (h : Literal t m) : 45 ∉ t := by
  have hdash : ∀ base ≤ 36, ∀ ds : List UInt8, (∀ c ∈ ds, digit c < base) → 45 ∉ ds := by
    intro base hbase ds hall hmem
    exact absurd (hall 45 hmem) (Nat.not_lt.mpr (hbase.trans (by decide)))
  cases h with
  | decimal _ _ hall => exact hdash 10 (by omega) _ hall
  | octal hall =>
    exact fun hmem => (List.mem_cons.mp hmem).elim (fun h => absurd h (by decide)) (hdash 8 (by omega) _ hall)
  | hex hx _ hall =>
    rintro hmem
    rcases List.mem_cons.mp hmem with h | h
    · exact absurd h (by decide)
    · rcases List.mem_cons.mp h with h | h
      · rcases hx with rfl | rfl <;> exact absurd h (by decide)
      · exact hdash 16 (by omega) _ hall h

end Numeral

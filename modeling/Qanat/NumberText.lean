import Qanat.ScanPlan
import Qanat.HttpProbe
import Qanat.General.Numeral

namespace Qanat

open Numeral
open Decimal (isSpace value)

/-- The guard that the readers of numbers share: no text, or a sign in front. -/
def signFirst (text : Bytes) : Bool :=
  text = [] || text.head? = some 45 || text.head? = some 43

/-- `arg_u64`. -/
def argU64 (text : Bytes) : Option Nat :=
  if signFirst text then none
  else
    let r := strtoull digitsAuto text
    if r.2.2 ≠ [] ∨ r.2.1 then none else some r.1

/-- `arg_count`. -/
def argCount (text : Bytes) : Option Nat :=
  (argU64 text).filter fun v => 0 < v && v ≤ 2 ^ 32 - 1

/-- `decimal_u64`. -/
def decimalU64 (text : Bytes) : Option Nat :=
  Decimal.read text

/-- The multiplier that a suffix of `qn_size_parse` stands for. -/
def sizeSuffix (rest : Bytes) : Option Nat :=
  if rest = [] then some 1
  else if asciiEq rest (ascii ['k']) ∨ asciiEq rest (ascii ['k', 'b']) ∨ asciiEq rest (ascii ['k', 'i', 'b']) then
    some (2 ^ 10)
  else if asciiEq rest (ascii ['m']) ∨ asciiEq rest (ascii ['m', 'b']) ∨ asciiEq rest (ascii ['m', 'i', 'b']) then
    some (2 ^ 20)
  else if asciiEq rest (ascii ['g']) ∨ asciiEq rest (ascii ['g', 'b']) ∨ asciiEq rest (ascii ['g', 'i', 'b']) then
    some (2 ^ 30)
  else if asciiEq rest (ascii ['b']) then some 1
  else none

/-- `qn_size_parse`. -/
def sizeParse (text : Bytes) : Option Nat :=
  if signFirst text then none
  else
    let r := Decimal.strtoull text
    if r.2.2 = text ∨ r.2.1 then none else (sizeSuffix r.2.2).bind (mulU64 r.1)

/-- A number without a sign, then what scales it: what the three readers have in common. -/
def readScaled (num : Bytes → Option (Nat × Bytes)) (scale : Bytes → Option Nat) (text : Bytes) : Option Nat :=
  if signFirst text then none
  else
    let r := strtoull num text
    if r.2.2 = text ∨ r.2.1 then none else (scale r.2.2).bind (mulU64 r.1)

def unscaled (rest : Bytes) : Option Nat :=
  if rest = [] then some 1 else none

theorem mulU64_iff {a b v : Nat} (ha : a < 2 ^ 64) :
    mulU64 a b = some v ↔ v = a * b ∧ a * b < 2 ^ 64 := by
  unfold mulU64
  have hdiv := @Nat.div_lt_iff_lt_mul a (2 ^ 64 - 1) b
  by_cases h0 : a = 0
  · subst h0
    rw [if_neg (fun h => h.1 rfl)]
    simp [eq_comm]
  · have hdiv := hdiv (Nat.pos_of_ne_zero h0)
    rw [Nat.mul_comm b a] at hdiv
    by_cases hlt : 2 ^ 64 - 1 < a * b
    · rw [if_pos ⟨h0, hdiv.mpr hlt⟩]
      exact ⟨fun h => (by cases h), fun h => (by omega)⟩
    · rw [if_neg fun h => hlt (hdiv.mp h.2), Option.some.injEq]
      exact ⟨fun h => ⟨h.symm, by omega⟩, fun h => h.1.symm⟩

theorem strtoull_lt (num : Bytes → Option (Nat × Bytes)) (text : Bytes) : (strtoull num text).1 < 2 ^ 64 := by
  unfold strtoull
  dsimp only
  cases num (Decimal.takeSign (text.dropWhile isSpace)).2 with
  | none => exact Nat.two_pow_pos 64
  | some r =>
    dsimp only
    split
    next => exact Nat.sub_lt (Nat.two_pow_pos 64) Nat.one_pos
    next =>
      dsimp only
      split
      next => exact Nat.mod_lt _ (Nat.two_pow_pos 64)
      next => omega

theorem readScaled_unscaled {num : Bytes → Option (Nat × Bytes)} {text : Bytes} (hne : text ≠ []) :
    (if (strtoull num text).2.2 = text ∨ (strtoull num text).2.1 then none
      else (unscaled (strtoull num text).2.2).bind (mulU64 (strtoull num text).1)) =
    if (strtoull num text).2.2 ≠ [] ∨ (strtoull num text).2.1 then none else some (strtoull num text).1 := by
  have hlt := strtoull_lt num text
  have hmul : mulU64 (strtoull num text).1 1 = some (strtoull num text).1 :=
    (mulU64_iff hlt).mpr ⟨(Nat.mul_one _).symm, by omega⟩
  unfold unscaled
  by_cases hrest : (strtoull num text).2.2 = []
  · rw [hrest, if_pos rfl, Option.bind_some, hmul]
    exact if_congr (or_congr_left (iff_of_false hne.symm (fun h => h rfl))) rfl rfl
  · rw [if_neg hrest, if_pos (.inl hrest : _ ∨ (strtoull num text).2.1 = true), Option.bind_none]
    split <;> rfl

theorem argU64_eq (text : Bytes) : argU64 text = readScaled digitsAuto unscaled text := by
  unfold argU64 readScaled
  by_cases hs : signFirst text = true
  · rw [if_pos hs, if_pos hs]
  · rw [if_neg hs, if_neg hs]
    have hne : text ≠ [] := by
      rintro rfl
      exact hs rfl
    exact (readScaled_unscaled hne).symm

theorem decimalU64_eq (text : Bytes) : decimalU64 text = readScaled (digitsIn 10) unscaled text := by
  unfold decimalU64 Decimal.read readScaled
  rw [strtoull_ten]
  have hs : signFirst text = true ↔ (text = [] ∨ text.head? = some 45 ∨ text.head? = some 43) := by
    simp [signFirst, or_assoc]
  by_cases h : text = [] ∨ text.head? = some 45 ∨ text.head? = some 43
  · rw [if_pos h, if_pos (hs.mpr h)]
  · rw [if_neg h, if_neg (fun hc => h (hs.mp hc))]
    refine Eq.trans ?_ (readScaled_unscaled fun hnil => h (.inl hnil)).symm
    exact if_congr or_comm rfl rfl

theorem sizeParse_eq (text : Bytes) : sizeParse text = readScaled (digitsIn 10) sizeSuffix text := by
  unfold sizeParse readScaled
  rw [strtoull_ten]

/-- Where the guard lets a text through, its first byte is no sign. -/
theorem signFirst_false {text : Bytes} (h : signFirst text ≠ true) :
    text ≠ [] ∧ text.head? ≠ some 45 ∧ text.head? ≠ some 43 := by
  simpa [signFirst, not_or, and_assoc] using h

section Scaled

variable {num : Bytes → Option (Nat × Bytes)} {scale : Bytes → Option Nat} {Body : Bytes → Nat → Nat → Prop}

/-- A number and what scales it, as read from the front of a text. -/
structure ReadsBody (num : Bytes → Option (Nat × Bytes)) (scale : Bytes → Option Nat)
    (Body : Bytes → Nat → Nat → Prop) : Prop where
  plain : Plain num
  iff : ∀ body m k, Body body m k ↔ ∃ rest, num body = some (m, rest) ∧ scale rest = some k
  shorter : ∀ body m rest, num body = some (m, rest) → rest.length < body.length
  no_sign : ∀ body m k, Body body m k → 45 ∉ body

/-- What is read from a text whose front is known. -/
theorem readScaled_front (h : ReadsBody num scale Body) {text body rest : Bytes} {neg : Bool} {m : Nat}
    (hs : signFirst text ≠ true) (hf : Front text body neg) (hr : num body = some (m, rest)) :
    readScaled num scale text =
      if 2 ^ 64 - 1 < m then none
      else (scale rest).bind (mulU64 (if neg then (2 ^ 64 - m) % 2 ^ 64 else m)) := by
  have hne : rest ≠ text := by
    intro heq
    have hshort := h.shorter body m rest hr
    have hle := hf.length_le
    rw [heq] at hshort
    omega
  unfold readScaled
  rw [if_neg hs, strtoull_front h.plain hf hr]
  by_cases hm : 2 ^ 64 - 1 < m
  · rw [if_pos hm, if_pos hm]
    exact if_pos (.inr rfl)
  · rw [if_neg hm, if_neg hm]
    exact if_neg (by simpa using hne)

theorem readScaled_none {text : Bytes} (h : num (Decimal.takeSign (text.dropWhile isSpace)).2 = none) :
    readScaled num scale text = none := by
  unfold readScaled
  rw [strtoull_none h]
  split
  next => rfl
  next => exact if_pos (.inl rfl)

/-- A number behind white space, with a plus in front of it at most. -/
def Spaced (text body : Bytes) : Prop :=
  ∃ sp, (∀ c ∈ sp, isSpace c = true) ∧ (text = sp ++ body ∨ text = sp ++ 43 :: body)

/-- A minus behind white space, and a number that the reading takes for another one. -/
def Wraps (Body : Bytes → Nat → Nat → Prop) (text : Bytes) : Prop :=
  ∃ sp body m k, sp ≠ [] ∧ (∀ c ∈ sp, isSpace c = true) ∧ text = sp ++ 45 :: body ∧ Body body m k ∧
    m < 2 ^ 64 ∧ (2 ^ 64 - m) % 2 ^ 64 * k < 2 ^ 64

theorem spaced_no_sign {text body : Bytes} (h : Spaced text body) (hbody : 45 ∉ body) : 45 ∉ text := by
  obtain ⟨sp, hsp, heq⟩ := h
  have hspace : (45 : UInt8) ∉ sp := fun hmem => absurd (hsp 45 hmem) (by decide)
  rcases heq with rfl | rfl
  · exact fun hmem => (List.mem_append.mp hmem).elim hspace hbody
  · intro hmem
    rcases List.mem_append.mp hmem with hmem | hmem
    · exact hspace hmem
    · exact (List.mem_cons.mp hmem).elim (fun h => absurd h (by decide)) hbody

/-- A reader gives back the number that is written, without a minus, exactly on the texts that do not wrap. -/
theorem readScaled_plain (h : ReadsBody num scale Body) (text : Bytes) :
    (∀ v, readScaled num scale text = some v →
      45 ∉ text ∧ ∃ body m k, Spaced text body ∧ Body body m k ∧ v = m * k) ↔ ¬Wraps Body text := by
  constructor
  · rintro hplain ⟨sp, body, m, k, hne, hsp, rfl, hbody, hm, hfit⟩
    obtain ⟨rest, hr, hk⟩ := (h.iff body m k).mp hbody
    have hs : signFirst (sp ++ 45 :: body) ≠ true := by
      obtain ⟨c, sp, rfl⟩ := List.exists_cons_of_ne_nil hne
      have hc := hsp c List.mem_cons_self
      have hminus : c ≠ 45 := by rintro rfl; exact absurd hc (by decide)
      have hplus : c ≠ 43 := by rintro rfl; exact absurd hc (by decide)
      simp [signFirst, hminus, hplus]
    have hread := readScaled_front h hs (.minus hsp) hr
    have hlt : (2 ^ 64 - m) % 2 ^ 64 < 2 ^ 64 := Nat.mod_lt _ (Nat.two_pow_pos 64)
    rw [if_neg (by omega), hk, Option.bind_some, if_pos rfl,
      (mulU64_iff hlt).mpr ⟨rfl, hfit⟩] at hread
    exact (hplain _ hread).1 (List.mem_append_right _ List.mem_cons_self)
  · intro hno v hv
    have hs : signFirst text ≠ true := by
      intro hs
      rw [readScaled, if_pos hs] at hv
      cases hv
    cases hr : num (Decimal.takeSign (text.dropWhile isSpace)).2 with
    | none =>
      rw [readScaled_none hr] at hv
      cases hv
    | some r =>
      obtain ⟨m, rest⟩ := r
      have hf := exists_front text
      rw [readScaled_front h hs hf hr] at hv
      by_cases hm : 2 ^ 64 - 1 < m
      · rw [if_pos hm] at hv
        cases hv
      · rw [if_neg hm] at hv
        obtain ⟨k, hk, hmul⟩ := Option.bind_eq_some_iff.mp hv
        have hbody := (h.iff _ m k).mpr ⟨rest, hr, hk⟩
        generalize (Decimal.takeSign (text.dropWhile isSpace)).2 = body at hf hbody
        generalize (Decimal.takeSign (text.dropWhile isSpace)).1 = neg at hf hmul
        cases hf with
        | bare hsp =>
          rw [if_neg Bool.false_ne_true] at hmul
          have hspaced : Spaced _ body := ⟨_, hsp, .inl rfl⟩
          exact ⟨spaced_no_sign hspaced (h.no_sign body m k hbody), body, m, k, hspaced, hbody,
            ((mulU64_iff (by omega)).mp hmul).1⟩
        | plus hsp =>
          rw [if_neg Bool.false_ne_true] at hmul
          have hspaced : Spaced _ body := ⟨_, hsp, .inr rfl⟩
          exact ⟨spaced_no_sign hspaced (h.no_sign body m k hbody), body, m, k, hspaced, hbody,
            ((mulU64_iff (by omega)).mp hmul).1⟩
        | @minus sp body hsp =>
          rw [if_pos rfl] at hmul
          have hlt : (2 ^ 64 - m) % 2 ^ 64 < 2 ^ 64 := Nat.mod_lt _ (Nat.two_pow_pos 64)
          refine absurd ⟨sp, body, m, k, ?_, hsp, rfl, hbody, by omega, ((mulU64_iff hlt).mp hmul).2⟩ hno
          rintro rfl
          exact (signFirst_false hs).2.1 rfl

end Scaled

theorem mem_of_asciiEq {rest w : Bytes} (h : asciiEq rest w = true) {c : UInt8} (hc : c ∈ rest) : lower c ∈ w := by
  rw [← eq_of_beq h]
  exact List.mem_map_of_mem hc

/-- A suffix has neither digits nor signs. -/
theorem sizeSuffix_letters {rest : Bytes} {k : Nat} (h : sizeSuffix rest = some k) {c : UInt8} (hc : c ∈ rest) :
    lower c ∈ ascii ['k', 'm', 'g', 'i', 'b'] := by
  have hword : ∀ l : List Char, (∀ d ∈ ascii l, d ∈ ascii ['k', 'm', 'g', 'i', 'b']) → asciiEq rest (ascii l) = true →
      lower c ∈ ascii ['k', 'm', 'g', 'i', 'b'] := fun l hl heq => hl _ (mem_of_asciiEq heq hc)
  unfold sizeSuffix at h
  split at h
  next hnil =>
    rw [hnil] at hc
    cases hc
  next =>
    split at h
    next hk => rcases hk with hk | hk | hk <;> exact hword _ (by decide +kernel) hk
    next =>
      split at h
      next hm => rcases hm with hm | hm | hm <;> exact hword _ (by decide +kernel) hm
      next =>
        split at h
        next hg => rcases hg with hg | hg | hg <;> exact hword _ (by decide +kernel) hg
        next =>
          split at h
          next hb => exact hword _ (by decide +kernel) hb
          next => cases h

theorem sizeSuffix_plain {rest : Bytes} {k : Nat} (h : sizeSuffix rest = some k) {c : UInt8} (hc : c ∈ rest) :
    ¬digit c < 10 ∧ c ≠ 45 := by
  have hmem := sizeSuffix_letters h hc
  refine ⟨fun hd => ?_, ?_⟩
  · have hdigit := (digit_lt_ten c).mp hd
    rw [Decimal.isDigit, Bool.and_eq_true, decide_eq_true_eq, decide_eq_true_eq] at hdigit
    have hsame : lower c = c := if_neg fun h => absurd (UInt8.le_trans h.1 hdigit.2) (by decide)
    have hletters : ∀ d ∈ ascii ['k', 'm', 'g', 'i', 'b'], ¬d ≤ 57 := by decide +kernel
    rw [hsame] at hmem
    exact hletters c hmem hdigit.2
  · rintro rfl
    exact absurd hmem (by decide)

/-- Decimal digits. -/
def Digits (ds : Bytes) : Prop :=
  ds ≠ [] ∧ ∀ c ∈ ds, Decimal.isDigit c = true

theorem digits_no_sign {ds : Bytes} (h : Digits ds) : 45 ∉ ds := fun hmem => absurd (h.2 45 hmem) (by decide)

theorem digitsIn_shorter {base : Nat} {body rest : Bytes} {m : Nat} (h : digitsIn base body = some (m, rest)) :
    rest.length < body.length := by
  obtain ⟨ds, hne, -, rfl, -, -⟩ := digitsIn_eq_some.mp h
  have := List.length_pos_iff.mpr hne
  rw [List.length_append]
  omega

theorem digitsAuto_shorter {body rest : Bytes} {m : Nat} (h : digitsAuto body = some (m, rest)) :
    rest.length < body.length := by
  unfold digitsAuto at h
  split at h
  next =>
    split at h
    next =>
      have := digitsIn_shorter h
      rw [List.length_drop] at this
      omega
    next => exact digitsIn_shorter h
  next => exact digitsIn_shorter h

theorem unscaled_eq_some {rest : Bytes} {k : Nat} : unscaled rest = some k ↔ rest = [] ∧ k = 1 := by
  unfold unscaled
  split
  next h => simp [h, eq_comm]
  next h => simp [h]

theorem argBody : ReadsBody digitsAuto unscaled fun body m k => Literal body m ∧ k = 1 where
  plain := plain_digitsAuto
  iff body m k := by
    rw [← digitsAuto_all]
    constructor
    · rintro ⟨h, rfl⟩
      exact ⟨[], h, rfl⟩
    · rintro ⟨rest, h, hk⟩
      obtain ⟨rfl, rfl⟩ := unscaled_eq_some.mp hk
      exact ⟨h, rfl⟩
  shorter _ _ _ := digitsAuto_shorter
  no_sign _ _ _ h := h.1.no_sign

theorem digits_iff {ds : Bytes} : Digits ds ↔ ds ≠ [] ∧ ∀ c ∈ ds, digit c < 10 :=
  and_congr_right fun _ => forall₂_congr fun c _ => (digit_lt_ten c).symm

theorem decimalBody : ReadsBody (digitsIn 10) unscaled fun body m k => (Digits body ∧ m = value body) ∧ k = 1 where
  plain := plain_digitsIn (by omega)
  iff body m k := by
    constructor
    · rintro ⟨⟨h, rfl⟩, rfl⟩
      obtain ⟨hne, hall⟩ := digits_iff.mp h
      exact ⟨[], digitsIn_all.mpr ⟨hne, hall, (valueIn_ten h.2).symm⟩, rfl⟩
    · rintro ⟨rest, h, hk⟩
      obtain ⟨rfl, rfl⟩ := unscaled_eq_some.mp hk
      obtain ⟨hne, hall, rfl⟩ := digitsIn_all.mp h
      have hd := digits_iff.mpr ⟨hne, hall⟩
      exact ⟨⟨hd, valueIn_ten hd.2⟩, rfl⟩
  shorter _ _ _ := digitsIn_shorter
  no_sign _ _ _ h := digits_no_sign h.1.1

theorem sizeBody : ReadsBody (digitsIn 10) sizeSuffix fun body m k =>
    ∃ ds suffix, body = ds ++ suffix ∧ Digits ds ∧ m = value ds ∧ sizeSuffix suffix = some k where
  plain := plain_digitsIn (by omega)
  iff body m k := by
    constructor
    · rintro ⟨ds, suffix, rfl, h, rfl, hk⟩
      obtain ⟨hne, hall⟩ := digits_iff.mp h
      refine ⟨suffix, digitsIn_eq_some.mpr ⟨ds, hne, hall, rfl, (valueIn_ten h.2).symm, fun c hc => ?_⟩, hk⟩
      exact (sizeSuffix_plain hk (List.mem_of_mem_head? hc)).1
    · rintro ⟨rest, h, hk⟩
      obtain ⟨ds, hne, hall, rfl, rfl, -⟩ := digitsIn_eq_some.mp h
      have hd := digits_iff.mpr ⟨hne, hall⟩
      exact ⟨ds, rest, rfl, hd, valueIn_ten hd.2, hk⟩
  shorter _ _ _ := digitsIn_shorter
  no_sign := by
    rintro _ _ _ ⟨ds, suffix, rfl, h, -, hk⟩ hmem
    rcases List.mem_append.mp hmem with hmem | hmem
    · exact digits_no_sign h hmem
    · exact (sizeSuffix_plain hk hmem).2 rfl

/-- The three readers give back the number that is written, and refuse a minus, exactly on the texts where no minus
stands behind white space in front of a number that the reading can take for another one. -/
theorem numbers_read_plainly (text : Bytes) :
    ((∀ v, argU64 text = some v → 45 ∉ text ∧ ∃ lit, Spaced text lit ∧ Literal lit v) ↔
      ¬∃ sp lit m, sp ≠ [] ∧ (∀ c ∈ sp, isSpace c = true) ∧ text = sp ++ 45 :: lit ∧ Literal lit m ∧ m < 2 ^ 64) ∧
    ((∀ v, decimalU64 text = some v → 45 ∉ text ∧ ∃ ds, Spaced text ds ∧ Digits ds ∧ v = value ds) ↔
      ¬∃ sp ds, sp ≠ [] ∧ (∀ c ∈ sp, isSpace c = true) ∧ text = sp ++ 45 :: ds ∧ Digits ds ∧ value ds < 2 ^ 64) ∧
    ((∀ v, sizeParse text = some v → 45 ∉ text ∧ ∃ ds suffix k, Spaced text (ds ++ suffix) ∧ Digits ds ∧
        sizeSuffix suffix = some k ∧ v = value ds * k) ↔
      ¬∃ sp ds suffix k, sp ≠ [] ∧ (∀ c ∈ sp, isSpace c = true) ∧ text = sp ++ 45 :: (ds ++ suffix) ∧ Digits ds ∧
        sizeSuffix suffix = some k ∧ value ds < 2 ^ 64 ∧ (2 ^ 64 - value ds) % 2 ^ 64 * k < 2 ^ 64) := by
  have hmod : ∀ m, (2 ^ 64 - m) % 2 ^ 64 * 1 < 2 ^ 64 := fun m => by
    have := Nat.mod_lt (2 ^ 64 - m) (Nat.two_pow_pos 64)
    omega
  refine ⟨?_, ?_, ?_⟩
  · rw [argU64_eq]
    refine Iff.trans (forall₂_congr fun v _ => and_congr_right fun _ => ?_)
      ((readScaled_plain argBody text).trans (not_congr ?_))
    · constructor
      · rintro ⟨lit, hsp, hlit⟩
        exact ⟨lit, v, 1, hsp, ⟨hlit, rfl⟩, (Nat.mul_one v).symm⟩
      · rintro ⟨lit, m, k, hsp, ⟨hlit, rfl⟩, rfl⟩
        exact ⟨lit, hsp, by rwa [Nat.mul_one]⟩
    · constructor
      · rintro ⟨sp, lit, m, k, hne, hsp, heq, ⟨hlit, rfl⟩, hm, -⟩
        exact ⟨sp, lit, m, hne, hsp, heq, hlit, hm⟩
      · rintro ⟨sp, lit, m, hne, hsp, heq, hlit, hm⟩
        exact ⟨sp, lit, m, 1, hne, hsp, heq, ⟨hlit, rfl⟩, hm, hmod m⟩
  · rw [decimalU64_eq]
    refine Iff.trans (forall₂_congr fun v _ => and_congr_right fun _ => ?_)
      ((readScaled_plain decimalBody text).trans (not_congr ?_))
    · constructor
      · rintro ⟨ds, hsp, hds, rfl⟩
        exact ⟨ds, value ds, 1, hsp, ⟨⟨hds, rfl⟩, rfl⟩, (Nat.mul_one _).symm⟩
      · rintro ⟨ds, m, k, hsp, ⟨⟨hds, rfl⟩, rfl⟩, rfl⟩
        exact ⟨ds, hsp, hds, Nat.mul_one _⟩
    · constructor
      · rintro ⟨sp, ds, m, k, hne, hsp, heq, ⟨⟨hds, rfl⟩, rfl⟩, hm, -⟩
        exact ⟨sp, ds, hne, hsp, heq, hds, hm⟩
      · rintro ⟨sp, ds, hne, hsp, heq, hds, hm⟩
        exact ⟨sp, ds, value ds, 1, hne, hsp, heq, ⟨⟨hds, rfl⟩, rfl⟩, hm, hmod _⟩
  · rw [sizeParse_eq]
    refine Iff.trans (forall₂_congr fun v _ => and_congr_right fun _ => ?_)
      ((readScaled_plain sizeBody text).trans (not_congr ?_))
    · constructor
      · rintro ⟨ds, suffix, k, hsp, hds, hk, rfl⟩
        exact ⟨ds ++ suffix, value ds, k, hsp, ⟨ds, suffix, rfl, hds, rfl, hk⟩, rfl⟩
      · rintro ⟨_, _, k, hsp, ⟨ds, suffix, rfl, hds, rfl, hk⟩, rfl⟩
        exact ⟨ds, suffix, k, hsp, hds, hk, rfl⟩
    · constructor
      · rintro ⟨sp, _, _, k, hne, hsp, heq, ⟨ds, suffix, rfl, hds, rfl, hk⟩, hm, hfit⟩
        exact ⟨sp, ds, suffix, k, hne, hsp, heq, hds, hk, hm, hfit⟩
      · rintro ⟨sp, ds, suffix, k, hne, hsp, heq, hds, hk, hm, hfit⟩
        exact ⟨sp, ds ++ suffix, value ds, k, hne, hsp, heq, ⟨ds, suffix, rfl, hds, rfl, hk⟩, hm, hfit⟩

/-- A blank in front of a minus gets it past the guard: minus one is read as the largest word. -/
theorem numbers_read_wrapped : argU64 [32, 45, 49] = some (2 ^ 64 - 1) ∧ decimalU64 [32, 45, 49] = some (2 ^ 64 - 1) ∧
    sizeParse [32, 45, 49] = some (2 ^ 64 - 1) := by
  decide

end Qanat

import Qanat.General.Decimal

/-- A value of JSON whose numbers are natural; texts are bytes. -/
inductive Json
  | bool (b : Bool)
  | num (n : Nat)
  | str (s : List UInt8)
  | arr (xs : List Json)
  | obj (ms : List (List UInt8 × Json))

namespace Json

def hexDigit (v : Nat) : UInt8 :=
  if v < 10 then UInt8.ofNat (48 + v) else UInt8.ofNat (87 + v)

def hexVal (c : UInt8) : Option Nat :=
  if 48 ≤ c ∧ c ≤ 57 then some (c.toNat - 48)
  else if 97 ≤ c ∧ c ≤ 102 then some (c.toNat - 87)
  else if 65 ≤ c ∧ c ≤ 70 then some (c.toNat - 55)
  else none

section Reader

/-- The bytes of a code point of the basic plane; surrogates are refused. -/
def utf8Unit (u : Nat) : Option (List UInt8) :=
  if u < 0x80 then some [UInt8.ofNat u]
  else if u < 0x800 then some [UInt8.ofNat (0xC0 + u / 64), UInt8.ofNat (0x80 + u % 64)]
  else if 0xD800 ≤ u ∧ u < 0xE000 then none
  else some [UInt8.ofNat (0xE0 + u / 4096), UInt8.ofNat (0x80 + u / 64 % 64), UInt8.ofNat (0x80 + u % 64)]

def simpleEscape (c : UInt8) : Option UInt8 :=
  if c = 34 ∨ c = 92 ∨ c = 47 then some c
  else if c = 98 then some 8
  else if c = 102 then some 12
  else if c = 110 then some 10
  else if c = 114 then some 13
  else if c = 116 then some 9
  else none

/-- A string behind its opening quote, and what follows the closing one. -/
def stringTail : List UInt8 → Option (List UInt8 × List UInt8)
  | [] => none
  | c :: t =>
    if c = 34 then some ([], t)
    else if c = 92 then
      match t with
      | [] => none
      | e :: t =>
        if e = 117 then
          match t with
          | d₃ :: d₂ :: d₁ :: d₀ :: t => do
            let v₃ ← hexVal d₃
            let v₂ ← hexVal d₂
            let v₁ ← hexVal d₁
            let v₀ ← hexVal d₀
            let u ← utf8Unit (v₃ * 4096 + v₂ * 256 + v₁ * 16 + v₀)
            (stringTail t).map fun p => (u ++ p.1, p.2)
          | _ => none
        else (simpleEscape e).bind fun x => (stringTail t).map fun p => (x :: p.1, p.2)
    else if c < 32 then none
    else (stringTail t).map fun p => (c :: p.1, p.2)

/-- Takes a byte that must stand next. -/
def expect (c : UInt8) : List UInt8 → Option (List UInt8)
  | [] => none
  | x :: t => if x = c then some t else none

/-- A number without sign, fraction or exponent; no zero stands in front of other digits. -/
def number (s : List UInt8) : Option (Nat × List UInt8) :=
  let ds := s.takeWhile Decimal.isDigit
  if ds = [] ∨ (ds.head? = some 48 ∧ ds ≠ [48]) then none else some (Decimal.value ds, s.dropWhile Decimal.isDigit)

def litTrue : List UInt8 := [116, 114, 117, 101]

def litFalse : List UInt8 := [102, 97, 108, 115, 101]

mutual

/-- A value at the front of a text without white space. -/
def value : Nat → List UInt8 → Option (Json × List UInt8)
  | 0, _ => none
  | _ + 1, [] => none
  | n + 1, c :: t =>
    if c = 34 then (stringTail t).map fun p => (.str p.1, p.2)
    else if c = 123 then
      if t.head? = some 125 then some (.obj [], t.tail) else (members n t).map fun p => (.obj p.1, p.2)
    else if c = 91 then
      if t.head? = some 93 then some (.arr [], t.tail) else (elements n t).map fun p => (.arr p.1, p.2)
    else if litTrue.isPrefixOf (c :: t) then some (.bool true, (c :: t).drop litTrue.length)
    else if litFalse.isPrefixOf (c :: t) then some (.bool false, (c :: t).drop litFalse.length)
    else (number (c :: t)).map fun p => (.num p.1, p.2)

/-- The elements of an array up to its end. -/
def elements : Nat → List UInt8 → Option (List Json × List UInt8)
  | 0, _ => none
  | n + 1, s =>
    match value n s with
    | none => none
    | some (v, s) =>
      match s with
      | [] => none
      | c :: t =>
        if c = 44 then (elements n t).map fun p => (v :: p.1, p.2)
        else if c = 93 then some ([v], t)
        else none

/-- The members of an object up to its end. -/
def members : Nat → List UInt8 → Option (List (List UInt8 × Json) × List UInt8)
  | 0, _ => none
  | n + 1, s =>
    match (expect 34 s).bind stringTail with
    | none => none
    | some (k, s) =>
      match (expect 58 s).bind (value n) with
      | none => none
      | some (v, s) =>
        match s with
        | [] => none
        | c :: t =>
          if c = 44 then (members n t).map fun p => ((k, v) :: p.1, p.2)
          else if c = 125 then some ([(k, v)], t)
          else none

end

/-- The value that a text stands for. -/
def read (s : List UInt8) : Option Json :=
  match value s.length s with
  | some (v, []) => some v
  | _ => none

end Reader

section Writer

def escape (c : UInt8) : List UInt8 :=
  if c = 34 ∨ c = 92 then [92, c]
  else if c < 32 ∨ c = 127 then [92, 117, 48, 48, hexDigit (c.toNat / 16), hexDigit (c.toNat % 16)]
  else [c]

def quote (s : List UInt8) : List UInt8 :=
  34 :: (s.flatMap escape ++ [34])

mutual

def render : Json → List UInt8
  | .bool b => if b then litTrue else litFalse
  | .num n => Decimal.render n
  | .str s => quote s
  | .arr [] => [91, 93]
  | .arr (x :: xs) => 91 :: (render x ++ renderElements xs)
  | .obj [] => [123, 125]
  | .obj ((k, v) :: ms) => 123 :: (quote k ++ 58 :: (render v ++ renderMembers ms))

def renderElements : List Json → List UInt8
  | [] => [93]
  | x :: xs => 44 :: (render x ++ renderElements xs)

def renderMembers : List (List UInt8 × Json) → List UInt8
  | [] => [125]
  | (k, v) :: ms => 44 :: (quote k ++ 58 :: (render v ++ renderMembers ms))

end

end Writer

section Pieces

/-- Members of an object as they stand behind others. -/
def memberTexts (ms : List (List UInt8 × Json)) : List UInt8 :=
  ms.flatMap fun m => 44 :: (quote m.1 ++ 58 :: render m.2)

theorem renderMembers_eq (ms : List (List UInt8 × Json)) : renderMembers ms = memberTexts ms ++ [125] := by
  induction ms with
  | nil => rw [renderMembers, memberTexts, List.flatMap_nil, List.nil_append]
  | cons m ms ih =>
    obtain ⟨k, v⟩ := m
    rw [renderMembers, ih]
    simp [memberTexts]

end Pieces

section Texts

mutual

/-- All texts of a value, its keys included, have a property. -/
def All (p : List UInt8 → Prop) : Json → Prop
  | .bool _ => True
  | .num _ => True
  | .str s => p s
  | .arr xs => AllElements p xs
  | .obj ms => AllMembers p ms

def AllElements (p : List UInt8 → Prop) : List Json → Prop
  | [] => True
  | x :: xs => All p x ∧ AllElements p xs

def AllMembers (p : List UInt8 → Prop) : List (List UInt8 × Json) → Prop
  | [] => True
  | (k, v) :: ms => p k ∧ All p v ∧ AllMembers p ms

end

theorem allMembers_append {p : List UInt8 → Prop} (ms ms' : List (List UInt8 × Json)) :
    AllMembers p (ms ++ ms') ↔ AllMembers p ms ∧ AllMembers p ms' := by
  induction ms with
  | nil => simp [AllMembers]
  | cons m ms ih =>
    obtain ⟨k, v⟩ := m
    simp only [List.cons_append, AllMembers, ih, and_assoc]

theorem allElements_strings {p : List UInt8 → Prop} {ss : List (List UInt8)} (h : ∀ s ∈ ss, p s) :
    AllElements p (ss.map .str) := by
  induction ss with
  | nil => trivial
  | cons s ss ih => exact ⟨h s List.mem_cons_self, ih fun x hx => h x (List.mem_cons_of_mem _ hx)⟩

theorem plain_of_all {s : List UInt8} (h : s.all (fun c => 32 ≤ c && c < 127) = true) :
    ∀ c ∈ s, 32 ≤ c ∧ c < 127 := by
  simpa only [Bool.and_eq_true, decide_eq_true_eq] using List.all_eq_true.mp h

/-- A property that printable and quoted texts have, and two texts together if each has it. -/
structure Spreads (p Q : List UInt8 → Prop) : Prop where
  append : ∀ s t, Q s → Q t → Q (s ++ t)
  plain : ∀ s : List UInt8, (∀ c ∈ s, 32 ≤ c ∧ c < 127) → Q s
  quote : ∀ s, p s → Q (quote s)

section Spread

variable {p Q : List UInt8 → Prop}

mutual

/-- What spreads over texts, holds of a written value. -/
theorem render_of_all (hQ : Spreads p Q) : ∀ v : Json, All p v → Q (render v)
  | .bool b, _ => by
    rw [render]
    cases b <;> exact hQ.plain _ (plain_of_all (by decide))
  | .num n, _ => by
    rw [render]
    refine hQ.plain _ fun c hc => ?_
    have h := Decimal.isDigit_render hc
    rw [Decimal.isDigit, Bool.and_eq_true, decide_eq_true_eq, decide_eq_true_eq] at h
    exact ⟨UInt8.le_trans (by decide) h.1, UInt8.lt_of_le_of_lt h.2 (by decide)⟩
  | .str s, h => by
    rw [render]
    exact hQ.quote s h
  | .arr [], _ => hQ.plain _ (plain_of_all (by decide))
  | .arr (x :: xs), h => by
    rw [render]
    exact hQ.append [91] _ (hQ.plain _ (plain_of_all (by decide)))
      (hQ.append _ _ (render_of_all hQ x h.1) (renderElements_of_all hQ xs h.2))
  | .obj [], _ => hQ.plain _ (plain_of_all (by decide))
  | .obj ((k, v) :: ms), h => by
    rw [render]
    exact hQ.append [123] _ (hQ.plain _ (plain_of_all (by decide))) (hQ.append _ _ (hQ.quote k h.1)
      (hQ.append [58] _ (hQ.plain _ (plain_of_all (by decide)))
        (hQ.append _ _ (render_of_all hQ v h.2.1) (renderMembers_of_all hQ ms h.2.2))))

theorem renderElements_of_all (hQ : Spreads p Q) : ∀ xs : List Json, AllElements p xs → Q (renderElements xs)
  | [], _ => hQ.plain _ (plain_of_all (by decide))
  | x :: xs, h => by
    rw [renderElements]
    exact hQ.append [44] _ (hQ.plain _ (plain_of_all (by decide)))
      (hQ.append _ _ (render_of_all hQ x h.1) (renderElements_of_all hQ xs h.2))

theorem renderMembers_of_all (hQ : Spreads p Q) : ∀ ms : List (List UInt8 × Json), AllMembers p ms → Q (renderMembers ms)
  | [], _ => hQ.plain _ (plain_of_all (by decide))
  | (k, v) :: ms, h => by
    rw [renderMembers]
    exact hQ.append [44] _ (hQ.plain _ (plain_of_all (by decide))) (hQ.append _ _ (hQ.quote k h.1)
      (hQ.append [58] _ (hQ.plain _ (plain_of_all (by decide)))
        (hQ.append _ _ (render_of_all hQ v h.2.1) (renderMembers_of_all hQ ms h.2.2))))

end

end Spread

end Texts

section Size

mutual

/-- A bound on the length of a written value, whatever the bytes of its texts. -/
def bound : Json → Nat
  | .bool _ => 5
  | .num n => (Decimal.render n).length
  | .str s => 6 * s.length + 2
  | .arr xs => boundElements xs + 2
  | .obj ms => boundMembers ms + 2

def boundElements : List Json → Nat
  | [] => 0
  | x :: xs => bound x + 1 + boundElements xs

def boundMembers : List (List UInt8 × Json) → Nat
  | [] => 0
  | (k, v) :: ms => 6 * k.length + bound v + 4 + boundMembers ms

end

theorem length_quote_le (s : List UInt8) : (quote s).length ≤ 6 * s.length + 2 := by
  have hescape : ∀ c, (escape c).length ≤ 6 := by
    intro c
    unfold escape
    split
    next => exact Nat.le_of_ble_eq_true rfl
    next => split <;> exact Nat.le_of_ble_eq_true rfl
  have hchars : (s.flatMap escape).length ≤ 6 * s.length := by
    induction s with
    | nil => exact Nat.le_refl 0
    | cons c s ih =>
      rw [List.flatMap_cons, List.length_append, List.length_cons]
      have := hescape c
      omega
  rw [quote, List.length_cons, List.length_append, List.length_singleton]
  omega

mutual

theorem length_render_le : ∀ v : Json, (render v).length ≤ bound v
  | .bool b => by cases b <;> decide
  | .num n => Nat.le_refl _
  | .str s => length_quote_le s
  | .arr [] => Nat.le_refl 2
  | .arr (x :: xs) => by
    have hx := length_render_le x
    have hxs := length_renderElements_le xs
    rw [render, List.length_cons, List.length_append, bound, boundElements]
    omega
  | .obj [] => Nat.le_refl 2
  | .obj ((k, v) :: ms) => by
    have hk := length_quote_le k
    have hv := length_render_le v
    have hms := length_renderMembers_le ms
    rw [render, List.length_cons, List.length_append, List.length_cons, List.length_append, bound, boundMembers]
    omega

theorem length_renderElements_le : ∀ xs : List Json, (renderElements xs).length ≤ boundElements xs + 1
  | [] => Nat.le_refl 1
  | x :: xs => by
    have hx := length_render_le x
    have hxs := length_renderElements_le xs
    rw [renderElements, List.length_cons, List.length_append, boundElements]
    omega

theorem length_renderMembers_le : ∀ ms : List (List UInt8 × Json), (renderMembers ms).length ≤ boundMembers ms + 1
  | [] => Nat.le_refl 1
  | (k, v) :: ms => by
    have hk := length_quote_le k
    have hv := length_render_le v
    have hms := length_renderMembers_le ms
    rw [renderMembers, List.length_cons, List.length_append, List.length_cons, List.length_append, boundMembers]
    omega

end

theorem boundMembers_append (ms ms' : List (List UInt8 × Json)) :
    boundMembers (ms ++ ms') = boundMembers ms + boundMembers ms' := by
  induction ms with
  | nil => rw [List.nil_append, boundMembers, Nat.zero_add]
  | cons m ms ih =>
    obtain ⟨k, v⟩ := m
    rw [List.cons_append, boundMembers, boundMembers, ih, ← Nat.add_assoc]

theorem boundElements_strings (ss : List (List UInt8)) :
    boundElements (ss.map .str) = (ss.map fun s => 6 * s.length + 3).sum := by
  induction ss with
  | nil => rfl
  | cons s ss ih => rw [List.map_cons, boundElements, bound, ih, List.map_cons, List.sum_cons]

end Size

section RoundTrip

theorem hexVal_hexDigit (v : Fin 16) : hexVal (hexDigit v) = some v.val := by
  revert v
  decide

theorem stringTail_escape (c : UInt8) (t : List UInt8) :
    stringTail (escape c ++ t) = (stringTail t).map fun p => (c :: p.1, p.2) := by
  have hc := c.toNat_lt
  unfold escape
  split
  next h =>
    have hs : simpleEscape c = some c := by
      obtain rfl | rfl := h <;> decide
    have hu : c ≠ 117 := by
      obtain rfl | rfl := h <;> decide
    rw [List.cons_append, List.singleton_append, stringTail.eq_def]
    dsimp only
    rw [if_neg (by decide), if_pos rfl, if_neg hu, hs, Option.bind_some]
  next hq =>
    rw [not_or] at hq
    split
    next h =>
      have hlow : c.toNat < 128 := by
        obtain h | rfl := h
        · exact (UInt8.lt_iff_toNat_lt.mp h).trans (by decide)
        · decide
      have hhigh := hexVal_hexDigit ⟨c.toNat / 16, by omega⟩
      have hrest := hexVal_hexDigit ⟨c.toNat % 16, by omega⟩
      have hzero : hexVal 48 = some 0 := by decide
      have hunit : utf8Unit (c.toNat / 16 * 16 + c.toNat % 16) = some [c] := by
        rw [Nat.div_add_mod', utf8Unit, if_pos (by omega), UInt8.ofNat_toNat]
      simp only [List.cons_append, List.nil_append]
      rw [stringTail, if_neg (by decide), if_pos rfl]
      dsimp only at hhigh hrest ⊢
      rw [if_pos rfl]
      simp only [hzero, hhigh, hrest, Option.bind_eq_bind, Option.bind_some, Nat.zero_mul, Nat.zero_add, hunit]
      rfl
    next h =>
      rw [not_or] at h
      rw [List.singleton_append, stringTail.eq_def]
      dsimp only
      rw [if_neg hq.1, if_neg hq.2, if_neg h.1]

theorem stringTail_escapes (s t : List UInt8) : stringTail (s.flatMap escape ++ 34 :: t) = some (s, t) := by
  induction s with
  | nil =>
    rw [List.flatMap_nil, List.nil_append, stringTail.eq_def]
    dsimp only
    rw [if_pos rfl]
  | cons c s ih => rw [List.flatMap_cons, List.append_assoc, stringTail_escape, ih, Option.map_some]

/-- A quoted text is read back, whatever its bytes. -/
theorem quote_append (s t : List UInt8) : quote s ++ t = 34 :: (s.flatMap escape ++ 34 :: t) := by
  rw [quote, List.cons_append, List.append_assoc, List.singleton_append]

theorem expect_quote (s t : List UInt8) : (expect 34 (quote s ++ t)).bind stringTail = some (s, t) := by
  rw [quote_append, expect, if_pos rfl, Option.bind_some, stringTail_escapes]

/-- What follows a number must not go on with a digit. -/
def NoDigit (t : List UInt8) : Prop :=
  ∀ c ∈ t.head?, Decimal.isDigit c = false

theorem number_render {n : Nat} {t : List UInt8} (h : NoDigit t) : number (Decimal.render n ++ t) = some (n, t) := by
  have hall : ∀ c ∈ Decimal.render n, Decimal.isDigit c = true := fun c hc => Decimal.isDigit_render hc
  have htake : t.takeWhile Decimal.isDigit = [] := by
    cases t with
    | nil => rfl
    | cons c t => exact List.takeWhile_cons_of_neg (by simp [h c rfl])
  have hdrop : t.dropWhile Decimal.isDigit = t := by
    cases t with
    | nil => rfl
    | cons c t => exact List.dropWhile_cons_of_neg (by simp [h c rfl])
  have hzero : ¬((Decimal.render n).head? = some 48 ∧ Decimal.render n ≠ [48]) := by
    rintro ⟨h₀, h₁⟩
    rw [Decimal.head_render h₀] at h₁
    exact h₁ (by decide)
  unfold number
  rw [List.takeWhile_append_of_pos hall, List.dropWhile_append_of_pos hall, htake, hdrop, List.append_nil]
  dsimp only
  rw [if_neg (not_or.mpr ⟨Decimal.render_ne_nil n, hzero⟩), Decimal.value_render]

theorem noDigit_cons {c : UInt8} {t : List UInt8} (h : Decimal.isDigit c = false) : NoDigit (c :: t) := by
  rintro d ⟨⟩
  exact h

theorem noDigit_elements (xs : List Json) (t : List UInt8) : NoDigit (renderElements xs ++ t) := by
  cases xs <;> exact noDigit_cons (by decide)

theorem noDigit_members (ms : List (List UInt8 × Json)) (t : List UInt8) : NoDigit (renderMembers ms ++ t) := by
  rcases ms with _ | ⟨⟨k, v⟩, ms⟩ <;> exact noDigit_cons (by decide)

theorem value_digits {n m : Nat} {t : List UInt8} (h : NoDigit t) :
    value (m + 1) (Decimal.render n ++ t) = some (.num n, t) := by
  obtain ⟨c, ds, hct⟩ := List.exists_cons_of_ne_nil (Decimal.render_ne_nil n)
  have hc : Decimal.isDigit c = true := Decimal.isDigit_render (n := n) (hct ▸ List.mem_cons_self)
  have hne : ∀ d, Decimal.isDigit d = false → c ≠ d := fun d hd => Decimal.not_isDigit_of hc hd
  have hnum := number_render (n := n) h
  have ht : litTrue.isPrefixOf (c :: (ds ++ t)) = false := by
    simp [litTrue, List.isPrefixOf, (hne 116 (by decide)).symm]
  have hf : litFalse.isPrefixOf (c :: (ds ++ t)) = false := by
    simp [litFalse, List.isPrefixOf, (hne 102 (by decide)).symm]
  rw [hct, List.cons_append] at hnum ⊢
  rw [value, if_neg (hne 34 (by decide)), if_neg (hne 123 (by decide)), if_neg (hne 91 (by decide)), ht, hf, hnum]
  simp

/-- The front of a value never closes an array. -/
theorem head_render_ne (v : Json) (t : List UInt8) : (render v ++ t).head? ≠ some 93 := by
  cases v with
  | bool b => cases b <;> simp [render, litTrue, litFalse]
  | num n =>
    intro h
    obtain ⟨c, ds, hct⟩ := List.exists_cons_of_ne_nil (Decimal.render_ne_nil n)
    have hc : Decimal.isDigit c = true := Decimal.isDigit_render (n := n) (hct ▸ List.mem_cons_self)
    rw [render, hct, List.cons_append, List.head?_cons, Option.some.injEq] at h
    rw [h] at hc
    exact absurd hc (by decide)
  | str s => simp [render, quote]
  | arr xs => cases xs <;> simp [render]
  | obj ms => rcases ms with _ | ⟨⟨k, v⟩, ms⟩ <;> simp [render]

mutual

theorem value_render : ∀ (v : Json) (n : Nat) (t : List UInt8), (render v).length ≤ n → NoDigit t →
    value n (render v ++ t) = some (v, t)
  | v, 0, t, h, _ => by
    have hpos : 0 < (render v).length := by
      cases v with
      | bool b => cases b <;> decide
      | num n => exact List.length_pos_iff.mpr (Decimal.render_ne_nil n)
      | str s => exact Nat.succ_pos _
      | arr xs => cases xs <;> exact Nat.succ_pos _
      | obj ms => rcases ms with _ | ⟨⟨k, v⟩, ms⟩ <;> exact Nat.succ_pos _
    omega
  | .bool true, n + 1, t, _, _ => by
    rw [render, if_pos rfl, litTrue]
    simp [value, litTrue]
  | .bool false, n + 1, t, _, _ => by
    rw [render, if_neg (by decide), litFalse]
    simp [value, litTrue, litFalse]
  | .num m, n + 1, t, _, ht => by
    rw [render]
    exact value_digits ht
  | .str s, n + 1, t, _, _ => by
    rw [render, quote_append, value, if_pos rfl, stringTail_escapes, Option.map_some]
  | .arr [], n + 1, t, _, _ => by
    rw [render]
    simp [value]
  | .arr (x :: xs), n + 1, t, h, _ => by
    rw [render, List.length_cons, List.length_append] at h
    have hx := elements_render x xs n t (by omega)
    rw [render, List.cons_append, value, if_neg (by decide), if_neg (by decide), if_pos rfl, List.append_assoc,
      if_neg (head_render_ne x _), hx, Option.map_some]
  | .obj [], n + 1, t, _, _ => by
    rw [render]
    simp [value]
  | .obj ((k, v) :: ms), n + 1, t, h, _ => by
    rw [render, List.length_cons, List.length_append, List.length_cons, List.length_append] at h
    have hm := members_render k v ms n t (by omega)
    have hne : (quote k ++ 58 :: (render v ++ renderMembers ms) ++ t).head? ≠ some 125 := by
      simp [quote]
    rw [render, List.cons_append, value, if_neg (by decide), if_pos rfl, if_neg hne, List.append_assoc, List.cons_append,
      List.append_assoc, hm, Option.map_some]

theorem elements_render : ∀ (x : Json) (xs : List Json) (n : Nat) (t : List UInt8),
    (render x).length + (renderElements xs).length ≤ n →
    elements n (render x ++ (renderElements xs ++ t)) = some (x :: xs, t)
  | x, [], 0, t, h => by
    rw [renderElements, List.length_singleton] at h
    omega
  | x, y :: ys, 0, t, h => by
    rw [renderElements, List.length_cons] at h
    omega
  | x, [], n + 1, t, h => by
    rw [renderElements, List.length_singleton] at h
    rw [elements, value_render x n _ (by omega) (noDigit_elements [] t)]
    simp [renderElements]
  | x, y :: ys, n + 1, t, h => by
    rw [renderElements, List.length_cons, List.length_append] at h
    have hys := elements_render y ys n t (by omega)
    rw [elements, value_render x n _ (by omega) (noDigit_elements (y :: ys) t)]
    simp [renderElements, hys]

theorem members_render : ∀ (k : List UInt8) (v : Json) (ms : List (List UInt8 × Json)) (n : Nat) (t : List UInt8),
    (render v).length + (renderMembers ms).length ≤ n →
    members n (quote k ++ 58 :: (render v ++ (renderMembers ms ++ t))) = some ((k, v) :: ms, t)
  | k, v, [], 0, t, h => by
    rw [renderMembers, List.length_singleton] at h
    omega
  | k, v, (k', v') :: ms, 0, t, h => by
    rw [renderMembers, List.length_cons] at h
    omega
  | k, v, [], n + 1, t, h => by
    rw [renderMembers, List.length_singleton] at h
    rw [members, expect_quote]
    dsimp only
    rw [expect, if_pos rfl, Option.bind_some, value_render v n _ (by omega) (noDigit_members [] t)]
    simp [renderMembers]
  | k, v, (k', v') :: ms, n + 1, t, h => by
    rw [renderMembers, List.length_cons, List.length_append, List.length_cons, List.length_append] at h
    have hms := members_render k' v' ms n t (by omega)
    rw [members, expect_quote]
    dsimp only
    rw [expect, if_pos rfl, Option.bind_some, value_render v n _ (by omega) (noDigit_members ((k', v') :: ms) t)]
    simp [renderMembers, hms]

end

/-- What is written is read back. -/
theorem read_render (v : Json) : read (render v) = some v := by
  have h := value_render v (render v).length [] (Nat.le_refl _) (by rintro c ⟨⟩)
  rw [List.append_nil] at h
  rw [read, h]

end RoundTrip

end Json

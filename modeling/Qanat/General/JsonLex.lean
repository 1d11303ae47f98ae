import Mathlib.Algebra.Order.Ring.Nat
import Mathlib.Data.List.TakeWhile

namespace JsonLex

def isSpace (c : UInt8) : Bool :=
  c == 0x20 || c == 0x09 || c == 0x0A || c == 0x0D

/-- The structural characters. -/
def isMark (c : UInt8) : Bool :=
  c == 0x2C || c == 0x3A || c == 0x5B || c == 0x5D || c == 0x7B || c == 0x7D

/-- What a number or a literal is made of. -/
def isWord (c : UInt8) : Bool :=
  !isSpace c && !isMark c && c != 0x22

/-- What follows the opening quote of a string, up to the closing one. -/
inductive StringTail : List UInt8 → Prop
  | close : StringTail [0x22]
  | plain {c : UInt8} {t : List UInt8} : c ≠ 0x22 → c ≠ 0x5C → StringTail t → StringTail (c :: t)
  | escape (c : UInt8) {t : List UInt8} : StringTail t → StringTail (0x5C :: c :: t)

inductive Token : List UInt8 → Prop
  | mark {c : UInt8} : isMark c = true → Token [c]
  | string {t : List UInt8} : StringTail t → Token (0x22 :: t)
  | word {t : List UInt8} : t ≠ [] → (∀ c ∈ t, isWord c = true) → Token t

/-- A word ends where something else begins. -/
def Ends (t s : List UInt8) : Prop :=
  (∀ c ∈ t, isWord c = true) → ∀ c ∈ s.head?, isWord c = false

/-- A text of these tokens, with any space ahead of each, up to `rest`. -/
inductive Laid (rest : List UInt8) : List (List UInt8) → List UInt8 → Prop
  | nil : Laid rest [] rest
  | cons {w t s : List UInt8} {ts : List (List UInt8)} : (∀ c ∈ w, isSpace c = true) → Token t → Ends t s →
      Laid rest ts s → Laid rest (t :: ts) (w ++ t ++ s)

section Tokens

variable {a b s t u w x y : List UInt8} {ts us : List (List UInt8)}

/-- A string ends at one place only. -/
theorem StringTail.unique (ha : StringTail a) (hb : StringTail b) (h : a ++ x = b ++ y) : a = b ∧ x = y := by
  induction ha generalizing b with
  | close =>
    cases hb with
    | close => exact ⟨rfl, (List.cons.inj h).2⟩
    | plain hquote _ _ => exact absurd (List.cons.inj h).1.symm hquote
    | escape => exact absurd (List.cons.inj h).1 (by decide)
  | plain hquote hback _ ih =>
    cases hb with
    | close => exact absurd (List.cons.inj h).1 hquote
    | plain _ _ hb =>
      obtain ⟨rfl, htail⟩ := List.cons.inj h
      obtain ⟨rfl, rfl⟩ := ih hb htail
      exact ⟨rfl, rfl⟩
    | escape => exact absurd (List.cons.inj h).1 hback
  | escape c _ ih =>
    cases hb with
    | close => exact absurd (List.cons.inj h).1 (by decide)
    | plain _ hback _ => exact absurd (List.cons.inj h).1.symm hback
    | escape d hb =>
      obtain ⟨-, hrest⟩ := List.cons.inj h
      obtain ⟨rfl, htail⟩ := List.cons.inj hrest
      obtain ⟨rfl, rfl⟩ := ih hb htail
      exact ⟨rfl, rfl⟩

theorem isMark_not_word {c : UInt8} (h : isMark c = true) : isWord c = false := by
  unfold isWord
  rw [h]
  simp

theorem isMark_not_space {c : UInt8} (h : isMark c = true) : isSpace c = false := by
  unfold isMark at h
  simp only [Bool.or_eq_true, beq_iff_eq] at h
  obtain ((((rfl | rfl) | rfl) | rfl) | rfl) | rfl := h
  · decide
  · decide
  · decide
  · decide
  · decide
  · decide

theorem isWord_not_space {c : UInt8} (h : isWord c = true) : isSpace c = false := by
  unfold isWord at h
  simp only [Bool.and_eq_true, Bool.not_eq_true'] at h
  exact h.1.1

theorem Token.head (h : Token t) : ∃ c u, t = c :: u ∧ isSpace c = false := by
  cases h with
  | mark hc => exact ⟨_, _, rfl, isMark_not_space hc⟩
  | @string t _ => exact ⟨0x22, t, rfl, by decide⟩
  | word hne hall =>
    obtain ⟨c, u, rfl⟩ := List.exists_cons_of_ne_nil hne
    exact ⟨c, u, rfl, isWord_not_space (hall c List.mem_cons_self)⟩

theorem dropWhile_space (hw : ∀ c ∈ w, isSpace c = true) (ht : Token t) (s : List UInt8) :
    (w ++ t ++ s).dropWhile isSpace = t ++ s := by
  obtain ⟨c, u, rfl, hc⟩ := ht.head
  rw [List.append_assoc, List.dropWhile_append_of_pos hw, List.cons_append, List.dropWhile_cons_of_neg]
  rw [hc]
  exact Bool.false_ne_true

/-- Words of which one does not go on are the same. -/
theorem word_unique (ha : ∀ c ∈ a, isWord c = true) (hb : ∀ c ∈ b, isWord c = true)
    (hx : ∀ c ∈ x.head?, isWord c = false) (hy : ∀ c ∈ y.head?, isWord c = false) (h : a ++ x = b ++ y) :
    a = b ∧ x = y := by
  have htake : ∀ {l z : List UInt8}, (∀ c ∈ l, isWord c = true) → (∀ c ∈ z.head?, isWord c = false) →
      (l ++ z).takeWhile isWord = l := by
    intro l z hl hz
    rw [List.takeWhile_append_of_pos hl]
    cases z with
    | nil => simp
    | cons d z =>
      rw [List.takeWhile_cons_of_neg, List.append_nil]
      rw [hz d rfl]
      exact Bool.false_ne_true
  have hab : a = b := by rw [← htake ha hx, h, htake hb hy]
  subst hab
  exact ⟨rfl, List.append_cancel_left h⟩

/-- The first token of a text is its only first token. -/
theorem Token.unique (ht : Token t) (hu : Token u) (hx : Ends t x) (hy : Ends u y) (h : t ++ x = u ++ y) :
    t = u ∧ x = y := by
  have hquote : isWord 0x22 = false := by decide
  cases ht with
  | @mark c hc =>
    cases hu with
    | mark => exact ⟨congrArg (fun c => [c]) (List.cons.inj h).1, (List.cons.inj h).2⟩
    | string =>
      obtain ⟨rfl, -⟩ := List.cons.inj h
      exact absurd hc (by decide)
    | word hne hall =>
      obtain ⟨d, v, rfl⟩ := List.exists_cons_of_ne_nil hne
      obtain ⟨rfl, -⟩ := List.cons.inj h
      exact absurd (hall c List.mem_cons_self) (by rw [isMark_not_word hc]; exact Bool.false_ne_true)
  | string ht =>
    cases hu with
    | mark hc =>
      obtain ⟨rfl, -⟩ := List.cons.inj h
      exact absurd hc (by decide)
    | string hu =>
      obtain ⟨rfl, rfl⟩ := ht.unique hu (List.cons.inj h).2
      exact ⟨rfl, rfl⟩
    | word hne hall =>
      obtain ⟨d, v, rfl⟩ := List.exists_cons_of_ne_nil hne
      obtain ⟨rfl, -⟩ := List.cons.inj h
      exact absurd (hall _ List.mem_cons_self) (by rw [hquote]; exact Bool.false_ne_true)
  | word hne hall =>
    cases hu with
    | mark hc =>
      obtain ⟨d, v, rfl⟩ := List.exists_cons_of_ne_nil hne
      obtain ⟨rfl, -⟩ := List.cons.inj h
      exact absurd (hall _ List.mem_cons_self) (by rw [isMark_not_word hc]; exact Bool.false_ne_true)
    | string =>
      obtain ⟨d, v, rfl⟩ := List.exists_cons_of_ne_nil hne
      obtain ⟨rfl, -⟩ := List.cons.inj h
      exact absurd (hall _ List.mem_cons_self) (by rw [hquote]; exact Bool.false_ne_true)
    | word _ hall' => exact word_unique hall hall' (hx hall) (hy hall') h

/-- What a text looks like once the space ahead of its first token is skipped. -/
theorem Laid.skip {rest : List UInt8} (h : Laid rest (t :: ts) s) :
    ∃ s', s.dropWhile isSpace = t ++ s' ∧ Token t ∧ Ends t s' ∧ Laid rest ts s' := by
  cases h with
  | @cons w _ s' _ hw ht he hl => exact ⟨s', dropWhile_space hw ht s', ht, he, hl⟩

/-- A text has one row of tokens, whatever space lies between them. -/
theorem Laid.unique (hx : ∀ c ∈ x, isSpace c = true) (hy : ∀ c ∈ y, isSpace c = true) (h : Laid x ts s)
    (h' : Laid y us s) : ts = us := by
  have hend : ∀ {z t : List UInt8} {ts : List (List UInt8)} {r : List UInt8}, (∀ c ∈ z, isSpace c = true) →
      ¬ Laid r (t :: ts) z := by
    intro z t ts r hz hl
    obtain ⟨s', hs, ht, -, -⟩ := hl.skip
    obtain ⟨c, u, rfl, -⟩ := ht.head
    rw [List.dropWhile_eq_nil_iff.mpr hz] at hs
    cases hs
  induction h generalizing us with
  | nil =>
    cases us with
    | nil => rfl
    | cons u us => exact absurd h' (hend hx)
  | @cons w t s ts hw ht he hl ih =>
    cases us with
    | nil =>
      cases h'
      exact absurd (Laid.cons hw ht he hl) (hend hy)
    | cons u us =>
      obtain ⟨s', hs, hu, he', hl'⟩ := h'.skip
      rw [dropWhile_space hw ht] at hs
      obtain ⟨rfl, rfl⟩ := ht.unique hu he he' hs
      rw [ih hl']

/-- Texts in a row. -/
theorem Laid.append {rest : List UInt8} (h : Laid s ts t) (h' : Laid rest us s) : Laid rest (ts ++ us) t := by
  induction h with
  | nil => exact h'
  | cons hw ht he _ ih => exact .cons hw ht he ih

theorem Laid.split {rest : List UInt8} (h : Laid rest (ts ++ us) s) : ∃ m, Laid m ts s ∧ Laid rest us m := by
  induction ts generalizing s with
  | nil => exact ⟨s, .nil, h⟩
  | cons t ts ih =>
    cases h with
    | cons hw ht he hl =>
      obtain ⟨m, hm, hrest⟩ := ih hl
      exact ⟨m, .cons hw ht he hm, hrest⟩

theorem Laid.rest_mem {rest : List UInt8} {c : UInt8} (h : Laid rest ts s) (hc : c ∈ rest) : c ∈ s := by
  induction h with
  | nil => exact hc
  | cons _ _ _ _ ih => exact List.mem_append_right _ ih

/-- A text that begins with its first token. -/
theorem Laid.first {rest : List UInt8} (ht : Token t) (he : Ends t s) (h : Laid rest ts s) :
    Laid rest (t :: ts) (t ++ s) :=
  .cons (w := []) (fun _ hc => absurd hc List.not_mem_nil) ht he h

theorem ends_mark {c : UInt8} (hc : isMark c = true) (s : List UInt8) : Ends [c] s := fun hw =>
  absurd (hw c (List.mem_singleton_self c)) (by rw [isMark_not_word hc]; exact Bool.false_ne_true)

theorem ends_string (x s : List UInt8) : Ends (0x22 :: x) s := fun hw =>
  absurd (hw 0x22 List.mem_cons_self) (by decide)

end Tokens

end JsonLex

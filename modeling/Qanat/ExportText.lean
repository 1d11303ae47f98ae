import Qanat.TunnelConfig
import Qanat.General.Utf8
import Qanat.General.Reads

namespace Qanat

section Decoder

/-- The loop of the decoder of `export.c` over the bytes it still needs; the outer `none` is a read past the end. -/
def exportParts (v : Nat) : Nat → Bytes → Option (Option Nat)
  | 0, _ => some (some v)
  | _ + 1, [] => none
  | need + 1, b :: t =>
    if b &&& 0xC0 ≠ 0x80 then some none else exportParts (v <<< 6 ||| (b &&& 0x3F).toNat) need t

/-- How many bytes a first byte needs, and what it begins the value with. -/
def exportLead (c : UInt8) : Option (Nat × Nat) :=
  if 0xC2 ≤ c ∧ c ≤ 0xDF then some (1, (c &&& 0x1F).toNat)
  else if 0xE0 ≤ c ∧ c ≤ 0xEF then some (2, (c &&& 0x0F).toNat)
  else if 0xF0 ≤ c ∧ c ≤ 0xF4 then some (3, (c &&& 0x07).toNat)
  else none

/-- `utf8_next` of `export.c`: the code point and its length, or `some none` for the length zero. -/
def exportUtf8Next : Bytes → Option (Option (Nat × Nat))
  | [] => none
  | c :: t =>
    if c < 0x80 then some (some (c.toNat, 1))
    else
      match exportLead c with
      | none => some none
      | some (need, first) =>
        match exportParts first need t with
        | none => none
        | some none => some none
        | some (some v) =>
          if (need = 2 ∧ v < 0x800) ∨ (need = 3 ∧ v < 0x10000) then some none
          else if 0xD800 ≤ v ∧ v ≤ 0xDFFF then some none
          else if 0x10FFFF < v then some none
          else some (some (v, need + 1))

end Decoder

section Escapers

def isControlPoint (cp : Nat) : Bool :=
  cp < 0x20 || cp == 0x7F || (0x80 ≤ cp && cp ≤ 0x9F)

def uEscape (cp : Nat) : Bytes :=
  [chBackslash, 0x75, hexLower (cp / 4096 % 16), hexLower (cp / 256 % 16), hexLower (cp / 16 % 16), hexLower (cp % 16)]

/-- What `json_str` writes for a code point of the bytes `seq`. -/
def jsonChar (cp : Nat) (seq : Bytes) : Bytes :=
  if cp = chQuote.toNat ∨ cp = chBackslash.toNat then [chBackslash, UInt8.ofNat cp]
  else if isControlPoint cp then uEscape cp
  else seq

/-- What `csv_str` writes for a code point of the bytes `seq`. -/
def csvChar (cp : Nat) (seq : Bytes) : Bytes :=
  if isControlPoint cp then [chSp] else if cp = chQuote.toNat then chQuote :: seq else seq

/-- The loop of `json_str` and `csv_str` over the memory of a string, `skip` bytes before the next character.
A string ends with its NUL, so that no case without one is reached. -/
def escapeChars (bad : Bytes) (char : Nat → Bytes → Bytes) : Nat → Bytes → Bytes
  | _, [] => []
  | skip + 1, _ :: t => escapeChars bad char skip t
  | 0, c :: t =>
    if c = 0 then []
    else
      match exportUtf8Next (c :: t) with
      | none => []
      | some none => bad ++ escapeChars bad char 0 t
      | some (some (cp, n)) => char cp ((c :: t).take n) ++ escapeChars bad char (n - 1) t

/-- `json_str`. -/
def jsonStr (s : Bytes) : Bytes :=
  chQuote :: escapeChars (uEscape 0xFFFD) jsonChar 0 (s ++ [0]) ++ [chQuote]

def startsFormula (s : Bytes) : Bool :=
  s.head? == some 0x3D || s.head? == some 0x2B || s.head? == some 0x2D || s.head? == some 0x40

/-- `csv_str`. -/
def csvStr (s : Bytes) (neutralize : Bool) : Bytes :=
  chQuote :: (if neutralize && startsFormula s then [0x27] else []) ++
    escapeChars [0x3F] csvChar 0 (s ++ [0]) ++ [chQuote]

end Escapers

section Exact

theorem isTail_iff (b : UInt8) : b &&& 0xC0 = 0x80 ↔ Utf8.isTail b = true := by
  revert b
  exact Reads.forall_byte (by decide +kernel)

theorem shifted_tail (v : Nat) (b : UInt8) : v <<< 6 ||| (b &&& 0x3F).toNat = v * 64 + b.toNat % 64 := by
  have hb : (b &&& 0x3F).toNat = b.toNat % 64 := by
    revert b
    exact Reads.forall_byte (by decide +kernel)
  rw [hb, ← Nat.shiftLeft_add_eq_or_of_lt (Nat.mod_lt _ (by decide)), Nat.shiftLeft_eq]

theorem exportLead_eq {c : UInt8} (h : ¬c < 0x80) :
    Utf8.lead c =
      (exportLead c).map fun p => (p.1, p.2, if p.1 = 1 then 0x80 else if p.1 = 2 then 0x800 else 0x10000) := by
  revert c
  exact @Reads.forall_byte (fun c => ¬c < 0x80 → _ = _) (by decide +kernel)

/-- With a byte that is no tail ahead, the loop stays inside and takes the tails in their order. -/
theorem exportParts_eq {t : Bytes} (v need : Nat) (h : (0 : UInt8) ∈ t) :
    exportParts v need t = some (if (t.take need).length = need ∧ (t.take need).all Utf8.isTail = true then
      some (Utf8.valueOf v (t.take need)) else none) := by
  induction need generalizing v t with
  | zero => rfl
  | succ need ih =>
    cases t with
    | nil => exact absurd h List.not_mem_nil
    | cons b t =>
      rw [exportParts]
      by_cases hb : Utf8.isTail b = true
      · have ht : (0 : UInt8) ∈ t := by
          obtain rfl | ht := List.mem_cons.mp h
          · exact absurd hb (by decide)
          · exact ht
        rw [if_neg (not_not.mpr ((isTail_iff b).mpr hb)), ih _ ht, shifted_tail]
        simp only [List.take_succ_cons, List.length_cons, Nat.succ_inj, List.all_cons, hb, Bool.true_and]
        rfl
      · rw [if_pos (fun hc => hb ((isTail_iff b).mp hc))]
        simp [hb]

theorem lead_two {c : UInt8} {first : Nat} (h : exportLead c = some (1, first)) : 2 ≤ first := by
  revert c
  exact @Reads.forall_byte (fun c => exportLead c = some (1, first) → 2 ≤ first) fun n h => by
    have hall : ∀ n : Fin 256, ∀ p, exportLead (UInt8.ofNat n) = some p → p.1 = 1 → 2 ≤ p.2 := by decide +kernel
    exact hall n _ h rfl

theorem lead_need {c : UInt8} {need first : Nat} (h : exportLead c = some (need, first)) :
    need = 1 ∨ need = 2 ∨ need = 3 := by
  unfold exportLead at h
  split at h
  next => exact .inl (Prod.mk.inj (Option.some.inj h)).1.symm
  next =>
    split at h
    next => exact .inr (.inl (Prod.mk.inj (Option.some.inj h)).1.symm)
    next =>
      split at h
      next => exact .inr (.inr (Prod.mk.inj (Option.some.inj h)).1.symm)
      next => cases h

/-- In a memory with a NUL ahead the decoder of `export.c` stays inside, and its answer is the scalar at the front. -/
theorem exportUtf8Next_eq {m : Bytes} (h : (0 : UInt8) ∈ m) : exportUtf8Next m = some (Utf8.measured m) := by
  cases m with
  | nil => exact absurd h List.not_mem_nil
  | cons c t =>
    rw [exportUtf8Next]
    by_cases hc : c < 0x80
    · have hl : Utf8.lead c = some (0, c.toNat, 0) := by rw [Utf8.lead, if_pos hc]
      have hs : Utf8.Scalar c.toNat := .inl ((UInt8.lt_iff_toNat_lt.mp hc).trans (by decide))
      rw [if_pos hc, Utf8.measured_cons hl, if_pos ⟨rfl, rfl, Nat.zero_le _, hs⟩]
      rfl
    · have hl := exportLead_eq hc
      have ht : (0 : UInt8) ∈ t := by
        obtain rfl | ht := List.mem_cons.mp h
        · exact absurd (by decide) hc
        · exact ht
      rw [if_neg hc]
      cases he : exportLead c with
      | none =>
        rw [he] at hl
        rw [Utf8.measured_none hl]
      | some p =>
        obtain ⟨need, first⟩ := p
        rw [he] at hl
        rw [Utf8.measured_cons hl]
        dsimp only
        rw [exportParts_eq _ _ ht]
        by_cases hparts : (t.take need).length = need ∧ (t.take need).all Utf8.isTail = true
        · rw [if_pos hparts]
          have htwo : need = 1 → 0x80 ≤ Utf8.valueOf first (t.take need) := by
            rintro rfl
            obtain ⟨b, hb⟩ := List.length_eq_one_iff.mp hparts.1
            have := lead_two he
            rw [hb, Utf8.valueOf, List.foldl_cons, List.foldl_nil]
            omega
          generalize Utf8.valueOf first (t.take need) = v at htwo ⊢
          dsimp only
          have hscalar : Utf8.Scalar v ↔ v < 0xD800 ∨ (0xE000 ≤ v ∧ v ≤ 0x10FFFF) := Iff.rfl
          obtain rfl | rfl | rfl := lead_need he <;>
          · simp only [hparts, true_and, hscalar]
            grind
        · rw [if_neg hparts, if_neg (fun hall => hparts ⟨hall.1, hall.2.1⟩)]

end Exact

end Qanat

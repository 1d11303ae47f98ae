import Qanat.TunnelTree

namespace Qanat

section Utf8

/-- A whole sequence: one printable character, or bytes that the writer leaves alone. -/
structure Utf8Seq (q : Bytes) : Prop where
  ne_nil : q ≠ []
  skip : ∀ t, utf8Valid (q ++ t) = utf8Valid t
  plain : (∃ c, q = [c] ∧ 0x20 ≤ c ∧ c < 0x7F) ∨ ∀ c ∈ q, 0x80 ≤ c

theorem utf8Parts_high {ps : Bytes} {v w : Nat} (h : utf8Parts v ps = some w) : ∀ p ∈ ps, 0x80 ≤ p := by
  have hbyte : ∀ p : UInt8, p &&& 0xC0 = 0x80 → 0x80 ≤ p := by
    intro p hp
    rw [← hp, UInt8.le_iff_toNat_le, UInt8.toNat_and]
    exact Nat.and_le_left
  induction ps generalizing v with
  | nil => exact fun p hp => absurd hp List.not_mem_nil
  | cons x ps ih =>
    rw [utf8Parts, List.foldlM_cons] at h
    obtain ⟨mid, hmid, h⟩ := Option.bind_eq_some_iff.mp h
    intro p hp
    obtain rfl | hp := List.mem_cons.mp hp
    · split at hmid
      next hx => exact hbyte p hx
      next => cases hmid
    · exact ih h p hp

theorem utf8Value_parts {minimum v : Nat} {ps : Bytes} (h : utf8Value minimum (utf8Parts v ps) = true) :
    ∀ p ∈ ps, 0x80 ≤ p := by
  cases hv : utf8Parts v ps with
  | none =>
    rw [hv] at h
    cases h
  | some w => exact utf8Parts_high hv

/-- A valid text is empty or begins with a whole sequence. -/
theorem utf8Valid_cases {s : Bytes} (h : utf8Valid s = true) :
    s = [] ∨ ∃ q t, s = q ++ t ∧ Utf8Seq q ∧ utf8Valid t = true := by
  cases s with
  | nil => exact .inl rfl
  | cons c t =>
    refine .inr ?_
    rw [utf8Valid.eq_def] at h
    dsimp only at h
    split at h
    next => cases h
    next hctl =>
      rw [not_or] at hctl
      split at h
      next hlow =>
        refine ⟨[c], t, rfl, ⟨List.cons_ne_nil _ _, fun t => ?_, .inl ⟨c, rfl, UInt8.not_lt.mp hctl.1, ?_⟩⟩, h⟩
        · rw [List.singleton_append, utf8Valid.eq_def]
          dsimp only
          rw [if_neg (not_or.mpr hctl), if_pos hlow]
        · have hne := hctl.2
          rw [UInt8.lt_iff_toNat_lt] at hlow ⊢
          rw [← UInt8.toNat_inj] at hne
          exact Nat.lt_of_le_of_ne (Nat.le_of_lt_succ hlow) hne
      next hhigh =>
        have hc : 0x80 ≤ c := UInt8.not_lt.mp hhigh
        split at h
        next h₂ =>
          split at h
          next p t =>
            rw [Bool.and_eq_true] at h
            refine ⟨[c, p], t, rfl, ⟨List.cons_ne_nil _ _, fun t => ?_, .inr ?_⟩, h.2⟩
            · rw [List.cons_append, List.singleton_append, utf8Valid.eq_def]
              dsimp only
              rw [if_neg (not_or.mpr hctl), if_neg hhigh, if_pos h₂, h.1, Bool.true_and]
            · exact List.forall_mem_cons.mpr ⟨hc, utf8Value_parts h.1⟩
          next => cases h
        next h₂ =>
          split at h
          next h₃ =>
            split at h
            next p r t =>
              rw [Bool.and_eq_true] at h
              refine ⟨[c, p, r], t, rfl, ⟨List.cons_ne_nil _ _, fun t => ?_, .inr ?_⟩, h.2⟩
              · rw [List.cons_append, List.cons_append, List.singleton_append, utf8Valid.eq_def]
                dsimp only
                rw [if_neg (not_or.mpr hctl), if_neg hhigh, if_neg h₂, if_pos h₃, h.1, Bool.true_and]
              · exact List.forall_mem_cons.mpr ⟨hc, utf8Value_parts h.1⟩
            next => cases h
          next h₃ =>
            split at h
            next h₄ =>
              split at h
              next p r u t =>
                rw [Bool.and_eq_true] at h
                refine ⟨[c, p, r, u], t, rfl, ⟨List.cons_ne_nil _ _, fun t => ?_, .inr ?_⟩, h.2⟩
                · rw [List.cons_append, List.cons_append, List.cons_append, List.singleton_append, utf8Valid.eq_def]
                  dsimp only
                  rw [if_neg (not_or.mpr hctl), if_neg hhigh, if_neg h₂, if_neg h₃, if_pos h₄, h.1, Bool.true_and]
                · exact List.forall_mem_cons.mpr ⟨hc, utf8Value_parts h.1⟩
              next => cases h
            next => cases h

/-- Induction over the sequences of a valid text. -/
theorem utf8_induction {P : Bytes → Prop} (hnil : P [])
    (hseq : ∀ q t, Utf8Seq q → P t → P (q ++ t)) {s : Bytes} (h : utf8Valid s = true) : P s := by
  induction hn : s.length using Nat.strongRecOn generalizing s with
  | ind n ih =>
    obtain rfl | ⟨q, t, rfl, hq, ht⟩ := utf8Valid_cases h
    · exact hnil
    · have hpos := List.length_pos_iff.mpr hq.ne_nil
      rw [List.length_append] at hn
      exact hseq q t hq (ih t.length (by omega) ht rfl)

/-- A valid text has no control characters. -/
theorem utf8Valid_printable {s : Bytes} (h : utf8Valid s = true) : ∀ c ∈ s, 0x20 ≤ c := by
  refine utf8_induction (P := fun s => ∀ c ∈ s, 0x20 ≤ c) (fun c hc => absurd hc List.not_mem_nil) ?_ h
  intro q t hq ht c hc
  obtain hc | hc := List.mem_append.mp hc
  · obtain ⟨d, rfl, hd, -⟩ | hhigh := hq.plain
    · rw [List.mem_singleton.mp hc]
      exact hd
    · exact UInt8.le_trans (by decide) (hhigh c hc)
  · exact ht c hc

theorem utf8Valid_append {s t : Bytes} (hs : utf8Valid s = true) (ht : utf8Valid t = true) :
    utf8Valid (s ++ t) = true := by
  refine utf8_induction (P := fun s => utf8Valid (s ++ t) = true) ht (fun q u hq hu => ?_) hs
  rw [List.append_assoc, hq.skip]
  exact hu

theorem utf8Valid_of_printable {s : Bytes} (h : ∀ c ∈ s, 0x20 ≤ c ∧ c < 0x7F) : utf8Valid s = true := by
  induction s with
  | nil => rfl
  | cons c s ih =>
    have hc := h c List.mem_cons_self
    rw [utf8Valid.eq_def]
    dsimp only
    rw [if_neg, if_pos, ih fun d hd => h d (List.mem_cons_of_mem _ hd)]
    · exact UInt8.lt_trans hc.2 (by decide)
    · rintro (hlow | rfl)
      · exact absurd hlow (UInt8.not_lt.mpr hc.1)
      · exact absurd hc.2 (by decide)


/-- A fixed text of printable letters is valid. -/
theorem utf8Valid_of_all {s : Bytes} (h : (s.all fun c => 0x20 ≤ c ∧ c < 0x7F) = true) : utf8Valid s = true :=
  utf8Valid_of_printable fun c hc => of_decide_eq_true (List.all_eq_true.mp h c hc)

theorem escapes_high {q : Bytes} (h : ∀ c ∈ q, 0x80 ≤ c) : q.flatMap Json.escape = q := by
  induction q with
  | nil => rfl
  | cons c q ih =>
    have hc := h c List.mem_cons_self
    have hescape : Json.escape c = [c] := by
      unfold Json.escape
      rw [if_neg, if_neg]
      · rintro (hlow | rfl)
        · exact absurd (UInt8.lt_of_lt_of_le hlow (by decide)) (UInt8.not_lt.mpr hc)
        · exact absurd hc (by decide)
      · rintro (rfl | rfl) <;> exact absurd hc (by decide)
    rw [List.flatMap_cons, hescape, ih fun d hd => h d (List.mem_cons_of_mem _ hd), List.singleton_append]

/-- Escaping keeps a text valid. -/
theorem utf8Valid_escapes {s : Bytes} (h : utf8Valid s = true) : utf8Valid (s.flatMap Json.escape) = true := by
  refine utf8_induction (P := fun s => utf8Valid (s.flatMap Json.escape) = true) rfl (fun q t hq ht => ?_) h
  rw [List.flatMap_append]
  refine utf8Valid_append ?_ ht
  obtain ⟨c, rfl, hc⟩ | hhigh := hq.plain
  · rw [List.flatMap_singleton]
    refine utf8Valid_of_printable fun d hd => ?_
    unfold Json.escape at hd
    split at hd
    next =>
      obtain rfl | hd := List.mem_cons.mp hd
      · decide
      · rw [List.mem_singleton.mp hd]
        exact hc
    next =>
      rw [if_neg] at hd
      · rw [List.mem_singleton.mp hd]
        exact hc
      · rintro (hlow | rfl)
        · exact absurd hlow (UInt8.not_lt.mpr hc.1)
        · exact absurd hc.2 (by decide)
  · rw [escapes_high hhigh, ← List.append_nil q, hq.skip]
    rfl

theorem utf8Valid_quote {s : Bytes} (h : utf8Valid s = true) : utf8Valid (Json.quote s) = true :=
  utf8Valid_append (s := [34]) (by decide) (utf8Valid_append (utf8Valid_escapes h) (by decide))

/-- Valid texts are what written values are made of. -/
theorem utf8Valid_spreads : Json.Spreads (fun s => utf8Valid s = true) (fun s => utf8Valid s = true) where
  append := fun _ _ => utf8Valid_append
  plain := fun _ => utf8Valid_of_printable
  quote := fun _ => utf8Valid_quote

theorem utf8Valid_cons {c : UInt8} {t : Bytes} (hc : 0x20 ≤ c ∧ c < 0x7F) (ht : utf8Valid t = true) :
    utf8Valid (c :: t) = true :=
  utf8Valid_append (s := [c]) (utf8Valid_of_printable (by simpa using hc)) ht

end Utf8

end Qanat

import Qanat.TunnelSound
import Qanat.General.JsonLex

namespace Qanat

open JsonLex

theorem hexDigit_plain {d : UInt8} {v : Nat} (h : hexDigitValue d = some v) : d ≠ 0x22 ∧ d ≠ 0x5C := by
  constructor
  · rintro rfl
    have hnone : hexDigitValue 0x22 = none := by decide
    rw [hnone] at h
    cases h
  · rintro rfl
    have hnone : hexDigitValue 0x5C = none := by decide
    rw [hnone] at h
    cases h

/-- Four hexadecimal digits are bytes of a string. -/
theorem hex4_tail {d₃ d₂ d₁ d₀ : UInt8} {v : Nat} (h : jsonHex4 d₃ d₂ d₁ d₀ = some v) {t : Bytes} (ht : StringTail t) :
    StringTail (d₃ :: d₂ :: d₁ :: d₀ :: t) := by
  obtain ⟨v₃, h₃, h⟩ := Option.bind_eq_some_iff.mp h
  obtain ⟨v₂, h₂, h⟩ := Option.bind_eq_some_iff.mp h
  obtain ⟨v₁, h₁, h⟩ := Option.bind_eq_some_iff.mp h
  obtain ⟨v₀, h₀, -⟩ := Option.bind_eq_some_iff.mp h
  obtain ⟨q₃, b₃⟩ := hexDigit_plain h₃
  obtain ⟨q₂, b₂⟩ := hexDigit_plain h₂
  obtain ⟨q₁, b₁⟩ := hexDigit_plain h₁
  obtain ⟨q₀, b₀⟩ := hexDigit_plain h₀
  exact .plain q₃ b₃ (.plain q₂ b₂ (.plain q₁ b₁ (.plain q₀ b₀ ht)))

/-- The characters of a string are read off the string alone. -/
theorem jsonChars_reads {s p r : Bytes} (h : jsonChars s = some (p, r)) :
    ∃ x, StringTail x ∧ s = x ++ r ∧ ∀ z, jsonChars (x ++ z) = some (p, z) := by
  fun_induction jsonChars s generalizing p r with
  | case2 t =>
    obtain ⟨rfl, rfl⟩ := Prod.mk.inj (Option.some.inj h)
    refine ⟨[chQuote], .close, rfl, fun z => ?_⟩
    rw [List.singleton_append, jsonChars.eq_def]
    exact if_pos rfl
  | case4 c t hq hc hb ih =>
    obtain ⟨⟨p', r'⟩, ht, heq⟩ := Option.map_eq_some_iff.mp h
    obtain ⟨rfl, rfl⟩ := Prod.mk.inj heq
    obtain ⟨x, hx, rfl, hall⟩ := ih ht
    refine ⟨c :: x, .plain hq hb hx, rfl, fun z => ?_⟩
    rw [List.cons_append, jsonChars.eq_def]
    dsimp only
    rw [if_neg hq, if_neg hc, if_pos hb, hall]
    rfl
  | case6 c hq hc hb e t he ih =>
    obtain rfl := not_not.mp hb
    obtain ⟨⟨p', r'⟩, ht, heq⟩ := Option.map_eq_some_iff.mp h
    obtain ⟨rfl, rfl⟩ := Prod.mk.inj heq
    obtain ⟨x, hx, rfl, hall⟩ := ih ht
    refine ⟨chBackslash :: e :: x, .escape e hx, rfl, fun z => ?_⟩
    rw [List.cons_append, List.cons_append, jsonChars.eq_def]
    dsimp only
    rw [if_neg hq, if_neg hc, if_neg hb, if_pos he, hall]
    rfl
  | case12 c hq hc hb e he hu d₃ d₂ d₁ d₀ v hv hs b u e₃ e₂ e₁ e₀ t hbu w hw hlow ih =>
    obtain rfl := not_not.mp hb
    obtain rfl := not_not.mp hu
    obtain ⟨rfl, rfl⟩ : b = chBackslash ∧ u = 0x75 := by simpa using hbu
    obtain ⟨bytes, hbytes, h⟩ := Option.bind_eq_some_iff.mp h
    obtain ⟨⟨p', r'⟩, ht, heq⟩ := Option.bind_eq_some_iff.mp h
    obtain ⟨rfl, rfl⟩ := Prod.mk.inj (Option.some.inj heq)
    obtain ⟨x, hx, rfl, hall⟩ := ih ht
    refine ⟨chBackslash :: 0x75 :: d₃ :: d₂ :: d₁ :: d₀ :: chBackslash :: 0x75 :: e₃ :: e₂ :: e₁ :: e₀ :: x,
      .escape _ (hex4_tail hv (.escape _ (hex4_tail hw hx))), rfl, fun z => ?_⟩
    simp only [List.cons_append]
    rw [jsonChars.eq_def]
    dsimp only
    rw [if_neg hq, if_neg hc, if_neg hb, if_neg he, if_neg hu, hv]
    dsimp only
    rw [if_pos hs, if_neg hbu, hw]
    dsimp only
    rw [if_neg hlow, hbytes, hall]
    rfl
  | case14 c hq hc hb e he hu d₃ d₂ d₁ d₀ t v hv hs ih =>
    obtain rfl := not_not.mp hb
    obtain rfl := not_not.mp hu
    obtain ⟨bytes, hbytes, h⟩ := Option.bind_eq_some_iff.mp h
    obtain ⟨⟨p', r'⟩, ht, heq⟩ := Option.bind_eq_some_iff.mp h
    obtain ⟨rfl, rfl⟩ := Prod.mk.inj (Option.some.inj heq)
    obtain ⟨x, hx, rfl, hall⟩ := ih ht
    refine ⟨chBackslash :: 0x75 :: d₃ :: d₂ :: d₁ :: d₀ :: x, .escape _ (hex4_tail hv hx), rfl, fun z => ?_⟩
    simp only [List.cons_append]
    rw [jsonChars.eq_def]
    dsimp only
    rw [if_neg hq, if_neg hc, if_neg hb, if_neg he, if_neg hu, hv]
    dsimp only
    rw [if_neg hs, hbytes, hall]
    rfl
  | _ => cases h

theorem jsonString_reads {capacity : Nat} {s p r : Bytes} (h : jsonString capacity s = some (p, r)) :
    ∃ x, Token (chQuote :: x) ∧ s = chQuote :: x ++ r ∧ ∀ z, jsonString capacity (chQuote :: x ++ z) = some (p, z) := by
  cases s with
  | nil => cases h
  | cons c t =>
    rw [jsonString] at h
    split at h
    next hc =>
      subst hc
      obtain ⟨hchars, hfits⟩ := Option.filter_eq_some_iff.mp h
      obtain ⟨x, hx, rfl, hall⟩ := jsonChars_reads hchars
      refine ⟨x, .string hx, rfl, fun z => ?_⟩
      rw [List.cons_append, jsonString, if_pos rfl, hall]
      exact Option.filter_eq_some_iff.mpr ⟨rfl, hfits⟩
    next => cases h

theorem isScalarEnd_not_word {c : UInt8} (h : isScalarEnd c = true) : isWord c = false := by
  unfold isScalarEnd isJsonSpace at h
  simp only [Bool.or_eq_true, beq_iff_eq] at h
  obtain (rfl | rfl) | ((rfl | rfl) | rfl) | rfl := h
  · decide
  · decide
  · decide
  · decide
  · decide
  · decide

theorem isDigit_word {c : UInt8} (h : isDigit c = true) : isWord c = true := by
  have hrange : 0x30 ≤ c.toNat ∧ c.toNat ≤ 0x39 := by
    simpa [isDigit, UInt8.le_iff_toNat_le] using h
  have hne : ∀ d : UInt8, d.toNat < 0x30 ∨ 0x39 < d.toNat → (c == d) = false := by
    intro d hd
    refine beq_eq_false_iff_ne.mpr ?_
    rintro rfl
    omega
  unfold isWord isSpace isMark
  rw [hne 0x20 (by decide), hne 0x09 (by decide), hne 0x0A (by decide), hne 0x0D (by decide), hne 0x2C (by decide),
    hne 0x3A (by decide), hne 0x5B (by decide), hne 0x5D (by decide), hne 0x7B (by decide), hne 0x7D (by decide), bne,
    hne 0x22 (by decide)]
  rfl

/-- What a part of a number takes are bytes of a word. -/
def TakesWord (f : Bytes → Option Bytes) : Prop :=
  ∀ s r, f s = some r → ∃ d, s = d ++ r ∧ ∀ c ∈ d, isWord c = true

theorem jsonDigits_word : TakesWord jsonDigits := by
  intro s r h
  unfold jsonDigits at h
  split at h
  next =>
    obtain rfl := Option.some.inj h
    exact ⟨s.takeWhile isDigit, List.takeWhile_append_dropWhile.symm,
      fun c hc => isDigit_word (List.mem_takeWhile_imp hc)⟩
  next => cases h

theorem TakesWord.cons {f : Bytes → Option Bytes} (hf : TakesWord f) {c : UInt8} (hc : isWord c = true) {s r : Bytes}
    (hs : s.head? = some c) (h : f s.tail = some r) : ∃ d, s = d ++ r ∧ ∀ c ∈ d, isWord c = true := by
  obtain ⟨d, hd, hall⟩ := hf _ _ h
  refine ⟨c :: d, ?_, List.forall_mem_cons.mpr ⟨hc, hall⟩⟩
  rw [List.cons_append, ← hd]
  exact (List.cons_head?_tail hs).symm

theorem TakesWord.some : TakesWord some :=
  fun _ _ h => ⟨[], (Option.some.inj h) ▸ rfl, fun _ hc => absurd hc List.not_mem_nil⟩

theorem jsonInteger_word : TakesWord jsonInteger := by
  intro s r h
  unfold jsonInteger at h
  split at h
  next hs =>
    split at h
    next => cases h
    next => exact TakesWord.some.cons (by decide) hs h
  next => exact jsonDigits_word s r h

theorem jsonFraction_word : TakesWord jsonFraction := by
  intro s r h
  unfold jsonFraction at h
  split at h
  next hs => exact jsonDigits_word.cons (by decide) hs h
  next => exact TakesWord.some s r h

theorem jsonExponent_word : TakesWord jsonExponent := by
  have hsign : TakesWord fun s => jsonDigits (if s.head? = some 0x2B ∨ s.head? = some chDash then s.tail else s) := by
    intro s r h
    dsimp only at h
    split at h
    next hs =>
      obtain hs | hs := hs
      · exact jsonDigits_word.cons (by decide) hs h
      · exact jsonDigits_word.cons (by decide) hs h
    next => exact jsonDigits_word s r h
  intro s r h
  unfold jsonExponent at h
  split at h
  next hs =>
    obtain hs | hs := hs
    · exact hsign.cons (by decide) hs h
    · exact hsign.cons (by decide) hs h
  next => exact TakesWord.some s r h

theorem TakesWord.bind {f g : Bytes → Option Bytes} (hf : TakesWord f) (hg : TakesWord g) :
    TakesWord fun s => (f s).bind g := by
  intro s r h
  obtain ⟨m, hm, hr⟩ := Option.bind_eq_some_iff.mp h
  obtain ⟨d, rfl, hd⟩ := hf _ _ hm
  obtain ⟨e, rfl, he⟩ := hg _ _ hr
  refine ⟨d ++ e, (List.append_assoc _ _ _).symm, fun c hc => ?_⟩
  obtain hc | hc := List.mem_append.mp hc
  · exact hd c hc
  · exact he c hc

theorem jsonNumberValid_word {v : Bytes} (h : jsonNumberValid v = true) : ∀ c ∈ v, isWord c = true := by
  have hnumber := (jsonInteger_word.bind jsonFraction_word).bind jsonExponent_word
  unfold jsonNumberValid at h
  dsimp only at h
  split at h
  next hs =>
    obtain ⟨d, hd, hall⟩ := hnumber.cons (c := chDash) (by decide) hs (beq_iff_eq.mp h)
    rw [hd, List.append_nil]
    exact hall
  next =>
    obtain ⟨d, hd, hall⟩ := hnumber _ _ (beq_iff_eq.mp h)
    rw [hd, List.append_nil]
    exact hall

/-- A scalar is one token, and is read the same wherever something follows that ends it. -/
theorem jsonScalar_reads {capacity : Nat} {s v r : Bytes} {k : JsonScalarKind}
    (h : jsonScalar capacity s = some (k, v, r)) :
    ∃ tok, Token tok ∧ s = tok ++ r ∧ Ends tok r ∧
      ∀ z : Bytes, (∀ c ∈ z.head?, isScalarEnd c = true) → jsonScalar capacity (tok ++ z) = some (k, v, z) := by
  unfold jsonScalar at h
  split at h
  next hs =>
    obtain ⟨⟨p, r'⟩, hp, heq⟩ := Option.map_eq_some_iff.mp h
    cases heq
    obtain ⟨x, hx, rfl, hall⟩ := jsonString_reads hp
    refine ⟨chQuote :: x, hx, rfl, fun hw => ?_, fun z _ => ?_⟩
    · exact absurd (hw chQuote List.mem_cons_self) (by decide)
    · have hhead : (chQuote :: x ++ z).head? = some chQuote := rfl
      rw [jsonScalar, if_pos hhead, hall]
      rfl
  next hs =>
    dsimp only at h
    split at h
    next => cases h
    next hlen =>
      have hsplit : s = s.takeWhile (fun c => !isScalarEnd c) ++ s.dropWhile fun c => !isScalarEnd c :=
        List.takeWhile_append_dropWhile.symm
      have hend : ∀ c ∈ (s.dropWhile fun c => !isScalarEnd c).head?, isScalarEnd c = true := by
        intro c hc
        have hnot := List.head?_dropWhile_not (fun c => !isScalarEnd c) s
        rw [Option.mem_def.mp hc] at hnot
        simpa using hnot
      generalize s.takeWhile (fun c => !isScalarEnd c) = token at h hlen hsplit
      generalize s.dropWhile (fun c => !isScalarEnd c) = rest at h hend hsplit
      have hword : ∀ c ∈ token, isWord c = true := by
        split at h
        next hlit =>
          obtain rfl | rfl := hlit
          · exact List.all_eq_true.mp rfl
          · exact List.all_eq_true.mp rfl
        next =>
          split at h
          next hnumber => exact jsonNumberValid_word hnumber
          next => cases h
      have hrest : rest = r := by
        split at h
        next => cases h; rfl
        next =>
          split at h
          next => cases h; rfl
          next => cases h
      subst hrest
      obtain ⟨hne, hfits⟩ := not_or.mp hlen
      refine ⟨token, .word hne hword, hsplit, fun _ c hc => isScalarEnd_not_word (hend c hc), fun z hz => ?_⟩
      have hnot : ∀ c ∈ token, (!isScalarEnd c) = true := by
        intro c hc
        cases hcend : isScalarEnd c with
        | false => rfl
        | true => exact absurd (hword c hc) (by rw [isScalarEnd_not_word hcend]; exact Bool.false_ne_true)
      have htake : (token ++ z).takeWhile (fun c => !isScalarEnd c) = token := by
        rw [List.takeWhile_append_of_pos hnot]
        cases z with
        | nil => exact List.append_nil _
        | cons d z => rw [List.takeWhile_cons_of_neg (by simp [hz d rfl]), List.append_nil]
      have hdrop : (token ++ z).dropWhile (fun c => !isScalarEnd c) = z := by
        rw [List.dropWhile_append_of_pos hnot]
        cases z with
        | nil => rfl
        | cons d z => exact List.dropWhile_cons_of_neg (by simp [hz d rfl])
      have hquote : (token ++ z).head? ≠ some chQuote := by
        obtain ⟨c, u, rfl⟩ := List.exists_cons_of_ne_nil hne
        intro hc
        rw [List.cons_append, List.head?_cons, Option.some.injEq] at hc
        subst hc
        exact absurd (hword _ List.mem_cons_self) (by decide)
      unfold jsonScalar
      rw [if_neg hquote]
      dsimp only
      rw [htake, hdrop, if_neg hlen]
      split at h
      next hlit =>
        cases h
        rw [if_pos hlit]
      next hlit =>
        rw [if_neg hlit]
        split at h
        next hnumber =>
          cases h
          rw [if_pos hnumber]
        next => cases h

theorem takeByte_ok {c : UInt8} {s t : Bytes} (h : takeByte c s = .ok t) : s = c :: t := by
  cases s with
  | nil => cases h
  | cons x s =>
    rw [takeByte] at h
    split at h
    next hx =>
      cases h
      rw [hx]
    next => cases h

theorem takeByte_cons (c : UInt8) (t : Bytes) : takeByte c (c :: t) = .ok t :=
  if_pos rfl

/-- Where nothing but spaces lies ahead of a text of some tokens. -/
theorem laid_skip {rest s : Bytes} {ts : List Bytes} (h : Laid rest ts (skipJsonSpace s)) (hne : ts ≠ []) :
    Laid rest ts s := by
  have hsplit : s.takeWhile isSpace ++ skipJsonSpace s = s := List.takeWhile_append_dropWhile
  generalize hk : skipJsonSpace s = k at h hsplit
  cases h with
  | nil => exact absurd rfl hne
  | @cons w t s' ts hw ht he hl =>
    rw [← hsplit, ← List.append_assoc, ← List.append_assoc]
    refine .cons (fun c hc => ?_) ht he hl
    obtain hc | hc := List.mem_append.mp hc
    · exact List.mem_takeWhile_imp hc
    · exact hw c hc

/-- A member is a name, a colon and a scalar, and is read the same however they are laid out. -/
theorem vmessMember_reads {link l : TunnelLink} {seen sn : List LinkField} {s r : Bytes}
    (h : vmessMember link seen s = .ok (l, sn, r)) :
    ∃ x v, s.head? = some chQuote ∧ Laid r [chQuote :: x, [chColon], v] s ∧
      ∀ z t, Laid z [chQuote :: x, [chColon], v] t → (∀ c ∈ z.head?, isScalarEnd c = true) →
        vmessMember link seen (skipJsonSpace t) = .ok (l, sn, z) := by
  unfold vmessMember at h
  split at h
  next => cases h
  next key s₁ hkey =>
    split at h
    next => cases h
    next s₂ hcolon =>
      split at h
      next => cases h
      next kind value s₃ hscalar =>
        split at h
        next => cases h
        next htype =>
          obtain ⟨⟨l', sn'⟩, hfield, heq⟩ := Outcome.map_ok h
          cases heq
          obtain ⟨x, hx, rfl, hkeyall⟩ := jsonString_reads hkey
          obtain ⟨v, hv, hsv, hends, hvall⟩ := jsonScalar_reads hscalar
          have hcolon' := takeByte_ok hcolon
          have hlaid₂ : Laid r [v] s₂ := by
            refine laid_skip ?_ (List.cons_ne_nil _ _)
            rw [hsv]
            exact Laid.first hv hends .nil
          have hlaid₁ : Laid r [[chColon], v] s₁ := by
            refine laid_skip ?_ (List.cons_ne_nil _ _)
            rw [hcolon']
            exact Laid.first (.mark (by decide)) (ends_mark (by decide) _) hlaid₂
          refine ⟨x, v, rfl, Laid.first hx (ends_string x _) hlaid₁, fun z t ht hz => ?_⟩
          obtain ⟨t₁, ht₁, -, -, hl₁⟩ := ht.skip
          obtain ⟨t₂, ht₂, -, -, hl₂⟩ := hl₁.skip
          obtain ⟨t₃, ht₃, -, -, hl₃⟩ := hl₂.skip
          cases hl₃ with
          | nil =>
            unfold vmessMember
            rw [show skipJsonSpace t = chQuote :: x ++ t₁ from ht₁, hkeyall]
            dsimp only
            rw [show skipJsonSpace t₁ = chColon :: t₂ from ht₂, takeByte_cons]
            dsimp only
            rw [show skipJsonSpace t₂ = v ++ z from ht₃, hvall z hz]
            dsimp only
            rw [if_neg htype, hfield]
            rfl

/-- What stands ahead of a comma or a closing brace ends a scalar. -/
theorem laid_head {rest s : Bytes} {c : UInt8} {ts : List Bytes} (h : Laid rest ([c] :: ts) s)
    (hc : isScalarEnd c = true) : ∀ d ∈ s.head?, isScalarEnd d = true := by
  cases h with
  | @cons w _ s' _ hw _ _ _ =>
    intro d hd
    cases w with
    | nil =>
      obtain rfl := Option.some.inj hd
      exact hc
    | cons b w =>
      obtain rfl := Option.some.inj hd
      have hb : isJsonSpace b = true := hw b List.mem_cons_self
      unfold isScalarEnd
      rw [hb, Bool.or_true]

/-- The rest of an object, and is read the same however it is laid out. -/
theorem vmessLoop_reads {n : Nat} {haveField : Bool} {link l : TunnelLink} {seen sn : List LinkField} {s r : Bytes}
    (h : vmessLoop n haveField link seen s = .ok (l, sn, r)) :
    ∃ ts, ts ≠ [] ∧ (haveField = true → ∃ c us, ts = [c] :: us ∧ isScalarEnd c = true) ∧ Laid r ts s ∧
      ∀ z t m, Laid z ts t → t.length < m → vmessLoop m haveField link seen t = .ok (l, sn, z) := by
  induction n generalizing haveField link seen s with
  | zero => cases h
  | succ n ih =>
    rw [vmessLoop] at h
    split at h
    next hclose =>
      cases h
      have hskip : skipJsonSpace s = 0x7D :: (skipJsonSpace s).tail := (List.cons_head?_tail hclose).symm
      refine ⟨[[0x7D]], List.cons_ne_nil _ _, fun _ => ⟨0x7D, [], rfl, by decide⟩, ?_, fun z t m ht hm => ?_⟩
      · refine laid_skip ?_ (List.cons_ne_nil _ _)
        rw [hskip]
        exact Laid.first (.mark (by decide)) (ends_mark (by decide) _) .nil
      · obtain ⟨t₁, ht₁, -, -, hl₁⟩ := ht.skip
        cases hl₁ with
        | nil =>
          obtain ⟨m, rfl⟩ := Nat.exists_eq_add_of_lt (Nat.zero_lt_of_lt hm)
          rw [Nat.zero_add, vmessLoop]
          rw [show skipJsonSpace t = 0x7D :: z from ht₁]
          rfl
    next hopen =>
      have hround : ∀ {s' : Bytes} {a : TunnelLink} {b : List LinkField} {s₁ : Bytes},
          vmessMember link seen s' = .ok (a, b, s₁) → vmessLoop n true a b s₁ = .ok (l, sn, r) →
          ∃ x us, Laid r ((chQuote :: x) :: us) s' ∧ ∀ z t m, Laid z ((chQuote :: x) :: us) t → t.length < m →
            ∃ a b z₁, vmessMember link seen (skipJsonSpace t) = .ok (a, b, z₁) ∧
              ∀ m, t.length ≤ m → vmessLoop m true a b z₁ = .ok (l, sn, z) := by
        intro s' a b s₁ hmember hloop
        obtain ⟨x, v, -, hlaid, hread⟩ := vmessMember_reads hmember
        obtain ⟨us, -, hfirst, hrest, hreads⟩ := ih hloop
        refine ⟨x, [chColon] :: v :: us, hlaid.append hrest, fun z t m ht hm => ?_⟩
        obtain ⟨z₁, hz₁, hz⟩ := (show Laid z ([chQuote :: x, [chColon], v] ++ us) t from ht).split
        obtain ⟨c, us', rfl, hc⟩ := hfirst rfl
        have hm := hread z₁ t hz₁ (laid_head hz hc)
        refine ⟨a, b, z₁, hm, fun k hk => hreads z z₁ k hz ?_⟩
        have hlt := vmessMember_length hm
        have hle := skipJsonSpace_length t
        omega
      cases haveField with
      | false =>
        rw [if_neg Bool.false_ne_true] at h
        dsimp only at h
        split at h
        next => cases h
        next a b s₁ hmember =>
          obtain ⟨x, us, hlaid, hread⟩ := hround hmember h
          refine ⟨_, List.cons_ne_nil _ _, fun hf => Bool.noConfusion hf, laid_skip hlaid (List.cons_ne_nil _ _),
            fun z t m ht hm => ?_⟩
          obtain ⟨a, b, z₁, hmember', hloop⟩ := hread z t m ht hm
          obtain ⟨t₁, ht₁, -, -, -⟩ := ht.skip
          have hne : (skipJsonSpace t).head? ≠ some 0x7D := by
            rw [show skipJsonSpace t = chQuote :: x ++ t₁ from ht₁]
            exact fun hc => absurd (Option.some.inj hc) (by decide)
          obtain ⟨m, rfl⟩ := Nat.exists_eq_add_of_lt (Nat.zero_lt_of_lt hm)
          rw [Nat.zero_add, vmessLoop]
          rw [if_neg hne, if_neg Bool.false_ne_true]
          dsimp only
          rw [hmember']
          exact hloop m (by omega)
      | true =>
        rw [if_pos rfl] at h
        split at h
        next => cases h
        next s' hcomma =>
          obtain ⟨s₀, hs₀, rfl⟩ := Outcome.map_ok hcomma
          split at h
          next => cases h
          next a b s₁ hmember =>
            obtain ⟨x, us, hlaid, hread⟩ := hround hmember h
            have hlaid₀ : Laid r ([chComma] :: (chQuote :: x) :: us) s := by
              refine laid_skip ?_ (List.cons_ne_nil _ _)
              rw [takeByte_ok hs₀]
              exact Laid.first (.mark (by decide)) (ends_mark (by decide) _) (laid_skip hlaid (List.cons_ne_nil _ _))
            refine ⟨_, List.cons_ne_nil _ _, fun _ => ⟨chComma, _, rfl, by decide⟩, hlaid₀, fun z t m ht hm => ?_⟩
            obtain ⟨t₁, ht₁, -, -, hl₁⟩ := ht.skip
            have hskip : skipJsonSpace t = chComma :: t₁ := ht₁
            have hlen := skipJsonSpace_length t
            rw [hskip, List.length_cons] at hlen
            obtain ⟨m, rfl⟩ := Nat.exists_eq_add_of_lt (Nat.zero_lt_of_lt hm)
            obtain ⟨a, b, z₁, hmember', hloop⟩ := hread z t₁ m hl₁ (by omega)
            rw [Nat.zero_add, vmessLoop]
            have hne : (chComma :: t₁).head? ≠ some 0x7D := fun hc => absurd (Option.some.inj hc) (by decide)
            rw [hskip, if_neg hne, if_pos rfl, takeByte_cons]
            have hmap : (Except.ok t₁ : TunnelParse Bytes).map skipJsonSpace = .ok (skipJsonSpace t₁) := rfl
            rw [hmap]
            dsimp only
            rw [hmember']
            exact hloop m (by omega)

/-- A valid text may be cut ahead of a character of seven bits. -/
theorem utf8Valid_cut {a b : Bytes} {c : UInt8} (hc : c < 0x80) (h : utf8Valid (a ++ c :: b) = true) :
    utf8Valid a = true ∧ utf8Valid (c :: b) = true := by
  induction hn : a.length using Nat.strongRecOn generalizing a with
  | ind n ih =>
    by_cases hnil : a = []
    · subst hnil
      exact ⟨rfl, h⟩
    obtain heq | ⟨q, t, heq, hq, ht⟩ := utf8Valid_cases h
    · exact absurd (List.append_eq_nil_iff.mp heq).1 hnil
    have hpre : ∃ a', a = q ++ a' ∧ t = a' ++ c :: b := by
      obtain ⟨x, hqx, hx⟩ | ⟨x, hax, hx⟩ := List.append_eq_append_iff.mp heq
      · cases x with
        | nil => exact ⟨[], by rw [hqx, List.append_nil, List.append_nil], hx.symm⟩
        | cons d x =>
          obtain ⟨rfl, -⟩ := List.cons.inj hx
          obtain ⟨d, hqd, -⟩ | hhigh := hq.plain
          · obtain ⟨e, a', rfl⟩ := List.exists_cons_of_ne_nil hnil
            rw [hqd] at hqx
            exact absurd (List.cons.inj hqx).2.symm (by simp)
          · have hmem : c ∈ q := by
              rw [hqx]
              simp
            exact absurd (hhigh c hmem) (UInt8.not_le.mpr hc)
      · exact ⟨x, hax, hx⟩
    obtain ⟨a', rfl, rfl⟩ := hpre
    have hpos := List.length_pos_iff.mpr hq.ne_nil
    rw [List.length_append] at hn
    obtain ⟨hva, hvb⟩ := ih a'.length (by omega) ht rfl
    exact ⟨(hq.skip a').trans hva, hvb⟩

theorem utf8Valid_rest {b : Bytes} {c : UInt8} (hc : c < 0x80) (h : utf8Valid (c :: b) = true) :
    utf8Valid b = true := by
  rw [utf8Valid.eq_def] at h
  dsimp only at h
  by_cases hctl : c < 0x20 ∨ c = 0x7F
  · rw [if_pos hctl] at h
    cases h
  · rw [if_neg hctl, if_pos hc] at h
    exact h

theorem not_word_ascii {c : UInt8} (h : isWord c = false) : c < 0x80 := by
  unfold isWord isSpace isMark at h
  simp only [Bool.and_eq_false_iff, Bool.not_eq_false', Bool.or_eq_true, beq_iff_eq, bne_eq_false_iff_eq] at h
  obtain ((((rfl | rfl) | rfl) | rfl) | ((((rfl | rfl) | rfl) | rfl) | rfl) | rfl) | rfl := h <;> decide

theorem isMark_printable {c : UInt8} (h : isMark c = true) : 0x20 ≤ c ∧ c < 0x7F := by
  unfold isMark at h
  simp only [Bool.or_eq_true, beq_iff_eq] at h
  obtain ((((rfl | rfl) | rfl) | rfl) | rfl) | rfl := h <;> decide

theorem stringTail_last {x : Bytes} (h : StringTail x) : ∃ y, x = y ++ [chQuote] := by
  induction h with
  | close => exact ⟨[], rfl⟩
  | @plain c _ _ _ _ ih =>
    obtain ⟨y, rfl⟩ := ih
    exact ⟨c :: y, rfl⟩
  | escape c _ ih =>
    obtain ⟨y, rfl⟩ := ih
    exact ⟨chBackslash :: c :: y, rfl⟩

/-- A valid text may be cut behind its first token. -/
theorem token_valid {t s : Bytes} (ht : Token t) (he : Ends t s) (h : utf8Valid (t ++ s) = true) :
    utf8Valid t = true ∧ utf8Valid s = true := by
  cases ht with
  | @mark c hc =>
    have hp := isMark_printable hc
    refine ⟨utf8Valid_of_printable (by simpa using hp), utf8Valid_rest ?_ h⟩
    exact UInt8.lt_trans hp.2 (by decide)
  | string hx =>
    obtain ⟨y, rfl⟩ := stringTail_last hx
    have hsplit : 0x22 :: (y ++ [chQuote]) ++ s = (0x22 :: y) ++ chQuote :: s := by simp
    rw [hsplit] at h
    obtain ⟨hy, hs⟩ := utf8Valid_cut (by decide) h
    exact ⟨utf8Valid_append hy (by decide), utf8Valid_rest (by decide) hs⟩
  | word hne hall =>
    cases s with
    | nil =>
      rw [List.append_nil] at h
      exact ⟨h, rfl⟩
    | cons d s => exact utf8Valid_cut (not_word_ascii (he hall d rfl)) h

theorem isSpace_ascii {c : UInt8} (h : isSpace c = true) : c < 0x80 := by
  unfold isSpace at h
  simp only [Bool.or_eq_true, beq_iff_eq] at h
  obtain ((rfl | rfl) | rfl) | rfl := h <;> decide

theorem laid_valid {rest s : Bytes} {ts : List Bytes} (hl : Laid rest ts s) (h : utf8Valid s = true) :
    (∀ t ∈ ts, utf8Valid t = true) ∧ utf8Valid rest = true := by
  induction hl with
  | nil => exact ⟨fun t ht => absurd ht List.not_mem_nil, h⟩
  | @cons w t s ts hw ht he _ ih =>
    have hts : utf8Valid (t ++ s) = true := by
      clear ih
      induction w with
      | nil => exact h
      | cons c w ihw =>
        exact ihw (fun d hd => hw d (List.mem_cons_of_mem _ hd))
          (utf8Valid_rest (isSpace_ascii (hw c List.mem_cons_self)) h)
    obtain ⟨htv, hsv⟩ := token_valid ht he hts
    obtain ⟨hall, hrest⟩ := ih hsv
    exact ⟨List.forall_mem_cons.mpr ⟨htv, hall⟩, hrest⟩

/-- Valid tokens make a valid text where no space between them is a control character. -/
theorem laid_spaced {rest s : Bytes} {ts : List Bytes} (hl : Laid rest ts s) (hts : ∀ t ∈ ts, utf8Valid t = true)
    (hrest : utf8Valid rest = true) (hs : ∀ c ∈ s, isSpace c = true → c = chSp) : utf8Valid s = true := by
  induction hl with
  | nil => exact hrest
  | @cons w t s ts hw ht he _ ih =>
    have hwv : utf8Valid w = true := by
      refine utf8Valid_of_printable fun c hc => ?_
      rw [hs c (by simp [hc]) (hw c hc)]
      decide
    refine utf8Valid_append (utf8Valid_append hwv (hts t List.mem_cons_self)) ?_
    exact ih (fun u hu => hts u (List.mem_cons_of_mem _ hu)) fun c hc => hs c (by simp [hc])

/-- Two texts of the same tokens: space is put in or taken out between them, ahead of them or behind them. -/
def SameTokens (s t : Bytes) : Prop :=
  ∃ ts w w', Laid w ts s ∧ Laid w' ts t ∧ (∀ c ∈ w, isSpace c = true) ∧ ∀ c ∈ w', isSpace c = true

/-- An accepted text is a row of tokens, and only the bytes of its space matter. -/
theorem parseVmessJson_reads {inet : InetText} {link l : TunnelLink} {s : Bytes}
    (h : parseVmessJson inet link s = .ok l) :
    utf8Valid s = true ∧ ∃ ts w, Laid w ts s ∧ (∀ c ∈ w, isSpace c = true) ∧
      ∀ t w', Laid w' ts t → (∀ c ∈ w', isSpace c = true) → utf8Valid t = true →
        parseVmessJson inet link t = .ok l := by
  unfold parseVmessJson at h
  split at h
  next => cases h
  next hvalid =>
    refine ⟨by simpa using hvalid, ?_⟩
    split at h
    next => cases h
    next s₁ hopen =>
      split at h
      next => cases h
      next l' sn r hloop =>
        split at h
        next => cases h
        next hend =>
          obtain ⟨hspace, hseen⟩ := not_or.mp hend
          have hr : ∀ c ∈ r, isSpace c = true := List.dropWhile_eq_nil_iff.mp (not_not.mp hspace)
          obtain ⟨ts, -, -, hlaid, hread⟩ := vmessLoop_reads hloop
          have hlaid₀ : Laid r ([0x7B] :: ts) s := by
            refine laid_skip ?_ (List.cons_ne_nil _ _)
            rw [takeByte_ok hopen]
            exact Laid.first (.mark (by decide)) (ends_mark (by decide) _) hlaid
          refine ⟨_, r, hlaid₀, hr, fun t w' ht hw' hv => ?_⟩
          obtain ⟨t₁, ht₁, -, -, hl₁⟩ := ht.skip
          unfold parseVmessJson
          rw [if_neg (by simp [hv]), show skipJsonSpace t = 0x7B :: t₁ from ht₁, takeByte_cons]
          dsimp only
          rw [hread w' t₁ _ hl₁ (Nat.lt_succ_self _)]
          dsimp only
          have hskip : skipJsonSpace w' = [] := List.dropWhile_eq_nil_iff.mpr hw'
          rw [if_neg (not_or.mpr ⟨not_not.mpr hskip, hseen⟩)]
          exact h

/-- A text of the same tokens as an accepted one is accepted, for the same link, exactly where it has no tabs and line
ends. -/
theorem vmess_respaced_iff {inet : InetText} {link l : TunnelLink} {s t : Bytes}
    (h : parseVmessJson inet link s = .ok l) (hst : SameTokens s t) :
    parseVmessJson inet link t = .ok l ↔ ∀ c ∈ t, c ≠ chTab ∧ c ≠ chLf ∧ c ≠ chCr := by
  obtain ⟨hvalid, ts, w, hlaid, hw, hread⟩ := parseVmessJson_reads h
  obtain ⟨us, x, y, hs, ht, hx, hy⟩ := hst
  obtain rfl := hlaid.unique hw hx hs
  constructor
  · intro hok c hc
    have hp := utf8Valid_printable (parseVmessJson_reads hok).1 c hc
    refine ⟨?_, ?_, ?_⟩
    · rintro rfl
      exact absurd hp (by decide)
    · rintro rfl
      exact absurd hp (by decide)
    · rintro rfl
      exact absurd hp (by decide)
  · intro hplain
    have hsp : ∀ c ∈ t, isSpace c = true → c = chSp := by
      intro c hc hcs
      obtain ⟨htab, hlf, hcr⟩ := hplain c hc
      unfold isSpace at hcs
      simp only [Bool.or_eq_true, beq_iff_eq] at hcs
      obtain ((hcs | hcs) | hcs) | hcs := hcs
      · exact hcs
      · exact absurd hcs htab
      · exact absurd hcs hlf
      · exact absurd hcs hcr
    have hyv : utf8Valid y = true := by
      refine utf8Valid_of_printable fun c hc => ?_
      rw [hsp c (ht.rest_mem hc) (hy c hc)]
      decide
    exact hread t y ht hy (laid_spaced ht (laid_valid hs hvalid).1 hyv hsp)

section Sample

/-- A mark, or a string without escapes. -/
def isPlainToken : Bytes → Bool
  | [] => false
  | c :: t => t == [] && isMark c ||
    c == chQuote && t == t.dropLast ++ [chQuote] && t.dropLast.all fun d => d != chQuote && d != chBackslash

theorem isPlainToken_token {t : Bytes} (h : isPlainToken t = true) : Token t ∧ ∀ s, Ends t s := by
  cases t with
  | nil => cases h
  | cons c t =>
    unfold isPlainToken at h
    rw [Bool.or_eq_true, Bool.and_eq_true, Bool.and_eq_true, Bool.and_eq_true, beq_iff_eq, beq_iff_eq, beq_iff_eq] at h
    obtain ⟨rfl, hc⟩ | ⟨⟨rfl, hlast⟩, hall⟩ := h
    · exact ⟨.mark hc, ends_mark hc⟩
    · refine ⟨.string ?_, ends_string t⟩
      rw [hlast]
      have htail : ∀ u : Bytes, (∀ d ∈ u, (d != chQuote && d != chBackslash) = true) → StringTail (u ++ [chQuote]) := by
        intro u hu
        induction u with
        | nil => exact .close
        | cons d u ih =>
          obtain ⟨hd, hu⟩ := List.forall_mem_cons.mp hu
          rw [Bool.and_eq_true, bne_iff_ne, bne_iff_ne] at hd
          exact .plain hd.1 hd.2 (ih hu)
      exact htail _ (List.all_eq_true.mp hall)

/-- Plain tokens with the same space ahead of each. -/
theorem laid_plain {space : Bytes} (hspace : ∀ c ∈ space, isSpace c = true) {ts : List Bytes}
    (hts : ∀ t ∈ ts, isPlainToken t = true) : Laid [] ts (ts.flatMap (space ++ ·)) := by
  induction ts with
  | nil => exact .nil
  | cons t ts ih =>
    obtain ⟨ht, hts⟩ := List.forall_mem_cons.mp hts
    obtain ⟨htoken, hends⟩ := isPlainToken_token ht
    rw [List.flatMap_cons]
    exact .cons hspace htoken (hends _) (ih hts)

/-- The tokens of a small VMess object. -/
def sampleTokens : List Bytes :=
  [[0x7B], word "\"v\"", [chColon], word "\"2\"", [chComma], word "\"add\"", [chColon], word "\"a.example\"", [chComma],
    word "\"port\"", [chColon], word "\"443\"", [chComma], word "\"id\"", [chColon],
    word "\"00000000-0000-4000-8000-000000000000\"", [0x7D]]

theorem sampleTokens_same {space : Bytes} (hspace : space.all isSpace = true) :
    SameTokens (sampleTokens.flatMap ([] ++ ·)) (sampleTokens.flatMap (space ++ ·)) := by
  have hplain : ∀ t ∈ sampleTokens, isPlainToken t = true := List.all_eq_true.mp rfl
  exact ⟨sampleTokens, [], [], laid_plain (fun c hc => absurd hc List.not_mem_nil) hplain,
    laid_plain (List.all_eq_true.mp hspace) hplain, fun c hc => absurd hc List.not_mem_nil,
    fun c hc => absurd hc List.not_mem_nil⟩

/-- Two spaces ahead of every token change nothing. -/
theorem vmess_respaced_spaces : ∃ l,
    parseVmessJson plainInet (blankLink .vmess .none) (sampleTokens.flatMap ([] ++ ·)) = .ok l ∧
    parseVmessJson plainInet (blankLink .vmess .none) (sampleTokens.flatMap ([chSp, chSp] ++ ·)) = .ok l := by
  obtain ⟨l, hl⟩ : ∃ l, parseVmessJson plainInet (blankLink .vmess .none) (sampleTokens.flatMap ([] ++ ·)) = .ok l := by
    cases h : parseVmessJson plainInet (blankLink .vmess .none) (sampleTokens.flatMap ([] ++ ·)) with
    | ok l => exact ⟨l, rfl⟩
    | error code =>
      have hok : (parseVmessJson plainInet (blankLink .vmess .none) (sampleTokens.flatMap ([] ++ ·))).isOk = true := by
        decide +kernel
      rw [h] at hok
      cases hok
  have hplain : (sampleTokens.flatMap ([chSp, chSp] ++ ·)).all
      (fun c => c != chTab && c != chLf && c != chCr) = true := by
    decide +kernel
  refine ⟨l, hl, (vmess_respaced_iff hl (sampleTokens_same (by decide))).mpr fun c hc => ?_⟩
  simpa [and_assoc] using List.all_eq_true.mp hplain c hc

/-- A line end ahead of every token has the object refused. -/
theorem vmess_lines_refused :
    (parseVmessJson plainInet (blankLink .vmess .none) (sampleTokens.flatMap ([] ++ ·))).isOk = true ∧
    SameTokens (sampleTokens.flatMap ([] ++ ·)) (sampleTokens.flatMap ([chLf] ++ ·)) ∧
    parseVmessJson plainInet (blankLink .vmess .none) (sampleTokens.flatMap ([chLf] ++ ·)) = .error .utf8 :=
  ⟨by decide +kernel, sampleTokens_same (by decide), rfl⟩

end Sample

end Qanat

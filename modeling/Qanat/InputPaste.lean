import Qanat.InputTurns

namespace Qanat

section Pasted

variable {nowMs : UInt64} {c : InputCore}

/-- A key that stands for pasted text. -/
structure Key.Pasted (k : Key) : Prop where
  paste : k.paste = true
  ctrl : k.ctrl = false
  kind : k.kind = .char ∨ k.kind = .enter ∨ k.kind = .tab ∨ k.kind = .backspace

/-- Between a paste-start and its end. -/
def Pasting (c : InputCore) : Prop :=
  c.state = .bracketedPaste ∨ (c.state = .utf8 ∧ c.utf8Paste = true)

theorem emitAscii_pasted (byte : UInt8) : (emitAscii byte true).Pasted := by
  unfold emitAscii
  simp only [if_true]
  split_ifs
  · exact ⟨rfl, rfl, .inr (.inl rfl)⟩
  · exact ⟨rfl, rfl, .inr (.inr (.inl rfl))⟩
  · exact ⟨rfl, rfl, .inr (.inr (.inr rfl))⟩
  · exact ⟨rfl, rfl, .inl rfl⟩
  · exact ⟨rfl, rfl, .inl rfl⟩

theorem char_pasted (ch : Nat) : (Key.char ch true).Pasted :=
  ⟨rfl, rfl, .inl rfl⟩

/-- At most one byte is taken, and not from an end sequence. -/
def TakesByte (q q' : List UInt8) : Prop :=
  q' = q ∨ ((∃ b, q = b :: q') ∧ ¬pasteEnd <+: q)

/-- A turn inside a paste: it waits for an end sequence, tells pasted text, or takes the end sequence. -/
def PasteTurn (q : List UInt8) : Decoding (List UInt8) → Prop
  | .wait => q.length < pasteEnd.length
  | .emit k p => k.Pasted ∧ Pasting p.1 ∧ TakesByte q p.2
  | .again p => (Pasting p.1 ∧ TakesByte q p.2) ∨ (p.1.state = .ground ∧ q = pasteEnd ++ p.2)

theorem pastedByte_turn (hs : c.state = .bracketedPaste) {b : UInt8} {t : List UInt8} (h : ¬pasteEnd <+: b :: t) :
    PasteTurn (b :: t) (pastedByte listFifo c (b :: t)) := by
  have htakes : TakesByte (b :: t) t := .inr ⟨⟨b, rfl⟩, h⟩
  unfold pastedByte
  simp only [show listFifo.pop (b :: t) = (b, t) from rfl]
  split
  next => exact ⟨emitAscii_pasted _, .inl hs, htakes⟩
  next =>
    unfold beginUtf8
    split_ifs
    · exact .inl ⟨.inr ⟨rfl, rfl⟩, htakes⟩
    · exact .inl ⟨.inr ⟨rfl, rfl⟩, htakes⟩
    · exact .inl ⟨.inr ⟨rfl, rfl⟩, htakes⟩
    · exact ⟨char_pasted _, .inl hs, htakes⟩

theorem finishUtf8_turn {q : List UInt8} (h : c.utf8Paste = true) : PasteTurn q (finishUtf8 c q) := by
  unfold finishUtf8
  rw [h]
  exact ⟨char_pasted _, .inl rfl, .inl rfl⟩

theorem not_pasteEnd {b : UInt8} {t : List UInt8} (h : b ≠ 0x1B) : ¬pasteEnd <+: b :: t :=
  fun hp => h (List.cons_prefix_cons.mp hp).1.symm

theorem listTurn_paste (nowMs : UInt64) (h : Pasting c) (q : List UInt8) : PasteTurn q (listTurn nowMs (c, q)) := by
  unfold listTurn inputTurn
  dsimp only
  obtain hs | ⟨hs, hpaste⟩ := h
  · rw [hs]
    dsimp only
    unfold pasteTurn
    cases q with
    | nil => exact Nat.succ_pos _
    | cons b t =>
      rw [if_neg (count_cons b t)]
      split
      next =>
        cases hp : pasteEndPrefix listFifo (b :: t) with
        | none => exact pastedByte_turn hs (pasteEndPrefix_none.mp hp).2
        | some full =>
          cases full with
          | false =>
            unfold pasteEndPrefix at hp
            split at hp
            next => exact Nat.lt_of_not_le (of_decide_eq_false (Option.some.inj hp))
            next => cases hp
          | true =>
            obtain ⟨u, hu⟩ := pasteEndPrefix_true.mp hp
            refine .inr ⟨rfl, ?_⟩
            rw [drop_listFifo, ← hu]
            rfl
      next hb => exact pastedByte_turn hs (not_pasteEnd hb)
  · rw [hs]
    dsimp only
    unfold utf8Turn
    split
    next => exact finishUtf8_turn hpaste
    next =>
      cases q with
      | nil => exact Nat.succ_pos _
      | cons b t =>
        rw [if_neg (count_cons b t)]
        simp only [show listFifo.peek (b :: t) 0 = b from rfl]
        split
        next => exact finishUtf8_turn hpaste
        next hcont =>
          refine .inl ⟨.inr ⟨hs, hpaste⟩, .inr ⟨⟨b, rfl⟩, not_pasteEnd ?_⟩⟩
          rintro rfl
          exact hcont (by decide)

/-- Without an end sequence all that is told is pasted text. -/
theorem paste_open {p p' : InputCore × List UInt8} {ks : List Key} (h : Pulse.Steps (listTurn nowMs) p ks p')
    (hp : Pasting p.1) (hopen : ¬pasteEnd <:+: p.2) : (∀ k ∈ ks, k.Pasted) ∧ Pasting p'.1 := by
  induction h with
  | refl => exact ⟨fun k hk => absurd hk List.not_mem_nil, hp⟩
  | @emit p k p₁ ks p' he _ ih =>
    have hturn := listTurn_paste nowMs hp p.2
    have hforward := listTurn_forward nowMs p.1 p.2
    rw [he] at hturn hforward
    obtain ⟨hks, hend⟩ := ih hturn.2.1 fun hi => hopen (hi.trans hforward.suffix.isInfix)
    exact ⟨List.forall_mem_cons.mpr ⟨hturn.1, hks⟩, hend⟩
  | @again p p₁ ks p' ha _ ih =>
    have hturn := listTurn_paste nowMs hp p.2
    have hforward := listTurn_forward nowMs p.1 p.2
    rw [ha] at hturn hforward
    obtain hturn | ⟨-, hq⟩ := hturn
    · exact ih hturn.1 fun hi => hopen (hi.trans hforward.suffix.isInfix)
    · exact absurd ⟨[], p₁.2, by rw [hq, List.nil_append]⟩ hopen

/-- The first end sequence of the text stands at its end. -/
def EndsFirst (body : List UInt8) : Prop :=
  ∀ x y, body ++ pasteEnd = x ++ pasteEnd ++ y → y = []

theorem EndsFirst.tail {b : UInt8} {t : List UInt8} (h : EndsFirst (b :: t)) : EndsFirst t :=
  fun x y he => h (b :: x) y (by rw [List.cons_append, he]; rfl)

/-- What a turn leaves of a text and its end sequence. -/
theorem TakesByte.body {body post q' : List UInt8} (h : TakesByte (body ++ pasteEnd ++ post) q') :
    q' = body ++ pasteEnd ++ post ∨ ∃ b t, body = b :: t ∧ q' = t ++ pasteEnd ++ post := by
  obtain h | ⟨⟨b, hb⟩, hno⟩ := h
  · exact .inl h
  · cases body with
    | nil => exact absurd (List.prefix_append _ _) hno
    | cons b' t =>
      rw [List.cons_append, List.cons_append] at hb
      exact .inr ⟨b', t, rfl, (List.cons.inj hb).2.symm⟩

theorem EndsFirst.only {body post u : List UInt8} (h : EndsFirst body) (hq : body ++ pasteEnd ++ post = pasteEnd ++ u) :
    body = [] ∧ u = post := by
  have hprefix : pasteEnd <+: body ++ pasteEnd :=
    List.prefix_of_prefix_length_le ⟨u, hq.symm⟩ (List.prefix_append _ _) (by rw [List.length_append]; omega)
  obtain ⟨y, hy⟩ := hprefix
  have hnil : y = [] := h [] y (by rw [List.nil_append, hy])
  rw [hnil, List.append_nil] at hy
  have hbody : body = [] := List.self_eq_append_left.mp hy
  refine ⟨hbody, ?_⟩
  rw [hbody, List.nil_append] at hq
  exact (List.append_cancel_left hq).symm

/-- A paste up to its end sequence tells pasted text only, and leaves what follows the sequence. -/
theorem paste_closed (nowMs : UInt64) (post : List UInt8) {body : List UInt8} (hp : Pasting c) (hb : EndsFirst body) :
    ∃ ks c', Pulse.Steps (listTurn nowMs) (c, body ++ pasteEnd ++ post) ks (c', post) ∧ (∀ k ∈ ks, k.Pasted) ∧
      c'.state = .ground := by
  induction hn : turnsLeft (c, body ++ pasteEnd ++ post) using Nat.strongRecOn generalizing c body with
  | ind n ih =>
    have hturn := listTurn_paste nowMs hp (body ++ pasteEnd ++ post)
    have hforward := listTurn_forward nowMs c (body ++ pasteEnd ++ post)
    have hrest : ∀ p : InputCore × List UInt8, Pasting p.1 → TakesByte (body ++ pasteEnd ++ post) p.2 →
        turnsLeft p < turnsLeft (c, body ++ pasteEnd ++ post) →
        ∃ ks c', Pulse.Steps (listTurn nowMs) p ks (c', post) ∧ (∀ k ∈ ks, k.Pasted) ∧ c'.state = .ground := by
      rintro ⟨c₁, q₁⟩ hp₁ htakes hlt
      obtain rfl | ⟨b, t, rfl, rfl⟩ := htakes.body
      · exact ih _ (hn ▸ hlt) hp₁ hb rfl
      · exact ih _ (hn ▸ hlt) hp₁ hb.tail rfl
    cases ht : listTurn nowMs (c, body ++ pasteEnd ++ post) with
    | wait =>
      rw [ht] at hturn
      have : (body ++ pasteEnd ++ post).length < pasteEnd.length := hturn
      rw [List.length_append, List.length_append] at this
      omega
    | emit k p =>
      rw [ht] at hturn hforward
      obtain ⟨ks, c', hsteps, hks, hc'⟩ := hrest p hturn.2.1 hturn.2.2 hforward.fewer
      exact ⟨k :: ks, c', .emit ht hsteps, List.forall_mem_cons.mpr ⟨hturn.1, hks⟩, hc'⟩
    | again p =>
      rw [ht] at hturn hforward
      obtain hturn | ⟨hground, hq⟩ := hturn
      · obtain ⟨ks, c', hsteps, hks, hc'⟩ := hrest p hturn.1 hturn.2 hforward.fewer
        exact ⟨ks, c', .again ht hsteps, hks, hc'⟩
      · obtain ⟨-, hpost⟩ := hb.only hq
        exact ⟨[], p.1, .again ht (by rw [← hpost]; exact .refl _), fun k hk => absurd hk List.not_mem_nil, hground⟩

end Pasted

end Qanat

import Qanat.InputSound
import Mathlib.Data.List.GetD

namespace Qanat

section Turns

variable {nowMs : UInt64} {c : InputCore} {q : List UInt8}

/-- The decoding of a list of bytes. -/
abbrev listTurn (nowMs : UInt64) : InputCore × List UInt8 → Decoding (List UInt8) :=
  inputTurn listFifo nowMs

/-- An escape that has just come waits for what follows it. -/
def EscFresh (nowMs : UInt64) (c : InputCore) : Prop :=
  c.state = .esc → nowMs - c.escSinceMs < escDelayMs

/-- How many turns are left at most. -/
def turnsLeft (p : InputCore × List UInt8) : Nat :=
  2 * p.2.length + if p.1.state = .utf8 ∨ p.1.state = .esc then 1 else 0

/-- What every turn keeps: bytes are taken from the front, and there is an end. -/
structure Forward (nowMs : UInt64) (c : InputCore) (q : List UInt8) (p : InputCore × List UInt8) : Prop where
  fresh : EscFresh nowMs c → EscFresh nowMs p.1
  suffix : p.2 <:+ q
  fewer : turnsLeft p < turnsLeft (c, q)

theorem escFresh_now : nowMs - nowMs < escDelayMs := by
  rw [UInt64.sub_self]
  decide

theorem escFresh_of_ne {c : InputCore} (h : c.state ≠ .esc) : EscFresh nowMs c :=
  fun he => absurd he h

theorem turn_fewer (c' : InputCore) (b : UInt8) (t : List UInt8) : turnsLeft (c', t) < turnsLeft (c, b :: t) := by
  simp only [turnsLeft, List.length_cons]
  split <;> omega

theorem beginUtf8_forward (byte b : UInt8) (paste : Bool) (t : List UInt8) :
    (beginUtf8 c t byte paste).Leads (Forward nowMs c (b :: t)) := by
  unfold beginUtf8
  split_ifs
  · exact ⟨fun _ => escFresh_of_ne nofun, List.suffix_cons _ _, turn_fewer _ _ _⟩
  · exact ⟨fun _ => escFresh_of_ne nofun, List.suffix_cons _ _, turn_fewer _ _ _⟩
  · exact ⟨fun _ => escFresh_of_ne nofun, List.suffix_cons _ _, turn_fewer _ _ _⟩
  · exact ⟨id, List.suffix_cons _ _, turn_fewer _ _ _⟩

theorem turn_ends {c' : InputCore} (h : c.state = .utf8 ∨ c.state = .esc) (h' : ¬(c'.state = .utf8 ∨ c'.state = .esc)) :
    turnsLeft (c', q) < turnsLeft (c, q) := by
  unfold turnsLeft
  rw [if_pos h, if_neg h']
  exact Nat.lt_succ_self _

theorem finishUtf8_forward {c' : InputCore} (hs : c.state = .utf8) (q : List UInt8) :
    (finishUtf8 c' q).Leads (Forward nowMs c q) := by
  refine ⟨fun _ => escFresh_of_ne ?_, List.suffix_rfl, turn_ends (.inl hs) ?_⟩ <;>
  · dsimp only
    split <;> simp

theorem pastedByte_forward (b : UInt8) (t : List UInt8) :
    (pastedByte listFifo c (b :: t)).Leads (Forward nowMs c (b :: t)) := by
  unfold pastedByte
  simp only [show listFifo.pop (b :: t) = (b, t) from rfl]
  split
  next => exact ⟨id, List.suffix_cons _ _, turn_fewer _ _ _⟩
  next => exact beginUtf8_forward b b true t

theorem csiTurn_forward (hs : c.state = .csi ∨ c.state = .ss3) : (csiTurn listFifo c q).Leads (Forward nowMs c q) := by
  have hesc : c.state ≠ .esc := by
    obtain h | h := hs <;> rw [h] <;> exact nofun
  cases q with
  | nil => trivial
  | cons b t =>
    unfold csiTurn
    rw [if_neg (count_cons b t)]
    simp only [show listFifo.pop (b :: t) = (b, t) from rfl]
    split_ifs
    · exact ⟨fun _ => escFresh_of_ne nofun, List.suffix_cons _ _, turn_fewer _ _ _⟩
    · exact ⟨fun _ => escFresh_of_ne nofun, List.suffix_cons _ _, turn_fewer _ _ _⟩
    · split <;> exact ⟨fun _ => escFresh_of_ne nofun, List.suffix_cons _ _, turn_fewer _ _ _⟩
    · exact ⟨fun _ => escFresh_of_ne nofun, List.suffix_cons _ _, turn_fewer _ _ _⟩
    · exact ⟨fun _ => escFresh_of_ne hesc, List.suffix_cons _ _, turn_fewer _ _ _⟩

theorem listTurn_forward (nowMs : UInt64) (c : InputCore) (q : List UInt8) :
    (listTurn nowMs (c, q)).Leads (Forward nowMs c q) := by
  unfold listTurn inputTurn
  dsimp only
  cases hs : c.state with
  | utf8 =>
    dsimp only
    unfold utf8Turn
    split
    next => exact finishUtf8_forward hs q
    next =>
      cases q with
      | nil => trivial
      | cons b t =>
        rw [if_neg (count_cons b t)]
        dsimp only
        split
        next => exact finishUtf8_forward hs _
        next =>
          refine ⟨fun _ => escFresh_of_ne ?_, List.suffix_cons _ _, turn_fewer _ _ _⟩
          rw [hs]
          exact nofun
  | esc =>
    dsimp only
    unfold escTurn
    have hground : ∀ c' : InputCore, c'.state = .ground → turnsLeft (c', q) < turnsLeft (c, q) := fun c' hc' =>
      turn_ends (.inr hs) (by rw [hc']; simp)
    cases q with
    | nil =>
      rw [if_pos (show listFifo.count [] = 0 from rfl)]
      split
      next => trivial
      next => exact ⟨fun _ => escFresh_of_ne nofun, List.suffix_rfl, hground _ rfl⟩
    | cons b t =>
      rw [if_neg (count_cons b t)]
      dsimp only
      split_ifs
      · exact ⟨fun _ => escFresh_of_ne nofun, List.suffix_cons _ _, turn_fewer _ _ _⟩
      · exact ⟨fun _ => escFresh_of_ne nofun, List.suffix_cons _ _, turn_fewer _ _ _⟩
      · exact ⟨fun _ => escFresh_of_ne nofun, List.suffix_rfl, hground _ rfl⟩
  | csi => exact csiTurn_forward (.inl hs)
  | ss3 => exact csiTurn_forward (.inr hs)
  | bracketedPaste =>
    dsimp only
    unfold pasteTurn
    cases q with
    | nil => trivial
    | cons b t =>
      rw [if_neg (count_cons b t)]
      split
      next =>
        cases hp : pasteEndPrefix listFifo (b :: t) with
        | none => exact pastedByte_forward b t
        | some full =>
          cases full with
          | false => trivial
          | true =>
            have hdrop : listFifo.drop 6 (b :: t) = t.drop 5 := drop_listFifo 6 (b :: t)
            have hsuffix : t.drop 5 <:+ b :: t := (List.drop_suffix 5 t).trans (List.suffix_cons b t)
            refine ⟨fun _ => escFresh_of_ne nofun, by rw [hdrop]; exact hsuffix, ?_⟩
            rw [hdrop, turnsLeft, turnsLeft, if_neg (by simp), List.length_drop, List.length_cons]
            omega
      next => exact pastedByte_forward b t
  | ground =>
    dsimp only
    unfold groundTurn
    cases q with
    | nil => trivial
    | cons b t =>
      rw [if_neg (count_cons b t)]
      simp only [show listFifo.pop (b :: t) = (b, t) from rfl]
      split_ifs
      · exact ⟨fun _ _ => escFresh_now, List.suffix_cons _ _, turn_fewer _ _ _⟩
      · exact ⟨id, List.suffix_cons _ _, turn_fewer _ _ _⟩
      · exact beginUtf8_forward b b false t

end Turns

section Stable

variable {nowMs : UInt64} {c : InputCore}

/-- The queue and the end sequence agree as far as both go. -/
theorem pasteEnd_agrees (q : List UInt8) :
    ((List.range (min (listFifo.count q) pasteEnd.length)).all fun i => listFifo.peek q i == pasteEnd.getD i 0) = true ↔
      q <+: pasteEnd ∨ pasteEnd <+: q := by
  have hall : ((List.range (min (listFifo.count q) pasteEnd.length)).all fun i =>
      listFifo.peek q i == pasteEnd.getD i 0) = true ↔
        ∀ i, i < q.length → i < pasteEnd.length → q.getD i 0 = pasteEnd.getD i 0 := by
    rw [List.all_eq_true]
    constructor
    · exact fun h i hq he => beq_iff_eq.mp (h i (List.mem_range.mpr (Nat.lt_min.mpr ⟨hq, he⟩)))
    · intro h i hi
      obtain ⟨hq, he⟩ := Nat.lt_min.mp (List.mem_range.mp hi)
      exact beq_iff_eq.mpr (h i hq he)
  rw [hall, List.prefix_iff_getElem, List.prefix_iff_getElem]
  constructor
  · intro h
    obtain hle | hle := Nat.le_total q.length pasteEnd.length
    · refine .inl ⟨hle, fun i hi => ?_⟩
      have := h i hi (hi.trans_le hle)
      rwa [List.getD_eq_getElem _ _ hi, List.getD_eq_getElem _ _ (hi.trans_le hle)] at this
    · refine .inr ⟨hle, fun i hi => ?_⟩
      have := h i (hi.trans_le hle) hi
      rw [List.getD_eq_getElem _ _ hi, List.getD_eq_getElem _ _ (hi.trans_le hle)] at this
      exact this.symm
  · rintro (⟨hle, h⟩ | ⟨hle, h⟩) i hq he
    · rw [List.getD_eq_getElem _ _ hq, List.getD_eq_getElem _ _ he, h i hq]
    · rw [List.getD_eq_getElem _ _ hq, List.getD_eq_getElem _ _ he, h i he]

theorem pasteEndPrefix_true {q : List UInt8} : pasteEndPrefix listFifo q = some true ↔ pasteEnd <+: q := by
  unfold pasteEndPrefix
  split
  next hall =>
    rw [Option.some_inj, decide_eq_true_eq]
    constructor
    · intro hlen
      obtain h | h := (pasteEnd_agrees q).mp hall
      · have he := h.eq_of_length (Nat.le_antisymm h.length_le hlen)
        exact he ▸ List.prefix_rfl
      · exact h
    · exact fun h => h.length_le
  next hall => exact ⟨nofun, fun h => absurd ((pasteEnd_agrees q).mpr (.inr h)) hall⟩

theorem pasteEndPrefix_none {q : List UInt8} :
    pasteEndPrefix listFifo q = none ↔ ¬q <+: pasteEnd ∧ ¬pasteEnd <+: q := by
  unfold pasteEndPrefix
  split
  next hall => exact ⟨nofun, fun h => absurd ((pasteEnd_agrees q).mp hall) (not_or.mpr h)⟩
  next hall => exact ⟨fun _ => not_or.mp fun h => hall ((pasteEnd_agrees q).mpr h), fun _ => rfl⟩

theorem pasteEndPrefix_stable {q : List UInt8} (r : List UInt8) (h : pasteEndPrefix listFifo q ≠ some false) :
    pasteEndPrefix listFifo (q ++ r) = pasteEndPrefix listFifo q := by
  cases hp : pasteEndPrefix listFifo q with
  | none =>
    obtain ⟨hq, he⟩ := pasteEndPrefix_none.mp hp
    refine pasteEndPrefix_none.mpr ⟨fun h' => hq ((List.prefix_append q r).trans h'), fun h' => ?_⟩
    obtain hle | hle := Nat.le_total pasteEnd.length q.length
    · exact he (List.prefix_of_prefix_length_le h' (List.prefix_append q r) hle)
    · exact hq (List.prefix_of_prefix_length_le (List.prefix_append q r) h' hle)
  | some full =>
    cases full with
    | false => exact absurd hp h
    | true => exact pasteEndPrefix_true.mpr ((pasteEndPrefix_true.mp hp).trans (List.prefix_append q r))

theorem beginUtf8_fed (byte : UInt8) (paste : Bool) (t r : List UInt8) :
    beginUtf8 c (t ++ r) byte paste = (beginUtf8 c t byte paste).map (Pulse.fed r) := by
  unfold beginUtf8
  split_ifs <;> rfl

theorem pastedByte_fed (b : UInt8) (t r : List UInt8) :
    pastedByte listFifo c (b :: t ++ r) = (pastedByte listFifo c (b :: t)).map (Pulse.fed r) := by
  unfold pastedByte
  rw [List.cons_append]
  simp only [show ∀ t, listFifo.pop (b :: t) = (b, t) from fun _ => rfl]
  split
  next => rfl
  next => exact beginUtf8_fed b true t r

theorem csiTurn_fed (b : UInt8) (t r : List UInt8) :
    csiTurn listFifo c (b :: t ++ r) = (csiTurn listFifo c (b :: t)).map (Pulse.fed r) := by
  unfold csiTurn
  rw [List.cons_append, if_neg (count_cons b _), if_neg (count_cons b t)]
  simp only [show ∀ t, listFifo.pop (b :: t) = (b, t) from fun _ => rfl]
  split_ifs
  · rfl
  · rfl
  · split <;> rfl
  · rfl
  · rfl

theorem listTurn_stable (q r : List UInt8) (hc : EscFresh nowMs c) (h : listTurn nowMs (c, q) ≠ .wait) :
    listTurn nowMs (c, q ++ r) = (listTurn nowMs (c, q)).map (Pulse.fed r) := by
  unfold listTurn inputTurn at h ⊢
  dsimp only at h ⊢
  cases hs : c.state with
  | utf8 =>
    rw [hs] at h
    dsimp only at h ⊢
    unfold utf8Turn at h ⊢
    split at h
    next hneed =>
      rw [if_pos hneed, if_pos hneed]
      rfl
    next hneed =>
      rw [if_neg hneed, if_neg hneed]
      cases q with
      | nil => exact absurd rfl h
      | cons b t =>
        rw [List.cons_append, if_neg (count_cons b _), if_neg (count_cons b t)]
        simp only [show ∀ t, listFifo.peek (b :: t) 0 = b from fun _ => rfl]
        split <;> rfl
  | esc =>
    rw [hs] at h
    dsimp only at h ⊢
    unfold escTurn at h ⊢
    cases q with
    | nil =>
      rw [if_pos (show listFifo.count [] = 0 from rfl), if_pos (hc hs)] at h
      exact absurd rfl h
    | cons b t =>
      rw [List.cons_append, if_neg (count_cons b _), if_neg (count_cons b t)]
      simp only [show ∀ t, listFifo.peek (b :: t) 0 = b from fun _ => rfl]
      split_ifs <;> rfl
  | csi =>
    rw [hs] at h
    cases q with
    | nil => exact absurd rfl h
    | cons b t => exact csiTurn_fed b t r
  | ss3 =>
    rw [hs] at h
    cases q with
    | nil => exact absurd rfl h
    | cons b t => exact csiTurn_fed b t r
  | bracketedPaste =>
    rw [hs] at h
    dsimp only at h ⊢
    unfold pasteTurn at h ⊢
    cases q with
    | nil => exact absurd rfl h
    | cons b t =>
      rw [if_neg (count_cons b t)] at h
      rw [List.cons_append, if_neg (count_cons b _), if_neg (count_cons b t), ← List.cons_append]
      simp only [show ∀ t, listFifo.peek (b :: t) 0 = b from fun _ => rfl, List.cons_append] at h ⊢
      by_cases hb : b = 0x1B
      · rw [if_pos hb] at h
        rw [if_pos hb, if_pos hb]
        have hstable : pasteEndPrefix listFifo (b :: (t ++ r)) = pasteEndPrefix listFifo (b :: t) :=
          @pasteEndPrefix_stable (b :: t) r fun hp => h (by rw [hp])
        rw [hstable]
        cases hp : pasteEndPrefix listFifo (b :: t) with
        | none => exact pastedByte_fed b t r
        | some full =>
          cases full with
          | false => exact absurd (by rw [hp]) h
          | true =>
            have hlen : 6 ≤ (b :: t).length := (pasteEndPrefix_true.mp hp).length_le
            have hdrop : listFifo.drop 6 (b :: t ++ r) = listFifo.drop 6 (b :: t) ++ r := by
              rw [drop_listFifo, drop_listFifo, List.drop_append_of_le_length hlen]
            exact congrArg (fun q => Pulse.again (_, q)) hdrop
      · rw [if_neg hb, if_neg hb]
        exact pastedByte_fed b t r
  | ground =>
    rw [hs] at h
    dsimp only at h ⊢
    unfold groundTurn at h ⊢
    cases q with
    | nil => exact absurd rfl h
    | cons b t =>
      rw [List.cons_append, if_neg (count_cons b _), if_neg (count_cons b t)]
      simp only [show ∀ t, listFifo.pop (b :: t) = (b, t) from fun _ => rfl]
      split_ifs
      · rfl
      · rfl
      · exact beginUtf8_fed b false t r

theorem listTurn_streams (nowMs : UInt64) : Pulse.Streams (listTurn nowMs) (EscFresh nowMs) where
  stable c q r hc h := listTurn_stable q r hc h
  keeps c q hc := by
    have h := listTurn_forward nowMs c q
    cases hturn : listTurn nowMs (c, q) with
    | wait => trivial
    | emit k p =>
      rw [hturn] at h
      exact ⟨h.fresh hc, h.suffix⟩
    | again p =>
      rw [hturn] at h
      exact ⟨h.fresh hc, h.suffix⟩

end Stable

end Qanat

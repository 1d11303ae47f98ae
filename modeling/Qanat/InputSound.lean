import Qanat.Input

namespace Qanat

section Ring

/-- The bytes in the ring, the oldest first. -/
def ringContents (r : InputRing) : List UInt8 :=
  Circular.contents r.bytes inputRingCap_pos r.head r.count

theorem length_ringContents (r : InputRing) : (ringContents r).length = r.count :=
  Circular.length_contents _ _ _ _

theorem inputFifo_reads : inputFifo.Reads ringContents where
  count r := (length_ringContents r).symm
  peek r i hi := by
    rw [length_ringContents] at hi
    exact Circular.contents_getElem? _ _ _ _ hi
  pop r a t h := by
    have hcount : r.count = t.length + 1 := by rw [← length_ringContents, h, List.length_cons]
    have hhead : r.head % inputRingCap = r.head := Nat.mod_eq_of_lt r.head_lt
    rw [ringContents, hcount, Circular.contents_succ, List.cons.injEq] at h
    refine ⟨?_, ?_⟩
    · rw [← h.1]
      exact congrArg r.bytes.get (Fin.ext hhead.symm)
    · rw [← h.2, ringContents]
      change Circular.contents r.bytes _ ((r.head + 1) % inputRingCap) (r.count - 1) = _
      rw [hcount, Nat.add_sub_cancel]

/-- A feed that has no room is refused and changes nothing; every other one appends. -/
theorem ringFeed_contents (r : InputRing) (bytes : List UInt8) :
    if (ringContents r).length + bytes.length ≤ inputRingCap then
      (ringFeed r bytes).1 = true ∧ ringContents (ringFeed r bytes).2 = ringContents r ++ bytes
    else ringFeed r bytes = (false, r) := by
  have hle := r.count_le
  rw [length_ringContents]
  unfold ringFeed
  split
  next hroom =>
    rw [dif_neg (by omega)]
    exact ⟨rfl, Circular.contents_write _ _ _ _ _ hroom⟩
  next hroom => rw [dif_pos (by omega)]

end Ring

section Refine

variable {ρ : Type} {Q : Fifo ρ UInt8} {contents : ρ → List UInt8} {nowMs : UInt64} {c : InputCore} {r : ρ}

/-- The queue behind a decoding is replaced by its contents. -/
def onContents (contents : ρ → List UInt8) (p : InputCore × ρ) : InputCore × List UInt8 :=
  (p.1, contents p.2)

abbrev listFifo : Fifo (List UInt8) UInt8 := Fifo.ofList

theorem count_cons (b : UInt8) (t : List UInt8) : ¬listFifo.count (b :: t) = 0 :=
  Nat.succ_ne_zero _

theorem beginUtf8_map (byte : UInt8) (paste : Bool) :
    (beginUtf8 c r byte paste).map (onContents contents) = beginUtf8 c (contents r) byte paste := by
  unfold beginUtf8
  split_ifs <;> rfl

theorem pasteEndPrefix_contents (h : Q.Reads contents) :
    pasteEndPrefix Q r = pasteEndPrefix listFifo (contents r) := by
  have hcount : Q.count r = listFifo.count (contents r) := h.count r
  unfold pasteEndPrefix
  rw [← hcount]
  have hall : ((List.range (min (Q.count r) pasteEnd.length)).all fun i => Q.peek r i == pasteEnd.getD i 0) =
      (List.range (min (Q.count r) pasteEnd.length)).all fun i =>
        listFifo.peek (contents r) i == pasteEnd.getD i 0 := by
    rw [Bool.eq_iff_iff, List.all_eq_true, List.all_eq_true]
    refine forall₂_congr fun i hi => ?_
    have hlt : i < Q.count r := (List.mem_range.mp hi).trans_le (Nat.min_le_left _ _)
    rw [h.peek_getD hlt]
    rfl
  rw [hall]

theorem pastedByte_map (h : Q.Reads contents) {b : UInt8} {t : List UInt8} (hc : contents r = b :: t) :
    (pastedByte Q c r).map (onContents contents) = pastedByte listFifo c (contents r) := by
  obtain ⟨hb, ht⟩ := h.pop r b t hc
  unfold pastedByte
  rw [hc]
  simp only [hb]
  by_cases hlow : b < 0x80
  · rw [if_pos hlow]
    exact (congrArg (fun q => Pulse.emit _ (c, q)) ht).trans (if_pos hlow).symm
  · rw [if_neg hlow, beginUtf8_map, ht]
    exact (if_neg hlow).symm

theorem count_nil (h : Q.Reads contents) (hc : contents r = []) : Q.count r = 0 :=
  h.count_eq_zero.mpr hc

theorem count_ne (h : Q.Reads contents) {b : UInt8} {t : List UInt8} (hc : contents r = b :: t) : ¬Q.count r = 0 :=
  fun h0 => List.cons_ne_nil b t (hc.symm.trans (h.count_eq_zero.mp h0))

theorem peek_cons (h : Q.Reads contents) {b : UInt8} {t : List UInt8} (hc : contents r = b :: t) : Q.peek r 0 = b := by
  have hpeek := h.peek r 0 (by rw [hc]; exact Nat.succ_pos _)
  rw [hc] at hpeek
  exact (Option.some.inj hpeek).symm

theorem drop_listFifo (n : Nat) (q : List UInt8) : listFifo.drop n q = q.drop n := by
  induction n generalizing q with
  | zero => rfl
  | succ n ih =>
    rw [Fifo.drop, ih]
    cases q <;> simp [Fifo.ofList]

theorem utf8Turn_map (h : Q.Reads contents) :
    (utf8Turn Q c r).map (onContents contents) = utf8Turn listFifo c (contents r) := by
  unfold utf8Turn
  by_cases hneed : c.utf8Need = 0
  · rw [if_pos hneed, if_pos hneed]
    rfl
  · rw [if_neg hneed, if_neg hneed]
    cases hc : contents r with
    | nil =>
      rw [if_pos (count_nil h hc), if_pos (show listFifo.count [] = 0 from rfl)]
      rfl
    | cons b t =>
      have ht := (h.pop r b t hc).2
      rw [if_neg (count_ne h hc), if_neg (count_cons b t), peek_cons h hc]
      simp only [show listFifo.peek (b :: t) 0 = b from rfl]
      split_ifs
      · exact congrArg (fun q => Pulse.emit _ (_, q)) hc
      · exact congrArg (fun q => Pulse.again (_, q)) ht

theorem escTurn_map (h : Q.Reads contents) :
    (escTurn Q nowMs c r).map (onContents contents) = escTurn listFifo nowMs c (contents r) := by
  unfold escTurn
  cases hc : contents r with
  | nil =>
    rw [if_pos (count_nil h hc), if_pos (show listFifo.count [] = 0 from rfl)]
    split_ifs
    · rfl
    · exact congrArg (fun q => Pulse.emit _ (_, q)) hc
  | cons b t =>
    have ht := (h.pop r b t hc).2
    rw [if_neg (count_ne h hc), if_neg (count_cons b t), peek_cons h hc]
    simp only [show listFifo.peek (b :: t) 0 = b from rfl]
    split_ifs
    · exact congrArg (fun q => Pulse.again (_, q)) ht
    · exact congrArg (fun q => Pulse.again (_, q)) ht
    · exact congrArg (fun q => Pulse.emit _ (_, q)) hc

theorem csiTurn_map (h : Q.Reads contents) :
    (csiTurn Q c r).map (onContents contents) = csiTurn listFifo c (contents r) := by
  unfold csiTurn
  cases hc : contents r with
  | nil =>
    rw [if_pos (count_nil h hc), if_pos (show listFifo.count [] = 0 from rfl)]
    rfl
  | cons b t =>
    obtain ⟨hb, ht⟩ := h.pop r b t hc
    rw [if_neg (count_ne h hc), if_neg (count_cons b t)]
    simp only [hb, show listFifo.pop (b :: t) = (b, t) from rfl]
    split_ifs
    · exact congrArg (fun q => Pulse.emit _ (_, q)) ht
    · exact congrArg (fun q => Pulse.emit _ (_, q)) ht
    · split
      · exact congrArg (fun q => Pulse.emit _ (_, q)) ht
      · exact congrArg (fun q => Pulse.again (_, q)) ht
      · exact congrArg (fun q => Pulse.again (_, q)) ht
    · exact congrArg (fun q => Pulse.emit _ (_, q)) ht
    · exact congrArg (fun q => Pulse.again (_, q)) ht

theorem pasteTurn_map (h : Q.Reads contents) :
    (pasteTurn Q c r).map (onContents contents) = pasteTurn listFifo c (contents r) := by
  unfold pasteTurn
  cases hc : contents r with
  | nil =>
    rw [if_pos (count_nil h hc), if_pos (show listFifo.count [] = 0 from rfl)]
    rfl
  | cons b t =>
    rw [if_neg (count_ne h hc), if_neg (count_cons b t), peek_cons h hc, pasteEndPrefix_contents h, hc]
    simp only [show listFifo.peek (b :: t) 0 = b from rfl]
    have hbyte : (pastedByte Q c r).map (onContents contents) = pastedByte listFifo c (b :: t) := by
      rw [← hc]
      exact pastedByte_map h hc
    by_cases hb : b = 0x1B
    · rw [if_pos hb, if_pos hb]
      cases hp : pasteEndPrefix listFifo (b :: t) with
      | none => exact hbyte
      | some full =>
        cases full with
        | false => rfl
        | true =>
          have hlen : 6 ≤ (contents r).length := by
            rw [hc]
            unfold pasteEndPrefix at hp
            split at hp
            next => exact of_decide_eq_true (Option.some.inj hp)
            next => cases hp
          have hdrop : contents (Q.drop 6 r) = listFifo.drop 6 (b :: t) := by
            rw [h.drop hlen, drop_listFifo, hc]
          exact congrArg (fun q => Pulse.again (_, q)) hdrop
    · rw [if_neg hb, if_neg hb]
      exact hbyte

theorem groundTurn_map (h : Q.Reads contents) :
    (groundTurn Q nowMs c r).map (onContents contents) = groundTurn listFifo nowMs c (contents r) := by
  unfold groundTurn
  cases hc : contents r with
  | nil =>
    rw [if_pos (count_nil h hc), if_pos (show listFifo.count [] = 0 from rfl)]
    rfl
  | cons b t =>
    obtain ⟨hb, ht⟩ := h.pop r b t hc
    rw [if_neg (count_ne h hc), if_neg (count_cons b t)]
    simp only [hb, show listFifo.pop (b :: t) = (b, t) from rfl]
    split_ifs
    · exact congrArg (fun q => Pulse.again (_, q)) ht
    · exact congrArg (fun q => Pulse.emit _ (_, q)) ht
    · rw [beginUtf8_map, ht]

/-- The turn depends on the contents of the queue only. -/
theorem inputTurn_map (h : Q.Reads contents) (p : InputCore × ρ) :
    (inputTurn Q nowMs p).map (onContents contents) = inputTurn listFifo nowMs (onContents contents p) := by
  have hstate : (onContents contents p).1.state = p.1.state := rfl
  rw [inputTurn, inputTurn, hstate]
  cases p.1.state with
  | utf8 => exact utf8Turn_map h
  | esc => exact escTurn_map h
  | csi => exact csiTurn_map h
  | ss3 => exact csiTurn_map h
  | bracketedPaste => exact pasteTurn_map h
  | ground => exact groundTurn_map h

end Refine

end Qanat

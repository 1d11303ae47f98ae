import Qanat.Http1

namespace Qanat

open Rounds

/-- A status has been read wherever a body may be. -/
def Http1.Live (h : Http1) : Prop :=
  h.state ≠ .head → h.status ≠ 0

/-- The work of a call whose event comes after another one. -/
def Http1Work.after (a : HttpEvent) (w : Http1Work) : Http1Work :=
  { w with ev := a.merge w.ev }

@[simp] theorem after_h (a : HttpEvent) (w : Http1Work) : (w.after a).h = w.h := rfl

@[simp] theorem after_ev (a : HttpEvent) (w : Http1Work) : (w.after a).ev = a.merge w.ev := rfl

section Scan

variable {pton : Bytes → Bool} {f : Http1Work → Http1Work}

/-- What commutes with the scan of a byte commutes with the scan of all. -/
theorem scanTrace_comm (hf : ∀ w c, scanByte pton (f w) c = f (scanByte pton w c)) (w : Http1Work) (p : Bytes) :
    scanTrace pton (f w) p = f (scanTrace pton w p) := by
  induction p generalizing w with
  | nil => rfl
  | cons c p ih =>
    have hstep : scanTrace pton (f w) (c :: p) = scanTrace pton (scanByte pton (f w) c) p := rfl
    rw [hstep, hf, ih]
    rfl

theorem eventTrace_count (ev : HttpEvent) (colo : Bytes) (i s n : Nat) :
    eventTrace (((ev.flag .body).stamp i s).count n) colo = (((eventTrace ev colo).flag .body).stamp i s).count n := by
  unfold eventTrace HttpEvent.flag HttpEvent.stamp HttpEvent.count HttpEvent.edge
  split
  all_goals
    dsimp only
    rw [Finset.insert_comm]

theorem eventTrace_merge (a ev : HttpEvent) (colo : Bytes) :
    eventTrace (a.merge ev) colo = a.merge (eventTrace ev colo) := by
  unfold eventTrace
  split
  next => rw [HttpEvent.merge_flag]
  next hc => rw [HttpEvent.merge_edge _ _ hc, HttpEvent.merge_flag]

theorem scanByte_count (w : Http1Work) (n : Nat) (c : UInt8) :
    scanByte pton (countBody w n) c = countBody (scanByte pton w c) n := by
  unfold scanByte countBody
  dsimp only
  split
  next =>
    unfold scanLine
    dsimp only
    split_ifs
    next => rfl
    next => rw [eventTrace_count]
    next => rfl
  next =>
    split_ifs
    all_goals rfl

theorem scanByte_left (w : Http1Work) (n : Nat) (c : UInt8) :
    scanByte pton (w.setLeft n) c = (scanByte pton w c).setLeft n := by
  unfold scanByte scanLine Http1Work.setLeft
  dsimp only
  split_ifs
  all_goals rfl

theorem scanByte_after (a : HttpEvent) (w : Http1Work) (c : UInt8) :
    scanByte pton (w.after a) c = (scanByte pton w c).after a := by
  unfold scanByte scanLine Http1Work.after
  dsimp only
  split_ifs
  all_goals first | rfl | rw [eventTrace_merge]

theorem countBody_add (w : Http1Work) (n m : Nat) : countBody (countBody w n) m = countBody w (n + m) := by
  simp [countBody, HttpEvent.flag, HttpEvent.stamp, HttpEvent.count, Nat.add_assoc]

theorem http1Body_append (w : Http1Work) (a b : Bytes) :
    http1Body pton w (a ++ b) = http1Body pton (http1Body pton w a) b := by
  have hsplit (v : Http1Work) : scanTrace pton v (a ++ b) = scanTrace pton (scanTrace pton v a) b :=
    List.foldl_append
  unfold http1Body
  rw [hsplit, List.length_append, ← countBody_add,
    scanTrace_comm (f := (countBody · b.length)) fun v c => scanByte_count v _ c]

theorem http1Body_left (w : Http1Work) (n : Nat) (p : Bytes) :
    http1Body pton (w.setLeft n) p = (http1Body pton w p).setLeft n := by
  unfold http1Body
  rw [← scanTrace_comm (f := (Http1Work.setLeft · n)) fun v c => scanByte_left v n c]
  rfl

theorem scanByte_h (w : Http1Work) (c : UInt8) :
    (scanByte pton w c).h = { w.h with line := (scanByte pton w c).h.line,
                                       lineOverflow := (scanByte pton w c).h.lineOverflow } := by
  unfold scanByte
  split_ifs
  all_goals rfl

/-- The scan of a body changes nothing of the parser but the line it keeps. -/
theorem scanTrace_h (w : Http1Work) (p : Bytes) :
    (scanTrace pton w p).h = { w.h with line := (scanTrace pton w p).h.line,
                                        lineOverflow := (scanTrace pton w p).h.lineOverflow } := by
  induction p generalizing w with
  | nil => rfl
  | cons c p ih =>
    have hstep : scanTrace pton w (c :: p) = scanTrace pton (scanByte pton w c) p := rfl
    rw [hstep, ih (scanByte pton w c), scanByte_h w c]

theorem http1Body_state (w : Http1Work) (p : Bytes) : (http1Body pton w p).h.state = w.h.state := by
  unfold http1Body
  rw [scanTrace_h]
  rfl

theorem http1Body_status (w : Http1Work) (p : Bytes) : (http1Body pton w p).h.status = w.h.status := by
  unfold http1Body
  rw [scanTrace_h]
  rfl

end Scan

section Merge

variable {pton : Bytes → Bool} {a : HttpEvent} {w : Http1Work}

theorem countBody_after (h : w.h.status ≠ 0) (n : Nat) : countBody (w.after a) n = (countBody w n).after a := by
  unfold countBody
  simp only [Http1Work.after, HttpEvent.merge_count, HttpEvent.merge_flag,
    HttpEvent.merge_stamp _ _ (Nat.succ_ne_zero w.h.responses) h]

theorem http1Body_after (h : w.h.status ≠ 0) (p : Bytes) :
    http1Body pton (w.after a) p = (http1Body pton w p).after a := by
  unfold http1Body
  rw [countBody_after h, scanTrace_comm (f := Http1Work.after a) fun v c => scanByte_after a v c]

theorem complete_after (h : w.h.status ≠ 0) : complete (w.after a) = (complete w).after a := by
  unfold complete
  simp only [Http1Work.after, HttpEvent.merge_flag,
    HttpEvent.merge_stamp _ _ (Nat.succ_ne_zero w.h.responses) h]

theorem takeBody_after (h : w.h.status ≠ 0) (p : Bytes) :
    takeBody pton (w.after a) p = (takeBody pton w p).after a := by
  unfold takeBody
  rw [after_h, http1Body_after h]
  rfl

theorem takeBody_status (p : Bytes) : (takeBody pton w p).h.status = w.h.status :=
  http1Body_status w _

theorem takeFixed_after (h : w.h.status ≠ 0) (p : Bytes) :
    takeFixed pton (w.after a) p = (takeFixed pton w p).after a := by
  have hbody : (takeBody pton w p).h.status ≠ 0 := by rwa [takeBody_status]
  unfold takeFixed
  rw [takeBody_after h]
  by_cases hz : (takeBody pton w p).h.left = 0
  · simp only [after_h, hz, ↓reduceIte]
    exact complete_after hbody
  · simp only [after_h, hz, ↓reduceIte]

theorem takeChunk_after (h : w.h.status ≠ 0) (p : Bytes) :
    takeChunk pton (w.after a) p = (takeChunk pton w p).after a := by
  unfold takeChunk
  rw [takeBody_after h]
  by_cases hz : (takeBody pton w p).h.left = 0
  · simp only [after_h, hz, ↓reduceIte]
    rfl
  · simp only [after_h, hz, ↓reduceIte]

/-- The result of a step whose event comes after another one. -/
def resultAfter (a : HttpEvent) (r : Http1Work × Http1Rc) : Http1Work × Http1Rc :=
  (r.1.after a, r.2)

theorem noteReply_after {rep : HttpReply} (h : rep.status ≠ 0) :
    noteReply (w.after a) rep = (noteReply w rep).after a := by
  unfold noteReply Http1Work.after
  dsimp only
  rw [← HttpEvent.merge_stamp _ _ (Nat.succ_ne_zero w.h.responses) h]
  split_ifs
  all_goals simp only [HttpEvent.merge_flag]

theorem resultAfter_ite {c : Prop} [Decidable c] {x y x' y' : Http1Work × Http1Rc} (hx : c → x' = resultAfter a x)
    (hy : ¬ c → y' = resultAfter a y) : (if c then x' else y') = resultAfter a (if c then x else y) := by
  split
  next hc => exact hx hc
  next hc => exact hy hc

theorem frameBody_after (hs : w.h.status ≠ 0) (s : HeadScan) :
    frameBody (w.after a) s = resultAfter a (frameBody w s) := by
  obtain ⟨h, ev⟩ := w
  have hdone (k : Http1) (hk : k.status ≠ 0) : complete ⟨k, (a.merge ev).flag .headers⟩ =
      (complete ⟨k, ev.flag .headers⟩).after a := by
    rw [← complete_after hk, Http1Work.after, HttpEvent.merge_flag]
  have hkept (k : Http1) (rc : Http1Rc) : ((⟨k, (a.merge ev).flag .headers⟩ : Http1Work), rc) =
      resultAfter a (⟨k, ev.flag .headers⟩, rc) := by
    rw [resultAfter, Http1Work.after, HttpEvent.merge_flag]
  unfold frameBody Http1Work.after
  dsimp only
  refine resultAfter_ite (fun _ => rfl) fun _ => ?_
  refine resultAfter_ite (fun _ => ?_) fun _ => ?_
  · rw [resultAfter, Http1Work.after, HttpEvent.merge_flag]
  refine resultAfter_ite (fun _ => hkept h _) fun _ => ?_
  refine resultAfter_ite (fun _ => hkept h _) fun _ => ?_
  refine resultAfter_ite (fun _ => hkept h _) fun _ => ?_
  refine resultAfter_ite (fun _ => ?_) fun _ => ?_
  · rw [hdone h hs, resultAfter]
  refine resultAfter_ite (fun _ => hkept _ _) fun _ => ?_
  refine resultAfter_ite (fun _ => ?_) fun _ => hkept _ _
  split
  next => rw [hdone { h with left := s.contentLen, state := .fixed } hs, resultAfter]
  next => exact hkept _ _

theorem parseHead_after : parseHead pton (w.after a) = resultAfter a (parseHead pton w) := by
  unfold parseHead
  rw [after_h]
  cases hrep : httpParse pton w.h.head with
  | none => rfl
  | some rep =>
    have hstatus := (httpParse_status hrep).2
    dsimp only
    rw [noteReply_after hstatus]
    split
    next => rfl
    next =>
      cases hscan : scanHead w.h.head with
      | none => rfl
      | some s => exact frameBody_after (w := { noteReply w rep with h := { (noteReply w rep).h with head := [] } }) hstatus s

theorem headByte_after (c : UInt8) : headByte pton (w.after a) c = resultAfter a (headByte pton w c) := by
  obtain ⟨h, ev⟩ := w
  unfold headByte resultAfter Http1Work.after pushHead
  dsimp only
  split_ifs
  next => rfl
  next => exact parseHead_after (w := ⟨{ h with head := h.head ++ [c] }, ev⟩)
  next => rfl

theorem chunkSizeByte_after (c : UInt8) : chunkSizeByte (w.after a) c = resultAfter a (chunkSizeByte w c) := by
  obtain ⟨h, ev⟩ := w
  unfold chunkSizeByte resultAfter Http1Work.after pushHead
  dsimp only
  split_ifs
  next => rfl
  next =>
    split
    all_goals rfl
  next => rfl

theorem chunkCrlfByte_after (c : UInt8) : chunkCrlfByte (w.after a) c = resultAfter a (chunkCrlfByte w c) := by
  obtain ⟨h, ev⟩ := w
  unfold chunkCrlfByte resultAfter Http1Work.after
  dsimp only
  split_ifs
  all_goals rfl

theorem trailersByte_after (hs : w.h.status ≠ 0) (c : UInt8) :
    trailersByte (w.after a) c = resultAfter a (trailersByte w c) := by
  obtain ⟨h, ev⟩ := w
  unfold trailersByte resultAfter Http1Work.after pushHead
  dsimp only
  split_ifs
  next => rfl
  next =>
    apply Prod.ext
    · exact complete_after (w := ⟨{ h with head := h.head ++ [c] }, ev⟩) hs
    · rfl
  next =>
    apply Prod.ext
    · rw [← HttpEvent.merge_flag]
      exact complete_after (w := ⟨{ h with head := h.head ++ [c] }, ev.flag .trailers⟩) hs
    · rfl
  next => rfl

theorem byteTurn_after (r : Http1Work × Http1Rc) (rest : Bytes) :
    byteTurn (resultAfter a r) rest = (byteTurn r rest).map (Http1Work.after a) := by
  unfold byteTurn resultAfter
  dsimp only
  split_ifs
  all_goals rfl

/-- A round adds to the event it is given. -/
theorem http1Round_after (hw : w.h.Live) {p : Bytes} (hp : p ≠ []) :
    http1Round pton (w.after a) p = (http1Round pton w p).map (Http1Work.after a) := by
  cases p with
  | nil => exact absurd rfl hp
  | cons c t =>
    unfold http1Round
    rw [after_h]
    cases hst : w.h.state with
    | head =>
      dsimp only
      rw [headByte_after, byteTurn_after]
    | fixed =>
      dsimp only
      rw [takeFixed_after (hw (by simp [hst]))]
      rfl
    | chunkSize =>
      dsimp only
      rw [chunkSizeByte_after, byteTurn_after]
    | chunkData =>
      dsimp only
      rw [takeChunk_after (hw (by simp [hst]))]
      rfl
    | chunkCrlf =>
      dsimp only
      rw [chunkCrlfByte_after, byteTurn_after]
    | trailers =>
      dsimp only
      rw [trailersByte_after (hw (by simp [hst])), byteTurn_after]
    | eofBody =>
      dsimp only
      rw [http1Body_after (hw (by simp [hst]))]
      rfl

end Merge

section Live

variable {pton : Bytes → Bool} {w : Http1Work}

theorem live_of_status {h : Http1} (hs : h.status ≠ 0) : h.Live :=
  fun _ => hs

theorem complete_live : (complete w).h.Live :=
  fun h => absurd rfl h

theorem frameBody_live (hs : w.h.status ≠ 0) (s : HeadScan) : (frameBody w s).1.h.Live := by
  have hite {c : Prop} [Decidable c] {x y : Http1Work × Http1Rc} (hx : x.1.h.Live) (hy : y.1.h.Live) :
      (if c then x else y).1.h.Live := by
    split
    next => exact hx
    next => exact hy
  unfold frameBody
  refine hite (live_of_status hs) (hite (fun h => absurd rfl h) ?_)
  refine hite (live_of_status hs) (hite (live_of_status hs) (hite (live_of_status hs) (hite complete_live ?_)))
  refine hite (live_of_status hs) (hite ?_ (live_of_status hs))
  split
  next => exact complete_live
  next => exact live_of_status hs

theorem parseHead_live (hw : w.h.Live) : (parseHead pton w).1.h.Live := by
  unfold parseHead
  cases hrep : httpParse pton w.h.head with
  | none => exact hw
  | some rep =>
    have hstatus := (httpParse_status hrep).2
    dsimp only
    split
    next => exact hw
    next =>
      cases hscan : scanHead w.h.head with
      | none => exact live_of_status hstatus
      | some s =>
        apply frameBody_live
        exact hstatus

theorem byteTurn_live {r : Http1Work × Http1Rc} (h : r.1.h.Live) (rest : Bytes) : (byteTurn r rest).state.h.Live := by
  unfold byteTurn
  split
  all_goals exact h

theorem takeBody_h_status (p : Bytes) (hs : w.h.status ≠ 0) : (takeBody pton w p).h.status ≠ 0 := by
  rwa [takeBody_status]

theorem http1Round_live {p : Bytes} (hw : w.h.Live) : (http1Round pton w p).state.h.Live := by
  cases p with
  | nil => exact hw
  | cons c t =>
    unfold http1Round
    cases hst : w.h.state with
    | head =>
      apply byteTurn_live
      unfold headByte
      split_ifs
      next => exact hw
      next => exact parseHead_live (w := pushHead w c) hw
      next => exact hw
    | fixed =>
      have hs := hw (by simp [hst])
      dsimp only [Turn.state, takeFixed]
      split
      next => exact complete_live
      next => exact live_of_status (takeBody_h_status _ hs)
    | chunkSize =>
      have hs := hw (by simp [hst])
      apply byteTurn_live
      unfold chunkSizeByte
      dsimp only
      split_ifs
      next => exact hw
      next =>
        split
        all_goals exact live_of_status hs
      next => exact hw
    | chunkData =>
      have hs := hw (by simp [hst])
      dsimp only [Turn.state, takeChunk]
      split
      all_goals exact live_of_status (by rwa [takeBody_status])
    | chunkCrlf =>
      have hs := hw (by simp [hst])
      apply byteTurn_live
      unfold chunkCrlfByte
      split_ifs
      all_goals exact live_of_status hs
    | trailers =>
      have hs := hw (by simp [hst])
      apply byteTurn_live
      unfold trailersByte
      dsimp only
      split_ifs
      next => exact hw
      next => exact complete_live
      next => exact complete_live
      next => exact hw
    | eofBody =>
      have hs := hw (by simp [hst])
      apply live_of_status
      rw [Turn.state, http1Body_status]
      exact hs

end Live

section Cut

variable {pton : Bytes → Bool}

/-- What a round of the loop spends: two for a byte, one for a length that is used up. -/
def http1Cost (w : Http1Work) (p : Bytes) : Nat :=
  2 * p.length + if (w.h.state = .fixed ∨ w.h.state = .chunkData) ∧ w.h.left = 0 then 1 else 0

theorem http1Cost_lt (w v : Http1Work) {p q : Bytes} (h : q.length < p.length) : http1Cost v q < http1Cost w p := by
  unfold http1Cost
  split_ifs
  all_goals omega

theorem byteTurn_next {r : Http1Work × Http1Rc} {t rest : Bytes} {u : Http1Work} (h : byteTurn r t = .next u rest) :
    rest = t ∧ ∀ b, byteTurn r b = .next u b := by
  unfold byteTurn at h ⊢
  split_ifs at h ⊢
  next =>
    obtain ⟨rfl, rfl⟩ := Turn.next.inj h
    exact ⟨rfl, fun _ => rfl⟩

theorem byteTurn_stop {r : Http1Work × Http1Rc} {t : Bytes} {u : Http1Work} {e : Http1Rc}
    (h : byteTurn r t = .stop u e) (b : Bytes) : byteTurn r b = .stop u e := by
  unfold byteTurn at h ⊢
  split_ifs at h ⊢
  next => exact h

theorem takeFixed_idle {w : Http1Work} {p : Bytes} (h : w.h.left = 0) : (takeFixed pton w p).h.state = .head := by
  have hz : (takeBody pton w p).h.left = 0 := by simp [takeBody, Http1Work.setLeft, h]
  unfold takeFixed
  rw [if_pos hz]
  rfl

theorem takeChunk_idle {w : Http1Work} {p : Bytes} (h : w.h.left = 0) :
    (takeChunk pton w p).h.state = .chunkCrlf := by
  have hz : (takeBody pton w p).h.left = 0 := by simp [takeBody, Http1Work.setLeft, h]
  unfold takeChunk
  rw [if_pos hz]

theorem http1Round_spends : Spends (http1Round pton) http1Cost := by
  intro w p v rest hp hround
  cases p with
  | nil => exact absurd rfl hp
  | cons c t =>
    have hbyte {r : Http1Work × Http1Rc} (h : byteTurn r t = .next v rest) :
        http1Cost v rest < http1Cost w (c :: t) := by
      obtain ⟨rfl, -⟩ := byteTurn_next h
      exact http1Cost_lt w v (by simp)
    unfold http1Round at hround
    cases hst : w.h.state with
    | head =>
      rw [hst] at hround
      exact hbyte hround
    | chunkSize =>
      rw [hst] at hround
      exact hbyte hround
    | chunkCrlf =>
      rw [hst] at hround
      exact hbyte hround
    | trailers =>
      rw [hst] at hround
      exact hbyte hround
    | eofBody =>
      rw [hst] at hround
      obtain ⟨-, rfl⟩ := Turn.next.inj hround
      exact http1Cost_lt w v (by simp)
    | fixed =>
      rw [hst] at hround
      obtain ⟨rfl, rfl⟩ := Turn.next.inj hround
      by_cases hz : w.h.left = 0
      · simp [http1Cost, hst, hz, takeFixed_idle hz]
      · exact http1Cost_lt w _ (by simp; omega)
    | chunkData =>
      rw [hst] at hround
      obtain ⟨rfl, rfl⟩ := Turn.next.inj hround
      by_cases hz : w.h.left = 0
      · simp [http1Cost, hst, hz, takeChunk_idle hz]
      · exact http1Cost_lt w _ (by simp; omega)

theorem takeBody_enough {w : Http1Work} {a b : Bytes} (h : w.h.left ≤ a.length) :
    takeBody pton w (a ++ b) = takeBody pton w a := by
  unfold takeBody
  rw [List.take_append_of_le_length h, List.length_append, Nat.sub_eq_zero_of_le h, Nat.sub_eq_zero_of_le (by omega)]

theorem takeBody_short {w : Http1Work} {a b : Bytes} (h : a.length ≤ w.h.left) :
    takeBody pton w (a ++ b) = takeBody pton (takeBody pton w a) b := by
  have hfirst : takeBody pton w a = (http1Body pton w a).setLeft (w.h.left - a.length) := by
    rw [takeBody, List.take_of_length_le h]
  have hleft : (takeBody pton w a).h.left = w.h.left - a.length := rfl
  rw [takeBody.eq_def pton (takeBody pton w a), hleft, hfirst, http1Body_left, ← http1Body_append, takeBody,
    List.take_append, List.take_of_length_le h, List.length_append, Nat.sub_sub]
  rfl

theorem takeBody_state {w : Http1Work} {a : Bytes} : (takeBody pton w a).h.state = w.h.state :=
  http1Body_state w _

theorem takeFixed_short (pton : Bytes → Bool) {w : Http1Work} {a : Bytes} (b : Bytes) (h : a.length < w.h.left) :
    takeFixed pton w a = takeBody pton w a ∧
      takeFixed pton w (a ++ b) = takeFixed pton (takeBody pton w a) b := by
  have hleft : (takeBody pton w a).h.left ≠ 0 := by
    simp only [takeBody, Http1Work.setLeft]
    omega
  constructor
  · unfold takeFixed
    rw [if_neg hleft]
  · unfold takeFixed
    rw [takeBody_short (by omega)]

theorem takeChunk_short (pton : Bytes → Bool) {w : Http1Work} {a : Bytes} (b : Bytes) (h : a.length < w.h.left) :
    takeChunk pton w a = takeBody pton w a ∧
      takeChunk pton w (a ++ b) = takeChunk pton (takeBody pton w a) b := by
  have hleft : (takeBody pton w a).h.left ≠ 0 := by
    simp only [takeBody, Http1Work.setLeft]
    omega
  constructor
  · unfold takeChunk
    rw [if_neg hleft]
  · unfold takeChunk
    rw [takeBody_short (by omega)]

theorem http1Round_fixed {w : Http1Work} {p : Bytes} (hst : w.h.state = .fixed) (hp : p ≠ []) :
    http1Round pton w p = .next (takeFixed pton w p) (p.drop w.h.left) := by
  cases p with
  | nil => exact absurd rfl hp
  | cons c t => simp only [http1Round, hst]

theorem http1Round_chunk {w : Http1Work} {p : Bytes} (hst : w.h.state = .chunkData) (hp : p ≠ []) :
    http1Round pton w p = .next (takeChunk pton w p) (p.drop w.h.left) := by
  cases p with
  | nil => exact absurd rfl hp
  | cons c t => simp only [http1Round, hst]

theorem http1Round_eof {w : Http1Work} {p : Bytes} (hst : w.h.state = .eofBody) (hp : p ≠ []) :
    http1Round pton w p = .next (http1Body pton w p) [] := by
  cases p with
  | nil => exact absurd rfl hp
  | cons c t => simp only [http1Round, hst]

theorem http1Round_splits : Splits (http1Round pton) where
  next := by
    intro w a b v rest ha hb hround
    cases a with
    | nil => exact absurd rfl ha
    | cons c t =>
      have hbyte {r : Http1Work × Http1Rc} (h : byteTurn r t = .next v rest) :
          byteTurn r (t ++ b) = .next v (rest ++ b) := by
        obtain ⟨rfl, hsame⟩ := byteTurn_next h
        exact hsame _
      cases hst : w.h.state with
      | head =>
        simp only [http1Round, hst, List.cons_append] at hround ⊢
        exact .inl (hbyte hround)
      | chunkSize =>
        simp only [http1Round, hst, List.cons_append] at hround ⊢
        exact .inl (hbyte hround)
      | chunkCrlf =>
        simp only [http1Round, hst, List.cons_append] at hround ⊢
        exact .inl (hbyte hround)
      | trailers =>
        simp only [http1Round, hst, List.cons_append] at hround ⊢
        exact .inl (hbyte hround)
      | eofBody =>
        rw [http1Round_eof hst ha] at hround
        obtain ⟨rfl, rfl⟩ := Turn.next.inj hround
        right
        refine ⟨rfl, ?_⟩
        rw [http1Round_eof hst (by simp), http1Round_eof (by rw [http1Body_state, hst]) hb, http1Body_append]
      | fixed =>
        rw [http1Round_fixed hst ha] at hround
        obtain ⟨rfl, rfl⟩ := Turn.next.inj hround
        rw [http1Round_fixed hst (by simp)]
        rcases Nat.lt_or_ge (c :: t).length w.h.left with hlt | hle
        · obtain ⟨hfirst, hboth⟩ := takeFixed_short pton b hlt
          right
          refine ⟨List.drop_eq_nil_of_le (by omega), ?_⟩
          rw [hboth, hfirst, http1Round_fixed (by rw [takeBody_state, hst]) hb, List.drop_append,
            List.drop_eq_nil_of_le (by omega)]
          rfl
        · left
          rw [List.drop_append_of_le_length hle, takeFixed, takeFixed, takeBody_enough hle]
      | chunkData =>
        rw [http1Round_chunk hst ha] at hround
        obtain ⟨rfl, rfl⟩ := Turn.next.inj hround
        rw [http1Round_chunk hst (by simp)]
        rcases Nat.lt_or_ge (c :: t).length w.h.left with hlt | hle
        · obtain ⟨hfirst, hboth⟩ := takeChunk_short pton b hlt
          right
          refine ⟨List.drop_eq_nil_of_le (by omega), ?_⟩
          rw [hboth, hfirst, http1Round_chunk (by rw [takeBody_state, hst]) hb, List.drop_append,
            List.drop_eq_nil_of_le (by omega)]
          rfl
        · left
          rw [List.drop_append_of_le_length hle, takeChunk, takeChunk, takeBody_enough hle]
  stop := by
    intro w a b v e ha hround
    cases a with
    | nil => exact absurd rfl ha
    | cons c t =>
      cases hst : w.h.state with
      | head =>
        simp only [http1Round, hst, List.cons_append] at hround ⊢
        exact byteTurn_stop hround _
      | chunkSize =>
        simp only [http1Round, hst, List.cons_append] at hround ⊢
        exact byteTurn_stop hround _
      | chunkCrlf =>
        simp only [http1Round, hst, List.cons_append] at hround ⊢
        exact byteTurn_stop hround _
      | trailers =>
        simp only [http1Round, hst, List.cons_append] at hround ⊢
        exact byteTurn_stop hround _
      | eofBody => simp [http1Round, hst] at hround
      | fixed => simp [http1Round, hst] at hround
      | chunkData => simp [http1Round, hst] at hround

end Cut

section Feed

variable (pton : Bytes → Bool)

theorem byteTurn_stop_ne {r : Http1Work × Http1Rc} {t : Bytes} {u : Http1Work} {e : Http1Rc}
    (h : byteTurn r t = .stop u e) : ¬ e = .ok := by
  unfold byteTurn at h
  split_ifs at h
  next hr =>
    obtain ⟨-, rfl⟩ := Turn.stop.inj h
    exact hr

theorem http1Round_stop_ne (w : Http1Work) (p : Bytes) (u : Http1Work) (e : Http1Rc)
    (h : http1Round pton w p = .stop u e) : ¬ e = .ok := by
  cases p with
  | nil => simp [http1Round] at h
  | cons c t =>
    cases hst : w.h.state with
    | head =>
      simp only [http1Round, hst] at h
      exact byteTurn_stop_ne h
    | chunkSize =>
      simp only [http1Round, hst] at h
      exact byteTurn_stop_ne h
    | chunkCrlf =>
      simp only [http1Round, hst] at h
      exact byteTurn_stop_ne h
    | trailers =>
      simp only [http1Round, hst] at h
      exact byteTurn_stop_ne h
    | fixed => simp [http1Round, hst] at h
    | chunkData => simp [http1Round, hst] at h
    | eofBody => simp [http1Round, hst] at h

theorem http1Cost_fuel (w : Http1Work) (p : Bytes) : http1Cost w p < 2 * p.length + 2 := by
  unfold http1Cost
  split_ifs
  all_goals omega

theorem http1Feed_live {h : Http1} (hh : h.Live) (p : Bytes) : (http1Feed pton h p).1.h.Live :=
  run_invariant (I := fun w : Http1Work => w.h.Live) (fun _ _ hw => http1Round_live hw) hh

theorem openResponse_live {h : Http1} (hh : h.Live) : h.openResponse.2.Live := by
  unfold Http1.openResponse
  split
  all_goals exact hh

theorem http1Eof_live {h : Http1} (hh : h.Live) : (http1Eof h).1.h.Live := by
  unfold http1Eof
  split
  next => exact complete_live
  next => exact hh

theorem http1Reached_live (calls : List Http1Call) : (http1Reached pton calls).Live := by
  have hstep (h : Http1) (hh : h.Live) : (calls.foldl (http1After pton) h).Live := by
    induction calls generalizing h with
    | nil => exact hh
    | cons c calls ih =>
      apply ih
      cases c with
      | openResponse => exact openResponse_live hh
      | feed p => exact http1Feed_live pton hh p
      | eof => exact http1Eof_live hh
  exact hstep .init fun h => absurd rfl h

/-- A feed of two pieces is a feed of the first and, where that is in order, of the second. -/
theorem http1Feed_append {h : Http1} (hh : h.Live) (a b : Bytes) :
    http1Feed pton h (a ++ b) =
      if (http1Feed pton h a).2 = .ok then
        resultAfter (http1Feed pton h a).1.ev (http1Feed pton (http1Feed pton h a).1.h b)
      else http1Feed pton h a := by
  have hrun : run (http1Round pton) (2 * (a ++ b).length + 2) ⟨h, .empty⟩ (a ++ b) =
      andThen (run (http1Round pton) (2 * a.length + 2) ⟨h, .empty⟩ a) fun t =>
        run (http1Round pton) (2 * b.length + 2) t b :=
    run_append http1Round_spends http1Round_splits (http1Cost_fuel _ _) (http1Cost_fuel _ _)
      fun t _ => http1Cost_fuel t b
  have hlive := http1Feed_live pton hh a
  unfold http1Feed at hlive ⊢
  rw [hrun]
  cases hfirst : run (http1Round pton) (2 * a.length + 2) ⟨h, .empty⟩ a with
  | mk w e =>
    cases e with
    | none =>
      rw [hfirst] at hlive
      have hw : w = Http1Work.after w.ev ⟨w.h, .empty⟩ := by
        unfold Http1Work.after
        dsimp only
        rw [HttpEvent.merge_empty]
      have hmap : run (http1Round pton) (2 * b.length + 2) (Http1Work.after w.ev ⟨w.h, .empty⟩) b =
          (Http1Work.after w.ev (run (http1Round pton) (2 * b.length + 2) ⟨w.h, .empty⟩ b).1,
           (run (http1Round pton) (2 * b.length + 2) ⟨w.h, .empty⟩ b).2) := by
        apply run_map (I := fun v : Http1Work => v.h.Live)
        · exact fun v q hv => http1Round_live hv
        · exact fun v q hv hq => http1Round_after hv hq
        · exact hlive
      rw [← hw] at hmap
      simp only [andThen, Option.getD_none, if_true, hmap]
      rfl
    | some e =>
      have hne := run_stops (http1Round_stop_ne pton) hfirst
      simp only [andThen, Option.getD_some, if_neg hne]

/-- The calls of a caller that feeds the pieces of its input until one is refused. -/
def http1FeedAll (h : Http1) : List Bytes → List (HttpEvent × Http1Rc) × Http1
  | [] => ([], h)
  | p :: ps =>
    let r := http1Feed pton h p
    if r.2 = .ok then
      let rs := http1FeedAll r.1.h ps
      ((r.1.ev, r.2) :: rs.1, rs.2)
    else ([(r.1.ev, r.2)], r.1.h)

/-- What the calls on the pieces of an input say, beside the one call on all of it. -/
structure CutAgrees (h : Http1) (pieces : List Bytes) : Prop where
  accepted : (http1Feed pton h pieces.flatten).2 = .ok →
    (http1FeedAll pton h pieces).1.map (·.2) = List.replicate pieces.length .ok
  refused : (http1Feed pton h pieces.flatten).2 ≠ .ok → ∃ k < pieces.length,
    (http1FeedAll pton h pieces).1.map (·.2) = List.replicate k Http1Rc.ok ++ [(http1Feed pton h pieces.flatten).2] ∧
    (∀ j ≤ k, (http1Feed pton h (pieces.take j).flatten).2 = .ok) ∧
    (http1Feed pton h (pieces.take (k + 1)).flatten).2 = (http1Feed pton h pieces.flatten).2
  parser : (http1FeedAll pton h pieces).2 = (http1Feed pton h pieces.flatten).1.h
  bodyBytes : ((http1FeedAll pton h pieces).1.map (·.1.bodyBytes)).sum =
    (http1Feed pton h pieces.flatten).1.ev.bodyBytes
  flags : ∀ f, (∃ r ∈ (http1FeedAll pton h pieces).1, f ∈ r.1.flags) ↔
    f ∈ (http1Feed pton h pieces.flatten).1.ev.flags
  status : HttpEvent.lastSaid 0 ((http1FeedAll pton h pieces).1.map (·.1.status)) =
    (http1Feed pton h pieces.flatten).1.ev.status
  colo : HttpEvent.lastSaid [] ((http1FeedAll pton h pieces).1.map (·.1.colo)) =
    (http1Feed pton h pieces.flatten).1.ev.colo

theorem feedAll_head {h : Http1} (hh : h.Live) (pieces : List Bytes) :
    (http1FeedAll pton h pieces).2 = (http1Feed pton h pieces.flatten).1.h ∧
      HttpEvent.total ((http1FeedAll pton h pieces).1.map (·.1)) = (http1Feed pton h pieces.flatten).1.ev := by
  induction pieces generalizing h with
  | nil => exact ⟨rfl, rfl⟩
  | cons p ps ih =>
    rw [List.flatten_cons, http1Feed_append pton hh]
    unfold http1FeedAll
    dsimp only
    split
    next =>
      obtain ⟨hparser, htotal⟩ := ih (http1Feed_live pton hh p)
      refine ⟨hparser, ?_⟩
      rw [List.map_cons, HttpEvent.total_cons, htotal]
      rfl
    next => simp [HttpEvent.total_cons]

theorem feedAll_accepted {h : Http1} (hh : h.Live) {pieces : List Bytes}
    (hok : (http1Feed pton h pieces.flatten).2 = .ok) :
    (http1FeedAll pton h pieces).1.map (·.2) = List.replicate pieces.length .ok := by
  induction pieces generalizing h with
  | nil => rfl
  | cons p ps ih =>
    rw [List.flatten_cons, http1Feed_append pton hh] at hok
    unfold http1FeedAll
    dsimp only
    split at hok
    next hp =>
      rw [if_pos hp, List.map_cons, ih (http1Feed_live pton hh p) hok, hp]
      rfl
    next hp => exact absurd hok hp

theorem feedAll_refused {h : Http1} (hh : h.Live) {pieces : List Bytes}
    (hno : (http1Feed pton h pieces.flatten).2 ≠ .ok) : ∃ k < pieces.length,
    (http1FeedAll pton h pieces).1.map (·.2) = List.replicate k Http1Rc.ok ++ [(http1Feed pton h pieces.flatten).2] ∧
    (∀ j ≤ k, (http1Feed pton h (pieces.take j).flatten).2 = .ok) ∧
    (http1Feed pton h (pieces.take (k + 1)).flatten).2 = (http1Feed pton h pieces.flatten).2 := by
  induction pieces generalizing h with
  | nil => exact absurd rfl hno
  | cons p ps ih =>
    have hcons (qs : List Bytes) := http1Feed_append pton hh p qs.flatten
    rw [List.flatten_cons, hcons] at hno ⊢
    unfold http1FeedAll
    dsimp only
    split at hno
    next hp =>
      obtain ⟨k, hk, hrcs, hbefore, hat⟩ := ih (http1Feed_live pton hh p) hno
      refine ⟨k + 1, Nat.succ_lt_succ hk, ?_, ?_, ?_⟩
      · rw [if_pos hp, if_pos hp, List.map_cons, hrcs, hp]
        rfl
      · intro j hj
        cases j with
        | zero => rfl
        | succ j =>
          rw [List.take_succ_cons, List.flatten_cons, hcons, if_pos hp]
          exact hbefore j (by omega)
      · rw [List.take_succ_cons, List.flatten_cons, hcons, if_pos hp, if_pos hp]
        exact hat
    next hp =>
      refine ⟨0, Nat.zero_lt_succ _, ?_, ?_, ?_⟩
      · rw [if_neg hp, if_neg hp]
        rfl
      · intro j hj
        obtain rfl := Nat.le_zero.mp hj
        rfl
      · rw [if_neg hp, List.take_succ_cons, List.take_zero, List.flatten_cons, List.flatten_nil, List.append_nil]

/-- However the input of an HTTP/1 parser is cut, the calls say what one call would. -/
theorem feed_cut (calls : List Http1Call) (pieces : List Bytes) :
    CutAgrees pton (http1Reached pton calls) pieces := by
  have hlive := http1Reached_live pton calls
  obtain ⟨hparser, htotal⟩ := feedAll_head pton hlive pieces
  refine ⟨feedAll_accepted pton hlive, feedAll_refused pton hlive, hparser, ?_, ?_, ?_, ?_⟩
  · rw [← htotal, HttpEvent.total_bodyBytes, List.map_map]
    rfl
  · intro f
    rw [← htotal, HttpEvent.total_flags]
    simp
  · rw [← htotal, HttpEvent.total_status, List.map_map]
    rfl
  · rw [← htotal, HttpEvent.total_colo, List.map_map]
    rfl

end Feed

end Qanat

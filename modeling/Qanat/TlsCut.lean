import Qanat.TlsBlind
import Qanat.TlsReady

namespace Qanat

open TlsHandler Outcome

section Fill

theorem fill_enough {want : Nat} {buf a : Bytes} (b : Bytes) (h : want ≤ buf.length + a.length) :
    fill want buf (a ++ b) = ((fill want buf a).1, (fill want buf a).2 ++ b) := by
  unfold fill
  rw [List.take_append_of_le_length (by omega), List.drop_append_of_le_length (by omega)]

theorem fill_short {want : Nat} {buf a : Bytes} (b : Bytes) (h : buf.length + a.length ≤ want) :
    fill want buf (a ++ b) = fill want (buf ++ a) b := by
  unfold fill
  rw [List.take_append, List.drop_append, List.take_of_length_le (by omega), List.drop_of_length_le (by omega),
    List.length_append, List.append_assoc, List.nil_append, Nat.sub_sub]

theorem fill_lt {want : Nat} {buf a : Bytes} : (fill want buf a).1.length < want ↔ buf.length + a.length < want := by
  unfold fill
  rw [List.length_append, List.length_take]
  omega

theorem fill_none {want : Nat} {buf a : Bytes} (h : want ≤ buf.length) : fill want buf a = (buf, a) := by
  unfold fill
  rw [Nat.sub_eq_zero_of_le h]
  simp

theorem fill_all {want : Nat} {buf a : Bytes} (h : buf.length + a.length ≤ want) : fill want buf a = (buf ++ a, []) := by
  unfold fill
  rw [List.take_of_length_le (by omega), List.drop_of_length_le (by omega)]

theorem byteAt_append {b x : Bytes} {i : Nat} (h : i < b.length) : byteAt (b ++ x) i = byteAt b i := by
  simp [byteAt, List.getElem?_append_left h]

theorem recordNeed_append {b x : Bytes} (h : recHdr ≤ b.length) : recordNeed (b ++ x) = recordNeed b := by
  have hlen : 5 ≤ b.length := h
  unfold recordNeed rd16
  rw [List.drop_append_of_le_length (by omega), byteAt_append (by rw [List.length_drop]; omega),
    byteAt_append (by rw [List.length_drop]; omega)]

theorem headerRefused_append {on : Bool} {b x : Bytes} (h : recHdr ≤ b.length) :
    headerRefused on (b ++ x) = headerRefused on b := by
  have hlen : 5 ≤ b.length := h
  unfold headerRefused
  rw [recordNeed_append h, byteAt_append (by omega), byteAt_append (by omega), byteAt_append (by omega)]

/-- `fillRecord` once the header is there. -/
def fillBody (on : Bool) (b i : Bytes) : Fill :=
  if headerRefused on b then .bad b i
  else if b.length + i.length < recordNeed b then .wait (b ++ i)
  else .full (fill (recordNeed b) b i).1 (fill (recordNeed b) b i).2

theorem fillRecord_short {on : Bool} {buf input : Bytes} (h : buf.length + input.length < recHdr) :
    fillRecord on buf input = .wait (buf ++ input) := by
  unfold fillRecord
  rw [fill_all (Nat.le_of_lt h)]
  simp [h]

theorem fillRecord_long (on : Bool) {buf input : Bytes} (h : recHdr ≤ buf.length + input.length) :
    recHdr ≤ (fill recHdr buf input).1.length ∧
      fillRecord on buf input = fillBody on (fill recHdr buf input).1 (fill recHdr buf input).2 := by
  have hlen : recHdr ≤ (fill recHdr buf input).1.length := by
    by_contra hlt
    have hlt' := fill_lt.mp (Nat.lt_of_not_le hlt)
    omega
  refine ⟨hlen, ?_⟩
  unfold fillRecord fillBody
  generalize fill recHdr buf input = f at hlen
  obtain ⟨b, i⟩ := f
  dsimp only
  rw [if_neg (by simpa using hlen)]
  by_cases href : headerRefused on b
  · rw [if_pos href, if_pos href]
  · rw [if_neg href, if_neg href]
    have hneed : recordNeed (fill (recordNeed b) b i).1 = recordNeed b := recordNeed_append hlen
    rw [hneed]
    by_cases hlt : b.length + i.length < recordNeed b
    · rw [if_pos (fill_lt.mpr hlt), if_pos hlt, fill_all (Nat.le_of_lt hlt)]
    · rw [if_neg (fun h => hlt (fill_lt.mp h)), if_neg hlt]

/-- More input after what `fillRecord` has seen. -/
def Fill.append (on : Bool) (x : Bytes) : Fill → Fill
  | .wait buf => fillRecord on buf x
  | .bad buf rest => .bad buf (rest ++ x)
  | .full buf rest => .full buf (rest ++ x)

theorem fillBody_append {on : Bool} {b i : Bytes} (hb : recHdr ≤ b.length) (x : Bytes) :
    fillBody on b (i ++ x) = (fillBody on b i).append on x := by
  unfold fillBody
  by_cases href : headerRefused on b
  · rw [if_pos href, if_pos href]
    rfl
  · rw [if_neg href, if_neg href]
    by_cases hlt : b.length + i.length < recordNeed b
    · rw [if_pos hlt]
      have hbi : recHdr ≤ (b ++ i).length := by
        rw [List.length_append]
        omega
      have hlong := (fillRecord_long on (Nat.le_trans hbi (Nat.le_add_right _ x.length))).2
      rw [fill_none hbi] at hlong
      show _ = fillRecord on (b ++ i) x
      rw [hlong, fillBody, headerRefused_append hb, if_neg href, recordNeed_append hb, fill_short x (Nat.le_of_lt hlt),
        List.length_append, List.length_append, List.append_assoc, Nat.add_assoc]
    · rw [if_neg hlt, if_neg (by rw [List.length_append]; omega), fill_enough x (by omega)]
      rfl

theorem fillRecord_append (on : Bool) (buf a x : Bytes) :
    fillRecord on buf (a ++ x) = (fillRecord on buf a).append on x := by
  by_cases h : buf.length + a.length < recHdr
  · rw [fillRecord_short h]
    show _ = fillRecord on (buf ++ a) x
    unfold fillRecord
    rw [fill_short x (Nat.le_of_lt h)]
  · have hle : recHdr ≤ buf.length + a.length := by omega
    have hle' : recHdr ≤ buf.length + (a ++ x).length := by
      rw [List.length_append]
      omega
    have hx := fillRecord_long on hle'
    obtain ⟨hb, ha⟩ := fillRecord_long on hle
    rw [hx.2, ha, fill_enough x hle]
    exact fillBody_append hb x

end Fill

/-- How `handle_record` ends, but for the room it had. -/
inductive Handled
  | ok (session : TlsSession) (out app : Bytes) (done : Bool)
  | error (rc : TlsRc) (session : TlsSession) (out app : Bytes)

/-- A session's record is handled with enough room. -/
inductive HandlesTo (env : TlsEnv) (hasOut : Bool) (s : TlsSession) : Handled → Prop
  | ok {outRoom appRoom : Nat} {w : TlsWork}
      (h : handleRecord env ⟨s, hasOut, outRoom, [], appRoom, [], false⟩ = .ok () w) :
      HandlesTo env hasOut s (.ok w.session w.out w.app w.done)
  | error {outRoom appRoom : Nat} {rc : TlsRc} {w : TlsWork} (hrc : rc ≠ .space)
      (h : handleRecord env ⟨s, hasOut, outRoom, [], appRoom, [], false⟩ = .error rc w) :
      HandlesTo env hasOut s (.error rc w.session w.out w.app)

theorem HandlesTo.unique {env : TlsEnv} {hasOut : Bool} {s : TlsSession} {x y : Handled}
    (hx : HandlesTo env hasOut s x) (hy : HandlesTo env hasOut s y) : x = y := by
  have htie : ∀ r₁ r₂ r₁' r₂', Tied TlsRc.space Twin Twin (handleRecord env ⟨s, hasOut, r₁, [], r₂, [], false⟩)
      (handleRecord env ⟨s, hasOut, r₁', [], r₂', [], false⟩) :=
    fun r₁ r₂ r₁' r₂' => handleRecord_blind env _ _ ⟨rfl, rfl, rfl, rfl, rfl⟩
  cases hx with
  | @ok r₁ r₂ w hw =>
    cases hy with
    | @ok r₁' r₂' v hv =>
      have h := htie r₁ r₂ r₁' r₂'
      rw [hw, hv] at h
      rw [h.2.session, h.2.out, h.2.app, h.2.done]
    | @error r₁' r₂' rc v hrc hv =>
      have h := htie r₁ r₂ r₁' r₂'
      rw [hw, hv] at h
      exact absurd h hrc
  | @error r₁ r₂ rc w hrc hw =>
    cases hy with
    | @ok r₁' r₂' v hv =>
      have h := htie r₁ r₂ r₁' r₂'
      rw [hw, hv] at h
      exact absurd h hrc
    | @error r₁' r₂' rc' v hrc' hv =>
      have h := htie r₁ r₂ r₁' r₂'
      rw [hw, hv] at h
      obtain ⟨rfl, htwin⟩ | h | h := h
      · rw [htwin.session, htwin.out, htwin.app]
      · exact absurd h hrc
      · exact absurd h hrc'

/-- What a stretch of input leaves behind. -/
structure StreamEnd where
  session : TlsSession
  consumed : Nat
  out : Bytes
  app : Bytes
  done : Bool
  err : Option TlsRc

/-- What a session makes of a stretch of input, however it is cut, with enough room. -/
inductive Stream (env : TlsEnv) (hasOut : Bool) : TlsSession → Bytes → StreamEnd → Prop
  | wait {s : TlsSession} {input buf : Bytes} (hf : fillRecord s.rd.on s.recBuf input = .wait buf) :
      Stream env hasOut s input ⟨{ s with recBuf := buf }, input.length, [], [], false, none⟩
  | bad {s : TlsSession} {input buf rest : Bytes} (hf : fillRecord s.rd.on s.recBuf input = .bad buf rest) :
      Stream env hasOut s input ⟨{ s with recBuf := buf }, input.length - rest.length, [], [], false, some .proto⟩
  | fail {s s' : TlsSession} {input buf rest out app : Bytes} {rc : TlsRc}
      (hf : fillRecord s.rd.on s.recBuf input = .full buf rest)
      (hh : HandlesTo env hasOut { s with recBuf := buf } (.error rc s' out app)) :
      Stream env hasOut s input ⟨{ s' with recBuf := [] }, input.length - rest.length, out, app, false, some rc⟩
  | step {s s' : TlsSession} {input buf rest out app : Bytes} {done : Bool} {r : StreamEnd}
      (hf : fillRecord s.rd.on s.recBuf input = .full buf rest)
      (hh : HandlesTo env hasOut { s with recBuf := buf } (.ok s' out app done))
      (hr : Stream env hasOut { s' with recBuf := [] } rest r) :
      Stream env hasOut s input ⟨r.session, input.length - rest.length + r.consumed, out ++ r.out, app ++ r.app,
        done || r.done, r.err⟩

section Stream

variable {env : TlsEnv} {hasOut : Bool}

/-- There is one way to go on. -/
theorem Stream.unique {s : TlsSession} {input : Bytes} {r r' : StreamEnd} (h : Stream env hasOut s input r)
    (h' : Stream env hasOut s input r') : r = r' := by
  induction h generalizing r' with
  | wait hf =>
    cases h' with
    | wait hf' =>
      cases hf.symm.trans hf'
      rfl
    | bad hf' | fail hf' | step hf' => cases hf.symm.trans hf'
  | bad hf =>
    cases h' with
    | bad hf' =>
      cases hf.symm.trans hf'
      rfl
    | wait hf' | fail hf' | step hf' => cases hf.symm.trans hf'
  | fail hf hh =>
    cases h' with
    | fail hf' hh' =>
      cases hf.symm.trans hf'
      cases hh.unique hh'
      rfl
    | step hf' hh' =>
      cases hf.symm.trans hf'
      cases hh.unique hh'
    | wait hf' | bad hf' => cases hf.symm.trans hf'
  | step hf hh hr ih =>
    cases h' with
    | step hf' hh' hr' =>
      cases hf.symm.trans hf'
      cases hh.unique hh'
      rw [ih hr']
    | fail hf' hh' =>
      cases hf.symm.trans hf'
      cases hh.unique hh'
    | wait hf' | bad hf' => cases hf.symm.trans hf'

/-- One stretch after another. -/
def StreamEnd.andThen (r q : StreamEnd) : StreamEnd :=
  ⟨q.session, r.consumed + q.consumed, r.out ++ q.out, r.app ++ q.app, r.done || q.done, q.err⟩

theorem fill_rest_le (want : Nat) (buf input : Bytes) : (fill want buf input).2.length ≤ input.length := by
  unfold fill
  rw [List.length_drop]
  exact Nat.sub_le _ _

theorem fill_total (want : Nat) (buf input : Bytes) :
    (fill want buf input).1.length + (fill want buf input).2.length = buf.length + input.length := by
  unfold fill
  rw [List.length_append, List.length_take, List.length_drop]
  omega

/-- `fillRecord` only moves bytes, and a record has a header. -/
def Fill.Kept (n total : Nat) : Fill → Prop
  | .wait _ => True
  | .bad buf rest | .full buf rest => rest.length ≤ n ∧ buf.length + rest.length = total ∧ recHdr ≤ buf.length

theorem fillRecord_kept (on : Bool) (buf input : Bytes) :
    (fillRecord on buf input).Kept input.length (buf.length + input.length) := by
  by_cases h : buf.length + input.length < recHdr
  · rw [fillRecord_short h]
    trivial
  · obtain ⟨hlen, hlong⟩ := fillRecord_long on (Nat.le_of_not_lt h)
    rw [hlong]
    have hle := fill_rest_le recHdr buf input
    have htot := fill_total recHdr buf input
    unfold fillBody
    generalize fill recHdr buf input = f at hlen hle htot
    have hle' := fill_rest_le (recordNeed f.1) f.1 f.2
    have htot' := fill_total (recordNeed f.1) f.1 f.2
    split_ifs
    · exact ⟨hle, htot, hlen⟩
    · trivial
    · refine ⟨Nat.le_trans hle' hle, htot'.trans htot, ?_⟩
      unfold fill
      rw [List.length_append]
      omega

/-- A record that was waiting for input gets it. -/
theorem Stream.resume {s : TlsSession} {a b buf : Bytes} {q : StreamEnd}
    (hf : fillRecord s.rd.on s.recBuf a = .wait buf) (h : Stream env hasOut { s with recBuf := buf } b q) :
    Stream env hasOut s (a ++ b) { q with consumed := a.length + q.consumed } := by
  have happ := fillRecord_append s.rd.on s.recBuf a b
  rw [hf] at happ
  have hle := fillRecord_kept s.rd.on buf b
  cases h with
  | wait hf' =>
    have h : Stream env hasOut s (a ++ b) _ := .wait (happ.trans hf')
    rw [List.length_append] at h
    exact h
  | @bad _ _ buf' rest hf' =>
    have h : Stream env hasOut s (a ++ b) _ := .bad (happ.trans hf')
    rw [hf'] at hle
    rw [List.length_append, Nat.add_sub_assoc hle.1] at h
    exact h
  | @fail _ s' _ buf' rest out app rc hf' hh =>
    have h : Stream env hasOut s (a ++ b) _ := .fail (happ.trans hf') hh
    rw [hf'] at hle
    rw [List.length_append, Nat.add_sub_assoc hle.1] at h
    exact h
  | @step _ s' _ buf' rest out app done r hf' hh hr =>
    have h : Stream env hasOut s (a ++ b) _ := .step (happ.trans hf') hh hr
    rw [hf'] at hle
    rw [List.length_append, Nat.add_sub_assoc hle.1, Nat.add_assoc] at h
    exact h

/-- An error ends a stretch whatever comes after it. -/
theorem Stream.error_append {s : TlsSession} {a : Bytes} {r : StreamEnd} (h : Stream env hasOut s a r)
    (herr : r.err ≠ none) (b : Bytes) : Stream env hasOut s (a ++ b) r := by
  induction h with
  | wait hf => exact absurd rfl herr
  | @bad s input buf rest hf =>
    have happ := fillRecord_append s.rd.on s.recBuf input b
    rw [hf] at happ
    have h : Stream env hasOut s (input ++ b) _ := .bad happ
    rw [List.length_append, List.length_append, Nat.add_sub_add_right] at h
    exact h
  | @fail s s' input buf rest out app rc hf hh =>
    have happ := fillRecord_append s.rd.on s.recBuf input b
    rw [hf] at happ
    have h := Stream.fail happ hh
    rw [List.length_append, List.length_append, Nat.add_sub_add_right] at h
    exact h
  | @step s s' input buf rest out app done r hf hh hr ih =>
    have happ := fillRecord_append s.rd.on s.recBuf input b
    rw [hf] at happ
    have h := Stream.step happ hh (ih herr)
    rw [List.length_append, List.length_append, Nat.add_sub_add_right] at h
    exact h

/-- A stretch of input may be cut anywhere. -/
theorem Stream.append {s : TlsSession} {a b : Bytes} {r q : StreamEnd} (h : Stream env hasOut s a r)
    (herr : r.err = none) (h' : Stream env hasOut r.session b q) : Stream env hasOut s (a ++ b) (r.andThen q) := by
  induction h with
  | wait hf => exact Stream.resume hf h'
  | bad hf | fail hf hh => exact absurd herr (by simp)
  | @step s s' input buf rest out app done r hf hh hr ih =>
    have happ := fillRecord_append s.rd.on s.recBuf input b
    rw [hf] at happ
    have h := Stream.step happ hh (ih herr h')
    rw [List.length_append, List.length_append, Nat.add_sub_add_right] at h
    unfold StreamEnd.andThen at h ⊢
    rw [Nat.add_assoc, List.append_assoc, List.append_assoc, Bool.or_assoc]
    exact h

/-- What `qn_tls_recv` answers at the end of a stretch, if it was `done` before. -/
def StreamEnd.rc (r : StreamEnd) (done : Bool) : TlsRc :=
  r.err.getD (if done || r.done then .done else .more)

theorem recvLoop_stream (fuel : Nat) (s : TlsSession) (io : TlsIo) (done : Bool)
    (hfuel : s.recBuf.length + io.input.length < fuel) (hrc : (recvLoop env fuel s io done).rc ≠ .space) :
    ∃ r, Stream env io.hasOut s io.input r ∧
      recvLoop env fuel s io done = ⟨r.session, r.consumed, r.out, r.app, r.rc done⟩ := by
  induction fuel generalizing s io done with
  | zero => omega
  | succ fuel ih =>
    unfold recvLoop at hrc ⊢
    cases hf : fillRecord s.rd.on s.recBuf io.input with
    | wait buf =>
      refine ⟨_, .wait hf, ?_⟩
      simp [StreamEnd.rc]
    | bad buf rest =>
      refine ⟨_, .bad hf, ?_⟩
      simp [StreamEnd.rc]
    | full buf rest =>
      rw [hf] at hrc
      dsimp only at hrc ⊢
      cases hw : handleRecord env ⟨{ s with recBuf := buf }, io.hasOut, io.outCap, [], io.appCap, [], false⟩ with
      | error rc w =>
        rw [hw] at hrc
        exact ⟨_, .fail hf (.error hrc hw), rfl⟩
      | ok _ w =>
        rw [hw] at hrc
        have hkept := fillRecord_kept s.rd.on s.recBuf io.input
        rw [hf] at hkept
        have hhdr : 5 ≤ buf.length := hkept.2.2
        have htot : buf.length + rest.length = s.recBuf.length + io.input.length := hkept.2.1
        obtain ⟨r, hr, heq⟩ := ih { w.session with recBuf := [] }
          ⟨rest, io.hasOut, io.outCap - w.out.length, io.appCap - w.app.length⟩ (done || w.done)
          (by simp only [List.length_nil]; omega) hrc
        refine ⟨_, .step hf (.ok hw) hr, ?_⟩
        dsimp only
        rw [heq]
        simp [StreamEnd.rc, Bool.or_assoc]

end Stream

/-- `done` tells whether the handshake has become complete, from `was` to `now`. -/
def Tells (was done now : Bool) : Prop :=
  if done then was = false ∧ now = true else now = was

theorem Tells.trans {a b c d d' : Bool} (h : Tells a d b) (h' : Tells b d' c) : Tells a (d || d') c := by
  revert h h'
  cases a <;> cases b <;> cases c <;> cases d <;> cases d' <;> simp [Tells]

/-- The handshake becomes complete once at most. -/
theorem Tells.count {a b c d d' : Bool} (h : Tells a d b) (h' : Tells b d' c) :
    d'.toNat + d.toNat = (d || d').toNat := by
  revert h h'
  cases a <;> cases b <;> cases c <;> cases d <;> cases d' <;> simp [Tells]

theorem Tells.eq {a d c : Bool} (h : Tells a d c) : d = (!a && c) := by
  revert h
  cases a <;> cases c <;> cases d <;> simp [Tells]

theorem ready_of_st {s s' : TlsSession} (h : s'.st = s.st) : s'.ready = s.ready := by
  unfold TlsSession.ready
  rw [h]

theorem Same.ready {s s' : TlsSession} (h : Same s s') : s'.ready = s.ready :=
  ready_of_st (congrArg TlsFlow.st h.flow)

theorem Accepts.tells {env : TlsEnv} {s s' : TlsSession} {rc : TlsRc} {f : TlsFlow} (h : Accepts env s rc f)
    (hs' : s'.st = f.st) : Tells s.ready (decide (rc = .done)) s'.ready := by
  unfold Tells TlsSession.ready
  cases h <;> simp_all

theorem changed_ready (s : TlsSession) : s.changed.ready = s.ready := by
  have hf := congrArg TlsFlow.st (changed_flow s)
  split_ifs at hf with hturn
  · have hst' : s.changed.st = .waitFin := hf
    simp [TlsSession.ready, hst', hturn.2]
  · exact ready_of_st hf

theorem done_rules (env : TlsEnv) (was : Bool) :
    TlsRules env (fun w _ _ => Tells was w.done w.session.ready) (fun rc _ => rc.isError) where
  skip := fun w e p h => h
  took := by
    intro w e q rest s' h ht
    dsimp only
    rw [ht.grown.toSame.ready]
    exact h
  spoilt := fun _ _ _ _ _ _ => rfl
  accepted := by
    intro w e rest rc v h _ _ hd
    obtain ⟨f, hacc, -, hdone, hend⟩ := dispatched_ok rest hd
    dsimp only
    rw [hdone]
    exact h.trans (hacc.tells (congrArg TlsFlow.st hend.flow))
  refused := fun w e rest rc v _ _ _ hd => (dispatched_error rest hd).1
  opened := by
    intro w e s' h ho p
    dsimp only
    rw [ho.same.ready]
    exact h
  failed := fun w e p rc _ hrc => hrc
  ccs := by
    intro w e h _ _ _
    dsimp only
    rw [changed_ready]
    exact h
  alert := fun _ _ _ _ => rfl
  data := fun w e p h _ => h

theorem HandlesTo.isError {env : TlsEnv} {hasOut : Bool} {s s' : TlsSession} {out app : Bytes} {rc : TlsRc}
    (h : HandlesTo env hasOut s (.error rc s' out app)) : rc.isError := by
  cases h with
  | @error r₁ r₂ _ w _ hw =>
    have hm := handleRecord_meets (done_rules env s.ready) (e := .plain)
      (w := ⟨s, hasOut, r₁, [], r₂, [], false⟩) rfl
    rw [hw] at hm
    exact hm

theorem HandlesTo.tells {env : TlsEnv} {hasOut : Bool} {s s' : TlsSession} {out app : Bytes} {done : Bool}
    (h : HandlesTo env hasOut s (.ok s' out app done)) : Tells s.ready done s'.ready := by
  cases h with
  | @ok r₁ r₂ w hw =>
    have hm := handleRecord_meets (done_rules env s.ready) (e := .plain)
      (w := ⟨s, hasOut, r₁, [], r₂, [], false⟩) rfl
    rw [hw] at hm
    obtain ⟨-, hm⟩ := hm
    exact hm

theorem Stream.tells {env : TlsEnv} {hasOut : Bool} {s : TlsSession} {input : Bytes} {r : StreamEnd}
    (h : Stream env hasOut s input r) (herr : r.err = none) : Tells s.ready r.done r.session.ready := by
  induction h with
  | wait hf => rfl
  | bad hf | fail hf hh => exact absurd herr (by simp)
  | step hf hh hr ih => exact hh.tells.trans (ih herr)

/-- Consecutive calls of `qn_tls_recv`, up to the first that fails. -/
def recvAll (env : TlsEnv) : TlsSession → List TlsIo → List RecvResult
  | _, [] => []
  | s, io :: calls =>
    let r := tlsRecv env s io
    r :: if r.rc.isError then [] else recvAll env r.session calls

/-- The session after the calls. -/
def lastSession (s : TlsSession) (rs : List RecvResult) : TlsSession :=
  (rs.getLast?.map RecvResult.session).getD s

theorem Stream.isError {env : TlsEnv} {hasOut : Bool} {s : TlsSession} {input : Bytes} {r : StreamEnd} {rc : TlsRc}
    (h : Stream env hasOut s input r) (herr : r.err = some rc) : rc.isError := by
  induction h with
  | wait hf => exact absurd herr (by simp)
  | bad hf =>
    cases herr
    rfl
  | fail hf hh =>
    cases herr
    exact hh.isError
  | step hf hh hr ih => exact ih herr

theorem Stream.consumed {env : TlsEnv} {hasOut : Bool} {s : TlsSession} {input : Bytes} {r : StreamEnd}
    (h : Stream env hasOut s input r) (herr : r.err = none) : r.consumed = input.length := by
  induction h with
  | wait hf => rfl
  | bad hf | fail hf hh => exact absurd herr (by simp)
  | @step s s' input buf rest out app done r hf hh hr ih =>
    have hkept := fillRecord_kept s.rd.on s.recBuf input
    rw [hf] at hkept
    have hle : rest.length ≤ input.length := hkept.1
    dsimp only
    rw [ih herr]
    omega

/-- What a list of calls leaves behind, next to the stretch `r` of all their input. -/
structure CallsEnd (s : TlsSession) (calls : List TlsIo) (rs : List RecvResult) (r : StreamEnd) : Prop where
  session : lastSession s rs = r.session
  out : rs.flatMap RecvResult.out = r.out
  app : rs.flatMap RecvResult.app = r.app
  consumed : (rs.map RecvResult.consumed).sum = r.consumed
  fine : r.err = none → (∀ x ∈ rs, x.rc.isError = false) ∧
    List.Forall₂ (fun io x => RecvResult.consumed x = io.input.length) calls rs ∧
    rs.countP (fun x => x.rc = .done) = r.done.toNat
  failed : ∀ rc, r.err = some rc → ∃ front last, rs = front ++ [last] ∧ last.rc = rc ∧ ∀ x ∈ front, x.rc.isError = false

section Calls

variable {env : TlsEnv} {hasOut : Bool}

theorem StreamEnd.rc_ok {r : StreamEnd} (herr : r.err = none) :
    (r.rc false).isError = false ∧ (r.rc false = .done ↔ r.done = true) := by
  unfold StreamEnd.rc
  rw [herr]
  cases r.done <;> simp

theorem StreamEnd.rc_error {r : StreamEnd} {rc : TlsRc} (herr : r.err = some rc) (done : Bool) : r.rc done = rc := by
  simp [StreamEnd.rc, herr]

/-- One call. -/
theorem callsEnd_one {s : TlsSession} {io : TlsIo} {r : StreamEnd} (h : Stream env hasOut s io.input r) :
    CallsEnd s [io] [⟨r.session, r.consumed, r.out, r.app, r.rc false⟩] r where
  session := rfl
  out := List.append_nil _
  app := List.append_nil _
  consumed := rfl
  fine := by
    intro herr
    obtain ⟨hok, hdone⟩ := StreamEnd.rc_ok herr
    refine ⟨by simpa using hok, .cons (h.consumed herr) .nil, ?_⟩
    simp only [List.countP_cons, List.countP_nil, hdone, decide_eq_true_eq]
    cases r.done <;> simp
  failed := fun rc herr => ⟨[], _, rfl, StreamEnd.rc_error herr false, by simp⟩

theorem lastSession_cons (s : TlsSession) (x : RecvResult) (rs : List RecvResult) :
    lastSession s (x :: rs) = lastSession x.session rs := by
  unfold lastSession
  cases rs with
  | nil => rfl
  | cons y rs =>
    rw [List.getLast?_cons_cons]
    cases hlast : (y :: rs).getLast? with
    | none => exact absurd hlast (by simp)
    | some z => rfl

/-- A call that went well, and the calls after it. -/
theorem callsEnd_cons {s : TlsSession} {io : TlsIo} {calls : List TlsIo} {rs : List RecvResult} {r q : StreamEnd}
    {input : Bytes} (h : Stream env hasOut s io.input r) (herr : r.err = none)
    (hq : Stream env hasOut r.session input q) (hcalls : CallsEnd r.session calls rs q) :
    CallsEnd s (io :: calls) (⟨r.session, r.consumed, r.out, r.app, r.rc false⟩ :: rs) (r.andThen q) where
  session := (lastSession_cons s _ rs).trans hcalls.session
  out := by simp [StreamEnd.andThen, hcalls.out]
  app := by simp [StreamEnd.andThen, hcalls.app]
  consumed := by simp [StreamEnd.andThen, hcalls.consumed]
  fine := by
    intro herr'
    obtain ⟨hok, hdone⟩ := StreamEnd.rc_ok herr
    obtain ⟨hall, hfull, hcount⟩ := hcalls.fine herr'
    refine ⟨by simpa [hok] using hall, .cons (h.consumed herr) hfull, ?_⟩
    have htells := h.tells herr
    have htells' := hq.tells herr'
    have hhead : (if decide (r.rc false = .done) then 1 else 0) = r.done.toNat := by
      simp only [decide_eq_true_eq, hdone]
      cases r.done <;> simp
    rw [List.countP_cons, hcount, hhead]
    exact htells.count htells'
  failed := by
    intro rc herr'
    obtain ⟨front, last, rfl, hlast, hfront⟩ := hcalls.failed rc herr'
    refine ⟨_ :: front, last, rfl, hlast, ?_⟩
    simpa [(StreamEnd.rc_ok herr).1] using hfront

/-- A call that failed. -/
theorem callsEnd_failed {s : TlsSession} {io : TlsIo} {r : StreamEnd} (calls : List TlsIo)
    (h : Stream env hasOut s io.input r) (herr : r.err ≠ none) :
    CallsEnd s (io :: calls) [⟨r.session, r.consumed, r.out, r.app, r.rc false⟩] r := by
  have hone := callsEnd_one h
  exact ⟨hone.session, hone.out, hone.app, hone.consumed, fun hn => absurd hn herr, hone.failed⟩

theorem tlsRecv_stream {s : TlsSession} {io : TlsIo} (hrc : (tlsRecv env s io).rc ≠ .space) :
    ∃ r, Stream env io.hasOut s io.input r ∧
      tlsRecv env s io = ⟨r.session, r.consumed, r.out, r.app, r.rc false⟩ :=
  recvLoop_stream _ s io false (Nat.lt_succ_self _) hrc

theorem recvAll_cons {s : TlsSession} {io : TlsIo} {r : StreamEnd} (calls : List TlsIo)
    (heq : tlsRecv env s io = ⟨r.session, r.consumed, r.out, r.app, r.rc false⟩) :
    recvAll env s (io :: calls) = ⟨r.session, r.consumed, r.out, r.app, r.rc false⟩ ::
      if (r.rc false).isError then [] else recvAll env r.session calls := by
  show tlsRecv env s io :: (if (tlsRecv env s io).rc.isError then [] else recvAll env (tlsRecv env s io).session calls) = _
  rw [heq]

/-- However the input is cut into calls, they do what the stretch of all the input does. -/
theorem recvAll_stream (s : TlsSession) (io : TlsIo) (calls : List TlsIo) (hout : ∀ x ∈ io :: calls, x.hasOut = hasOut)
    (hspace : ∀ x ∈ recvAll env s (io :: calls), x.rc ≠ .space) :
    ∃ r, Stream env hasOut s ((io :: calls).flatMap TlsIo.input) r ∧
      CallsEnd s (io :: calls) (recvAll env s (io :: calls)) r := by
  induction calls generalizing s io with
  | nil =>
    obtain ⟨r, hr, heq⟩ := tlsRecv_stream (hspace _ List.mem_cons_self)
    rw [hout io List.mem_cons_self] at hr
    refine ⟨r, ?_, ?_⟩
    · rw [List.flatMap_cons, List.flatMap_nil, List.append_nil]
      exact hr
    · rw [recvAll_cons [] heq, recvAll, ite_self]
      exact callsEnd_one hr
  | cons io' calls ih =>
    obtain ⟨r, hr, heq⟩ := tlsRecv_stream (hspace _ List.mem_cons_self)
    rw [hout io List.mem_cons_self] at hr
    rw [recvAll_cons _ heq] at hspace ⊢
    rw [List.flatMap_cons]
    cases herr : r.err with
    | some rc =>
      have hrc := hr.isError herr
      rw [StreamEnd.rc_error herr, if_pos hrc]
      have herr' : r.err ≠ none := by simp [herr]
      have hend := callsEnd_failed (io' :: calls) hr herr'
      rw [StreamEnd.rc_error herr] at hend
      exact ⟨r, hr.error_append herr' _, hend⟩
    | none =>
      have hok := (StreamEnd.rc_ok herr).1
      rw [hok, if_neg (by simp)] at hspace ⊢
      obtain ⟨q, hq, hcalls⟩ := ih r.session io' (fun x hx => hout x (List.mem_cons_of_mem _ hx))
        (fun x hx => hspace x (List.mem_cons_of_mem _ hx))
      exact ⟨r.andThen q, hr.append herr hq, callsEnd_cons hr herr hq hcalls⟩

end Calls

/-- `qn_tls_recv` does not depend on how the network cuts the bytes. -/
theorem recv_uncut (env : TlsEnv) (s : TlsSession) (whole : TlsIo) (calls : List TlsIo) (hne : calls ≠ [])
    (hin : calls.flatMap TlsIo.input = whole.input) (hout : ∀ io ∈ calls, io.hasOut = whole.hasOut)
    (hspace : (tlsRecv env s whole).rc ≠ .space) (hspaces : ∀ x ∈ recvAll env s calls, x.rc ≠ .space) :
    lastSession s (recvAll env s calls) = (tlsRecv env s whole).session ∧
    (recvAll env s calls).flatMap RecvResult.out = (tlsRecv env s whole).out ∧
    (recvAll env s calls).flatMap RecvResult.app = (tlsRecv env s whole).app ∧
    ((recvAll env s calls).map RecvResult.consumed).sum = (tlsRecv env s whole).consumed ∧
    ((tlsRecv env s whole).rc.isError = false →
      (∀ x ∈ recvAll env s calls, x.rc.isError = false) ∧
      List.Forall₂ (fun io x => RecvResult.consumed x = io.input.length) calls (recvAll env s calls) ∧
      (recvAll env s calls).countP (fun x => x.rc = .done) =
        (!s.ready && (tlsRecv env s whole).session.ready).toNat) ∧
    ((tlsRecv env s whole).rc.isError → ∃ front last, recvAll env s calls = front ++ [last] ∧
      last.rc = (tlsRecv env s whole).rc ∧ ∀ x ∈ front, x.rc.isError = false) := by
  obtain ⟨r, hr, heq⟩ := tlsRecv_stream hspace
  obtain ⟨io, calls, rfl⟩ := List.exists_cons_of_ne_nil hne
  obtain ⟨q, hq, hend⟩ := recvAll_stream s io calls hout hspaces
  rw [hin] at hq
  obtain rfl := hr.unique hq
  rw [heq]
  refine ⟨hend.session, hend.out, hend.app, hend.consumed, fun hrc => ?_, fun hrc => ?_⟩
  · have herr : r.err = none := by
      cases herr : r.err with
      | none => rfl
      | some rc =>
        rw [StreamEnd.rc_error herr, hr.isError herr] at hrc
        exact absurd hrc (by simp)
    obtain ⟨hall, hfull, hcount⟩ := hend.fine herr
    refine ⟨hall, hfull, hcount.trans ?_⟩
    rw [(hr.tells herr).eq]
  · cases herr : r.err with
    | none =>
      have hok := (StreamEnd.rc_ok herr).1
      exact absurd hrc (by simp [hok])
    | some rc =>
      rw [StreamEnd.rc_error herr]
      exact hend.failed rc herr

theorem recv_uncut_sample : (tlsRecv sampleEnv sampleStart.session (sampleIo sampleFlight)).rc = .done ∧
    (recvAll sampleEnv sampleStart.session
      [sampleIo (sampleFlight.take 3), sampleIo (sampleFlight.drop 3)]).countP (fun x => x.rc = .done) = 1 := by
  have hrc : (tlsRecv sampleEnv sampleStart.session (sampleIo sampleFlight)).rc = .done := by decide +kernel
  have hready : (!sampleStart.session.ready &&
    (tlsRecv sampleEnv sampleStart.session (sampleIo sampleFlight)).session.ready) = true := by decide +kernel
  have h := recv_uncut sampleEnv sampleStart.session (sampleIo sampleFlight)
    [sampleIo (sampleFlight.take 3), sampleIo (sampleFlight.drop 3)] (by simp) rfl
    (by simp [sampleIo]) (by simp [hrc]) (by decide +kernel)
  have hcount := (h.2.2.2.2.1 (by simp [hrc])).2.2
  rw [hready] at hcount
  exact ⟨hrc, hcount⟩

end Qanat

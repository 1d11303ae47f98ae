import Qanat.TlsMove

namespace Qanat

open TlsHandler Outcome

/-- A session with other framing checks of a Certificate. -/
def TlsSession.scanning (s : TlsSession) (c : CertScan) (c13 : Cert13Scan) : TlsSession :=
  { s with certScan := c, cert13Scan := c13 }

/-- A session that has put the bytes `q` of a record opened under `e` into its message. -/
inductive Took (e : Epoch) (s : TlsSession) (q : Bytes) : TlsSession → Prop
  | header (ha : s.hsActive = false) (hlen : s.hsHdr.length + q.length < 4) : Took e s q (s.headerTaken e q)
  | start (ha : s.hsActive = false) (hlen : ¬ s.hsHdr.length + q.length < 4)
      (hq : q.length ≤ 4 - s.hsHdr.length) : Took e s q (s.headerTaken e q).beginMessage
  | body (ha : s.hsActive) (hq : q.length ≤ s.hsLen - s.hsGot) (c : CertScan) (c13 : Cert13Scan) :
      Took e s q (((s.trUpdate q).scanning c c13).bodyTaken e q)

/-- A session that gave up in the framing of a Certificate. -/
inductive Spoilt (e : Epoch) (s : TlsSession) : TlsSession → Prop
  | start (ha : s.hsActive = false) (q : Bytes) : Spoilt e s (s.headerTaken e q).beginMessage
  | body (ha : s.hsActive) (q : Bytes) (c : CertScan) (c13 : Cert13Scan) :
      Spoilt e s ((s.trUpdate q).scanning c c13)

/-- A session whose message was dispatched: `s` before, `t` what the handler made of it. -/
def TlsSession.dispatched (env : TlsEnv) (s t : TlsSession) (left : Bytes) (rc : TlsRc) : TlsSession :=
  t.endMessage (s.message env left rc)

/-- A session that may have stepped its read sequence number. -/
def Opened (s s' : TlsSession) : Prop :=
  s' = s ∨ s' = s.opened

/-- A session that took a ChangeCipherSpec. -/
def TlsSession.changed (s : TlsSession) : TlsSession :=
  let s' : TlsSession := { s.note (.ccs s.version (s.hsActive ∨ s.hsHdr ≠ [])) with sawCcs := true }
  if s.version = 0x0303 then s'.tls12OnCcs else s'

/-- A session that took an alert. -/
def TlsSession.alerted (s : TlsSession) (p : Bytes) : TlsSession :=
  { s.note .alert with alertDesc := if 2 ≤ p.length then byteAt p 1 else s.alertDesc, st := .closed }

/-- A property of works that every operation on a record keeps. `I w e p` is about a work in the middle
of a record opened under `e` with `p` still to be looked at, `E` about one that failed. -/
structure TlsRules (env : TlsEnv) (I : TlsWork → Epoch → Bytes → Prop) (E : TlsRc → TlsWork → Prop) : Prop where
  skip : ∀ w e p, I w e p → I w e []
  took : ∀ w e q rest s', I w e (q ++ rest) → Took e w.session q s' → I { w with session := s' } e rest
  spoilt : ∀ w e p s', I w e p → Spoilt e w.session s' → E .proto { w with session := s' }
  accepted : ∀ w e rest rc v, I w e rest → w.session.hsActive → w.session.hsLen ≤ w.session.hsGot →
    tlsDispatch env { w with session := w.session.received } = .ok rc v →
    I { v with session := w.session.dispatched env v.session rest rc, done := v.done || rc = .done } e rest
  refused : ∀ w e rest rc v, I w e rest → w.session.hsActive → w.session.hsLen ≤ w.session.hsGot →
    tlsDispatch env { w with session := w.session.received } = .error rc v →
    E rc { v with session := w.session.dispatched env v.session rest rc }
  opened : ∀ w e s', I w e [] → Opened w.session s' → ∀ p, I { w with session := s' } w.session.epoch p
  failed : ∀ w e p rc, I w e p → rc.isError → E rc w
  ccs : ∀ w e, I w e [] → w.session.sawCcs = false → w.session.st ≠ .ready → w.session.st ≠ .closed →
    I { w with session := w.session.changed } e []
  alert : ∀ w e p, I w e p → E .alert { w with session := w.session.alerted p }
  data : ∀ w e p, I w e p → w.session.st = .ready →
    I { w with app := w.app ++ p, session := w.session.note (.data p) } e []

section Rules

variable {env : TlsEnv} {I : TlsWork → Epoch → Bytes → Prop} {E : TlsRc → TlsWork → Prop}

theorem headerBytes_meets (R : TlsRules env I E) {w : TlsWork} {e : Epoch} {p : Bytes} (h : I w e p) :
    Meets (headerBytes e p w) (fun rest v => I v e rest) (fun rc v => E rc v) := by
  unfold headerBytes
  rw [meets_bind, meets_session]
  by_cases ha : w.session.hsActive
  · rw [if_pos ha]
    exact h
  · rw [if_neg ha]
    have ha' : w.session.hsActive = false := by simpa using ha
    have hsplit : p = p.take (4 - w.session.hsHdr.length) ++
        p.drop (p.take (4 - w.session.hsHdr.length)).length := by
      rw [List.length_take]
      by_cases hle : 4 - w.session.hsHdr.length ≤ p.length
      · rw [Nat.min_eq_left hle, List.take_append_drop]
      · rw [Nat.min_eq_right (by omega), List.drop_length, List.append_nil, List.take_of_length_le (by omega)]
    have hq : (p.take (4 - w.session.hsHdr.length)).length ≤ 4 - w.session.hsHdr.length := by
      rw [List.length_take]
      exact Nat.min_le_left _ _
    rw [hsplit] at h
    generalize p.take (4 - w.session.hsHdr.length) = q at h hq ⊢
    simp only [meets_bind, meets_update]
    by_cases hlen : w.session.hsHdr.length + q.length < 4
    · rw [if_pos hlen]
      exact R.took w e q _ _ h (.header ha' hlen)
    · rw [if_neg hlen]
      simp only [meets_bind, meets_update, meets_session, meets_refuse, meets_pure]
      exact ⟨fun _ => R.spoilt w e _ _ h (.start ha' q), fun _ => R.took w e q _ _ h (.start ha' hlen hq)⟩

theorem scanBytes_meets (q : Bytes) (w : TlsWork) :
    Meets (scanBytes q w) (fun _ v => ∃ c c13, v = { w with session := w.session.scanning c c13 })
      (fun rc v => rc = .proto ∧ ∃ c c13, v = { w with session := w.session.scanning c c13 }) := by
  unfold scanBytes
  rw [meets_bind, meets_session]
  by_cases hty : w.session.hsType = hsCert
  · rw [if_pos hty]
    by_cases hv : w.session.version = 0x0303
    · rw [if_pos hv]
      simp only [meets_bind, meets_update, meets_refuse]
      exact ⟨fun _ => ⟨trivial, _, w.session.cert13Scan, rfl⟩, fun _ => ⟨_, w.session.cert13Scan, rfl⟩⟩
    · rw [if_neg hv]
      simp only [meets_bind, meets_update, meets_refuse]
      exact ⟨fun _ => ⟨trivial, w.session.certScan, _, rfl⟩, fun _ => ⟨w.session.certScan, _, rfl⟩⟩
  · rw [if_neg hty]
    exact ⟨w.session.certScan, w.session.cert13Scan, rfl⟩

theorem bodyBytes_meets (R : TlsRules env I E) {w : TlsWork} {e : Epoch} {p : Bytes} (h : I w e p)
    (ha : w.session.hsActive) :
    Meets (bodyBytes e p w) (fun rest v => I v e rest ∧ v.session.hsActive) (fun rc v => E rc v) := by
  unfold bodyBytes
  rw [meets_bind, meets_session]
  have hsplit : p = p.take (w.session.hsLen - w.session.hsGot) ++
      p.drop (p.take (w.session.hsLen - w.session.hsGot)).length := by
    rw [List.length_take]
    by_cases hle : w.session.hsLen - w.session.hsGot ≤ p.length
    · rw [Nat.min_eq_left hle, List.take_append_drop]
    · rw [Nat.min_eq_right (by omega), List.drop_length, List.append_nil, List.take_of_length_le (by omega)]
  have hq : (p.take (w.session.hsLen - w.session.hsGot)).length ≤ w.session.hsLen - w.session.hsGot := by
    rw [List.length_take]
    exact Nat.min_le_left _ _
  rw [hsplit] at h
  generalize p.take (w.session.hsLen - w.session.hsGot) = q at h hq ⊢
  simp only [meets_bind, meets_update]
  apply (scanBytes_meets q _).mono
  · rintro _ v ⟨c, c13, rfl⟩
    refine ⟨R.took w e q _ _ h (.body ha hq c c13), ?_⟩
    show (w.session.trUpdate q).hsActive = true
    unfold TlsSession.trUpdate
    split
    next => exact ha
    next => exact ha
  · rintro rc v ⟨rfl, c, c13, rfl⟩
    exact R.spoilt w e _ _ h (.body ha q c c13)

theorem dispatchMessage_meets (R : TlsRules env I E) {w : TlsWork} {e : Epoch} {rest : Bytes} (h : I w e rest)
    (ha : w.session.hsActive) (hgot : w.session.hsLen ≤ w.session.hsGot) :
    Meets (dispatchMessage env rest w) (fun _ v => I v e rest) (fun rc v => E rc v) := by
  unfold dispatchMessage
  cases hd : tlsDispatch env { w with session := w.session.received } with
  | ok rc v => exact R.accepted w e rest rc v h ha hgot hd
  | error rc v => exact R.refused w e rest rc v h ha hgot hd

theorem hsFeed_meets (R : TlsRules env I E) {e : Epoch} (fuel : Nat) {p : Bytes} {w : TlsWork} (h : I w e p) :
    Meets (hsFeed env e fuel p w) (fun _ v => I v e []) (fun rc v => E rc v) := by
  induction fuel generalizing p w with
  | zero => exact R.skip w e p h
  | succ fuel ih =>
    unfold hsFeed
    by_cases hp : p = []
    · rw [if_pos hp]
      exact R.skip w e p h
    rw [if_neg hp, meets_bind]
    apply (headerBytes_meets R h).mono
    · intro p v hv
      rw [meets_bind, meets_session]
      by_cases ha : v.session.hsActive
      · rw [if_pos ha, meets_bind]
        apply (bodyBytes_meets R hv ha).mono
        · rintro p u ⟨hu, hua⟩
          rw [meets_bind, meets_session]
          by_cases hgot : u.session.hsGot < u.session.hsLen
          · rw [if_pos hgot]
            exact R.skip u e p hu
          · rw [if_neg hgot, meets_bind]
            apply (dispatchMessage_meets R hu hua (by omega)).mono
            · intro _ t ht
              exact ih ht
            · intro rc t ht
              exact ht
        · intro rc u hu
          exact hu
      · rw [if_neg ha]
        exact R.skip v e p hv
    · intro rc v hv
      exact hv

theorem openContent_meets (type : UInt8) (w : TlsWork) :
    Meets (openContent env type w) (fun _ v => ∃ s', Opened w.session s' ∧ v = { w with session := s' })
      (fun rc v => rc.isError ∧ ∃ s', Opened w.session s' ∧ v = { w with session := s' }) := by
  have hself : ∃ s', Opened w.session s' ∧ w = { w with session := s' } := ⟨_, .inl rfl, rfl⟩
  have hopen : ∃ s', Opened w.session s' ∧ w.upd TlsSession.opened = { w with session := s' } := ⟨_, .inr rfl, rfl⟩
  unfold openContent
  rw [meets_bind, meets_session]
  by_cases hv : w.session.version = 0x0303
  · rw [if_pos hv]
    by_cases hon : w.session.rd.on
    · rw [if_pos hon]
      unfold tls12Open
      simp only [meets_bind, meets_session, meets_refuse, meets_orRefuse, meets_update, meets_pure]
      exact ⟨fun _ => ⟨rfl, hself⟩, fun _ => ⟨fun _ => ⟨rfl, hself⟩, fun _ => ⟨fun _ => ⟨rfl, hself⟩, fun _ _ => hopen⟩⟩⟩
    · rw [if_neg hon]
      exact hself
  · rw [if_neg hv]
    by_cases hon : w.session.rd.on
    · rw [if_pos hon]
      unfold openRecord
      simp only [meets_bind, meets_session, meets_refuse, meets_orRefuse, meets_update]
      exact ⟨fun _ => ⟨rfl, hself⟩, fun _ => ⟨fun _ => ⟨rfl, hself⟩, fun _ => ⟨fun _ => ⟨rfl, hself⟩, fun _ _ =>
        ⟨fun _ => ⟨rfl, hopen⟩, fun _ _ => hopen⟩⟩⟩⟩
    · rw [if_neg hon]
      exact hself

/-- What every operation on a record keeps, `handle_record` keeps. -/
theorem handleRecord_meets (R : TlsRules env I E) {w : TlsWork} {e : Epoch} (h : I w e []) :
    Meets (handleRecord env w) (fun _ v => ∃ e', I v e' []) (fun rc v => E rc v) := by
  unfold handleRecord
  rw [meets_bind, meets_session]
  by_cases hccs : w.session.recBuf.headD 0 = rtCcs
  · rw [if_pos hccs]
    unfold onCcs
    simp only [meets_bind, meets_session, meets_refuse, meets_update]
    refine ⟨fun _ => R.failed w e _ _ h rfl, fun hok => ?_⟩
    simp only [ne_eq, not_or, Bool.not_eq_true] at hok
    have hc := R.ccs w e h hok.2.1 hok.2.2.1 hok.2.2.2
    unfold TlsSession.changed at hc
    by_cases hv : w.session.version = 0x0303
    · rw [if_pos hv] at hc ⊢
      exact ⟨e, hc⟩
    · rw [if_neg hv] at hc ⊢
      exact ⟨e, hc⟩
  · rw [if_neg hccs, meets_bind]
    apply (openContent_meets _ w).mono
    · rintro ⟨inner, p⟩ v ⟨s', hs', rfl⟩
      have hv := R.opened w e s' h hs' p
      by_cases h₁ : inner = rtAlert
      · rw [if_pos h₁]
        exact R.alert _ _ p hv
      rw [if_neg h₁]
      by_cases h₂ : inner = rtHs
      · rw [if_pos h₂]
        exact (hsFeed_meets R _ hv).mono (fun _ v hv => ⟨_, hv⟩) (fun _ _ h => h)
      rw [if_neg h₂]
      by_cases h₃ : inner = rtApp
      · rw [if_pos h₃]
        unfold deliver
        by_cases hst : s'.st = .ready
        · rw [if_neg (not_not.mpr hst)]
          by_cases hroom : w.appRoom < w.app.length + p.length
          · rw [if_pos hroom]
            exact R.failed _ _ _ _ hv rfl
          · rw [if_neg hroom]
            exact ⟨_, R.data _ _ p hv hst⟩
        · rw [if_pos hst]
          exact R.failed _ _ _ _ hv rfl
      · rw [if_neg h₃]
        exact R.failed _ _ _ _ hv rfl
    · rintro rc v ⟨hrc, s', hs', rfl⟩
      exact R.failed _ _ _ _ (R.opened w e s' h hs' []) hrc

end Rules

end Qanat

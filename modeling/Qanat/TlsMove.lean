import Qanat.TlsHelloFacts

namespace Qanat

open TlsHandler Outcome

/-- What a message that is accepted does to the flow of the session it meets. -/
inductive Accepts (env : TlsEnv) (s : TlsSession) : TlsRc → TlsFlow → Prop
  | retry (hty : s.hsType = hsServerHello) (hst : s.st = .waitSh) (hr : isHelloRetry s.hs)
      (hd : s.hrrDone = false) : Accepts env s .ok { s.flow with version := 0x0304, hrrDone := true }
  | hello12 (hty : s.hsType = hsServerHello) (hst : s.st = .waitSh) (hr : ¬ isHelloRetry s.hs) :
      Accepts env s .ok { s.flow with version := 0x0303, st := .waitCert, tls12Step := .expectCert }
  | hello13 (hty : s.hsType = hsServerHello) (hst : s.st = .waitSh) (hr : ¬ isHelloRetry s.hs)
      (hv : selectsTls13 s.hs) :
      Accepts env s .ok { s.flow with version := 0x0304, st := .waitEe, rdOn := true, epoch := .handshake }
  | extensions (hty : s.hsType = hsEncryptedExt) (hv : s.version ≠ 0x0303) (hst : s.st = .waitEe) :
      Accepts env s .ok { s.flow with st := .waitFin }
  | request (hty : s.hsType = hsCertReq) (hv : s.version ≠ 0x0303) (hst : s.st = .waitFin)
      (hr : s.certRequested = false) (hc : s.sawCertificate = false) :
      Accepts env s .ok { s.flow with certRequested := true }
  | certificate (hty : s.hsType = hsCert) (hv : s.version ≠ 0x0303) (hst : s.st = .waitFin)
      (hc : s.sawCertificate = false) (hcv : s.sawCertVerify = false) :
      Accepts env s .ok { s.flow with sawCertificate := true }
  | compressed (hty : s.hsType = hsCompressedCert) (hv : s.version ≠ 0x0303) (hst : s.st = .waitFin)
      (hc : s.sawCertificate = false) (hcv : s.sawCertVerify = false) :
      Accepts env s .ok { s.flow with certCompressed := true }
  | verify (hty : s.hsType = hsCertVerify) (hv : s.version ≠ 0x0303) (hst : s.st = .waitFin)
      (hc : s.sawCertificate ∨ s.certCompressed) (hcv : s.sawCertVerify = false) :
      Accepts env s .ok { s.flow with sawCertVerify := true }
  | finished (hty : s.hsType = hsFinished) (hv : s.version ≠ 0x0303) (hst : s.st = .waitFin)
      (hc : s.sawCertificate ∨ s.certCompressed) (hcv : s.sawCertVerify)
      (hx : finishedExpect13 env s = some s.hs) :
      Accepts env s .done { s.flow with st := .ready, rdOn := true, epoch := .application }
  | ticket (hty : s.hsType = hsNewTicket) (hv : s.version ≠ 0x0303) (hst : s.st = .ready) :
      Accepts env s .ok s.flow
  | certificate12 (hty : s.hsType = hsCert) (hv : s.version = 0x0303) (hst : s.st = .waitCert)
      (hstep : s.tls12Step = .expectCert) :
      Accepts env s .ok { s.flow with sawCertificate := true, tls12Step := .expectServerKx }
  | keyExchange12 (hty : s.hsType = hsServerKx) (hv : s.version = 0x0303) (hst : s.st = .waitCert)
      (hstep : s.tls12Step = .expectServerKx) :
      Accepts env s .ok { s.flow with tls12Step := .expectReqOrDone }
  | helloDone12 (hty : s.hsType = hsHelloDone) (hv : s.version = 0x0303) (hst : s.st = .waitCert)
      (hstep : s.tls12Step = .expectReqOrDone) :
      Accepts env s .ok { s.flow with st := .waitCcs, tls12Step := .flightDone }
  | finished12 (hty : s.hsType = hsFinished) (hv : s.version = 0x0303) (hst : s.st = .waitFin)
      (hx : finishedExpect12 env s = some s.hs) : Accepts env s .done { s.flow with st := .ready }
  | ticket12 (hty : s.hsType = hsNewTicket) (hv : s.version = 0x0303) (hst : s.st = .waitCcs) :
      Accepts env s .ok s.flow

/-- What a message that is refused may have done before. -/
structure Refuses (s : TlsSession) (rc : TlsRc) (f : TlsFlow) : Prop where
  st : f.st = s.st
  sawCertificate : f.sawCertificate = s.sawCertificate
  sawCertVerify : f.sawCertVerify = s.sawCertVerify
  hrrDone : f.hrrDone = s.hrrDone
  version : f.version = s.version ∨ s.st = .waitSh
  step : f.tls12Step = s.tls12Step ∨ s.st = .waitCert ∧ f.tls12Step = .flightDone
  compressed : f.certCompressed = s.certCompressed ∨
    rc = .unsupported ∧ f.certCompressed ∧ s.hsType = hsCompressedCert ∧ s.version ≠ 0x0303 ∧ s.st = .waitFin ∧ s.sawCertificate = false ∧
      s.sawCertVerify = false

theorem refuses_flow (s : TlsSession) (rc : TlsRc) : Refuses s rc s.flow :=
  ⟨rfl, rfl, rfl, rfl, .inl rfl, .inl rfl, .inl rfl⟩

/-- How the handler of a message ends. -/
def Settles (env : TlsEnv) (s : TlsSession) (w : TlsWork) (r : EStateM.Result TlsRc TlsWork TlsRc) : Prop :=
  Meets r (fun rc v => ∃ f, Accepts env s rc f ∧ Moved w f v)
    (fun rc v => rc.isError ∧ ∃ f, Refuses s rc f ∧ Moved w f v)

section Handlers

variable {env : TlsEnv} {w v : TlsWork}

theorem Unmoved.refused {rc : TlsRc} (hrc : rc.isError) (h : Unmoved w v) :
    rc.isError ∧ ∃ f, Refuses w.session rc f ∧ Moved w f v :=
  ⟨hrc, w.session.flow, refuses_flow _ rc, h⟩

theorem refused_here {rc : TlsRc} (hrc : rc.isError) : rc.isError ∧ ∃ f, Refuses w.session rc f ∧ Moved w f w :=
  Unmoved.refused hrc (unmoved_refl w)

theorem onCertificateRequest_settles (hty : w.session.hsType = hsCertReq) (hv : w.session.version ≠ 0x0303) :
    Settles env w.session w (onCertificateRequest w) := by
  unfold Settles onCertificateRequest
  simp only [meets_bind, meets_session, meets_refuse]
  refine ⟨fun _ => refused_here rfl, fun h => ⟨fun _ => refused_here rfl, fun _ => ?_⟩⟩
  simp only [ne_eq, not_or, not_not, Bool.not_eq_true] at h
  apply (calm_of_still (still_lastBlock _) w).mono
  · intro block v hq
    apply (calm_of_still (frames_extBlock (fun _ _ _ => Within.pure ()) block ()) v).mono
    · intro _ u hu
      have hwu := hq.trans hu
      refine ⟨_, .request hty hv h.1 h.2.1 h.2.2.1, ?_, hwu.past, hwu.app, hwu.done⟩
      have hf := hwu.flow
      simp_all
    · rintro rc u ⟨hrc, hu⟩
      exact (hq.trans hu).refused hrc
  · rintro rc v ⟨hrc, hq⟩
    exact hq.refused hrc

theorem onEncryptedExtensions_settles (hty : w.session.hsType = hsEncryptedExt)
    (hv : w.session.version ≠ 0x0303) : Settles env w.session w (onEncryptedExtensions w) := by
  unfold Settles onEncryptedExtensions
  simp only [meets_bind, meets_session, meets_refuse]
  refine ⟨fun _ => refused_here rfl, fun h => ?_⟩
  simp only [ne_eq, not_or, not_not] at h
  apply (calm_of_still (still_lastBlock _) w).mono
  · intro block v hq
    apply (calm_of_still (frames_extBlock still_encryptedExt block ()) v).mono
    · intro _ u hu
      have hwu := hq.trans hu
      refine ⟨fun _ => hwu.refused rfl, fun _ => ?_⟩
      refine ⟨_, .extensions hty hv h.1, ?_, hwu.past, hwu.app, hwu.done⟩
      have hf := hwu.flow
      simp_all
    · rintro rc u ⟨hrc, hu⟩
      exact (hq.trans hu).refused hrc
  · rintro rc v ⟨hrc, hq⟩
    exact hq.refused hrc

theorem readIdentity_flow (env : TlsEnv) (s : TlsSession) (tls13 : Bool) : (s.readIdentity env tls13).flow = s.flow := by
  unfold TlsSession.readIdentity
  split
  next => rfl
  next => rfl

theorem readIdentity_past (s : TlsSession) (tls13 : Bool) : (s.readIdentity env tls13).past = s.past := by
  unfold TlsSession.readIdentity
  split
  next => rfl
  next => rfl

theorem onCertificate_settles (hty : w.session.hsType = hsCert) (hv : w.session.version ≠ 0x0303) :
    Settles env w.session w (onCertificate env w) := by
  unfold Settles onCertificate
  simp only [meets_bind, meets_session, meets_refuse, meets_update, meets_pure]
  refine ⟨fun _ => refused_here rfl, fun h => ⟨fun _ => refused_here rfl, fun _ => ?_⟩⟩
  simp only [ne_eq, not_or, not_not, Bool.not_eq_true] at h
  refine ⟨_, .certificate hty hv h.1 h.2.1 h.2.2, ?_, readIdentity_past w.session true, rfl, rfl⟩
  have hf := readIdentity_flow env w.session true
  simp_all

theorem onCompressedCertificate_settles (hty : w.session.hsType = hsCompressedCert)
    (hv : w.session.version ≠ 0x0303) : Settles env w.session w (onCompressedCertificate w) := by
  unfold Settles onCompressedCertificate
  simp only [meets_bind, meets_session, meets_refuse, meets_update, meets_pure]
  refine ⟨fun _ => refused_here rfl, fun h => ⟨fun _ => refused_here rfl, fun _ => ⟨fun _ => refused_here rfl,
    fun _ => ⟨fun _ => refused_here rfl, fun _ => ⟨fun _ => refused_here rfl, fun _ => ?_⟩⟩⟩⟩⟩
  simp only [ne_eq, not_or, not_not, Bool.not_eq_true] at h
  refine ⟨fun _ => ?_, fun _ => ?_⟩
  · refine ⟨rfl, { w.session.flow with certCompressed := true }, ?_, rfl, rfl, rfl, rfl⟩
    exact ⟨rfl, rfl, rfl, rfl, .inl rfl, .inl rfl, .inr ⟨rfl, rfl, hty, hv, h.1, h.2.1, h.2.2⟩⟩
  · exact ⟨_, .compressed hty hv h.1 h.2.1 h.2.2, rfl, rfl, rfl, rfl⟩

theorem onCertificateVerify_settles (hty : w.session.hsType = hsCertVerify) (hv : w.session.version ≠ 0x0303) :
    Settles env w.session w (onCertificateVerify w) := by
  unfold Settles onCertificateVerify
  simp only [meets_bind, meets_session, meets_refuse, meets_update, meets_pure]
  refine ⟨fun _ => refused_here rfl, fun h => ⟨fun _ => refused_here rfl, fun _ => ⟨fun _ => refused_here rfl,
    fun _ => ?_⟩⟩⟩
  simp only [ne_eq, not_or, not_and_or, not_not, Bool.not_eq_true, Bool.not_eq_false] at h
  exact ⟨_, .verify hty hv h.1 h.2.1 h.2.2.1, rfl, rfl, rfl, rfl⟩

theorem onNewTicket_settles (hty : w.session.hsType = hsNewTicket) (hv : w.session.version ≠ 0x0303) :
    Settles env w.session w (onNewTicket w) := by
  unfold Settles onNewTicket
  simp only [meets_bind, meets_session, meets_refuse, meets_pure]
  refine ⟨fun _ => refused_here rfl, fun h => ?_⟩
  exact ⟨_, .ticket hty hv (not_not.mp h), rfl, rfl, rfl, rfl⟩

theorem onKeyUpdate_settles : Settles env w.session w (onKeyUpdate w) := by
  unfold Settles onKeyUpdate
  simp only [meets_bind, meets_session, meets_refuse, meets_throw]
  exact ⟨fun _ => refused_here rfl, fun _ => ⟨fun _ => refused_here rfl, fun _ => refused_here rfl⟩⟩

theorem deriveKeys_on {s : TlsSession} {k : TlsKeys} {secret : Bytes} {e : Epoch}
    (h : (deriveKeys env s k secret e).on) : (deriveKeys env s k secret e).epoch = e := by
  unfold deriveKeys at h ⊢
  split at h
  next => exact absurd h (by simp)
  next =>
    split at h
    next => exact absurd h (by simp)
    next =>
      split at h
      next => exact absurd h (by simp)
      next => simp_all

/-- A flow but for the read key. -/
def TlsFlow.withRead (f : TlsFlow) (on : Bool) (e : Epoch) : TlsFlow :=
  { f with rdOn := on, epoch := e }

theorem setRead_meets (secret : Bytes) (e : Epoch) : Meets (setRead env secret e w)
    (fun _ v => Moved w (w.session.flow.withRead true e) v)
    (fun rc v => rc.isError ∧ ∃ on e', Moved w (w.session.flow.withRead on e') v) := by
  unfold setRead
  simp only [meets_bind, meets_update, meets_session, meets_refuse]
  refine ⟨fun _ => ⟨rfl, _, _, rfl, rfl, rfl, rfl⟩, fun h => ⟨?_, rfl, rfl, rfl⟩⟩
  have hon := not_not.mp h
  have he := deriveKeys_on hon
  simp_all [TlsFlow.withRead]

theorem Refuses.withRead {s : TlsSession} {rc : TlsRc} {f : TlsFlow} (h : Refuses s rc f) (on : Bool) (e : Epoch) :
    Refuses s rc (f.withRead on e) :=
  ⟨h.st, h.sawCertificate, h.sawCertVerify, h.hrrDone, h.version, h.step, h.compressed⟩

theorem Unmoved.moved {f : TlsFlow → TlsFlow} {u : TlsWork} (hq : Unmoved w v) (h : Moved v (f v.session.flow) u) :
    Moved w (f w.session.flow) u := by
  have hf : v.session.flow = w.session.flow := hq.flow
  rw [hf] at h
  exact Moved.trans hq h

theorem sendClientFlight_meets : Meets (sendClientFlight env w)
    (fun rc v => rc = .done ∧ Moved w { w.session.flow with st := .ready, rdOn := true, epoch := .application } v)
    (fun rc v => rc.isError ∧ ∃ on e, Moved w (w.session.flow.withRead on e) v) := by
  have hself : ∀ {v : TlsWork}, Unmoved w v → ∃ on e, Moved w (w.session.flow.withRead on e) v :=
    fun h => ⟨_, _, h⟩
  unfold sendClientFlight
  simp only [meets_bind, meets_session, meets_needRoom]
  refine ⟨fun _ => ⟨rfl, hself (unmoved_refl w)⟩, fun _ => ?_⟩
  apply (calm_of_still (still_scheduleApplication env) w).mono
  · intro ap v hv
    simp only [meets_emit]
    have hv' : Unmoved w (v.emitted ccsRecord) := (unmoved_emitted _).mpr hv
    apply (calm_sendEmptyCert env _ _).mono
    · intro _ u hu
      have hu' := hv'.trans hu
      apply (calm_sendFinished env u).mono
      · intro _ t ht
        have ht' := hu'.trans ht
        apply (calm_setWrite env _ _ t).mono
        · intro _ x hx
          have hx' := ht'.trans hx
          apply (setRead_meets _ _).mono
          · intro _ y hy
            simp only [meets_update, meets_pure, true_and]
            have hy' := hx'.moved (f := fun f => f.withRead true .application) hy
            refine ⟨?_, hy'.past, hy'.app, hy'.done⟩
            have hf := hy'.flow
            simp_all [TlsFlow.withRead]
          · rintro rc y ⟨hrc, on, e, hy⟩
            exact ⟨hrc, on, e, hx'.moved (f := fun f => f.withRead on e) hy⟩
        · rintro rc x ⟨hrc, hx⟩
          exact ⟨hrc, hself (ht'.trans hx)⟩
      · rintro rc t ⟨hrc, ht⟩
        exact ⟨hrc, hself (hu'.trans ht)⟩
    · rintro rc u ⟨hrc, hu⟩
      exact ⟨hrc, hself (hv'.trans hu)⟩
  · rintro rc v ⟨hrc, hv⟩
    exact ⟨hrc, hself hv⟩

theorem onServerFinished_settles (hty : w.session.hsType = hsFinished) (hv : w.session.version ≠ 0x0303) :
    Settles env w.session w (onServerFinished env w) := by
  unfold Settles onServerFinished
  simp only [meets_bind, meets_session, meets_refuse, meets_orRefuse]
  refine ⟨fun _ => refused_here rfl, fun hst => ⟨fun _ => refused_here rfl, fun h => ⟨fun _ => refused_here rfl,
    fun expect hx => ⟨fun _ => refused_here rfl, fun heq => ?_⟩⟩⟩⟩
  simp only [ne_eq, not_or, not_and_or, not_not] at h
  apply sendClientFlight_meets.mono
  · rintro rc v ⟨rfl, hm⟩
    refine ⟨_, .finished hty hv (not_not.mp hst) h.1 h.2.1 ?_, hm⟩
    rw [hx, not_not.mp heq]
  · rintro rc v ⟨hrc, on, e, hm⟩
    exact ⟨hrc, _, (refuses_flow _ _).withRead on e, hm⟩

theorem onCertificate12_settles (hty : w.session.hsType = hsCert) (hv : w.session.version = 0x0303) :
    Settles env w.session w (onCertificate12 env w) := by
  unfold Settles onCertificate12
  simp only [meets_bind, meets_session, meets_refuse, meets_update, meets_pure]
  refine ⟨fun _ => refused_here rfl, fun h => ⟨fun _ => refused_here rfl, fun _ => ?_⟩⟩
  simp only [ne_eq, not_or, not_not] at h
  refine ⟨_, .certificate12 hty hv h.1 h.2, ?_, readIdentity_past w.session false, rfl, rfl⟩
  have hf := readIdentity_flow env w.session false
  simp_all

theorem onCertificateRequest12_settles : Settles env w.session w (onCertificateRequest12 w) := by
  unfold Settles onCertificateRequest12
  simp only [meets_bind, meets_session, meets_refuse, meets_update, meets_throw]
  refine ⟨fun _ => refused_here rfl, fun _ => ⟨rfl, { w.session.flow with certRequested := true }, ?_, rfl, rfl,
    rfl, rfl⟩⟩
  exact ⟨rfl, rfl, rfl, rfl, .inl rfl, .inl rfl, .inl rfl⟩

theorem onServerKx12_settles (hty : w.session.hsType = hsServerKx) (hv : w.session.version = 0x0303) :
    Settles env w.session w (onServerKx12 w) := by
  unfold Settles onServerKx12
  simp only [meets_bind, meets_session, meets_refuse]
  refine ⟨fun _ => refused_here rfl, fun h => ?_⟩
  simp only [ne_eq, not_or, not_not] at h
  apply (calm_onServerKx w).mono
  · intro _ v hq
    refine ⟨_, .keyExchange12 hty hv h.1 h.2, ?_, hq.past, hq.app, hq.done⟩
    have hf := hq.flow
    simp_all
  · rintro rc v ⟨hrc, hq⟩
    exact hq.refused hrc

/-- A flow whose TLS 1.2 server flight is over. -/
def TlsFlow.flightOver (f : TlsFlow) : TlsFlow :=
  { f with tls12Step := .flightDone }

theorem onHelloDone_meets : Meets (onHelloDone env w)
    (fun rc v => rc = .ok ∧ Moved w { w.session.flow with st := .waitCcs } v)
    (fun rc v => rc.isError ∧ Unmoved w v) := by
  have here : ∀ {rc : TlsRc}, rc.isError → rc.isError ∧ Unmoved w w := fun h => ⟨h, unmoved_refl w⟩
  unfold onHelloDone
  simp only [meets_bind, meets_session, meets_refuse, meets_orRefuse, meets_needRoom, meets_emit, meets_update]
  refine ⟨fun _ => here rfl, fun _ => ⟨fun _ => here rfl, fun pub _ => ⟨fun _ => here rfl, fun _ => ?_⟩⟩⟩
  refine ⟨fun _ => ⟨rfl, by simp⟩, fun pms _ => ?_⟩
  apply (calm_of_still (still_masterSecret env pms) _).mono
  · intro _ v hv
    have hv' : Unmoved w v := Unmoved.trans (by simp) hv
    apply (calm_keyBlock env v).mono
    · intro _ u hu
      have hu' := hv'.trans hu
      apply (calm_tls12SendFinished env u).mono
      · intro _ t ht
        have ht' := hu'.trans ht
        refine ⟨rfl, ?_, ht'.past, ht'.app, ht'.done⟩
        have hf := ht'.flow
        simp_all
      · rintro rc t ⟨hrc, ht⟩
        exact ⟨hrc, hu'.trans ht⟩
    · rintro rc u ⟨hrc, hu⟩
      exact ⟨hrc, hv'.trans hu⟩
  · rintro rc v ⟨hrc, hv⟩
    exact ⟨hrc, Unmoved.trans (by simp) hv⟩

theorem onHelloDone12_settles (hty : w.session.hsType = hsHelloDone) (hv : w.session.version = 0x0303) :
    Settles env w.session w (onHelloDone12 env w) := by
  unfold Settles onHelloDone12
  simp only [meets_bind, meets_session, meets_refuse, meets_update]
  refine ⟨fun _ => refused_here rfl, fun h => ⟨fun _ => refused_here rfl, fun _ => ?_⟩⟩
  simp only [ne_eq, not_or, not_not] at h
  apply onHelloDone_meets.mono
  · rintro rc v ⟨rfl, hm⟩
    exact ⟨_, .helloDone12 hty hv h.1 h.2, hm.flow, hm.past, hm.app, hm.done⟩
  · rintro rc v ⟨hrc, hq⟩
    refine ⟨hrc, w.session.flow.flightOver, ?_, hq.flow, hq.past, hq.app, hq.done⟩
    exact ⟨rfl, rfl, rfl, rfl, .inl rfl, .inr ⟨h.1, rfl⟩, .inl rfl⟩

theorem onServerFinished12_settles (hty : w.session.hsType = hsFinished) (hv : w.session.version = 0x0303) :
    Settles env w.session w (onServerFinished12 env w) := by
  unfold Settles onServerFinished12
  simp only [meets_bind, meets_session, meets_refuse, meets_orRefuse, meets_update, meets_pure]
  refine ⟨fun _ => refused_here rfl, fun hst => ⟨fun _ => refused_here rfl, fun _ => ⟨fun _ => refused_here rfl,
    fun expect hx => ⟨fun _ => refused_here rfl, fun heq => ?_⟩⟩⟩⟩
  refine ⟨_, .finished12 hty hv (not_not.mp hst) ?_, rfl, rfl, rfl, rfl⟩
  rw [hx, not_not.mp heq]

theorem onNewTicket12_settles (hty : w.session.hsType = hsNewTicket) (hv : w.session.version = 0x0303) :
    Settles env w.session w (onNewTicket12 w) := by
  unfold Settles onNewTicket12
  simp only [meets_bind, meets_session, meets_refuse, meets_pure]
  refine ⟨fun _ => refused_here rfl, fun h => ⟨fun _ => refused_here rfl, fun _ => ?_⟩⟩
  simp only [ne_eq, not_or, not_not] at h
  exact ⟨_, .ticket12 hty hv h.1, rfl, rfl, rfl, rfl⟩

theorem sendSecondClientHello_meets : Meets (sendSecondClientHello env w)
    (fun rc v => rc = .ok ∧ Moved w { w.session.flow with hrrDone := true } v)
    (fun rc v => rc.isError ∧ Unmoved w v) := by
  unfold sendSecondClientHello
  simp only [meets_bind, meets_session, meets_hasOut, meets_refuse, meets_orRefuse, meets_needRoom, meets_emit,
    meets_update, meets_pure]
  refine ⟨fun _ => ⟨rfl, unmoved_refl w⟩, fun _ => ⟨fun _ => ⟨rfl, by simp⟩, fun info _ => ⟨fun _ => ⟨rfl, by simp⟩,
    fun _ => ⟨fun _ => ⟨rfl, by simp⟩, fun _ => ⟨trivial, ?_⟩⟩⟩⟩⟩
  constructor
  · unfold TlsSession.flow
    dsimp only [TlsWork.upd, TlsWork.emitted, TlsSession.shook]
  · unfold TlsSession.past
    dsimp only [TlsWork.upd, TlsWork.emitted, TlsSession.shook]
  · rfl
  · rfl

/-- A flow of a given version. -/
def TlsFlow.atVersion (f : TlsFlow) (version : Nat) : TlsFlow :=
  { f with version := version }

theorem refuses_atVersion {s : TlsSession} {rc : TlsRc} (hst : s.st = .waitSh) (version : Nat) :
    Refuses s rc (s.flow.atVersion version) :=
  ⟨rfl, rfl, rfl, rfl, .inr hst, .inl rfl, .inl rfl⟩

theorem Moved.refused {f : TlsFlow} {rc : TlsRc} (h : Moved w f v) (hrc : rc.isError)
    (hf : Refuses w.session rc f) : rc.isError ∧ ∃ f, Refuses w.session rc f ∧ Moved w f v :=
  ⟨hrc, f, hf, h⟩

theorem keyExchangeSecret_error {s : TlsSession} {group : Nat} {peer : Bytes} {rc : TlsRc}
    (h : keyExchangeSecret env s group peer = .error rc) : rc.isError := by
  unfold keyExchangeSecret at h
  repeat' split at h
  all_goals cases h <;> rfl

theorem handshakeKeys_meets (sh : ServerHello) : Meets (handshakeKeys env sh w)
    (fun rc v => rc = .ok ∧ Moved w { w.session.flow.withRead true .handshake with st := .waitEe } v)
    (fun rc v => rc.isError ∧ ∃ on e, Moved w (w.session.flow.withRead on e) v) := by
  have hself : ∀ {v : TlsWork}, Unmoved w v → ∃ on e, Moved w (w.session.flow.withRead on e) v :=
    fun h => ⟨_, _, h⟩
  unfold handshakeKeys
  simp only [meets_bind, meets_session, meets_lift, meets_orRefuse, meets_update]
  refine ⟨fun rc hrc => ⟨?_, hself (unmoved_refl w)⟩, fun shared _ => ⟨fun _ => ⟨rfl, hself (by simp)⟩, fun derived _ =>
    ⟨fun _ => ⟨rfl, hself (by simp)⟩, fun c _ => ⟨fun _ => ⟨rfl, hself (by simp)⟩, fun t _ => ?_⟩⟩⟩⟩
  · exact keyExchangeSecret_error hrc
  · generalize hx : TlsWork.upd _ _ = x
    have hq : Unmoved w x := by
      rw [← hx]
      simp
    apply (setRead_meets _ _).mono
    · intro _ v hv
      have hv' := hq.moved (f := fun f => f.withRead true .handshake) hv
      apply (calm_setWrite env _ _ v).mono
      · intro _ u hu
        have hu' : Moved w (w.session.flow.withRead true .handshake) u := by
          have hf := hu.flow.trans hv'.flow
          exact ⟨hf, hu.past.trans hv'.past, hu.app.trans hv'.app, hu.done.trans hv'.done⟩
        refine ⟨rfl, ?_, hu'.past, hu'.app, hu'.done⟩
        have hf := hu'.flow
        simp_all [TlsFlow.withRead]
      · rintro rc u ⟨hrc, hu⟩
        exact ⟨hrc, true, .handshake, hu.flow.trans hv'.flow, hu.past.trans hv'.past, hu.app.trans hv'.app,
          hu.done.trans hv'.done⟩
    · rintro rc v ⟨hrc, on, e, hv⟩
      exact ⟨hrc, on, e, hq.moved (f := fun f => f.withRead on e) hv⟩

theorem onHelloRetry_settles {sh : ServerHello} (hq : Unmoved w v) (hr : ReadHello w.session sh)
    (hty : w.session.hsType = hsServerHello) (hhrr : sh.isHrr) : Settles env w.session w (onHelloRetry env sh v) := by
  unfold Settles onHelloRetry
  simp only [meets_bind, meets_session, meets_refuse]
  refine ⟨fun _ => hq.refused rfl, fun _ => ?_⟩
  apply (calm_adoptSuite _ rfl v).mono
  · intro _ u hu
    have hu' := hq.trans hu
    simp only [meets_update]
    have hm : Moved w (w.session.flow.atVersion 0x0304)
        (u.upd fun s => { s with version := 0x0304, hrrSuite := s.suite }) := by
      refine ⟨?_, hu'.past, hu'.app, hu'.done⟩
      have hf := hu'.flow
      simp_all [TlsFlow.atVersion]
    apply sendSecondClientHello_meets.mono
    · rintro rc t ⟨rfl, ht⟩
      refine ⟨_, .retry hty hr.st ?_ (hr.hrrOnce hhrr), ?_, ht.past.trans hm.past, ht.app.trans hm.app,
        ht.done.trans hm.done⟩
      · rw [← hr.isHrr]
        exact hhrr
      · rw [ht.flow, hm.flow]
        rfl
    · rintro rc t ⟨hrc, ht⟩
      have hm' : Moved w (w.session.flow.atVersion 0x0304) t :=
        ⟨ht.flow.trans hm.flow, ht.past.trans hm.past, ht.app.trans hm.app, ht.done.trans hm.done⟩
      exact hm'.refused hrc (refuses_atVersion hr.st _)
  · rintro rc u ⟨hrc, hu⟩
    exact (hq.trans hu).refused hrc

theorem selectVersion_meets (sh : ServerHello) : Meets (selectVersion sh w)
    (fun version v => Unmoved w v ∧ (version = 0x0303 ∨ version = 0x0304 ∧ sh.exts.haveVersion ∧ sh.exts.selVer = 0x0304))
    (fun rc v => rc.isError ∧ Unmoved w v) := by
  unfold selectVersion
  by_cases hv : sh.exts.haveVersion
  · rw [if_neg (not_not.mpr hv)]
    by_cases hs : sh.exts.selVer = 0x0304
    · rw [if_pos hs]
      simp [selectTls13, adoptSuite, hv, hs]
    · rw [if_neg hs]
      simp
  · rw [if_pos hv]
    simp [selectTls12, adoptSuite]

theorem startTranscript_flow (s : TlsSession) : s.startTranscript.flow = s.flow := by
  unfold TlsSession.startTranscript
  split
  next => rfl
  next => rfl

theorem startTranscript_past (s : TlsSession) : s.startTranscript.past = s.past := by
  unfold TlsSession.startTranscript
  split
  next => rfl
  next => rfl

theorem onServerHello_settles (hty : w.session.hsType = hsServerHello) :
    Settles env w.session w (onServerHello env w) := by
  unfold Settles onServerHello
  rw [meets_bind]
  apply (readServerHello_meets w).mono
  · rintro sh v ⟨hq, hr⟩
    by_cases hhrr : sh.isHrr
    · rw [if_pos hhrr]
      exact onHelloRetry_settles hq hr hty hhrr
    · rw [if_neg hhrr, meets_bind]
      have hnot : ¬ isHelloRetry w.session.hs := by
        rw [← hr.isHrr]
        exact hhrr
      apply (selectVersion_meets sh).mono
      · rintro version u ⟨hu, hsel⟩
        have hu' := hq.trans hu
        simp only [meets_bind, meets_update]
        generalize hx : TlsWork.upd _ _ = x
        have hm : Moved w (w.session.flow.atVersion version) x := by
          rw [← hx]
          refine ⟨?_, ?_, hu'.app, hu'.done⟩
          · rw [upd_session, startTranscript_flow]
            have hf := hu'.flow
            simp_all [TlsFlow.atVersion]
          · rw [upd_session, startTranscript_past]
            exact hu'.past
        by_cases h12 : version = 0x0303
        · rw [if_pos h12]
          subst h12
          refine ⟨_, .hello12 hty hr.st hnot, ?_, hm.past, hm.app, hm.done⟩
          have hf := hm.flow
          simp_all [TlsFlow.atVersion]
        · rw [if_neg h12]
          obtain ⟨rfl, hv, hs⟩ := hsel.resolve_left h12
          apply (handshakeKeys_meets sh).mono
          · rintro rc t ⟨rfl, ht⟩
            refine ⟨_, .hello13 hty hr.st hnot (hr.version hv hs), ?_, ht.past.trans hm.past, ht.app.trans hm.app,
              ht.done.trans hm.done⟩
            rw [ht.flow, hm.flow]
            rfl
          · rintro rc t ⟨hrc, on, e, ht⟩
            refine ⟨hrc, _, (refuses_atVersion hr.st 0x0304).withRead on e, ?_, ht.past.trans hm.past,
              ht.app.trans hm.app, ht.done.trans hm.done⟩
            rw [ht.flow, hm.flow]
      · rintro rc u ⟨hrc, hu⟩
        exact (hq.trans hu).refused hrc
  · rintro rc v ⟨hrc, hq⟩
    exact hq.refused hrc

theorem tls12Dispatch_settles (hv : w.session.version = 0x0303) :
    Settles env w.session w (tls12Dispatch env w.session.hsType w) := by
  unfold tls12Dispatch
  by_cases h₁ : w.session.hsType = hsCert
  · rw [if_pos h₁]
    exact onCertificate12_settles h₁ hv
  rw [if_neg h₁]
  by_cases h₂ : w.session.hsType = hsCertReq
  · rw [if_pos h₂]
    exact onCertificateRequest12_settles
  rw [if_neg h₂]
  by_cases h₃ : w.session.hsType = hsServerKx
  · rw [if_pos h₃]
    exact onServerKx12_settles h₃ hv
  rw [if_neg h₃]
  by_cases h₄ : w.session.hsType = hsHelloDone
  · rw [if_pos h₄]
    exact onHelloDone12_settles h₄ hv
  rw [if_neg h₄]
  by_cases h₅ : w.session.hsType = hsFinished
  · rw [if_pos h₅]
    exact onServerFinished12_settles h₅ hv
  rw [if_neg h₅]
  by_cases h₆ : w.session.hsType = hsNewTicket
  · rw [if_pos h₆]
    exact onNewTicket12_settles h₆ hv
  rw [if_neg h₆]
  exact refused_here rfl

theorem tls13Dispatch_settles (hv : w.session.version ≠ 0x0303) :
    Settles env w.session w (tls13Dispatch env w.session.hsType w) := by
  unfold tls13Dispatch
  by_cases h₁ : w.session.hsType = hsEncryptedExt
  · rw [if_pos h₁]
    exact onEncryptedExtensions_settles h₁ hv
  rw [if_neg h₁]
  by_cases h₂ : w.session.hsType = hsCert
  · rw [if_pos h₂]
    exact onCertificate_settles h₂ hv
  rw [if_neg h₂]
  by_cases h₃ : w.session.hsType = hsCompressedCert
  · rw [if_pos h₃]
    exact onCompressedCertificate_settles h₃ hv
  rw [if_neg h₃]
  by_cases h₄ : w.session.hsType = hsCertReq
  · rw [if_pos h₄]
    exact onCertificateRequest_settles h₄ hv
  rw [if_neg h₄]
  by_cases h₅ : w.session.hsType = hsCertVerify
  · rw [if_pos h₅]
    exact onCertificateVerify_settles h₅ hv
  rw [if_neg h₅]
  by_cases h₆ : w.session.hsType = hsFinished
  · rw [if_pos h₆]
    exact onServerFinished_settles h₆ hv
  rw [if_neg h₆]
  by_cases h₇ : w.session.hsType = hsNewTicket
  · rw [if_pos h₇]
    exact onNewTicket_settles h₇ hv
  rw [if_neg h₇]
  by_cases h₈ : w.session.hsType = hsKeyUpdate
  · rw [if_pos h₈]
    exact onKeyUpdate_settles
  rw [if_neg h₈]
  exact refused_here rfl

/-- Every message is either accepted in one of the ways of `Accepts` or refused. -/
theorem tlsDispatch_settles (env : TlsEnv) (w : TlsWork) : Settles env w.session w (tlsDispatch env w) := by
  unfold tlsDispatch Settles
  rw [meets_bind, meets_session]
  by_cases hty : w.session.hsType = hsServerHello
  · rw [if_pos hty]
    exact onServerHello_settles hty
  rw [if_neg hty]
  by_cases hv : w.session.version = 0x0303
  · rw [if_pos hv]
    exact tls12Dispatch_settles hv
  · rw [if_neg hv]
    exact tls13Dispatch_settles hv

end Handlers

end Qanat

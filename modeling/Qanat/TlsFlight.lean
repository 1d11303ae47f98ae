import Qanat.TlsReady

namespace Qanat

open TlsHandler Outcome

/-- The handshake messages that were accepted. -/
def shakes (log : List Entry) : List Kind :=
  (taken log).filter (· ≠ .ccs)

/-- The flight of a TLS 1.3 server up to its Finished, as the flags of the session have it. -/
def flight13 (f : TlsFlow) : List Kind :=
  retryPart f.hrrDone ++ [Kind.hello, Kind.extensions] ++ (if f.certRequested then [Kind.request] else []) ++
    (if f.sawCertificate then [Kind.cert] else if f.certCompressed then [Kind.compressed] else []) ++
    (if f.sawCertVerify then [Kind.verify] else [])

/-- A legal flight of a TLS 1.3 server, with the certificate message `c`, and the tickets after it. -/
def LegalFlight (c : Kind) (l : List Kind) : Prop :=
  ∃ retry request : Bool, ∃ n,
    l = retryPart retry ++ [Kind.hello, Kind.extensions] ++ (if request then [Kind.request] else []) ++ [c, .verify, .finished] ++
      List.replicate n Kind.ticket

/-- How far a session of TLS 1.3 has come. -/
def Shape13 (f : TlsFlow) (l : List Kind) : Prop :=
  match f.st with
  | .new => l = retryPart f.hrrDone
  | .waitSh => l = retryPart f.hrrDone
  | .waitEe => l = retryPart f.hrrDone ++ [.hello]
  | .waitFin => f.version ≠ 0x0303 → l = flight13 f
  | .ready => f.version ≠ 0x0303 → f.sawCertVerify ∧ ∃ n, l = flight13 f ++ [.finished] ++ List.replicate n .ticket
  | _ => True

/-- Whether a message that has no place after a CompressedCertificate came after one. -/
def Message.AfterCompressed (m : Message) : Prop :=
  m.compressed ∧ (m.type = hsCert ∨ m.type = hsCompressedCert ∨ m.type = hsCertReq)

instance (m : Message) : Decidable m.AfterCompressed :=
  inferInstanceAs (Decidable (_ ∧ _))

/-- Whether no certificate message and no CertificateRequest came after a CompressedCertificate. -/
def spared (log : List Entry) : Bool :=
  log.all fun
    | .message m => ¬ m.AfterCompressed
    | _ => true

/-- What the flags of a session say about the flight. -/
structure InFlight (f : TlsFlow) (l : List Kind) : Prop where
  fresh : f.st = .new ∨ f.st = .waitSh ∨ f.st = .waitEe →
    f.certRequested = false ∧ f.sawCertificate = false ∧ f.certCompressed = false ∧ f.sawCertVerify = false
  one : f.sawCertificate → f.certCompressed = false
  verified : f.sawCertVerify → f.sawCertificate ∨ f.certCompressed
  shape : Shape13 f l

/-- What holds of a session that is ready. -/
def FlightDone (f : TlsFlow) (l : List Kind) : Prop :=
  f.st = .ready → f.version ≠ 0x0303 →
    (f.sawCertificate ∧ f.certCompressed = false ∧ LegalFlight .cert l) ∨
    (f.sawCertificate = false ∧ f.certCompressed ∧ LegalFlight .compressed l)

theorem InFlight.done {f : TlsFlow} {l : List Kind} (h : InFlight f l) : FlightDone f l := by
  intro hst hv
  have hshape := h.shape
  simp only [Shape13, hst] at hshape
  obtain ⟨hcv, n, rfl⟩ := hshape hv
  by_cases hc : f.sawCertificate
  · refine .inl ⟨hc, h.one hc, f.hrrDone, f.certRequested, n, ?_⟩
    simp [flight13, hc, hcv]
  · have hcc := (h.verified hcv).resolve_left hc
    refine .inr ⟨by simpa using hc, hcc, f.hrrDone, f.certRequested, n, ?_⟩
    simp [flight13, hc, hcc, hcv]

@[simp] theorem shakes_append (l k : List Entry) : shakes (l ++ k) = shakes l ++ shakes k := by
  simp [shakes]

theorem shakes_accepted {m : Message} {k : Kind} (hrc : m.rc.isError = false) (hk : m.kind = some k) :
    shakes [.message m] = [k] := by
  have hne : k ≠ .ccs := by
    rintro rfl
    exact kindOf_ne (by decide) hk
  simp [shakes, taken_accepted hrc hk, hne]

theorem shakes_refused {m : Message} (hrc : m.rc.isError) : shakes [.message m] = [] := by
  simp [shakes, taken_refused hrc]

section Accepted

variable {env : TlsEnv} {s : TlsSession} {rc : TlsRc} {f : TlsFlow}

theorem not_compressed {left : Bytes} (hm : ¬ (s.message env left rc).AfterCompressed)
    (hty : s.hsType = hsCert ∨ s.hsType = hsCompressedCert ∨ s.hsType = hsCertReq) : s.certCompressed = false := by
  by_contra hcc
  exact hm ⟨eq_true_of_ne_false hcc, hty⟩

theorem Accepts.shape (h : Accepts env s rc f) (left : Bytes) (ho : InFlight s.flow (shakes s.log))
    (hm : ¬ (s.message env left rc).AfterCompressed) :
    Shape13 f (shakes (s.log ++ [Entry.message (s.message env left rc)])) := by
  have hrc := h.isError
  have hold := ho.shape
  have hone := ho.one
  have hver := ho.verified
  have hfresh := ho.fresh
  rw [shakes_append]
  cases h with
  | retry hty hst hr hd =>
    have hk : shakes [.message (s.message env left .ok)] = [.retry] :=
      shakes_accepted hrc (by simp [message_kind hty left, kindOf, hr])
    simp only [Shape13, TlsSession.flow, hst, hd] at hold ⊢
    rw [hold, hk]
    rfl
  | hello12 hty hst hr => trivial
  | hello13 hty hst hr hv =>
    have hk : shakes [.message (s.message env left .ok)] = [.hello] :=
      shakes_accepted hrc (by simp [message_kind hty left, kindOf, hr])
    simp only [Shape13, TlsSession.flow, hst] at hold ⊢
    rw [hold, hk]
  | extensions hty hv hst =>
    have hk : shakes [.message (s.message env left .ok)] = [.extensions] := shakes_accepted hrc (message_kind hty left)
    have hflags := hfresh (.inr (.inr hst))
    simp only [Shape13, TlsSession.flow, hst] at hold hflags ⊢
    intro _
    rw [hold, hk]
    simp [flight13, hflags]
  | request hty hv hst hr hc =>
    have hk : shakes [.message (s.message env left .ok)] = [.request] := shakes_accepted hrc (message_kind hty left)
    have hcc := not_compressed hm (.inr (.inr hty))
    have hcv : s.sawCertVerify = false := by
      by_contra hcv
      have hseen := hver (by simpa using hcv)
      simp [hc, hcc] at hseen
    simp only [Shape13, TlsSession.flow, hst] at hold ⊢
    intro _
    rw [hold hv, hk]
    simp [flight13, hr, hc, hcc, hcv]
  | certificate hty hv hst hc hcv =>
    have hk : shakes [.message (s.message env left .ok)] = [.cert] := shakes_accepted hrc (message_kind hty left)
    have hcc := not_compressed hm (.inl hty)
    simp only [Shape13, TlsSession.flow, hst] at hold ⊢
    intro _
    rw [hold hv, hk]
    simp [flight13, hc, hcc, hcv]
  | compressed hty hv hst hc hcv =>
    have hk : shakes [.message (s.message env left .ok)] = [.compressed] := shakes_accepted hrc (message_kind hty left)
    have hcc := not_compressed hm (.inr (.inl hty))
    simp only [Shape13, TlsSession.flow, hst] at hold ⊢
    intro _
    rw [hold hv, hk]
    simp [flight13, hc, hcc, hcv]
  | verify hty hv hst hc hcv =>
    have hk : shakes [.message (s.message env left .ok)] = [.verify] := shakes_accepted hrc (message_kind hty left)
    simp only [Shape13, TlsSession.flow, hst] at hold ⊢
    intro _
    rw [hold hv, hk]
    simp [flight13, hcv]
  | finished hty hv hst hc hcv hx =>
    have hk : shakes [.message (s.message env left .done)] = [.finished] := shakes_accepted hrc (message_kind hty left)
    simp only [Shape13, TlsSession.flow, hst] at hold ⊢
    intro _
    refine ⟨hcv, 0, ?_⟩
    rw [hold hv, hk]
    simp [flight13]
  | ticket hty hv hst =>
    have hk : shakes [.message (s.message env left .ok)] = [.ticket] := shakes_accepted hrc (message_kind hty left)
    simp only [Shape13, TlsSession.flow, hst] at hold ⊢
    intro _
    obtain ⟨hcv, n, hn⟩ := hold hv
    refine ⟨hcv, n + 1, ?_⟩
    rw [hn, hk]
    simp [List.replicate_succ']
  | certificate12 hty hv hst hstep => simp [Shape13, hst]
  | keyExchange12 hty hv hst hstep => simp [Shape13, hst]
  | helloDone12 hty hv hst hstep => trivial
  | finished12 hty hv hst hx => exact fun h => absurd hv h
  | ticket12 hty hv hst => simp [Shape13, hst]

theorem Accepts.inFlight (h : Accepts env s rc f) (left : Bytes) (ho : InFlight s.flow (shakes s.log))
    (hm : ¬ (s.message env left rc).AfterCompressed) :
    InFlight f (shakes (s.log ++ [Entry.message (s.message env left rc)])) where
  fresh := by
    have hfresh := ho.fresh
    cases h <;> simp_all
  one := by
    have hone := ho.one
    unfold Message.AfterCompressed at hm
    cases h <;> simp_all [TlsSession.message]
  verified := by
    have hver := ho.verified
    cases h <;> simp_all
  shape := h.shape left ho hm

end Accepted

theorem shakes_ccs (v : Nat) (inside : Bool) : shakes [.ccs v inside] = [] := rfl

theorem changed_inFlight {s : TlsSession} (ho : InFlight s.flow (shakes s.log)) :
    InFlight s.changed.flow (shakes s.changed.log) := by
  rw [changed_flow, changed_log, shakes_append, shakes_ccs, List.append_nil]
  by_cases hturn : s.version = 0x0303 ∧ s.st = .waitCcs
  · rw [if_pos hturn]
    exact ⟨by simp, ho.one, ho.verified, fun hv => absurd hturn.1 hv⟩
  · rw [if_neg hturn]
    exact ho

/-- What the flight of a spared session looks like before it is over. -/
def SparedFlight (s : TlsSession) : Prop :=
  spared s.log → InFlight s.flow (shakes s.log)

def SparedDone (s : TlsSession) : Prop :=
  spared s.log → FlightDone s.flow (shakes s.log)

theorem spared_append {log new : List Entry} : spared (log ++ new) = (spared log && spared new) :=
  List.all_append

theorem spared_snoc {log : List Entry} {m : Message} (h : spared (log ++ [Entry.message m])) :
    spared log ∧ ¬ m.AfterCompressed := by
  rw [spared_append, Bool.and_eq_true] at h
  exact ⟨h.1, by simpa [spared] using h.2⟩

theorem spared_old {log new : List Entry} (h : spared (log ++ new)) : spared log := by
  rw [spared_append, Bool.and_eq_true] at h
  exact h.1

theorem Refuses.flightDone {s : TlsSession} {rc : TlsRc} {f : TlsFlow} (h : Refuses s rc f) {l : List Kind}
    (hd : FlightDone s.flow l) : FlightDone f l := by
  intro hst hv
  rw [h.st] at hst
  have hver := h.version.resolve_right (by simp [hst])
  have hcc : f.certCompressed = s.certCompressed := by
    rcases h.compressed with hc | ⟨-, -, -, -, hst', -⟩
    · exact hc
    · simp [hst'] at hst
  rw [h.sawCertificate, hcc]
  rw [hver] at hv
  exact hd hst hv

theorem flight_rules (env : TlsEnv) : FlowRules env (fun s _ _ => SparedFlight s) SparedDone where
  skip := fun s e p h => h
  grown := by
    intro s e q rest s' h hg
    unfold SparedFlight
    rw [hg.flow, hg.log]
    exact h
  same := by
    intro s e p s' h hs
    unfold SparedDone
    rw [hs.flow, hs.log]
    exact fun hsp => (h hsp).done
  accepted := by
    intro s e rest rc f s' h _ hacc hend hsp
    rw [hend.log] at hsp
    rw [hend.flow, hend.log]
    exact hacc.inFlight rest (h (spared_snoc hsp).1) (spared_snoc hsp).2
  refused := by
    intro s e rest rc f s' h hrc href hend hsp
    rw [hend.log] at hsp
    rw [hend.flow, hend.log, shakes_append, shakes_refused hrc, List.append_nil]
    exact href.flightDone (h (spared_old hsp)).done
  opened := by
    intro s e s' p h hs _
    unfold SparedFlight
    rw [hs.flow, hs.log]
    exact h
  ccs := by
    intro s e h _ _ _ hsp
    rw [changed_log] at hsp
    exact changed_inFlight (h (spared_old hsp))
  alert := fun s e p _ _ hst => absurd hst (by simp [TlsSession.alerted])
  data := by
    intro s e p h _ hsp
    have ho := h (spared_old hsp)
    show InFlight s.flow (shakes (s.log ++ [Entry.data p]))
    rw [shakes_append]
    exact (List.append_nil (shakes s.log)).symm ▸ ho

theorem start_inFlight (env : TlsEnv) (cfg : TlsConfig) (draws : HelloDraws) (cap : Nat) :
    SparedFlight (Conn.start env cfg draws cap).session := by
  intro _
  obtain ⟨st, hst, hflow, hpast⟩ := start_flow env cfg draws cap
  have hlog : (Conn.start env cfg draws cap).session.log = [] := congrArg TlsPast.log hpast
  rw [hflow, hlog]
  refine ⟨fun _ => ⟨rfl, rfl, rfl, rfl⟩, by simp [tlsInit], by simp [tlsInit], ?_⟩
  rcases hst with rfl | rfl <;> rfl

/-- In a run that ends at the first error and in which no certificate message and no CertificateRequest
follows a CompressedCertificate, the flight of a TLS 1.3 server has the legal shape. -/
theorem flight_legal {env : TlsEnv} {cfg : TlsConfig} {draws : HelloDraws} {cap : Nat} {c : Conn}
    (h : Transition.Reach (Conn.step env) (fun c _ => c.failed = false) (Conn.start env cfg draws cap) c)
    (hspared : spared c.session.log) (hr : c.session.ready) (hv : c.session.version ≠ 0x0303) :
    ∃ k, (k = .cert ∨ k = .compressed) ∧ LegalFlight k (shakes c.session.log) ∧
      (c.session.certStatus = .parsed ↔ k = .cert) ∧ (c.session.certStatus = .opaqueChain ↔ k = .compressed) := by
  have hdet : Detached SparedFlight := ⟨fun _ _ h => h, fun _ _ h => h⟩
  have hdet' : Detached SparedDone := ⟨fun _ _ h => h, fun _ _ h => h⟩
  have hu := reach_until (flight_rules env).rules (fun _ => hdet) hdet' (fun _ _ h => h) rfl
    (start_inFlight env cfg draws cap) h
  have hdone : FlightDone c.session.flow (shakes c.session.log) := by
    by_cases hf : c.failed
    · exact hu.2 hf hspared
    · obtain ⟨-, hfl⟩ := hu.1 (by simpa using hf)
      exact (hfl hspared).done
  rcases hdone (of_decide_eq_true hr) hv with ⟨hc, hcc, hleg⟩ | ⟨hc, hcc, hleg⟩
  · refine ⟨.cert, .inl rfl, hleg, ?_⟩
    simp_all [TlsSession.certStatus]
  · refine ⟨.compressed, .inr rfl, hleg, ?_⟩
    simp_all [TlsSession.certStatus]

theorem flight_legal_sample : (sampleConn sampleFlight).session.ready = true ∧
    ∃ k, LegalFlight k (shakes (sampleConn sampleFlight).session.log) := by
  have hr : (sampleConn sampleFlight).session.ready = true := by decide +kernel
  obtain ⟨k, -, hk, -⟩ := flight_legal (sampleConn_reach rfl) (by decide +kernel) hr (by decide +kernel)
  exact ⟨hr, k, hk⟩

/-- A flight with a CompressedCertificate and a Certificate. -/
def twoCerts : Bytes :=
  plainRecord rtHs (sampleHello (zeros 32) sampleShare) ++
    sampleRecord (sampleExtensions ++ sampleCompressed ++ sampleCert ++ sampleVerify ++ sampleFinished)

/-- A session takes a Certificate after a CompressedCertificate and becomes ready. -/
theorem twoCerts_ready : Transition.Reach (Conn.step sampleEnv) (fun c _ => c.failed = false) sampleStart
      (sampleConn twoCerts) ∧
    (sampleConn twoCerts).session.ready = true ∧ (sampleConn twoCerts).session.version = 0x0304 ∧
    ¬ ∃ k, LegalFlight k (shakes (sampleConn twoCerts).session.log) := by
  have hshakes : shakes (sampleConn twoCerts).session.log =
    [.hello, .extensions, .compressed, .cert, .verify, .finished] := by decide +kernel
  refine ⟨sampleConn_reach rfl, by decide +kernel, by decide +kernel, ?_⟩
  rintro ⟨k, retry, request, n, hk⟩
  rw [hshakes] at hk
  cases retry with
  | true => simp [retryPart] at hk
  | false =>
    cases request with
    | true => simp [retryPart] at hk
    | false => simp [retryPart] at hk

end Qanat

import Qanat.TlsReady

namespace Qanat

open TlsHandler Outcome

section Mute

variable {env : TlsEnv}

theorem mute_onEncryptedExtensions : Frames Mute onEncryptedExtensions := by
  apply Within.bind frames_session
  intro s
  apply Within.bind (frames_refuse _ rfl)
  intro _
  apply Within.bind (mute_of_still (still_lastBlock _))
  intro block
  apply Within.bind (mute_of_still (frames_extBlock still_encryptedExt block ()))
  intro _ w
  simp

theorem mute_onCertificateRequest : Frames Mute onCertificateRequest := by
  apply Within.bind frames_session
  intro s
  apply Within.bind (frames_refuse _ rfl)
  intro _
  apply Within.bind (frames_refuse _ rfl)
  intro _
  apply Within.bind (mute_of_still (still_lastBlock _))
  intro block
  apply Within.bind (frames_extBlock (fun _ _ _ => Within.pure ()) block ())
  intro _ w
  simp

theorem readIdentity_mute (s : TlsSession) (tls13 : Bool) :
    (s.readIdentity env tls13).wire = s.wire ∧ (s.readIdentity env tls13).sealing = s.sealing := by
  unfold TlsSession.readIdentity
  split
  next => exact ⟨rfl, rfl⟩
  next => exact ⟨rfl, rfl⟩

theorem mute_onCertificate : Frames Mute (onCertificate env) := by
  apply Within.bind frames_session
  intro s
  apply Within.bind (frames_refuse _ rfl)
  intro _
  apply Within.bind (frames_refuse _ rfl)
  intro _
  refine Within.bind (fun w => ?_) fun _ => Within.pure _
  obtain ⟨hwire, hsealing⟩ := @readIdentity_mute env w.session true
  exact ⟨hwire, hsealing, rfl⟩

theorem mute_onCompressedCertificate : Frames Mute onCompressedCertificate := by
  intro w
  simp [onCompressedCertificate]

theorem mute_onCertificateVerify : Frames Mute onCertificateVerify := by
  intro w
  simp [onCertificateVerify]

theorem mute_onNewTicket : Frames Mute onNewTicket := by
  intro w
  simp [onNewTicket]

theorem mute_onKeyUpdate : Frames Mute onKeyUpdate := by
  intro w
  simp [onKeyUpdate]

theorem mute_onCertificate12 : Frames Mute (onCertificate12 env) := by
  apply Within.bind frames_session
  intro s
  apply Within.bind (frames_refuse _ rfl)
  intro _
  apply Within.bind (frames_refuse _ rfl)
  intro _
  refine Within.bind (fun w => ?_) fun _ => Within.pure _
  obtain ⟨hwire, hsealing⟩ := @readIdentity_mute env w.session false
  exact ⟨hwire, hsealing, rfl⟩

theorem mute_onCertificateRequest12 : Frames Mute onCertificateRequest12 := by
  intro w
  simp [onCertificateRequest12]

theorem mute_onServerFinished12 : Frames Mute (onServerFinished12 env) := by
  intro w
  simp [onServerFinished12]

theorem mute_onNewTicket12 : Frames Mute onNewTicket12 := by
  intro w
  simp [onNewTicket12]

theorem mute_setRead (secret : Bytes) (epoch : Epoch) : Frames Mute (setRead env secret epoch) := by
  intro w
  simp [setRead]

end Mute

/-- A record as it was written to `io->out`, and the handshake messages it carries. -/
inductive SentRecord (env : TlsEnv) : List Bytes → Bytes → Prop
  | hello (req : HelloReq) (info : HelloInfo) (h : env.helloBuild req = some info) : SentRecord env [info.body] info.wire
  | clear (m : Bytes) : SentRecord env [m] (recordHeader rtHs m.length ++ m)
  | sealed (s : TlsSession) (m p : Bytes) (h : sealRecord env s rtHs m = some p) : SentRecord env [m] p
  | sealed12 (s : TlsSession) (m p : Bytes) (h : tls12Seal env s rtHs m = some p) : SentRecord env [m] p
  | ccs : SentRecord env [] ccsRecord
  | data (s : TlsSession) (chunk p : Bytes) (cap : Nat) (h : sealApp env s chunk cap = some p) : SentRecord env [] p

/-- Records in a row, and the handshake messages they carry. -/
inductive SentRecords (env : TlsEnv) : List Bytes → Bytes → Prop
  | nil : SentRecords env [] []
  | cons {ms l : List Bytes} {p out : Bytes} (hp : SentRecord env ms p) (hl : SentRecords env l out) :
      SentRecords env (ms ++ l) (p ++ out)

theorem SentRecord.alone {env : TlsEnv} {ms : List Bytes} {p : Bytes} (h : SentRecord env ms p) : SentRecords env ms p := by
  have hc := SentRecords.cons h .nil
  rwa [List.append_nil, List.append_nil] at hc

theorem SentRecords.append {env : TlsEnv} {l k : List Bytes} {p q : Bytes} (h : SentRecords env l p)
    (h' : SentRecords env k q) : SentRecords env (l ++ k) (p ++ q) := by
  induction h with
  | nil => exact h'
  | cons hp _ ih =>
    rw [List.append_assoc, List.append_assoc]
    exact .cons hp ih

/-- The handshake messages a work has sent since are those that its output has carried since. -/
def Says (env : TlsEnv) (w v : TlsWork) : Prop :=
  ∃ l out, v.session.flights = w.session.flights ++ l ∧ v.out = w.out ++ out ∧ SentRecords env l out

theorem Says.silent {env : TlsEnv} {w v : TlsWork} (hf : v.session.flights = w.session.flights) (ho : v.out = w.out) :
    Says env w v :=
  ⟨[], [], by rw [hf, List.append_nil], by rw [ho, List.append_nil], .nil⟩

/-- The wire after the messages `l` were sent. -/
def TlsWire.sent (x : TlsWire) (l : List Bytes) : TlsWire :=
  { x with transcript := x.transcript.update l.flatten, flights := x.flights ++ l }

theorem TlsWire.sent_nil (x : TlsWire) : x.sent [] = x := by
  simp [TlsWire.sent, TlsHash.update]

theorem TlsWire.sent_sent (x : TlsWire) (l k : List Bytes) : (x.sent l).sent k = x.sent (l ++ k) := by
  simp [TlsWire.sent, TlsHash.update]

/-- The records `p` have gone out since, with the messages `l` in them, and nothing else has changed on the wire. -/
structure SentOut (env : TlsEnv) (w v : TlsWork) (l : List Bytes) (p : Bytes) : Prop where
  wire : v.session.wire = w.session.wire.sent l
  out : v.out = w.out ++ p
  carries : SentRecords env l p

/-- Code that, where it returns, has sent handshake messages in records and changed nothing else on the wire. -/
def Sends (env : TlsEnv) {α : Type} (m : TlsHandler α) : Prop :=
  ∀ w, Meets (m w) (fun _ v => ∃ l out, SentOut env w v l out) (fun _ _ => True)

section Sends

variable {env : TlsEnv} {α β : Type}

theorem SentOut.trans {w v u : TlsWork} {l k : List Bytes} {p q : Bytes} (h : SentOut env w v l p)
    (h' : SentOut env v u k q) : SentOut env w u (l ++ k) (p ++ q) :=
  ⟨by rw [h'.wire, h.wire, TlsWire.sent_sent], by rw [h'.out, h.out, List.append_assoc], h.carries.append h'.carries⟩

theorem SentOut.silent {w v : TlsWork} (hw : v.session.wire = w.session.wire) (ho : v.out = w.out) :
    SentOut env w v [] [] :=
  ⟨by rw [hw, TlsWire.sent_nil], by rw [ho, List.append_nil], .nil⟩

theorem SentOut.says {w v : TlsWork} {l : List Bytes} {p : Bytes} (h : SentOut env w v l p) : Says env w v :=
  ⟨l, p, congrArg TlsWire.flights h.wire, h.out, h.carries⟩

theorem Sends.bind {m : TlsHandler α} {f : α → TlsHandler β} (hm : Sends env m) (hf : ∀ a, Sends env (f a)) :
    Sends env (m >>= f) := by
  intro w
  rw [meets_bind]
  apply (hm w).mono
  · rintro a v ⟨l, p, hl⟩
    apply (hf a v).mono
    · rintro b u ⟨k, q, hk⟩
      exact ⟨l ++ k, p ++ q, hl.trans hk⟩
    · intro rc u _
      trivial
  · intro rc v _
    trivial

theorem sends_of_mute {m : TlsHandler α} (h : Frames Mute m) : Sends env m :=
  fun w => (h w).mono (fun _ _ hv => ⟨[], [], .silent hv.wire hv.out⟩) (fun _ _ _ => trivial)

theorem sends_update {f : TlsSession → TlsSession} (h : ∀ s, (f s).wire = s.wire) : Sends env (update f) :=
  fun w => ⟨[], [], .silent (h w.session) rfl⟩

theorem sends_pure (a : α) : Sends env (pure a : TlsHandler α) :=
  fun _ => ⟨[], [], .silent rfl rfl⟩

theorem sends_session : Sends env session :=
  fun _ => ⟨[], [], .silent rfl rfl⟩

theorem sends_refuse (c : Prop) [Decidable c] (rc : TlsRc) : Sends env (refuse c rc) := by
  intro w
  rw [meets_refuse]
  exact ⟨fun _ => trivial, fun _ => ⟨[], [], .silent rfl rfl⟩⟩

theorem sends_orRefuse (x : Option α) (rc : TlsRc) : Sends env (orRefuse x rc) := by
  intro w
  rw [meets_orRefuse]
  exact ⟨fun _ => trivial, fun _ _ => ⟨[], [], .silent rfl rfl⟩⟩

theorem sends_needRoom (n : Nat) (rc : TlsRc) : Sends env (needRoom n rc) := by
  intro w
  rw [meets_needRoom]
  exact ⟨fun _ => trivial, fun _ => ⟨[], [], .silent rfl rfl⟩⟩

theorem sends_ccs : Sends env (emit ccsRecord) :=
  fun w => ⟨[], ccsRecord, w.session.wire.sent_nil.symm, rfl, SentRecord.ccs.alone⟩

/-- A message that is sealed and goes into the transcript. -/
theorem sends_sealed (m : Bytes) (rc : TlsRc) : Sends env (do
    sealOut env rtHs m rc
    update fun s => { s.shook m with transcript := s.transcript.update m } : TlsHandler Unit) := by
  intro w
  unfold sealOut
  simp only [meets_bind, meets_needRoom, meets_session, meets_orRefuse, meets_update, meets_emit]
  refine ⟨fun _ => trivial, fun _ => ⟨fun _ => trivial, fun p hp => ?_⟩⟩
  exact ⟨[m], p, by simp [TlsWire.sent, TlsSession.sealed], rfl, (SentRecord.sealed w.session m p hp).alone⟩

theorem sends_sendEmptyCert (requested : Bool) : Sends env (sendEmptyCert env requested) := by
  unfold sendEmptyCert
  split
  next => exact sends_sealed emptyCert .proto
  next => exact sends_pure ()

theorem sends_sendFinished : Sends env (sendFinished env) := by
  apply Sends.bind sends_session
  intro s
  apply Sends.bind (sends_orRefuse _ _)
  intro fkey
  exact sends_sealed _ .space

theorem setWrite_wire (env : TlsEnv) (secret : Bytes) (epoch : Epoch) (w : TlsWork) :
    Meets (setWrite env secret epoch w) (fun _ v => v.session.wire = w.session.wire ∧ v.out = w.out) (fun _ _ => True) := by
  simp [setWrite]

theorem sends_setWrite (secret : Bytes) (epoch : Epoch) : Sends env (setWrite env secret epoch) :=
  fun w => (setWrite_wire env secret epoch w).mono (fun _ _ hv => ⟨[], [], .silent hv.1 hv.2⟩) (fun _ _ _ => trivial)

theorem sends_sendClientFlight : Sends env (sendClientFlight env) := by
  apply Sends.bind sends_session
  intro s
  apply Sends.bind (sends_needRoom _ _)
  intro _
  apply Sends.bind (sends_of_mute (mute_of_still (still_scheduleApplication env)))
  intro ap
  apply Sends.bind sends_ccs
  intro _
  apply Sends.bind (sends_sendEmptyCert _)
  intro _
  apply Sends.bind sends_sendFinished
  intro _
  apply Sends.bind (sends_setWrite _ _)
  intro _
  apply Sends.bind (sends_of_mute (mute_setRead _ _))
  intro _
  exact Sends.bind (sends_update fun _ => rfl) fun _ => sends_pure _

theorem sends_onServerFinished : Sends env (onServerFinished env) := by
  apply Sends.bind sends_session
  intro s
  apply Sends.bind (sends_refuse _ _)
  intro _
  apply Sends.bind (sends_refuse _ _)
  intro _
  apply Sends.bind (sends_orRefuse _ _)
  intro expect
  apply Sends.bind (sends_refuse _ _)
  intro _
  exact sends_sendClientFlight

theorem sends_keyBlock : Sends env (keyBlock env) := by
  intro w
  unfold keyBlock
  simp only [meets_bind, meets_session, meets_orRefuse, meets_update, meets_refuse]
  exact ⟨fun _ => trivial, fun _ _ => ⟨fun _ => trivial, fun _ => ⟨[], [], .silent rfl rfl⟩⟩⟩

/-- The client's Finished of TLS 1.2 goes into the transcript before it is sealed. -/
theorem sends_sealed12 (m : Bytes) (rc : TlsRc) : Sends env (do
    update fun s => { s.shook m with transcript := s.transcript.update m }
    tls12SealOut env rtHs m rc : TlsHandler Unit) := by
  intro w
  unfold tls12SealOut
  simp only [meets_bind, meets_needRoom, meets_session, meets_orRefuse, meets_update, meets_emit]
  refine ⟨fun _ => trivial, fun _ => ⟨fun _ => trivial, fun p hp => ?_⟩⟩
  exact ⟨[m], p, by simp [TlsWire.sent, TlsSession.sealed], rfl, (SentRecord.sealed12 _ m p hp).alone⟩

theorem sends_tls12SendFinished : Sends env (tls12SendFinished env) := by
  apply Sends.bind sends_ccs
  intro _
  refine Sends.bind (sends_update ?_) fun _ => ?_
  · exact fun _ => rfl
  apply Sends.bind sends_session
  intro s
  apply Sends.bind (sends_orRefuse _ _)
  intro verify
  exact sends_sealed12 _ _

/-- Code that sends, behind what was sent before. -/
theorem Sends.behind {m : TlsHandler α} (hm : Sends env m) {w v : TlsWork} {l : List Bytes} {p : Bytes}
    (h : SentOut env w v l p) : Meets (m v) (fun _ u => ∃ l out, SentOut env w u l out) (fun _ _ => True) := by
  apply (hm v).mono
  · rintro a u ⟨k, q, hk⟩
    exact ⟨l ++ k, p ++ q, h.trans hk⟩
  · intro rc u _
    trivial

/-- A message that goes out in the clear and into the transcript. -/
theorem sentOut_clear (w : TlsWork) (m : Bytes) :
    SentOut env w ((w.emitted (recordHeader rtHs m.length ++ m)).upd fun s =>
      { s.shook m with transcript := s.transcript.update m }) [m] (recordHeader rtHs m.length ++ m) :=
  ⟨by simp [TlsWire.sent], rfl, (SentRecord.clear m).alone⟩

theorem sends_onHelloDone : Sends env (onHelloDone env) := by
  unfold onHelloDone
  apply Sends.bind sends_session
  intro s
  apply Sends.bind (sends_refuse _ _)
  intro _
  apply Sends.bind (sends_orRefuse _ _)
  intro pub
  apply Sends.bind (sends_needRoom _ _)
  intro _ w
  rw [meets_bind, meets_emit, meets_bind, meets_update]
  refine Sends.behind ?_ (sentOut_clear w _)
  apply Sends.bind (sends_orRefuse _ _)
  intro pms
  apply Sends.bind (sends_of_mute (mute_of_still (still_masterSecret env pms)))
  intro _
  apply Sends.bind sends_keyBlock
  intro _
  apply Sends.bind sends_tls12SendFinished
  intro _
  refine Sends.bind (sends_update ?_) fun _ => sends_pure _
  exact fun _ => rfl

theorem sends_onHelloDone12 : Sends env (onHelloDone12 env) := by
  apply Sends.bind sends_session
  intro s
  apply Sends.bind (sends_refuse _ _)
  intro _
  apply Sends.bind (sends_refuse _ _)
  intro _
  refine Sends.bind (sends_update ?_) fun _ => sends_onHelloDone
  exact fun _ => rfl

end Sends

/-- ServerKeyExchange only brings the peer's group. -/
theorem onServerKx12_wire (env : TlsEnv) (w : TlsWork) :
    Meets (onServerKx12 w) (fun _ v => (∃ g, v.session.wire = { w.session.wire with peerGroup := g }) ∧ Says env w v)
      (fun _ _ => True) := by
  unfold onServerKx12 onServerKx
  simp only [meets_bind, meets_session, meets_refuse, meets_update, meets_pure, implies_true, true_and]
  intros
  exact ⟨⟨_, rfl⟩, .silent rfl rfl⟩

end Qanat

import Qanat.General.Transition
import Qanat.TlsRules

namespace Qanat

open TlsHandler Outcome

/-- Whether a session stands between two messages. -/
def TlsSession.Between (s : TlsSession) : Prop :=
  s.hsActive = false ∧ s.hsHdr = []

/-- As long as no message body has begun, the bytes of the message are its header. -/
def TlsSession.Counted (s : TlsSession) : Prop :=
  s.hsActive = false → s.tags.length = s.hsHdr.length

theorem TlsSession.Counted.nil {s : TlsSession} (h : s.Counted) (hb : s.Between) : s.tags = [] := by
  have hlen := h hb.1
  rw [hb.2] at hlen
  exact List.length_eq_zero_iff.mp hlen

section Fuel

variable (env : TlsEnv) (e : Epoch)

theorem headerBytes_length (p : Bytes) (w : TlsWork) :
    Meets (headerBytes e p w)
      (fun rest _ => rest.length ≤ p.length ∧ (w.session.Between → p ≠ [] → rest.length < p.length))
      (fun _ _ => True) := by
  unfold headerBytes
  rw [meets_bind, meets_session]
  by_cases ha : w.session.hsActive
  · rw [if_pos ha]
    exact ⟨Nat.le_refl _, fun hb => absurd ha (by simp [hb.1])⟩
  · rw [if_neg ha]
    have hrest : ∀ v : TlsWork, (p.drop (p.take (4 - w.session.hsHdr.length)).length).length ≤ p.length ∧
        (w.session.Between → p ≠ [] → (p.drop (p.take (4 - w.session.hsHdr.length)).length).length < p.length) := by
      intro _
      rw [List.length_drop, List.length_take]
      refine ⟨Nat.sub_le _ _, fun hb hp => ?_⟩
      have hpos := List.length_pos_of_ne_nil hp
      rw [hb.2, List.length_nil]
      omega
    simp only [meets_bind, meets_update, meets_ite, meets_pure, meets_session, meets_refuse]
    exact ⟨fun _ => hrest w, fun _ => ⟨fun _ => trivial, fun _ => hrest w⟩⟩

theorem bodyBytes_length (p : Bytes) (w : TlsWork) :
    Meets (bodyBytes e p w) (fun rest _ => rest.length ≤ p.length) (fun _ _ => True) := by
  unfold bodyBytes
  simp only [meets_bind, meets_session, meets_update]
  apply (scanBytes_meets _ _).mono
  · intro _ v _
    show (p.drop _).length ≤ p.length
    rw [List.length_drop]
    exact Nat.sub_le _ _
  · intro rc v _
    trivial

theorem dispatchMessage_between (left : Bytes) (w : TlsWork) :
    Meets (dispatchMessage env left w) (fun _ v => v.session.Between) (fun _ _ => True) := by
  unfold dispatchMessage
  cases tlsDispatch env { w with session := w.session.received } with
  | ok rc v => exact ⟨rfl, rfl⟩
  | error rc v => trivial

theorem session_bind {α : Type} (f : TlsSession → TlsHandler α) (w : TlsWork) : (session >>= f) w = f w.session w := rfl

/-- One round of `hs_feed` is the same for all continuations that agree between two messages. -/
theorem hsFeed_round {n m : Nat} {p : Bytes} {w : TlsWork}
    (h : ∀ rest v, TlsSession.Between v.session → rest.length ≤ p.length →
      (w.session.Between → p ≠ [] → rest.length < p.length) → hsFeed env e n rest v = hsFeed env e m rest v) :
    hsFeed env e (n + 1) p w = hsFeed env e (m + 1) p w := by
  unfold hsFeed
  by_cases hp : p = []
  · rw [if_pos hp, if_pos hp]
  · rw [if_neg hp, if_neg hp]
    apply Meets.bind_congr (E := fun _ _ => True)
    apply (headerBytes_length e p w).mono
    · intro p₁ v hp₁
      rw [session_bind, session_bind]
      by_cases ha : v.session.hsActive
      · rw [if_pos ha, if_pos ha]
        apply Meets.bind_congr (E := fun _ _ => True)
        apply (bodyBytes_length e p₁ v).mono
        · intro p₂ u hp₂
          rw [session_bind, session_bind]
          by_cases hgot : u.session.hsGot < u.session.hsLen
          · rw [if_pos hgot, if_pos hgot]
          · rw [if_neg hgot, if_neg hgot]
            apply Meets.bind_congr (E := fun _ _ => True)
            apply (dispatchMessage_between env p₂ u).mono
            · intro _ t ht
              exact h p₂ t ht (by omega) fun hb hne => by have := hp₁.2 hb hne; omega
            · intro rc t _
              trivial
        · intro rc u _
          trivial
      · rw [if_neg ha, if_neg ha]
    · intro rc v _
      trivial

theorem hsFeed_between {n m : Nat} {p : Bytes} {w : TlsWork} (hb : w.session.Between) (hn : p.length < n)
    (hm : p.length < m) : hsFeed env e n p w = hsFeed env e m p w := by
  induction n generalizing m p w with
  | zero => omega
  | succ n ih =>
    obtain ⟨m, rfl⟩ : ∃ k, m = k + 1 := ⟨m - 1, by omega⟩
    by_cases hp : p = []
    · unfold hsFeed
      rw [if_pos hp, if_pos hp]
    · apply hsFeed_round
      intro rest v hv _ hless
      have hlt := hless hb hp
      exact ih hv (by omega) (by omega)

/-- The fuel that `handle_record` gives `hs_feed` is enough. -/
theorem hsFeed_fuel {n : Nat} {p : Bytes} {w : TlsWork} (hn : p.length + 2 ≤ n) :
    hsFeed env e n p w = hsFeed env e (p.length + 2) p w := by
  obtain ⟨n, rfl⟩ : ∃ k, n = k + 1 := ⟨n - 1, by omega⟩
  apply hsFeed_round
  intro rest v hv hle _
  exact hsFeed_between env e hv (by omega) (by omega)

end Fuel

/-- A session in which only the message being received has moved on. -/
structure Same (s s' : TlsSession) : Prop where
  flow : s'.flow = s.flow
  log : s'.log = s.log
  sawCcs : s'.sawCcs = s.sawCcs

/-- A session in which the message being received has grown by the bytes `q`. -/
structure Grown (e : Epoch) (s : TlsSession) (q : Bytes) (s' : TlsSession) : Prop extends Same s s' where
  tags : s'.tags = s.tags ++ q.map (·, e)
  counted : s.Counted → s'.Counted

/-- A session whose message `m` is over, with the flow `f` it led to. -/
structure Ended (s : TlsSession) (f : TlsFlow) (m : Message) (s' : TlsSession) : Prop where
  flow : s'.flow = f
  log : s'.log = s.log ++ [Entry.message m]
  sawCcs : s'.sawCcs = s.sawCcs
  tags : s'.tags = []
  between : s'.Between

theorem trUpdate_flow (s : TlsSession) (p : Bytes) : (s.trUpdate p).flow = s.flow := by
  unfold TlsSession.trUpdate
  split
  next => rfl
  next => rfl

theorem trUpdate_past (s : TlsSession) (p : Bytes) : (s.trUpdate p).past = s.past := by
  unfold TlsSession.trUpdate
  split
  next => rfl
  next => rfl

theorem beginMessage_same (s : TlsSession) : Same s s.beginMessage := by
  unfold TlsSession.beginMessage TlsSession.trUpdate
  dsimp only
  split_ifs <;> exact ⟨rfl, rfl, rfl⟩

theorem beginMessage_tags (s : TlsSession) : s.beginMessage.tags = s.tags := by
  unfold TlsSession.beginMessage TlsSession.trUpdate
  dsimp only
  split_ifs <;> rfl

theorem beginMessage_hsActive (s : TlsSession) : s.beginMessage.hsActive = true := by
  unfold TlsSession.beginMessage TlsSession.trUpdate
  dsimp only
  split_ifs <;> rfl

theorem scanning_body_same (s : TlsSession) (q : Bytes) (c : CertScan) (c13 : Cert13Scan) :
    Same s ((s.trUpdate q).scanning c c13) := by
  have hp := trUpdate_past s q
  simp only [TlsSession.past, TlsPast.mk.injEq] at hp
  exact ⟨trUpdate_flow s q, hp.2.2.2.2.2.2.2.2.2.2, hp.2.2.2.2.2.2.2.2.1⟩

theorem Took.grown {e : Epoch} {s s' : TlsSession} {q : Bytes} (h : Took e s q s') : Grown e s q s' := by
  cases h with
  | header ha hlen =>
    refine ⟨⟨rfl, rfl, rfl⟩, rfl, fun hc _ => ?_⟩
    have hlen' := hc ha
    simp [TlsSession.headerTaken, hlen']
  | start ha hlen hq =>
    have hb := beginMessage_same (s.headerTaken e q)
    refine ⟨⟨hb.flow, hb.log, hb.sawCcs⟩, beginMessage_tags _, fun _ hact => ?_⟩
    rw [beginMessage_hsActive] at hact
    exact absurd hact (by simp)
  | body ha hq c c13 =>
    have hs := scanning_body_same s q c c13
    have hp := trUpdate_past s q
    simp only [TlsSession.past, TlsPast.mk.injEq] at hp
    refine ⟨⟨hs.flow, hs.log, hs.sawCcs⟩, ?_, fun _ hact => ?_⟩
    · show (s.trUpdate q).tags ++ _ = _
      rw [hp.2.2.2.2.2.2.2.2.2.1]
    · have hact' : (s.trUpdate q).hsActive = false := hact
      rw [hp.2.2.2.2.2.2.2.1, ha] at hact'
      exact absurd hact' (by simp)

theorem Spoilt.same {e : Epoch} {s s' : TlsSession} (h : Spoilt e s s') : Same s s' := by
  cases h with
  | start ha q =>
    have hb := beginMessage_same (s.headerTaken e q)
    exact ⟨hb.flow, hb.log, hb.sawCcs⟩
  | body ha q c c13 => exact scanning_body_same s q c c13

theorem Opened.same {s s' : TlsSession} (h : Opened s s') : Same s s' := by
  obtain rfl | rfl := h
  · exact ⟨rfl, rfl, rfl⟩
  · exact ⟨rfl, rfl, rfl⟩

theorem Opened.past {s s' : TlsSession} (h : Opened s s') : s'.past = s.past := by
  obtain rfl | rfl := h
  · rfl
  · rfl

theorem changed_log (s : TlsSession) :
    s.changed.log = s.log ++ [Entry.ccs s.version (s.hsActive ∨ s.hsHdr ≠ [])] := by
  unfold TlsSession.changed TlsSession.tls12OnCcs
  dsimp only
  split_ifs <;> rfl

theorem Accepts.of_received {env : TlsEnv} {s : TlsSession} {rc : TlsRc} {f : TlsFlow}
    (h : Accepts env s.received rc f) : Accepts env s rc f := by
  cases h with
  | retry hty hst hr hd => exact .retry hty hst hr hd
  | hello12 hty hst hr => exact .hello12 hty hst hr
  | hello13 hty hst hr hv => exact .hello13 hty hst hr hv
  | extensions hty hv hst => exact .extensions hty hv hst
  | request hty hv hst hr hc => exact .request hty hv hst hr hc
  | certificate hty hv hst hc hcv => exact .certificate hty hv hst hc hcv
  | compressed hty hv hst hc hcv => exact .compressed hty hv hst hc hcv
  | verify hty hv hst hc hcv => exact .verify hty hv hst hc hcv
  | finished hty hv hst hc hcv hx => exact .finished hty hv hst hc hcv hx
  | ticket hty hv hst => exact .ticket hty hv hst
  | certificate12 hty hv hst hstep => exact .certificate12 hty hv hst hstep
  | keyExchange12 hty hv hst hstep => exact .keyExchange12 hty hv hst hstep
  | helloDone12 hty hv hst hstep => exact .helloDone12 hty hv hst hstep
  | finished12 hty hv hst hx => exact .finished12 hty hv hst hx
  | ticket12 hty hv hst => exact .ticket12 hty hv hst

theorem Refuses.of_received {s : TlsSession} {rc : TlsRc} {f : TlsFlow} (h : Refuses s.received rc f) :
    Refuses s rc f :=
  ⟨h.st, h.sawCertificate, h.sawCertVerify, h.hrrDone, h.version, h.step, h.compressed⟩

theorem Moved.ended {w v : TlsWork} {f : TlsFlow} (h : Moved { w with session := w.session.received } f v)
    (m : Message) : Ended w.session f m (v.session.endMessage m) := by
  have hp := h.past
  simp only [TlsSession.past, TlsPast.mk.injEq] at hp
  refine ⟨h.flow, ?_, hp.2.2.2.2.2.2.2.2.1, rfl, rfl, rfl⟩
  show v.session.log ++ _ = _
  rw [hp.2.2.2.2.2.2.2.2.2.2]
  rfl

/-- A dispatched message, as the order of the messages sees it. -/
theorem dispatched_ok {env : TlsEnv} {w v : TlsWork} {rc : TlsRc} (left : Bytes)
    (h : tlsDispatch env { w with session := w.session.received } = .ok rc v) :
    ∃ f, Accepts env w.session rc f ∧ v.app = w.app ∧ v.done = w.done ∧
      Ended w.session f (w.session.message env left rc) (w.session.dispatched env v.session left rc) := by
  have hs := tlsDispatch_settles env { w with session := w.session.received }
  rw [h] at hs
  obtain ⟨f, hacc, hm⟩ := hs
  exact ⟨f, hacc.of_received, hm.app, hm.done, hm.ended _⟩

theorem dispatched_error {env : TlsEnv} {w v : TlsWork} {rc : TlsRc} (left : Bytes)
    (h : tlsDispatch env { w with session := w.session.received } = .error rc v) :
    rc.isError ∧ v.app = w.app ∧ ∃ f, Refuses w.session rc f ∧
      Ended w.session f (w.session.message env left rc) (w.session.dispatched env v.session left rc) := by
  have hs := tlsDispatch_settles env { w with session := w.session.received }
  rw [h] at hs
  obtain ⟨hrc, f, href, hm⟩ := hs
  exact ⟨hrc, hm.app, f, href.of_received, hm.ended _⟩

/-- A property of sessions that every operation on a record keeps. `J s e p` is about a session in the
middle of a record opened under `e` with `p` still to be looked at, `K` about one that failed. -/
structure FlowRules (env : TlsEnv) (J : TlsSession → Epoch → Bytes → Prop) (K : TlsSession → Prop) : Prop where
  skip : ∀ s e p, J s e p → J s e []
  grown : ∀ s e q rest s', J s e (q ++ rest) → Grown e s q s' → J s' e rest
  same : ∀ s e p s', J s e p → Same s s' → K s'
  accepted : ∀ s e rest rc f s', J s e rest → s.hsActive → Accepts env s rc f →
    Ended s f (s.message env rest rc) s' → J s' e rest
  refused : ∀ s e rest rc f s', J s e rest → rc.isError → Refuses s rc f →
    Ended s f (s.message env rest rc) s' → K s'
  opened : ∀ s e s' p, J s e [] → Same s s' → s'.past = s.past → J s' s.epoch p
  ccs : ∀ s e, J s e [] → s.sawCcs = false → s.st ≠ .ready → s.st ≠ .closed → J s.changed e []
  alert : ∀ s e p, J s e p → K (s.alerted p)
  data : ∀ s e p, J s e p → s.st = .ready → J (s.note (.data p)) e []

section Rules

variable {env : TlsEnv} {J : TlsSession → Epoch → Bytes → Prop} {K : TlsSession → Prop}

/-- Rules that are about the session only. -/
def SessionRules (env : TlsEnv) (J : TlsSession → Epoch → Bytes → Prop) (K : TlsSession → Prop) : Prop :=
  TlsRules env (fun w e p => J w.session e p) (fun rc w => rc.isError ∧ K w.session)

theorem FlowRules.rules (R : FlowRules env J K) : SessionRules env J K where
  skip := fun w e p h => R.skip _ e p h
  took := fun w e q rest s' h ht => R.grown _ e q rest s' h ht.grown
  spoilt := fun w e p s' h hs => ⟨rfl, R.same _ e p s' h hs.same⟩
  accepted := by
    intro w e rest rc v h ha _ hd
    obtain ⟨f, hacc, -, -, hend⟩ := dispatched_ok rest hd
    exact R.accepted _ e rest rc f _ h ha hacc hend
  refused := by
    intro w e rest rc v h _ _ hd
    obtain ⟨hrc, -, f, href, hend⟩ := dispatched_error rest hd
    exact ⟨hrc, R.refused _ e rest rc f _ h hrc href hend⟩
  opened := fun w e s' h ho p => R.opened _ e s' p h ho.same ho.past
  failed := fun w e p rc h hrc => ⟨hrc, R.same _ e p _ h ⟨rfl, rfl, rfl⟩⟩
  ccs := fun w e h hc hr hcl => R.ccs _ e h hc hr hcl
  alert := fun w e p h => ⟨rfl, R.alert _ e p h⟩
  data := fun w e p h hst => R.data _ e p h hst

/-- What every operation on a record keeps, the loop of `qn_tls_recv` keeps. -/
theorem recvLoop_flow (R : SessionRules env J K) (hJ : ∀ s e buf, J s e [] → J { s with recBuf := buf } e [])
    (hK : ∀ s buf, K s → K { s with recBuf := buf }) (fuel : Nat) {s : TlsSession} (io : TlsIo) (done : Bool)
    {e : Epoch} (h : J s e []) :
    ((recvLoop env fuel s io done).rc.isError = false → ∃ e', J (recvLoop env fuel s io done).session e' []) ∧
      ((recvLoop env fuel s io done).rc.isError → K (recvLoop env fuel s io done).session) := by
  induction fuel generalizing s io done e with
  | zero =>
    unfold recvLoop
    exact ⟨fun _ => ⟨e, h⟩, fun hrc => absurd hrc (by simp)⟩
  | succ fuel ih =>
    unfold recvLoop
    cases fillRecord s.rd.on s.recBuf io.input with
    | wait buf =>
      refine ⟨fun _ => ⟨e, hJ s e buf h⟩, fun hrc => absurd hrc ?_⟩
      cases done with
      | true => simp
      | false => simp
    | bad buf rest =>
      refine ⟨fun hrc => absurd hrc (by simp), fun _ => ?_⟩
      exact hK s buf (TlsRules.failed R ⟨s, true, 0, [], 0, [], false⟩ e [] .proto h rfl).2
    | full buf rest =>
      have hm := handleRecord_meets R
        (w := ⟨{ s with recBuf := buf }, io.hasOut, io.outCap, [], io.appCap, [], false⟩) (hJ s e buf h)
      dsimp only
      cases hw : handleRecord env ⟨{ s with recBuf := buf }, io.hasOut, io.outCap, [], io.appCap, [], false⟩ with
      | error rc w =>
        rw [hw] at hm
        exact ⟨fun hrc => absurd hm.1 (by simp [hrc]), fun _ => hK _ [] hm.2⟩
      | ok _ w =>
        rw [hw] at hm
        obtain ⟨e', hw'⟩ := hm
        exact ih _ _ (hJ _ _ [] hw')

end Rules

/-- A session in use, and whether a `qn_tls_recv` on it has failed. -/
structure Conn where
  session : TlsSession
  failed : Bool

/-- A call on a session that was started. -/
inductive TlsAct
  | recv (io : TlsIo)
  | sendApp (data : Bytes) (cap : Nat)

def Conn.step (env : TlsEnv) (c : Conn) : TlsAct → Option Conn
  | .recv io =>
    let r := tlsRecv env c.session io
    some ⟨r.session, c.failed || r.rc.isError⟩
  | .sendApp data cap =>
    some ⟨(tlsSendApp env c.session data cap).1, c.failed⟩

/-- A session after `qn_tls_start`. -/
def Conn.start (env : TlsEnv) (cfg : TlsConfig) (draws : HelloDraws) (cap : Nat) : Conn :=
  ⟨(tlsStart env (tlsInit cfg) draws cap).1, false⟩

/-- A session that has sealed records under these nonces. -/
def TlsSession.sealedBy (s : TlsSession) (nonces : List (Nat × Bytes)) : TlsSession :=
  { s with wr := { s.wr with seq := s.wr.seq + nonces.length }, seals := s.seals ++ nonces }

theorem sealedBy_nil (s : TlsSession) : s.sealedBy [] = s := by
  unfold TlsSession.sealedBy
  rw [List.append_nil]
  rfl

theorem sendLoop_sealedBy (env : TlsEnv) (fuel : Nat) (s : TlsSession) (data : Bytes) (cap : Nat) :
    ∃ n, (sendLoop env fuel s data cap).1 = s.sealedBy n := by
  induction fuel generalizing s data cap with
  | zero => exact ⟨[], (sealedBy_nil s).symm⟩
  | succ fuel ih =>
    unfold sendLoop
    cases sealApp env s (data.take recMaxPt) cap with
    | none => exact ⟨[], (sealedBy_nil s).symm⟩
    | some p =>
      dsimp only
      by_cases hd : data.drop recMaxPt = []
      · rw [if_pos hd]
        exact ⟨[_], rfl⟩
      · rw [if_neg hd]
        obtain ⟨n, hn⟩ := ih (s.sealedApp (data.take recMaxPt)) (data.drop recMaxPt) (cap - p.length)
        refine ⟨(s.wrGen, appNonce s (data.take recMaxPt).length) :: n, hn.trans ?_⟩
        simp [TlsSession.sealedApp, TlsSession.sealed, TlsSession.sealedBy, Nat.add_assoc, Nat.add_comm 1]

theorem tlsSendApp_sealedBy (env : TlsEnv) (s : TlsSession) (data : Bytes) (cap : Nat) :
    ∃ n, (tlsSendApp env s data cap).1 = s.sealedBy n := by
  unfold tlsSendApp
  by_cases hst : s.st ≠ .ready
  · rw [if_pos hst]
    exact ⟨[], (sealedBy_nil s).symm⟩
  · rw [if_neg hst]
    exact sendLoop_sealedBy env _ s data cap

/-- A property that depends on neither the record buffer nor the write key. -/
def Detached (J : TlsSession → Prop) : Prop :=
  (∀ s buf, J s → J { s with recBuf := buf }) ∧ ∀ s n, J s → J (s.sealedBy n)

section Reach

variable {env : TlsEnv} {J : TlsSession → Epoch → Bytes → Prop} {K : TlsSession → Prop}
  {start c : Conn}

theorem tlsRecv_flow (R : SessionRules env J K) (hJ : ∀ e, Detached fun s => J s e []) (hK : Detached K)
    {s : TlsSession} {e : Epoch} (io : TlsIo) (h : J s e []) :
    ((tlsRecv env s io).rc.isError = false → ∃ e', J (tlsRecv env s io).session e' []) ∧
      ((tlsRecv env s io).rc.isError → K (tlsRecv env s io).session) :=
  recvLoop_flow R (fun s e => (hJ e).1 s) hK.1 _ io false h

/-- What holds until a call fails, and what holds then, of runs that end there. -/
theorem reach_until {guard : Conn → TlsAct → Prop} (R : SessionRules env J K) (hJ : ∀ e, Detached fun s => J s e [])
    (hK : Detached K) (hg : ∀ c a, guard c a → c.failed = false) (hs : start.failed = false)
    (h₀ : J start.session .plain []) (h : Transition.Reach (Conn.step env) guard start c) :
    (c.failed = false → ∃ e, J c.session e []) ∧ (c.failed → K c.session) := by
  have hinv : ∀ c act c', ((c.failed = false → ∃ e, J c.session e []) ∧ (c.failed → K c.session)) → guard c act →
      Conn.step env c act = some c' → (c'.failed = false → ∃ e, J c'.session e []) ∧ (c'.failed → K c'.session) := by
    intro c act c' hc hguard hstep
    have hlive := hg c act hguard
    obtain ⟨e, he⟩ := hc.1 hlive
    cases act with
    | recv io =>
      cases hstep
      have hr := tlsRecv_flow R hJ hK io he
      simpa [hlive] using hr
    | sendApp data cap =>
      cases hstep
      obtain ⟨n, hn⟩ := tlsSendApp_sealedBy env c.session data cap
      refine ⟨fun _ => ⟨e, ?_⟩, fun hf => ?_⟩
      · show J (tlsSendApp env c.session data cap).1 e []
        rw [hn]
        exact (hJ e).2 _ n he
      · rw [hlive] at hf
        exact absurd hf (by simp)
  refine h.invariant ⟨fun _ => ⟨_, h₀⟩, fun hf => ?_⟩ hinv
  rw [hs] at hf
  exact absurd hf (by simp)

end Reach

section Sample

def zeros (n : Nat) : Bytes :=
  List.replicate n 0

/-- An environment in which every secret is zero and the cipher only appends its tag. -/
def sampleEnv : TlsEnv where
  helloBuild := fun _ => some ⟨[22, 3, 1, 0, 4, 1, 0, 0, 0], [1, 0, 0, 0], [0x0403]⟩
  digest := fun id _ => zeros (hashLen id)
  hmacOnce := fun id _ _ => zeros (hashLen id)
  hkdfExtract := fun id _ _ => zeros (hashLen id)
  hkdfExpandLabel := fun _ _ _ _ n => some (zeros n)
  tls12Prf := fun _ _ _ _ n => some (zeros n)
  aeadAccepts := fun id key => key.length = aeadKeyLen id
  aeadSeal := fun _ _ _ p => some (p ++ zeros aeadTagLen)
  aeadOpen := fun _ _ _ p =>
    if p.drop (p.length - aeadTagLen) = zeros aeadTagLen then some (p.take (p.length - aeadTagLen)) else none
  x25519 := fun _ _ => some (zeros 32)
  p256 := fun _ _ => some (zeros 32)
  mlkem768Decap := fun _ _ => some (zeros 32)
  certIdentity := fun _ => ([], [])

def sampleCfg : TlsConfig :=
  ⟨none, none, .chrome, true, false⟩

def sampleDraws : HelloDraws :=
  ⟨some (0, zeros 32, zeros 32), some ⟨zeros 32, zeros 32, zeros 32, zeros 1216, zeros 2400, zeros 32, 4 :: zeros 64,
    zeros 32, zeros 240, 0⟩⟩

def sampleStart : Conn :=
  Conn.start sampleEnv sampleCfg sampleDraws tlsHsBuf

/-- A handshake message on the wire. -/
def handshakeMessage (type : UInt8) (body : Bytes) : Bytes :=
  type :: wireBytes 3 body.length ++ body

def plainRecord (type : UInt8) (body : Bytes) : Bytes :=
  recordHeader type body.length ++ body

/-- A protected record of TLS 1.3 in the sample environment. -/
def sampleRecord (p : Bytes) : Bytes :=
  plainRecord rtApp (p ++ [rtHs] ++ zeros aeadTagLen)

/-- A ServerHello with suite 0x1301 and these extensions. -/
def sampleHello (random exts : Bytes) : Bytes :=
  handshakeMessage 2 ([3, 3] ++ random ++ [32] ++ zeros 32 ++ [0x13, 1, 0] ++ wireBytes 2 exts.length ++ exts)

def sampleShare : Bytes :=
  [0, 0x2b, 0, 2, 3, 4, 0, 0x33, 0, 0x24, 0, 0x1d, 0, 0x20] ++ zeros 32

def sampleExtensions : Bytes :=
  handshakeMessage 8 [0, 0]

def sampleCert : Bytes :=
  handshakeMessage 11 [0, 0, 0, 6, 0, 0, 1, 7, 0, 0]

def sampleCompressed : Bytes :=
  handshakeMessage 25 [0, 2, 0, 0, 1, 0, 0, 1, 7]

def sampleVerify : Bytes :=
  handshakeMessage 15 [4, 3, 0, 1, 9]

def sampleFinished : Bytes :=
  handshakeMessage 20 (zeros 32)

/-- The flight of a TLS 1.3 server. -/
def sampleFlight : Bytes :=
  plainRecord rtHs (sampleHello (zeros 32) sampleShare) ++
    sampleRecord (sampleExtensions ++ sampleCert ++ sampleVerify ++ sampleFinished)

def sampleIo (input : Bytes) : TlsIo :=
  ⟨input, true, 4096, 4096⟩

/-- The sample session after one call on `input`. -/
def sampleConn (input : Bytes) : Conn :=
  ⟨(tlsRecv sampleEnv sampleStart.session (sampleIo input)).session,
    (tlsRecv sampleEnv sampleStart.session (sampleIo input)).rc.isError⟩

theorem sampleConn_reach {guard : Conn → TlsAct → Prop} {input : Bytes}
    (hg : guard sampleStart (.recv (sampleIo input))) :
    Transition.Reach (Conn.step sampleEnv) guard sampleStart (sampleConn input) :=
  Transition.Reach.refl.tail hg rfl

end Sample

end Qanat

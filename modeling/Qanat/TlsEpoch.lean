import Qanat.TlsReady

namespace Qanat

open TlsHandler Outcome

/-- The read key that all bytes of a message have to come from. -/
def Message.requiredKey (m : Message) : Option Epoch :=
  if m.version = 0x0303 then if m.type = hsFinished then some .changed else none
  else if m.type ∈ [hsEncryptedExt, hsCertReq, hsCert, hsCompressedCert, hsCertVerify, hsFinished] then some .handshake
  else if m.type = hsNewTicket then some .application
  else none

/-- Whether a message was refused, or all its bytes came from the key they had to come from. -/
def Message.rightKey (m : Message) : Bool :=
  m.rc.isError || m.requiredKey.all fun e => m.tags.all (·.2 = e)

def rightKeys (log : List Entry) : Bool :=
  log.all fun
    | .message m => m.rightKey
    | _ => true

/-- Whether a message makes the session switch to another read key. -/
def Message.switches (m : Message) : Bool :=
  (m.type = hsServerHello && !isHelloRetry m.body && selectsTls13 m.body) ||
    (m.type = hsFinished && m.version ≠ 0x0303)

/-- Whether the peer laid its messages out so that no record goes on after a message that switches the
read key, and no ChangeCipherSpec of TLS 1.2 stands inside a message. -/
def aligned (log : List Entry) : Bool :=
  log.all fun
    | .message m => !m.switches || m.left = []
    | .ccs v inside => v ≠ 0x0303 || !inside
    | _ => true

/-- The read key in force. -/
def TlsFlow.key (f : TlsFlow) : Epoch :=
  if f.rdOn then f.epoch else .plain

/-- The read key each state has. -/
structure Keyed (f : TlsFlow) : Prop where
  version : f.st = .waitEe → f.version ≠ 0x0303
  extensions : f.st = .waitEe → f.key = .handshake
  flight : f.st = .waitFin → f.version ≠ 0x0303 → f.key = .handshake
  changed : f.st = .waitFin → f.version = 0x0303 → f.key = .changed
  ready : f.st = .ready → f.version ≠ 0x0303 → f.key = .application

/-- A session in the middle of a record opened under `e`, with `p` unprocessed. -/
structure InEpoch (s : TlsSession) (e : Epoch) (p : Bytes) : Prop where
  counted : s.Counted
  tags : ∀ t ∈ s.tags, t.2 = s.flow.key
  rest : p = [] ∨ e = s.flow.key
  keyed : Keyed s.flow
  sound : rightKeys s.log

theorem rightKeys_append (l k : List Entry) : rightKeys (l ++ k) = (rightKeys l && rightKeys k) :=
  List.all_append

theorem aligned_append (l k : List Entry) : aligned (l ++ k) = (aligned l && aligned k) :=
  List.all_append

theorem aligned_old {l k : List Entry} (h : aligned (l ++ k)) : aligned l := by
  rw [aligned_append, Bool.and_eq_true] at h
  exact h.1

theorem aligned_message {l : List Entry} {m : Message} (h : aligned (l ++ [Entry.message m])) (hm : m.switches) :
    m.left = [] := by
  rw [aligned_append, Bool.and_eq_true] at h
  simpa [aligned, hm] using h.2

theorem rightKeys_snoc {l : List Entry} {m : Message} (h : rightKeys l) (hm : m.rightKey) :
    rightKeys (l ++ [Entry.message m]) := by
  rw [rightKeys_append, h]
  simp [rightKeys, hm]

section Accepted

variable {env : TlsEnv} {s : TlsSession} {rc : TlsRc} {f : TlsFlow}

/-- An accepted message that has to come from one key meets the session with that key in force. -/
theorem Accepts.requiredKey (h : Accepts env s rc f) (left : Bytes) (hk : Keyed s.flow) {e : Epoch}
    (he : (s.message env left rc).requiredKey = some e) : s.flow.key = e := by
  have hm : (s.message env left rc).type = s.hsType ∧ (s.message env left rc).version = s.version := ⟨rfl, rfl⟩
  unfold Message.requiredKey at he
  rw [hm.1, hm.2] at he
  cases h with
  | extensions hty hv hst =>
    rw [if_neg hv, hty, if_pos (by decide)] at he
    rw [← Option.some.inj he]
    exact hk.extensions hst
  | request hty hv hst | certificate hty hv hst | compressed hty hv hst | verify hty hv hst | finished hty hv hst =>
    rw [if_neg hv, hty, if_pos (by decide)] at he
    rw [← Option.some.inj he]
    exact hk.flight hst hv
  | ticket hty hv hst =>
    rw [if_neg hv, hty, if_neg (by decide), if_pos rfl] at he
    rw [← Option.some.inj he]
    exact hk.ready hst hv
  | finished12 hty hv hst =>
    rw [if_pos hv, hty, if_pos rfl] at he
    rw [← Option.some.inj he]
    exact hk.changed hst hv
  | retry hty | hello12 hty | hello13 hty =>
    rw [hty] at he
    by_cases hv : s.version = 0x0303
    · rw [if_pos hv, if_neg (by decide)] at he
      exact absurd he (by simp)
    · rw [if_neg hv, if_neg (by decide), if_neg (by decide)] at he
      exact absurd he (by simp)
  | certificate12 hty hv | keyExchange12 hty hv | helloDone12 hty hv | ticket12 hty hv =>
    rw [if_pos hv, hty, if_neg (by decide)] at he
    exact absurd he (by simp)

theorem Accepts.rightKey (h : Accepts env s rc f) (left : Bytes) (hk : Keyed s.flow)
    (ht : ∀ t ∈ s.tags, t.2 = s.flow.key) : (s.message env left rc).rightKey := by
  unfold Message.rightKey
  rw [Bool.or_eq_true]
  right
  cases he : (s.message env left rc).requiredKey with
  | none => rfl
  | some e =>
    rw [Option.all_some, List.all_eq_true]
    intro t hmem
    rw [decide_eq_true_eq, ← h.requiredKey left hk he]
    exact ht t hmem

/-- A message either leaves the read key alone or is one that switches it. -/
theorem Accepts.key (h : Accepts env s rc f) (left : Bytes) :
    f.key = s.flow.key ∨ (s.message env left rc).switches := by
  cases h with
  | hello13 hty hst hr hv =>
    right
    simp [Message.switches, TlsSession.message, hty, hr, hv]
  | finished hty hv hst hc hcv hx =>
    right
    simp [Message.switches, TlsSession.message, hty, hv]
  | retry | hello12 | extensions | request | certificate | compressed | verify | ticket | certificate12
  | keyExchange12 | helloDone12 | finished12 | ticket12 => exact .inl rfl

theorem Accepts.keyed (h : Accepts env s rc f) (hk : Keyed s.flow) : Keyed f := by
  have h₁ := hk.version
  have h₂ := hk.extensions
  have h₃ := hk.flight
  have h₄ := hk.changed
  have h₅ := hk.ready
  constructor
  all_goals cases h <;> simp_all [TlsFlow.key]

end Accepted

theorem Same.inEpoch {s s' : TlsSession} (hs : Same s s') (hp : s'.past = s.past) {e : Epoch} {p : Bytes}
    (h : InEpoch s e []) (hp' : p = [] ∨ e = s.flow.key) : InEpoch s' e p := by
  have htags : s'.tags = s.tags := congrArg TlsPast.tags hp
  have hact : s'.hsActive = s.hsActive := congrArg TlsPast.hsActive hp
  have hhdr : s'.hsHdr = s.hsHdr := congrArg TlsPast.hsHdr hp
  refine ⟨?_, ?_, ?_, ?_, ?_⟩
  · unfold TlsSession.Counted
    rw [htags, hact, hhdr]
    exact h.counted
  · rw [htags, hs.flow]
    exact h.tags
  · rw [hs.flow]
    exact hp'
  · rw [hs.flow]
    exact h.keyed
  · rw [hs.log]
    exact h.sound

theorem changed_inEpoch {s : TlsSession} {e : Epoch} (h : InEpoch s e []) (hal : aligned s.changed.log) :
    InEpoch s.changed e [] := by
  rw [changed_log, aligned_append, Bool.and_eq_true] at hal
  have hpast : s.changed.tags = s.tags ∧ s.changed.hsActive = s.hsActive ∧ s.changed.hsHdr = s.hsHdr := by
    unfold TlsSession.changed TlsSession.tls12OnCcs
    dsimp only
    split_ifs <;> exact ⟨rfl, rfl, rfl⟩
  have hcounted : s.changed.Counted := by
    unfold TlsSession.Counted
    rw [hpast.1, hpast.2.1, hpast.2.2]
    exact h.counted
  have hsound : rightKeys s.changed.log := by
    rw [changed_log, rightKeys_append, h.sound]
    rfl
  refine ⟨hcounted, ?_, .inl rfl, ?_, hsound⟩
  · rw [hpast.1, changed_flow]
    split_ifs with hturn
    · have hin := hal.2
      simp only [aligned, hturn.1, List.all_cons, List.all_nil, ne_eq, not_true_eq_false, decide_false, Bool.false_or,
        Bool.and_true, Bool.not_eq_true', decide_eq_false_iff_not, not_or, Bool.not_eq_true, not_not] at hin
      rw [h.counted.nil hin]
      simp
    · exact h.tags
  · rw [changed_flow]
    split_ifs with hturn
    · exact ⟨by simp, by simp, fun _ hv => absurd hturn.1 hv, fun _ _ => rfl, by simp⟩
    · exact h.keyed

/-- What a session whose peer lays its messages out right is in the middle of a record. -/
def AlignedEpoch (s : TlsSession) (e : Epoch) (p : Bytes) : Prop :=
  aligned s.log → InEpoch s e p

def AlignedDone (s : TlsSession) : Prop :=
  aligned s.log → rightKeys s.log

theorem epoch_rules (env : TlsEnv) : FlowRules env AlignedEpoch AlignedDone where
  skip := by
    intro s e p h hal
    have hs := h hal
    exact ⟨hs.counted, hs.tags, .inl rfl, hs.keyed, hs.sound⟩
  grown := by
    intro s e q rest s' h hg hal
    rw [hg.log] at hal
    have hs := h hal
    have hrest : ∀ {x : UInt8 × Epoch}, x ∈ q.map (·, e) → x.2 = s.flow.key := by
      intro x hx
      obtain ⟨b, hb, rfl⟩ := List.mem_map.mp hx
      rcases hs.rest with hnil | he
      · rw [(List.append_eq_nil_iff.mp hnil).1] at hb
        exact absurd hb (by simp)
      · exact he
    refine ⟨hg.counted hs.counted, ?_, ?_, hg.flow.symm ▸ hs.keyed, hg.log.symm ▸ hs.sound⟩
    · rw [hg.flow, hg.tags]
      intro t ht
      rcases List.mem_append.mp ht with ht | ht
      · exact hs.tags t ht
      · exact hrest ht
    · rw [hg.flow]
      rcases hs.rest with hnil | he
      · exact .inl (List.append_eq_nil_iff.mp hnil).2
      · exact .inr he
  same := by
    intro s e p s' h hs hal
    rw [hs.log] at hal ⊢
    exact (h hal).sound
  accepted := by
    intro s e rest rc f s' h _ hacc hend hal
    rw [hend.log] at hal
    have hs := h (aligned_old hal)
    refine ⟨?_, ?_, ?_, hend.flow.symm ▸ hacc.keyed hs.keyed, ?_⟩
    · intro _
      rw [hend.tags, hend.between.2]
      rfl
    · rw [hend.tags]
      simp
    · rw [hend.flow]
      rcases hacc.key rest with hkey | hsw
      · rw [hkey]
        exact hs.rest
      · exact .inl (aligned_message hal hsw)
    · rw [hend.log]
      exact rightKeys_snoc hs.sound (hacc.rightKey rest hs.keyed hs.tags)
  refused := by
    intro s e rest rc f s' h hrc _ hend hal
    rw [hend.log] at hal ⊢
    have hs := h (aligned_old hal)
    exact rightKeys_snoc hs.sound (by simp [Message.rightKey, TlsSession.message, hrc])
  opened := by
    intro s e s' p h hs hp hal
    rw [hs.log] at hal
    have hin := h hal
    exact hs.inEpoch hp ⟨hin.counted, hin.tags, .inl rfl, hin.keyed, hin.sound⟩ (.inr rfl)
  ccs := by
    intro s e h _ _ _ hal
    have hold : aligned s.log := by
      rw [changed_log] at hal
      exact aligned_old hal
    exact changed_inEpoch (h hold) hal
  alert := by
    intro s e p h hal
    have hs := (h (aligned_old hal)).sound
    show rightKeys (s.log ++ [Entry.alert])
    rw [rightKeys_append, hs]
    rfl
  data := by
    intro s e p h _ hal
    have hs := h (aligned_old hal)
    refine ⟨hs.counted, hs.tags, .inl rfl, hs.keyed, ?_⟩
    show rightKeys (s.log ++ [Entry.data p])
    rw [rightKeys_append, hs.sound]
    rfl

theorem start_epoch (env : TlsEnv) (cfg : TlsConfig) (draws : HelloDraws) (cap : Nat) :
    AlignedEpoch (Conn.start env cfg draws cap).session .plain [] := by
  intro _
  obtain ⟨st, hst, hflow, hpast⟩ := start_flow env cfg draws cap
  have hlog : (Conn.start env cfg draws cap).session.log = [] := congrArg TlsPast.log hpast
  have htags : (Conn.start env cfg draws cap).session.tags = [] := congrArg TlsPast.tags hpast
  have hhdr : (Conn.start env cfg draws cap).session.hsHdr = [] := congrArg TlsPast.hsHdr hpast
  refine ⟨fun _ => by rw [htags, hhdr]; rfl, by simp [htags], .inl rfl, ?_, by rw [hlog]; rfl⟩
  rw [hflow]
  rcases hst with rfl | rfl <;> exact ⟨by simp, by simp, by simp, by simp, by simp⟩

/-- In a run that ends at the first error and in which the peer keeps its messages off the key changes,
every accepted message came whole from the key it has to come from, and so does what has been received of
the next one. -/
theorem messages_keyed {env : TlsEnv} {cfg : TlsConfig} {draws : HelloDraws} {cap : Nat} {c : Conn}
    (h : Transition.Reach (Conn.step env) (fun c _ => c.failed = false) (Conn.start env cfg draws cap) c)
    (hal : aligned c.session.log) :
    rightKeys c.session.log ∧ (c.failed = false → ∀ t ∈ c.session.tags, t.2 = c.session.epoch) := by
  have hdet : ∀ e, Detached fun s => AlignedEpoch s e [] := by
    intro e
    refine ⟨fun s buf h hal => ?_, fun s n h hal => ?_⟩
    · have hs := h hal
      exact ⟨hs.counted, hs.tags, hs.rest, hs.keyed, hs.sound⟩
    · have hs := h hal
      exact ⟨hs.counted, hs.tags, hs.rest, hs.keyed, hs.sound⟩
  have hdet' : Detached AlignedDone := ⟨fun _ _ h => h, fun _ _ h => h⟩
  have hu := reach_until (epoch_rules env).rules hdet hdet' (fun _ _ h => h) rfl (start_epoch env cfg draws cap) h
  by_cases hf : c.failed
  · exact ⟨hu.2 hf hal, fun hf' => absurd hf (by simp [hf'])⟩
  · obtain ⟨e, he⟩ := hu.1 (by simpa using hf)
    have hs := he hal
    exact ⟨hs.sound, fun _ => hs.tags⟩

theorem messages_keyed_sample : (sampleConn sampleFlight).session.ready = true ∧
    rightKeys (sampleConn sampleFlight).session.log :=
  ⟨by decide +kernel, (messages_keyed (sampleConn_reach rfl) (by decide +kernel)).1⟩

/-- A flight whose EncryptedExtensions follow the ServerHello in its own record. -/
def plainExtensions : Bytes :=
  plainRecord rtHs (sampleHello (zeros 32) sampleShare ++ sampleExtensions) ++
    sampleRecord (sampleCert ++ sampleVerify ++ sampleFinished)

/-- A session takes EncryptedExtensions that no key protects. -/
theorem plainExtensions_ready : Transition.Reach (Conn.step sampleEnv) (fun c _ => c.failed = false) sampleStart
      (sampleConn plainExtensions) ∧
    (sampleConn plainExtensions).session.ready = true ∧ (sampleConn plainExtensions).session.version = 0x0304 ∧
    rightKeys (sampleConn plainExtensions).session.log = false :=
  ⟨sampleConn_reach rfl, by decide +kernel, by decide +kernel, by decide +kernel⟩

end Qanat

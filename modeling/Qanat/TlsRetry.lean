import Qanat.TlsHelloWire
import Qanat.TlsReady

namespace Qanat

open TlsHandler Outcome

/-- The groups a profile sends key shares for; `qn_tls_hello_build` has no profile for `random`. -/
def profileShares : TlsFp → Option (List Nat)
  | .chrome => some [0x11EC, 0x001D]
  | .firefox => some [0x11EC, 0x001D, 0x0017]
  | .safari => some [0x11EC, 0x001D]
  | .random => none

def findShare (req : HelloReq) (group : Nat) : Option HelloKeyShare :=
  req.keyShares.find? (·.group = group)

/-- The groups of the key shares that `S_KSHARE` of `emit_slot` writes after a GREASE one; `none` where it
sets the error. -/
def helloShares (req : HelloReq) : Option (List Nat) := do
  let shares ← profileShares req.fp
  let groups := if req.selectedGroup ≠ 0 then [req.selectedGroup] else shares
  if groups.all fun g => (findShare req g).any (·.data ≠ []) then some groups else none

/-- A ClientHello is only built with its key shares in it. -/
def BuildsShares (env : TlsEnv) : Prop :=
  ∀ req info, env.helloBuild req = some info → (helloShares req).isSome

/-- The request for the ClientHello a session sent last. -/
def TlsSession.lastRequest (s : TlsSession) : HelloReq :=
  if s.hrrDone then { sessionHelloRequest s s.hrrGroup with cookie := s.hrrCookie } else sessionHelloRequest s 0

/-- An accepted message of a kind. -/
def Heard (log : List Entry) (k : Kind) (m : Message) : Prop :=
  .message m ∈ log ∧ (Entry.message m).kind = some k

/-- The accepted messages of a kind. -/
def accepted (log : List Entry) (k : Kind) : List Message :=
  log.filterMap fun x => match x with
    | .message m => if x.kind = some k then some m else none
    | _ => none

theorem heard_iff {log : List Entry} {k : Kind} {m : Message} : Heard log k m ↔ m ∈ accepted log k := by
  unfold accepted Heard
  rw [List.mem_filterMap]
  constructor
  · rintro ⟨hm, hk⟩
    exact ⟨_, hm, if_pos hk⟩
  · rintro ⟨x, hx, hm⟩
    cases x with
    | message m' =>
      dsimp only at hm
      split_ifs at hm with hk
      cases hm
      exact ⟨hx, hk⟩
    | ccs v i => simp at hm
    | alert => simp at hm
    | data p => simp at hm

theorem kind_hello_iff (m : Message) (retry : Bool) :
    (Entry.message m).kind = some (if retry then .retry else .hello) ↔
      m.rc.isError = false ∧ m.type = hsServerHello ∧ isHelloRetry m.body = retry := by
  unfold Entry.kind
  dsimp only
  by_cases herr : m.rc.isError
  · cases retry <;> split_ifs <;> simp [herr]
  · have hrc : m.rc.isError = false := by simpa using herr
    rw [if_neg herr]
    unfold Message.kind
    by_cases hty : m.type = hsServerHello
    · unfold kindOf
      rw [if_pos hty]
      cases retry <;> cases isHelloRetry m.body <;> simp [hrc, hty]
    · have hne := kindOf_ne_hello (isHelloRetry m.body) hty
      cases retry
      · simp [hty, hne.2]
      · simp [hty, hne.1]

theorem heard_append {log : List Entry} {x : Entry} {k : Kind} {m : Message} :
    Heard (log ++ [x]) k m ↔ Heard log k m ∨ x = .message m ∧ x.kind = some k := by
  unfold Heard
  rw [List.mem_append, List.mem_singleton, or_and_right]
  refine or_congr_right ⟨?_, ?_⟩
  · rintro ⟨rfl, hk⟩
    exact ⟨rfl, hk⟩
  · rintro ⟨rfl, hk⟩
    exact ⟨rfl, hk⟩

/-- What a ServerHello that picked a version was checked for. -/
structure Picked (s : TlsSession) (m : Message) : Prop where
  retried : s.hrrDone → hasExtension m.body 0x002B → s.version = 0x0304
  suite : s.hrrDone → s.version = 0x0304 → s.suite = s.hrrSuite
  share : s.version = 0x0304 → s.peerGroup ∈ shareGroups m.body ∧ capabilityGroup s.peerGroup
  named : s.version = 0x0304 → s.hrrDone → s.hrrGroup ≠ 0 → s.peerGroup = s.hrrGroup
  first : s.version = 0x0304 → s.hrrDone = false → firstHelloHasGroup s s.peerGroup

/-- What a session has asked for and what it was given. -/
structure Offered (env : TlsEnv) (s : TlsSession) : Prop where
  first : s.hrrDone = false → s.hrrGroup = 0
  built : s.st ≠ .new → ∃ info, env.helloBuild s.lastRequest = some info ∧ s.ch = info.body
  retry : ∀ r, Heard s.log .retry r → s.hrrDone ∧ helloSuite r.body = s.hrrSuite ∧
    (hasExtension r.body 0x0033 = false → s.hrrGroup = 0)
  retried : s.hrrDone → ∃ r, Heard s.log .retry r ∧ (hasExtension r.body 0x0033 → s.hrrGroup ≠ 0)
  unpicked : s.st = .new ∨ s.st = .waitSh → ∀ m, ¬ Heard s.log .hello m
  picked : ∀ m, Heard s.log .hello m → Picked s m

/-- What of the wire a session's offer depends on. -/
def TlsWire.offer (x : TlsWire) : TlsWire :=
  { x with trOn := false, transcript := hashInit .sha256, trFin := hashInit .sha256, flights := [], peerGroup := 0 }

theorem lastRequest_eq {s s' : TlsSession} (hcfg : s'.cfg = s.cfg) (hw : s'.wire.offer = s.wire.offer)
    (hdone : s'.hrrDone = s.hrrDone) : s'.lastRequest = s.lastRequest := by
  have hreq := sessionHelloRequest_eq hcfg (congrArg TlsWire.keys hw) (congrArg TlsWire.helloGreaseSeed hw)
    (congrArg TlsWire.clientRandom hw) (congrArg TlsWire.sessionId hw) (congrArg TlsWire.echPayloadLen hw)
    (congrArg TlsWire.echAead hw)
  have hgroup : s'.hrrGroup = s.hrrGroup := congrArg TlsWire.hrrGroup hw
  have hcookie : s'.hrrCookie = s.hrrCookie := congrArg TlsWire.hrrCookie hw
  unfold TlsSession.lastRequest
  rw [hreq, hreq, hdone, hgroup, hcookie]

/-- A change of a session that no ServerHello made. -/
structure Steady (s s' : TlsSession) : Prop where
  cfg : s'.cfg = s.cfg
  offer : s'.wire.offer = s.wire.offer
  group : s.version = 0x0304 → s'.peerGroup = s.peerGroup
  version : s'.version = s.version
  hrrDone : s'.hrrDone = s.hrrDone
  early : s'.st = .new ∨ s'.st = .waitSh → s.st = .new ∨ s.st = .waitSh
  late : s'.st ≠ .new → s.st ≠ .new
  heard : ∀ m k, k = .retry ∨ k = .hello → (Heard s'.log k m ↔ Heard s.log k m)

theorem Picked.steady {s s' : TlsSession} {m : Message} (h : Picked s m) (hs : Steady s s') : Picked s' m := by
  have hsuite : s'.suite = s.suite := congrArg TlsWire.suite hs.offer
  have hhrr : s'.hrrSuite = s.hrrSuite := congrArg TlsWire.hrrSuite hs.offer
  have hgroup : s'.hrrGroup = s.hrrGroup := congrArg TlsWire.hrrGroup hs.offer
  have hfp : s'.fp = s.fp := by
    unfold TlsSession.fp
    rw [hs.cfg]
  refine ⟨?_, ?_, fun hv => ?_, fun hv => ?_, fun hv => ?_⟩
  · rw [hs.hrrDone, hs.version]
    exact h.retried
  · rw [hs.hrrDone, hs.version, hsuite, hhrr]
    exact h.suite
  · rw [hs.version] at hv
    rw [hs.group hv]
    exact h.share hv
  · rw [hs.version] at hv
    rw [hs.group hv, hs.hrrDone, hgroup]
    exact h.named hv
  · rw [hs.version] at hv
    rw [hs.group hv, hs.hrrDone]
    unfold firstHelloHasGroup
    rw [hfp]
    exact h.first hv

theorem Offered.steady {env : TlsEnv} {s s' : TlsSession} (h : Offered env s) (hs : Steady s s') : Offered env s' := by
  have hhrr : s'.hrrSuite = s.hrrSuite := congrArg TlsWire.hrrSuite hs.offer
  have hgroup : s'.hrrGroup = s.hrrGroup := congrArg TlsWire.hrrGroup hs.offer
  have hch : s'.ch = s.ch := congrArg TlsWire.ch hs.offer
  refine ⟨?_, fun hst => ?_, fun r hr => ?_, fun hd => ?_, fun hst m hm => ?_, fun m hm => ?_⟩
  · rw [hs.hrrDone, hgroup]
    exact h.first
  · rw [lastRequest_eq hs.cfg hs.offer hs.hrrDone, hch]
    exact h.built (hs.late hst)
  · rw [hs.hrrDone, hhrr, hgroup]
    exact h.retry r ((hs.heard r _ (.inl rfl)).mp hr)
  · rw [hs.hrrDone] at hd
    obtain ⟨r, hr, hg⟩ := h.retried hd
    rw [hgroup]
    exact ⟨r, (hs.heard r _ (.inl rfl)).mpr hr, hg⟩
  · exact h.unpicked (hs.early hst) m ((hs.heard m _ (.inr rfl)).mp hm)
  · exact (h.picked m ((hs.heard m _ (.inr rfl)).mp hm)).steady hs

theorem Same.heard {s s' : TlsSession} (h : Same s s') (m : Message) (k : Kind) :
    Heard s'.log k m ↔ Heard s.log k m := by
  rw [h.log]

theorem Same.steady {s s' : TlsSession} (h : Same s s') (hcfg : s'.cfg = s.cfg) (hw : s'.wire.offer = s.wire.offer)
    (hg : s'.peerGroup = s.peerGroup) : Steady s s' := by
  have hst : s'.st = s.st := congrArg TlsFlow.st h.flow
  refine ⟨hcfg, hw, fun _ => hg, congrArg TlsFlow.version h.flow, congrArg TlsFlow.hrrDone h.flow, ?_, ?_,
    fun m k _ => h.heard m k⟩
  · rw [hst]
    exact id
  · rw [hst]
    exact id

theorem trUpdate_offer (s : TlsSession) (p : Bytes) : (s.trUpdate p).cfg = s.cfg ∧
    (s.trUpdate p).wire.offer = s.wire.offer ∧ (s.trUpdate p).peerGroup = s.peerGroup := by
  unfold TlsSession.trUpdate
  split
  · exact ⟨rfl, rfl, rfl⟩
  · exact ⟨rfl, rfl, rfl⟩

theorem beginMessage_offer (s : TlsSession) : s.beginMessage.cfg = s.cfg ∧
    s.beginMessage.wire.offer = s.wire.offer ∧ s.beginMessage.peerGroup = s.peerGroup := by
  unfold TlsSession.beginMessage TlsSession.trUpdate
  dsimp only
  split_ifs <;> exact ⟨rfl, rfl, rfl⟩

theorem bodyTaken_offer (s : TlsSession) (e : Epoch) (q : Bytes) (c : CertScan) (c13 : Cert13Scan) :
    ((s.scanning c c13).bodyTaken e q).cfg = s.cfg ∧ ((s.scanning c c13).bodyTaken e q).wire.offer = s.wire.offer ∧
      ((s.scanning c c13).bodyTaken e q).peerGroup = s.peerGroup :=
  ⟨rfl, rfl, rfl⟩

theorem Took.steady {e : Epoch} {s s' : TlsSession} {q : Bytes} (h : Took e s q s') : Steady s s' := by
  have hsame := h.grown.toSame
  cases h with
  | header ha hlen => exact hsame.steady rfl rfl rfl
  | start ha hlen hq =>
    obtain ⟨hcfg, hw, hg⟩ := beginMessage_offer (s.headerTaken e q)
    exact hsame.steady hcfg hw hg
  | body ha hq c c13 =>
    obtain ⟨hcfg, hw, hg⟩ := trUpdate_offer s q
    obtain ⟨hcfg', hw', hg'⟩ := bodyTaken_offer (s.trUpdate q) e q c c13
    exact hsame.steady (hcfg'.trans hcfg) (hw'.trans hw) (hg'.trans hg)

/-- An entry of the history that no ServerHello makes. -/
theorem steady_noted {s s' : TlsSession} {x : Entry} (hlog : s'.log = s.log ++ [x])
    (hx : x.kind ≠ some .retry ∧ x.kind ≠ some .hello) (hcfg : s'.cfg = s.cfg) (hw : s'.wire.offer = s.wire.offer)
    (hg : s.version = 0x0304 → s'.peerGroup = s.peerGroup) (hv : s'.version = s.version)
    (hdone : s'.hrrDone = s.hrrDone) (hst : s'.st = s.st ∨ s'.st ≠ .new ∧ s'.st ≠ .waitSh ∧ s.st ≠ .new) :
    Steady s s' := by
  refine ⟨hcfg, hw, hg, hv, hdone, fun h => ?_, fun h => ?_, fun m k hk => ?_⟩
  · rcases hst with hst | ⟨hn, hw, -⟩
    · rw [← hst]
      exact h
    · exact absurd h (by simp [hn, hw])
  · rcases hst with hst | ⟨-, -, hn⟩
    · rw [← hst]
      exact h
    · exact hn
  · rw [hlog, heard_append]
    refine or_iff_left ?_
    rintro ⟨-, hkind⟩
    rcases hk with rfl | rfl
    · exact hx.1 hkind
    · exact hx.2 hkind

section Accepted

variable {env : TlsEnv} {s v : TlsSession} {rc : TlsRc} {f : TlsFlow} {left : Bytes}

theorem Accepts.version_kept (h : Accepts env s rc f) (hty : s.hsType ≠ hsServerHello) :
    f.version = s.version ∧ f.hrrDone = s.hrrDone ∧ (f.st = s.st ∨ f.st ≠ .new ∧ f.st ≠ .waitSh ∧ s.st ≠ .new) := by
  cases h <;> simp_all

/-- A message other than ServerHello. -/
theorem steady_other (hacc : Accepts env s rc f) (hty : s.hsType ≠ hsServerHello) (hcfg : v.cfg = s.cfg)
    (hw : v.wire.offer = s.wire.offer) (hg : s.version = 0x0304 → v.peerGroup = s.peerGroup)
    (hend : Ended s f (s.message env left rc) (v.endMessage (s.message env left rc))) :
    Steady s (v.endMessage (s.message env left rc)) := by
  obtain ⟨hv, hdone, hst⟩ := hacc.version_kept hty
  have hst' : (v.endMessage (s.message env left rc)).st = f.st := congrArg TlsFlow.st hend.flow
  have hkind := kindOf_ne_hello (isHelloRetry s.hs) hty
  have hx : (Entry.message (s.message env left rc)).kind = kindOf s.hsType (isHelloRetry s.hs) :=
    if_neg (by simp [TlsSession.message, hacc.isError])
  refine steady_noted hend.log ?_ hcfg hw hg ((congrArg TlsFlow.version hend.flow).trans hv)
    ((congrArg TlsFlow.hrrDone hend.flow).trans hdone) ?_
  · rw [hx]
    exact hkind
  · rw [hst']
    exact hst

theorem offered_retry (h : Offered env s) (hacc : Accepts env s rc f) (hty : s.hsType = hsServerHello)
    (hst : s.st = .waitSh) (hr : isHelloRetry s.hs) (hcfg : v.cfg = s.cfg) {info : HelloInfo} {group : Nat} {cookie : Bytes}
    (hgroup : hasExtension s.hs 0x0033 = false ∧ group = s.hrrGroup ∨
      hasExtension s.hs 0x0033 ∧ group = groupP256 ∧ s.fp ≠ .firefox)
    (hbuild : env.helloBuild { sessionHelloRequest s group with cookie := cookie } = some info)
    (hoff : v.wire.offer = { s.wire with
      suite := helloSuite s.hs, hrrSuite := helloSuite s.hs, hrrGroup := group, hrrCookie := cookie,
      ch := info.body }.offer)
    (hend : Ended s f (s.message env left rc) (v.endMessage (s.message env left rc))) :
    Offered env (v.endMessage (s.message env left rc)) := by
  obtain ⟨-, hfd, hsd⟩ | ⟨hr', -⟩ := hacc.ofHello hty
  swap
  · exact absurd hr (by simp [hr'])
  have hzero := h.first hsd
  have hdone : v.hrrDone = true := (congrArg TlsFlow.hrrDone hend.flow).trans hfd
  have hgroup' : v.hrrGroup = group := congrArg TlsWire.hrrGroup hoff
  have hsuite' : v.hrrSuite = helloSuite s.hs := congrArg TlsWire.hrrSuite hoff
  have hcookie' : v.hrrCookie = cookie := congrArg TlsWire.hrrCookie hoff
  have hch : v.ch = info.body := congrArg TlsWire.ch hoff
  have hnone : ∀ r, ¬ Heard s.log .retry r := by
    intro r hr
    have hd := (h.retry r hr).1
    rw [hsd] at hd
    exact absurd hd (by simp)
  have hkind : (Entry.message (s.message env left rc)).kind = some .retry :=
    (kind_hello_iff _ true).mpr ⟨hacc.isError, hty, hr⟩
  have hpicked : ∀ m, ¬ Heard (s.log ++ [Entry.message (s.message env left rc)]) .hello m := by
    intro m hm
    rw [heard_append, hkind] at hm
    simp [h.unpicked (.inr hst) m] at hm
  refine ⟨fun hd => ?_, fun _ => ⟨info, ?_, hch⟩, fun r hr => ?_, fun _ => ⟨s.message env left rc, ?_, fun he => ?_⟩,
    fun _ => ?_, fun m hm => ?_⟩
  · have hd' : v.hrrDone = false := hd
    rw [hdone] at hd'
    exact absurd hd' (by simp)
  · have hreq : (v.endMessage (s.message env left rc)).lastRequest =
        { sessionHelloRequest v v.hrrGroup with cookie := v.hrrCookie } := if_pos hdone
    rw [hreq, hgroup', hcookie', sessionHelloRequest_eq hcfg (congrArg TlsWire.keys hoff)
      (congrArg TlsWire.helloGreaseSeed hoff) (congrArg TlsWire.clientRandom hoff) (congrArg TlsWire.sessionId hoff)
      (congrArg TlsWire.echPayloadLen hoff) (congrArg TlsWire.echAead hoff)]
    exact hbuild
  · rw [hend.log, heard_append] at hr
    rcases hr with hr | ⟨hr, -⟩
    · exact absurd hr (hnone r)
    · obtain rfl := Entry.message.inj hr
      refine ⟨hdone, hsuite'.symm, fun he => ?_⟩
      rcases hgroup with ⟨-, hg⟩ | ⟨he', -⟩
      · exact hgroup'.trans (hg.trans hzero)
      · exact absurd he' (by simp [show hasExtension s.hs 0x0033 = false from he])
  · rw [hend.log, heard_append]
    exact .inr ⟨rfl, hkind⟩
  · rcases hgroup with ⟨he', -⟩ | ⟨-, hg, -⟩
    · exact absurd he (by simp [TlsSession.message, he'])
    · show v.hrrGroup ≠ 0
      rw [hgroup', hg]
      decide
  · rw [hend.log]
    exact hpicked
  · rw [hend.log] at hm
    exact absurd hm (hpicked m)

theorem offered_pick (h : Offered env s) (hacc : Accepts env s rc f) (hty : s.hsType = hsServerHello)
    (hst : s.st = .waitSh) (hr : isHelloRetry s.hs = false) (hcfg : v.cfg = s.cfg) {group : Nat}
    (hpick : HelloPicked s v.version group) (hg : v.peerGroup = group)
    (hoff : v.wire.offer = { s.wire with suite := helloSuite s.hs }.offer)
    (hend : Ended s f (s.message env left rc) (v.endMessage (s.message env left rc))) :
    Offered env (v.endMessage (s.message env left rc)) := by
  obtain ⟨hr', -⟩ | ⟨-, hfd, hfst⟩ := hacc.ofHello hty
  · exact absurd hr' (by simp [hr])
  have hdone : v.hrrDone = s.hrrDone := (congrArg TlsFlow.hrrDone hend.flow).trans hfd
  have hgroup' : v.hrrGroup = s.hrrGroup := congrArg TlsWire.hrrGroup hoff
  have hsuite' : v.hrrSuite = s.hrrSuite := congrArg TlsWire.hrrSuite hoff
  have hsuite : v.suite = helloSuite s.hs := congrArg TlsWire.suite hoff
  have hcookie' : v.hrrCookie = s.hrrCookie := congrArg TlsWire.hrrCookie hoff
  have hch : v.ch = s.ch := congrArg TlsWire.ch hoff
  have hkind : (Entry.message (s.message env left rc)).kind = some .hello :=
    (kind_hello_iff _ false).mpr ⟨hacc.isError, hty, hr⟩
  have hretry : ∀ r, Heard (v.endMessage (s.message env left rc)).log .retry r ↔ Heard s.log .retry r := by
    intro r
    rw [hend.log, heard_append, hkind]
    simp
  have hfp : v.fp = s.fp := by
    unfold TlsSession.fp
    rw [hcfg]
  refine ⟨?_, fun _ => ?_, fun r hr => ?_, fun hd => ?_, fun hst' => ?_, fun m hm => ?_⟩
  · show v.hrrDone = false → v.hrrGroup = 0
    rw [hdone, hgroup']
    exact h.first
  · have hreq : (v.endMessage (s.message env left rc)).lastRequest = s.lastRequest := by
      have he := sessionHelloRequest_eq hcfg (congrArg TlsWire.keys hoff)
        (congrArg TlsWire.helloGreaseSeed hoff) (congrArg TlsWire.clientRandom hoff) (congrArg TlsWire.sessionId hoff)
        (congrArg TlsWire.echPayloadLen hoff) (congrArg TlsWire.echAead hoff)
      show v.lastRequest = s.lastRequest
      unfold TlsSession.lastRequest
      rw [he, he, hdone, hgroup', hcookie']
    rw [hreq]
    show ∃ info : HelloInfo, _ ∧ v.ch = info.body
    rw [hch]
    exact h.built (by simp [hst])
  · show v.hrrDone ∧ helloSuite r.body = v.hrrSuite ∧ (_ → v.hrrGroup = 0)
    rw [hdone, hsuite', hgroup']
    exact h.retry r ((hretry r).mp hr)
  · have hd' : v.hrrDone = true := hd
    rw [hdone] at hd'
    obtain ⟨r, hr, hne⟩ := h.retried hd'
    refine ⟨r, (hretry r).mpr hr, ?_⟩
    show _ → v.hrrGroup ≠ 0
    rw [hgroup']
    exact hne
  · have hnew : f.st ≠ .new := by cases hacc <;> simp_all
    have hst'' : f.st = .new ∨ f.st = .waitSh := (congrArg TlsFlow.st hend.flow) ▸ hst'
    exact absurd hst'' (by simp [hnew, hfst])
  · rw [hend.log, heard_append] at hm
    rcases hm with hm | ⟨hm, -⟩
    · exact absurd hm (h.unpicked (.inr hst) m)
    obtain rfl := Entry.message.inj hm
    cases hpick with
    | tls12 hv hno hgr =>
      have h13 : v.version ≠ 0x0304 := by simp [hv]
      refine ⟨fun _ he => ?_, fun _ hv' => absurd hv' h13, fun hv' => absurd hv' h13, fun hv' => absurd hv' h13,
        fun hv' => absurd hv' h13⟩
      exact absurd he (by simp [TlsSession.message, hno])
    | tls13 hv hs hn hf hcap hmem =>
      refine ⟨fun _ _ => hv, fun hd _ => ?_, fun _ => ?_, fun _ hd hne => ?_, fun _ hd => ?_⟩
      · show v.suite = v.hrrSuite
        rw [hsuite, hsuite']
        exact hs (hdone ▸ hd)
      · show v.peerGroup ∈ _ ∧ capabilityGroup v.peerGroup
        rw [hg]
        exact ⟨hmem, hcap⟩
      · show v.peerGroup = v.hrrGroup
        rw [hg, hgroup']
        exact hn (hdone ▸ hd) (hgroup' ▸ hne)
      · show firstHelloHasGroup v v.peerGroup
        rw [hg]
        unfold firstHelloHasGroup
        rw [hfp]
        exact hf (hdone ▸ hd)

theorem offered_accepted (h : Offered env s) (hacc : Accepts env s rc f) (hcfg : v.cfg = s.cfg)
    (hdid : WireDid env s.received v)
    (hend : Ended s f (s.message env left rc) (v.endMessage (s.message env left rc))) :
    Offered env (v.endMessage (s.message env left rc)) := by
  cases hdid with
  | hello hty hst hwhole hdid =>
    cases hdid with
    | retry hr hash info group cookie hgroup hbuild hwire =>
      exact offered_retry h hacc hty hst hr hcfg hgroup hbuild (by rw [hwire]; rfl) hend
    | pick hr hash group hpick hwire =>
      have hpicked : HelloPicked s v.version group := by
        cases hpick with
        | tls12 hv hno hg => exact .tls12 hv hno hg
        | tls13 hv hs hn hf hcap hmem => exact .tls13 hv hs hn hf hcap hmem
      exact offered_pick h hacc hty hst hr hcfg hpicked (congrArg TlsWire.peerGroup hwire) (by rw [hwire]; rfl) hend
  | sent hty l hwire =>
    exact h.steady (steady_other hacc hty hcfg (by rw [hwire]; rfl) (fun _ => congrArg TlsWire.peerGroup hwire) hend)
  | group hty hv g hwire =>
    refine h.steady (steady_other hacc hty hcfg (by rw [hwire]; rfl) (fun hv' => ?_) hend)
    exact absurd (hv'.symm.trans hv) (by decide)

end Accepted

theorem offered_rules (env : TlsEnv) : SessionRules env (fun s _ _ => Offered env s) (fun _ => True) where
  skip := fun w e p h => h
  took := fun w e q rest s' h ht => h.steady ht.steady
  spoilt := fun w e p s' _ _ => ⟨rfl, trivial⟩
  accepted := by
    intro w e rest rc v h ha hgot hd
    have hdid := tlsDispatch_wire env { w with session := w.session.received }
    have hs := tlsDispatch_settles env { w with session := w.session.received }
    rw [hd] at hdid hs
    obtain ⟨f, hacc, hm⟩ := hs
    exact offered_accepted h hacc.of_received (congrArg TlsPast.cfg hm.past) hdid.1 (hm.ended _)
  refused := fun w e rest rc v _ _ _ hd => ⟨(dispatched_error rest hd).1, trivial⟩
  opened := by
    intro w e s' h ho p
    refine h.steady (ho.same.steady (congrArg TlsPast.cfg ho.past) ?_ ?_)
    · rcases ho with rfl | rfl <;> rfl
    · rcases ho with rfl | rfl <;> rfl
  failed := fun w e p rc _ hrc => ⟨hrc, trivial⟩
  ccs := by
    intro w e h _ _ _
    have hf := changed_flow w.session
    refine h.steady (steady_noted (changed_log w.session) (by simp [Entry.kind]) ?_ ?_ (fun _ => ?_) ?_ ?_ ?_)
    · unfold TlsSession.changed TlsSession.tls12OnCcs
      dsimp only
      split_ifs <;> rfl
    · unfold TlsSession.changed TlsSession.tls12OnCcs
      dsimp only
      split_ifs <;> rfl
    · unfold TlsSession.changed TlsSession.tls12OnCcs
      dsimp only
      split_ifs <;> rfl
    · have hv := congrArg TlsFlow.version hf
      split_ifs at hv
      · exact hv
      · exact hv
    · have hd := congrArg TlsFlow.hrrDone hf
      split_ifs at hd
      · exact hd
      · exact hd
    · have hs := congrArg TlsFlow.st hf
      split_ifs at hs with hturn
      · have hs' : w.session.changed.st = .waitFin := hs
        exact .inr (by simp [hs', hturn.2])
      · exact .inl hs
  alert := fun w e p _ => ⟨rfl, trivial⟩
  data := fun w e p h _ => h.steady (steady_noted rfl (by simp [Entry.kind]) rfl rfl (fun _ => rfl) rfl rfl (.inl rfl))

theorem start_offered (env : TlsEnv) (cfg : TlsConfig) (draws : HelloDraws) (cap : Nat) :
    Offered env (Conn.start env cfg draws cap).session := by
  have hnew : ∀ s : TlsSession, s.hrrDone = false → s.hrrGroup = 0 → s.log = [] →
      (s.st ≠ .new → ∃ info, env.helloBuild (sessionHelloRequest s 0) = some info ∧ s.ch = info.body) →
      Offered env s := by
    intro s hdone hgroup hlog hbuilt
    refine ⟨fun _ => hgroup, ?_, by simp [Heard, hlog], by simp [hdone], by simp [Heard, hlog], by simp [Heard, hlog]⟩
    unfold TlsSession.lastRequest
    rw [hdone]
    exact hbuilt
  unfold Conn.start tlsStart
  dsimp only
  split_ifs with hst
  · exact hnew _ rfl rfl rfl (fun h => absurd rfl h)
  cases draws.start with
  | none => exact hnew _ rfl rfl rfl (fun h => absurd rfl h)
  | some d =>
    cases draws.keys with
    | none => exact hnew _ rfl rfl rfl (fun h => absurd rfl h)
    | some keys =>
      dsimp only
      cases hb : env.helloBuild (sessionHelloRequest { (tlsInit cfg).withDraws d.1 d.2.1 d.2.2 with keys := keys } 0) with
      | none => exact hnew _ rfl rfl rfl (fun h => absurd rfl h)
      | some info =>
        dsimp only
        split_ifs with hroom
        · exact hnew _ rfl rfl rfl (fun h => absurd rfl h)
        · exact hnew _ rfl rfl rfl (fun _ => ⟨info, hb, rfl⟩)

/-- The shares of a ClientHello without a group of its own are those of the profile. -/
theorem helloShares_profile {req : HelloReq} {groups : List Nat} (h : helloShares req = some groups)
    (hsel : req.selectedGroup = 0) : profileShares req.fp = some groups := by
  unfold helloShares at h
  cases hp : profileShares req.fp with
  | none => simp [hp] at h
  | some shares => simp_all

theorem helloShares_selected {req : HelloReq} {groups : List Nat} (h : helloShares req = some groups)
    (hsel : req.selectedGroup ≠ 0) : groups = [req.selectedGroup] := by
  unfold helloShares at h
  cases hp : profileShares req.fp with
  | none => simp [hp] at h
  | some shares =>
    simp only [hp, Option.bind_eq_bind, Option.bind_some, if_pos hsel] at h
    split_ifs at h
    exact (Option.some.inj h).symm

/-- A profile has a share for every group the session knows, but for P-256 outside Firefox. -/
theorem mem_profileShares {fp : TlsFp} {groups : List Nat} {g : Nat} (h : profileShares fp = some groups)
    (hcap : capabilityGroup g) (hp : g = groupP256 → fp = .firefox) : g ∈ groups := by
  have hg : g = groupX25519Mlkem768 ∨ g = groupX25519 ∨ g = groupP256 := by simpa [capabilityGroup] using hcap
  rcases hg with rfl | rfl | rfl
  · cases fp <;> simp [profileShares] at h <;> subst h <;> decide
  · cases fp <;> simp [profileShares] at h <;> subst h <;> decide
  · rw [hp rfl] at h
    cases h
    decide

/-- What a peer has to keep to after a retry: its ServerHello has supported_versions, and after a retry
that named no group it does not take P-256 unless Firefox is the profile. -/
def RetryRule (fp : TlsFp) (log : List Entry) : Prop :=
  ∀ r ∈ accepted log .retry, ∀ m ∈ accepted log .hello, hasExtension m.body 0x002B ∧
    (hasExtension r.body 0x0033 = false → fp ≠ .firefox → groupP256 ∉ shareGroups m.body)

instance (fp : TlsFp) (log : List Entry) : Decidable (RetryRule fp log) :=
  inferInstanceAs (Decidable (∀ r ∈ accepted log .retry, ∀ m ∈ accepted log .hello, hasExtension m.body 0x002B ∧
    (hasExtension r.body 0x0033 = false → fp ≠ .firefox → groupP256 ∉ shareGroups m.body)))

/-- A ServerHello that is accepted answers the ClientHello sent last, and the retry before it. -/
theorem retry_consistent {env : TlsEnv} {cfg : TlsConfig} {draws : HelloDraws} {cap : Nat} {c : Conn} {m : Message}
    (hshares : BuildsShares env)
    (h : Transition.Reach (Conn.step env) (fun c _ => c.failed = false) (Conn.start env cfg draws cap) c)
    (hlive : c.failed = false) (hrule : RetryRule c.session.fp c.session.log) (hm : Heard c.session.log .hello m) :
    (∀ r, Heard c.session.log .retry r → c.session.version = 0x0304 ∧ c.session.suite = helloSuite r.body) ∧
    (c.session.version = 0x0304 → c.session.peerGroup ∈ shareGroups m.body ∧
      ∃ info groups, env.helloBuild c.session.lastRequest = some info ∧ c.session.ch = info.body ∧
        helloShares c.session.lastRequest = some groups ∧ c.session.peerGroup ∈ groups) := by
  have hdet : ∀ _ : Epoch, Detached fun s => Offered env s := by
    intro _
    refine ⟨fun s buf ho => ?_, fun s n ho => ?_⟩
    · exact ho.steady (Same.steady ⟨rfl, rfl, rfl⟩ rfl rfl rfl)
    · exact ho.steady (Same.steady ⟨rfl, rfl, rfl⟩ rfl rfl rfl)
  have hu := reach_until (offered_rules env) hdet ⟨fun _ _ h => h, fun _ _ h => h⟩ (fun _ _ h => h) rfl
    (start_offered env cfg draws cap) h
  obtain ⟨-, ho⟩ := hu.1 hlive
  have hp := ho.picked m hm
  have hst : c.session.st ≠ .new := fun hn => ho.unpicked (.inl hn) m hm
  refine ⟨fun r hr => ?_, fun hv => ?_⟩
  · obtain ⟨hd, hsuite, -⟩ := ho.retry r hr
    have hv := hp.retried hd (hrule r (heard_iff.mp hr) m (heard_iff.mp hm)).1
    exact ⟨hv, (hp.suite hd hv).trans hsuite.symm⟩
  · obtain ⟨hmem, hcap⟩ := hp.share hv
    obtain ⟨info, hbuild, hch⟩ := ho.built hst
    obtain ⟨groups, hgroups⟩ := Option.isSome_iff_exists.mp (hshares _ _ hbuild)
    refine ⟨hmem, info, groups, hbuild, hch, hgroups, ?_⟩
    by_cases hd : c.session.hrrDone
    · have hreq : c.session.lastRequest = { sessionHelloRequest c.session c.session.hrrGroup with
        cookie := c.session.hrrCookie } := if_pos hd
      by_cases hg : c.session.hrrGroup = 0
      · obtain ⟨r, hr, hne⟩ := ho.retried hd
        have hno : hasExtension r.body 0x0033 = false := by
          by_contra hyes
          exact hne (by simpa using hyes) hg
        refine mem_profileShares (helloShares_profile hgroups (by rw [hreq]; exact hg)) hcap fun h256 => ?_
        rw [hreq]
        show c.session.fp = .firefox
        by_contra hff
        exact (hrule r (heard_iff.mp hr) m (heard_iff.mp hm)).2 hno hff (h256 ▸ hmem)
      · rw [helloShares_selected hgroups (by rw [hreq]; exact hg), hreq, hp.named hv hd hg]
        exact List.mem_singleton.mpr rfl
    · have hreq : c.session.lastRequest = sessionHelloRequest c.session 0 := if_neg hd
      have hfirst := hp.first hv (by simpa using hd)
      refine mem_profileShares (helloShares_profile hgroups (by rw [hreq]; rfl)) hcap fun h256 => ?_
      rw [hreq]
      show c.session.fp = .firefox
      unfold firstHelloHasGroup at hfirst
      rw [h256] at hfirst
      simpa [groupP256, groupX25519, groupX25519Mlkem768] using hfirst

/-- The sample environment, where a ClientHello needs its key shares. -/
def retryEnv : TlsEnv :=
  { sampleEnv with helloBuild := fun req => (helloShares req).bind fun _ => sampleEnv.helloBuild req }

def retryStart : Conn :=
  Conn.start retryEnv sampleCfg sampleDraws tlsHsBuf

def retryConn (input : Bytes) : Conn :=
  ⟨(tlsRecv retryEnv retryStart.session (sampleIo input)).session,
    (tlsRecv retryEnv retryStart.session (sampleIo input)).rc.isError⟩

theorem retryConn_reach (input : Bytes) :
    Transition.Reach (Conn.step retryEnv) (fun c _ => c.failed = false) retryStart (retryConn input) :=
  Transition.Reach.refl.tail (a := TlsAct.recv (sampleIo input)) rfl rfl

theorem retryEnv_shares : BuildsShares retryEnv := by
  intro req info h
  obtain ⟨groups, hg, -⟩ := Option.bind_eq_some_iff.mp h
  rw [hg]
  rfl

/-- A HelloRetryRequest that has a cookie and names no group. -/
def cookieRetry : Bytes :=
  plainRecord rtHs (sampleHello hrrRandom [0, 0x2b, 0, 2, 3, 4, 0, 0x2c, 0, 3, 0, 1, 7])

/-- A retry that the ServerHello keeps to. -/
def retryKept : Bytes :=
  cookieRetry ++ plainRecord rtHs (sampleHello (zeros 32) sampleShare)

/-- A retry, and then TLS 1.2 with suite 0xC02F. -/
def retryDropped : Bytes :=
  cookieRetry ++ plainRecord rtHs (handshakeMessage 2 ([3, 3] ++ zeros 32 ++ [0, 0xC0, 0x2F, 0]))

/-- A retry that names no group, and then a share for P-256. -/
def retryMissed : Bytes :=
  cookieRetry ++ plainRecord rtHs
    (sampleHello (zeros 32) ([0, 0x2b, 0, 2, 3, 4, 0, 0x33, 0, 0x45, 0, 0x17, 0, 0x41, 4] ++ zeros 64))

theorem retry_consistent_sample : accepted (retryConn retryKept).session.log .retry ≠ [] ∧
    ∃ groups, helloShares (retryConn retryKept).session.lastRequest = some groups ∧
      (retryConn retryKept).session.peerGroup ∈ groups := by
  have hm : accepted (retryConn retryKept).session.log .hello ≠ [] := by decide +kernel
  obtain ⟨m, hm⟩ := List.exists_mem_of_ne_nil _ hm
  obtain ⟨-, hshare⟩ := retry_consistent retryEnv_shares (retryConn_reach retryKept) (by decide +kernel)
    (by decide +kernel) (heard_iff.mpr hm)
  obtain ⟨-, info, groups, -, -, hgroups, hmem⟩ := hshare (by decide +kernel)
  exact ⟨by decide +kernel, groups, hgroups, hmem⟩

/-- After a retry a session takes TLS 1.2, and a share for a group it has sent none for. -/
theorem retry_ignored :
    (Transition.Reach (Conn.step retryEnv) (fun c _ => c.failed = false) retryStart (retryConn retryDropped) ∧
      (retryConn retryDropped).failed = false ∧
      accepted (retryConn retryDropped).session.log .retry ≠ [] ∧
      accepted (retryConn retryDropped).session.log .hello ≠ [] ∧
      (retryConn retryDropped).session.version = 0x0303) ∧
    Transition.Reach (Conn.step retryEnv) (fun c _ => c.failed = false) retryStart (retryConn retryMissed) ∧
      (retryConn retryMissed).failed = false ∧
      accepted (retryConn retryMissed).session.log .retry ≠ [] ∧
      accepted (retryConn retryMissed).session.log .hello ≠ [] ∧
      (retryConn retryMissed).session.version = 0x0304 ∧
      (retryConn retryMissed).session.peerGroup = groupP256 ∧
      helloShares (retryConn retryMissed).session.lastRequest = some [0x11EC, 0x001D] :=
  ⟨⟨retryConn_reach _, by decide +kernel, by decide +kernel, by decide +kernel, by decide +kernel⟩,
    retryConn_reach _, by decide +kernel, by decide +kernel, by decide +kernel, by decide +kernel, by decide +kernel,
    by decide +kernel⟩

end Qanat

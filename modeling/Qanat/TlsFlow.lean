import Qanat.General.Outcome
import Qanat.TlsRecv

namespace Qanat

open TlsHandler Outcome

/-- What the order of the messages depends on. -/
structure TlsFlow where
  version : Nat
  st : TlsSt
  tls12Step : Tls12Step
  rdOn : Bool
  epoch : Epoch
  hrrDone : Bool
  certRequested : Bool
  sawCertificate : Bool
  sawCertVerify : Bool
  certCompressed : Bool

/-- What no handler of a message touches. -/
structure TlsPast where
  cfg : TlsConfig
  recBuf : Bytes
  hs : Bytes
  hsHdr : Bytes
  hsType : Nat
  hsLen : Nat
  hsGot : Nat
  hsActive : Bool
  sawCcs : Bool
  tags : List (UInt8 × Epoch)
  log : List Entry

/-- What a session says on the wire, what it has heard there, and what it has agreed on. -/
structure TlsWire where
  keys : HelloKeys
  helloGreaseSeed : UInt64
  clientRandom : Bytes
  sessionId : Bytes
  echPayloadLen : Nat
  echAead : Nat
  ch : Bytes
  trOn : Bool
  transcript : TlsHash
  trFin : TlsHash
  flights : List Bytes
  suite : Nat
  hrrSuite : Nat
  hrrGroup : Nat
  hrrCookie : Bytes
  peerGroup : Nat

/-- What of a session its nonces depend on. -/
structure TlsSealing where
  version : Nat
  aeadId : AeadId
  wr : TlsKeys
  wrGen : Nat
  seals : List (Nat × Bytes)

@[simp] def TlsSession.flow (s : TlsSession) : TlsFlow :=
  ⟨s.version, s.st, s.tls12Step, s.rd.on, s.rd.epoch, s.hrrDone, s.certRequested, s.sawCertificate,
   s.sawCertVerify, s.certCompressed⟩

@[simp] def TlsSession.past (s : TlsSession) : TlsPast :=
  ⟨s.cfg, s.recBuf, s.hs, s.hsHdr, s.hsType, s.hsLen, s.hsGot, s.hsActive, s.sawCcs, s.tags, s.log⟩

@[simp] def TlsSession.wire (s : TlsSession) : TlsWire :=
  ⟨s.keys, s.helloGreaseSeed, s.clientRandom, s.sessionId, s.echPayloadLen, s.echAead, s.ch, s.trOn, s.transcript,
   s.trFin, s.flights, s.suite, s.hrrSuite, s.hrrGroup, s.hrrCookie, s.peerGroup⟩

@[simp] def TlsSession.sealing (s : TlsSession) : TlsSealing :=
  ⟨s.version, s.aeadId, s.wr, s.wrGen, s.seals⟩

/-- The past stays, nothing goes to `io->app`, and the flow is `f` now. -/
structure Moved (w : TlsWork) (f : TlsFlow) (v : TlsWork) : Prop where
  flow : v.session.flow = f
  past : v.session.past = w.session.past
  app : v.app = w.app
  done : v.done = w.done

/-- Nothing the order of the messages depends on has changed. -/
def Unmoved (w v : TlsWork) : Prop :=
  Moved w w.session.flow v

/-- A part of the session is as it was. -/
def SameIn {β : Type} (π : TlsSession → β) (w v : TlsWork) : Prop :=
  π v.session = π w.session

/-- Nothing was said, and no record sealed. -/
structure Mute (w v : TlsWork) : Prop where
  wire : v.session.wire = w.session.wire
  sealing : v.session.sealing = w.session.sealing
  out : v.out = w.out

/-- Nothing at all of what the messages go by has changed. -/
def Still (w v : TlsWork) : Prop :=
  Unmoved w v ∧ Mute w v

/-- Nothing has changed but what a session has heard. -/
def Hears (w v : TlsWork) : Prop :=
  Unmoved w v ∧ v.session.sealing = w.session.sealing ∧ v.out = w.out

section Meets

variable {α : Type} {w : TlsWork} {E : TlsRc → TlsWork → Prop}

@[simp] theorem meets_session {Q : TlsSession → TlsWork → Prop} :
    Meets (session w) Q E ↔ Q w.session w := Iff.rfl

@[simp] theorem meets_hasOut {Q : Bool → TlsWork → Prop} : Meets (hasOut w) Q E ↔ Q w.hasOut w := Iff.rfl

/-- A work whose session went through `f`. -/
def TlsWork.upd (w : TlsWork) (f : TlsSession → TlsSession) : TlsWork :=
  { w with session := f w.session }

@[simp] theorem upd_session (f : TlsSession → TlsSession) : (w.upd f).session = f w.session := rfl

@[simp] theorem upd_app (f : TlsSession → TlsSession) : (w.upd f).app = w.app := rfl

@[simp] theorem upd_out (f : TlsSession → TlsSession) : (w.upd f).out = w.out := rfl

@[simp] theorem upd_done (f : TlsSession → TlsSession) : (w.upd f).done = w.done := rfl

@[simp] theorem meets_update {f : TlsSession → TlsSession} {Q : Unit → TlsWork → Prop} :
    Meets (update f w) Q E ↔ Q () (w.upd f) := Iff.rfl

def TlsWork.emitted (w : TlsWork) (p : Bytes) : TlsWork :=
  { w with out := w.out ++ p }

@[simp] theorem emitted_session (p : Bytes) : (w.emitted p).session = w.session := rfl

@[simp] theorem emitted_out (p : Bytes) : (w.emitted p).out = w.out ++ p := rfl

@[simp] theorem emitted_app (p : Bytes) : (w.emitted p).app = w.app := rfl

@[simp] theorem emitted_done (p : Bytes) : (w.emitted p).done = w.done := rfl

@[simp] theorem meets_emit {p : Bytes} {Q : Unit → TlsWork → Prop} :
    Meets (emit p w) Q E ↔ Q () (w.emitted p) := Iff.rfl

@[simp] theorem meets_refuse {c : Prop} [Decidable c] {rc : TlsRc} {Q : Unit → TlsWork → Prop} :
    Meets (refuse c rc w) Q E ↔ (c → E rc w) ∧ (¬ c → Q () w) := by
  unfold refuse
  by_cases hc : c
  · simp [hc]
  · simp [hc]

@[simp] theorem meets_orRefuse {x : Option α} {rc : TlsRc} {Q : α → TlsWork → Prop} :
    Meets (orRefuse x rc w) Q E ↔ (x = none → E rc w) ∧ ∀ a, x = some a → Q a w := by
  cases x with
  | none => simp [orRefuse]
  | some a => simp [orRefuse]

@[simp] theorem meets_lift {x : Except TlsRc α} {Q : α → TlsWork → Prop} :
    Meets (lift x w) Q E ↔ (∀ rc, x = .error rc → E rc w) ∧ ∀ a, x = .ok a → Q a w := by
  cases x with
  | error rc => simp [lift]
  | ok a => simp [lift]

@[simp] theorem meets_needRoom {n : Nat} {rc : TlsRc} {Q : Unit → TlsWork → Prop} :
    Meets (needRoom n rc w) Q E ↔
      (w.outRoom < w.out.length + n → E rc w) ∧ (¬ w.outRoom < w.out.length + n → Q () w) := by
  unfold needRoom
  by_cases hn : w.outRoom < w.out.length + n
  · simp [hn]
  · simp [hn]

end Meets

section Unmoved

variable {w v u : TlsWork}

@[simp] theorem unmoved_refl (w : TlsWork) : Unmoved w w :=
  ⟨rfl, rfl, rfl, rfl⟩

theorem Moved.trans {f g : TlsFlow} (h : Moved w f v) (h' : Moved v g u) : Moved w g u :=
  ⟨h'.flow, h'.past.trans h.past, h'.app.trans h.app, h'.done.trans h.done⟩

theorem Unmoved.trans (h : Unmoved w v) (h' : Unmoved v u) : Unmoved w u := by
  have hf : v.session.flow = w.session.flow := h.flow
  have h'' : Moved v w.session.flow u := hf ▸ h'
  exact Moved.trans h h''

@[simp] theorem unmoved_upd {f : TlsSession → TlsSession} : Unmoved w (v.upd f) ↔
    ((f v.session).flow = w.session.flow ∧ (f v.session).past = w.session.past ∧ v.app = w.app ∧ v.done = w.done) := by
  constructor
  · intro h
    exact ⟨h.flow, h.past, h.app, h.done⟩
  · intro h
    exact ⟨h.1, h.2.1, h.2.2.1, h.2.2.2⟩

@[simp] theorem unmoved_emitted (p : Bytes) : Unmoved w (v.emitted p) ↔ Unmoved w v :=
  ⟨fun h => ⟨h.flow, h.past, h.app, h.done⟩, fun h => ⟨h.flow, h.past, h.app, h.done⟩⟩

@[simp] theorem mute_refl (w : TlsWork) : Mute w w :=
  ⟨rfl, rfl, rfl⟩

@[simp] theorem mute_upd {f : TlsSession → TlsSession} : Mute w (v.upd f) ↔
    ((f v.session).wire = w.session.wire ∧ (f v.session).sealing = w.session.sealing ∧ v.out = w.out) := by
  constructor
  · intro h
    exact ⟨h.wire, h.sealing, h.out⟩
  · intro h
    exact ⟨h.1, h.2.1, h.2.2⟩

@[simp] theorem still_iff : Still w v ↔ Unmoved w v ∧ Mute w v := Iff.rfl

@[simp] theorem hears_iff :
    Hears w v ↔ Unmoved w v ∧ v.session.sealing = w.session.sealing ∧ v.out = w.out := Iff.rfl

@[simp] theorem sameIn_iff {β : Type} {π : TlsSession → β} : SameIn π w v ↔ π v.session = π w.session := Iff.rfl

theorem Mute.trans (h : Mute w v) (h' : Mute v u) : Mute w u :=
  ⟨h'.wire.trans h.wire, h'.sealing.trans h.sealing, h'.out.trans h.out⟩

end Unmoved

instance {β : Type} (π : TlsSession → β) : IsPreorder TlsWork (SameIn π) where
  refl := fun _ => rfl
  trans := fun _ _ _ h h' => h'.trans h

instance : IsPreorder TlsWork Unmoved where
  refl := unmoved_refl
  trans := fun _ _ _ h h' => h.trans h'

instance : IsPreorder TlsWork Mute where
  refl := mute_refl
  trans := fun _ _ _ h h' => h.trans h'

instance : IsPreorder TlsWork Still where
  refl := fun w => ⟨unmoved_refl w, mute_refl w⟩
  trans := fun _ _ _ h h' => ⟨h.1.trans h'.1, h.2.trans h'.2⟩

instance : IsPreorder TlsWork Hears where
  refl := fun w => ⟨unmoved_refl w, rfl, rfl⟩
  trans := fun _ _ _ h h' => ⟨h.1.trans h'.1, h'.2.1.trans h.2.1, h'.2.2.trans h.2.2⟩

/-- Code that ends in a work related to the one it met, and fails with an error only. -/
abbrev Frames {α : Type} (R : TlsWork → TlsWork → Prop) (m : TlsHandler α) : Prop :=
  Within (fun rc : TlsRc => rc.isError = true) R m

/-- Code that changes nothing the order of the messages depends on. -/
abbrev Calm {α : Type} (m : TlsHandler α) : Prop :=
  Frames Unmoved m

section Frames

variable {α β : Type} {bad : TlsRc → Prop} {R : TlsWork → TlsWork → Prop} [IsPreorder TlsWork R]

theorem within_refuse (c : Prop) [Decidable c] {rc : TlsRc} (hrc : bad rc) : Within bad R (refuse c rc) := by
  intro w
  rw [meets_refuse]
  exact ⟨fun _ => ⟨hrc, refl w⟩, fun _ => refl w⟩

theorem within_orRefuse (x : Option α) {rc : TlsRc} (hrc : bad rc) : Within bad R (orRefuse x rc) := by
  intro w
  rw [meets_orRefuse]
  exact ⟨fun _ => ⟨hrc, refl w⟩, fun _ _ => refl w⟩

theorem frames_refuse (c : Prop) [Decidable c] {rc : TlsRc} (hrc : rc.isError = true) : Frames R (refuse c rc) :=
  within_refuse c hrc

theorem frames_orRefuse (x : Option α) {rc : TlsRc} (hrc : rc.isError = true) : Frames R (orRefuse x rc) :=
  within_orRefuse x hrc

theorem frames_session : Within bad R session :=
  fun w => refl w

omit [IsPreorder TlsWork R] in
theorem frames_update {f : TlsSession → TlsSession} (h : ∀ w : TlsWork, R w (w.upd f)) : Within bad R (update f) :=
  fun w => h w

theorem frames_eachExt {f : α → Nat → Bytes → TlsHandler α} (hf : ∀ a et ev, Frames R (f a et ev))
    (fuel : Nat) (seen : List Nat) (r : Bytes) (a : α) : Frames R (eachExt f fuel seen r a) := by
  induction fuel generalizing seen r a with
  | zero => exact Within.pure _
  | succ fuel ih =>
    unfold eachExt
    apply Within.ite (Within.pure _)
    apply Within.bind (frames_refuse _ rfl)
    intro _
    apply Within.bind (frames_orRefuse _ rfl)
    intro seen
    exact Within.bind (hf _ _ _) fun a => ih _ _ _

theorem frames_extBlock {f : α → Nat → Bytes → TlsHandler α} (hf : ∀ a et ev, Frames R (f a et ev))
    (block : Bytes) (a : α) : Frames R (extBlock f block a) := by
  apply Within.bind (frames_eachExt hf _ _ _ _)
  intro x
  exact Within.bind (frames_refuse _ rfl) fun _ => Within.pure _

end Frames

section Still

variable {α : Type}

theorem calm_of_still {m : TlsHandler α} (h : Frames Still m) : Calm m :=
  h.mono (fun _ h => h) fun _ _ h => h.1

theorem hears_of_still {m : TlsHandler α} (h : Frames Still m) : Frames Hears m :=
  h.mono (fun _ h => h) fun _ _ h => ⟨h.1, h.2.sealing, h.2.out⟩

theorem calm_of_hears {m : TlsHandler α} (h : Frames Hears m) : Calm m :=
  h.mono (fun _ h => h) fun _ _ h => h.1

theorem mute_of_still {m : TlsHandler α} (h : Frames Still m) : Frames Mute m :=
  h.mono (fun _ h => h) fun _ _ h => h.2

theorem still_parseSelectedAlpn (p : Bytes) : Frames Still (parseSelectedAlpn p) := by
  intro w
  simp [parseSelectedAlpn]

theorem still_lastBlock (r : Br) : Frames Still (lastBlock r) :=
  Within.bind (frames_refuse _ rfl) fun _ => Within.pure _

theorem still_optionalBlock (r : Br) : Frames Still (optionalBlock r) :=
  Within.ite (Within.pure _) (still_lastBlock r)

theorem still_encryptedExt (u : Unit) (et : Nat) (ev : Bytes) : Frames Still (encryptedExt u et ev) := by
  unfold encryptedExt
  apply Within.ite (still_parseSelectedAlpn ev)
  refine Within.ite (frames_refuse _ rfl) (Within.ite (frames_refuse _ rfl) (Within.ite ?_ (Within.ite ?_ (Within.ite ?_ ?_))))
  · exact Within.bind (frames_refuse _ rfl) fun _ => frames_refuse _ rfl
  · intro w
    simp
  · intro w
    simp
  · intro w
    simp

theorem still_scheduleApplication (env : TlsEnv) : Frames Still (scheduleApplication env) := by
  intro w
  simp [scheduleApplication]

theorem still_masterSecret (env : TlsEnv) (pms : Bytes) : Frames Still (masterSecret env pms) := by
  intro w
  simp [masterSecret]

end Still

section Hears

theorem hears_serverHelloExt (isHrr : Bool) (a : HelloExts) (et : Nat) (ev : Bytes) :
    Frames Hears (serverHelloExt isHrr a et ev) := by
  unfold serverHelloExt
  refine Within.ite ?_ (Within.ite ?_ (Within.ite ?_ (Within.ite (Within.ite ?_ ?_) (Within.ite ?_ (Within.ite ?_ ?_)))))
  · intro w
    simp
  · intro w
    simp
  · exact Within.bind (hears_of_still (still_parseSelectedAlpn ev)) fun _ => Within.pure _
  · intro w
    simp
  · intro w
    simp
  · intro w
    simp
  · intro w
    simp
  · exact Within.pure a

theorem hears_readServerHead : Frames Hears readServerHead := by
  intro w
  simp [readServerHead]

theorem hears_readServerSuite (r : Br) : Frames Hears (readServerSuite r) := by
  intro w
  simp [readServerSuite]

theorem hears_readServerHello : Frames Hears readServerHello := by
  apply Within.bind hears_readServerHead
  intro h
  apply Within.bind (hears_readServerSuite _)
  intro r
  apply Within.bind (hears_of_still (still_optionalBlock r))
  intro block
  exact Within.bind (frames_extBlock (hears_serverHelloExt _) _ _) fun _ => Within.pure _

end Hears

section Calm

variable {α β : Type}

theorem calm_adoptSuite (version : Nat) {rc : TlsRc} (hrc : rc.isError) : Calm (adoptSuite version rc) := by
  intro w
  simp [adoptSuite, hrc]

theorem calm_sealOut (env : TlsEnv) (inner : UInt8) (data : Bytes) {rc : TlsRc} (hrc : rc.isError) :
    Calm (sealOut env inner data rc) := by
  intro w
  simp [sealOut, hrc, TlsSession.sealed]

theorem calm_tls12SealOut (env : TlsEnv) (type : UInt8) (data : Bytes) {rc : TlsRc} (hrc : rc.isError) :
    Calm (tls12SealOut env type data rc) := by
  intro w
  simp [tls12SealOut, hrc, TlsSession.sealed]

theorem calm_sendEmptyCert (env : TlsEnv) (requested : Bool) : Calm (sendEmptyCert env requested) := by
  unfold sendEmptyCert
  apply Within.ite
  · apply Within.bind (calm_sealOut env rtHs emptyCert rfl)
    intro _ w
    simp
  · exact Within.pure ()

theorem calm_sendFinished (env : TlsEnv) : Calm (sendFinished env) := by
  apply Within.bind frames_session
  intro s
  apply Within.bind (frames_orRefuse _ rfl)
  intro fkey
  apply Within.bind (calm_sealOut env rtHs _ rfl)
  intro _ w
  simp

theorem calm_setWrite (env : TlsEnv) (secret : Bytes) (epoch : Epoch) : Calm (setWrite env secret epoch) := by
  intro w
  simp [setWrite]

theorem calm_onServerKx : Calm onServerKx := by
  intro w
  simp [onServerKx]

theorem calm_keyBlock (env : TlsEnv) : Calm (keyBlock env) := by
  intro w
  simp [keyBlock, TlsSession.withKeyBlock]

theorem calm_tls12SendFinished (env : TlsEnv) : Calm (tls12SendFinished env) := by
  apply Within.bind
  · intro w
    simp
  intro _
  apply Within.bind
  · intro w
    simp
  intro _
  apply Within.bind frames_session
  intro s
  apply Within.bind (frames_orRefuse _ rfl)
  intro verify
  apply Within.bind
  · intro w
    simp
  intro _
  exact calm_tls12SealOut env rtHs _ rfl

end Calm

end Qanat

import Qanat.General.Outcome
import Qanat.TlsRecv

namespace Qanat

open TlsHandler Outcome

/-- Two works that differ in the room of their buffers at most. -/
structure Twin (w v : TlsWork) : Prop where
  session : w.session = v.session
  hasOut : w.hasOut = v.hasOut
  out : w.out = v.out
  app : w.app = v.app
  done : w.done = v.done

/-- Two works with room for `n` more bytes in each. -/
def Roomy (n : Nat) (w v : TlsWork) : Prop :=
  Twin w v ∧ w.out.length + n ≤ w.outRoom ∧ v.out.length + n ≤ v.outRoom

/-- A relation of works that the operations on the session keep. -/
class Tame (P : TlsWork → TlsWork → Prop) : Prop where
  twin : ∀ w v, P w v → Twin w v
  update : ∀ (f : TlsSession → TlsSession) w v, P w v →
    P { w with session := f w.session } { v with session := f v.session }

theorem Twin.update {w v : TlsWork} (h : Twin w v) (f : TlsSession → TlsSession) :
    Twin { w with session := f w.session } { v with session := f v.session } :=
  ⟨congrArg f h.session, h.hasOut, h.out, h.app, h.done⟩

instance : Tame Twin :=
  ⟨fun _ _ h => h, fun f _ _ h => h.update f⟩

instance (n : Nat) : Tame (Roomy n) :=
  ⟨fun _ _ h => h.1, fun f _ _ h => ⟨h.1.update f, h.2⟩⟩

/-- Code that keeps `P` and whose outcome depends on the room of the buffers only through the answer
`space`. -/
class Blind (P : TlsWork → TlsWork → Prop) {α : Type} (m : TlsHandler α) : Prop where
  alike : Alike TlsRc.space Twin P P m

section Blind

variable {P : TlsWork → TlsWork → Prop} [hP : Tame P] {α β : Type}

instance (a : α) : Blind P (pure a : TlsHandler α) :=
  ⟨Alike.pure a⟩

instance (rc : TlsRc) : Blind P (throw rc : TlsHandler α) :=
  ⟨(Alike.throw rc).mono hP.twin fun _ _ h => h⟩

instance {m : TlsHandler α} {f : α → TlsHandler β} [hm : Blind P m] [hf : ∀ a, Blind P (f a)] :
    Blind P (m >>= f) :=
  ⟨Alike.bind hm.alike fun a => (hf a).alike⟩

instance {c : Prop} [Decidable c] {m n : TlsHandler α} [hm : Blind P m] [hn : Blind P n] :
    Blind P (if c then m else n) :=
  ⟨Alike.ite hm.alike hn.alike⟩

instance : Blind P session :=
  ⟨fun w v h => ⟨(hP.twin w v h).session, h⟩⟩

instance : Blind P hasOut :=
  ⟨fun w v h => ⟨(hP.twin w v h).hasOut, h⟩⟩

instance (f : TlsSession → TlsSession) : Blind P (update f) :=
  ⟨fun w v h => ⟨rfl, hP.update f w v h⟩⟩

instance (c : Prop) [Decidable c] (rc : TlsRc) : Blind P (refuse c rc) := by
  constructor
  intro w v h
  unfold refuse
  by_cases hc : c
  · rw [if_pos hc, if_pos hc]
    exact .inl ⟨rfl, hP.twin w v h⟩
  · rw [if_neg hc, if_neg hc]
    exact ⟨rfl, h⟩

instance (x : Option α) (rc : TlsRc) : Blind P (orRefuse x rc) := by
  constructor
  intro w v h
  cases x with
  | none => exact .inl ⟨rfl, hP.twin w v h⟩
  | some a => exact ⟨rfl, h⟩

instance (x : Except TlsRc α) : Blind P (lift x) := by
  constructor
  intro w v h
  cases x with
  | error rc => exact .inl ⟨rfl, hP.twin w v h⟩
  | ok a => exact ⟨rfl, h⟩

instance (p : Bytes) : Blind Twin (emit p) := by
  constructor
  intro w v h
  refine ⟨rfl, h.session, h.hasOut, ?_, h.app, h.done⟩
  show w.out ++ p = v.out ++ p
  rw [h.out]

omit hP in
theorem blind_bind {m : TlsHandler α} {f : α → TlsHandler β} [Blind P m] (hf : ∀ a, Blind P (f a)) : Blind P (m >>= f) :=
  inferInstance

omit hP in
theorem blind_ite {c : Prop} [Decidable c] {m n : TlsHandler α} (hm : Blind P m) (hn : Blind P n) :
    Blind P (if c then m else n) :=
  inferInstance

/-- A test of the room that answers `space` leaves both works with the room asked for. -/
theorem needRoom_roomy (n : Nat) : Alike TlsRc.space Twin Twin (Roomy n) (needRoom n .space) := by
  intro w v h
  unfold needRoom
  by_cases hw : w.outRoom < w.out.length + n
  · rw [if_pos hw]
    exact .bad_left _ _
  · by_cases hv : v.outRoom < v.out.length + n
    · rw [if_pos hv]
      exact .bad_right _ _
    · rw [if_neg hw, if_neg hv]
      exact ⟨rfl, h, by omega, by omega⟩

instance (n : Nat) : Blind Twin (needRoom n .space) :=
  ⟨(needRoom_roomy n).mono (fun _ _ h => h) (fun _ _ h => h.1)⟩

/-- Where there is room, a test of it changes nothing. -/
theorem needRoom_spare {n k : Nat} (hk : k ≤ n) (rc : TlsRc) :
    Alike TlsRc.space Twin (Roomy n) (Roomy n) (needRoom k rc) := by
  intro w v h
  have hw : ¬ w.outRoom < w.out.length + k := by have := h.2.1; omega
  have hv : ¬ v.outRoom < v.out.length + k := by have := h.2.2; omega
  unfold needRoom
  rw [if_neg hw, if_neg hv]
  exact ⟨rfl, h⟩

theorem emit_roomy (n : Nat) (p : Bytes) : Alike TlsRc.space Twin (Roomy (p.length + n)) (Roomy n) (emit p) := by
  rintro w v ⟨h, hw, hv⟩
  refine ⟨rfl, ⟨h.session, h.hasOut, ?_, h.app, h.done⟩, ?_, ?_⟩
  · show w.out ++ p = v.out ++ p
    rw [h.out]
  · show (w.out ++ p).length + n ≤ w.outRoom
    rw [List.length_append]
    omega
  · show (v.out ++ p).length + n ≤ v.outRoom
    rw [List.length_append]
    omega

end Blind

theorem blind_eachExt {α : Type} {f : α → Nat → Bytes → TlsHandler α}
    [hf : ∀ a et ev, Blind Twin (f a et ev)] (fuel : Nat) (seen : List Nat) (r : Bytes) (a : α) :
    Blind Twin (eachExt f fuel seen r a) := by
  induction fuel generalizing seen r a with
  | zero => exact inferInstanceAs (Blind Twin (pure (a, r)))
  | succ fuel ih =>
    unfold eachExt
    infer_instance

instance {α : Type} {f : α → Nat → Bytes → TlsHandler α} [∀ a et ev, Blind Twin (f a et ev)]
    (block : Bytes) (a : α) : Blind Twin (extBlock f block a) := by
  have h := blind_eachExt (f := f) block.length [] block a
  unfold extBlock
  infer_instance

instance (p : Bytes) : Blind Twin (parseSelectedAlpn p) := by
  unfold parseSelectedAlpn
  infer_instance

instance (env : TlsEnv) : Blind Twin (openRecord env) := by
  unfold openRecord
  infer_instance

instance (env : TlsEnv) (type : UInt8) : Blind Twin (tls12Open env type) := by
  unfold tls12Open
  infer_instance

instance (env : TlsEnv) (inner : UInt8) (data : Bytes) : Blind Twin (sealOut env inner data .space) := by
  unfold sealOut
  infer_instance

instance (env : TlsEnv) (type : UInt8) (data : Bytes) : Blind Twin (tls12SealOut env type data .space) := by
  unfold tls12SealOut
  infer_instance

instance (r : Br) : Blind Twin (lastBlock r) := by
  unfold lastBlock
  infer_instance

instance (isHrr : Bool) (a : HelloExts) (et : Nat) (ev : Bytes) : Blind Twin (serverHelloExt isHrr a et ev) := by
  unfold serverHelloExt
  refine blind_ite inferInstance (blind_ite inferInstance (blind_ite inferInstance (blind_ite ?_ inferInstance)))
  exact blind_ite inferInstance inferInstance

instance (r : Br) : Blind Twin (optionalBlock r) := by
  unfold optionalBlock
  infer_instance

instance : Blind Twin readServerHead := by
  unfold readServerHead
  dsimp only
  apply blind_bind
  intro _
  apply blind_bind
  intro _
  infer_instance

instance (r : Br) : Blind Twin (readServerSuite r) := by
  unfold readServerSuite
  infer_instance

instance : Blind Twin readServerHello := by
  unfold readServerHello
  infer_instance

instance (version : Nat) (rc : TlsRc) : Blind Twin (adoptSuite version rc) := by
  unfold adoptSuite
  infer_instance

instance (env : TlsEnv) : Blind Twin (sendSecondClientHello env) := by
  unfold sendSecondClientHello
  dsimp only
  apply blind_bind
  intro _
  apply blind_bind
  intro _
  apply blind_bind
  intro _
  infer_instance

instance (env : TlsEnv) (sh : ServerHello) : Blind Twin (onHelloRetry env sh) := by
  unfold onHelloRetry
  infer_instance

instance (sh : ServerHello) : Blind Twin (selectTls12 sh) := by
  unfold selectTls12
  infer_instance

instance (sh : ServerHello) : Blind Twin (selectTls13 sh) := by
  unfold selectTls13
  apply blind_bind
  intro _
  apply blind_bind
  intro _
  infer_instance

instance (sh : ServerHello) : Blind Twin (selectVersion sh) := by
  unfold selectVersion
  infer_instance

instance (env : TlsEnv) (secret : Bytes) (epoch : Epoch) : Blind Twin (setRead env secret epoch) := by
  unfold setRead
  infer_instance

instance (env : TlsEnv) (secret : Bytes) (epoch : Epoch) : Blind Twin (setWrite env secret epoch) := by
  unfold setWrite
  infer_instance

instance (env : TlsEnv) (sh : ServerHello) : Blind Twin (handshakeKeys env sh) := by
  unfold handshakeKeys
  apply blind_bind
  intro _
  apply blind_bind
  intro _
  apply blind_bind
  intro _
  apply blind_bind
  intro _
  apply blind_bind
  intro _
  apply blind_bind
  intro _
  infer_instance

instance : Blind Twin tls12Setup := by
  unfold tls12Setup
  infer_instance

instance (env : TlsEnv) : Blind Twin (onServerHello env) := by
  unfold onServerHello
  infer_instance

instance (u : Unit) (et : Nat) (ev : Bytes) : Blind Twin (encryptedExt u et ev) := by
  unfold encryptedExt
  infer_instance

instance : Blind Twin onEncryptedExtensions := by
  unfold onEncryptedExtensions
  apply blind_bind
  intro _
  infer_instance

instance : Blind Twin onCertificateRequest := by
  unfold onCertificateRequest
  dsimp only
  apply blind_bind
  intro _
  apply blind_bind
  intro _
  infer_instance

instance : Blind Twin onCompressedCertificate := by
  unfold onCompressedCertificate
  apply blind_bind
  intro _
  apply blind_bind
  intro _
  apply blind_bind
  intro _
  infer_instance

instance (env : TlsEnv) : Blind Twin (onCertificate env) := by
  unfold onCertificate
  infer_instance

instance : Blind Twin onCertificateVerify := by
  unfold onCertificateVerify
  infer_instance

instance {P : TlsWork → TlsWork → Prop} [Tame P] (env : TlsEnv) : Blind P (scheduleApplication env) := by
  unfold scheduleApplication
  dsimp only
  infer_instance

instance (env : TlsEnv) : Blind Twin (sendFinished env) := by
  unfold sendFinished
  dsimp only
  infer_instance

instance : Blind Twin onServerKx := by
  unfold onServerKx
  dsimp only
  apply blind_bind
  intro _
  apply blind_bind
  intro _
  apply blind_bind
  intro _
  apply blind_bind
  intro _
  apply blind_bind
  intro _
  apply blind_bind
  intro _
  infer_instance

instance (env : TlsEnv) (pms : Bytes) : Blind Twin (masterSecret env pms) := by
  unfold masterSecret
  infer_instance

instance (env : TlsEnv) : Blind Twin (keyBlock env) := by
  unfold keyBlock
  infer_instance

instance (env : TlsEnv) : Blind Twin (tls12SendFinished env) := by
  unfold tls12SendFinished
  dsimp only
  infer_instance

instance (env : TlsEnv) : Blind Twin (onHelloDone env) := by
  unfold onHelloDone
  dsimp only
  apply blind_bind
  intro _
  apply blind_bind
  intro _
  apply blind_bind
  intro _
  apply blind_bind
  intro _
  apply blind_bind
  intro _
  infer_instance

instance (env : TlsEnv) : Blind Twin (onServerFinished12 env) := by
  unfold onServerFinished12
  infer_instance

instance (env : TlsEnv) : Blind Twin (onCertificate12 env) := by
  unfold onCertificate12
  infer_instance

instance : Blind Twin onCertificateRequest12 := by
  unfold onCertificateRequest12
  infer_instance

instance : Blind Twin onServerKx12 := by
  unfold onServerKx12
  infer_instance

instance (env : TlsEnv) : Blind Twin (onHelloDone12 env) := by
  unfold onHelloDone12
  infer_instance

instance : Blind Twin onNewTicket12 := by
  unfold onNewTicket12
  infer_instance

instance (env : TlsEnv) (type : Nat) : Blind Twin (tls12Dispatch env type) := by
  unfold tls12Dispatch
  infer_instance

theorem sealOut_spare (env : TlsEnv) (inner : UInt8) {data : Bytes} {n : Nat} (hn : sealLen data.length ≤ n)
    (rc : TlsRc) : Alike TlsRc.space Twin (Roomy n) Twin (sealOut env inner data rc) := by
  apply Alike.bind (needRoom_spare hn rc)
  intro _
  have h : Blind Twin (do
      let s ← session
      let p ← orRefuse (sealRecord env s inner data) rc
      update fun s => s.sealed (nonceFor s.wr)
      emit p) := inferInstance
  exact h.alike.mono (fun _ _ h => h.1) (fun _ _ h => h)

/-- The empty Certificate fits because `send_client_flight` has asked for its room. -/
theorem sendEmptyCert_alike (env : TlsEnv) (s : TlsSession) :
    Alike TlsRc.space Twin (Roomy (clientFlightLen s)) Twin (sendEmptyCert env s.certRequested) := by
  unfold sendEmptyCert clientFlightLen
  by_cases h : s.certRequested
  · rw [if_pos h, if_pos h]
    apply Alike.bind (sealOut_spare env rtHs (Nat.le_add_right _ _) .proto)
    intro _
    exact Blind.alike
  · rw [if_neg h, if_neg h]
    intro w v hwv
    exact ⟨rfl, hwv.1⟩

instance (env : TlsEnv) : Blind Twin (sendClientFlight env) := by
  constructor
  unfold sendClientFlight
  apply Alike.bind Blind.alike
  intro s
  apply Alike.bind (needRoom_roomy _)
  intro _
  apply Alike.bind Blind.alike
  intro ap
  apply Alike.bind (emit_roomy _ _)
  intro _
  apply Alike.bind (sendEmptyCert_alike env s)
  intro _
  exact Blind.alike

instance (env : TlsEnv) : Blind Twin (onServerFinished env) := by
  unfold onServerFinished
  infer_instance

instance : Blind Twin onNewTicket := by
  unfold onNewTicket
  infer_instance

instance : Blind Twin onKeyUpdate := by
  unfold onKeyUpdate
  infer_instance

instance (env : TlsEnv) (type : Nat) : Blind Twin (tls13Dispatch env type) := by
  unfold tls13Dispatch
  infer_instance

instance (env : TlsEnv) : Blind Twin (tlsDispatch env) := by
  unfold tlsDispatch
  infer_instance

instance (env : TlsEnv) (left : Bytes) : Blind Twin (dispatchMessage env left) := by
  constructor
  intro w v h
  have hd := (inferInstance : Blind Twin (tlsDispatch env)).alike _ _ (h.update TlsSession.received)
  unfold dispatchMessage
  cases hw : tlsDispatch env { w with session := w.session.received } with
  | ok rc w' =>
    cases hv : tlsDispatch env { v with session := v.session.received } with
    | ok rc' v' =>
      rw [hw, hv] at hd
      obtain ⟨rfl, h'⟩ := hd
      refine ⟨rfl, ?_, h'.hasOut, h'.out, h'.app, ?_⟩
      · show w'.session.endMessage _ = v'.session.endMessage _
        rw [h.session, h'.session]
      · show (w'.done || _) = (v'.done || _)
        rw [h'.done]
    | error rc' v' =>
      rw [hw, hv] at hd
      cases (hd : rc' = .space)
      exact .bad_right _ _
  | error rc w' =>
    cases hv : tlsDispatch env { v with session := v.session.received } with
    | ok rc' v' =>
      rw [hw, hv] at hd
      cases (hd : rc = .space)
      exact .bad_left _ _
    | error rc' v' =>
      rw [hw, hv] at hd
      obtain ⟨rfl, h'⟩ | hbad := hd
      · refine .inl ⟨rfl, ?_, h'.hasOut, h'.out, h'.app, h'.done⟩
        show w'.session.endMessage _ = v'.session.endMessage _
        rw [h.session, h'.session]
      · exact .inr hbad

instance (e : Epoch) (p : Bytes) : Blind Twin (headerBytes e p) := by
  unfold headerBytes
  dsimp only
  infer_instance

instance (q : Bytes) : Blind Twin (scanBytes q) := by
  unfold scanBytes
  infer_instance

instance (e : Epoch) (p : Bytes) : Blind Twin (bodyBytes e p) := by
  unfold bodyBytes
  dsimp only
  infer_instance

theorem blind_hsFeed (env : TlsEnv) (e : Epoch) (fuel : Nat) (p : Bytes) :
    Blind Twin (hsFeed env e fuel p) := by
  induction fuel generalizing p with
  | zero => exact inferInstanceAs (Blind Twin (pure ()))
  | succ fuel ih =>
    unfold hsFeed
    infer_instance

instance (env : TlsEnv) (type : UInt8) : Blind Twin (openContent env type) := by
  unfold openContent
  dsimp only
  infer_instance

instance : Blind Twin onCcs := by
  unfold onCcs
  infer_instance

instance (p : Bytes) : Blind Twin (onAlert p) := by
  unfold onAlert
  infer_instance

instance (p : Bytes) : Blind Twin (deliver p) := by
  constructor
  intro w v h
  unfold deliver
  by_cases hst : w.session.st = .ready
  · rw [if_neg (not_not.mpr hst), if_neg (not_not.mpr (h.session ▸ hst))]
    by_cases hw : w.appRoom < w.app.length + p.length
    · rw [if_pos hw]
      exact .bad_left _ _
    · by_cases hv : v.appRoom < v.app.length + p.length
      · rw [if_pos hv]
        exact .bad_right _ _
      · rw [if_neg hw, if_neg hv]
        refine ⟨rfl, ?_, h.hasOut, h.out, ?_, h.done⟩
        · show w.session.note _ = v.session.note _
          rw [h.session]
        · show w.app ++ p = v.app ++ p
          rw [h.app]
  · rw [if_pos hst, if_pos (h.session ▸ hst)]
    exact .inl ⟨rfl, h⟩

/-- How `handle_record` ends does not depend on the room of the buffers, unless it lacks room. -/
theorem handleRecord_blind (env : TlsEnv) : Alike TlsRc.space Twin Twin Twin (handleRecord env) := by
  have hfeed := blind_hsFeed env
  have h : Blind Twin (handleRecord env) := by
    unfold handleRecord
    dsimp only
    infer_instance
  exact h.alike

end Qanat

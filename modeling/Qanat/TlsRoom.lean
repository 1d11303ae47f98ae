import Qanat.TlsCut

namespace Qanat

open TlsHandler Outcome

def verInBuf : Nat := 16384

def verAppBuf : Nat := 32768

/-- A buffer that holds less than the record it starts with. -/
def PartialRecord (buf : Bytes) : Prop :=
  buf.length < recHdr ∨ buf.length < recordNeed buf

/-- Opening a text takes its tag off. -/
structure AeadOpens (env : TlsEnv) : Prop where
  opens : ∀ a nonce aad c p, env.aeadOpen a nonce aad c = some p → p.length + aeadTagLen = c.length

/-- The work that a round of the loop gives to `handle_record`. -/
def roundWork (s : TlsSession) (io : TlsIo) (buf : Bytes) : TlsWork :=
  ⟨{ s with recBuf := buf }, io.hasOut, io.outCap, [], io.appCap, [], false⟩

/-- What is left of the caller's side after a round. -/
def TlsIo.after (io : TlsIo) (rest : Bytes) (w : TlsWork) : TlsIo :=
  ⟨rest, io.hasOut, io.outCap - w.out.length, io.appCap - w.app.length⟩

/-- The works that a call on `s` gives to `handle_record`. -/
inductive Handles (env : TlsEnv) : TlsSession → TlsIo → TlsWork → Prop
  | here {s : TlsSession} {io : TlsIo} {buf rest : Bytes} (h : fillRecord s.rd.on s.recBuf io.input = .full buf rest) :
      Handles env s io (roundWork s io buf)
  | later {s : TlsSession} {io : TlsIo} {buf rest : Bytes} {w x : TlsWork}
      (h : fillRecord s.rd.on s.recBuf io.input = .full buf rest)
      (hw : handleRecord env (roundWork s io buf) = .ok () w)
      (hx : Handles env { w.session with recBuf := [] } (io.after rest w) x) : Handles env s io x

/-- The record of a work, if it is application data, carries at most `n` bytes. -/
def Carries (env : TlsEnv) (n : Nat) (w : TlsWork) : Prop :=
  ∀ p v, openContent env (w.session.recBuf.headD 0) w = .ok (rtApp, p) v → p.length ≤ n

section Fill

/-- A round that fills a record from a part of it: the record is as long as its header says, and no byte is
lost. -/
theorem fillRecord_full {on : Bool} {buf input record rest : Bytes} (h : fillRecord on buf input = .full record rest)
    (hbuf : PartialRecord buf) : record.length = recordNeed record ∧ headerRefused on record = false := by
  by_cases hlt : buf.length + input.length < recHdr
  · rw [fillRecord_short hlt] at h
    cases h
  obtain ⟨hlen, hlong⟩ := fillRecord_long on (Nat.le_of_not_lt hlt)
  rw [hlong] at h
  have hle : (fill recHdr buf input).1.length ≤ recordNeed (fill recHdr buf input).1 := by
    by_cases hshort : recHdr ≤ buf.length
    · rw [fill_none hshort]
      exact Nat.le_of_lt (hbuf.resolve_left (Nat.not_lt.mpr hshort))
    · have hfull : (fill recHdr buf input).1.length = recHdr := by
        unfold fill
        rw [List.length_append, List.length_take]
        omega
      rw [hfull]
      exact Nat.le_add_right _ _
  generalize fill recHdr buf input = f at h hlen hle
  unfold fillBody at h
  split_ifs at h with href hmore
  obtain ⟨rfl, -⟩ := Fill.full.inj h
  have hrec : (fill (recordNeed f.1) f.1 f.2).1.length = recordNeed f.1 := by
    unfold fill
    rw [List.length_append, List.length_take]
    omega
  have hneed : recordNeed (fill (recordNeed f.1) f.1 f.2).1 = recordNeed f.1 := recordNeed_append hlen
  have hsame : headerRefused on (fill (recordNeed f.1) f.1 f.2).1 = headerRefused on f.1 := headerRefused_append hlen
  rw [hneed, hsame]
  exact ⟨hrec, by simpa using href⟩

theorem headerRefused_plain {buf : Bytes} (h : headerRefused false buf = false) :
    recordNeed buf ≤ recHdr + recMaxPt := by
  unfold headerRefused at h
  simp only [Bool.or_eq_false_iff, Bool.and_eq_false_iff, decide_eq_false_iff_not] at h
  have hpt := h.2
  simp at hpt
  omega

end Fill

section Ready

variable {env : TlsEnv} {w : TlsWork}

theorem meets_refused {α : Type} {c : Prop} [Decidable c] (hc : c) (k : Unit → TlsHandler α) :
    Meets ((refuse c .proto >>= k) w) (fun _ _ => True) (fun rc _ => rc ≠ .space) := by
  rw [meets_bind, meets_refuse]
  exact ⟨fun _ => by decide, fun hnot => absurd hc hnot⟩

/-- A session that is ready refuses a message of the handshake before it looks for room. -/
theorem tls12Dispatch_ready (hst : w.session.st = .ready) (type : Nat) :
    Meets (tls12Dispatch env type w) (fun _ _ => True) (fun rc _ => rc ≠ .space) := by
  unfold tls12Dispatch
  split_ifs
  · unfold onCertificate12
    rw [meets_bind, meets_session]
    exact meets_refused (.inl (by rw [hst]; decide)) _
  · unfold onCertificateRequest12
    rw [meets_bind, meets_session]
    exact meets_refused (.inl (by rw [hst]; decide)) _
  · unfold onServerKx12
    rw [meets_bind, meets_session]
    exact meets_refused (.inl (by rw [hst]; decide)) _
  · unfold onHelloDone12
    rw [meets_bind, meets_session]
    exact meets_refused (.inl (by rw [hst]; decide)) _
  · unfold onServerFinished12
    rw [meets_bind, meets_session]
    exact meets_refused (by rw [hst]; decide) _
  · unfold onNewTicket12
    rw [meets_bind, meets_session]
    exact meets_refused (.inl (by rw [hst]; decide)) _
  · rw [meets_throw]
    decide

theorem tls13Dispatch_ready (hst : w.session.st = .ready) (type : Nat) :
    Meets (tls13Dispatch env type w) (fun _ _ => True) (fun rc _ => rc ≠ .space) := by
  unfold tls13Dispatch
  split_ifs
  · unfold onEncryptedExtensions
    rw [meets_bind, meets_session]
    exact meets_refused (.inl (by rw [hst]; decide)) _
  · unfold onCertificate
    rw [meets_bind, meets_session]
    exact meets_refused (.inl (by rw [hst]; decide)) _
  · unfold onCompressedCertificate
    rw [meets_bind, meets_session]
    exact meets_refused (.inl (by rw [hst]; decide)) _
  · unfold onCertificateRequest
    rw [meets_bind, meets_session]
    exact meets_refused (.inl (by rw [hst]; decide)) _
  · unfold onCertificateVerify
    rw [meets_bind, meets_session]
    exact meets_refused (.inl (by rw [hst]; decide)) _
  · unfold onServerFinished
    rw [meets_bind, meets_session]
    exact meets_refused (by rw [hst]; decide) _
  · unfold onNewTicket
    simp only [meets_bind, meets_session, meets_refuse, meets_pure]
    exact ⟨fun _ => by decide, fun _ => trivial⟩
  · unfold onKeyUpdate
    simp only [meets_bind, meets_session, meets_refuse, meets_throw]
    exact ⟨fun _ => by decide, fun _ => ⟨fun _ => by decide, fun _ => by decide⟩⟩
  · rw [meets_throw]
    decide

theorem tlsDispatch_ready (hst : w.session.st = .ready) :
    Meets (tlsDispatch env w) (fun _ v => v.session.st = .ready ∧ v.app = w.app) (fun rc _ => rc ≠ .space) := by
  have hfree : Meets (tlsDispatch env w) (fun _ _ => True) (fun rc _ => rc ≠ .space) := by
    unfold tlsDispatch
    rw [meets_bind, meets_session]
    split_ifs
    · unfold onServerHello readServerHello readServerHead
      simp only [meets_bind, meets_session, meets_refuse]
      exact ⟨fun _ => by decide, fun hnot => absurd (.inl (by rw [hst]; decide)) hnot⟩
    · exact tls12Dispatch_ready hst _
    · exact tls13Dispatch_ready hst _
  apply ((tlsDispatch_settles env w).and hfree).mono
  · rintro rc v ⟨⟨f, hacc, hm⟩, -⟩
    refine ⟨?_, hm.app⟩
    have hf : v.session.flow.st = f.st := congrArg TlsFlow.st hm.flow
    cases hacc
    case ticket => exact hf.trans hst
    all_goals simp_all
  · rintro rc v ⟨-, hne⟩
    exact hne

theorem headerBytes_ready (e : Epoch) (p : Bytes) (hst : w.session.st = .ready) :
    Meets (headerBytes e p w) (fun _ v => v.session.st = .ready ∧ v.app = w.app) (fun rc _ => rc ≠ .space) := by
  unfold headerBytes
  rw [meets_bind, meets_session]
  by_cases ha : w.session.hsActive
  · rw [if_pos ha]
    exact ⟨hst, rfl⟩
  · rw [if_neg ha]
    simp only [meets_bind, meets_update]
    split_ifs with hlen
    · exact ⟨hst, rfl⟩
    · simp only [meets_bind, meets_update, meets_session, meets_refuse, meets_pure]
      have hsame := congrArg TlsFlow.st
        (beginMessage_same (w.session.headerTaken e (p.take (4 - w.session.hsHdr.length)))).flow
      exact ⟨fun _ => by decide, fun _ => ⟨hsame.trans hst, rfl⟩⟩

theorem bodyBytes_ready (e : Epoch) (p : Bytes) (hst : w.session.st = .ready) :
    Meets (bodyBytes e p w) (fun _ v => v.session.st = .ready ∧ v.app = w.app) (fun rc _ => rc ≠ .space) := by
  unfold bodyBytes
  rw [meets_bind, meets_session]
  simp only [meets_bind, meets_update]
  apply (scanBytes_meets _ _).mono
  · rintro _ v ⟨c, c13, rfl⟩
    refine ⟨?_, rfl⟩
    show (w.session.trUpdate _).st = .ready
    exact (congrArg TlsFlow.st (trUpdate_flow w.session _)).trans hst
  · rintro rc v ⟨rfl, -⟩
    decide

theorem dispatchMessage_ready (left : Bytes) (hst : w.session.st = .ready) :
    Meets (dispatchMessage env left w) (fun _ v => v.session.st = .ready ∧ v.app = w.app)
      (fun rc _ => rc ≠ .space) := by
  have hd : Meets (tlsDispatch env { w with session := w.session.received }) _ _ := tlsDispatch_ready hst
  unfold dispatchMessage
  cases hr : tlsDispatch env { w with session := w.session.received } with
  | ok rc v =>
    rw [hr] at hd
    exact hd
  | error rc v =>
    rw [hr] at hd
    exact hd

/-- A handshake record that a ready session takes leaves it ready, and brings no application data. -/
theorem hsFeed_ready (e : Epoch) (fuel : Nat) (p : Bytes) (hst : w.session.st = .ready) :
    Meets (hsFeed env e fuel p w) (fun _ v => v.session.st = .ready ∧ v.app = w.app) (fun rc _ => rc ≠ .space) := by
  induction fuel generalizing p w with
  | zero => exact ⟨hst, rfl⟩
  | succ fuel ih =>
    unfold hsFeed
    by_cases hp : p = []
    · rw [if_pos hp]
      exact ⟨hst, rfl⟩
    rw [if_neg hp, meets_bind]
    apply (headerBytes_ready e p hst).mono
    · rintro q v ⟨hv, happ⟩
      rw [meets_bind, meets_session]
      by_cases ha : v.session.hsActive
      · rw [if_pos ha, meets_bind]
        apply (bodyBytes_ready e q hv).mono
        · rintro rest u ⟨hu, huapp⟩
          rw [meets_bind, meets_session]
          by_cases hgot : u.session.hsGot < u.session.hsLen
          · rw [if_pos hgot]
            exact ⟨hu, huapp.trans happ⟩
          · rw [if_neg hgot, meets_bind]
            apply (dispatchMessage_ready rest hu).mono
            · rintro _ t ⟨ht, htapp⟩
              rw [← happ, ← huapp, ← htapp]
              exact ih rest ht
            · exact fun _ _ h => h
        · exact fun _ _ h => h
      · rw [if_neg ha]
        exact ⟨hv, happ⟩
    · exact fun _ _ h => h

theorem unpad_length {pt : Bytes} {x : UInt8 × Bytes} (h : unpad pt = some x) : x.2.length ≤ pt.length := by
  unfold unpad at h
  have hle := (List.dropWhile_suffix (fun b => decide (b = 0)) (l := pt.reverse)).length_le
  split at h
  next => cases h
  next inner data heq =>
    obtain rfl := Option.some.inj h
    rw [heq, List.length_reverse] at hle
    rw [List.length_reverse]
    exact Nat.le_of_succ_le hle

/-- A record carries no more than its body. -/
theorem openContent_length (haead : AeadOpens env) (type : UInt8) :
    Meets (openContent env type w) (fun c _ => c.2.length ≤ (w.session.recBuf.drop recHdr).length)
      (fun _ _ => True) := by
  have hopens : ∀ {n aad c p}, (w.session.rd.aead.bind fun a => env.aeadOpen a n aad c) = some p →
      p.length ≤ c.length := by
    intro n aad c p h
    obtain ⟨a, -, h⟩ := Option.bind_eq_some_iff.mp h
    exact haead.opens a n aad c p h ▸ Nat.le_add_right _ _
  unfold openContent
  rw [meets_bind, meets_session]
  by_cases hv : w.session.version = 0x0303
  · rw [if_pos hv]
    by_cases hon : w.session.rd.on
    · rw [if_pos hon]
      unfold tls12Open
      simp only [meets_bind, meets_session, meets_refuse, meets_orRefuse, meets_update, meets_pure]
      refine ⟨fun _ => trivial, fun _ => ⟨fun _ => trivial, fun _ => ⟨fun _ => trivial, fun p hp => ?_⟩⟩⟩
      exact Nat.le_trans (hopens hp) (by rw [List.length_drop]; exact Nat.sub_le _ _)
    · rw [if_neg hon]
      exact Nat.le_refl _
  · rw [if_neg hv]
    by_cases hon : w.session.rd.on
    · rw [if_pos hon]
      unfold openRecord
      simp only [meets_bind, meets_session, meets_refuse, meets_orRefuse, meets_update]
      refine ⟨fun _ => trivial, fun _ => ⟨fun _ => trivial, fun _ => ⟨fun _ => trivial, fun p hp => ?_⟩⟩⟩
      exact ⟨fun _ => trivial, fun x hx => Nat.le_trans (unpad_length hx) (hopens hp)⟩
    · rw [if_neg hon]
      exact Nat.le_refl _

theorem openContent_calm (type : UInt8) :
    Meets (openContent env type w)
      (fun _ v => v.session.st = w.session.st ∧ v.app = w.app ∧ v.appRoom = w.appRoom)
      (fun rc _ => rc ≠ .space) := by
  unfold openContent
  rw [meets_bind, meets_session]
  by_cases hv : w.session.version = 0x0303
  · rw [if_pos hv]
    by_cases hon : w.session.rd.on
    · rw [if_pos hon]
      unfold tls12Open
      simp only [meets_bind, meets_session, meets_refuse, meets_orRefuse, meets_update, meets_pure]
      exact ⟨fun _ => by decide, fun _ => ⟨fun _ => by decide, fun _ => ⟨fun _ => by decide, fun _ _ =>
        ⟨rfl, rfl, rfl⟩⟩⟩⟩
    · rw [if_neg hon]
      exact ⟨rfl, rfl, rfl⟩
  · rw [if_neg hv]
    by_cases hon : w.session.rd.on
    · rw [if_pos hon]
      unfold openRecord
      simp only [meets_bind, meets_session, meets_refuse, meets_orRefuse, meets_update]
      exact ⟨fun _ => by decide, fun _ => ⟨fun _ => by decide, fun _ => ⟨fun _ => by decide, fun _ _ =>
        ⟨fun _ => by decide, fun _ _ => ⟨rfl, rfl, rfl⟩⟩⟩⟩⟩
    · rw [if_neg hon]
      exact ⟨rfl, rfl, rfl⟩

/-- A ready session asks for more room only when the application data of its record needs it. -/
theorem handleRecord_ready {n : Nat} (hst : w.session.st = .ready) (happ : w.app = []) (hn : Carries env n w) :
    Meets (handleRecord env w) (fun _ v => v.session.st = .ready ∧ v.app.length ≤ n)
      (fun rc _ => rc = .space → w.appRoom < n) := by
  unfold handleRecord
  rw [meets_bind, meets_session]
  by_cases hccs : w.session.recBuf.headD 0 = rtCcs
  · rw [if_pos hccs]
    unfold onCcs
    simp only [meets_bind, meets_session, meets_refuse]
    exact ⟨fun _ h => absurd h (by decide), fun hnot => absurd (.inr (.inr (.inl hst))) hnot⟩
  rw [if_neg hccs, meets_bind]
  have hcalm : Meets (openContent env (w.session.recBuf.headD 0) w) _ _ := openContent_calm _
  cases hc : openContent env (w.session.recBuf.headD 0) w with
  | error rc v =>
    rw [hc] at hcalm
    exact fun h => absurd h hcalm
  | ok c v =>
    rw [hc] at hcalm
    obtain ⟨hvst, hvapp, hvroom⟩ := hcalm
    obtain ⟨inner, p⟩ := c
    rw [hst] at hvst
    rw [happ] at hvapp
    show Meets ((if inner = rtAlert then onAlert p
      else if inner = rtHs then hsFeed env w.session.epoch (p.length + 2) p
      else if inner = rtApp then deliver p else throw .proto : TlsHandler Unit) v) _ _
    by_cases h₁ : inner = rtAlert
    · rw [if_pos h₁]
      exact fun h => absurd h (by decide)
    rw [if_neg h₁]
    by_cases h₂ : inner = rtHs
    · rw [if_pos h₂]
      apply (hsFeed_ready _ _ p hvst).mono
      · rintro _ u ⟨hu, huapp⟩
        rw [huapp, hvapp]
        exact ⟨hu, Nat.zero_le n⟩
      · exact fun rc _ hne h => absurd h hne
    rw [if_neg h₂]
    by_cases h₃ : inner = rtApp
    · rw [if_pos h₃]
      subst h₃
      have hp := hn p v hc
      unfold deliver
      rw [if_neg (not_not.mpr hvst), hvapp, hvroom]
      by_cases hroom : w.appRoom < ([] : Bytes).length + p.length
      · rw [if_pos hroom]
        intro _
        rw [List.length_nil, Nat.zero_add] at hroom
        exact Nat.lt_of_lt_of_le hroom hp
      · rw [if_neg hroom]
        exact ⟨hvst, hp⟩
    · rw [if_neg h₃]
      exact fun h => absurd h (by decide)

end Ready

section Recv

variable {env : TlsEnv} {s : TlsSession} {io : TlsIo}

theorem carries_body (haead : AeadOpens env) (w : TlsWork) : Carries env (w.session.recBuf.drop recHdr).length w := by
  intro p v h
  have hlen := openContent_length (w := w) haead (w.session.recBuf.headD 0)
  rw [h] at hlen
  exact hlen

theorem recvLoop_full {buf rest : Bytes} (h : fillRecord s.rd.on s.recBuf io.input = .full buf rest) (fuel : Nat)
    (done : Bool) : (recvLoop env (fuel + 1) s io done).rc =
      match handleRecord env (roundWork s io buf) with
      | .error rc _ => rc
      | .ok _ w => (recvLoop env fuel { w.session with recBuf := [] } (io.after rest w) (done || w.done)).rc := by
  rw [recvLoop, h]
  show RecvResult.rc (match handleRecord env (roundWork s io buf) with
    | .error rc w => _
    | .ok _ w => _) = _
  cases handleRecord env (roundWork s io buf) with
  | error rc w => rfl
  | ok _ w => rfl

theorem recvLoop_noSpace {fuel : Nat} {done : Bool}
    (hround : ∀ buf rest, fillRecord s.rd.on s.recBuf io.input = .full buf rest →
      (recvLoop env (fuel + 1) s io done).rc ≠ .space) : (recvLoop env (fuel + 1) s io done).rc ≠ .space := by
  cases hf : fillRecord s.rd.on s.recBuf io.input with
  | wait buf =>
    rw [recvLoop, hf]
    cases done with
    | true => exact (by decide : TlsRc.done ≠ .space)
    | false => exact (by decide : TlsRc.more ≠ .space)
  | bad buf rest =>
    rw [recvLoop, hf]
    exact (by decide : TlsRc.proto ≠ .space)
  | full buf rest => exact hround buf rest hf

/-- One round of a ready session that needs at most `n` bytes of `io->app`. -/
theorem recvLoop_round {n fuel : Nat} {done : Bool} {buf rest : Bytes} (hst : s.st = .ready)
    (h : fillRecord s.rd.on s.recBuf io.input = .full buf rest) (hn : Carries env n (roundWork s io buf))
    (hroom : n ≤ io.appCap)
    (hnext : ∀ w done', w.session.st = .ready → w.app.length ≤ n →
      (recvLoop env fuel { w.session with recBuf := [] } (io.after rest w) done').rc ≠ .space) :
    (recvLoop env (fuel + 1) s io done).rc ≠ .space := by
  have hm := handleRecord_ready (w := roundWork s io buf) hst rfl hn
  rw [recvLoop_full h]
  cases hw : handleRecord env (roundWork s io buf) with
  | error rc w =>
    rw [hw] at hm
    exact fun hrc => absurd (hm hrc) (Nat.not_lt.mpr hroom)
  | ok _ w =>
    rw [hw] at hm
    exact hnext w _ hm.1 hm.2

/-- From a record's first byte on, room for the input is room for what it carries. -/
theorem recvLoop_room (haead : AeadOpens env) {fuel : Nat} {done : Bool} (hst : s.st = .ready) (hbuf : s.recBuf = [])
    (hroom : io.input.length ≤ io.appCap) : (recvLoop env fuel s io done).rc ≠ .space := by
  induction fuel generalizing s io done with
  | zero => exact (by decide : TlsRc.ok ≠ .space)
  | succ fuel ih =>
    refine recvLoop_noSpace fun buf rest hf => ?_
    have hkept := fillRecord_kept s.rd.on s.recBuf io.input
    rw [hf, hbuf] at hkept
    obtain ⟨-, htotal, -⟩ := hkept
    rw [List.length_nil, Nat.zero_add] at htotal
    have hbody : (buf.drop recHdr).length ≤ buf.length := by
      rw [List.length_drop]
      exact Nat.sub_le _ _
    refine recvLoop_round hst hf (carries_body haead _) (show (buf.drop recHdr).length ≤ _ by omega) ?_
    intro w done' hw happ
    have happ' : w.app.length ≤ buf.length := Nat.le_trans happ hbody
    refine ih hw rfl ?_
    show rest.length ≤ io.appCap - w.app.length
    omega

/-- A record outside any key is as short as its header was made to say. -/
theorem carries_plain (haead : AeadOpens env) {buf rest : Bytes} (hbuf : PartialRecord s.recBuf) (hon : s.rd.on = false)
    (h : fillRecord s.rd.on s.recBuf io.input = .full buf rest) : Carries env recMaxPt (roundWork s io buf) := by
  obtain ⟨hlen, href⟩ := fillRecord_full h hbuf
  rw [hon] at href
  have hneed := headerRefused_plain href
  intro p v hp
  have hbody : p.length ≤ (buf.drop recHdr).length := carries_body haead _ p v hp
  rw [List.length_drop] at hbody
  omega

/-- A ready session that holds part of a record finishes it and takes what else the input brings: `io->app`
with room for two buffers of input never runs out, if no protected record carries more than one. -/
theorem recv_appBuf_suffices (haead : AeadOpens env) (hst : s.st = .ready) (hbuf : PartialRecord s.recBuf)
    (hin : io.input.length ≤ verInBuf) (hcap : io.appCap = verAppBuf)
    (hcarry : ∀ w, Handles env s io w → w.session.rd.on → Carries env recMaxPt w) :
    (tlsRecv env s io).rc ≠ .space := by
  unfold tlsRecv
  refine recvLoop_noSpace fun buf rest hf => ?_
  have hn : Carries env recMaxPt (roundWork s io buf) := by
    cases hon : s.rd.on with
    | true => exact hcarry _ (.here hf) hon
    | false => exact carries_plain haead hbuf hon hf
  have hmax : recMaxPt = 16384 := rfl
  have hinBuf : verInBuf = 16384 := rfl
  have happBuf : verAppBuf = 32768 := rfl
  refine recvLoop_round hst hf hn (by omega) ?_
  intro w done' hw happ
  have hkept := fillRecord_kept s.rd.on s.recBuf io.input
  rw [hf] at hkept
  obtain ⟨hrest, -⟩ := hkept
  refine recvLoop_room haead hw rfl ?_
  show rest.length ≤ io.appCap - w.app.length
  omega

/-- No record is longer than what a call has to make it from. -/
theorem Handles.length_le {w : TlsWork} (h : Handles env s io w) :
    w.session.recBuf.length ≤ s.recBuf.length + io.input.length := by
  induction h with
  | @here s io buf rest hf =>
    have hkept := fillRecord_kept s.rd.on s.recBuf io.input
    rw [hf] at hkept
    exact Nat.le_trans (Nat.le_add_right _ _) (Nat.le_of_eq hkept.2.1)
  | @later s io buf rest w x hf hw hx ih =>
    have hkept := fillRecord_kept s.rd.on s.recBuf io.input
    rw [hf] at hkept
    obtain ⟨hrest, -⟩ := hkept
    refine Nat.le_trans ih ?_
    rw [show ({ w.session with recBuf := [] } : TlsSession).recBuf.length = 0 from rfl, Nat.zero_add]
    exact Nat.le_trans hrest (Nat.le_add_left _ _)

end Recv

theorem sampleEnv_opens : AeadOpens sampleEnv where
  opens := by
    intro a nonce aad c p h
    unfold sampleEnv at h
    dsimp only at h
    split_ifs at h with htag
    obtain rfl := Option.some.inj h
    have hlen := congrArg List.length htag
    rw [List.length_drop, zeros, List.length_replicate] at hlen
    rw [List.length_take]
    omega

theorem recv_appBuf_suffices_sample :
    (tlsRecv sampleEnv { (sampleConn sampleFlight).session with recBuf := [23, 3, 3, 0] }
      ⟨[18, 1, 23] ++ zeros 16 ++ [23], true, 4096, verAppBuf⟩).rc ≠ .space := by
  refine recv_appBuf_suffices sampleEnv_opens (by decide +kernel) (.inl (by decide)) (by decide) rfl ?_
  intro w hw _ p v hp
  have hlen := carries_body sampleEnv_opens w p v hp
  have hrec : w.session.recBuf.length ≤ 24 := hw.length_le
  rw [List.length_drop] at hlen
  exact Nat.le_trans hlen (Nat.le_trans (Nat.sub_le _ _) (Nat.le_trans hrec (by decide)))

end Qanat

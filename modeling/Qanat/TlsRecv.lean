import Qanat.Tls12

namespace Qanat

open TlsHandler

def hsServerHello : Nat := 2

def hsNewTicket : Nat := 4

def hsEncryptedExt : Nat := 8

def hsCert : Nat := 11

def hsServerKx : Nat := 12

def hsCertReq : Nat := 13

def hsHelloDone : Nat := 14

def hsCertVerify : Nat := 15

def hsFinished : Nat := 20

def hsKeyUpdate : Nat := 24

def hsCompressedCert : Nat := 25

/-- `qn_tls12_dispatch`. -/
def tls12Dispatch (env : TlsEnv) (type : Nat) : TlsHandler TlsRc :=
  if type = hsCert then onCertificate12 env
  else if type = hsCertReq then onCertificateRequest12
  else if type = hsServerKx then onServerKx12
  else if type = hsHelloDone then onHelloDone12 env
  else if type = hsFinished then onServerFinished12 env
  else if type = hsNewTicket then onNewTicket12
  else throw .proto

/-- `HS_NEW_TICKET` of `qn_tls13_dispatch`. -/
def onNewTicket : TlsHandler TlsRc := do
  let s ← session
  refuse (s.st ≠ .ready) .proto
  pure .ok

/-- `HS_KEY_UPDATE` of `qn_tls13_dispatch`. -/
def onKeyUpdate : TlsHandler TlsRc := do
  let s ← session
  refuse (s.st ≠ .ready ∨ s.hsLen ≠ s.hs.length ∨ s.hs.length ≠ 1) .proto
  refuse (1 < byteAt s.hs 0) .proto
  throw .unsupported

/-- The part of `qn_tls13_dispatch` that is for TLS 1.3. -/
def tls13Dispatch (env : TlsEnv) (type : Nat) : TlsHandler TlsRc :=
  if type = hsEncryptedExt then onEncryptedExtensions
  else if type = hsCert then onCertificate env
  else if type = hsCompressedCert then onCompressedCertificate
  else if type = hsCertReq then onCertificateRequest
  else if type = hsCertVerify then onCertificateVerify
  else if type = hsFinished then onServerFinished env
  else if type = hsNewTicket then onNewTicket
  else if type = hsKeyUpdate then onKeyUpdate
  else throw .proto

/-- `qn_tls13_dispatch`. -/
def tlsDispatch (env : TlsEnv) : TlsHandler TlsRc := do
  let s ← session
  if s.hsType = hsServerHello then onServerHello env
  else if s.version = 0x0303 then tls12Dispatch env s.hsType
  else tls13Dispatch env s.hsType

/-- What a Finished has to carry for the session to accept it. -/
def finishedExpect (env : TlsEnv) (s : TlsSession) : Option Bytes :=
  if s.version = 0x0303 then finishedExpect12 env s else finishedExpect13 env s

/-- The message a session is about to dispatch, as it goes down in the history. -/
def TlsSession.message (env : TlsEnv) (s : TlsSession) (left : Bytes) (rc : TlsRc) : Message :=
  ⟨s.hsType, s.hsLen, s.hs, s.version, s.tags, left, s.certCompressed, s.trFin, finishedExpect env s, rc⟩

/-- The message is over: the next header starts. -/
def TlsSession.endMessage (s : TlsSession) (m : Message) : TlsSession :=
  { s.note (.message m) with hsActive := false, hsGot := 0, hsHdr := [], tags := [] }

/-- The message is complete. -/
def TlsSession.received (s : TlsSession) : TlsSession :=
  s.shook (s.tags.map Prod.fst)

/-- The end of one round of `hs_feed`, with `left` still unread in the record. -/
def dispatchMessage (env : TlsEnv) (left : Bytes) : TlsHandler Unit :=
  fun w => match tlsDispatch env { w with session := w.session.received } with
    | .ok rc v =>
      .ok () { v with session := v.session.endMessage (w.session.message env left rc),
                      done := v.done || rc = .done }
    | .error rc v => .error rc { v with session := v.session.endMessage (w.session.message env left rc) }

/-- The state of a message whose header is complete. -/
def TlsSession.beginMessage (s : TlsSession) : TlsSession :=
  let type := byteAt s.hsHdr 0
  let len := rd24 (s.hsHdr.drop 1)
  let s : TlsSession := if type = hsFinished then { s with trFin := s.transcript } else s
  let s : TlsSession :=
    { s.trUpdate s.hsHdr with hsType := type, hsLen := len, hsActive := true, hsGot := 0, hs := [] }
  if type = hsCert then
    if s.version = 0x0303 then { s with certScan := certScanInit len tlsCertMax }
    else { s with cert13Scan := cert13ScanInit len tlsCertMax }
  else s

/-- Bytes of a record opened under `e` have gone into the header. -/
def TlsSession.headerTaken (s : TlsSession) (e : Epoch) (q : Bytes) : TlsSession :=
  { s with hsHdr := s.hsHdr ++ q, tags := s.tags ++ q.map (·, e) }

/-- Bytes of a record opened under `e` that go into the header of a message; returns the rest. -/
def headerBytes (e : Epoch) (p : Bytes) : TlsHandler Bytes := do
  let s ← session
  if s.hsActive then pure p
  else do
    let q := p.take (4 - s.hsHdr.length)
    update fun s => s.headerTaken e q
    if s.hsHdr.length + q.length < 4 then pure (p.drop q.length)
    else do
      update TlsSession.beginMessage
      let s ← session
      refuse (s.hsType = hsCert ∧ s.version ≠ 0x0303 ∧ s.cert13Scan.state = .failed) .proto
      pure (p.drop q.length)

/-- The running check of a Certificate's framing. -/
def scanBytes (q : Bytes) : TlsHandler Unit := do
  let s ← session
  if s.hsType = hsCert then
    if s.version = 0x0303 then do
      update fun s => { s with certScan := (certScanPush s.certScan q).1 }
      refuse (¬ (certScanPush s.certScan q).2) .proto
    else do
      update fun s => { s with cert13Scan := (cert13ScanPush s.cert13Scan q).1 }
      refuse (¬ (cert13ScanPush s.cert13Scan q).2) .proto
  else pure ()

/-- Bytes of a record opened under `e` have gone into the body, and into its retained head. -/
def TlsSession.bodyTaken (s : TlsSession) (e : Epoch) (q : Bytes) : TlsSession :=
  { s with hs := s.hs ++ q.take (tlsHsBuf - s.hs.length), hsGot := s.hsGot + q.length,
           tags := s.tags ++ q.map (·, e) }

/-- Bytes that go into the body of a message; returns the rest. -/
def bodyBytes (e : Epoch) (p : Bytes) : TlsHandler Bytes := do
  let s ← session
  let q := p.take (s.hsLen - s.hsGot)
  update fun s => s.trUpdate q
  scanBytes q
  update fun s => s.bodyTaken e q
  pure (p.drop q.length)

/-- `hs_feed` on the bytes of a record opened under `e`. -/
def hsFeed (env : TlsEnv) (e : Epoch) : Nat → Bytes → TlsHandler Unit
  | 0, _ => pure ()
  | fuel + 1, p =>
    if p = [] then pure ()
    else do
      let p ← headerBytes e p
      let s ← session
      if s.hsActive then do
        let p ← bodyBytes e p
        let s ← session
        if s.hsGot < s.hsLen then pure ()
        else do
          dispatchMessage env p
          hsFeed env e fuel p
      else pure ()

/-- Opens the record the session holds: its content type and its content. -/
def openContent (env : TlsEnv) (type : UInt8) : TlsHandler (UInt8 × Bytes) := do
  let s ← session
  let body := s.recBuf.drop recHdr
  if s.version = 0x0303 then
    if s.rd.on then do
      let p ← tls12Open env type
      pure (type, p)
    else pure (type, body)
  else if s.rd.on then do
    refuse (type ≠ rtApp) .proto
    openRecord env
  else pure (type, body)

/-- A ChangeCipherSpec record. -/
def onCcs : TlsHandler Unit := do
  let s ← session
  refuse (s.recBuf.drop recHdr ≠ [1] ∨ s.sawCcs ∨ s.st = .ready ∨ s.st = .closed) .proto
  update fun s => { s.note (.ccs s.version (s.hsActive ∨ s.hsHdr ≠ [])) with sawCcs := true }
  if s.version = 0x0303 then update TlsSession.tls12OnCcs else pure ()

def onAlert (p : Bytes) : TlsHandler Unit := do
  update fun s => { s.note .alert with alertDesc := if 2 ≤ p.length then byteAt p 1 else s.alertDesc,
                                       st := .closed }
  throw .alert

/-- Application data goes to `io->app`. -/
def deliver (p : Bytes) : TlsHandler Unit :=
  fun w =>
    if w.session.st ≠ .ready then .error .proto w
    else if w.appRoom < w.app.length + p.length then .error .space w
    else .ok () { w with app := w.app ++ p, session := w.session.note (.data p) }

/-- `handle_record`. -/
def handleRecord (env : TlsEnv) : TlsHandler Unit := do
  let s ← session
  let type := s.recBuf.headD 0
  if type = rtCcs then onCcs
  else do
    let c ← openContent env type
    if c.1 = rtAlert then onAlert c.2
    else if c.1 = rtHs then hsFeed env s.epoch (c.2.length + 2) c.2
    else if c.1 = rtApp then deliver c.2
    else throw .proto

/-- Moves input into the record buffer until it holds `want` bytes. -/
def fill (want : Nat) (buf input : Bytes) : Bytes × Bytes :=
  (buf ++ input.take (want - buf.length), input.drop (want - buf.length))

/-- The length of the record whose header the buffer starts with. -/
def recordNeed (buf : Bytes) : Nat :=
  recHdr + rd16 (buf.drop 3)

def headerRefused (on : Bool) (buf : Bytes) : Bool :=
  byteAt buf 0 < 20 || 23 < byteAt buf 0 || byteAt buf 1 ≠ 3 || byteAt buf 2 < 1 || 3 < byteAt buf 2 ||
    tlsRecMax < recordNeed buf || (!on && recMaxPt < recordNeed buf - recHdr)

/-- How one round of `qn_tls_recv` leaves the record buffer, and the input it did not use. -/
inductive Fill
  | wait (buf : Bytes)
  | bad (buf rest : Bytes)
  | full (buf rest : Bytes)

/-- One round of `qn_tls_recv` up to `handle_record`. -/
def fillRecord (on : Bool) (buf input : Bytes) : Fill :=
  let (buf, input) := fill recHdr buf input
  if buf.length < recHdr then .wait buf
  else if headerRefused on buf then .bad buf input
  else
    let (buf, input) := fill (recordNeed buf) buf input
    if buf.length < recordNeed buf then .wait buf else .full buf input

/-- The caller's side of one call: the input, the capacity of the two buffers, and whether `out` is there
at all. -/
structure TlsIo where
  input : Bytes
  hasOut : Bool
  outCap : Nat
  appCap : Nat

/-- What a call of `qn_tls_recv` leaves behind. -/
structure RecvResult where
  session : TlsSession
  consumed : Nat
  out : Bytes
  app : Bytes
  rc : TlsRc

/-- The loop of `qn_tls_recv`. -/
def recvLoop (env : TlsEnv) : Nat → TlsSession → TlsIo → Bool → RecvResult
  | 0, s, _, _ => ⟨s, 0, [], [], .ok⟩
  | fuel + 1, s, io, done =>
    match fillRecord s.rd.on s.recBuf io.input with
    | .wait buf => ⟨{ s with recBuf := buf }, io.input.length, [], [], if done then .done else .more⟩
    | .bad buf rest => ⟨{ s with recBuf := buf }, io.input.length - rest.length, [], [], .proto⟩
    | .full buf rest =>
      match handleRecord env ⟨{ s with recBuf := buf }, io.hasOut, io.outCap, [], io.appCap, [], false⟩ with
      | .error rc w =>
        ⟨{ w.session with recBuf := [] }, io.input.length - rest.length, w.out, w.app, rc⟩
      | .ok _ w =>
        let r := recvLoop env fuel { w.session with recBuf := [] }
          ⟨rest, io.hasOut, io.outCap - w.out.length, io.appCap - w.app.length⟩ (done || w.done)
        ⟨r.session, io.input.length - rest.length + r.consumed, w.out ++ r.out, w.app ++ r.app, r.rc⟩

/-- `qn_tls_recv`. -/
def tlsRecv (env : TlsEnv) (s : TlsSession) (io : TlsIo) : RecvResult :=
  recvLoop env (s.recBuf.length + io.input.length + 1) s io false

/-- One record of application data. -/
def sealApp (env : TlsEnv) (s : TlsSession) (chunk : Bytes) (cap : Nat) : Option Bytes :=
  if s.version = 0x0303 then
    if cap < seal12Len s.aeadId chunk.length then none else tls12Seal env s rtApp chunk
  else if cap < sealLen chunk.length then none
  else sealRecord env s rtApp chunk

/-- The nonce of a record of application data of `n` bytes. -/
def appNonce (s : TlsSession) (n : Nat) : Bytes :=
  if s.version = 0x0303 then nonceFor12 s s.wr (aadFor s.wr.seq rtApp n) else nonceFor s.wr

/-- The session after a record around `chunk` was sealed. -/
def TlsSession.sealedApp (s : TlsSession) (chunk : Bytes) : TlsSession :=
  s.sealed (appNonce s chunk.length)

/-- The loop of `qn_tls_send_app`. -/
def sendLoop (env : TlsEnv) : Nat → TlsSession → Bytes → Nat → TlsSession × Option Bytes
  | 0, s, _, _ => (s, none)
  | fuel + 1, s, data, cap =>
    match sealApp env s (data.take recMaxPt) cap with
    | none => (s, none)
    | some p =>
      if data.drop recMaxPt = [] then (s.sealedApp (data.take recMaxPt), some p)
      else
        let r := sendLoop env fuel (s.sealedApp (data.take recMaxPt)) (data.drop recMaxPt) (cap - p.length)
        (r.1, r.2.map (p ++ ·))

/-- `qn_tls_send_app`; `none` is its answer -1. -/
def tlsSendApp (env : TlsEnv) (s : TlsSession) (data : Bytes) (cap : Nat) : TlsSession × Option Bytes :=
  if s.st ≠ .ready then (s, none) else sendLoop env (data.length + 1) s data cap

/-- The random draws of `qn_tls_start`; `none` where the system had no entropy. -/
structure HelloDraws where
  start : Option (UInt64 × Bytes × Bytes)
  keys : Option HelloKeys

/-- The session once the first draws of `qn_tls_start` are in. -/
def TlsSession.withDraws (s : TlsSession) (seed : UInt64) (random sid : Bytes) : TlsSession :=
  let seed := match s.cfg.profile with
    | some p => seed ^^^ p.greaseSeed
    | none => seed
  { s with
    helloGreaseSeed := seed
    clientRandom := random
    sessionId := sid
    echPayloadLen := if s.fp = .chrome then 144 + 32 * (seed &&& 3).toNat else 239
    echAead := if s.fp = .firefox then 3 else 1 }

/-- `qn_tls_start`; `none` is its answer -1. -/
def tlsStart (env : TlsEnv) (s : TlsSession) (draws : HelloDraws) (cap : Nat) :
    TlsSession × Option Bytes :=
  if s.st ≠ .new ∨ s.cfg.profile.any (fun p => !p.supported) then (s, none)
  else
    match draws.start with
    | none => (s, none)
    | some (seed, random, sid) =>
      let s := s.withDraws seed random sid
      match draws.keys with
      | none => (s, none)
      | some keys =>
        let s := { s with keys := keys }
        match env.helloBuild (sessionHelloRequest s 0) with
        | none => (s, none)
        | some info =>
          if cap < info.wire.length ∨ tlsHsBuf < info.body.length then (s, none)
          else
            ({ s.shook info.body with ch := info.body, sigalgs := info.sigalgs.take 24, st := .waitSh },
              some info.wire)

end Qanat

import Qanat.TlsServerHello

namespace Qanat

open TlsHandler

/-- A list of groups in which none is zero. -/
def groupsNonzero : Nat → Bytes → Bool
  | 0, _ => true
  | fuel + 1, p => if p = [] then true else rd16 p ≠ 0 && groupsNonzero fuel (p.drop 2)

/-- One extension of EncryptedExtensions. -/
def encryptedExt (_ : Unit) (et : Nat) (ev : Bytes) : TlsHandler Unit :=
  if et = 0x0010 then parseSelectedAlpn ev
  else if et = 0x0000 then refuse (ev.length ≠ 0) .proto
  else if et = 0x001C then refuse (ev.length ≠ 2 ∨ rd16 ev < 64 ∨ 16385 < rd16 ev) .proto
  else if et = 0x000A then do
    refuse (ev.length < 4 ∨ rd16 ev ≠ ev.length - 2 ∨ (ev.length - 2) % 2 ≠ 0) .proto
    refuse (¬ groupsNonzero ev.length (ev.drop 2)) .proto
  else if et = 0xFE0D then do
    let s ← session
    refuse (s.echPayloadLen < 16 ∨ ¬ echConfigListValid ev) .proto
    update fun s => { s with echRetryReceived := true }
  else if et = 0x44CD then do
    refuse (512 < ev.length) .unsupported
    refuse (¬ alpsH2Valid ev) .proto
    update fun s => { s with alps := ev, alpsNegotiated := true }
  else throw .proto

/-- `on_encrypted_extensions`. -/
def onEncryptedExtensions : TlsHandler TlsRc := do
  let s ← session
  refuse (s.st ≠ .waitEe ∨ s.hsLen ≠ s.hs.length) .proto
  let block ← lastBlock (Br.init s.hs)
  extBlock encryptedExt block ()
  let s ← session
  refuse (s.alpsNegotiated ∧ (s.fp ≠ .chrome ∨ cString s.alpn ≠ alpnH2)) .proto
  update fun s => { s with st := .waitFin }
  pure .ok

/-- `on_certificate_request`. -/
def onCertificateRequest : TlsHandler TlsRc := do
  let s ← session
  refuse (s.st ≠ .waitFin ∨ s.certRequested ∨ s.sawCertificate ∨ s.hsLen ≠ s.hs.length) .proto
  let ctxLen := (Br.init s.hs).u8
  let ctx := ctxLen.2.take ctxLen.1
  refuse (ctx.1 = none ∨ ctxLen.1 ≠ 0) .proto
  let block ← lastBlock ctx.2
  extBlock (fun _ _ _ => pure ()) block ()
  update fun s => { s with certRequested := true }
  pure .ok

/-- `qn_tls_cert_leaf`. -/
def certLeaf (msg : Bytes) (tls13 : Bool) : Option Bytes :=
  if tls13 ∧ msg.length < 1 then none
  else
    let p := if tls13 then msg.drop (1 + byteAt msg 0) else msg
    if p.length < 3 ∨ rd24 p = 0 ∨ p.length < 6 ∨ rd24 (p.drop 3) = 0 ∨ p.length = 6 then none
    else some ((p.drop 6).take (rd24 (p.drop 3)))

/-- The identity shown for the peer, read from the retained head of its Certificate. -/
def TlsSession.readIdentity (env : TlsEnv) (s : TlsSession) (tls13 : Bool) : TlsSession :=
  match certLeaf s.hs tls13 with
  | some leaf => { s with peerCn := (env.certIdentity leaf).1, peerIssuer := (env.certIdentity leaf).2 }
  | none => s

/-- `on_certificate` for a CompressedCertificate. -/
def onCompressedCertificate : TlsHandler TlsRc := do
  let s ← session
  refuse (s.st ≠ .waitFin ∨ s.sawCertificate ∨ s.sawCertVerify) .proto
  refuse (s.hs.length < 8) .proto
  refuse (¬ certCompressionOffered s (rd16 s.hs)) .proto
  refuse (rd24 (s.hs.drop 2) = 0 ∨ tlsCertMax < rd24 (s.hs.drop 2)) .proto
  refuse (rd24 (s.hs.drop 5) = 0 ∨ rd24 (s.hs.drop 5) + 8 ≠ s.hsLen) .proto
  update fun s => { s with certCompressionAlg := rd16 s.hs, certCompressed := true }
  refuse s.certStrict .unsupported
  pure .ok

/-- `on_certificate` for a Certificate. -/
def onCertificate (env : TlsEnv) : TlsHandler TlsRc := do
  let s ← session
  refuse (s.st ≠ .waitFin ∨ s.sawCertificate ∨ s.sawCertVerify) .proto
  refuse (¬ s.cert13Scan.isDone) .proto
  update fun s => { s.readIdentity env true with sawCertificate := true }
  pure .ok

/-- `on_certificate_verify`. -/
def onCertificateVerify : TlsHandler TlsRc := do
  let s ← session
  refuse (s.st ≠ .waitFin ∨ (¬ s.sawCertificate ∧ ¬ s.certCompressed) ∨ s.sawCertVerify ∨
    s.hsLen ≠ s.hs.length ∨ s.hs.length < 5) .proto
  refuse (rd16 s.hs ∉ s.sigalgs ∨ capabilitySigalg (rd16 s.hs) = none) .unsupported
  refuse (rd16 (s.hs.drop 2) = 0 ∨ rd16 (s.hs.drop 2) + 4 ≠ s.hs.length) .proto
  update fun s => { s with sawCertVerify := true }
  pure .ok

/-- `schedule_application`: the client's and the server's application secrets. -/
def scheduleApplication (env : TlsEnv) : TlsHandler (Bytes × Bytes) := do
  let s ← session
  let derived ← orRefuse (env.deriveSecret s.hash s.hsSecret "derived" (hashInit s.hash)) .proto
  let master := env.hkdfExtract s.hash derived (List.replicate (hashLen s.hash) 0)
  update fun s => { s with master := master }
  let c ← orRefuse (env.deriveSecret s.hash master "c ap traffic" s.transcript) .proto
  let t ← orRefuse (env.deriveSecret s.hash master "s ap traffic" s.transcript) .proto
  pure (c, t)

def ccsRecord : Bytes := [20, 3, 3, 0, 1, 1]

def emptyCert : Bytes := [11, 0, 0, 4, 0, 0, 0, 0]

/-- What `send_client_flight` needs in `io->out` behind its ChangeCipherSpec. -/
def clientFlightLen (s : TlsSession) : Nat :=
  (if s.certRequested then sealLen emptyCert.length else 0) + sealLen (4 + hashLen s.hash)

/-- The empty Certificate that answers a CertificateRequest. -/
def sendEmptyCert (env : TlsEnv) (requested : Bool) : TlsHandler Unit :=
  if requested then do
    sealOut env rtHs emptyCert .proto
    update fun s => { s.shook emptyCert with transcript := s.transcript.update emptyCert }
  else pure ()

/-- The client's Finished. -/
def sendFinished (env : TlsEnv) : TlsHandler Unit := do
  let s ← session
  let fkey ← orRefuse (env.hkdfExpandLabel s.hash s.cTraffic "finished" [] (hashLen s.hash)) .proto
  let msg := 20 :: wireBytes 3 (hashLen s.hash) ++ env.hmacOnce s.hash fkey (env.hashFinal s.transcript)
  sealOut env rtHs msg .space
  update fun s => { s.shook msg with transcript := s.transcript.update msg }

/-- `send_client_flight`. -/
def sendClientFlight (env : TlsEnv) : TlsHandler TlsRc := do
  let s ← session
  needRoom (ccsRecord.length + clientFlightLen s) .space
  let ap ← scheduleApplication env
  emit ccsRecord
  sendEmptyCert env s.certRequested
  sendFinished env
  setWrite env ap.1 .application
  setRead env ap.2 .application
  update fun s => { s with st := .ready }
  pure .done

/-- What the server's Finished has to carry in TLS 1.3. -/
def finishedExpect13 (env : TlsEnv) (s : TlsSession) : Option Bytes := do
  let fkey ← env.hkdfExpandLabel s.hash s.sTraffic "finished" [] (hashLen s.hash)
  some (env.hmacOnce s.hash fkey (env.hashFinal s.trFin))

/-- `on_server_finished` of TLS 1.3. -/
def onServerFinished (env : TlsEnv) : TlsHandler TlsRc := do
  let s ← session
  refuse (s.st ≠ .waitFin) .proto
  refuse ((¬ s.sawCertificate ∧ ¬ s.certCompressed) ∨ ¬ s.sawCertVerify ∨ s.hsLen ≠ hashLen s.hash ∨
    s.hs.length ≠ hashLen s.hash) .proto
  let expect ← orRefuse (finishedExpect13 env s) .proto
  refuse (expect ≠ s.hs) .badMac
  sendClientFlight env

end Qanat

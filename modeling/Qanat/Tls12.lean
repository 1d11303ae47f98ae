import Qanat.Tls13

namespace Qanat

open TlsHandler

def verifyLen : Nat := 12

/-- `check_sigalg`. -/
def checkSigalg (s : TlsSession) (alg : Nat) : Bool :=
  match capabilitySigalg alg, capabilitySuite s.suite 0x0303 with
  | some key, some suite => alg ∈ s.sigalgs ∧ key = suite.certKey
  | _, _ => false

/-- `on_server_kx`. -/
def onServerKx : TlsHandler Unit := do
  let s ← session
  let m := s.hs
  refuse (s.hsLen ≠ m.length ∨ m.length < 4) .proto
  refuse (byteAt m 0 ≠ 3) .unsupported
  let group := rd16 (m.drop 1)
  refuse (group ≠ groupX25519 ∧ group ≠ groupP256) .unsupported
  let klen := byteAt m 3
  refuse (m.length < 4 + klen ∨ (group = groupX25519 ∧ klen ≠ 32) ∨
    (group = groupP256 ∧ (klen ≠ 65 ∨ byteAt m 4 ≠ 4))) .proto
  let sig := m.drop (4 + klen)
  refuse (sig.length < 2) .proto
  refuse (¬ checkSigalg s (rd16 sig)) .proto
  refuse (sig.length < 4) .proto
  refuse (rd16 (sig.drop 2) = 0 ∨ sig.length - 4 < rd16 (sig.drop 2)) .proto
  refuse (sig.length ≠ 4 + rd16 (sig.drop 2)) .proto
  update fun s => { s with peerPub := (m.drop 4).take klen, peerGroup := group, havePeer := true }

/-- `master_secret`. -/
def masterSecret (env : TlsEnv) (pms : Bytes) : TlsHandler Unit := do
  let s ← session
  let m ← orRefuse (if s.ems then
      env.tls12Prf s.hash pms "extended master secret" (env.hashFinal s.transcript) 48
    else env.tls12Prf s.hash pms "master secret" (s.clientRandom ++ s.serverRandom) 48) .proto
  update fun s => { s with tls12Master := m }

/-- The keys of `key_block`, laid out as MAC-less keys and ivs, client first. -/
def TlsSession.withKeyBlock (env : TlsEnv) (s : TlsSession) (kb : Bytes) : TlsSession :=
  let klen := aeadKeyLen s.aeadId
  let ivLen := ivLenFor s.aeadId
  let wr := env.aeadInit s.aeadId (kb.take klen)
  let rd := if wr.isSome then env.aeadInit s.aeadId ((kb.drop klen).take klen) else s.rd.aead
  { s with
    wr := { s.wr with aead := wr, iv := (kb.drop (2 * klen)).take ivLen ++ s.wr.iv.drop ivLen, seq := 0 }
    rd := { s.rd with aead := rd, iv := (kb.drop (2 * klen + ivLen)).take ivLen ++ s.rd.iv.drop ivLen,
                      seq := 0 }
    wrGen := s.wrGen + 1 }

/-- `key_block`. -/
def keyBlock (env : TlsEnv) : TlsHandler Unit := do
  let s ← session
  let kb ← orRefuse (env.tls12Prf s.hash s.tls12Master "key expansion" (s.serverRandom ++ s.clientRandom)
    (2 * aeadKeyLen s.aeadId + 2 * ivLenFor s.aeadId)) .proto
  update fun s => s.withKeyBlock env kb
  let t ← session
  refuse ((env.aeadInit s.aeadId (kb.take (aeadKeyLen s.aeadId))).isNone ∨ t.rd.aead.isNone) .proto

/-- `finished_data`. -/
def finishedData (env : TlsEnv) (s : TlsSession) (label : String) (tr : TlsHash) : Option Bytes :=
  env.tls12Prf s.hash s.tls12Master label (env.hashFinal tr) verifyLen

/-- The client's share for the peer's group. -/
def clientPub (s : TlsSession) : Option Bytes :=
  if s.peerGroup = groupX25519 then some s.keys.xPk
  else if s.peerGroup = groupP256 then some s.keys.p256Pk
  else none

def premaster (env : TlsEnv) (s : TlsSession) : Option Bytes :=
  if s.peerGroup = groupX25519 then env.x25519 s.keys.xSk s.peerPub else env.p256 s.keys.p256Sk s.peerPub

/-- The client's ChangeCipherSpec and Finished of TLS 1.2. -/
def tls12SendFinished (env : TlsEnv) : TlsHandler Unit := do
  emit ccsRecord
  update fun s => { s with wr := { s.wr with on := true } }
  let s ← session
  let verify ← orRefuse (finishedData env s "client finished" s.transcript) .proto
  let fin := [20, 0, 0, UInt8.ofNat verifyLen] ++ verify
  update fun s => { s.shook fin with transcript := s.transcript.update fin }
  tls12SealOut env rtHs fin .space

/-- `on_hello_done`. -/
def onHelloDone (env : TlsEnv) : TlsHandler TlsRc := do
  let s ← session
  refuse (¬ s.havePeer) .proto
  let pub ← orRefuse (clientPub s) .unsupported
  let cke := [16, 0, 0, UInt8.ofNat (1 + pub.length), UInt8.ofNat pub.length] ++ pub
  needRoom (recHdr + cke.length + ccsRecord.length) .space
  emit (recordHeader rtHs cke.length ++ cke)
  update fun s => { s.shook cke with transcript := s.transcript.update cke }
  let pms ← orRefuse (premaster env s) .badMac
  masterSecret env pms
  keyBlock env
  tls12SendFinished env
  update fun s => { s with st := .waitCcs }
  pure .ok

/-- What the server's Finished has to carry in TLS 1.2. -/
def finishedExpect12 (env : TlsEnv) (s : TlsSession) : Option Bytes :=
  finishedData env s "server finished" s.trFin

/-- `on_server_finished` of TLS 1.2. -/
def onServerFinished12 (env : TlsEnv) : TlsHandler TlsRc := do
  let s ← session
  refuse (s.st ≠ .waitFin) .proto
  refuse (s.hsLen ≠ verifyLen ∨ s.hs.length ≠ verifyLen) .proto
  let expect ← orRefuse (finishedExpect12 env s) .proto
  refuse (expect ≠ s.hs) .badMac
  update fun s => { s with st := .ready }
  pure .done

/-- `qn_tls12_on_ccs`. -/
def TlsSession.tls12OnCcs (s : TlsSession) : TlsSession :=
  if s.st = .waitCcs then
    { s with rd := { s.rd with on := true, seq := 0, epoch := .changed }, st := .waitFin }
  else s

/-- `HS_CERT` of `qn_tls12_dispatch`. -/
def onCertificate12 (env : TlsEnv) : TlsHandler TlsRc := do
  let s ← session
  refuse (s.st ≠ .waitCert ∨ s.tls12Step ≠ .expectCert) .proto
  refuse (¬ s.certScan.isDone) .proto
  update fun s => { s.readIdentity env false with sawCertificate := true, tls12Step := .expectServerKx }
  pure .ok

/-- `HS_CERT_REQ` of `qn_tls12_dispatch`. -/
def onCertificateRequest12 : TlsHandler TlsRc := do
  let s ← session
  refuse (s.st ≠ .waitCert ∨ s.tls12Step ≠ .expectReqOrDone ∨ s.certRequested) .proto
  update fun s => { s with certRequested := true }
  throw .unsupported

/-- `HS_SERVER_KX` of `qn_tls12_dispatch`. -/
def onServerKx12 : TlsHandler TlsRc := do
  let s ← session
  refuse (s.st ≠ .waitCert ∨ s.tls12Step ≠ .expectServerKx) .proto
  onServerKx
  update fun s => { s with tls12Step := .expectReqOrDone }
  pure .ok

/-- `HS_HELLO_DONE` of `qn_tls12_dispatch`. -/
def onHelloDone12 (env : TlsEnv) : TlsHandler TlsRc := do
  let s ← session
  refuse (s.st ≠ .waitCert ∨ s.tls12Step ≠ .expectReqOrDone) .proto
  refuse (s.hsLen ≠ 0 ∨ s.hs ≠ []) .proto
  update fun s => { s with tls12Step := .flightDone }
  onHelloDone env

/-- `HS_NEW_TICKET` of `qn_tls12_dispatch`. -/
def onNewTicket12 : TlsHandler TlsRc := do
  let s ← session
  refuse (s.st ≠ .waitCcs ∨ s.hsLen ≠ s.hs.length ∨ s.hs.length < 6) .proto
  refuse (rd16 (s.hs.drop 4) + 6 ≠ s.hs.length) .proto
  pure .ok

end Qanat

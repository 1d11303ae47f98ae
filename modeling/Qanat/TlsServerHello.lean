import Qanat.TlsRecord

namespace Qanat

open TlsHandler

/-- The ServerHello random that marks a HelloRetryRequest. -/
def hrrRandom : Bytes :=
  [0xCF, 0x21, 0xAD, 0x74, 0xE5, 0x9A, 0x61, 0x11, 0xBE, 0x1D, 0x8C, 0x02, 0x1E, 0x65, 0xB8, 0x91,
   0xC2, 0xA2, 0x11, 0x16, 0x7A, 0xBB, 0x8C, 0x5E, 0x07, 0x9E, 0x09, 0xE2, 0xC8, 0xA8, 0x33, 0x9C]

def hsMessageHash : UInt8 := 254

/-- `session_hello_request`. -/
def sessionHelloRequest (s : TlsSession) (selectedGroup : Nat) : HelloReq where
  sni := s.sni
  fp := s.fp
  allowTls12 := s.allowTls12
  greaseSeed := s.helloGreaseSeed
  random := s.clientRandom
  sessionId := s.sessionId
  keyShares := [⟨groupX25519Mlkem768, s.keys.hybridShare⟩, ⟨groupX25519, s.keys.xPk⟩,
    ⟨groupP256, s.keys.p256Pk⟩]
  selectedGroup := selectedGroup
  echConfigId := s.keys.echConfigId
  echAead := s.echAead
  echEnc := s.keys.echEnc
  echPayload := s.keys.echPayload.take s.echPayloadLen
  cookie := []

/-- `send_second_client_hello`. -/
def sendSecondClientHello (env : TlsEnv) : TlsHandler TlsRc := do
  let s ← session
  let out ← hasOut
  refuse (¬ out ∨ s.hrrDone) .proto
  let digest := env.hashFinal ((hashInit s.hash).update s.ch)
  update fun s => { s with transcript := (((hashInit s.hash).update
    (hsMessageHash :: wireBytes 3 (hashLen s.hash) ++ digest)).update s.hsHdr).update s.hs }
  let info ← orRefuse (env.helloBuild { sessionHelloRequest s s.hrrGroup with cookie := s.hrrCookie }) .space
  needRoom info.wire.length .space
  refuse (tlsHsBuf < info.body.length) .space
  update fun s => { s.shook info.body with
    ch := info.body, transcript := s.transcript.update info.body, trOn := true, hrrDone := true }
  emit info.wire
  pure .ok

def firstHelloHasGroup (s : TlsSession) (group : Nat) : Bool :=
  group = groupX25519Mlkem768 ∨ group = groupX25519 ∨ (group = groupP256 ∧ s.fp = .firefox)

/-- `key_exchange_secret`. -/
def keyExchangeSecret (env : TlsEnv) (s : TlsSession) (group : Nat) (peer : Bytes) : Except TlsRc Bytes :=
  if group = groupX25519Mlkem768 then
    if peer.length ≠ 1120 then .error .proto
    else
      match env.mlkem768Decap (peer.take 1088) s.keys.mlkemSk, env.x25519 s.keys.hybridXSk (peer.drop 1088) with
      | some a, some b => .ok (a ++ b)
      | _, _ => .error .badMac
  else if group = groupX25519 then
    if peer.length ≠ 32 then .error .proto
    else match env.x25519 s.keys.xSk peer with
      | some a => .ok a
      | none => .error .badMac
  else if group = groupP256 then
    if peer.length ≠ 65 then .error .proto
    else match env.p256 s.keys.p256Sk peer with
      | some a => .ok a
      | none => .error .badMac
  else .error .unsupported

/-- What the extensions of a ServerHello have said so far. -/
structure HelloExts where
  selVer : Nat := 0x0303
  haveVersion : Bool := false
  haveKeyShare : Bool := false
  haveCookie : Bool := false
  haveHrrGroup : Bool := false
  haveEms : Bool := false
  haveAlpn : Bool := false
  peerGroup : Nat := 0
  peerKs : Bytes := []

/-- One extension of a ServerHello. -/
def serverHelloExt (isHrr : Bool) (a : HelloExts) (et : Nat) (ev : Bytes) : TlsHandler HelloExts :=
  if et = 0x002B then do
    refuse (ev.length ≠ 2) .proto
    pure { a with selVer := rd16 ev, haveVersion := true }
  else if et = 0x0017 then do
    refuse (ev.length ≠ 0) .proto
    update fun s => { s with ems := true }
    pure { a with haveEms := true }
  else if et = 0x0010 then do
    parseSelectedAlpn ev
    pure { a with haveAlpn := true }
  else if et = 0x0033 then
    if isHrr then do
      let s ← session
      refuse (ev.length ≠ 2) .proto
      refuse (¬ capabilityGroup (rd16 ev)) .unsupported
      refuse (firstHelloHasGroup s (rd16 ev)) .proto
      update fun s => { s with hrrGroup := rd16 ev }
      pure { a with haveHrrGroup := true }
    else do
      refuse (ev.length < 4) .proto
      refuse (¬ capabilityGroup (rd16 ev)) .unsupported
      refuse (rd16 (ev.drop 2) = 0 ∨ rd16 (ev.drop 2) ≠ ev.length - 4) .proto
      pure { a with haveKeyShare := true, peerGroup := rd16 ev, peerKs := ev.drop 4 }
  else if et = 0x002C then do
    refuse (¬ isHrr ∨ ev.length < 3) .proto
    refuse (rd16 ev = 0 ∨ rd16 ev ≠ ev.length - 2 ∨ 512 < rd16 ev) .proto
    update fun s => { s with hrrCookie := ev.drop 2 }
    pure { a with haveCookie := true }
  else if isHrr then throw .proto
  else pure a

/-- The extension block at the end of a message: a length and exactly that many bytes. -/
def lastBlock (r : Br) : TlsHandler Bytes := do
  let n := r.u16
  refuse (n.2.err ∨ n.1 ≠ n.2.left) .proto
  pure n.2.rest

/-- TLS 1.2 may leave the extension block out. -/
def optionalBlock (r : Br) : TlsHandler Bytes :=
  if r.left = 0 then pure [] else lastBlock r

/-- The fixed part of a ServerHello as read: whether it is a retry, its session id, and the rest. -/
structure ServerHead where
  isHrr : Bool
  sid : Bytes
  rest : Br

/-- `on_server_hello` up to the session id. -/
def readServerHead : TlsHandler ServerHead := do
  let s ← session
  refuse (s.st ≠ .waitSh ∨ s.hsLen ≠ s.hs.length) .proto
  let random := (Br.init s.hs).u16.2.take 32
  let rnd ← orRefuse random.1 .proto
  update fun s => { s with serverRandom := rnd }
  refuse (rnd = hrrRandom ∧ s.hrrDone) .proto
  refuse (32 < random.2.u8.1) .proto
  let sidAt := random.2.u8.2.take random.2.u8.1
  let sid ← orRefuse sidAt.1 .proto
  pure ⟨rnd = hrrRandom, sid, sidAt.2⟩

/-- The suite and the compression method, with the check of the legacy version. -/
def readServerSuite (r : Br) : TlsHandler Br := do
  update fun s => { s with suite := r.u16.1 }
  let s ← session
  refuse (r.u16.2.u8.2.err ∨ (Br.init s.hs).u16.1 ≠ 0x0303 ∨ r.u16.2.u8.1 ≠ 0) .proto
  pure r.u16.2.u8.2

/-- A ServerHello as read: whether it is a retry, its session id and what its extensions say. -/
structure ServerHello where
  isHrr : Bool
  sid : Bytes
  exts : HelloExts

/-- `on_server_hello` up to the end of the extensions. -/
def readServerHello : TlsHandler ServerHello := do
  let h ← readServerHead
  let r ← readServerSuite h.rest
  let block ← optionalBlock r
  let exts ← extBlock (serverHelloExt h.isHrr) block {}
  pure ⟨h.isHrr, h.sid, exts⟩

/-- Takes hash and AEAD from the suite's capability, or fails. -/
def adoptSuite (version : Nat) (rc : TlsRc) : TlsHandler Unit := do
  let s ← session
  let c ← orRefuse (capabilitySuite s.suite version) rc
  update fun s => { s with hash := c.hash, aeadId := c.aead }

/-- A HelloRetryRequest. -/
def onHelloRetry (env : TlsEnv) (sh : ServerHello) : TlsHandler TlsRc := do
  let s ← session
  refuse (¬ sh.exts.haveVersion ∨ sh.exts.selVer ≠ 0x0304 ∨ sh.sid ≠ s.sessionId ∨ sh.exts.haveEms ∨
    sh.exts.haveAlpn ∨ sh.exts.haveKeyShare ∨ (¬ sh.exts.haveCookie ∧ ¬ sh.exts.haveHrrGroup)) .proto
  adoptSuite 0x0304 .proto
  update fun s => { s with version := 0x0304, hrrSuite := s.suite }
  sendSecondClientHello env

/-- A ServerHello without supported_versions. -/
def selectTls12 (sh : ServerHello) : TlsHandler Nat := do
  let s ← session
  refuse (¬ s.allowTls12) .unsupported
  adoptSuite 0x0303 .unsupported
  refuse sh.exts.haveKeyShare .proto
  pure 0x0303

/-- A ServerHello that selects TLS 1.3. -/
def selectTls13 (sh : ServerHello) : TlsHandler Nat := do
  let s ← session
  refuse (s.hrrDone ∧ s.suite ≠ s.hrrSuite) .proto
  refuse (sh.sid ≠ s.sessionId) .proto
  refuse (sh.exts.haveEms ∨ sh.exts.haveAlpn) .proto
  adoptSuite 0x0304 .unsupported
  refuse (¬ sh.exts.haveKeyShare) .unsupported
  refuse ((s.hrrDone ∧ s.hrrGroup ≠ 0 ∧ sh.exts.peerGroup ≠ s.hrrGroup) ∨
    (¬ s.hrrDone ∧ ¬ firstHelloHasGroup s sh.exts.peerGroup)) .proto
  pure 0x0304

/-- The version a ServerHello settles on, with its suite checked. -/
def selectVersion (sh : ServerHello) : TlsHandler Nat :=
  if ¬ sh.exts.haveVersion then selectTls12 sh
  else if sh.exts.selVer = 0x0304 then selectTls13 sh
  else throw .unsupported

/-- The transcript starts once the hash is known, unless a retry has started it. -/
def TlsSession.startTranscript (s : TlsSession) : TlsSession :=
  if s.hrrDone then s
  else { s with transcript := (((hashInit s.hash).update s.ch).update s.hsHdr).update s.hs, trOn := true }

/-- `derive_keys` for the read side, failing with it. -/
def setRead (env : TlsEnv) (secret : Bytes) (epoch : Epoch) : TlsHandler Unit := do
  update fun s => { s with rd := deriveKeys env s s.rd secret epoch }
  let s ← session
  refuse (¬ s.rd.on) .proto

def setWrite (env : TlsEnv) (secret : Bytes) (epoch : Epoch) : TlsHandler Unit := do
  update fun s =>
    let wr := deriveKeys env s s.wr secret epoch
    { s with wr := wr, wrGen := if wr.on then s.wrGen + 1 else s.wrGen }
  let s ← session
  refuse (¬ s.wr.on) .proto

/-- The key schedule of TLS 1.3 up to the handshake keys. -/
def handshakeKeys (env : TlsEnv) (sh : ServerHello) : TlsHandler TlsRc := do
  let s ← session
  let shared ← lift (keyExchangeSecret env s sh.exts.peerGroup sh.exts.peerKs)
  update fun s => { s with peerGroup := sh.exts.peerGroup }
  let early := env.hkdfExtract s.hash [] (List.replicate (hashLen s.hash) 0)
  let derived ← orRefuse (env.deriveSecret s.hash early "derived" (hashInit s.hash)) .proto
  let hsSecret := env.hkdfExtract s.hash derived shared
  update fun s => { s with hsSecret := hsSecret }
  let c ← orRefuse (env.deriveSecret s.hash hsSecret "c hs traffic" s.transcript) .proto
  update fun s => { s with cTraffic := c }
  let t ← orRefuse (env.deriveSecret s.hash hsSecret "s hs traffic" s.transcript) .proto
  update fun s => { s with sTraffic := t }
  setRead env t .handshake
  setWrite env c .handshake
  update fun s => { s with st := .waitEe }
  pure .ok

/-- `qn_tls12_setup`. -/
def tls12Setup : TlsHandler TlsRc := do
  update fun s => { s with st := .waitCert, tls12Step := .expectCert }
  pure .ok

/-- `on_server_hello`. -/
def onServerHello (env : TlsEnv) : TlsHandler TlsRc := do
  let sh ← readServerHello
  if sh.isHrr then onHelloRetry env sh
  else do
    let version ← selectVersion sh
    update fun s => TlsSession.startTranscript { s with version := version }
    if version = 0x0303 then tls12Setup else handshakeKeys env sh

end Qanat

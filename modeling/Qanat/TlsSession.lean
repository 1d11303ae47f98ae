import Qanat.CertScan

namespace Qanat

/-- A handshake message that reached its handler, with what the session had at that moment. -/
structure Message where
  type : Nat
  len : Nat
  body : Bytes
  version : Nat
  /-- The bytes of the message, header included, each with the read key its record was opened under. -/
  tags : List (UInt8 × Epoch)
  /-- The bytes of the record that follow the message. -/
  left : Bytes
  /-- Whether a CompressedCertificate had been taken before. -/
  compressed : Bool
  /-- The transcript before the message, and what a Finished had to carry there. -/
  transcript : TlsHash
  expected : Option Bytes
  rc : TlsRc

/-- What a session has seen, in order. -/
inductive Entry
  | message (m : Message)
  | ccs (version : Nat) (inside : Bool)
  | alert
  | data (p : Bytes)

/-- `qn_tls_session`. The last five fields are the history of the session and no code reads them. -/
structure TlsSession where
  cfg : TlsConfig
  version : Nat
  suite : Nat
  hash : HashId
  aeadId : AeadId
  keys : HelloKeys
  echPayloadLen : Nat
  echAead : Nat
  clientRandom : Bytes
  serverRandom : Bytes
  sessionId : Bytes
  ch : Bytes
  trOn : Bool
  transcript : TlsHash
  trFin : TlsHash
  hsSecret : Bytes
  master : Bytes
  cTraffic : Bytes
  sTraffic : Bytes
  tls12Master : Bytes
  peerPub : Bytes
  peerGroup : Nat
  havePeer : Bool
  ems : Bool
  rd : TlsKeys
  wr : TlsKeys
  /-- The bytes of the record being received. -/
  recBuf : Bytes
  /-- The retained head of the message being received. -/
  hs : Bytes
  /-- The header bytes of the message being received. -/
  hsHdr : Bytes
  hsType : Nat
  hsLen : Nat
  hsGot : Nat
  hsActive : Bool
  certScan : CertScan
  cert13Scan : Cert13Scan
  sigalgs : List Nat
  st : TlsSt
  tls12Step : Tls12Step
  alertDesc : Nat
  sawCcs : Bool
  hrrDone : Bool
  helloGreaseSeed : UInt64
  hrrCookie : Bytes
  hrrSuite : Nat
  hrrGroup : Nat
  certRequested : Bool
  sawCertificate : Bool
  sawCertVerify : Bool
  certCompressionAlg : Nat
  certCompressed : Bool
  echRetryReceived : Bool
  alpsNegotiated : Bool
  alps : Bytes
  alpn : Bytes
  peerCn : Bytes
  peerIssuer : Bytes
  /-- The bytes of the message being received. -/
  tags : List (UInt8 × Epoch)
  /-- The handshake messages sent and received. -/
  flights : List Bytes
  /-- How many write keys there have been. -/
  wrGen : Nat
  /-- The nonces of the records sealed, each with its write key. -/
  seals : List (Nat × Bytes)
  log : List Entry

/-- `qn_tls_init`. -/
def tlsInit (cfg : TlsConfig) : TlsSession where
  cfg := cfg
  version := 0
  suite := 0
  hash := .sha256
  aeadId := .aes128gcm
  keys := .zero
  echPayloadLen := 0
  echAead := 0
  clientRandom := []
  serverRandom := []
  sessionId := []
  ch := []
  trOn := false
  transcript := hashInit .sha256
  trFin := hashInit .sha256
  hsSecret := []
  master := []
  cTraffic := []
  sTraffic := []
  tls12Master := []
  peerPub := []
  peerGroup := 0
  havePeer := false
  ems := false
  rd := .off
  wr := .off
  recBuf := []
  hs := []
  hsHdr := []
  hsType := 0
  hsLen := 0
  hsGot := 0
  hsActive := false
  certScan := ⟨0, 0, 0, 0, 0, [], .listLen⟩
  cert13Scan := ⟨0, 0, 0, 0, 0, 0, [], .contextLen⟩
  sigalgs := []
  st := .new
  tls12Step := .expectCert
  alertDesc := 0
  sawCcs := false
  hrrDone := false
  helloGreaseSeed := 0
  hrrCookie := []
  hrrSuite := 0
  hrrGroup := 0
  certRequested := false
  sawCertificate := false
  sawCertVerify := false
  certCompressionAlg := 0
  certCompressed := false
  echRetryReceived := false
  alpsNegotiated := false
  alps := []
  alpn := []
  peerCn := []
  peerIssuer := []
  tags := []
  flights := []
  wrGen := 0
  seals := []
  log := []

def TlsSession.ready (s : TlsSession) : Bool :=
  s.st = .ready

def TlsSession.certStatus (s : TlsSession) : TlsCertState :=
  if s.sawCertificate then .parsed
  else if s.certCompressed then .opaqueChain
  else .none

def TlsSession.fp (s : TlsSession) : TlsFp :=
  match s.cfg.profile with
  | some p => p.resolved
  | none => s.cfg.fp

def TlsSession.allowTls12 (s : TlsSession) : Bool :=
  match s.cfg.profile with
  | some p => p.allowTls12
  | none => s.cfg.allowTls12

def TlsSession.certStrict (s : TlsSession) : Bool :=
  match s.cfg.profile with
  | some p => p.certStrict
  | none => s.cfg.certStrict

def TlsSession.sni (s : TlsSession) : Option Bytes :=
  match s.cfg.profile with
  | some p => some p.sni
  | none => s.cfg.sni

/-- The read key in force, which a record received now is opened under. -/
def TlsSession.epoch (s : TlsSession) : Epoch :=
  if s.rd.on then s.rd.epoch else .plain

/-- `tr_update`. -/
def TlsSession.trUpdate (s : TlsSession) (p : Bytes) : TlsSession :=
  if s.trOn then { s with transcript := s.transcript.update p } else s

/-- A handshake message has gone over the wire. -/
@[simp] def TlsSession.shook (s : TlsSession) (p : Bytes) : TlsSession :=
  { s with flights := s.flights ++ [p] }

/-- Adds to the history. -/
def TlsSession.note (s : TlsSession) (e : Entry) : TlsSession :=
  { s with log := s.log ++ [e] }

def recHdr : Nat := 5

def recMaxPt : Nat := 16384

def tlsRecMax : Nat := 16645

def tlsHsBuf : Nat := 4096

def tlsCertMax : Nat := 256 * 1024

end Qanat

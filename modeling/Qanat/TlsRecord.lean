import Qanat.TlsCapability

namespace Qanat

open TlsHandler

def rtCcs : UInt8 := 20

def rtAlert : UInt8 := 21

def rtHs : UInt8 := 22

def rtApp : UInt8 := 23

/-- The header of a record with a body of `n` bytes. -/
def recordHeader (type : UInt8) (n : Nat) : Bytes :=
  [type, 3, 3] ++ wireBytes 2 n

/-- `nonce_for`: the sequence number, most significant byte first, over the last eight bytes of the iv. -/
def nonceFor (k : TlsKeys) : Bytes :=
  List.zipWith (· ^^^ ·) k.iv (List.replicate 4 0 ++ wireBytes 8 k.seq)

/-- `derive_keys`. -/
def deriveKeys (env : TlsEnv) (s : TlsSession) (k : TlsKeys) (secret : Bytes) (epoch : Epoch) : TlsKeys :=
  match env.hkdfExpandLabel s.hash secret "key" [] (aeadKeyLen s.aeadId) with
  | none => { k with seq := 0, on := false }
  | some key =>
    match env.hkdfExpandLabel s.hash secret "iv" [] aeadIvLen with
    | none => { k with seq := 0, on := false }
    | some iv =>
      match env.aeadInit s.aeadId key with
      | none => { k with aead := none, iv := iv, seq := 0, on := false }
      | some aead => ⟨some aead, iv, 0, true, epoch⟩

/-- The size on the wire of a TLS 1.3 record around `n` bytes. -/
def sealLen (n : Nat) : Nat :=
  recHdr + (n + 1 + aeadTagLen)

/-- The session after a record was sealed under a nonce. -/
def TlsSession.sealed (s : TlsSession) (nonce : Bytes) : TlsSession :=
  { s with wr := { s.wr with seq := s.wr.seq + 1 }, seals := s.seals ++ [(s.wrGen, nonce)] }

/-- `seal_record`, but for its test of the capacity and the step of the sequence number. -/
def sealRecord (env : TlsEnv) (s : TlsSession) (inner : UInt8) (data : Bytes) : Option Bytes :=
  let ct := data.length + 1 + aeadTagLen
  if ¬ s.wr.on ∨ s.wr.seq = seqMax ∨ 0xFFFF < ct then none
  else do
    let aead ← s.wr.aead
    let body ← env.aeadSeal aead (nonceFor s.wr) (recordHeader rtApp ct) (data ++ [inner])
    some (recordHeader rtApp ct ++ body)

/-- Seals into `io->out`; `rc` is what the caller answers when that fails. -/
def sealOut (env : TlsEnv) (inner : UInt8) (data : Bytes) (rc : TlsRc) : TlsHandler Unit := do
  needRoom (sealLen data.length) rc
  let s ← session
  let p ← orRefuse (sealRecord env s inner data) rc
  update fun s => s.sealed (nonceFor s.wr)
  emit p

/-- The session after a record was opened. -/
def TlsSession.opened (s : TlsSession) : TlsSession :=
  { s with rd := { s.rd with seq := s.rd.seq + 1 } }

/-- The plaintext of a TLS 1.3 record: its content type is the last byte that is not zero. -/
def unpad (pt : Bytes) : Option (UInt8 × Bytes) :=
  match pt.reverse.dropWhile (· = 0) with
  | [] => none
  | inner :: data => some (inner, data.reverse)

/-- `open_record`: the inner content type and the plaintext without its padding. -/
def openRecord (env : TlsEnv) : TlsHandler (UInt8 × Bytes) := do
  let s ← session
  let body := s.recBuf.drop recHdr
  refuse (¬ s.rd.on ∨ s.rd.seq = seqMax ∨ body.length < aeadTagLen + 1) .proto
  let pt ← orRefuse (s.rd.aead.bind fun a => env.aeadOpen a (nonceFor s.rd) (s.recBuf.take recHdr) body) .badMac
  update TlsSession.opened
  orRefuse (unpad pt) .proto

def ivLenFor (a : AeadId) : Nat :=
  if a = .chacha20poly1305 then aeadIvLen else 4

def explicitNonce (a : AeadId) : Bool :=
  a ≠ .chacha20poly1305

def explicitLen (a : AeadId) : Nat :=
  if explicitNonce a then 8 else 0

/-- `aad_for` of TLS 1.2. -/
def aadFor (seq : Nat) (type : UInt8) (plen : Nat) : Bytes :=
  wireBytes 8 seq ++ [type, 3, 3] ++ wireBytes 2 plen

/-- `nonce_for` of TLS 1.2. -/
def nonceFor12 (s : TlsSession) (k : TlsKeys) (explicit : Bytes) : Bytes :=
  if explicitNonce s.aeadId then k.iv.take 4 ++ explicit.take 8 else nonceFor k

def seal12Len (a : AeadId) (n : Nat) : Nat :=
  recHdr + (explicitLen a + n + aeadTagLen)

/-- `qn_tls12_seal`, but for its test of the capacity and the step of the sequence number. -/
def tls12Seal (env : TlsEnv) (s : TlsSession) (type : UInt8) (data : Bytes) : Option Bytes :=
  let body := explicitLen s.aeadId + data.length + aeadTagLen
  if ¬ s.wr.on ∨ 0xFFFF < body ∨ s.wr.seq = seqMax then none
  else do
    let aad := aadFor s.wr.seq type data.length
    let aead ← s.wr.aead
    let ct ← env.aeadSeal aead (nonceFor12 s s.wr aad) aad data
    some (recordHeader type body ++ aad.take (explicitLen s.aeadId) ++ ct)

def tls12SealOut (env : TlsEnv) (type : UInt8) (data : Bytes) (rc : TlsRc) : TlsHandler Unit := do
  let s ← session
  needRoom (seal12Len s.aeadId data.length) rc
  let p ← orRefuse (tls12Seal env s type data) rc
  update fun s => s.sealed (nonceFor12 s s.wr (aadFor s.wr.seq type data.length))
  emit p

/-- `qn_tls12_open`. -/
def tls12Open (env : TlsEnv) (type : UInt8) : TlsHandler Bytes := do
  let s ← session
  let body := s.recBuf.drop recHdr
  let ct := body.drop (explicitLen s.aeadId)
  refuse (body.length < explicitLen s.aeadId + aeadTagLen) .proto
  refuse (s.rd.seq = seqMax) .proto
  let pt ← orRefuse (s.rd.aead.bind fun a =>
    env.aeadOpen a (nonceFor12 s s.rd body) (aadFor s.rd.seq type (ct.length - aeadTagLen)) ct) .badMac
  update TlsSession.opened
  pure pt

end Qanat

import Mathlib.Data.List.Basic
import Mathlib.Algebra.Order.Ring.Nat

namespace Qanat

abbrev Bytes := List UInt8

def byteAt (p : Bytes) (i : Nat) : Nat :=
  (p.getD i 0).toNat

def rd16 (p : Bytes) : Nat :=
  byteAt p 0 * 256 + byteAt p 1

def rd24 (p : Bytes) : Nat :=
  byteAt p 0 * 65536 + byteAt p 1 * 256 + byteAt p 2

/-- The low `n` bytes of `v`, the highest first. -/
def wireBytes : Nat → Nat → Bytes
  | 0, _ => []
  | n + 1, v => wireBytes n (v / 256) ++ [UInt8.ofNat v]

/-- A C string kept in a buffer: what stands before the first zero byte. -/
def cString (p : Bytes) : Bytes :=
  p.takeWhile (· ≠ 0)

/-- `qn_tls_rc`. -/
inductive TlsRc
  | ok
  | more
  | done
  | alert
  | proto
  | badMac
  | unsupported
  | space
  deriving DecidableEq, Repr

def TlsRc.isError : TlsRc → Bool
  | .ok | .more | .done => false
  | _ => true

@[simp] theorem isError_ok : TlsRc.isError .ok = false := rfl

@[simp] theorem isError_more : TlsRc.isError .more = false := rfl

@[simp] theorem isError_done : TlsRc.isError .done = false := rfl

@[simp] theorem isError_alert : TlsRc.isError .alert = true := rfl

@[simp] theorem isError_proto : TlsRc.isError .proto = true := rfl

@[simp] theorem isError_badMac : TlsRc.isError .badMac = true := rfl

@[simp] theorem isError_unsupported : TlsRc.isError .unsupported = true := rfl

@[simp] theorem isError_space : TlsRc.isError .space = true := rfl

/-- `qn_tls_st`. -/
inductive TlsSt
  | new
  | waitSh
  | waitEe
  | waitCert
  | waitCcs
  | waitFin
  | ready
  | closed
  deriving DecidableEq, Repr

inductive Tls12Step
  | expectCert
  | expectServerKx
  | expectReqOrDone
  | flightDone
  deriving DecidableEq, Repr

inductive TlsFp
  | chrome
  | firefox
  | safari
  | random
  deriving DecidableEq, Repr

inductive TlsCertState
  | none
  | parsed
  | opaqueChain
  deriving DecidableEq, Repr

inductive HashId
  | sha256
  | sha384
  deriving DecidableEq, Repr

def hashLen : HashId → Nat
  | .sha256 => 32
  | .sha384 => 48

inductive AeadId
  | aes128gcm
  | aes256gcm
  | chacha20poly1305
  deriving DecidableEq, Repr

def aeadKeyLen : AeadId → Nat
  | .aes128gcm => 16
  | .aes256gcm => 32
  | .chacha20poly1305 => 32

def aeadIvLen : Nat := 12

def aeadTagLen : Nat := 16

/-- A running hash is the algorithm and every byte absorbed so far. -/
structure TlsHash where
  id : HashId
  data : Bytes
  deriving DecidableEq

def hashInit (id : HashId) : TlsHash :=
  ⟨id, []⟩

def TlsHash.update (h : TlsHash) (p : Bytes) : TlsHash :=
  { h with data := h.data ++ p }

structure Aead where
  id : AeadId
  key : Bytes
  deriving DecidableEq

/-- Which secret a read key comes from; `plain` stands for no key at all. -/
inductive Epoch
  | plain
  | handshake
  | application
  | changed
  deriving DecidableEq, Repr

/-- `qn_tls_keys`; an AEAD that was never set up, or failed to, is `none`. -/
structure TlsKeys where
  aead : Option Aead
  iv : Bytes
  seq : Nat
  on : Bool
  epoch : Epoch
  deriving DecidableEq

def TlsKeys.off : TlsKeys :=
  ⟨none, List.replicate aeadIvLen 0, 0, false, .plain⟩

def seqMax : Nat := 2 ^ 64 - 1

/-- What the TLS code reads of a `qn_profile_instance`; `supported` is the test of its version and its
support level in `qn_tls_start`. -/
structure TlsProfile where
  supported : Bool
  resolved : TlsFp
  greaseSeed : UInt64
  sni : Bytes
  allowTls12 : Bool
  certStrict : Bool

structure TlsConfig where
  profile : Option TlsProfile
  sni : Option Bytes
  fp : TlsFp
  allowTls12 : Bool
  certStrict : Bool

/-- The keys drawn by `session_hello_keys`. -/
structure HelloKeys where
  xSk : Bytes
  xPk : Bytes
  hybridXSk : Bytes
  hybridShare : Bytes
  mlkemSk : Bytes
  p256Sk : Bytes
  p256Pk : Bytes
  echEnc : Bytes
  echPayload : Bytes
  echConfigId : Nat

def HelloKeys.zero : HelloKeys :=
  ⟨[], [], [], [], [], [], [], [], [], 0⟩

structure HelloKeyShare where
  group : Nat
  data : Bytes

/-- `qn_hello_req`. -/
structure HelloReq where
  sni : Option Bytes
  fp : TlsFp
  allowTls12 : Bool
  greaseSeed : UInt64
  random : Bytes
  sessionId : Bytes
  keyShares : List HelloKeyShare
  selectedGroup : Nat
  echConfigId : Nat
  echAead : Nat
  echEnc : Bytes
  echPayload : Bytes
  cookie : Bytes

/-- A built ClientHello: the record, the handshake message inside it, and the signature algorithms it
offers. -/
structure HelloInfo where
  wire : Bytes
  body : Bytes
  sigalgs : List Nat

/-- The builder of ClientHellos and the cryptography, as deterministic functions. -/
structure TlsEnv where
  helloBuild : HelloReq → Option HelloInfo
  digest : HashId → Bytes → Bytes
  hmacOnce : HashId → Bytes → Bytes → Bytes
  hkdfExtract : HashId → Bytes → Bytes → Bytes
  hkdfExpandLabel : HashId → Bytes → String → Bytes → Nat → Option Bytes
  tls12Prf : HashId → Bytes → String → Bytes → Nat → Option Bytes
  aeadAccepts : AeadId → Bytes → Bool
  aeadSeal : Aead → Bytes → Bytes → Bytes → Option Bytes
  aeadOpen : Aead → Bytes → Bytes → Bytes → Option Bytes
  x25519 : Bytes → Bytes → Option Bytes
  p256 : Bytes → Bytes → Option Bytes
  mlkem768Decap : Bytes → Bytes → Option Bytes
  certIdentity : Bytes → Bytes × Bytes

def TlsEnv.hashFinal (env : TlsEnv) (h : TlsHash) : Bytes :=
  env.digest h.id h.data

def TlsEnv.deriveSecret (env : TlsEnv) (id : HashId) (secret : Bytes) (label : String)
    (transcript : TlsHash) : Option Bytes :=
  env.hkdfExpandLabel id secret label (env.hashFinal transcript) (hashLen id)

def TlsEnv.aeadInit (env : TlsEnv) (id : AeadId) (key : Bytes) : Option Aead :=
  if env.aeadAccepts id key then some ⟨id, key⟩ else none

end Qanat

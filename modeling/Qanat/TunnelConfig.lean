import Qanat.General.Json
import Qanat.TunnelParse

namespace Qanat

/-- `qn_tunnel_config_mode`. -/
inductive TunnelConfigMode
  | live
  | redacted
  | template
  deriving DecidableEq

/-- `qn_tunnel_config_code` without `OK`. -/
inductive TunnelConfigCode
  | argument
  | candidate
  | secret
  | overflow
  deriving DecidableEq

structure TunnelConfigRequest where
  link : TunnelLink
  candidate : Bytes
  socksPort : UInt16
  mode : TunnelConfigMode

def tunnelConfigMax : Nat := 32768

def TunnelProtocol.str : TunnelProtocol → Bytes
  | .vless => ascii "vless".toList
  | .trojan => ascii "trojan".toList
  | .vmess => ascii "vmess".toList

def TunnelNetwork.str : TunnelNetwork → Bytes
  | .ws => ascii "ws".toList
  | .grpc => ascii "grpc".toList
  | .xhttp => ascii "xhttp".toList
  | .tcp => ascii "tcp".toList

def TunnelSecurity.str : TunnelSecurity → Bytes
  | .none => ascii "none".toList
  | .tls => ascii "tls".toList

section Buffer

/-- `json_buffer`; what is used is the length of the data. -/
structure JsonBuffer where
  data : Bytes
  capacity : Nat
  failed : Bool

/-- `append_raw`, and `append_format` on the text it formats. -/
def appendRaw (text : Bytes) (b : JsonBuffer) : JsonBuffer :=
  if b.failed then b
  else if b.capacity - b.data.length ≤ text.length then { b with failed := true }
  else { b with data := b.data ++ text }

def lit (s : String) : JsonBuffer → JsonBuffer :=
  appendRaw (ascii s.toList)

/-- A digit of `%04x`. -/
def hexLower (v : Nat) : UInt8 :=
  Json.hexDigit v

/-- What `append_string` writes for a character. -/
def encodedChar (c : UInt8) : Bytes :=
  if c = chQuote ∨ c = chBackslash then [chBackslash, c]
  else if c < 0x20 ∨ c = 0x7F then [chBackslash, 0x75, 0x30, 0x30, hexLower (c.toNat / 16), hexLower (c.toNat % 16)]
  else [c]

def appendChars (value : Bytes) (b : JsonBuffer) : JsonBuffer :=
  value.foldl (fun b c => appendRaw (encodedChar c) b) b

/-- `append_string`. -/
def appendString (value : Bytes) (b : JsonBuffer) : JsonBuffer :=
  appendRaw [chQuote] (appendChars value (appendRaw [chQuote] b))

end Buffer

section Valid

variable (inet : InetText)

/-- `candidate_valid`, with what it stores in `is_ip`. -/
def candidateValid (candidate : Bytes) : Option Bool :=
  if candidate = [] ∨ tunnelHostMax < candidate.length then none
  else if (inet.pton4 candidate).isSome ∨ (inet.pton6 candidate).isSome then some true
  else if validHostname candidate then some false
  else none

/-- `mode_valid`. -/
def modeValid (link : TunnelLink) : Bool :=
  if link.network = .xhttp then isXhttpMode link.mode else link.mode == ascii "auto".toList

/-- `transport_fields_valid`. -/
def transportFieldsValid (link : TunnelLink) : Bool :=
  match link.network with
  | .ws => link.path.head? == some chSlash && link.serviceName == [] && !link.grpcMulti
  | .grpc => link.path == []
  | .xhttp => link.path.head? == some chSlash && link.serviceName == [] && !link.grpcMulti
  | .tcp => link.path == [] && link.serviceName == [] && !link.grpcMulti

/-- `link_valid`; the types say the rest. -/
def linkValid (link : TunnelLink) (mode : TunnelConfigMode) : Bool :=
  link.port != 0 && link.address != [] &&
    (link.security != .tls || (link.sni != [] && (mode == .template || validHostname link.sni))) &&
    transportFieldsValid link && modeValid link &&
    (link.flow == [] || (link.protocol == .vless && link.network == .tcp && link.security == .tls))

end Valid

section Build

variable (inet : InetText)

/-- A part of `append_alpn` is written unless it is empty. -/
def appendPart (part : Bytes) (first : Bool) (b : JsonBuffer) : JsonBuffer :=
  appendString part (if first then b else lit "," b)

/-- The loop of `append_alpn`. -/
def appendParts (part : Bytes) (first : Bool) : Bytes → JsonBuffer → JsonBuffer
  | [], b => if part = [] then b else appendPart part first b
  | c :: t, b =>
    if c = chComma then
      if part = [] then appendParts [] first t b else appendParts [] false t (appendPart part first b)
    else if part.length < tunnelAlpnSize - 1 then appendParts (part ++ [c]) first t b
    else { b with failed := true }

/-- `append_alpn`. -/
def appendAlpn (alpn : Bytes) (b : JsonBuffer) : JsonBuffer :=
  lit "]" (appendParts [] true alpn (lit "[" b))

/-- `verify_names` into `capacity` bytes. -/
def verifyNames (link : TunnelLink) (capacity : Nat) : Option Bytes :=
  if link.host ≠ [] ∧ capacity ≤ link.host.length then none
  else
    let more := (if link.host = [] then [] else [chComma]) ++ link.sni
    let names :=
      if link.sni ≠ [] ∧ link.host ≠ link.sni then
        if capacity - link.host.length ≤ more.length then none else some (link.host ++ more)
      else some link.host
    names.filter (· ≠ [])

/-- `append_user`. -/
def appendUser (link : TunnelLink) (candidate secret : Bytes) (b : JsonBuffer) : JsonBuffer :=
  if link.protocol = .trojan then
    let b := lit "\x7b\"servers\":[\x7b\"address\":" b
    let b := appendString candidate b
    let b := appendRaw (ascii ",\"port\":".toList ++ Decimal.render link.port ++ ascii ",\"password\":".toList) b
    let b := appendString secret b
    lit "\x7d]\x7d" b
  else
    let b := lit "\x7b\"vnext\":[\x7b\"address\":" b
    let b := appendString candidate b
    let b := appendRaw (ascii ",\"port\":".toList ++ Decimal.render link.port ++
      ascii ",\"users\":[\x7b\"id\":".toList) b
    let b := appendString secret b
    let b := if link.protocol = .vless then lit ",\"encryption\":\"none\"" b else lit ",\"security\":\"auto\"" b
    let b := if link.flow ≠ [] then appendString link.flow (lit ",\"flow\":" b) else b
    lit "\x7d]\x7d]\x7d" b

/-- `append_tls`. -/
def appendTls (link : TunnelLink) (isIp : Bool) (b : JsonBuffer) : JsonBuffer :=
  if link.security ≠ .tls then b
  else
    let b := lit ",\"tlsSettings\":\x7b\"serverName\":" b
    let b := appendString link.sni b
    let b := lit ",\"fingerprint\":" b
    let b := appendString link.fingerprint b
    let b := if link.alpn ≠ [] then appendAlpn link.alpn (lit ",\"alpn\":" b) else b
    if isIp ∧ (link.host ≠ [] ∨ link.sni ≠ []) then
      match verifyNames link (tunnelHostMax * 2 + 2) with
      | none => { b with failed := true }
      | some names => lit "\x7d" (appendString names (lit ",\"verifyPeerCertByName\":" b))
    else lit "\x7d" b

/-- `append_transport`. -/
def appendTransport (link : TunnelLink) (b : JsonBuffer) : JsonBuffer :=
  match link.network with
  | .ws =>
    let b := appendString link.path (lit ",\"wsSettings\":\x7b\"path\":" b)
    let b :=
      if link.host ≠ [] then
        let b := appendString link.host (lit ",\"host\":" b)
        let b := appendString link.host (lit ",\"headers\":\x7b\"Host\":" b)
        lit "\x7d" b
      else b
    lit "\x7d" b
  | .grpc =>
    let b := appendString link.serviceName (lit ",\"grpcSettings\":\x7b\"serviceName\":" b)
    let b := appendString link.host (lit ",\"authority\":" b)
    appendRaw (ascii ",\"multiMode\":".toList ++ ascii (if link.grpcMulti then "true" else "false").toList ++
      ascii "\x7d".toList) b
  | .xhttp =>
    let b := appendString link.host (lit ",\"xhttpSettings\":\x7b\"host\":" b)
    let b := appendString link.path (lit ",\"path\":" b)
    let b := appendString link.mode (lit ",\"mode\":" b)
    lit "\x7d" b
  | .tcp => b

/-- The text that stands for the credential. -/
def configSecret (link : TunnelLink) : TunnelConfigMode → Bytes
  | .live => link.secret
  | .redacted => ascii "<redacted>".toList
  | .template =>
    if link.protocol = .trojan then ascii "REPLACE_PASSWORD".toList else ascii "REPLACE_UUID".toList

/-- The document of `qn_tunnel_config_build`. -/
def appendConfig (link : TunnelLink) (candidate secret : Bytes) (socksPort : Nat) (isIp : Bool) (b : JsonBuffer) :
    JsonBuffer :=
  let b := lit "\x7b\"log\":\x7b\"loglevel\":\"none\"\x7d,\"inbounds\":[\x7b" b
  let b := appendRaw (ascii "\"tag\":\"socks-in\",\"listen\":\"127.0.0.1\",\"port\":".toList ++
    Decimal.render socksPort ++ ascii (",\"protocol\":\"socks\",\"settings\":\x7b\"auth\":\"noauth\"," ++
      "\"udp\":false\x7d,\"sniffing\":\x7b\"enabled\":false\x7d\x7d]," ++
      "\"outbounds\":[\x7b\"tag\":\"proxy\",\"protocol\":").toList) b
  let b := appendString link.protocol.str b
  let b := lit ",\"settings\":" b
  let b := appendUser link candidate secret b
  let b := lit ",\"streamSettings\":\x7b\"network\":" b
  let b := appendString link.network.str b
  let b := lit ",\"security\":" b
  let b := appendString link.security.str b
  let b := appendTls link isIp b
  let b := appendTransport link b
  lit ("\x7d\x7d,\x7b\"tag\":\"direct\",\"protocol\":\"freedom\",\"settings\":\x7b\x7d\x7d]," ++
    "\"routing\":\x7b\"domainStrategy\":\"AsIs\",\"rules\":[\x7b\"type\":\"field\"," ++
    "\"network\":\"tcp,udp\",\"outboundTag\":\"proxy\"\x7d]\x7d\x7d") b

/-- `qn_tunnel_config_build` into a buffer of `capacity` bytes. -/
def tunnelConfigBuild (request : TunnelConfigRequest) (capacity : Nat) : Except TunnelConfigCode Bytes :=
  if capacity = 0 ∨ !linkValid request.link request.mode ∨ request.socksPort = 0 then .error .argument
  else
    match candidateValid inet request.candidate with
    | none => .error .candidate
    | some isIp =>
      if request.mode = .live ∧ request.link.secret = [] then .error .secret
      else
        let secret := configSecret request.link request.mode
        let b := ⟨[], capacity, false⟩
        let b := appendConfig request.link request.candidate secret request.socksPort.toNat isIp b
        if b.failed then .error .overflow else .ok b.data

end Build

end Qanat

import Qanat.Store

namespace Qanat

inductive TunnelProtocol
  | vless
  | trojan
  | vmess
  deriving DecidableEq

inductive TunnelNetwork
  | ws
  | grpc
  | xhttp
  | tcp
  deriving DecidableEq

inductive TunnelSecurity
  | none
  | tls
  deriving DecidableEq

/-- `qn_tunnel_link`; a text field is the string before its terminator. -/
structure TunnelLink where
  protocol : TunnelProtocol
  network : TunnelNetwork
  security : TunnelSecurity
  port : Nat
  grpcMulti : Bool
  secret : Bytes
  address : Bytes
  sni : Bytes
  host : Bytes
  path : Bytes
  flow : Bytes
  alpn : Bytes
  fingerprint : Bytes
  serviceName : Bytes
  mode : Bytes
  deriving DecidableEq

/-- `qn_tunnel_parse_code` without `OK`. -/
inductive TunnelParseCode
  | empty
  | tooLong
  | utf8
  | scheme
  | encoding
  | malformed
  | duplicate
  | unsupportedField
  | unsupportedValue
  | credential
  | address
  | port
  | json
  deriving DecidableEq

abbrev TunnelParse := Except TunnelParseCode

def tunnelLinkMax : Nat := 4096
def tunnelSecretSize : Nat := 256
def tunnelHostMax : Nat := 253
def tunnelHostSize : Nat := 254
def tunnelPathSize : Nat := 768
def tunnelServiceSize : Nat := 256
def tunnelAlpnSize : Nat := 128
def tunnelFlowSize : Nat := 64
def tunnelTokenSize : Nat := 32

section Text

def chComma : UInt8 := 44
def chDash : UInt8 := 45
def chColon : UInt8 := 58
def chPercent : UInt8 := 37
def chQuote : UInt8 := 34
def chBackslash : UInt8 := 92

def isAlnum (c : UInt8) : Bool :=
  isDigit c || isUpper c || (0x61 ≤ c && c ≤ 0x7A)

/-- `isxdigit`. -/
def isXDigit (c : UInt8) : Bool :=
  isDigit c || (0x61 ≤ c && c ≤ 0x66) || (0x41 ≤ c && c ≤ 0x46)

/-- The continuation bytes of a sequence, added to the value so far. -/
def utf8Parts (value : Nat) (parts : Bytes) : Option Nat :=
  parts.foldlM (fun (v : Nat) (p : UInt8) => if p &&& 0xC0 = 0x80 then some (v <<< 6 ||| (p &&& 0x3F).toNat) else none) value

/-- A code point of its shortest form that is no surrogate. -/
def utf8Value (minimum : Nat) : Option Nat → Bool
  | some v => !(v < minimum || 0x10FFFF < v || (0xD800 ≤ v && v ≤ 0xDFFF))
  | none => false

/-- `utf8_valid`: also refuses control characters. -/
def utf8Valid : Bytes → Bool
  | [] => true
  | c :: t =>
    if c < 0x20 ∨ c = 0x7F then false
    else if c < 0x80 then utf8Valid t
    else if 0xC2 ≤ c ∧ c ≤ 0xDF then
      match t with
      | p :: t => utf8Value 0x80 (utf8Parts (c &&& 0x1F).toNat [p]) && utf8Valid t
      | _ => false
    else if 0xE0 ≤ c ∧ c ≤ 0xEF then
      match t with
      | p :: q :: t => utf8Value 0x800 (utf8Parts (c &&& 0x0F).toNat [p, q]) && utf8Valid t
      | _ => false
    else if 0xF0 ≤ c ∧ c ≤ 0xF4 then
      match t with
      | p :: q :: r :: t => utf8Value 0x10000 (utf8Parts (c &&& 0x07).toNat [p, q, r]) && utf8Valid t
      | _ => false
    else false

/-- `hex_value`. -/
def hexDigitValue (c : UInt8) : Option Nat :=
  if isDigit c then some (c.toNat - 48)
  else if 0x61 ≤ c ∧ c ≤ 0x66 then some (c.toNat - 97 + 10)
  else if 0x41 ≤ c ∧ c ≤ 0x46 then some (c.toNat - 65 + 10)
  else none

/-- The bytes that `percent_decode` stores. -/
def percentBytes : Bytes → Option Bytes
  | [] => some []
  | c :: t =>
    if c = chPercent then
      match t with
      | h :: l :: t => do
        let high ← hexDigitValue h
        let low ← hexDigitValue l
        let out ← percentBytes t
        some (UInt8.ofNat (high * 16 + low) :: out)
      | _ => none
    else (percentBytes t).map (c :: ·)

def percentDecode (capacity : Nat) (s : Bytes) : Option Bytes :=
  (percentBytes s).filter fun out => out.all (fun c => 0x20 ≤ c && c != 0x7F) && out.length < capacity && utf8Valid out

/-- `copy_text` into a field of `capacity` bytes. -/
def copyText (capacity : Nat) (value : Bytes) : TunnelParse Bytes :=
  if capacity ≤ value.length then .error .tooLong else .ok value

/-- `ascii_token`. -/
def asciiToken (value : Bytes) (comma slash : Bool) : Bool :=
  value != [] && value.all fun c =>
    isAlnum c || c == chDash || c == 0x5F || c == chDot || (comma && c == chComma) || (slash && c == chSlash)

/-- `valid_uuid`. -/
def validUuid (value : Bytes) : Bool :=
  value.length == 36 && (List.range 36).all fun i =>
    if i = 8 ∨ i = 13 ∨ i = 18 ∨ i = 23 then value[i]? == some chDash else value[i]?.any isXDigit

/-- The loop of `qn_valid_hostname`: the length of the last label, and whether all was digits. -/
def hostLoop (label : Nat) (numeric : Bool) (prev : UInt8) : Bytes → Option (Nat × Bool)
  | [] => some (label, numeric)
  | c :: t =>
    if c = chDot then
      if label = 0 ∨ 63 < label ∨ prev = chDash then none else hostLoop 0 numeric c t
    else if !(isAlnum c || c == chDash) then none
    else if label = 0 ∧ c = chDash then none
    else hostLoop (label + 1) (numeric && isDigit c) c t

/-- `qn_valid_hostname`. -/
def validHostname (name : Bytes) : Bool :=
  name != [] && name.length ≤ 253 && name.getLast? != some chDot &&
    match hostLoop 0 true 0 name with
    | some (label, numeric) => label != 0 && label ≤ 63 && name.getLast? != some chDash && !numeric
    | none => false

def validEndpointHost (inet : InetText) (value : Bytes) : Bool :=
  (storeAddrParse inet value).isSome || validHostname value

/-- The loop of `parse_port`. -/
def portLoop (value : Nat) : Bytes → Option Nat
  | [] => some value
  | c :: t =>
    if !isDigit c then none
    else if 65535 < value * 10 + (c.toNat - 48) then none
    else portLoop (value * 10 + (c.toNat - 48)) t

def parsePort (text : Bytes) : TunnelParse Nat :=
  match if text = [] then none else portLoop 0 text with
  | some value => if value = 0 then .error .port else .ok value
  | none => .error .port

end Text

section Fields

/-- The `F_` flags. -/
inductive LinkField
  | network
  | security
  | sni
  | host
  | path
  | flow
  | alpn
  | fp
  | service
  | mode
  | multi
  | address
  | port
  | secret
  | version
  | aid
  | cipher
  | label
  | header
  | allowInsecure
  deriving DecidableEq

/-- The field that a key of a link names. -/
def fieldOf (vmess : Bool) (key : Bytes) : Option LinkField :=
  let is := fun s : String => key == ascii s.toList
  if is "net" || is "network" || (!vmess && is "type") then some .network
  else if is "security" || (vmess && is "tls") then some .security
  else if is "sni" || is "serverName" then some .sni
  else if is "host" || is "authority" then some .host
  else if is "path" then some .path
  else if is "flow" then some .flow
  else if is "alpn" then some .alpn
  else if is "fp" || is "fingerprint" then some .fp
  else if is "serviceName" || is "service_name" then some .service
  else if is "mode" then some .mode
  else if is "multiMode" then some .multi
  else if is "encryption" || is "scy" then some .cipher
  else if is "headerType" || (vmess && is "type") then some .header
  else if is "allowInsecure" then some .allowInsecure
  else if vmess && is "add" then some .address
  else if vmess && is "port" then some .port
  else if vmess && is "id" then some .secret
  else if vmess && is "v" then some .version
  else if vmess && is "aid" then some .aid
  else if vmess && is "ps" then some .label
  else none

def setNetwork (link : TunnelLink) (value : Bytes) : TunnelParse TunnelLink :=
  if value = ascii "ws".toList ∨ value = ascii "websocket".toList then .ok { link with network := .ws }
  else if value = ascii "grpc".toList then .ok { link with network := .grpc }
  else if value = ascii "xhttp".toList ∨ value = ascii "splithttp".toList then .ok { link with network := .xhttp }
  else if value = ascii "tcp".toList ∨ value = ascii "raw".toList then .ok { link with network := .tcp }
  else .error .unsupportedValue

def setSecurity (link : TunnelLink) (value : Bytes) : TunnelParse TunnelLink :=
  if value = ascii "tls".toList then .ok { link with security := .tls }
  else if value = [] ∨ value = ascii "none".toList then .ok { link with security := .none }
  else .error .unsupportedValue

def falseValue (value : Bytes) : Bool :=
  value == [] || value == ascii "0".toList || value == ascii "false".toList

def trueValue (value : Bytes) : Bool :=
  value == ascii "1".toList || value == ascii "true".toList

/-- A value that is checked and not kept. -/
def accept (ok : Bool) (link : TunnelLink) : TunnelParse TunnelLink :=
  if ok then .ok link else .error .unsupportedValue

/-- What `apply_field` does with the value of a field seen for the first time. -/
def setField (link : TunnelLink) (value : Bytes) : LinkField → TunnelParse TunnelLink
  | .network => setNetwork link value
  | .security => setSecurity link value
  | .sni => (copyText tunnelHostSize value).map fun v => { link with sni := v }
  | .host => (copyText tunnelHostSize value).map fun v => { link with host := v }
  | .path => (copyText tunnelPathSize value).map fun v => { link with path := v }
  | .flow => (copyText tunnelFlowSize value).map fun v => { link with flow := v }
  | .alpn => (copyText tunnelAlpnSize value).map fun v => { link with alpn := v }
  | .fp => (copyText tunnelTokenSize value).map fun v => { link with fingerprint := v }
  | .service => (copyText tunnelServiceSize value).map fun v => { link with serviceName := v }
  | .mode => (copyText tunnelTokenSize value).map fun v => { link with mode := v }
  | .multi =>
    if !falseValue value && !trueValue value then .error .unsupportedValue
    else .ok { link with grpcMulti := trueValue value }
  | .cipher =>
    if link.protocol = .vless then accept (value == ascii "none".toList) link
    else accept (value == [] || value == ascii "auto".toList || value == ascii "none".toList) link
  | .header => accept (value == [] || value == ascii "none".toList) link
  | .allowInsecure => accept (falseValue value) link
  | .address => (copyText tunnelHostSize value).map fun v => { link with address := v }
  | .port => (parsePort value).map fun v => { link with port := v }
  | .secret => (copyText tunnelSecretSize value).map fun v => { link with secret := v }
  | .version => accept (value == ascii "2".toList) link
  | .aid => accept (value == [] || value == ascii "0".toList) link
  | .label => .ok link

/-- `apply_field`. -/
def applyField (vmess : Bool) (link : TunnelLink) (seen : List LinkField) (key value : Bytes) :
    TunnelParse (TunnelLink × List LinkField) :=
  match fieldOf vmess key with
  | none => .error .unsupportedField
  | some f => if f ∈ seen then .error .duplicate else (setField link value f).map fun l => (l, f :: seen)

end Fields

section Finish

variable (inet : InetText)

/-- The loop of `valid_alpn_list`. -/
def alpnLoop (have' : Bool) : Bytes → Bool
  | [] => have'
  | c :: t => if c = chComma then have' && alpnLoop false t else alpnLoop true t

def validAlpnList (value : Bytes) : Bool :=
  alpnLoop false value

/-- The checks of `finish_link` on the endpoint and the credential. -/
def finishEndpoint (link : TunnelLink) : TunnelParse Unit :=
  if !validEndpointHost inet link.address then .error .address
  else if link.port = 0 then .error .port
  else if link.protocol ≠ .trojan ∧ !validUuid link.secret then .error .credential
  else if link.protocol = .trojan ∧ link.secret = [] then .error .credential
  else .ok ()

/-- The server name that `finish_link` settles on. -/
def finishSni (link : TunnelLink) : TunnelParse TunnelLink :=
  if link.sni = [] then
    let name := if validHostname link.host then link.host else link.address
    if validHostname name then (copyText tunnelHostSize name).map fun v => { link with sni := v } else .ok link
  else .ok link

def finishHost (link : TunnelLink) : TunnelParse TunnelLink :=
  if link.host = [] ∧ link.sni ≠ [] then (copyText tunnelHostSize link.sni).map fun v => { link with host := v }
  else .ok link

def finishNames (link : TunnelLink) : TunnelParse TunnelLink := do
  let link ← finishSni link
  let link ← finishHost link
  if link.security = .tls ∧ (link.sni = [] ∨ !validHostname link.sni) then .error .address
  else if link.host ≠ [] ∧ !validHostname link.host ∧ (storeAddrParse inet link.host).isNone then .error .address
  else .ok link

def TunnelNetwork.hasPath (n : TunnelNetwork) : Bool :=
  n == .ws || n == .xhttp

def finishPath (link : TunnelLink) : TunnelParse TunnelLink :=
  if link.network.hasPath ∧ link.path = [] then
    (copyText tunnelPathSize [chSlash]).map fun v => { link with path := v }
  else .ok link

/-- A path given for `grpc` is taken for the name of the service. -/
def finishService (link : TunnelLink) : TunnelParse TunnelLink :=
  if link.network = .grpc ∧ link.serviceName = [] ∧ link.path ≠ [] then
    let service := if link.path.head? = some chSlash then link.path.tail else link.path
    (copyText tunnelServiceSize service).map fun v => { link with serviceName := v, path := [] }
  else .ok link

def finishTransport (link : TunnelLink) (seen : List LinkField) : TunnelParse TunnelLink := do
  let link ← finishPath link
  if link.network.hasPath ∧ link.path.head? ≠ some chSlash then .error .unsupportedValue
  else
    let link ← finishService link
    if link.network = .tcp ∧ link.path ≠ [] then .error .unsupportedValue
    else if link.network ≠ .grpc ∧ (.service ∈ seen ∨ .multi ∈ seen) then .error .unsupportedValue
    else if link.network = .grpc ∧ link.path ≠ [] ∧ .service ∈ seen then .error .duplicate
    else .ok link

def finishTokens (link : TunnelLink) (seen : List LinkField) : TunnelParse TunnelLink :=
  if (.alpn ∈ seen ∨ .fp ∈ seen) ∧ link.security ≠ .tls then .error .unsupportedValue
  else if .flow ∈ seen ∧ link.flow ≠ [] ∧ (link.protocol ≠ .vless ∨ link.network ≠ .tcp ∨ link.security ≠ .tls) then
    .error .unsupportedValue
  else if link.flow ≠ [] ∧ !asciiToken link.flow false false then .error .unsupportedValue
  else if link.alpn ≠ [] ∧ (!asciiToken link.alpn true true ∨ !validAlpnList link.alpn) then .error .unsupportedValue
  else if link.fingerprint ≠ [] ∧ !asciiToken link.fingerprint false false then .error .unsupportedValue
  else if link.fingerprint = [] then
    (copyText tunnelTokenSize (ascii "chrome".toList)).map fun v => { link with fingerprint := v }
  else .ok link

/-- The modes of `xhttp`. -/
def isXhttpMode (mode : Bytes) : Bool :=
  mode == ascii "auto".toList || mode == ascii "packet-up".toList || mode == ascii "stream-up".toList ||
    mode == ascii "stream-one".toList

def finishModeName (link : TunnelLink) : TunnelParse TunnelLink :=
  if link.mode = [] then (copyText tunnelTokenSize (ascii "auto".toList)).map fun v => { link with mode := v }
  else .ok link

def finishMode (link : TunnelLink) : TunnelParse TunnelLink := do
  let link ← finishModeName link
  if link.network = .xhttp ∧ !isXhttpMode link.mode then .error .unsupportedValue
  else if link.network ≠ .xhttp ∧ link.mode ≠ ascii "auto".toList then .error .unsupportedValue
  else .ok link

/-- `finish_link`. -/
def finishLink (link : TunnelLink) (seen : List LinkField) : TunnelParse TunnelLink := do
  finishEndpoint inet link
  let link ← finishNames inet link
  let link ← finishTransport link seen
  let link ← finishTokens link seen
  finishMode link

end Finish

end Qanat

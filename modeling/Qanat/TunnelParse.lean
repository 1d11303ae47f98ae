import Qanat.TunnelLink

namespace Qanat

section Uri

variable (inet : InetText)

/-- What stands before and behind the first `c`. -/
def cut (c : UInt8) (s : Bytes) : Option (Bytes × Bytes) :=
  if c ∈ s then some (s.takeWhile (· ≠ c), (s.dropWhile (· ≠ c)).tail) else none

/-- `parse_authority`. -/
def parseAuthority (link : TunnelLink) (authority : Bytes) : TunnelParse TunnelLink :=
  if authority.head? = some 0x5B then
    match cut 0x5D authority.tail with
    | some (address, c :: portText) =>
      if c ≠ chColon ∨ portText = [] then .error .malformed
      else do
        let address ← copyText tunnelHostSize address
        let port ← parsePort portText
        .ok { link with address := address, port := port }
    | _ => .error .malformed
  else
    match cut chColon authority with
    | some (address, portText) =>
      if address = [] ∨ chColon ∈ portText then .error .malformed
      else do
        let address ← copyText tunnelHostSize address
        let port ← parsePort portText
        .ok { link with address := address, port := port }
    | none => .error .malformed

/-- One `key=value` of `parse_query`. -/
def queryField (link : TunnelLink) (seen : List LinkField) (part : Bytes) : TunnelParse (TunnelLink × List LinkField) :=
  match cut 0x3D part with
  | none => .error .malformed
  | some (key, value) =>
    if 0x3D ∈ value then .error .malformed
    else
      match percentDecode 64 key, percentDecode 1024 value with
      | some key, some value => applyField false link seen key value
      | _, _ => .error .encoding

/-- The loop of `parse_query` over the parts between `&`; an empty last part ends it. -/
def queryLoop (link : TunnelLink) (seen : List LinkField) : List Bytes → TunnelParse (TunnelLink × List LinkField)
  | [] => .ok (link, seen)
  | [part] => if part = [] then .ok (link, seen) else queryField link seen part
  | part :: parts =>
    if part = [] then .error .malformed
    else
      match queryField link seen part with
      | .ok (link, seen) => queryLoop link seen parts
      | .error code => .error code

def parseQuery (link : TunnelLink) (query : Bytes) : TunnelParse (TunnelLink × List LinkField) :=
  queryLoop link [] (query.splitOn 0x26)

/-- `parsed` as `qn_tunnel_link_parse` prepares it. -/
def blankLink (protocol : TunnelProtocol) (security : TunnelSecurity) : TunnelLink :=
  ⟨protocol, .tcp, security, 0, false, [], [], [], [], [], [], [], [], [], []⟩

/-- The text before a fragment that can be decoded. -/
def dropFragment (rest : Bytes) : TunnelParse Bytes :=
  match cut 0x23 rest with
  | some (body, fragment) =>
    if 0x23 ∈ fragment ∨ (percentDecode 1024 fragment).isNone then .error .encoding else .ok body
  | none => .ok rest

def parseUserinfo (link : TunnelLink) (rest : Bytes) : TunnelParse TunnelLink :=
  match cut 0x40 rest with
  | some (user, authority) =>
    if user = [] ∨ 0x40 ∈ authority then .error .malformed
    else
      match percentDecode tunnelSecretSize user with
      | some secret => parseAuthority { link with secret := secret } authority
      | none => .error .encoding
  | none => .error .malformed

def vlessScheme : Bytes := ascii "vless://".toList
def trojanScheme : Bytes := ascii "trojan://".toList
def vmessScheme : Bytes := ascii "vmess://".toList

def parseScheme (text : Bytes) : TunnelParse (TunnelLink × Bytes) :=
  if vlessScheme.isPrefixOf text then .ok (blankLink .vless .none, text.drop vlessScheme.length)
  else if trojanScheme.isPrefixOf text then .ok (blankLink .trojan .tls, text.drop trojanScheme.length)
  else .error .scheme

/-- `parse_uri`. -/
def parseUri (text : Bytes) : TunnelParse TunnelLink := do
  let (link, rest) ← parseScheme text
  let rest ← dropFragment rest
  match cut 0x3F rest with
  | some (rest, query) => do
    let link ← parseUserinfo link rest
    if query = [] then .error .malformed
    else
      let (link, seen) ← parseQuery link query
      finishLink inet link seen
  | none => do
    let link ← parseUserinfo link rest
    finishLink inet link []

end Uri

section Base64

def base64Value (c : UInt8) : Option Nat :=
  if isUpper c then some (c.toNat - 65)
  else if 0x61 ≤ c ∧ c ≤ 0x7A then some (c.toNat - 97 + 26)
  else if isDigit c then some (c.toNat - 48 + 52)
  else if c = 0x2B ∨ c = 0x2D then some 62
  else if c = 0x2F ∨ c = 0x5F then some 63
  else none

/-- The values of a group and the number of its places that are padding; nothing follows padding. -/
def base64Values : Nat → Bytes → Option (List Nat × Nat)
  | 0, _ => some ([], 0)
  | n + 1, [] => some (List.replicate (n + 1) 0, n + 1)
  | n + 1, c :: t =>
    if c = 0x3D then if t.all (· == 0x3D) then some (List.replicate (n + 1) 0, n + 1) else none
    else do
      let v ← base64Value c
      let (vs, pad) ← base64Values n t
      some (v :: vs, pad)

/-- The bytes of a group of four; only the last group may have padding. -/
def base64Group (last : Bool) (group : Bytes) : Option Bytes :=
  match base64Values 4 group with
  | some ([v₀, v₁, v₂, v₃], pad) =>
    if 2 < pad ∨ (!last ∧ pad ≠ 0) then none
    else if (pad = 2 ∧ v₁ % 16 ≠ 0) ∨ (pad = 1 ∧ v₂ % 4 ≠ 0) then none
    else
      some ([UInt8.ofNat (v₀ <<< 2 ||| v₁ >>> 4), UInt8.ofNat ((v₁ &&& 15) <<< 4 ||| v₂ >>> 2),
        UInt8.ofNat ((v₂ &&& 3) <<< 6 ||| v₃)].take (3 - pad))
  | _ => none

def base64Loop : Bytes → Option Bytes
  | [] => some []
  | c₀ :: c₁ :: c₂ :: c₃ :: t => do
    let group ← base64Group (t == []) [c₀, c₁, c₂, c₃]
    let out ← base64Loop t
    some (group ++ out)
  | group => base64Group true group

/-- `base64_decode`. -/
def base64Decode (capacity : Nat) (input : Bytes) : Option Bytes :=
  let pads := input.dropWhile (· ≠ 0x3D)
  if input = [] ∨ input.length % 4 = 1 then none
  else if pads ≠ [] ∧ (input.length % 4 ≠ 0 ∨ 2 < pads.length ∨ !pads.all (· == 0x3D)) then none
  else (base64Loop input).filter fun out => out.length ≤ capacity

end Base64

section Vmess

variable (inet : InetText)

def isJsonSpace (c : UInt8) : Bool :=
  c == chSp || c == chTab || c == chLf || c == chCr

def skipJsonSpace (s : Bytes) : Bytes :=
  s.dropWhile isJsonSpace

/-- `append_codepoint` without the bound of its buffer. -/
def codepointBytes (value : Nat) : Option Bytes :=
  if value = 0 ∨ 0x10FFFF < value ∨ (0xD800 ≤ value ∧ value ≤ 0xDFFF) then none
  else if value < 0x80 then some [UInt8.ofNat value]
  else if value < 0x800 then some [UInt8.ofNat (0xC0 ||| value >>> 6), UInt8.ofNat (0x80 ||| (value &&& 0x3F))]
  else if value < 0x10000 then
    some [UInt8.ofNat (0xE0 ||| value >>> 12), UInt8.ofNat (0x80 ||| (value >>> 6 &&& 0x3F)),
      UInt8.ofNat (0x80 ||| (value &&& 0x3F))]
  else
    some [UInt8.ofNat (0xF0 ||| value >>> 18), UInt8.ofNat (0x80 ||| (value >>> 12 &&& 0x3F)),
      UInt8.ofNat (0x80 ||| (value >>> 6 &&& 0x3F)), UInt8.ofNat (0x80 ||| (value &&& 0x3F))]

/-- `json_hex4`. -/
def jsonHex4 (d₃ d₂ d₁ d₀ : UInt8) : Option Nat := do
  let v₃ ← hexDigitValue d₃
  let v₂ ← hexDigitValue d₂
  let v₁ ← hexDigitValue d₁
  let v₀ ← hexDigitValue d₀
  some (((v₃ * 16 + v₂) * 16 + v₁) * 16 + v₀)

/-- The characters of `json_string` behind its opening quote, and what follows the closing one. -/
def jsonChars : Bytes → Option (Bytes × Bytes)
  | [] => none
  | c :: t =>
    if c = chQuote then some ([], t)
    else if c < 0x20 ∨ c = 0x7F then none
    else if c ≠ chBackslash then (jsonChars t).map fun p => (c :: p.1, p.2)
    else
      match t with
      | [] => none
      | e :: t =>
        if e = chQuote ∨ e = chBackslash ∨ e = chSlash then (jsonChars t).map fun p => (e :: p.1, p.2)
        else if e ≠ 0x75 then none
        else
          match t with
          | d₃ :: d₂ :: d₁ :: d₀ :: t =>
            match jsonHex4 d₃ d₂ d₁ d₀ with
            | none => none
            | some value =>
              if 0xD800 ≤ value ∧ value ≤ 0xDBFF then
                match t with
                | b :: u :: e₃ :: e₂ :: e₁ :: e₀ :: t =>
                  if b ≠ chBackslash ∨ u ≠ 0x75 then none
                  else
                    match jsonHex4 e₃ e₂ e₁ e₀ with
                    | none => none
                    | some low =>
                      if low < 0xDC00 ∨ 0xDFFF < low then none
                      else do
                        let bytes ← codepointBytes (0x10000 + ((value - 0xD800) <<< 10) + (low - 0xDC00))
                        let p ← jsonChars t
                        some (bytes ++ p.1, p.2)
                | _ => none
              else do
                let bytes ← codepointBytes value
                let p ← jsonChars t
                some (bytes ++ p.1, p.2)
          | _ => none

/-- `json_string`. -/
def jsonString (capacity : Nat) : Bytes → Option (Bytes × Bytes)
  | [] => none
  | c :: t => if c = chQuote then (jsonChars t).filter fun p => p.1.length < capacity && utf8Valid p.1 else none

inductive JsonScalarKind
  | string
  | number
  | boolean
  deriving DecidableEq

/-- Digits that must be there, and what follows them. -/
def jsonDigits (s : Bytes) : Option Bytes :=
  if s.head?.any isDigit then some (s.dropWhile isDigit) else none

def jsonInteger (s : Bytes) : Option Bytes :=
  if s.head? = some 0x30 then if s.tail.head?.any isDigit then none else some s.tail else jsonDigits s

def jsonFraction (s : Bytes) : Option Bytes :=
  if s.head? = some chDot then jsonDigits s.tail else some s

def jsonExponent (s : Bytes) : Option Bytes :=
  if s.head? = some 0x65 ∨ s.head? = some 0x45 then
    let s := s.tail
    jsonDigits (if s.head? = some 0x2B ∨ s.head? = some chDash then s.tail else s)
  else some s

/-- `json_number_valid`. -/
def jsonNumberValid (value : Bytes) : Bool :=
  let s := if value.head? = some chDash then value.tail else value
  ((jsonInteger s).bind jsonFraction).bind jsonExponent == some []

def isScalarEnd (c : UInt8) : Bool :=
  c == chComma || c == 0x7D || isJsonSpace c

/-- `json_scalar`. -/
def jsonScalar (capacity : Nat) (s : Bytes) : Option (JsonScalarKind × Bytes × Bytes) :=
  if s.head? = some chQuote then (jsonString capacity s).map fun p => (.string, p.1, p.2)
  else
    let token := s.takeWhile fun c => !isScalarEnd c
    let rest := s.dropWhile fun c => !isScalarEnd c
    if token = [] ∨ capacity ≤ token.length then none
    else if token = ascii "true".toList ∨ token = ascii "false".toList then some (.boolean, token, rest)
    else if jsonNumberValid token then some (.number, token, rest)
    else none

/-- `vmess_scalar_type_valid`. -/
def vmessScalarTypeValid (key : Bytes) (kind : JsonScalarKind) : Bool :=
  if key = ascii "port".toList ∨ key = ascii "aid".toList then kind == .string || kind == .number
  else if key = ascii "multiMode".toList then kind == .string || kind == .boolean
  else kind == .string

/-- A byte that must stand next. -/
def takeByte (c : UInt8) : Bytes → TunnelParse Bytes
  | [] => .error .json
  | x :: t => if x = c then .ok t else .error .json

/-- One member of the object, with the rest of the text. -/
def vmessMember (link : TunnelLink) (seen : List LinkField) (s : Bytes) :
    TunnelParse (TunnelLink × List LinkField × Bytes) :=
  match jsonString 64 s with
  | none => .error .json
  | some (key, s) =>
    match takeByte chColon (skipJsonSpace s) with
    | .error code => .error code
    | .ok s =>
      match jsonScalar 1024 (skipJsonSpace s) with
      | none => .error .json
      | some (kind, value, s) =>
        if !vmessScalarTypeValid key kind then .error .json
        else (applyField true link seen key value).map fun p => (p.1, p.2, s)

/-- The loop of `parse_vmess_json`; every round takes at least a byte. -/
def vmessLoop : Nat → Bool → TunnelLink → List LinkField → Bytes → TunnelParse (TunnelLink × List LinkField × Bytes)
  | 0, _, _, _, _ => .error .json
  | n + 1, haveField, link, seen, s =>
    let s := skipJsonSpace s
    if s.head? = some 0x7D then .ok (link, seen, s.tail)
    else
      match if haveField then (takeByte chComma s).map skipJsonSpace else .ok s with
      | .error code => .error code
      | .ok s =>
        match vmessMember link seen s with
        | .error code => .error code
        | .ok (link, seen, s) => vmessLoop n true link seen s

/-- `parse_vmess_json`. -/
def parseVmessJson (link : TunnelLink) (json : Bytes) : TunnelParse TunnelLink :=
  if !utf8Valid json then .error .utf8
  else
    match takeByte 0x7B (skipJsonSpace json) with
    | .error code => .error code
    | .ok s =>
      match vmessLoop (s.length + 1) false link [] s with
      | .error code => .error code
      | .ok (link, seen, s) =>
        if skipJsonSpace s ≠ [] ∨ ¬(.address ∈ seen ∧ .port ∈ seen ∧ .secret ∈ seen ∧ .version ∈ seen) then .error .json
        else finishLink inet link seen

/-- `parse_vmess`. -/
def parseVmess (text : Bytes) : TunnelParse TunnelLink :=
  if text.length ≤ 8 ∨ !vmessScheme.isPrefixOf text then .error .scheme
  else
    match dropFragment (text.drop 8) with
    | .error code => .error code
    | .ok encoded =>
      match base64Decode 3072 encoded with
      | none => .error .encoding
      | some decoded => parseVmessJson inet (blankLink .vmess .none) decoded

/-- `qn_tunnel_link_parse`. -/
def tunnelLinkParse (input : Bytes) : TunnelParse TunnelLink :=
  if input = [] then .error .empty
  else if tunnelLinkMax < input.length then .error .tooLong
  else if !utf8Valid input then .error .utf8
  else if vmessScheme.isPrefixOf input then parseVmess inet input
  else parseUri inet input

end Vmess

end Qanat

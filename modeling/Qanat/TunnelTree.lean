import Qanat.TunnelConfig
import Qanat.General.Json

namespace Qanat

section Writes

/-- Where it has room, a function on the buffer adds a text to it. -/
def Writes (f : JsonBuffer → JsonBuffer) (text : Bytes) : Prop :=
  ∀ b, b.failed = false → b.data.length + text.length < b.capacity → f b = { b with data := b.data ++ text }

variable {f g : JsonBuffer → JsonBuffer} {x y : Bytes}

theorem writes_id : Writes id [] := by
  intro b _ _
  rw [List.append_nil]
  rfl

theorem writes_raw (text : Bytes) : Writes (appendRaw text) text := by
  intro b hb hroom
  rw [appendRaw, hb, if_neg (by decide), if_neg (by omega)]

theorem Writes.andThen (hf : Writes f x) (hg : Writes g y) : Writes (fun b => g (f b)) (x ++ y) := by
  intro b hb hroom
  rw [List.length_append] at hroom
  have hnext := hg { b with data := b.data ++ x } hb (by dsimp only; rw [List.length_append]; omega)
  dsimp only at hnext ⊢
  rw [hf b hb (by omega), hnext, List.append_assoc]

theorem Writes.ite {c : Prop} [Decidable c] (hf : Writes f x) (hg : Writes g y) :
    Writes (fun b => if c then f b else g b) (if c then x else y) := by
  by_cases h : c
  · simpa only [if_pos h] using hf
  · simpa only [if_neg h] using hg

theorem Writes.of_eq (hf : Writes f x) (h : x = y) : Writes f y :=
  h ▸ hf

theorem encodedChar_eq (c : UInt8) : encodedChar c = Json.escape c := rfl

theorem writes_chars (value : Bytes) : Writes (appendChars value) (value.flatMap Json.escape) := by
  induction value with
  | nil => exact writes_id
  | cons c value ih =>
    rw [List.flatMap_cons, ← encodedChar_eq]
    exact (writes_raw (encodedChar c)).andThen ih

theorem writes_string (value : Bytes) : Writes (appendString value) (Json.quote value) := by
  have h := ((writes_raw [chQuote]).andThen (writes_chars value)).andThen (writes_raw [chQuote])
  rw [List.append_assoc] at h
  exact h

end Writes

section Trees

/-- The text of a constant. -/
def word (s : String) : Bytes :=
  ascii s.toList

def userTree (link : TunnelLink) (candidate secret : Bytes) : Json :=
  if link.protocol = .trojan then
    .obj [(word "servers", .arr [.obj [(word "address", .str candidate), (word "port", .num link.port),
      (word "password", .str secret)]])]
  else
    .obj [(word "vnext", .arr [.obj [(word "address", .str candidate), (word "port", .num link.port),
      (word "users", .arr [.obj ((word "id", .str secret) ::
        (if link.protocol = .vless then (word "encryption", .str (word "none")) else (word "security", .str (word "auto"))) ::
        if link.flow = [] then [] else [(word "flow", .str link.flow)])])]])]

/-- The parts of a list of protocols. -/
def alpnParts (alpn : Bytes) : List Bytes :=
  (alpn.splitOn chComma).filter (· ≠ [])

/-- The names that the certificate of an address must carry. -/
def certNames (link : TunnelLink) : Bytes :=
  if link.host = [] then link.sni
  else if link.sni = [] ∨ link.host = link.sni then link.host
  else link.host ++ chComma :: link.sni

def tlsMembers (link : TunnelLink) (isIp : Bool) : List (Bytes × Json) :=
  if link.security = .tls then
    [(word "tlsSettings", .obj ([(word "serverName", Json.str link.sni), (word "fingerprint", Json.str link.fingerprint)] ++
      (if link.alpn = [] then [] else [(word "alpn", Json.arr ((alpnParts link.alpn).map .str))]) ++
      if isIp ∧ (link.host ≠ [] ∨ link.sni ≠ []) then [(word "verifyPeerCertByName", Json.str (certNames link))] else []))]
  else []

def transportMembers (link : TunnelLink) : List (Bytes × Json) :=
  match link.network with
  | .ws =>
    [(word "wsSettings", .obj ((word "path", .str link.path) ::
      if link.host = [] then []
      else [(word "host", .str link.host), (word "headers", .obj [(word "Host", .str link.host)])]))]
  | .grpc =>
    [(word "grpcSettings", .obj [(word "serviceName", .str link.serviceName), (word "authority", .str link.host),
      (word "multiMode", .bool link.grpcMulti)])]
  | .xhttp =>
    [(word "xhttpSettings", .obj [(word "host", .str link.host), (word "path", .str link.path),
      (word "mode", .str link.mode)])]
  | .tcp => []

/-- The configuration as a value of JSON. -/
def configTree (link : TunnelLink) (candidate secret : Bytes) (socksPort : Nat) (isIp : Bool) : Json :=
  .obj [
    (word "log", .obj [(word "loglevel", .str (word "none"))]),
    (word "inbounds", .arr [.obj [(word "tag", .str (word "socks-in")), (word "listen", .str (word "127.0.0.1")),
      (word "port", .num socksPort), (word "protocol", .str (word "socks")),
      (word "settings", .obj [(word "auth", .str (word "noauth")), (word "udp", .bool false)]),
      (word "sniffing", .obj [(word "enabled", .bool false)])]]),
    (word "outbounds", .arr [
      .obj [(word "tag", .str (word "proxy")), (word "protocol", .str link.protocol.str),
        (word "settings", userTree link candidate secret),
        (word "streamSettings", .obj ((word "network", .str link.network.str) ::
          (word "security", .str link.security.str) :: (tlsMembers link isIp ++ transportMembers link)))],
      .obj [(word "tag", .str (word "direct")), (word "protocol", .str (word "freedom")), (word "settings", .obj [])]]),
    (word "routing", .obj [(word "domainStrategy", .str (word "AsIs")),
      (word "rules", .arr [.obj [(word "type", .str (word "field")), (word "network", .str (word "tcp,udp")),
        (word "outboundTag", .str (word "proxy"))]])])]

end Trees

section Texts

variable {link : TunnelLink}

theorem writes_lit (s : String) : Writes (lit s) (word s) :=
  writes_raw _

theorem writes_trojan (hp : link.protocol = .trojan) (candidate secret : Bytes) :
    Writes (appendUser link candidate secret) (userTree link candidate secret).render := by
  have h := ((((writes_lit "\x7b\"servers\":[\x7b\"address\":").andThen (writes_string candidate)).andThen
    (writes_raw (ascii ",\"port\":".toList ++ Decimal.render link.port ++ ascii ",\"password\":".toList))).andThen
    (writes_string secret)).andThen (writes_lit "\x7d]\x7d")
  unfold appendUser userTree
  simp only [if_pos hp]
  refine h.of_eq ?_
  simp only [Json.render, Json.renderMembers, Json.renderElements, List.append_assoc, List.cons_append, List.nil_append,
    word]
  repeat rw [String.toList_ofList]
  rfl

theorem writes_vnext (hp : link.protocol ≠ .trojan) (candidate secret : Bytes) :
    Writes (appendUser link candidate secret) (userTree link candidate secret).render := by
  have hkind : Writes
      (fun b => if link.protocol = .vless then lit ",\"encryption\":\"none\"" b else lit ",\"security\":\"auto\"" b)
      (if link.protocol = .vless then word ",\"encryption\":\"none\"" else word ",\"security\":\"auto\"") :=
    (writes_lit _).ite (writes_lit _)
  have hflow : Writes (fun b => if link.flow ≠ [] then appendString link.flow (lit ",\"flow\":" b) else b)
      (if link.flow ≠ [] then word ",\"flow\":" ++ Json.quote link.flow else []) :=
    ((writes_lit _).andThen (writes_string _)).ite writes_id
  have h := ((((((writes_lit "\x7b\"vnext\":[\x7b\"address\":").andThen (writes_string candidate)).andThen
    (writes_raw (ascii ",\"port\":".toList ++ Decimal.render link.port ++
      ascii ",\"users\":[\x7b\"id\":".toList))).andThen
    (writes_string secret)).andThen hkind).andThen hflow).andThen (writes_lit "\x7d]\x7d]\x7d")
  unfold appendUser userTree
  simp only [if_neg hp]
  refine h.of_eq ?_
  by_cases hv : link.protocol = .vless <;> by_cases hf : link.flow = [] <;>
  · simp only [hv, hf, if_true, if_false, ne_eq, not_true, not_false_iff, Json.render, Json.renderMembers,
      Json.renderElements, List.append_assoc, List.cons_append, List.nil_append, word]
    repeat rw [String.toList_ofList]
    rfl

theorem writes_user (link : TunnelLink) (candidate secret : Bytes) :
    Writes (appendUser link candidate secret) (userTree link candidate secret).render := by
  by_cases hp : link.protocol = .trojan
  · exact writes_trojan hp candidate secret
  · exact writes_vnext hp candidate secret

/-- Quoted parts with commas between them, and one in front unless they come first. -/
def partsText (first : Bool) : List Bytes → Bytes
  | [] => []
  | p :: ps => (if first then [] else word ",") ++ (Json.quote p ++ partsText false ps)

theorem render_parts (ps : List Bytes) : (Json.arr (ps.map .str)).render = word "[" ++ (partsText true ps ++ word "]") := by
  have htail : ∀ ps : List Bytes, Json.renderElements (ps.map .str) = partsText false ps ++ word "]" := by
    intro ps
    induction ps with
    | nil => rfl
    | cons p ps ih =>
      rw [List.map_cons, Json.renderElements, ih, partsText, Json.render, List.append_assoc, List.append_assoc]
      rfl
  cases ps with
  | nil => rfl
  | cons p ps =>
    rw [List.map_cons, Json.render, htail, partsText, Json.render, List.append_assoc, List.append_assoc]
    rfl

theorem writes_part (part : Bytes) (first : Bool) :
    Writes (appendPart part first) ((if first then [] else word ",") ++ Json.quote part) := by
  cases first
  · exact (writes_lit ",").andThen (writes_string part)
  · exact writes_string part

theorem appendParts_nil (part : Bytes) (first : Bool) :
    appendParts part first [] = fun b => if part = [] then b else appendPart part first b := by
  funext b
  rw [appendParts]

theorem appendParts_cons (part : Bytes) (first : Bool) (c : UInt8) (t : Bytes) :
    appendParts part first (c :: t) = fun b =>
      if c = chComma then
        if part = [] then appendParts [] first t b else appendParts [] false t (appendPart part first b)
      else if part.length < tunnelAlpnSize - 1 then appendParts (part ++ [c]) first t b
      else { b with failed := true } := by
  funext b
  rw [appendParts]

theorem writes_parts (part t : Bytes) (hpart : chComma ∉ part) (hlen : part.length + t.length < tunnelAlpnSize)
    (first : Bool) :
    Writes (appendParts part first t) (partsText first (((part ++ t).splitOn chComma).filter (· ≠ []))) := by
  induction t generalizing part first with
  | nil =>
    rw [List.append_nil, List.splitOn_eq_singleton hpart]
    by_cases h : part = []
    · subst h
      exact writes_id
    · have hw := writes_part part first
      rw [appendParts_nil]
      simp only [h, ne_eq, not_false_iff, decide_true, List.filter_cons_of_pos, List.filter_nil, partsText,
        List.append_nil, if_false]
      exact hw
  | cons c t ih =>
    rw [List.length_cons] at hlen
    rw [appendParts_cons]
    by_cases hc : c = chComma
    · subst hc
      rw [List.splitOn_append_cons_self_of_not_mem hpart]
      have hrest := fun first => ih [] List.not_mem_nil (by rw [List.length_nil]; omega) first
      simp only [List.nil_append] at hrest
      by_cases h : part = []
      · subst h
        simp only [if_true]
        exact hrest first
      · have hw := (writes_part part first).andThen (hrest false)
        simp only [h, if_true, if_false, ne_eq, not_false_iff, decide_true, List.filter_cons_of_pos, partsText]
        rw [List.append_assoc] at hw
        exact hw
    · have hnext := ih (part ++ [c])
        (by
          rw [List.mem_append, List.mem_singleton, not_or]
          exact ⟨hpart, fun e => hc e.symm⟩)
        (by
          rw [List.length_append, List.length_singleton]
          omega) first
      rw [List.append_assoc, List.singleton_append] at hnext
      have hroom : part.length < tunnelAlpnSize - 1 := by omega
      simp only [if_neg hc, if_pos hroom]
      exact hnext

theorem writes_alpn {alpn : Bytes} (h : alpn.length < tunnelAlpnSize) :
    Writes (appendAlpn alpn) (Json.arr ((alpnParts alpn).map .str)).render := by
  have hparts := writes_parts [] alpn List.not_mem_nil (by rw [List.length_nil]; omega) true
  have hw := ((writes_lit "[").andThen hparts).andThen (writes_lit "]")
  rw [List.append_assoc] at hw
  rw [render_parts]
  exact hw

theorem verifyNames_eq (hhost : link.host.length < tunnelHostSize) (hsni : link.sni.length < tunnelHostSize)
    (hne : link.host ≠ [] ∨ link.sni ≠ []) : verifyNames link (tunnelHostMax * 2 + 2) = some (certNames link) := by
  unfold tunnelHostSize at hhost hsni
  unfold verifyNames certNames tunnelHostMax
  rw [if_neg (by omega)]
  dsimp only
  by_cases hh : link.host = []
  · have hs : link.sni ≠ [] := hne.resolve_left (not_not.mpr hh)
    rw [hh, if_pos rfl, if_pos rfl, if_pos ⟨hs, hs.symm⟩, List.nil_append, List.nil_append, List.length_nil,
      if_neg (by omega)]
    simp [hs]
  · rw [if_neg hh, if_neg hh]
    by_cases hs : link.sni ≠ [] ∧ link.host ≠ link.sni
    · rw [if_pos hs, List.singleton_append, List.length_cons, if_neg (by omega),
        if_neg (not_or.mpr ⟨hs.1, hs.2⟩)]
      simp
    · have hs' : link.sni = [] ∨ link.host = link.sni := by
        rw [not_and_or, not_not, not_not] at hs
        exact hs
      rw [if_neg hs, if_pos hs']
      simp [hh]

/-- The fields of a link fit the buffers that `append_tls` uses. -/
structure TlsRoom (link : TunnelLink) : Prop where
  host : link.host.length < tunnelHostSize
  sni : link.sni.length < tunnelHostSize
  alpn : link.alpn.length < tunnelAlpnSize

theorem appendTls_eq (hroom : TlsRoom link) (htls : link.security = .tls) (isIp : Bool) :
    appendTls link isIp = fun b =>
      let b := lit ",\"tlsSettings\":\x7b\"serverName\":" b
      let b := appendString link.sni b
      let b := lit ",\"fingerprint\":" b
      let b := appendString link.fingerprint b
      let b := if link.alpn ≠ [] then appendAlpn link.alpn (lit ",\"alpn\":" b) else b
      let b :=
        if isIp ∧ (link.host ≠ [] ∨ link.sni ≠ []) then
          appendString (certNames link) (lit ",\"verifyPeerCertByName\":" b)
        else b
      lit "\x7d" b := by
  funext b
  unfold appendTls
  rw [if_neg (not_not.mpr htls)]
  dsimp only
  by_cases h : isIp = true ∧ (link.host ≠ [] ∨ link.sni ≠ [])
  · rw [if_pos h, if_pos h, verifyNames_eq hroom.host hroom.sni h.2]
  · rw [if_neg h, if_neg h]

theorem writes_tls (hroom : TlsRoom link) (isIp : Bool) :
    Writes (appendTls link isIp) (Json.memberTexts (tlsMembers link isIp)) := by
  by_cases htls : link.security = .tls
  · have halpn : Writes (fun b => if link.alpn ≠ [] then appendAlpn link.alpn (lit ",\"alpn\":" b) else b)
        (if link.alpn ≠ [] then word ",\"alpn\":" ++ (Json.arr ((alpnParts link.alpn).map .str)).render else []) :=
      ((writes_lit _).andThen (writes_alpn hroom.alpn)).ite writes_id
    have hnames : Writes
        (fun b => if isIp = true ∧ (link.host ≠ [] ∨ link.sni ≠ []) then
          appendString (certNames link) (lit ",\"verifyPeerCertByName\":" b) else b)
        (if isIp = true ∧ (link.host ≠ [] ∨ link.sni ≠ []) then
          word ",\"verifyPeerCertByName\":" ++ Json.quote (certNames link) else []) :=
      ((writes_lit _).andThen (writes_string _)).ite writes_id
    have h := ((((((writes_lit ",\"tlsSettings\":\x7b\"serverName\":").andThen (writes_string link.sni)).andThen
      (writes_lit ",\"fingerprint\":")).andThen (writes_string link.fingerprint)).andThen halpn).andThen hnames).andThen
      (writes_lit "\x7d")
    rw [appendTls_eq hroom htls]
    refine h.of_eq ?_
    unfold tlsMembers Json.memberTexts
    rw [if_pos htls]
    by_cases ha : link.alpn = [] <;> by_cases hn : isIp = true ∧ (link.host ≠ [] ∨ link.sni ≠ []) <;>
    · simp only [ha, hn, if_true, if_false, ne_eq, not_true, not_false_iff, Json.render, Json.renderMembers,
        List.flatMap_cons, List.flatMap_nil, List.append_assoc, List.cons_append, List.nil_append, List.append_nil, word]
      repeat rw [String.toList_ofList]
      rfl
  · have heq : appendTls link isIp = id := by
      funext b
      rw [appendTls, if_pos htls]
      rfl
    rw [heq, tlsMembers, if_neg htls]
    exact writes_id

theorem writes_transport (link : TunnelLink) :
    Writes (appendTransport link) (Json.memberTexts (transportMembers link)) := by
  unfold appendTransport transportMembers Json.memberTexts
  cases link.network with
  | ws =>
    have hhost : Writes
        (fun b => if link.host ≠ [] then
          lit "\x7d" (appendString link.host (lit ",\"headers\":\x7b\"Host\":"
            (appendString link.host (lit ",\"host\":" b)))) else b)
        (if link.host ≠ [] then word ",\"host\":" ++ Json.quote link.host ++ word ",\"headers\":\x7b\"Host\":" ++
          Json.quote link.host ++ word "\x7d" else []) :=
      (((((writes_lit _).andThen (writes_string _)).andThen (writes_lit _)).andThen (writes_string _)).andThen
        (writes_lit _)).ite writes_id
    have h := (((writes_lit ",\"wsSettings\":\x7b\"path\":").andThen (writes_string link.path)).andThen hhost).andThen
      (writes_lit "\x7d")
    refine h.of_eq ?_
    by_cases hh : link.host = [] <;>
    · simp only [hh, if_true, if_false, ne_eq, not_true, not_false_iff, Json.render, Json.renderMembers,
        List.flatMap_cons, List.flatMap_nil, List.append_assoc, List.cons_append, List.nil_append, List.append_nil, word]
      repeat rw [String.toList_ofList]
      rfl
  | grpc =>
    have h := ((((writes_lit ",\"grpcSettings\":\x7b\"serviceName\":").andThen (writes_string link.serviceName)).andThen
      (writes_lit ",\"authority\":")).andThen (writes_string link.host)).andThen
      (writes_raw (ascii ",\"multiMode\":".toList ++
        ascii (if link.grpcMulti then "true" else "false").toList ++ ascii "\x7d".toList))
    refine h.of_eq ?_
    cases link.grpcMulti <;>
    · simp only [Json.render, Json.renderMembers, List.flatMap_cons, List.flatMap_nil, List.append_assoc, List.append_nil,
        word]
      repeat rw [String.toList_ofList]
      rfl
  | xhttp =>
    have h := ((((((writes_lit ",\"xhttpSettings\":\x7b\"host\":").andThen (writes_string link.host)).andThen
      (writes_lit ",\"path\":")).andThen (writes_string link.path)).andThen (writes_lit ",\"mode\":")).andThen
      (writes_string link.mode)).andThen (writes_lit "\x7d")
    refine h.of_eq ?_
    simp only [Json.render, Json.renderMembers, List.flatMap_cons, List.flatMap_nil, List.append_assoc, List.append_nil,
      word]
    repeat rw [String.toList_ofList]
    rfl
  | tcp => exact writes_id

theorem memberTexts_append (ms ms' : List (Bytes × Json)) :
    Json.memberTexts (ms ++ ms') = Json.memberTexts ms ++ Json.memberTexts ms' :=
  List.flatMap_append

/-- Where the probe enters, as a value of JSON. -/
def inboundTree (socksPort : Nat) : Json :=
  .obj [(word "tag", .str (word "socks-in")), (word "listen", .str (word "127.0.0.1")),
    (word "port", .num socksPort), (word "protocol", .str (word "socks")),
    (word "settings", .obj [(word "auth", .str (word "noauth")), (word "udp", .bool false)]),
    (word "sniffing", .obj [(word "enabled", .bool false)])]

def directTree : Json :=
  .obj [(word "tag", .str (word "direct")), (word "protocol", .str (word "freedom")), (word "settings", .obj [])]

def routingTree : Json :=
  .obj [(word "domainStrategy", .str (word "AsIs")),
    (word "rules", .arr [.obj [(word "type", .str (word "field")), (word "network", .str (word "tcp,udp")),
      (word "outboundTag", .str (word "proxy"))]])]

theorem inbound_text (socksPort : Nat) : (inboundTree socksPort).render =
    word "\x7b\"tag\":\"socks-in\",\"listen\":\"127.0.0.1\",\"port\":" ++ (Decimal.render socksPort ++
      word (",\"protocol\":\"socks\",\"settings\":\x7b\"auth\":\"noauth\"," ++
        "\"udp\":false\x7d,\"sniffing\":\x7b\"enabled\":false\x7d\x7d")) := by
  unfold inboundTree
  simp only [Json.render, Json.renderMembers, List.append_assoc, List.cons_append, List.nil_append, word,
    String.toList_append]
  repeat rw [String.toList_ofList]
  rfl

theorem config_head (socksPort : Nat) :
    word "\x7b\"log\":\x7b\"loglevel\":\"none\"\x7d,\"inbounds\":[\x7b" ++
      (ascii "\"tag\":\"socks-in\",\"listen\":\"127.0.0.1\",\"port\":".toList ++
        Decimal.render socksPort ++ ascii (",\"protocol\":\"socks\",\"settings\":\x7b\"auth\":\"noauth\"," ++
          "\"udp\":false\x7d,\"sniffing\":\x7b\"enabled\":false\x7d\x7d]," ++
          "\"outbounds\":[\x7b\"tag\":\"proxy\",\"protocol\":").toList) =
    word "\x7b\"log\":\x7b\"loglevel\":\"none\"\x7d,\"inbounds\":[" ++ ((inboundTree socksPort).render ++
      word "],\"outbounds\":[\x7b\"tag\":\"proxy\",\"protocol\":") := by
  have hjoin : ascii (",\"protocol\":\"socks\",\"settings\":\x7b\"auth\":\"noauth\"," ++
      "\"udp\":false\x7d,\"sniffing\":\x7b\"enabled\":false\x7d\x7d]," ++
      "\"outbounds\":[\x7b\"tag\":\"proxy\",\"protocol\":").toList =
    word (",\"protocol\":\"socks\",\"settings\":\x7b\"auth\":\"noauth\"," ++
      "\"udp\":false\x7d,\"sniffing\":\x7b\"enabled\":false\x7d\x7d") ++
      word "],\"outbounds\":[\x7b\"tag\":\"proxy\",\"protocol\":" := by
    simp only [word, String.toList_append]
    repeat rw [String.toList_ofList]
    rfl
  have hopen : word "\x7b\"log\":\x7b\"loglevel\":\"none\"\x7d,\"inbounds\":[\x7b" ++
      ascii "\"tag\":\"socks-in\",\"listen\":\"127.0.0.1\",\"port\":".toList =
    word "\x7b\"log\":\x7b\"loglevel\":\"none\"\x7d,\"inbounds\":[" ++
      word "\x7b\"tag\":\"socks-in\",\"listen\":\"127.0.0.1\",\"port\":" := by
    simp only [word]
    repeat rw [String.toList_ofList]
    rfl
  rw [inbound_text, hjoin, List.append_assoc, List.append_assoc, ← List.append_assoc, hopen]
  simp only [List.append_assoc]

theorem config_tail : word ("\x7d\x7d,\x7b\"tag\":\"direct\",\"protocol\":\"freedom\",\"settings\":\x7b\x7d\x7d]," ++
      "\"routing\":\x7b\"domainStrategy\":\"AsIs\",\"rules\":[\x7b\"type\":\"field\"," ++
      "\"network\":\"tcp,udp\",\"outboundTag\":\"proxy\"\x7d]\x7d\x7d") =
    word "\x7d\x7d," ++ (directTree.render ++ (word "],\"routing\":" ++ (routingTree.render ++ word "\x7d"))) := by
  unfold directTree routingTree
  simp only [Json.render, Json.renderMembers, Json.renderElements, List.append_assoc, List.cons_append, List.nil_append,
    word, String.toList_append]
  repeat rw [String.toList_ofList]
  rfl

/-- The document that is written is the configuration. -/
theorem writes_config (hroom : TlsRoom link) (candidate secret : Bytes) (socksPort : Nat) (isIp : Bool) :
    Writes (appendConfig link candidate secret socksPort isIp)
      (configTree link candidate secret socksPort isIp).render := by
  have hhead := (writes_lit "\x7b\"log\":\x7b\"loglevel\":\"none\"\x7d,\"inbounds\":[\x7b").andThen
    (writes_raw (ascii "\"tag\":\"socks-in\",\"listen\":\"127.0.0.1\",\"port\":".toList ++
      Decimal.render socksPort ++ ascii (",\"protocol\":\"socks\",\"settings\":\x7b\"auth\":\"noauth\"," ++
        "\"udp\":false\x7d,\"sniffing\":\x7b\"enabled\":false\x7d\x7d]," ++
        "\"outbounds\":[\x7b\"tag\":\"proxy\",\"protocol\":").toList))
  have h := ((((((((((hhead.of_eq (config_head socksPort)).andThen
    (writes_string link.protocol.str)).andThen (writes_lit ",\"settings\":")).andThen
    (writes_user link candidate secret)).andThen (writes_lit ",\"streamSettings\":\x7b\"network\":")).andThen
    (writes_string link.network.str)).andThen (writes_lit ",\"security\":")).andThen
    (writes_string link.security.str)).andThen (writes_tls hroom isIp)).andThen (writes_transport link)).andThen
    ((writes_lit _).of_eq config_tail)
  refine Writes.of_eq h ?_
  show _ = Json.render (.obj [
    (word "log", .obj [(word "loglevel", .str (word "none"))]),
    (word "inbounds", .arr [inboundTree socksPort]),
    (word "outbounds", .arr [
      .obj [(word "tag", .str (word "proxy")), (word "protocol", .str link.protocol.str),
        (word "settings", userTree link candidate secret),
        (word "streamSettings", .obj ((word "network", .str link.network.str) ::
          (word "security", .str link.security.str) :: (tlsMembers link isIp ++ transportMembers link)))],
      directTree]),
    (word "routing", routingTree)])
  simp only [Json.render, Json.renderMembers, Json.renderElements, Json.renderMembers_eq (_ ++ _), memberTexts_append,
    List.append_assoc, List.cons_append, List.nil_append, word]
  repeat rw [String.toList_ofList]
  rfl

end Texts

end Qanat

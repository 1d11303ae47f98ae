import Qanat.TunnelReady
import Qanat.StoreInet

namespace Qanat

/-- `inet_pton` accepts only texts of hexadecimal digits, colons and dots. -/
def InetText.Strict (inet : InetText) : Prop :=
  ∀ t, (inet.pton4 t).isSome ∨ (inet.pton6 t).isSome → ∀ c ∈ t, isXDigit c = true ∨ c = chColon ∨ c = chDot

section Candidate

variable {inet : InetText} {candidate : Bytes} {isIp : Bool}

theorem isXDigit_printable {c : UInt8} (h : isXDigit c = true) : 0x20 ≤ c ∧ c < 0x7F := by
  simp only [isXDigit, isDigit, Bool.or_eq_true, Bool.and_eq_true, decide_eq_true_eq] at h
  obtain (h | h) | h := h <;>
  exact ⟨UInt8.le_trans (by decide) h.1, UInt8.lt_of_le_of_lt h.2 (by decide)⟩

theorem candidateValid_fits (hi : inet.Strict) (h : candidateValid inet candidate = some isIp) :
    TextFits tunnelHostSize candidate := by
  unfold candidateValid at h
  split at h
  next => cases h
  next hlen =>
    rw [not_or, tunnelHostMax] at hlen
    split at h
    next hpton =>
      refine ⟨by unfold tunnelHostSize; omega, utf8Valid_of_printable fun c hc => ?_⟩
      obtain hc | rfl | rfl := hi candidate hpton c hc
      · exact isXDigit_printable hc
      · decide
      · decide
    next =>
      split at h
      next hhost => exact (validHostname_fits hhost).2
      next => cases h

end Candidate

section Parts

theorem sum_parts_le (s : Bytes) : (((s.splitOn chComma).filter (· ≠ [])).map fun p => 6 * p.length + 3).sum ≤ 9 * s.length := by
  have hjoin : ∀ ls : List Bytes, ((ls.filter (· ≠ [])).map fun p => 6 * p.length + 3).sum ≤
      9 * ([chComma].intercalate ls).length := by
    intro ls
    induction ls with
    | nil => exact Nat.zero_le _
    | cons l ls ih =>
      have hlen : l.length + ([chComma].intercalate ls).length ≤ ([chComma].intercalate (l :: ls)).length := by
        cases ls with
        | nil => simp [List.intercalate]
        | cons l' ls =>
          rw [List.intercalate_cons_cons, List.length_append, List.length_append]
          omega
      by_cases hl : l = []
      · rw [List.filter_cons_of_neg (by simp [hl])]
        omega
      · have hpos := List.length_pos_iff.mpr hl
        rw [List.filter_cons_of_pos (by simp [hl]), List.map_cons, List.sum_cons]
        omega
  have h := hjoin (s.splitOn chComma)
  rw [List.intercalate_splitOn] at h
  exact h

theorem mem_alpnParts {alpn part : Bytes} (h : part ∈ alpnParts alpn) : ∀ c ∈ part, c ∈ alpn := by
  intro c hc
  have hmem := (List.mem_filter.mp h).1
  have hjoin : ∀ ls : List Bytes, part ∈ ls → c ∈ [chComma].intercalate ls := by
    intro ls
    induction ls with
    | nil => exact fun h => absurd h List.not_mem_nil
    | cons l ls ih =>
      intro hl
      cases ls with
      | nil =>
        rw [List.mem_singleton] at hl
        subst hl
        simpa [List.intercalate] using hc
      | cons l' ls =>
        rw [List.intercalate_cons_cons, List.mem_append, List.mem_append]
        obtain rfl | hl := List.mem_cons.mp hl
        · exact .inl (.inl hc)
        · exact .inr (ih hl)
  have := hjoin _ hmem
  rwa [List.intercalate_splitOn] at this

end Parts

section Document

variable {link : TunnelLink} {candidate secret : Bytes} {isIp : Bool}

theorem certNames_facts (h : LinkTexts link) :
    (certNames link).length < 2 * tunnelHostSize ∧ utf8Valid (certNames link) = true := by
  have hh := h.host.length
  have hs := h.sni.length
  unfold certNames
  split
  next => exact ⟨by omega, h.sni.valid⟩
  next =>
    split
    next => exact ⟨by omega, h.host.valid⟩
    next =>
      refine ⟨?_, utf8Valid_append h.host.valid (utf8Valid_cons (by decide) h.sni.valid)⟩
      rw [List.length_append, List.length_cons]
      unfold tunnelHostSize at *
      omega

theorem bound_user (h : LinkTexts link) (hc : candidate.length < tunnelHostSize)
    (hs : secret.length < tunnelSecretSize) : (userTree link candidate secret).bound ≤ 4000 := by
  have hp := Decimal.length_render_le (k := 5) (by decide) (h.port_lt.trans (by decide))
  have hf := h.flow.length
  unfold tunnelHostSize at hc
  unfold tunnelSecretSize at hs
  unfold tunnelFlowSize at hf
  unfold userTree
  by_cases hv : link.protocol = .vless <;> by_cases hn : link.flow = [] <;> by_cases ht : link.protocol = .trojan <;>
  · simp [hv, hn, ht, Json.bound, Json.boundMembers, Json.boundElements, word, ascii]
    omega

theorem bound_alpn (h : LinkTexts link) :
    Json.boundMembers (if link.alpn = [] then [] else [(word "alpn", .arr ((alpnParts link.alpn).map .str))]) ≤ 1200 := by
  have ha := h.alpn.length
  have hparts : ((alpnParts link.alpn).map fun s : List UInt8 => 6 * s.length + 3).sum ≤ 9 * link.alpn.length :=
    sum_parts_le link.alpn
  have hkey : (word "alpn").length = 4 := rfl
  unfold tunnelAlpnSize at ha
  split
  next => exact Nat.zero_le _
  next =>
    rw [Json.boundMembers, Json.bound, Json.boundElements_strings, Json.boundMembers]
    omega

theorem bound_names (h : LinkTexts link) (isIp : Bool) :
    Json.boundMembers (if isIp ∧ (link.host ≠ [] ∨ link.sni ≠ []) then
      [(word "verifyPeerCertByName", .str (certNames link))] else []) ≤ 3200 := by
  have hnames := (certNames_facts h).1
  have hkey : (word "verifyPeerCertByName").length = 20 := rfl
  unfold tunnelHostSize at hnames
  split
  next =>
    rw [Json.boundMembers, Json.bound, Json.boundMembers]
    omega
  next => exact Nat.zero_le _

theorem bound_tls (h : LinkTexts link) (isIp : Bool) : Json.boundMembers (tlsMembers link isIp) ≤ 6700 := by
  have hs := h.sni.length
  have hf := h.fingerprint.length
  have halpn := bound_alpn h
  have hnames := bound_names h isIp
  have hkey₁ : (word "tlsSettings").length = 11 := rfl
  have hkey₂ : (word "serverName").length = 10 := rfl
  have hkey₃ : (word "fingerprint").length = 11 := rfl
  unfold tunnelHostSize at hs
  unfold tunnelTokenSize at hf
  unfold tlsMembers
  split
  next =>
    rw [Json.boundMembers, Json.bound, Json.boundMembers_append, Json.boundMembers_append, Json.boundMembers,
      Json.boundMembers, Json.bound, Json.boundMembers, Json.bound, Json.boundMembers]
    omega
  next => exact Nat.zero_le _

theorem bound_transport (h : LinkTexts link) : Json.boundMembers (transportMembers link) ≤ 9000 := by
  have hp := h.path.length
  have hh := h.host.length
  have hm := h.mode.length
  have hs := h.serviceName.length
  unfold tunnelPathSize at hp
  unfold tunnelHostSize at hh
  unfold tunnelTokenSize at hm
  unfold tunnelServiceSize at hs
  unfold transportMembers
  split
  next =>
    split
    next =>
      simp [Json.bound, Json.boundMembers, word, ascii]
      omega
    next =>
      simp [Json.bound, Json.boundMembers, word, ascii]
      omega
  next =>
    simp [Json.bound, Json.boundMembers, word, ascii]
    omega
  next =>
    simp [Json.bound, Json.boundMembers, word, ascii]
    omega
  next => exact Nat.zero_le _

theorem bound_config (h : LinkTexts link) (hc : candidate.length < tunnelHostSize)
    (hs : secret.length < tunnelSecretSize) (socksPort : UInt16) (isIp : Bool) :
    (configTree link candidate secret socksPort.toNat isIp).bound < tunnelConfigMax := by
  have hport := Decimal.length_render_le (k := 5) (by decide) (socksPort.toNat_lt.trans (by decide))
  have huser := bound_user h hc hs
  have htls := bound_tls h isIp
  have htransport := bound_transport h
  have hprotocol : link.protocol.str.length ≤ 6 := by cases link.protocol <;> decide
  have hnetwork : link.network.str.length ≤ 5 := by cases link.network <;> decide
  have hsecurity : link.security.str.length ≤ 4 := by cases link.security <;> decide
  unfold tunnelConfigMax configTree
  simp [Json.bound, Json.boundMembers, Json.boundElements, Json.boundMembers_append, word, ascii]
  omega

theorem all_user (h : LinkTexts link) (hc : utf8Valid candidate = true) (hs : utf8Valid secret = true) :
    (userTree link candidate secret).All (utf8Valid · = true) := by
  have hf := h.flow.valid
  unfold userTree
  by_cases ht : link.protocol = .trojan <;> by_cases hv : link.protocol = .vless <;> by_cases hn : link.flow = [] <;>
  · simp only [ht, hv, hn, if_true, if_false, Json.All, Json.AllMembers, Json.AllElements, reduceCtorEq]
    repeat' apply And.intro
    all_goals first | exact True.intro | exact utf8Valid_of_all rfl | assumption

theorem all_tls (h : LinkTexts link) (ha : ∀ c ∈ link.alpn, 0x20 ≤ c ∧ c < 0x7F) (isIp : Bool) :
    Json.AllMembers (utf8Valid · = true) (tlsMembers link isIp) := by
  have hsni := h.sni.valid
  have hfingerprint := h.fingerprint.valid
  have hnames := (certNames_facts h).2
  have hparts : Json.AllElements (utf8Valid · = true) ((alpnParts link.alpn).map .str) :=
    Json.allElements_strings fun part hpart =>
      utf8Valid_of_printable fun c hcp => ha c (mem_alpnParts hpart c hcp)
  have halpn : Json.AllMembers (utf8Valid · = true)
      (if link.alpn = [] then [] else [(word "alpn", .arr ((alpnParts link.alpn).map .str))]) := by
    split
    next => trivial
    next => exact ⟨rfl, hparts, trivial⟩
  have hverify : Json.AllMembers (utf8Valid · = true)
      (if isIp ∧ (link.host ≠ [] ∨ link.sni ≠ []) then
        [(word "verifyPeerCertByName", .str (certNames link))] else []) := by
    split
    next => exact ⟨utf8Valid_of_all rfl, hnames, trivial⟩
    next => trivial
  unfold tlsMembers
  split
  next =>
    simp only [Json.All, Json.AllMembers, Json.allMembers_append]
    repeat' apply And.intro
    all_goals first | exact True.intro | exact utf8Valid_of_all rfl | assumption
  next => trivial

theorem all_transport (h : LinkTexts link) : Json.AllMembers (utf8Valid · = true) (transportMembers link) := by
  have hpath := h.path.valid
  have hhost := h.host.valid
  have hmode := h.mode.valid
  have hservice := h.serviceName.valid
  unfold transportMembers
  by_cases hh : link.host = [] <;> cases link.network <;>
  · simp only [hh, if_true, if_false, Json.All, Json.AllMembers]
    repeat' apply And.intro
    all_goals first | exact True.intro | exact utf8Valid_of_all rfl | assumption

/-- The texts of the configuration are valid. -/
theorem all_config (h : LinkTexts link) (ha : ∀ c ∈ link.alpn, 0x20 ≤ c ∧ c < 0x7F)
    (hc : utf8Valid candidate = true) (hs : utf8Valid secret = true) (socksPort : Nat) (isIp : Bool) :
    (configTree link candidate secret socksPort isIp).All (utf8Valid · = true) := by
  have hprotocol : utf8Valid link.protocol.str = true := by cases link.protocol <;> exact utf8Valid_of_all rfl
  have hnetwork : utf8Valid link.network.str = true := by cases link.network <;> exact utf8Valid_of_all rfl
  have hsecurity : utf8Valid link.security.str = true := by cases link.security <;> exact utf8Valid_of_all rfl
  have huser := all_user h hc hs
  have htls := all_tls h ha isIp
  have htransport := all_transport h
  unfold configTree
  simp only [Json.All, Json.AllMembers, Json.AllElements, Json.allMembers_append]
  repeat' apply And.intro
  all_goals first | exact True.intro | exact utf8Valid_of_all rfl | assumption

end Document

section Plain

theorem readOctet_digits {t : Bytes} {v : Nat} (h : readOctet t = some v) : ∀ c ∈ t, isXDigit c = true := by
  have hall : ∀ v : Fin 256, (octetStr v).all isXDigit = true := by decide +kernel
  have hv : octetStr v = t := by simpa using List.find?_some h
  have hlt := List.mem_range.mp (List.mem_of_find?_eq_some h)
  rw [← hv]
  exact List.all_eq_true.mp (hall ⟨v, hlt⟩)

theorem readQuad_chars {t : Bytes} {a : UInt32} (h : readQuad t = some a) : ∀ c ∈ t, isXDigit c = true ∨ c = chDot := by
  unfold readQuad at h
  split at h
  next o₃ o₂ o₁ o₀ hsplit =>
    simp only [Option.bind_eq_bind, Option.bind_eq_some_iff] at h
    obtain ⟨v₃, h₃, v₂, h₂, v₁, h₁, v₀, h₀, -⟩ := h
    have hjoin : [chDot].intercalate (t.splitOn chDot) = t := List.intercalate_splitOn chDot
    rw [hsplit] at hjoin
    intro c hc
    rw [← hjoin] at hc
    simp only [List.intercalate_cons_cons, List.intercalate_singleton, List.mem_append, List.mem_singleton] at hc
    obtain ((hc | hc) | ((hc | hc) | ((hc | hc) | hc))) := hc
    · exact .inl (readOctet_digits h₃ c hc)
    · exact .inr hc
    · exact .inl (readOctet_digits h₂ c hc)
    · exact .inr hc
    · exact .inl (readOctet_digits h₁ c hc)
    · exact .inr hc
    · exact .inl (readOctet_digits h₀ c hc)
  next => cases h

theorem plainInet_strict : plainInet.Strict := by
  have hhex : ∀ v : Fin 16, isXDigit (hexChar v) = true := by decide
  rintro t (h | h) c hc
  · obtain ⟨a, ha⟩ := Option.isSome_iff_exists.mp h
    exact (readQuad_chars ha c hc).imp_right .inr
  · have ht : groupsStr (groupsOf t) = t := by
      by_contra hne
      rw [show plainInet.pton6 t = readGroups t from rfl, readGroups, if_neg hne] at h
      cases h
    rw [← ht] at hc
    obtain rfl | ⟨v, rfl⟩ := mem_groupsStr hc
    · exact .inr (.inl rfl)
    · exact .inl (hhex v)

end Plain

section Build

variable {inet : InetText} {link : TunnelLink} {candidate : Bytes} {isIp : Bool} {socksPort : UInt16}

theorem linkValid_ready (h : LinkReady link) (mode : TunnelConfigMode) : linkValid link mode = true := by
  have htls : (link.security != .tls || (link.sni != [] && (mode == .template || validHostname link.sni))) = true := by
    by_cases hs : link.security = .tls
    · obtain ⟨hne, hv⟩ := h.tls hs
      simp [hne, hv]
    · simp [hs]
  have hflow : (link.flow == [] || (link.protocol == .vless && link.network == .tcp && link.security == .tls)) = true := by
    by_cases hf : link.flow = []
    · simp [hf]
    · obtain ⟨hp, hn, hs⟩ := h.flow_tls hf
      simp [hp, hn, hs]
  have hport : (link.port != 0) = true := by simpa using h.port
  have haddr : (link.address != []) = true := by simpa using h.address
  rw [linkValid, hport, haddr, htls, h.transport, h.modes, hflow]
  rfl

theorem configSecret_fits (h : LinkTexts link) (mode : TunnelConfigMode) :
    TextFits tunnelSecretSize (configSecret link mode) := by
  cases mode with
  | live => exact h.secret
  | redacted =>
    rw [configSecret]
    exact ⟨by decide, utf8Valid_of_all rfl⟩
  | template =>
    rw [configSecret]
    split <;> exact ⟨by decide, utf8Valid_of_all rfl⟩

/-- A link that `link_valid` lets through is built, into the text of its configuration. -/
theorem tunnelConfigBuild_valid {mode : TunnelConfigMode} (h : LinkTexts link) (hv : linkValid link mode = true)
    (hs : mode = .live → link.secret ≠ []) (hlen : candidate.length < tunnelHostSize)
    (hc : candidateValid inet candidate = some isIp) (hp : socksPort ≠ 0) :
    tunnelConfigBuild inet ⟨link, candidate, socksPort, mode⟩ tunnelConfigMax =
      .ok (configTree link candidate (configSecret link mode) socksPort.toNat isIp).render := by
  have hsecret := (configSecret_fits h mode).length
  have hbound := bound_config h hlen hsecret socksPort isIp
  have hroom := (Json.length_render_le _).trans_lt hbound
  have hwrite := writes_config ⟨h.host.length, h.sni.length, h.alpn.length⟩ candidate (configSecret link mode)
    socksPort.toNat isIp ⟨[], tunnelConfigMax, false⟩ rfl (by rw [List.length_nil, Nat.zero_add]; exact hroom)
  unfold tunnelConfigBuild
  rw [if_neg (by simp [hv, hp, tunnelConfigMax])]
  simp only [hc]
  rw [if_neg (fun hno => hs hno.1 hno.2), hwrite]
  rfl

theorem tunnelConfigBuild_ready (h : LinkReady link) (hlen : candidate.length < tunnelHostSize)
    (hc : candidateValid inet candidate = some isIp) (hp : socksPort ≠ 0) (mode : TunnelConfigMode) :
    tunnelConfigBuild inet ⟨link, candidate, socksPort, mode⟩ tunnelConfigMax =
      .ok (configTree link candidate (configSecret link mode) socksPort.toNat isIp).render :=
  tunnelConfigBuild_valid h.toLinkTexts (linkValid_ready h mode) (fun _ => h.secret_ne) hlen hc hp

theorem configSecret_hidden {mode : TunnelConfigMode} (hm : mode ≠ .live) (secret : Bytes) :
    configSecret { link with secret := secret } mode = configSecret link mode := by
  cases mode with
  | live => exact absurd rfl hm
  | redacted => rfl
  | template => rfl

/-- A link that is accepted is built in every mode into valid JSON of its fields, and only a live one tells the secret. -/
theorem tunnel_config_of_link {input : Bytes} (hi : inet.Strict) (h : tunnelLinkParse inet input = .ok link)
    (hc : candidateValid inet candidate = some isIp) (hp : socksPort ≠ 0) (mode : TunnelConfigMode) :
    ∃ out, tunnelConfigBuild inet ⟨link, candidate, socksPort, mode⟩ tunnelConfigMax = .ok out ∧
      utf8Valid out = true ∧
      Json.read out = some (configTree link candidate (configSecret link mode) socksPort.toNat isIp) ∧
      (mode ≠ .live → ∀ input' link', tunnelLinkParse inet input' = .ok link' →
        link' = { link with secret := link'.secret } →
        tunnelConfigBuild inet ⟨link', candidate, socksPort, mode⟩ tunnelConfigMax = .ok out) := by
  have hready := tunnelLinkParse_ready h
  have hfits := candidateValid_fits hi hc
  refine ⟨_, tunnelConfigBuild_ready hready hfits.length hc hp mode, ?_, Json.read_render _, ?_⟩
  · exact Json.render_of_all utf8Valid_spreads _
      (all_config hready.toLinkTexts hready.alpn_chars hfits.valid (configSecret_fits hready.toLinkTexts mode).valid _ _)
  · intro hm input' link' h' hsame
    rw [tunnelConfigBuild_ready (tunnelLinkParse_ready h') hfits.length hc hp mode, hsame, configSecret_hidden hm]
    rfl

def sampleLink : TunnelLink :=
  ⟨.trojan, .tcp, .tls, 443, false, word "p\"s\\s", word "origin.example", word "origin.example", word "origin.example", [],
    [], [], word "chrome", [], word "auto"⟩

theorem tunnelLinkParse_sampleLink :
    tunnelLinkParse plainInet (word "trojan://p%22s%5Cs@origin.example:443?type=tcp&security=tls") = .ok sampleLink := by
  decide +kernel

theorem tunnel_config_of_sampleLink :
    ∃ out, tunnelConfigBuild plainInet ⟨sampleLink, word "192.0.2.1", 1080, .live⟩ tunnelConfigMax = .ok out ∧
      Json.read out = some (configTree sampleLink (word "192.0.2.1") (word "p\"s\\s") 1080 true) := by
  obtain ⟨out, hout, -, hread, -⟩ := tunnel_config_of_link plainInet_strict tunnelLinkParse_sampleLink
    (show candidateValid plainInet (word "192.0.2.1") = some true by decide +kernel)
    (show (1080 : UInt16) ≠ 0 by decide) .live
  exact ⟨out, hout, hread⟩

end Build

end Qanat

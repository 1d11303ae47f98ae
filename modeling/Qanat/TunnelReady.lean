import Qanat.TunnelFields

namespace Qanat

section Hostname

theorem hostLoop_chars {label : Nat} {numeric : Bool} {prev : UInt8} {s : Bytes} {r : Nat × Bool}
    (h : hostLoop label numeric prev s = some r) : ∀ c ∈ s, isAlnum c = true ∨ c = chDash ∨ c = chDot := by
  induction s generalizing label numeric prev with
  | nil => exact fun c hc => absurd hc List.not_mem_nil
  | cons x s ih =>
    rw [hostLoop] at h
    intro c hc
    split at h
    next hx =>
      split at h
      next => cases h
      next =>
        obtain rfl | hc := List.mem_cons.mp hc
        · exact .inr (.inr hx)
        · exact ih h c hc
    next =>
      split at h
      next => cases h
      next hx =>
        rw [Bool.not_eq_true, Bool.not_eq_false', Bool.or_eq_true, beq_iff_eq] at hx
        split at h
        next => cases h
        next =>
          obtain rfl | hc := List.mem_cons.mp hc
          · exact hx.imp_right .inl
          · exact ih h c hc

theorem isAlnum_printable {c : UInt8} (h : isAlnum c = true) : 0x20 ≤ c ∧ c < 0x7F := by
  simp only [isAlnum, isDigit, isUpper, Bool.or_eq_true, Bool.and_eq_true, decide_eq_true_eq] at h
  obtain (h | h) | h := h <;>
  exact ⟨UInt8.le_trans (by decide) h.1, UInt8.lt_of_le_of_lt h.2 (by decide)⟩

theorem validHostname_fits {name : Bytes} (h : validHostname name = true) : name ≠ [] ∧ TextFits tunnelHostSize name := by
  unfold validHostname at h
  simp only [Bool.and_eq_true, bne_iff_ne, decide_eq_true_eq] at h
  obtain ⟨⟨⟨hne, hlen⟩, -⟩, hloop⟩ := h
  refine ⟨hne, Nat.lt_succ_of_le hlen, utf8Valid_of_printable fun c hc => ?_⟩
  split at hloop
  next hsome =>
    obtain hc | rfl | rfl := hostLoop_chars hsome c hc
    · exact isAlnum_printable hc
    · decide
    · decide
  next => cases hloop

theorem asciiToken_valid {value : Bytes} {comma slash : Bool} (h : asciiToken value comma slash = true) :
    ∀ c ∈ value, 0x20 ≤ c ∧ c < 0x7F := by
  intro c hc
  unfold asciiToken at h
  rw [Bool.and_eq_true, List.all_eq_true] at h
  have := h.2 c hc
  simp only [Bool.or_eq_true, Bool.and_eq_true, beq_iff_eq] at this
  obtain ((((h | rfl) | rfl) | rfl) | ⟨-, rfl⟩) | ⟨-, rfl⟩ := this
  · exact isAlnum_printable h
  · decide
  · decide
  · decide
  · decide
  · decide

end Hostname

section Finish

variable {inet : InetText} {link link' : TunnelLink} {seen : List LinkField}

theorem validEndpointHost_ne {value : Bytes} (h : validEndpointHost inet value = true) : value ≠ [] := by
  rintro rfl
  unfold validEndpointHost storeAddrParse at h
  rw [if_pos rfl] at h
  exact absurd h (by decide)

theorem finishEndpoint_ok (h : finishEndpoint inet link = .ok ()) :
    link.address ≠ [] ∧ link.port ≠ 0 ∧ link.secret ≠ [] := by
  unfold finishEndpoint at h
  split at h
  next => cases h
  next haddr =>
    split at h
    next => cases h
    next hport =>
      split at h
      next => cases h
      next huuid =>
        split at h
        next => cases h
        next htrojan =>
          rw [Bool.not_eq_true, Bool.not_eq_false'] at haddr
          refine ⟨validEndpointHost_ne haddr, hport, fun hs => ?_⟩
          by_cases hp : link.protocol = .trojan
          · exact htrojan ⟨hp, hs⟩
          · refine huuid ⟨hp, ?_⟩
            rw [hs]
            rfl

/-- What `finish_link` does with the names. -/
theorem finishNames_ok (ht : LinkTexts link) (h : finishNames inet link = .ok link') :
    ∃ s n, link' = { link with sni := s, host := n } ∧ TextFits tunnelHostSize s ∧ TextFits tunnelHostSize n ∧
      (link.security = .tls → s ≠ [] ∧ validHostname s = true) := by
  unfold finishNames at h
  obtain ⟨l₁, h₁, h⟩ := Outcome.bind_ok h
  obtain ⟨l₂, h₂, h⟩ := Outcome.bind_ok h
  obtain ⟨s, rfl, hs⟩ : ∃ s, l₁ = { link with sni := s } ∧ TextFits tunnelHostSize s := by
    unfold finishSni at h₁
    split at h₁
    next =>
      dsimp only at h₁
      generalize (if validHostname link.host = true then link.host else link.address) = name at h₁
      split at h₁
      next hvalid =>
        obtain ⟨rfl, -⟩ := copied h₁
        exact ⟨_, rfl, (validHostname_fits hvalid).2⟩
      next => exact ⟨_, (Except.ok.inj h₁).symm, ht.sni⟩
    next => exact ⟨_, (Except.ok.inj h₁).symm, ht.sni⟩
  obtain ⟨n, rfl, hn⟩ : ∃ n, l₂ = { link with sni := s, host := n } ∧ TextFits tunnelHostSize n := by
    unfold finishHost at h₂
    split at h₂
    next =>
      obtain ⟨rfl, -⟩ := copied h₂
      exact ⟨_, rfl, hs⟩
    next => exact ⟨_, (Except.ok.inj h₂).symm, ht.host⟩
  split at h
  next => cases h
  next htls =>
    split at h
    next => cases h
    next =>
      refine ⟨s, n, (Except.ok.inj h).symm, hs, hn, fun hsec => ?_⟩
      constructor
      · exact fun he => htls ⟨hsec, .inl he⟩
      · by_contra hv
        exact htls ⟨hsec, .inr (by simpa using hv)⟩

theorem utf8Valid_tail {s : Bytes} (h : utf8Valid s = true) (hs : s.head? = some chSlash) : utf8Valid s.tail = true := by
  cases s with
  | nil => cases hs
  | cons c t =>
    obtain rfl : c = chSlash := Option.some.inj hs
    rw [utf8Valid.eq_def] at h
    dsimp only at h
    rw [if_neg (by decide), if_pos (by decide)] at h
    exact h

theorem finishService_ok (ht : LinkTexts link) (h : finishService link = .ok link') :
    (link.network = .grpc ∧ ∃ v, link' = { link with serviceName := v, path := [] } ∧ TextFits tunnelServiceSize v) ∨
      (link' = link ∧ ¬(link.network = .grpc ∧ link.serviceName = [] ∧ link.path ≠ [])) := by
  unfold finishService at h
  split at h
  next hc =>
    refine .inl ⟨hc.1, ?_⟩
    dsimp only at h
    have hvalid : utf8Valid (if link.path.head? = some chSlash then link.path.tail else link.path) = true := by
      split
      next hs => exact utf8Valid_tail ht.path.valid hs
      next => exact ht.path.valid
    generalize (if link.path.head? = some chSlash then link.path.tail else link.path) = service at h hvalid
    obtain ⟨rfl, hlen⟩ := copied h
    exact ⟨service, rfl, hlen, hvalid⟩
  next hc => exact .inr ⟨(Except.ok.inj h).symm, hc⟩

/-- What `finish_link` does with the path and the name of a service. -/
theorem finishTransport_ok (ht : LinkTexts link) (hs : LinkSeen link seen) (h : finishTransport link seen = .ok link') :
    ∃ p v, link' = { link with path := p, serviceName := v } ∧ TextFits tunnelPathSize p ∧
      TextFits tunnelServiceSize v ∧ transportFieldsValid link' = true := by
  unfold finishTransport at h
  obtain ⟨l₁, h₁, h⟩ := Outcome.bind_ok h
  obtain ⟨p, rfl, hp⟩ : ∃ p, l₁ = { link with path := p } ∧ TextFits tunnelPathSize p := by
    unfold finishPath at h₁
    split at h₁
    next =>
      obtain ⟨rfl, hlen⟩ := copied h₁
      exact ⟨_, rfl, hlen, by decide⟩
    next => exact ⟨_, (Except.ok.inj h₁).symm, ht.path⟩
  have ht₁ : LinkTexts { link with path := p } :=
    ⟨ht.secret, ht.sni, ht.host, hp, ht.flow, ht.alpn, ht.fingerprint, ht.serviceName, ht.mode, ht.port_lt⟩
  split at h
  next => cases h
  next hslash =>
    obtain ⟨l₂, h₂, h⟩ := Outcome.bind_ok h
    split at h
    next => cases h
    next htcp =>
      split at h
      next => cases h
      next hother =>
        split at h
        next => cases h
        next hgrpc =>
          rw [← Except.ok.inj h]
          obtain ⟨hn, v, rfl, hv⟩ | ⟨rfl, hkept⟩ := finishService_ok ht₁ h₂
          · refine ⟨[], v, rfl, textFits_nil (by decide), hv, ?_⟩
            dsimp only at hn
            simp only [transportFieldsValid, hn, beq_self_eq_true]
          · refine ⟨p, link.serviceName, rfl, hp, ht.serviceName, ?_⟩
            dsimp only at hslash htcp hother hgrpc hkept
            have hplain : link.network ≠ .grpc → link.serviceName = [] ∧ link.grpcMulti = false := by
              intro hne
              refine ⟨?_, ?_⟩
              · by_contra hsv
                exact hother ⟨hne, .inl (hs.service hsv)⟩
              · by_contra hm
                exact hother ⟨hne, .inr (hs.multi (by simpa using hm))⟩
            have hpath : link.network.hasPath = true → p.head? = some chSlash := by
              intro hp
              by_contra hno
              exact hslash ⟨hp, hno⟩
            unfold transportFieldsValid
            cases hn : link.network with
            | ws =>
              obtain ⟨hsv, hm⟩ := hplain (by rw [hn]; exact nofun)
              simp [hsv, hm, hpath (by rw [hn]; rfl)]
            | grpc =>
              have hempty : p = [] := by
                by_contra hne
                by_cases hsv : link.serviceName = []
                · exact hkept ⟨hn, hsv, hne⟩
                · exact hgrpc ⟨hn, hne, hs.service hsv⟩
              simp [hempty]
            | xhttp =>
              obtain ⟨hsv, hm⟩ := hplain (by rw [hn]; exact nofun)
              simp [hsv, hm, hpath (by rw [hn]; rfl)]
            | tcp =>
              obtain ⟨hsv, hm⟩ := hplain (by rw [hn]; exact nofun)
              have hempty : p = [] := by
                by_contra hne
                exact htcp ⟨hn, hne⟩
              simp [hsv, hm, hempty]

/-- The texts that `finish_link` wants to be tokens, and the fingerprint that it fills in. -/
theorem finishTokens_ok (ht : LinkTexts link) (hs : link.flow ≠ [] → .flow ∈ seen)
    (h : finishTokens link seen = .ok link') :
    ∃ v, link' = { link with fingerprint := v } ∧ TextFits tunnelTokenSize v ∧
      (link.flow ≠ [] → link.protocol = .vless ∧ link.network = .tcp ∧ link.security = .tls) ∧
      ∀ c ∈ link.alpn, 0x20 ≤ c ∧ c < 0x7F := by
  unfold finishTokens at h
  split at h
  next => cases h
  next =>
    split at h
    next => cases h
    next hflow =>
      split at h
      next => cases h
      next =>
        split at h
        next => cases h
        next halpn =>
          have hflow' : link.flow ≠ [] → link.protocol = .vless ∧ link.network = .tcp ∧ link.security = .tls := by
            intro hne
            by_contra hbad
            exact hflow ⟨hs hne, hne, by tauto⟩
          have halpn' : ∀ c ∈ link.alpn, 0x20 ≤ c ∧ c < 0x7F := by
            intro c hc
            refine @asciiToken_valid _ true true ?_ c hc
            by_contra hno
            exact halpn ⟨fun he => absurd (he ▸ hc) List.not_mem_nil, .inl (by simpa using hno)⟩
          split at h
          next => cases h
          next =>
            split at h
            next =>
              obtain ⟨rfl, hlen⟩ := copied h
              exact ⟨_, rfl, ⟨hlen, utf8Valid_of_all rfl⟩, hflow', halpn'⟩
            next => exact ⟨_, (Except.ok.inj h).symm, ht.fingerprint, hflow', halpn'⟩

theorem finishMode_ok (ht : LinkTexts link) (h : finishMode link = .ok link') :
    ∃ v, link' = { link with mode := v } ∧ TextFits tunnelTokenSize v ∧ modeValid link' = true := by
  unfold finishMode at h
  obtain ⟨l₁, h₁, h⟩ := Outcome.bind_ok h
  obtain ⟨v, rfl, hv⟩ : ∃ v, l₁ = { link with mode := v } ∧ TextFits tunnelTokenSize v := by
    unfold finishModeName at h₁
    split at h₁
    next =>
      obtain ⟨rfl, hlen⟩ := copied h₁
      exact ⟨_, rfl, hlen, rfl⟩
    next => exact ⟨_, (Except.ok.inj h₁).symm, ht.mode⟩
  split at h
  next => cases h
  next hx =>
    split at h
    next => cases h
    next ha =>
      refine ⟨v, (Except.ok.inj h).symm, hv, ?_⟩
      rw [← Except.ok.inj h]
      unfold modeValid
      by_cases hn : link.network = .xhttp
      · rw [if_pos hn]
        by_contra hno
        exact hx ⟨hn, by simpa using hno⟩
      · rw [if_neg hn]
        by_contra hno
        exact ha ⟨hn, by simpa using hno⟩

/-- A link that `finish_link` has let through. -/
structure LinkReady (link : TunnelLink) : Prop extends LinkTexts link where
  address : link.address ≠ []
  port : link.port ≠ 0
  secret_ne : link.secret ≠ []
  tls : link.security = .tls → link.sni ≠ [] ∧ validHostname link.sni = true
  transport : transportFieldsValid link = true
  modes : modeValid link = true
  flow_tls : link.flow ≠ [] → link.protocol = .vless ∧ link.network = .tcp ∧ link.security = .tls
  alpn_chars : ∀ c ∈ link.alpn, 0x20 ≤ c ∧ c < 0x7F

theorem finishLink_ready (ht : LinkTexts link) (hs : LinkSeen link seen) (h : finishLink inet link seen = .ok link') :
    LinkReady link' := by
  unfold finishLink at h
  obtain ⟨_, h₀, h⟩ := Outcome.bind_ok h
  obtain ⟨l₁, h₁, h⟩ := Outcome.bind_ok h
  obtain ⟨l₂, h₂, h⟩ := Outcome.bind_ok h
  obtain ⟨l₃, h₃, h₄⟩ := Outcome.bind_ok h
  obtain ⟨haddr, hport, hsecret⟩ := finishEndpoint_ok h₀
  obtain ⟨sni, host, rfl, hsni, hhost, htls⟩ := finishNames_ok ht h₁
  have ht₁ : LinkTexts { link with sni := sni, host := host } :=
    ⟨ht.secret, hsni, hhost, ht.path, ht.flow, ht.alpn, ht.fingerprint, ht.serviceName, ht.mode, ht.port_lt⟩
  obtain ⟨path, service, rfl, hpath, hservice, htransport⟩ :=
    finishTransport_ok ht₁ ⟨hs.service, hs.multi, hs.flow⟩ h₂
  have ht₂ : LinkTexts { link with sni := sni, host := host, path := path, serviceName := service } :=
    ⟨ht.secret, hsni, hhost, hpath, ht.flow, ht.alpn, ht.fingerprint, hservice, ht.mode, ht.port_lt⟩
  obtain ⟨fp, rfl, hfp, hflow, halpn⟩ := finishTokens_ok ht₂ hs.flow h₃
  have ht₃ : LinkTexts { link with sni := sni, host := host, path := path, serviceName := service, fingerprint := fp } :=
    ⟨ht.secret, hsni, hhost, hpath, ht.flow, ht.alpn, hfp, hservice, ht.mode, ht.port_lt⟩
  obtain ⟨mode, rfl, hmode, hmodes⟩ := finishMode_ok ht₃ h₄
  exact ⟨⟨ht.secret, hsni, hhost, hpath, ht.flow, ht.alpn, hfp, hservice, hmode, ht.port_lt⟩, haddr, hport, hsecret, htls,
    htransport, hmodes, hflow, halpn⟩

theorem tunnelLinkParse_ready {input : Bytes} (h : tunnelLinkParse inet input = .ok link') : LinkReady link' := by
  obtain ⟨link, seen, ht, hs, hfinish⟩ := tunnelLinkParse_finish h
  exact finishLink_ready ht hs hfinish

end Finish

end Qanat

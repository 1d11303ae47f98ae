import Qanat.TunnelText
import Qanat.General.Outcome

namespace Qanat

/-- A text that a field of `capacity` bytes holds. -/
structure TextFits (capacity : Nat) (s : Bytes) : Prop where
  length : s.length < capacity
  valid : utf8Valid s = true

structure LinkTexts (link : TunnelLink) : Prop where
  secret : TextFits tunnelSecretSize link.secret
  sni : TextFits tunnelHostSize link.sni
  host : TextFits tunnelHostSize link.host
  path : TextFits tunnelPathSize link.path
  flow : TextFits tunnelFlowSize link.flow
  alpn : TextFits tunnelAlpnSize link.alpn
  fingerprint : TextFits tunnelTokenSize link.fingerprint
  serviceName : TextFits tunnelServiceSize link.serviceName
  mode : TextFits tunnelTokenSize link.mode
  port_lt : link.port < 65536

/-- What is not as it was at first has been seen. -/
structure LinkSeen (link : TunnelLink) (seen : List LinkField) : Prop where
  service : link.serviceName ≠ [] → .service ∈ seen
  multi : link.grpcMulti = true → .multi ∈ seen
  flow : link.flow ≠ [] → .flow ∈ seen

section Apply

variable {link link' : TunnelLink} {seen seen' : List LinkField} {key value : Bytes} {f : LinkField}

theorem textFits_nil {capacity : Nat} (h : 0 < capacity) : TextFits capacity [] :=
  ⟨h, rfl⟩

theorem copyText_ok {capacity : Nat} {v : Bytes} (h : copyText capacity value = .ok v) :
    v = value ∧ value.length < capacity := by
  unfold copyText at h
  split at h
  next => cases h
  next hlen => exact ⟨(Except.ok.inj h).symm, by omega⟩

theorem copied {capacity : Nat} {g : Bytes → TunnelLink} (h : (copyText capacity value).map g = .ok link') :
    link' = g value ∧ value.length < capacity := by
  obtain ⟨v, hv, rfl⟩ := Outcome.map_ok h
  obtain ⟨rfl, hlen⟩ := copyText_ok hv
  exact ⟨rfl, hlen⟩

/-- A value is valid text unless its field only takes a number or a truth value. -/
def ValueOk (f : LinkField) (value : Bytes) : Prop :=
  utf8Valid value = true ∨ f = .port ∨ f = .aid ∨ f = .multi

theorem accept_ok {ok : Bool} (h : accept ok link = .ok link') : link' = link := by
  unfold accept at h
  split at h
  next => exact (Except.ok.inj h).symm
  next => cases h

theorem setNetwork_ok (h : setNetwork link value = .ok link') : ∃ n, link' = { link with network := n } := by
  unfold setNetwork at h
  split at h
  next => exact ⟨_, (Except.ok.inj h).symm⟩
  next =>
    split at h
    next => exact ⟨_, (Except.ok.inj h).symm⟩
    next =>
      split at h
      next => exact ⟨_, (Except.ok.inj h).symm⟩
      next =>
        split at h
        next => exact ⟨_, (Except.ok.inj h).symm⟩
        next => cases h

theorem setSecurity_ok (h : setSecurity link value = .ok link') : ∃ s, link' = { link with security := s } := by
  unfold setSecurity at h
  split at h
  next => exact ⟨_, (Except.ok.inj h).symm⟩
  next =>
    split at h
    next => exact ⟨_, (Except.ok.inj h).symm⟩
    next => cases h

theorem portLoop_lt {value v : Nat} {text : Bytes} (hvalue : value < 65536) (h : portLoop value text = some v) :
    v < 65536 := by
  induction text generalizing value with
  | nil =>
    rw [← Option.some.inj h]
    exact hvalue
  | cons c text ih =>
    rw [portLoop] at h
    split at h
    next => cases h
    next =>
      split at h
      next => cases h
      next hlt => exact ih (by omega) h

theorem parsePort_lt {v : Nat} {text : Bytes} (h : parsePort text = .ok v) : v < 65536 := by
  unfold parsePort at h
  split at h
  next hloop =>
    split at hloop
    next => cases hloop
    next =>
      split at h
      next => cases h
      next =>
        rw [← Except.ok.inj h]
        exact portLoop_lt (by decide) hloop
  next => cases h

theorem setField_texts (hl : LinkTexts link) (hv : ValueOk f value) (h : setField link value f = .ok link') :
    LinkTexts link' := by
  have hval : f ≠ .port → f ≠ .aid → f ≠ .multi → utf8Valid value = true := by
    intro h₁ h₂ h₃
    exact hv.resolve_right (by rintro (h | h | h) <;> contradiction)
  obtain ⟨hsecret, hsni, hhost, hpath, hflow, halpn, hfp, hservice, hmode, hport⟩ := hl
  cases f with
  | network =>
    obtain ⟨n, rfl⟩ := setNetwork_ok h
    exact ⟨hsecret, hsni, hhost, hpath, hflow, halpn, hfp, hservice, hmode, hport⟩
  | security =>
    obtain ⟨s, rfl⟩ := setSecurity_ok h
    exact ⟨hsecret, hsni, hhost, hpath, hflow, halpn, hfp, hservice, hmode, hport⟩
  | sni =>
    obtain ⟨rfl, hlen⟩ := copied h
    exact ⟨hsecret, ⟨hlen, hval nofun nofun nofun⟩, hhost, hpath, hflow, halpn, hfp, hservice, hmode, hport⟩
  | host =>
    obtain ⟨rfl, hlen⟩ := copied h
    exact ⟨hsecret, hsni, ⟨hlen, hval nofun nofun nofun⟩, hpath, hflow, halpn, hfp, hservice, hmode, hport⟩
  | path =>
    obtain ⟨rfl, hlen⟩ := copied h
    exact ⟨hsecret, hsni, hhost, ⟨hlen, hval nofun nofun nofun⟩, hflow, halpn, hfp, hservice, hmode, hport⟩
  | flow =>
    obtain ⟨rfl, hlen⟩ := copied h
    exact ⟨hsecret, hsni, hhost, hpath, ⟨hlen, hval nofun nofun nofun⟩, halpn, hfp, hservice, hmode, hport⟩
  | alpn =>
    obtain ⟨rfl, hlen⟩ := copied h
    exact ⟨hsecret, hsni, hhost, hpath, hflow, ⟨hlen, hval nofun nofun nofun⟩, hfp, hservice, hmode, hport⟩
  | fp =>
    obtain ⟨rfl, hlen⟩ := copied h
    exact ⟨hsecret, hsni, hhost, hpath, hflow, halpn, ⟨hlen, hval nofun nofun nofun⟩, hservice, hmode, hport⟩
  | service =>
    obtain ⟨rfl, hlen⟩ := copied h
    exact ⟨hsecret, hsni, hhost, hpath, hflow, halpn, hfp, ⟨hlen, hval nofun nofun nofun⟩, hmode, hport⟩
  | mode =>
    obtain ⟨rfl, hlen⟩ := copied h
    exact ⟨hsecret, hsni, hhost, hpath, hflow, halpn, hfp, hservice, ⟨hlen, hval nofun nofun nofun⟩, hport⟩
  | multi =>
    simp only [setField] at h
    split at h
    next => cases h
    next =>
      rw [← Except.ok.inj h]
      exact ⟨hsecret, hsni, hhost, hpath, hflow, halpn, hfp, hservice, hmode, hport⟩
  | cipher =>
    simp only [setField] at h
    have heq : link' = link := by
      split at h <;> exact accept_ok h
    rw [heq]
    exact ⟨hsecret, hsni, hhost, hpath, hflow, halpn, hfp, hservice, hmode, hport⟩
  | header | allowInsecure | version | aid =>
    rw [accept_ok h]
    exact ⟨hsecret, hsni, hhost, hpath, hflow, halpn, hfp, hservice, hmode, hport⟩
  | address =>
    obtain ⟨rfl, -⟩ := copied h
    exact ⟨hsecret, hsni, hhost, hpath, hflow, halpn, hfp, hservice, hmode, hport⟩
  | port =>
    obtain ⟨v, hv, rfl⟩ := Outcome.map_ok h
    exact ⟨hsecret, hsni, hhost, hpath, hflow, halpn, hfp, hservice, hmode, parsePort_lt hv⟩
  | secret =>
    obtain ⟨rfl, hlen⟩ := copied h
    exact ⟨⟨hlen, hval nofun nofun nofun⟩, hsni, hhost, hpath, hflow, halpn, hfp, hservice, hmode, hport⟩
  | label =>
    rw [← Except.ok.inj h]
    exact ⟨hsecret, hsni, hhost, hpath, hflow, halpn, hfp, hservice, hmode, hport⟩

theorem setField_seen (hl : LinkSeen link seen) (h : setField link value f = .ok link') :
    LinkSeen link' (f :: seen) := by
  have hmono : ∀ {l : TunnelLink}, l.serviceName = link.serviceName → l.grpcMulti = link.grpcMulti →
      l.flow = link.flow → LinkSeen l (f :: seen) := by
    intro l h₁ h₂ h₃
    refine ⟨fun h => List.mem_cons_of_mem _ (hl.service (h₁ ▸ h)), fun h => List.mem_cons_of_mem _ (hl.multi (h₂ ▸ h)),
      fun h => List.mem_cons_of_mem _ (hl.flow (h₃ ▸ h))⟩
  cases f with
  | network =>
    obtain ⟨n, rfl⟩ := setNetwork_ok h
    exact hmono rfl rfl rfl
  | security =>
    obtain ⟨s, rfl⟩ := setSecurity_ok h
    exact hmono rfl rfl rfl
  | sni | host | path | alpn | fp | mode | address | secret =>
    obtain ⟨rfl, -⟩ := copied h
    exact hmono rfl rfl rfl
  | flow =>
    obtain ⟨rfl, -⟩ := copied h
    exact ⟨fun h => List.mem_cons_of_mem _ (hl.service h), fun h => List.mem_cons_of_mem _ (hl.multi h),
      fun _ => List.mem_cons_self⟩
  | service =>
    obtain ⟨rfl, -⟩ := copied h
    exact ⟨fun _ => List.mem_cons_self, fun h => List.mem_cons_of_mem _ (hl.multi h),
      fun h => List.mem_cons_of_mem _ (hl.flow h)⟩
  | multi =>
    simp only [setField] at h
    split at h
    next => cases h
    next =>
      rw [← Except.ok.inj h]
      exact ⟨fun h => List.mem_cons_of_mem _ (hl.service h), fun _ => List.mem_cons_self,
        fun h => List.mem_cons_of_mem _ (hl.flow h)⟩
  | cipher =>
    simp only [setField] at h
    have heq : link' = link := by
      split at h <;> exact accept_ok h
    rw [heq]
    exact hmono rfl rfl rfl
  | header | allowInsecure | version | aid =>
    rw [accept_ok h]
    exact hmono rfl rfl rfl
  | port =>
    obtain ⟨v, -, rfl⟩ := Outcome.map_ok h
    exact hmono rfl rfl rfl
  | label =>
    rw [← Except.ok.inj h]
    exact hmono rfl rfl rfl

theorem applyField_inv {vmess : Bool} (ht : LinkTexts link) (hs : LinkSeen link seen)
    (hv : ∀ f, fieldOf vmess key = some f → ValueOk f value)
    (h : applyField vmess link seen key value = .ok (link', seen')) : LinkTexts link' ∧ LinkSeen link' seen' := by
  unfold applyField at h
  split at h
  next => cases h
  next f hf =>
    split at h
    next => cases h
    next =>
      obtain ⟨l, hl, heq⟩ := Outcome.map_ok h
      obtain ⟨rfl, rfl⟩ := Prod.mk.inj heq
      exact ⟨setField_texts ht (hv f hf) hl, setField_seen hs hl⟩

end Apply

section Uri

variable {link link' : TunnelLink} {seen seen' : List LinkField}

theorem percentDecode_fits {capacity : Nat} {s out : Bytes} (h : percentDecode capacity s = some out) :
    TextFits capacity out := by
  have := (Option.filter_eq_some_iff.mp h).2
  rw [Bool.and_eq_true, Bool.and_eq_true, decide_eq_true_eq] at this
  exact ⟨this.1.2, this.2⟩

theorem queryField_inv {part : Bytes} (ht : LinkTexts link) (hs : LinkSeen link seen)
    (h : queryField link seen part = .ok (link', seen')) : LinkTexts link' ∧ LinkSeen link' seen' := by
  unfold queryField at h
  split at h
  next => cases h
  next =>
    split at h
    next => cases h
    next =>
      split at h
      next hvalue => exact applyField_inv ht hs (fun _ _ => .inl (percentDecode_fits hvalue).valid) h
      next => cases h

theorem queryLoop_inv {parts : List Bytes} (ht : LinkTexts link) (hs : LinkSeen link seen)
    (h : queryLoop link seen parts = .ok (link', seen')) : LinkTexts link' ∧ LinkSeen link' seen' := by
  induction parts generalizing link seen with
  | nil =>
    obtain ⟨rfl, rfl⟩ := Prod.mk.inj (Except.ok.inj h)
    exact ⟨ht, hs⟩
  | cons part parts ih =>
    cases parts with
    | nil =>
      rw [queryLoop] at h
      split at h
      next =>
        obtain ⟨rfl, rfl⟩ := Prod.mk.inj (Except.ok.inj h)
        exact ⟨ht, hs⟩
      next => exact queryField_inv ht hs h
    | cons part' parts =>
      rw [queryLoop] at h
      · split at h
        next => cases h
        next =>
          split at h
          next hfield =>
            obtain ⟨ht', hs'⟩ := queryField_inv ht hs hfield
            exact ih ht' hs' h
          next => cases h
      · exact List.cons_ne_nil _ _

theorem parseAuthority_eq {authority : Bytes} (h : parseAuthority link authority = .ok link') :
    ∃ a p, link' = { link with address := a, port := p } ∧ p < 65536 := by
  unfold parseAuthority at h
  split at h
  next =>
    split at h
    next =>
      split at h
      next => cases h
      next =>
        obtain ⟨a, -, h⟩ := Outcome.bind_ok h
        obtain ⟨p, hp, h⟩ := Outcome.bind_ok h
        exact ⟨a, p, (Except.ok.inj h).symm, parsePort_lt hp⟩
    next => cases h
  next =>
    split at h
    next =>
      split at h
      next => cases h
      next =>
        obtain ⟨a, -, h⟩ := Outcome.bind_ok h
        obtain ⟨p, hp, h⟩ := Outcome.bind_ok h
        exact ⟨a, p, (Except.ok.inj h).symm, parsePort_lt hp⟩
    next => cases h

theorem blankLink_inv (protocol : TunnelProtocol) (security : TunnelSecurity) :
    LinkTexts (blankLink protocol security) ∧ LinkSeen (blankLink protocol security) [] := by
  refine ⟨?_, ?_⟩
  · exact ⟨textFits_nil (by decide), textFits_nil (by decide), textFits_nil (by decide), textFits_nil (by decide),
      textFits_nil (by decide), textFits_nil (by decide), textFits_nil (by decide), textFits_nil (by decide),
      textFits_nil (by decide), Nat.zero_lt_succ _⟩
  · constructor
    · exact fun h => absurd rfl h
    · exact fun h => absurd h Bool.false_ne_true
    · exact fun h => absurd rfl h

theorem parseUserinfo_inv {protocol : TunnelProtocol} {security : TunnelSecurity} {rest : Bytes}
    (h : parseUserinfo (blankLink protocol security) rest = .ok link') : LinkTexts link' ∧ LinkSeen link' [] := by
  obtain ⟨ht, hs⟩ := blankLink_inv protocol security
  unfold parseUserinfo at h
  split at h
  next =>
    split at h
    next => cases h
    next =>
      split at h
      next secret hsecret =>
        obtain ⟨a, p, rfl, hp⟩ := parseAuthority_eq h
        exact ⟨⟨percentDecode_fits hsecret, ht.sni, ht.host, ht.path, ht.flow, ht.alpn, ht.fingerprint, ht.serviceName,
          ht.mode, hp⟩, ⟨hs.service, hs.multi, hs.flow⟩⟩
      next => cases h
  next => cases h

/-- What `parse_uri` accepts comes out of `finish_link` on fields that fit. -/
theorem parseUri_finish {inet : InetText} {text : Bytes} (h : parseUri inet text = .ok link') :
    ∃ link seen, LinkTexts link ∧ LinkSeen link seen ∧ finishLink inet link seen = .ok link' := by
  unfold parseUri at h
  obtain ⟨⟨blank, rest⟩, hscheme, h⟩ := Outcome.bind_ok h
  obtain ⟨protocol, security, rfl⟩ : ∃ p s, blank = blankLink p s := by
    unfold parseScheme at hscheme
    split at hscheme
    next => exact ⟨_, _, (Prod.mk.inj (Except.ok.inj hscheme)).1.symm⟩
    next =>
      split at hscheme
      next => exact ⟨_, _, (Prod.mk.inj (Except.ok.inj hscheme)).1.symm⟩
      next => cases hscheme
  obtain ⟨body, -, h⟩ := Outcome.bind_ok h
  split at h
  next =>
    obtain ⟨link, hlink, h⟩ := Outcome.bind_ok h
    obtain ⟨ht, hs⟩ := parseUserinfo_inv hlink
    split at h
    next => cases h
    next =>
      obtain ⟨⟨link₂, seen⟩, hquery, h⟩ := Outcome.bind_ok h
      obtain ⟨ht₂, hs₂⟩ := queryLoop_inv ht hs hquery
      exact ⟨link₂, seen, ht₂, hs₂, h⟩
  next =>
    obtain ⟨link, hlink, h⟩ := Outcome.bind_ok h
    obtain ⟨ht, hs⟩ := parseUserinfo_inv hlink
    exact ⟨link, [], ht, hs, h⟩

end Uri

section Vmess

variable {link link' : TunnelLink} {seen seen' : List LinkField}

theorem jsonString_valid {capacity : Nat} {s out rest : Bytes} (h : jsonString capacity s = some (out, rest)) :
    utf8Valid out = true := by
  unfold jsonString at h
  split at h
  next => cases h
  next =>
    split at h
    next =>
      have := (Option.filter_eq_some_iff.mp h).2
      rw [Bool.and_eq_true] at this
      exact this.2
    next => cases h

theorem jsonScalar_valid {capacity : Nat} {s value rest : Bytes} {kind : JsonScalarKind}
    (h : jsonScalar capacity s = some (kind, value, rest)) : utf8Valid value = true ∨ kind ≠ .string := by
  unfold jsonScalar at h
  split at h
  next =>
    obtain ⟨⟨out, t⟩, hp, heq⟩ := Option.map_eq_some_iff.mp h
    obtain ⟨-, heq⟩ := Prod.mk.inj heq
    obtain ⟨rfl, -⟩ := Prod.mk.inj heq
    exact .inl (jsonString_valid hp)
  next =>
    refine .inr ?_
    dsimp only at h
    split at h
    next => cases h
    next =>
      split at h
      next =>
        rw [← (Prod.mk.inj (Option.some.inj h)).1]
        exact nofun
      next =>
        split at h
        next =>
          rw [← (Prod.mk.inj (Option.some.inj h)).1]
          exact nofun
        next => cases h

/-- Only keys whose fields take no text may have a value that is no string. -/
theorem vmessScalarTypeValid_field {key : Bytes} {kind : JsonScalarKind} (h : vmessScalarTypeValid key kind = true)
    (hkind : kind ≠ .string) {f : LinkField} (hf : fieldOf true key = some f) : f = .port ∨ f = .aid ∨ f = .multi := by
  have hport : fieldOf true (ascii "port".toList) = some .port := rfl
  have haid : fieldOf true (ascii "aid".toList) = some .aid := rfl
  have hmulti : fieldOf true (ascii "multiMode".toList) = some .multi := rfl
  unfold vmessScalarTypeValid at h
  split at h
  next hkey =>
    obtain rfl | rfl := hkey
    · exact .inl (Option.some.inj (hf.symm.trans hport))
    · exact .inr (.inl (Option.some.inj (hf.symm.trans haid)))
  next =>
    split at h
    next hkey =>
      subst hkey
      exact .inr (.inr (Option.some.inj (hf.symm.trans hmulti)))
    next => exact absurd (beq_iff_eq.mp h) hkind

theorem vmessMember_inv {s rest : Bytes} (ht : LinkTexts link) (hs : LinkSeen link seen)
    (h : vmessMember link seen s = .ok (link', seen', rest)) : LinkTexts link' ∧ LinkSeen link' seen' := by
  unfold vmessMember at h
  split at h
  next => cases h
  next =>
    split at h
    next => cases h
    next =>
      split at h
      next => cases h
      next kind value t hscalar =>
        split at h
        next => cases h
        next htype =>
          rw [Bool.not_eq_true, Bool.not_eq_false'] at htype
          obtain ⟨⟨l, sn⟩, happly, heq⟩ := Outcome.map_ok h
          cases heq
          refine applyField_inv ht hs (fun f hf => ?_) happly
          exact (jsonScalar_valid hscalar).imp_right fun hkind => vmessScalarTypeValid_field htype hkind hf

theorem vmessLoop_inv {n : Nat} {haveField : Bool} {s rest : Bytes} (ht : LinkTexts link) (hs : LinkSeen link seen)
    (h : vmessLoop n haveField link seen s = .ok (link', seen', rest)) : LinkTexts link' ∧ LinkSeen link' seen' := by
  induction n generalizing haveField link seen s with
  | zero => cases h
  | succ n ih =>
    rw [vmessLoop] at h
    split at h
    next =>
      obtain ⟨rfl, heq⟩ := Prod.mk.inj (Except.ok.inj h)
      obtain ⟨rfl, -⟩ := Prod.mk.inj heq
      exact ⟨ht, hs⟩
    next =>
      split at h
      next => cases h
      next =>
        split at h
        next => cases h
        next hmember =>
          obtain ⟨ht', hs'⟩ := vmessMember_inv ht hs hmember
          exact ih ht' hs' h

theorem parseVmess_finish {inet : InetText} {text : Bytes} (h : parseVmess inet text = .ok link') :
    ∃ link seen, LinkTexts link ∧ LinkSeen link seen ∧ finishLink inet link seen = .ok link' := by
  obtain ⟨ht, hs⟩ := blankLink_inv .vmess .none
  unfold parseVmess at h
  split at h
  next => cases h
  next =>
    split at h
    next => cases h
    next =>
      split at h
      next => cases h
      next =>
        unfold parseVmessJson at h
        split at h
        next => cases h
        next =>
          split at h
          next => cases h
          next =>
            split at h
            next => cases h
            next link seen _ hloop =>
              obtain ⟨ht', hs'⟩ := vmessLoop_inv ht hs hloop
              split at h
              next => cases h
              next => exact ⟨link, seen, ht', hs', h⟩

theorem tunnelLinkParse_finish {inet : InetText} {input : Bytes} (h : tunnelLinkParse inet input = .ok link') :
    ∃ link seen, LinkTexts link ∧ LinkSeen link seen ∧ finishLink inet link seen = .ok link' := by
  unfold tunnelLinkParse at h
  split at h
  next => cases h
  next =>
    split at h
    next => cases h
    next =>
      split at h
      next => cases h
      next =>
        split at h
        next => exact parseVmess_finish h
        next => exact parseUri_finish h

end Vmess

section Fuel

theorem jsonChars_length {s : Bytes} {p : Bytes × Bytes} (h : jsonChars s = some p) : p.2.length < s.length := by
  fun_induction jsonChars s generalizing p <;>
    simp only [Option.map_eq_some_iff, Option.bind_eq_bind, Option.bind_eq_some_iff, reduceCtorEq, Option.some.injEq,
      List.length_cons] at h ⊢ <;> grind

theorem jsonString_length {capacity : Nat} {s : Bytes} {p : Bytes × Bytes} (h : jsonString capacity s = some p) :
    p.2.length < s.length := by
  cases s with
  | nil => cases h
  | cons c t =>
    rw [jsonString] at h
    split at h
    next =>
      have := jsonChars_length (Option.filter_eq_some_iff.mp h).1
      rw [List.length_cons]
      omega
    next => cases h

theorem jsonScalar_length {capacity : Nat} {s : Bytes} {p : JsonScalarKind × Bytes × Bytes}
    (h : jsonScalar capacity s = some p) : p.2.2.length ≤ s.length := by
  unfold jsonScalar at h
  split at h
  next =>
    obtain ⟨q, hq, rfl⟩ := Option.map_eq_some_iff.mp h
    exact (jsonString_length hq).le
  next =>
    have hdrop : (s.dropWhile fun c => !isScalarEnd c).length ≤ s.length := List.length_dropWhile_le _ _
    grind

theorem takeByte_length {c : UInt8} {s t : Bytes} (h : takeByte c s = .ok t) : t.length < s.length := by
  cases s with
  | nil => cases h
  | cons x s =>
    rw [takeByte] at h
    split at h
    next =>
      cases h
      exact Nat.lt_succ_self _
    next => cases h

theorem skipJsonSpace_length (s : Bytes) : (skipJsonSpace s).length ≤ s.length :=
  List.length_dropWhile_le _ _

theorem vmessMember_length {link link' : TunnelLink} {seen seen' : List LinkField} {s rest : Bytes}
    (h : vmessMember link seen s = .ok (link', seen', rest)) : rest.length < s.length := by
  unfold vmessMember at h
  split at h
  next => cases h
  next key t hkey =>
    split at h
    next => cases h
    next u hcolon =>
      split at h
      next => cases h
      next kind value v hscalar =>
        split at h
        next => cases h
        next =>
          obtain ⟨⟨l, sn⟩, -, heq⟩ := Outcome.map_ok h
          cases heq
          have h₁ := jsonString_length hkey
          have h₂ := takeByte_length hcolon
          have h₃ := jsonScalar_length hscalar
          have h₄ := skipJsonSpace_length t
          have h₅ := skipJsonSpace_length u
          dsimp only at h₁ h₂ h₃
          omega

/-- Fuel above the length of the text is enough for the members. -/
theorem vmessLoop_fuel {n m : Nat} {haveField : Bool} {link : TunnelLink} {seen : List LinkField} {s : Bytes}
    (hn : s.length < n) (hm : s.length < m) : vmessLoop n haveField link seen s = vmessLoop m haveField link seen s := by
  induction n generalizing m haveField link seen s with
  | zero => exact absurd hn (Nat.not_lt_zero _)
  | succ n ih =>
    obtain ⟨m, rfl⟩ := Nat.exists_eq_add_of_lt (Nat.zero_lt_of_lt hm)
    rw [Nat.zero_add, vmessLoop, vmessLoop]
    have hskip := skipJsonSpace_length s
    split
    next => rfl
    next =>
      split
      next => rfl
      next t hcomma =>
        have ht : t.length ≤ s.length := by
          split at hcomma
          next =>
            obtain ⟨u, hu, rfl⟩ := Outcome.map_ok hcomma
            have hlt := takeByte_length hu
            have hle := skipJsonSpace_length u
            omega
          next =>
            cases hcomma
            exact hskip
        split
        next => rfl
        next l sn r hmember =>
          have hlt := vmessMember_length hmember
          exact ih (by omega) (by omega)

end Fuel

end Qanat

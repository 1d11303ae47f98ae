import Qanat.TlsWire

namespace Qanat

open TlsHandler Outcome

section Rule

variable {α : Type} {f : α → Nat → Bytes → TlsHandler α} {P : List (Nat × Bytes) → α → TlsWork → Prop}

/-- What holds after each extension holds after all of them. -/
theorem eachExt_meets
    (hf : ∀ l a et ev w, P l a w → Meets (f a et ev w) (fun a' v => P (l ++ [(et, ev)]) a' v) (fun _ _ => True))
    (fuel : Nat) (seen : List Nat) (r : Bytes) (l : List (Nat × Bytes)) (a : α) (w : TlsWork) (h : P l a w) :
    Meets (eachExt f fuel seen r a w) (fun x v => P (l ++ extensions fuel r) x.1 v) (fun _ _ => True) := by
  induction fuel generalizing seen r l a w with
  | zero => simpa [eachExt, extensions] using h
  | succ fuel ih =>
    unfold eachExt extensions
    by_cases hr : r.length < 4
    · rw [if_pos hr, if_pos hr, List.append_nil]
      exact h
    · rw [if_neg hr, if_neg hr]
      simp only [meets_bind, meets_refuse, meets_orRefuse, implies_true, true_and]
      intro _ seen' _
      apply (hf l a _ _ w h).mono
      · intro a' v hv
        apply (ih seen' _ _ a' v hv).mono
        · intro x u hu
          rw [List.append_assoc] at hu
          exact hu
        · intro rc u _
          trivial
      · intro rc v _
        trivial

theorem extBlock_meets
    (hf : ∀ l a et ev w, P l a w → Meets (f a et ev w) (fun a' v => P (l ++ [(et, ev)]) a' v) (fun _ _ => True))
    (block : Bytes) (a : α) (w : TlsWork) (h : P [] a w) :
    Meets (extBlock f block a w) (fun a' v => P (extensions block.length block) a' v) (fun _ _ => True) := by
  unfold extBlock
  rw [meets_bind]
  apply (eachExt_meets hf block.length [] block [] a w h).mono
  · rintro ⟨a', r⟩ v hv
    simp only [meets_bind, meets_refuse, implies_true, meets_pure, true_and]
    intro _
    exact hv
  · intro rc v _
    trivial

end Rule

/-- The suite a ServerHello names. -/
def helloSuite (hs : Bytes) : Nat :=
  (serverSid hs).2.u16.1

/-- Whether a ServerHello has an extension. -/
def hasExtension (hs : Bytes) (id : Nat) : Bool :=
  (serverExtensions hs).any (·.1 = id)

/-- The group of the key share in a ServerHello, or the one a HelloRetryRequest asks for. -/
def shareGroups (hs : Bytes) : List Nat :=
  ((serverExtensions hs).filter (·.1 = 0x0033)).map fun x => rd16 x.2

/-- What the extensions `l` of a ServerHello have done to a session that was `s`. -/
structure ExtsRead (isHrr : Bool) (s : TlsSession) (l : List (Nat × Bytes)) (a : HelloExts) (w : TlsWork) : Prop where
  version : a.haveVersion = l.any (·.1 = 0x002B)
  share : a.haveKeyShare → capabilityGroup a.peerGroup ∧ a.peerGroup ∈ (l.filter (·.1 = 0x0033)).map fun x => rd16 x.2
  named : isHrr → a.haveHrrGroup = l.any (·.1 = 0x0033)
  cfg : w.session.cfg = s.cfg
  group : a.haveHrrGroup = false ∧ w.session.hrrGroup = s.hrrGroup ∨
    a.haveHrrGroup ∧ w.session.hrrGroup = groupP256 ∧ s.fp ≠ .firefox
  plain : isHrr = false → w.session.hrrGroup = s.hrrGroup ∧ w.session.hrrCookie = s.hrrCookie
  wire : w.session.wire = { s.wire with hrrGroup := w.session.hrrGroup, hrrCookie := w.session.hrrCookie }

theorem firstHelloHasGroup_not {s : TlsSession} {g : Nat} (hg : capabilityGroup g)
    (h : firstHelloHasGroup s g = false) : g = groupP256 ∧ s.fp ≠ .firefox := by
  unfold capabilityGroup at hg
  unfold firstHelloHasGroup at h
  simp_all

theorem serverHelloExt_reads (isHrr : Bool) (s : TlsSession) (l : List (Nat × Bytes)) (a : HelloExts) (et : Nat)
    (ev : Bytes) (w : TlsWork) (h : ExtsRead isHrr s l a w) :
    Meets (serverHelloExt isHrr a et ev w) (fun a' v => ExtsRead isHrr s (l ++ [(et, ev)]) a' v) (fun _ _ => True) := by
  have hw := h.wire
  have hfp : w.session.fp = s.fp := by
    unfold TlsSession.fp
    rw [h.cfg]
  unfold serverHelloExt
  by_cases h₁ : et = 0x002B
  · subst h₁
    simp only [if_true, meets_bind, meets_refuse, meets_pure, implies_true, true_and]
    intro _
    exact ⟨by simp, by simpa using h.share, by simpa using h.named, h.cfg, h.group, h.plain, hw⟩
  rw [if_neg h₁]
  by_cases h₂ : et = 0x0017
  · subst h₂
    simp only [if_true, meets_bind, meets_refuse, meets_update, meets_pure, implies_true, true_and]
    intro _
    exact ⟨by simpa using h.version, by simpa using h.share, by simpa using h.named, h.cfg, h.group, h.plain, hw⟩
  rw [if_neg h₂]
  by_cases h₃ : et = 0x0010
  · subst h₃
    simp only [if_true, parseSelectedAlpn, meets_bind, meets_refuse, meets_update, meets_pure, implies_true, true_and]
    intro _ _ _
    exact ⟨by simpa using h.version, by simpa using h.share, by simpa using h.named, h.cfg, h.group, h.plain, hw⟩
  rw [if_neg h₃]
  by_cases h₄ : et = 0x0033
  · subst h₄
    rw [if_pos rfl]
    cases isHrr with
    | true =>
      simp only [if_true, meets_bind, meets_session, meets_refuse, meets_update, meets_pure, implies_true, true_and]
      intro _ hcap hfirst
      have hg := firstHelloHasGroup_not (by simpa using hcap) (by simpa using hfirst)
      rw [hfp] at hg
      refine ⟨by simpa using h.version, ?_, by simp, h.cfg, .inr ⟨rfl, hg⟩, by simp, ?_⟩
      · intro hk
        have := h.share hk
        simp_all
      · simp_all
    | false =>
      simp only [Bool.false_eq_true, if_false, meets_bind, meets_refuse, meets_pure, implies_true, true_and]
      intro _ hcap _
      exact ⟨by simpa using h.version, fun _ => ⟨by simpa using hcap, by simp⟩, by simp, h.cfg, h.group, h.plain, hw⟩
  rw [if_neg h₄]
  by_cases h₅ : et = 0x002C
  · subst h₅
    simp only [if_true, meets_bind, meets_refuse, meets_update, meets_pure, implies_true, true_and]
    intro hhrr _
    have hhrr' : isHrr = true := by
      cases isHrr with
      | true => rfl
      | false => simp at hhrr
    refine ⟨by simpa using h.version, by simpa using h.share, by simpa using h.named, h.cfg, h.group, ?_, ?_⟩
    · intro hf
      rw [hhrr'] at hf
      exact absurd hf (by simp)
    · simp_all
  rw [if_neg h₅]
  simp only [meets_ite, meets_throw, implies_true, meets_pure, true_and]
  intro _
  exact ⟨by simpa [h₁] using h.version, by simpa [h₄] using h.share, by simpa [h₄] using h.named, h.cfg, h.group, h.plain, hw⟩

/-- What a ServerHello that was read to its end has done to the wire of a session. -/
structure HelloHeard (s : TlsSession) (sh : ServerHello) (x : TlsWire) : Prop where
  isHrr : sh.isHrr = isHelloRetry s.hs
  version : sh.exts.haveVersion = hasExtension s.hs 0x002B
  share : sh.exts.haveKeyShare → capabilityGroup sh.exts.peerGroup ∧ sh.exts.peerGroup ∈ shareGroups s.hs
  group : sh.isHrr → hasExtension s.hs 0x0033 = false ∧ x.hrrGroup = s.hrrGroup ∨
    hasExtension s.hs 0x0033 ∧ x.hrrGroup = groupP256 ∧ s.fp ≠ .firefox
  plain : sh.isHrr = false → x.hrrGroup = s.hrrGroup ∧ x.hrrCookie = s.hrrCookie
  wire : x = { s.wire with suite := helloSuite s.hs, hrrGroup := x.hrrGroup, hrrCookie := x.hrrCookie }

theorem readServerHead_wire (w : TlsWork) :
    Meets (readServerHead w) (fun _ v => v.session.wire = w.session.wire) (fun _ _ => True) := by
  simp [readServerHead]

theorem readServerSuite_wire (r : Br) (w : TlsWork) :
    Meets (readServerSuite r w)
      (fun r' v => r' = r.u16.2.u8.2 ∧ v.session.cfg = w.session.cfg ∧
        v.session.wire = { w.session.wire with suite := r.u16.1 })
      (fun _ _ => True) := by
  simp [readServerSuite]

theorem optionalBlock_block (hs : Bytes) (w : TlsWork) :
    Meets (optionalBlock (serverSid hs).2.u16.2.u8.2 w) (fun block v => block = serverBlock hs ∧ v = w)
      (fun _ _ => True) := by
  unfold optionalBlock serverBlock
  by_cases hleft : (serverSid hs).2.u16.2.u8.2.left = 0
  · rw [if_pos hleft, if_pos hleft]
    exact ⟨rfl, rfl⟩
  · rw [if_neg hleft, if_neg hleft]
    simp [lastBlock]

theorem readServerHello_wire (w : TlsWork) :
    Meets (readServerHello w) (fun sh v => HelloHeard w.session sh v.session.wire) (fun _ _ => True) := by
  unfold readServerHello
  rw [meets_bind]
  apply ((readServerHead_meets w).and (readServerHead_wire w)).mono
  · rintro h v ⟨⟨hq, -, -, hisHrr, -, hsid⟩, hwire⟩
    have hrest : h.rest = (serverSid w.session.hs).2 := by rw [hsid]
    have hcfg : v.session.cfg = w.session.cfg := congrArg TlsPast.cfg hq.past
    rw [meets_bind]
    apply (readServerSuite_wire h.rest v).mono
    · rintro r u ⟨rfl, hucfg, huwire⟩
      rw [meets_bind, hrest]
      apply (optionalBlock_block w.session.hs u).mono
      · rintro block t ⟨rfl, rfl⟩
        rw [meets_bind]
        have hfp : t.session.fp = w.session.fp := by
          unfold TlsSession.fp
          rw [hucfg, hcfg]
        have h₀ : ExtsRead h.isHrr t.session [] {} t :=
          ⟨rfl, by simp, by simp, rfl, .inl ⟨rfl, rfl⟩, fun _ => ⟨rfl, rfl⟩, rfl⟩
        apply (extBlock_meets (fun l a et ev w => serverHelloExt_reads h.isHrr t.session l a et ev w) _ _ t h₀).mono
        · intro exts x hx
          have hold : t.session.wire = { w.session.wire with suite := helloSuite w.session.hs } := by
            rw [huwire, hwire, hrest]
            rfl
          have hgroup : t.session.hrrGroup = w.session.hrrGroup := congrArg TlsWire.hrrGroup hold
          have hcookie : t.session.hrrCookie = w.session.hrrCookie := congrArg TlsWire.hrrCookie hold
          refine ⟨hisHrr, hx.version, hx.share, fun hr => ?_, fun hr => ?_, ?_⟩
          · have hnamed := hx.named hr
            rcases hx.group with ⟨hno, hsame⟩ | ⟨hyes, hp256, hff⟩
            · rw [hno] at hnamed
              exact .inl ⟨hnamed.symm, hsame.trans hgroup⟩
            · rw [hyes] at hnamed
              rw [hfp] at hff
              exact .inr ⟨hnamed.symm, hp256, hff⟩
          · obtain ⟨hg, hc⟩ := hx.plain hr
            exact ⟨hg.trans hgroup, hc.trans hcookie⟩
          · rw [hx.wire, hold]
        · intro rc x _
          trivial
      · intro rc t _
        trivial
    · intro rc u _
      trivial
  · intro rc v _
    trivial

/-- The message that stands for the first ClientHello once a retry was asked for. -/
def messageHash (env : TlsEnv) (hash : HashId) (ch : Bytes) : Bytes :=
  hsMessageHash :: wireBytes 3 (hashLen hash) ++ env.digest hash ch

/-- What a ServerHello that picks a version has been checked for. -/
inductive HelloPicked (s : TlsSession) (version group : Nat) : Prop
  | tls12 (hv : version = 0x0303) (hno : hasExtension s.hs 0x002B = false) (hg : group = s.peerGroup)
  | tls13 (hv : version = 0x0304) (hsuite : s.hrrDone → helloSuite s.hs = s.hrrSuite)
      (hretry : s.hrrDone → s.hrrGroup ≠ 0 → group = s.hrrGroup) (hfirst : s.hrrDone = false → firstHelloHasGroup s group)
      (hcap : capabilityGroup group) (hshare : group ∈ shareGroups s.hs)

/-- What an accepted ServerHello does to the wire of the session it meets. -/
inductive HelloDid (env : TlsEnv) (s s' : TlsSession) : Prop
  | retry (hr : isHelloRetry s.hs) (hash : HashId) (info : HelloInfo) (group : Nat) (cookie : Bytes)
      (hgroup : hasExtension s.hs 0x0033 = false ∧ group = s.hrrGroup ∨
        hasExtension s.hs 0x0033 ∧ group = groupP256 ∧ s.fp ≠ .firefox)
      (hbuild : env.helloBuild { sessionHelloRequest s group with cookie := cookie } = some info)
      (hwire : s'.wire = { s.wire with
        suite := helloSuite s.hs, hrrSuite := helloSuite s.hs, hrrGroup := group, hrrCookie := cookie, ch := info.body,
        trOn := true, flights := s.flights ++ [info.body],
        transcript := ⟨hash, messageHash env hash s.ch ++ s.hsHdr ++ s.hs ++ info.body⟩ })
  | pick (hr : isHelloRetry s.hs = false) (hash : HashId) (group : Nat) (hpick : HelloPicked s s'.version group)
      (hwire : s'.wire = { s.wire with
        suite := helloSuite s.hs, peerGroup := group, trOn := if s.hrrDone then s.trOn else true,
        transcript := if s.hrrDone then s.transcript else ⟨hash, s.ch ++ s.hsHdr ++ s.hs⟩ })

theorem selectVersion_wire (sh : ServerHello) (w : TlsWork) :
    Meets (selectVersion sh w) (fun version v => v.session.wire = w.session.wire ∧
      (version = 0x0303 ∧ sh.exts.haveVersion = false ∨
       version = 0x0304 ∧ (w.session.hrrDone → w.session.suite = w.session.hrrSuite) ∧ sh.exts.haveKeyShare ∧
        (w.session.hrrDone → w.session.hrrGroup ≠ 0 → sh.exts.peerGroup = w.session.hrrGroup) ∧
        (w.session.hrrDone = false → firstHelloHasGroup w.session sh.exts.peerGroup)))
      (fun _ _ => True) := by
  unfold selectVersion
  by_cases hv : sh.exts.haveVersion
  · rw [if_neg (not_not.mpr hv)]
    by_cases hs : sh.exts.selVer = 0x0304
    · rw [if_pos hs]
      unfold selectTls13 adoptSuite
      simp only [meets_bind, meets_session, meets_refuse, meets_orRefuse, meets_update, meets_pure, implies_true, true_and]
      intro hsuite _ _ c _ hshare hgroup
      refine ⟨rfl, .inr ⟨?_, by simpa using hshare, ?_, ?_⟩⟩
      · intro hd
        by_contra hne
        exact hsuite ⟨hd, hne⟩
      · intro hd hne
        by_contra hg
        exact hgroup (.inl ⟨hd, hne, hg⟩)
      · intro hd
        by_contra hg
        exact hgroup (.inr ⟨by simp [hd], hg⟩)
    · rw [if_neg hs]
      trivial
  · rw [if_pos hv]
    simp [selectTls12, adoptSuite, hv]

theorem selectVersion_out (sh : ServerHello) (w : TlsWork) :
    Meets (selectVersion sh w) (fun _ v => v.out = w.out) (fun _ _ => True) := by
  simp [selectVersion, selectTls12, selectTls13, adoptSuite]

theorem adoptSuite_wire (version : Nat) (rc : TlsRc) (w : TlsWork) :
    Meets (adoptSuite version rc w) (fun _ v => v.session.wire = w.session.wire ∧ v.out = w.out) (fun _ _ => True) := by
  simp [adoptSuite]

theorem sendSecondClientHello_wire (env : TlsEnv) (w : TlsWork) :
    Meets (sendSecondClientHello env w) (fun _ v => ∃ info,
      env.helloBuild { sessionHelloRequest w.session w.session.hrrGroup with cookie := w.session.hrrCookie } = some info ∧
      v.session.wire = { w.session.wire with
        ch := info.body, trOn := true, flights := w.session.flights ++ [info.body],
        transcript := ⟨w.session.hash,
          messageHash env w.session.hash w.session.ch ++ w.session.hsHdr ++ w.session.hs ++ info.body⟩ } ∧
      v.out = w.out ++ info.wire)
      (fun _ _ => True) := by
  unfold sendSecondClientHello
  simp only [meets_bind, meets_session, meets_hasOut, meets_refuse, meets_orRefuse, meets_needRoom, meets_emit,
    meets_update, meets_pure, implies_true, true_and]
  intro _ info hinfo _ _
  refine ⟨info, hinfo, ?_, rfl⟩
  simp [TlsHash.update, hashInit, TlsEnv.hashFinal, messageHash]

/-- The request for a ClientHello depends on what stays from the start, and on the group. -/
theorem sessionHelloRequest_eq {s t : TlsSession} (hcfg : t.cfg = s.cfg) (hkeys : t.keys = s.keys)
    (hseed : t.helloGreaseSeed = s.helloGreaseSeed) (hrandom : t.clientRandom = s.clientRandom)
    (hsid : t.sessionId = s.sessionId) (hlen : t.echPayloadLen = s.echPayloadLen) (haead : t.echAead = s.echAead)
    (group : Nat) : sessionHelloRequest t group = sessionHelloRequest s group := by
  unfold sessionHelloRequest TlsSession.sni TlsSession.fp TlsSession.allowTls12
  rw [hcfg, hkeys, hseed, hrandom, hsid, hlen, haead]

theorem startTranscript_wire (s : TlsSession) : s.startTranscript.wire = { s.wire with
    trOn := if s.hrrDone then s.trOn else true,
    transcript := if s.hrrDone then s.transcript else ⟨s.hash, s.ch ++ s.hsHdr ++ s.hs⟩ } := by
  unfold TlsSession.startTranscript
  by_cases hd : s.hrrDone
  · simp [hd]
  · simp [hd, TlsHash.update, hashInit]

theorem handshakeKeys_wire (env : TlsEnv) (sh : ServerHello) (w : TlsWork) :
    Meets (handshakeKeys env sh w) (fun _ v => v.session.wire = { w.session.wire with peerGroup := sh.exts.peerGroup } ∧
        v.session.version = w.session.version ∧ v.out = w.out)
      (fun _ _ => True) := by
  unfold handshakeKeys
  simp only [meets_bind, meets_session, meets_lift, meets_orRefuse, meets_update, meets_pure, implies_true, true_and]
  intro shared _ derived _ c _ t _
  apply ((mute_setRead _ _ _).and (setRead_meets _ _)).mono
  · rintro _ v ⟨hv, hvm⟩
    apply ((setWrite_wire env _ _ v).and (calm_setWrite env _ _ v)).mono
    · rintro _ u ⟨⟨hu, huo⟩, hum⟩
      have hwire : v.session.wire = { w.session.wire with peerGroup := sh.exts.peerGroup } := by
        rw [hv.wire]
        unfold TlsSession.wire
        dsimp only [TlsWork.upd]
      have hset := congrArg TlsFlow.version hum.flow
      have hread := congrArg TlsFlow.version hvm.flow
      dsimp only [TlsWork.upd, TlsSession.flow, TlsFlow.withRead] at hset hread
      refine ⟨?_, hset.trans hread, huo.trans hv.out⟩
      rw [← hwire]
      exact hu
    · intro rc u _
      trivial
  · intro rc v _
    trivial

section Hello

variable {env : TlsEnv} {w v : TlsWork} {sh : ServerHello}

theorem onHelloRetry_wire (hq : Unmoved w v) (ho : v.out = w.out) (hx : HelloHeard w.session sh v.session.wire) (hr : sh.isHrr) :
    Meets (onHelloRetry env sh v) (fun _ u => HelloDid env w.session u.session ∧ Says env w u) (fun _ _ => True) := by
  unfold onHelloRetry
  simp only [meets_bind, meets_session, meets_refuse, implies_true, true_and]
  intro _
  apply ((adoptSuite_wire _ _ v).and (calm_adoptSuite _ rfl v)).mono
  · rintro _ u ⟨⟨huw, huo⟩, hu⟩
    have hq' := hq.trans hu
    have hpast := hq'.past
    simp only [meets_update, TlsSession.past, TlsPast.mk.injEq] at hpast ⊢
    apply (sendSecondClientHello_wire env _).mono
    · rintro _ t ⟨info, hinfo, ht, hto⟩
      have hwire := huw.trans hx.wire
      simp only [TlsSession.wire, TlsWire.mk.injEq] at hwire
      obtain ⟨hkeys, hseed, hrandom, hsid, hlen, haead, hch, htrOn, -, htrFin, hfl, hsuite, -, hgroup, hcookie, hpeer⟩ :=
        hwire
      refine ⟨.retry (hx.isHrr ▸ hr) u.session.hash info v.session.hrrGroup v.session.hrrCookie (hx.group hr) ?_ ?_,
        [info.body], info.wire, ?_, hto.trans (congrArg (· ++ info.wire) (huo.trans ho)),
        (SentRecord.hello _ info hinfo).alone⟩
      · rw [← hinfo, ← sessionHelloRequest_eq (t := (u.upd fun s => { s with version := 0x0304, hrrSuite := s.suite }).session)
          hpast.1 hkeys hseed hrandom hsid hlen haead]
        simp only [upd_session, hgroup, hcookie]
      · rw [ht]
        simp only [upd_session, TlsSession.wire, TlsWire.mk.injEq]
        simp_all
      · have hsent : t.session.flights = u.session.flights ++ [info.body] := congrArg TlsWire.flights ht
        rw [hsent, hfl]
    · intro rc t _
      trivial
  · intro rc u _
    trivial

theorem pick_wire (hq : Unmoved w v) (ho : v.out = w.out) (hx : HelloHeard w.session sh v.session.wire) (hr : sh.isHrr = false) :
    Meets ((do
      let version ← selectVersion sh
      update fun s => TlsSession.startTranscript { s with version := version }
      if version = 0x0303 then tls12Setup else handshakeKeys env sh : TlsHandler TlsRc) v)
      (fun _ u => HelloDid env w.session u.session ∧ Says env w u) (fun _ _ => True) := by
  have hpast := hq.past
  have hwire := hx.wire
  have hdone : v.session.hrrDone = w.session.hrrDone := congrArg TlsFlow.hrrDone hq.flow
  have hnot : isHelloRetry w.session.hs = false := by rw [← hx.isHrr, hr]
  obtain ⟨hgroup, hcookie⟩ := hx.plain hr
  simp only [TlsSession.past, TlsPast.mk.injEq] at hpast
  simp only [TlsSession.wire, TlsWire.mk.injEq] at hwire hgroup hcookie
  rw [meets_bind]
  apply (((selectVersion_wire sh v).and (selectVersion_out sh v)).and (selectVersion_meets sh)).mono
  · rintro version u ⟨⟨⟨huw, hpick⟩, huo⟩, hu, -⟩
    simp only [meets_bind, meets_update]
    generalize hy : TlsWork.upd _ _ = y
    have hdone' : u.session.hrrDone = w.session.hrrDone := (congrArg TlsFlow.hrrDone hu.flow).trans hdone
    have hpast' := hu.past
    simp only [TlsSession.past, TlsPast.mk.injEq] at hpast'
    have hyw : y.session.wire = { w.session.wire with
        suite := helloSuite w.session.hs, trOn := if w.session.hrrDone then w.session.trOn else true,
        transcript := if w.session.hrrDone then w.session.transcript
          else ⟨u.session.hash, w.session.ch ++ w.session.hsHdr ++ w.session.hs⟩ } := by
      rw [← hy, upd_session, startTranscript_wire]
      simp only [TlsSession.wire, TlsWire.mk.injEq] at huw ⊢
      simp_all
    have hyo : y.out = w.out := by
      rw [← hy]
      exact huo.trans ho
    have hyv : y.session.version = version := by
      rw [← hy, upd_session]
      exact congrArg TlsFlow.version (startTranscript_flow _)
    obtain ⟨rfl, hno⟩ | ⟨rfl, hsuite, hshare, hretry, hfirst⟩ := hpick
    · rw [if_pos rfl]
      refine ⟨.pick hnot u.session.hash w.session.peerGroup (.tls12 hyv ?_ rfl) hyw,
        .silent (congrArg TlsWire.flights hyw) hyo⟩
      rw [← hx.version, hno]
    · rw [if_neg (by decide)]
      obtain ⟨hcap, hmem⟩ := hx.share hshare
      apply (handshakeKeys_wire env sh y).mono
      · rintro _ t ⟨htw, htv, hto⟩
        have hwire := htw.trans (congrArg (fun x : TlsWire => { x with peerGroup := sh.exts.peerGroup }) hyw)
        refine ⟨.pick hnot u.session.hash sh.exts.peerGroup (.tls13 (htv.trans hyv) ?_ ?_ ?_ hcap hmem) hwire,
          .silent (congrArg TlsWire.flights hwire) (hto.trans hyo)⟩
        · intro hd
          have hs := hsuite (hdone.trans hd)
          exact (congrArg TlsWire.suite hx.wire).symm.trans (hs.trans (congrArg TlsWire.hrrSuite hx.wire))
        · intro hd hne
          rw [← hgroup] at hne ⊢
          exact hretry (hdone.trans hd) hne
        · intro hd
          have hf := hfirst (hdone.trans hd)
          unfold firstHelloHasGroup TlsSession.fp at hf ⊢
          rw [hpast.1] at hf
          exact hf
      · intro rc t _
        trivial
  · intro rc u _
    trivial

end Hello

/-- What an accepted message does to the wire of the session it meets. -/
inductive WireDid (env : TlsEnv) (s s' : TlsSession) : Prop
  | hello (hty : s.hsType = hsServerHello) (hst : s.st = .waitSh) (hwhole : s.hsLen = s.hs.length)
      (hdid : HelloDid env s s')
  | sent (hty : s.hsType ≠ hsServerHello) (l : List Bytes) (hwire : s'.wire = s.wire.sent l)
  | group (hty : s.hsType ≠ hsServerHello) (hv : s.version = 0x0303) (g : Nat)
      (hwire : s'.wire = { s.wire with peerGroup := g })

theorem onServerHello_wire (env : TlsEnv) {w : TlsWork} (hty : w.session.hsType = hsServerHello) :
    Meets (onServerHello env w) (fun _ v => WireDid env w.session v.session ∧ Says env w v) (fun _ _ => True) := by
  unfold onServerHello
  rw [meets_bind]
  apply (((readServerHello_meets w).and (readServerHello_wire w)).and (hears_readServerHello w)).mono
  · rintro sh v ⟨⟨⟨hq, hread⟩, hx⟩, -, -, ho⟩
    have hdid : Meets ((if sh.isHrr then onHelloRetry env sh else do
        let version ← selectVersion sh
        update fun s => TlsSession.startTranscript { s with version := version }
        if version = 0x0303 then tls12Setup else handshakeKeys env sh : TlsHandler TlsRc) v)
        (fun _ u => HelloDid env w.session u.session ∧ Says env w u) (fun _ _ => True) := by
      by_cases hr : sh.isHrr
      · rw [if_pos hr]
        exact onHelloRetry_wire hq ho hx hr
      · rw [if_neg hr]
        exact pick_wire hq ho hx (by simpa using hr)
    exact hdid.mono (fun _ u hu => ⟨.hello hty hread.st hread.whole hu.1, hu.2⟩) (fun _ _ _ => trivial)
  · intro rc v _
    trivial

theorem Sends.did {env : TlsEnv} {m : TlsHandler TlsRc} (h : Sends env m) {w : TlsWork}
    (hty : w.session.hsType ≠ hsServerHello) :
    Meets (m w) (fun _ v => WireDid env w.session v.session ∧ Says env w v) (fun _ _ => True) :=
  (h w).mono (fun _ _ ⟨l, _, hl⟩ => ⟨.sent hty l hl.wire, hl.says⟩) (fun _ _ _ => trivial)

theorem mute_did {env : TlsEnv} {m : TlsHandler TlsRc} (h : Frames Mute m) {w : TlsWork}
    (hty : w.session.hsType ≠ hsServerHello) :
    Meets (m w) (fun _ v => WireDid env w.session v.session ∧ Says env w v) (fun _ _ => True) :=
  (sends_of_mute h).did hty

theorem tls12Dispatch_wire {env : TlsEnv} {w : TlsWork} (hty : w.session.hsType ≠ hsServerHello)
    (hv : w.session.version = 0x0303) (type : Nat) :
    Meets (tls12Dispatch env type w) (fun _ v => WireDid env w.session v.session ∧ Says env w v) (fun _ _ => True) := by
  unfold tls12Dispatch
  split_ifs
  · exact mute_did mute_onCertificate12 hty
  · exact mute_did mute_onCertificateRequest12 hty
  · exact (onServerKx12_wire env w).mono (fun _ _ ⟨⟨g, hg⟩, hs⟩ => ⟨.group hty hv g hg, hs⟩) (fun _ _ _ => trivial)
  · exact sends_onHelloDone12.did hty
  · exact mute_did mute_onServerFinished12 hty
  · exact mute_did mute_onNewTicket12 hty
  · trivial

theorem tls13Dispatch_wire {env : TlsEnv} {w : TlsWork} (hty : w.session.hsType ≠ hsServerHello) (type : Nat) :
    Meets (tls13Dispatch env type w) (fun _ v => WireDid env w.session v.session ∧ Says env w v) (fun _ _ => True) := by
  unfold tls13Dispatch
  split_ifs
  · exact mute_did mute_onEncryptedExtensions hty
  · exact mute_did mute_onCertificate hty
  · exact mute_did mute_onCompressedCertificate hty
  · exact mute_did mute_onCertificateRequest hty
  · exact mute_did mute_onCertificateVerify hty
  · exact sends_onServerFinished.did hty
  · exact mute_did mute_onNewTicket hty
  · exact mute_did mute_onKeyUpdate hty
  · trivial

theorem tlsDispatch_wire (env : TlsEnv) (w : TlsWork) :
    Meets (tlsDispatch env w) (fun _ v => WireDid env w.session v.session ∧ Says env w v) (fun _ _ => True) := by
  unfold tlsDispatch
  rw [meets_bind, meets_session]
  by_cases hty : w.session.hsType = hsServerHello
  · rw [if_pos hty]
    exact onServerHello_wire env hty
  rw [if_neg hty]
  by_cases hv : w.session.version = 0x0303
  · rw [if_pos hv]
    exact tls12Dispatch_wire hty hv _
  · rw [if_neg hv]
    exact tls13Dispatch_wire hty _

end Qanat

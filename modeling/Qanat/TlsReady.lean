import Qanat.TlsRun

namespace Qanat

open TlsHandler Outcome

/-- What an entry of the history is to the handshake. A CompressedCertificate that a strict session holds
back is `withheld`. -/
inductive Kind
  | retry
  | hello
  | extensions
  | request
  | cert
  | compressed
  | withheld
  | verify
  | finished
  | ticket
  | keyExchange
  | helloDone
  | ccs
  deriving DecidableEq, Repr

/-- What an accepted message of type `ty` is; `retry` is whether a ServerHello asks for a retry. -/
def kindOf (ty : Nat) (retry : Bool) : Option Kind :=
  if ty = hsServerHello then some (if retry then .retry else .hello)
  else if ty = hsEncryptedExt then some .extensions
  else if ty = hsCertReq then some .request
  else if ty = hsCert then some .cert
  else if ty = hsCompressedCert then some .compressed
  else if ty = hsCertVerify then some .verify
  else if ty = hsFinished then some .finished
  else if ty = hsNewTicket then some .ticket
  else if ty = hsServerKx then some .keyExchange
  else if ty = hsHelloDone then some .helloDone
  else none

def Message.kind (m : Message) : Option Kind :=
  kindOf m.type (isHelloRetry m.body)

def Entry.kind : Entry → Option Kind
  | .message m =>
    if m.rc.isError then if m.type = hsCompressedCert ∧ m.rc = .unsupported then some .withheld else none
    else m.kind
  | .ccs _ _ => some .ccs
  | _ => none

def kinds (log : List Entry) : List Kind :=
  log.filterMap Entry.kind

/-- The accepted messages and the ChangeCipherSpecs. -/
def taken (log : List Entry) : List Kind :=
  (kinds log).filter (· ≠ .withheld)

/-- How far a session of TLS 1.3 has come, with the certificate message `c`. -/
def milestones (f : TlsFlow) (c : Kind) : List Kind :=
  match f.st with
  | .waitEe => [.hello]
  | .waitFin =>
    if f.sawCertVerify then [.hello, .extensions, c, .verify]
    else if f.sawCertificate || f.certCompressed then [.hello, .extensions, c]
    else [.hello, .extensions]
  | .ready => [.hello, .extensions, c, .verify, .finished]
  | _ => []

def certKinds : List Kind :=
  [.cert, .compressed, .withheld]

def retryPart (done : Bool) : List Kind :=
  if done then [.retry] else []

/-- The server's first flight in TLS 1.2. -/
def flight12 : List Kind :=
  [.hello, .cert, .keyExchange, .helloDone]

/-- A history of TLS 1.2 after the server's first flight: tickets, and then `ks`. -/
def Turned (done : Bool) (ks l : List Kind) : Prop :=
  ∃ n, l = retryPart done ++ flight12 ++ List.replicate n Kind.ticket ++ ks

/-- How far a session of TLS 1.2 has come. -/
def Shape12 (f : TlsFlow) (ccs : Bool) (l : List Kind) : Prop :=
  match f.st with
  | .new => ccs = false → l = retryPart f.hrrDone
  | .waitSh => ccs = false → l = retryPart f.hrrDone
  | .waitCert => ccs = false →
    match f.tls12Step with
    | .expectCert => l = retryPart f.hrrDone ++ [.hello]
    | .expectServerKx => l = retryPart f.hrrDone ++ [.hello, .cert]
    | .expectReqOrDone => l = retryPart f.hrrDone ++ [.hello, .cert, .keyExchange]
    | .flightDone => True
  | .waitCcs => ccs = false → Turned f.hrrDone [] l
  | .waitFin => f.version = 0x0303 → Turned f.hrrDone [.ccs] l
  | .ready => f.version = 0x0303 → Turned f.hrrDone [.ccs, .finished] l
  | _ => True

/-- A handshake of TLS 1.3 that was carried through. -/
def Done13 (log : List Entry) : Prop :=
  ∃ c ∈ certKinds, [.hello, .extensions, c, .verify, .finished].Sublist (kinds log)

/-- A handshake of TLS 1.2 that was carried through. -/
def Done12 (log : List Entry) : Prop :=
  ∃ done, Turned done [.ccs, .finished] (taken log)

/-- Every Finished that was accepted carried what the session had computed from the transcript. -/
def Checked (log : List Entry) : Prop :=
  ∀ m, .message m ∈ log → m.type = hsFinished → m.rc.isError = false → m.expected = some m.body

/-- The peer has authenticated the handshake and has sent no alert. -/
structure Authentic (log : List Entry) : Prop where
  flight : Done13 log ∨ Done12 log
  checked : Checked log
  alert : .alert ∉ log

/-- Application data only ever came after an authenticated handshake. -/
def Guarded (log : List Entry) : Prop :=
  ∀ pre p post, log = pre ++ Entry.data p :: post → Authentic pre

theorem Guarded.snoc {log : List Entry} {x : Entry} (h : Guarded log) (hx : ∀ p, x = .data p → Authentic log) :
    Guarded (log ++ [x]) := by
  intro pre p post heq
  rcases List.eq_nil_or_concat post with rfl | ⟨post, y, rfl⟩
  · obtain ⟨rfl, hxp⟩ := List.append_inj' heq rfl
    exact hx p (List.cons.inj hxp).1
  · rw [List.concat_eq_append, ← List.cons_append, ← List.append_assoc] at heq
    obtain ⟨rfl, -⟩ := List.append_inj' heq rfl
    exact h pre p post rfl

/-- What the states of a session say about its history. -/
structure Ordered (f : TlsFlow) (ccs : Bool) (log : List Entry) : Prop where
  fresh : f.st = .new ∨ f.st = .waitSh ∨ f.st = .waitEe →
    f.sawCertificate = false ∧ f.certCompressed = false ∧ f.sawCertVerify = false
  version12 : f.st = .waitCert ∨ f.st = .waitCcs → f.version = 0x0303
  version13 : f.st = .waitEe → f.version ≠ 0x0303
  shape13 : f.version ≠ 0x0303 → ∃ c ∈ certKinds, (milestones f c).Sublist (kinds log)
  shape12 : Shape12 f ccs (taken log)
  ccs12 : f.st = .waitFin → f.version = 0x0303 → ccs = true
  checked : Checked log
  alert : .alert ∈ log → f.st = .closed
  data : Guarded log

@[simp] theorem kinds_append (l k : List Entry) : kinds (l ++ k) = kinds l ++ kinds k := by
  simp [kinds]

@[simp] theorem taken_append (l k : List Entry) : taken (l ++ k) = taken l ++ taken k := by
  simp [taken]

theorem Checked.snoc {log : List Entry} {x : Entry} (h : Checked log)
    (hx : ∀ m, x = .message m → m.type = hsFinished → m.rc.isError = false → m.expected = some m.body) :
    Checked (log ++ [x]) := by
  intro m hm
  rcases List.mem_append.mp hm with hm | hm
  · exact h m hm
  · exact hx m (List.mem_singleton.mp hm).symm

theorem kinds_accepted {m : Message} {k : Kind} (hrc : m.rc.isError = false) (hk : m.kind = some k) :
    kinds [.message m] = [k] := by
  simp [kinds, Entry.kind, hrc, hk]

theorem ite_some_ne {c : Prop} [Decidable c] {a k : Kind} {x : Option Kind} (ha : a ≠ k) (hx : x ≠ some k) :
    (if c then some a else x) ≠ some k := by
  split
  · exact fun h => ha (Option.some.inj h)
  · exact hx

/-- The kinds that no type of message has. -/
theorem kindOf_ne {ty : Nat} {retry : Bool} {k : Kind} (hk : k ∈ [Kind.withheld, .ccs]) : kindOf ty retry ≠ some k := by
  have hne : ∀ a ∈ [Kind.retry, .hello, .extensions, .request, .cert, .compressed, .verify, .finished, .ticket,
      .keyExchange, .helloDone], a ≠ k := by
    obtain rfl | rfl : k = .withheld ∨ k = .ccs := by simpa using hk
    · decide
    · decide
  unfold kindOf
  refine ite_some_ne ?_ ?_
  · cases retry <;> exact hne _ (by decide)
  · repeat' refine ite_some_ne (hne _ (by decide)) ?_
    exact fun h => nomatch h

theorem kindOf_ne_hello {ty : Nat} (retry : Bool) (h : ty ≠ hsServerHello) :
    kindOf ty retry ≠ some .retry ∧ kindOf ty retry ≠ some .hello := by
  unfold kindOf
  rw [if_neg h]
  constructor
  · repeat' refine ite_some_ne (by decide) ?_
    exact fun h => nomatch h
  · repeat' refine ite_some_ne (by decide) ?_
    exact fun h => nomatch h

theorem kind_ne_withheld {m : Message} {k : Kind} (hk : m.kind = some k) : k ≠ .withheld := by
  rintro rfl
  exact kindOf_ne (by decide) hk

theorem taken_accepted {m : Message} {k : Kind} (hrc : m.rc.isError = false) (hk : m.kind = some k) :
    taken [.message m] = [k] := by
  simp [taken, kinds_accepted hrc hk, kind_ne_withheld hk]

theorem taken_refused {m : Message} (hrc : m.rc.isError) : taken [.message m] = [] := by
  unfold taken kinds Entry.kind
  by_cases h : m.type = hsCompressedCert ∧ m.rc = .unsupported
  · simp [h]
  · simp [hrc, h]

theorem milestones_grow {f : TlsFlow} {l : List Kind} (k : List Kind)
    (h : ∃ c ∈ certKinds, (milestones f c).Sublist l) : ∃ c ∈ certKinds, (milestones f c).Sublist (l ++ k) := by
  obtain ⟨c, hc, hsub⟩ := h
  exact ⟨c, hc, hsub.trans (List.sublist_append_left _ _)⟩

section Accepted

variable {env : TlsEnv} {s : TlsSession} {rc : TlsRc} {f : TlsFlow}

theorem Accepts.isError (h : Accepts env s rc f) : rc.isError = false := by
  cases h <;> rfl

theorem Accepts.ofHello (h : Accepts env s rc f) (hty : s.hsType = hsServerHello) :
    (isHelloRetry s.hs ∧ f.hrrDone ∧ s.hrrDone = false) ∨
    isHelloRetry s.hs = false ∧ f.hrrDone = s.hrrDone ∧ f.st ≠ .waitSh := by
  cases h with
  | retry _ _ hr hd => exact .inl ⟨hr, rfl, hd⟩
  | hello12 _ hst hr => exact .inr ⟨by simpa using hr, rfl, by simp⟩
  | hello13 _ hst hr hv => exact .inr ⟨by simpa using hr, rfl, by simp⟩
  | extensions hty' | request hty' | certificate hty' | compressed hty' | verify hty' | finished hty' | ticket hty'
  | certificate12 hty' | keyExchange12 hty' | helloDone12 hty' | finished12 hty' | ticket12 hty' =>
    exact absurd (hty.symm.trans hty') (by decide)

/-- A milestone is passed. -/
theorem milestones_snoc {f f' : TlsFlow} {c c' k : Kind} {log : List Entry} {m : Message}
    (hold : (milestones f c).Sublist (kinds log)) (hm : kinds [.message m] = [k])
    (hf : milestones f' c' = milestones f c ++ [k]) : (milestones f' c').Sublist (kinds (log ++ [Entry.message m])) := by
  rw [hf, kinds_append, hm]
  exact hold.append (List.Sublist.refl _)

theorem message_kind {ty : Nat} (hty : s.hsType = ty) (left : Bytes) :
    (s.message env left rc).kind = kindOf ty (isHelloRetry s.hs) := by
  rw [← hty]
  rfl

theorem Accepts.shape13 (h : Accepts env s rc f) (left : Bytes) (ho : Ordered s.flow s.sawCcs s.log)
    (hf : f.version ≠ 0x0303) :
    ∃ c ∈ certKinds, (milestones f c).Sublist (kinds (s.log ++ [Entry.message (s.message env left rc)])) := by
  have hrc := h.isError
  have hgrow := fun hv => milestones_grow (kinds [.message (s.message env left rc)]) (ho.shape13 hv)
  simp only [← kinds_append] at hgrow
  cases h with
  | retry hty hst hr hd =>
    refine ⟨.cert, by simp [certKinds], ?_⟩
    simp [milestones, hst]
  | hello12 hty hst hr => exact absurd rfl hf
  | hello13 hty hst hr hv =>
    have hk : kinds [.message (s.message env left .ok)] = [.hello] :=
      kinds_accepted hrc (by simp [message_kind hty left, kindOf, hr])
    refine ⟨.cert, by simp [certKinds], ?_⟩
    rw [kinds_append, hk]
    exact List.sublist_append_right _ _
  | extensions hty hv hst =>
    have hk : kinds [.message (s.message env left .ok)] = [.extensions] :=
      kinds_accepted hrc (message_kind hty left)
    obtain ⟨c, hc, hold⟩ := ho.shape13 hv
    have hflags := ho.fresh (.inr (.inr hst))
    simp only [TlsSession.flow] at hflags
    exact ⟨c, hc, milestones_snoc hold hk (by simp [milestones, hst, hflags])⟩
  | request hty hv hst hr hc => exact hgrow hv
  | certificate hty hv hst hc hcv =>
    have hk : kinds [.message (s.message env left .ok)] = [.cert] :=
      kinds_accepted hrc (message_kind hty left)
    by_cases hcc : s.certCompressed
    · obtain ⟨c, hc', hold⟩ := hgrow hv
      refine ⟨c, hc', ?_⟩
      simpa [milestones, hst, hc, hcv, hcc] using hold
    · obtain ⟨c, hc', hold⟩ := ho.shape13 hv
      refine ⟨.cert, by simp [certKinds], milestones_snoc hold hk (by simp [milestones, hst, hc, hcv, hcc])⟩
  | compressed hty hv hst hc hcv =>
    have hk : kinds [.message (s.message env left .ok)] = [.compressed] :=
      kinds_accepted hrc (message_kind hty left)
    by_cases hcc : s.certCompressed
    · obtain ⟨c, hc', hold⟩ := hgrow hv
      refine ⟨c, hc', ?_⟩
      simpa [milestones, hst, hc, hcv, hcc] using hold
    · obtain ⟨c, hc', hold⟩ := ho.shape13 hv
      refine ⟨.compressed, by simp [certKinds], milestones_snoc hold hk (by simp [milestones, hst, hc, hcv, hcc])⟩
  | verify hty hv hst hc hcv =>
    have hk : kinds [.message (s.message env left .ok)] = [.verify] :=
      kinds_accepted hrc (message_kind hty left)
    obtain ⟨c, hc', hold⟩ := ho.shape13 hv
    exact ⟨c, hc', milestones_snoc hold hk (by simp [milestones, hst, hc, hcv])⟩
  | finished hty hv hst hc hcv hx =>
    have hk : kinds [.message (s.message env left .done)] = [.finished] :=
      kinds_accepted hrc (message_kind hty left)
    obtain ⟨c, hc', hold⟩ := ho.shape13 hv
    exact ⟨c, hc', milestones_snoc hold hk (by simp [milestones, hst, hcv])⟩
  | ticket hty hv hst => exact hgrow hv
  | certificate12 hty hv hst hstep => exact absurd hv hf
  | keyExchange12 hty hv hst hstep => exact absurd hv hf
  | helloDone12 hty hv hst hstep => exact absurd hv hf
  | finished12 hty hv hst hx => exact absurd hv hf
  | ticket12 hty hv hst => exact absurd hv hf

theorem Turned.snoc {done : Bool} {ks l : List Kind} (k : Kind) (h : Turned done ks l) :
    Turned done (ks ++ [k]) (l ++ [k]) := by
  obtain ⟨n, rfl⟩ := h
  exact ⟨n, by simp⟩

theorem Turned.ticket {done : Bool} {l : List Kind} (h : Turned done [] l) : Turned done [] (l ++ [Kind.ticket]) := by
  obtain ⟨n, rfl⟩ := h
  refine ⟨n + 1, ?_⟩
  simp [List.replicate_succ']

theorem Accepts.shape12 (h : Accepts env s rc f) (left : Bytes) (ho : Ordered s.flow s.sawCcs s.log) :
    Shape12 f s.sawCcs (taken (s.log ++ [Entry.message (s.message env left rc)])) := by
  have hrc := h.isError
  have hold := ho.shape12
  rw [taken_append]
  cases h with
  | retry hty hst hr hd =>
    have hk : taken [.message (s.message env left .ok)] = [.retry] :=
      taken_accepted hrc (by simp [message_kind hty left, kindOf, hr])
    simp only [Shape12, TlsSession.flow, hst, hd] at hold ⊢
    intro hccs
    rw [hold hccs, hk]
    rfl
  | hello12 hty hst hr =>
    have hk : taken [.message (s.message env left .ok)] = [.hello] :=
      taken_accepted hrc (by simp [message_kind hty left, kindOf, hr])
    simp only [Shape12, TlsSession.flow, hst] at hold ⊢
    intro hccs
    rw [hold hccs, hk]
  | hello13 hty hst hr hv => trivial
  | extensions hty hv hst => exact fun h => absurd h hv
  | request hty hv hst hr hc =>
    simp only [Shape12, TlsSession.flow, hst]
    exact fun h => absurd h hv
  | certificate hty hv hst hc hcv =>
    simp only [Shape12, TlsSession.flow, hst]
    exact fun h => absurd h hv
  | compressed hty hv hst hc hcv =>
    simp only [Shape12, TlsSession.flow, hst]
    exact fun h => absurd h hv
  | verify hty hv hst hc hcv =>
    simp only [Shape12, TlsSession.flow, hst]
    exact fun h => absurd h hv
  | finished hty hv hst hc hcv hx => exact fun h => absurd h hv
  | ticket hty hv hst =>
    simp only [Shape12, TlsSession.flow, hst]
    exact fun h => absurd h hv
  | certificate12 hty hv hst hstep =>
    have hk : taken [.message (s.message env left .ok)] = [.cert] := taken_accepted hrc (message_kind hty left)
    simp only [Shape12, TlsSession.flow, hst, hstep] at hold ⊢
    intro hccs
    rw [hold hccs, hk, List.append_assoc]
    rfl
  | keyExchange12 hty hv hst hstep =>
    have hk : taken [.message (s.message env left .ok)] = [.keyExchange] := taken_accepted hrc (message_kind hty left)
    simp only [Shape12, TlsSession.flow, hst, hstep] at hold ⊢
    intro hccs
    rw [hold hccs, hk, List.append_assoc]
    rfl
  | helloDone12 hty hv hst hstep =>
    have hk : taken [.message (s.message env left .ok)] = [.helloDone] := taken_accepted hrc (message_kind hty left)
    simp only [Shape12, TlsSession.flow, hst, hstep] at hold ⊢
    intro hccs
    rw [hold hccs, hk]
    exact ⟨0, by simp [flight12]⟩
  | finished12 hty hv hst hx =>
    have hk : taken [.message (s.message env left .done)] = [.finished] := taken_accepted hrc (message_kind hty left)
    simp only [Shape12, TlsSession.flow, hst] at hold ⊢
    intro _
    rw [hk]
    exact (hold hv).snoc .finished
  | ticket12 hty hv hst =>
    have hk : taken [.message (s.message env left .ok)] = [.ticket] := taken_accepted hrc (message_kind hty left)
    simp only [Shape12, TlsSession.flow, hst] at hold ⊢
    intro hccs
    rw [hk]
    exact (hold hccs).ticket

/-- An accepted Finished carried what the session had computed. -/
theorem Accepts.finished_checked (h : Accepts env s rc f) (hty : s.hsType = hsFinished) :
    finishedExpect env s = some s.hs := by
  unfold finishedExpect
  cases h with
  | finished _ hv _ _ _ hx => rw [if_neg hv, hx]
  | finished12 _ hv _ hx => rw [if_pos hv, hx]
  | retry hty' | hello12 hty' | hello13 hty' | extensions hty' | request hty' | certificate hty' | compressed hty'
  | verify hty' | ticket hty' | certificate12 hty' | keyExchange12 hty' | helloDone12 hty' | ticket12 hty' =>
    exact absurd (hty'.symm.trans hty) (by decide)

theorem Accepts.ordered (h : Accepts env s rc f) (left : Bytes) (ho : Ordered s.flow s.sawCcs s.log) :
    Ordered f s.sawCcs (s.log ++ [Entry.message (s.message env left rc)]) where
  fresh := by
    have hfresh := ho.fresh
    cases h <;> simp_all
  version12 := by
    have hver := ho.version12
    cases h <;> simp_all
  version13 := by
    have hver := ho.version13
    cases h <;> simp_all
  shape13 := h.shape13 left ho
  shape12 := h.shape12 left ho
  ccs12 := by
    have hccs := ho.ccs12
    cases h <;> simp_all
  checked := by
    refine ho.checked.snoc ?_
    rintro m hm hty -
    obtain rfl := Entry.message.inj hm
    exact h.finished_checked hty
  alert := by
    intro hm
    have hst := ho.alert (by simpa using hm)
    cases h <;> simp_all
  data := ho.data.snoc (by simp)

end Accepted

section Kept

variable {env : TlsEnv} {s : TlsSession} {rc : TlsRc} {f : TlsFlow}

theorem Refuses.shape13 (h : Refuses s rc f) (left : Bytes) (ho : Ordered s.flow s.sawCcs s.log)
    (hf : f.version ≠ 0x0303) :
    ∃ c ∈ certKinds, (milestones f c).Sublist (kinds (s.log ++ [Entry.message (s.message env left rc)])) := by
  rcases h.version with hv | hst
  · rw [hv] at hf
    have hold := ho.shape13 hf
    rcases h.compressed with hc | ⟨hun, hfc, hty, -, hst, hc, hcv⟩
    · have hmile : ∀ c, milestones f c = milestones s.flow c := by
        intro c
        simp [milestones, h.st, h.sawCertificate, h.sawCertVerify, hc]
      simp only [hmile, kinds_append]
      exact milestones_grow _ hold
    · have hk : kinds [.message (s.message env left rc)] = [.withheld] := by
        simp [kinds, Entry.kind, TlsSession.message, hty, hun]
      by_cases hcc : s.certCompressed
      · obtain ⟨c, hc', hsub⟩ := milestones_grow [.withheld] hold
        refine ⟨c, hc', ?_⟩
        rw [kinds_append, hk]
        simpa [milestones, h.st, hst, h.sawCertificate, h.sawCertVerify, hc, hcv, hcc, hfc] using hsub
      · obtain ⟨c, hc', hsub⟩ := hold
        exact ⟨.withheld, by simp [certKinds], milestones_snoc hsub hk
          (by simp [milestones, h.st, hst, h.sawCertificate, h.sawCertVerify, hc, hcv, hcc, hfc])⟩
  · refine ⟨.cert, by simp [certKinds], ?_⟩
    simp [milestones, h.st, hst]

theorem Refuses.shape12 (h : Refuses s rc f) (hrc : rc.isError) (left : Bytes)
    (ho : Ordered s.flow s.sawCcs s.log) :
    Shape12 f s.sawCcs (taken (s.log ++ [Entry.message (s.message env left rc)])) := by
  have hold := ho.shape12
  rw [taken_append, taken_refused hrc, List.append_nil]
  unfold Shape12 at hold ⊢
  rw [h.st, h.hrrDone]
  rcases h.version with hv | hst
  · rcases h.step with hstep | ⟨hst, hstep⟩
    · rw [hv, hstep]
      exact hold
    · rw [hst, hstep]
      exact fun _ => trivial
  · rw [hst]
    simpa [hst] using hold

theorem Refuses.ordered (h : Refuses s rc f) (hrc : rc.isError) (left : Bytes) (ho : Ordered s.flow s.sawCcs s.log) :
    Ordered f s.sawCcs (s.log ++ [Entry.message (s.message env left rc)]) where
  fresh := by
    rw [h.st, h.sawCertificate, h.sawCertVerify]
    intro hst
    have hflags := ho.fresh hst
    rcases h.compressed with hc | ⟨-, -, -, -, hst', -⟩
    · rw [hc]
      exact hflags
    · simp [hst'] at hst
  version12 := by
    rw [h.st]
    intro hst
    rcases h.version with hv | hst'
    · rw [hv]
      exact ho.version12 hst
    · simp [hst'] at hst
  version13 := by
    rw [h.st]
    intro hst
    rcases h.version with hv | hst'
    · rw [hv]
      exact ho.version13 hst
    · simp [hst'] at hst
  shape13 := h.shape13 left ho
  shape12 := h.shape12 hrc left ho
  ccs12 := by
    rw [h.st]
    intro hst
    rcases h.version with hv | hst'
    · rw [hv]
      exact ho.ccs12 hst
    · simp [hst'] at hst
  checked := by
    refine ho.checked.snoc ?_
    rintro m hm - hok
    obtain rfl := Entry.message.inj hm
    exact absurd hok (by simp [TlsSession.message, hrc])
  alert := by
    intro hm
    rw [h.st]
    exact ho.alert (by simpa using hm)
  data := ho.data.snoc (by simp)

theorem changed_flow (s : TlsSession) : s.changed.flow =
    if s.version = 0x0303 ∧ s.st = .waitCcs then
      { s.flow with st := .waitFin, rdOn := true, epoch := .changed }
    else s.flow := by
  unfold TlsSession.changed TlsSession.tls12OnCcs
  dsimp only
  split_ifs <;> simp_all [TlsSession.note]

theorem Same.ordered {s' : TlsSession} (h : Same s s') (ho : Ordered s.flow s.sawCcs s.log) :
    Ordered s'.flow s'.sawCcs s'.log := by
  rw [h.flow, h.sawCcs, h.log]
  exact ho

end Kept

/-- A Finished that was compared with what the session had computed, and found equal. -/
def Message.IsFinished (m : Message) : Prop :=
  m.type = hsFinished ∧ m.rc = .done ∧ m.expected = some m.body

/-- A session whose history was `old` and that has become ready since has accepted a Finished since. -/
def ReadySince (old : List Entry) (was : Bool) (s : TlsSession) : Prop :=
  ∃ new, s.log = old ++ new ∧ (s.st = .ready → was = false → ∃ m, .message m ∈ new ∧ m.IsFinished)

theorem ReadySince.same {old : List Entry} {was : Bool} {s s' : TlsSession} (h : ReadySince old was s)
    (hs : Same s s') : ReadySince old was s' := by
  have hst : s'.st = s.st := congrArg TlsFlow.st hs.flow
  unfold ReadySince
  rw [hs.log, hst]
  exact h

theorem ReadySince.snoc {old : List Entry} {was : Bool} {s s' : TlsSession} {x : Entry} (h : ReadySince old was s)
    (hlog : s'.log = s.log ++ [x])
    (hst : s'.st = .ready → s.st = .ready ∨ ∃ m, x = .message m ∧ m.IsFinished) : ReadySince old was s' := by
  obtain ⟨new, hnew, hready⟩ := h
  refine ⟨new ++ [x], ?_, fun hr hwas => ?_⟩
  · rw [hlog, hnew, List.append_assoc]
  · rcases hst hr with hs | ⟨m, rfl, hm⟩
    · obtain ⟨m, hmem, hm⟩ := hready hs hwas
      exact ⟨m, List.mem_append_left _ hmem, hm⟩
    · exact ⟨m, by simp, hm⟩

theorem Accepts.ready {env : TlsEnv} {s : TlsSession} {rc : TlsRc} {f : TlsFlow} (h : Accepts env s rc f)
    (left : Bytes) (hf : f.st = .ready) : s.st = .ready ∨ (s.message env left rc).IsFinished := by
  cases h with
  | finished hty hv hst hc hcv hx =>
    refine .inr ⟨hty, rfl, ?_⟩
    show finishedExpect env s = some s.hs
    rw [finishedExpect, if_neg hv, hx]
  | finished12 hty hv hst hx =>
    refine .inr ⟨hty, rfl, ?_⟩
    show finishedExpect env s = some s.hs
    rw [finishedExpect, if_pos hv, hx]
  | retry | hello12 | hello13 | extensions | request | certificate | compressed | verify | ticket | certificate12
  | keyExchange12 | helloDone12 | ticket12 => simp_all

section Start

variable (env : TlsEnv) (cfg : TlsConfig) (draws : HelloDraws) (cap : Nat)

/-- A session right after `qn_tls_start`. -/
theorem start_flow : ∃ st, (st = .new ∨ st = .waitSh) ∧
    (Conn.start env cfg draws cap).session.flow = { (tlsInit cfg).flow with st := st } ∧
    (Conn.start env cfg draws cap).session.past = (tlsInit cfg).past := by
  unfold Conn.start tlsStart TlsSession.withDraws
  dsimp only
  repeat' split
  all_goals first
    | exact ⟨.new, .inl rfl, rfl, rfl⟩
    | exact ⟨.waitSh, .inr rfl, rfl, rfl⟩

end Start

end Qanat

import Qanat.TlsCut

namespace Qanat

open TlsHandler

/-- What the records rely on: opening undoes sealing, and a sealed text is longer by the tag. -/
structure AeadSound (env : TlsEnv) : Prop where
  opens : ∀ a nonce aad p c, env.aeadSeal a nonce aad p = some c → env.aeadOpen a nonce aad c = some p
  length : ∀ a nonce aad p c, env.aeadSeal a nonce aad p = some c → c.length = p.length + aeadTagLen

/-- A ready session that reads what another writes. -/
structure Mirrors (s p : TlsSession) : Prop where
  ready : p.st = .ready
  version : p.version = s.version
  aeadId : p.aeadId = s.aeadId
  aead : p.rd.aead = s.wr.aead
  iv : p.rd.iv = s.wr.iv
  seq : p.rd.seq = s.wr.seq
  on : p.rd.on = s.wr.on

/-- A session that was handed the content of a record. -/
def TlsSession.handed (p : TlsSession) (chunk : Bytes) : TlsSession :=
  p.opened.note (.data chunk)

theorem Mirrors.next {s p : TlsSession} (h : Mirrors s p) (chunk : Bytes) :
    Mirrors (s.sealedApp chunk) (p.handed chunk) :=
  ⟨h.ready, h.version, h.aeadId, h.aead, h.iv, congrArg (· + 1) h.seq, h.on⟩

/-- A record that `qn_tls_recv` takes whole. -/
structure WholeRecord (r : Bytes) : Prop where
  header : recHdr ≤ r.length
  need : recordNeed r = r.length
  fine : headerRefused true r = false

theorem wireBytes_length (n v : Nat) : (wireBytes n v).length = n := by
  induction n generalizing v with
  | zero => rfl
  | succ n ih => simp [wireBytes, ih]

theorem recordHeader_length (type : UInt8) (n : Nat) : (recordHeader type n).length = recHdr := by
  simp [recordHeader, wireBytes_length, recHdr]

theorem recordNeed_header (type : UInt8) {n : Nat} (h : n ≤ 0xFFFF) (body : Bytes) :
    recordNeed (recordHeader type n ++ body) = recHdr + n := by
  have hdrop : (recordHeader type n ++ body).drop 3 = [UInt8.ofNat (n / 256), UInt8.ofNat n] ++ body := rfl
  unfold recordNeed rd16
  rw [hdrop]
  simp only [byteAt, List.cons_append, List.getD_cons_zero, List.getD_cons_succ, UInt8.toNat_ofNat']
  omega

theorem wholeRecord_app {n : Nat} {body : Bytes} (hlen : body.length = n) (h : n ≤ tlsRecMax - recHdr) :
    WholeRecord (recordHeader rtApp n ++ body) := by
  have hmax : tlsRecMax = 16645 := rfl
  have hhdr : recHdr = 5 := rfl
  have hneed := recordNeed_header rtApp (n := n) (by omega) body
  refine ⟨?_, ?_, ?_⟩
  · rw [List.length_append, recordHeader_length]
    omega
  · rw [hneed, List.length_append, recordHeader_length, hlen]
  · have h0 : byteAt (recordHeader rtApp n ++ body) 0 = 23 := rfl
    have h1 : byteAt (recordHeader rtApp n ++ body) 1 = 3 := rfl
    have h2 : byteAt (recordHeader rtApp n ++ body) 2 = 3 := rfl
    unfold headerRefused
    rw [h0, h1, h2, hneed]
    simp
    omega

/-- The last byte is the content type, so nothing is stripped. -/
theorem unpad_snoc {data : Bytes} {inner : UInt8} (h : inner ≠ 0) : unpad (data ++ [inner]) = some (inner, data) := by
  unfold unpad
  rw [List.reverse_append, List.reverse_singleton, List.singleton_append, List.dropWhile_cons_of_neg (by simpa using h)]
  simp

section Record

variable {env : TlsEnv} {s p : TlsSession} {chunk r : Bytes} {cap : Nat}

/-- A TLS 1.3 record, taken apart. -/
theorem sealRecord_parts {inner : UInt8} (h : sealRecord env s inner chunk = some r) :
    s.wr.on ∧ s.wr.seq ≠ seqMax ∧ ∃ aead body, s.wr.aead = some aead ∧
      env.aeadSeal aead (nonceFor s.wr) (recordHeader rtApp (chunk.length + 1 + aeadTagLen)) (chunk ++ [inner]) =
        some body ∧
      r = recordHeader rtApp (chunk.length + 1 + aeadTagLen) ++ body := by
  unfold sealRecord at h
  dsimp only at h
  split_ifs at h with hno
  obtain ⟨aead, haead, h⟩ := Option.bind_eq_some_iff.mp h
  obtain ⟨body, hbody, h⟩ := Option.bind_eq_some_iff.mp h
  simp only [not_or, not_not] at hno
  exact ⟨hno.1, hno.2.1, aead, body, haead, hbody, (Option.some.inj h).symm⟩

/-- A TLS 1.2 record, taken apart. -/
theorem tls12Seal_parts {type : UInt8} (h : tls12Seal env s type chunk = some r) :
    s.wr.on ∧ s.wr.seq ≠ seqMax ∧ ∃ aead body, s.wr.aead = some aead ∧
      env.aeadSeal aead (nonceFor12 s s.wr (aadFor s.wr.seq type chunk.length)) (aadFor s.wr.seq type chunk.length) chunk =
        some body ∧
      r = recordHeader type (explicitLen s.aeadId + chunk.length + aeadTagLen) ++
        ((aadFor s.wr.seq type chunk.length).take (explicitLen s.aeadId) ++ body) := by
  unfold tls12Seal at h
  dsimp only at h
  split_ifs at h with hno
  obtain ⟨aead, haead, h⟩ := Option.bind_eq_some_iff.mp h
  obtain ⟨body, hbody, h⟩ := Option.bind_eq_some_iff.mp h
  simp only [not_or, not_not] at hno
  rw [List.append_assoc] at h
  exact ⟨hno.1, hno.2.2, aead, body, haead, hbody, (Option.some.inj h).symm⟩

/-- A program that can only end in one way. -/
theorem ok_of_meets {x : EStateM.Result TlsRc TlsWork Unit} {v : TlsWork}
    (h : Outcome.Meets x (fun _ u => u = v) (fun _ _ => False)) : x = .ok () v := by
  cases x with
  | ok b u =>
    obtain rfl := h
    rfl
  | error rc u => exact absurd h id

/-- The content of a record that was opened as application data is delivered. -/
theorem deliver_meets {v : TlsWork} (hst : v.session.st = .ready) (happ : v.app = []) (hroom : chunk.length ≤ v.appRoom) :
    Outcome.Meets (deliver chunk v)
      (fun _ u => u = { v with app := chunk, session := v.session.note (.data chunk) }) (fun _ _ => False) := by
  unfold deliver
  rw [if_neg (not_not.mpr hst), happ, if_neg (by simpa using hroom)]
  rfl

section Handled

variable (haead : AeadSound env) (hm : Mirrors s p) (hlen : chunk.length ≤ recMaxPt)
include haead hm hlen

theorem sealed13_handled (hv : s.version ≠ 0x0303) (h : sealRecord env s rtApp chunk = some r) :
    WholeRecord r ∧ ∀ hasOut outRoom appRoom, chunk.length ≤ appRoom →
      handleRecord env ⟨{ p with recBuf := r }, hasOut, outRoom, [], appRoom, [], false⟩ =
        .ok () ⟨{ p.handed chunk with recBuf := r }, hasOut, outRoom, [], appRoom, chunk, false⟩ := by
  obtain ⟨hon, hseq, aead, body, haeadS, hbody, rfl⟩ := sealRecord_parts h
  have hblen := haead.length _ _ _ _ _ hbody
  have hopen := haead.opens _ _ _ _ _ hbody
  rw [List.length_append, List.length_singleton] at hblen
  have htag : aeadTagLen = 16 := rfl
  have hpt : recMaxPt = 16384 := rfl
  have hmax : tlsRecMax = 16645 := rfl
  have hhdr : recHdr = 5 := rfl
  refine ⟨wholeRecord_app hblen (by omega), fun hasOut outRoom appRoom hroom => ok_of_meets ?_⟩
  have htake : (recordHeader rtApp (chunk.length + 1 + aeadTagLen) ++ body).take recHdr =
      recordHeader rtApp (chunk.length + 1 + aeadTagLen) := List.take_left' (recordHeader_length _ _)
  have hdrop : (recordHeader rtApp (chunk.length + 1 + aeadTagLen) ++ body).drop recHdr = body :=
    List.drop_left' (recordHeader_length _ _)
  have hhead : (recordHeader rtApp (chunk.length + 1 + aeadTagLen) ++ body).headD 0 = rtApp := rfl
  have hnonce : nonceFor p.rd = nonceFor s.wr := by
    unfold nonceFor
    rw [hm.iv, hm.seq]
  unfold handleRecord
  simp only [Outcome.meets_bind, meets_session]
  rw [hhead, if_neg (by decide), Outcome.meets_bind]
  unfold openContent
  rw [Outcome.meets_bind, meets_session]
  dsimp only
  rw [if_neg (by rw [hm.version]; exact hv), if_pos (by rw [hm.on]; exact hon)]
  unfold openRecord
  simp only [Outcome.meets_bind, meets_refuse, meets_session, meets_orRefuse, meets_update, hdrop, htake, hm.on, hm.seq,
    hm.aead, haeadS, hnonce, Option.bind_some, hopen]
  simp only [hon, hseq, hblen]
  refine ⟨by simp, fun _ => ⟨?_, fun _ => ⟨by simp, ?_⟩⟩⟩
  · rintro (h | h | h)
    · exact h trivial
    · exact h
    · omega
  intro pt hpt'
  obtain rfl := Option.some.inj hpt'
  rw [unpad_snoc (by decide)]
  refine ⟨by simp, ?_⟩
  intro c hc
  obtain rfl := Option.some.inj hc
  rw [if_neg (show ¬ rtApp = rtAlert by decide), if_neg (show ¬ rtApp = rtHs by decide), if_pos rfl]
  refine deliver_meets ?_ ?_ ?_
  · exact hm.ready
  · rfl
  · exact hroom

theorem sealed12_handled (hv : s.version = 0x0303) (h : tls12Seal env s rtApp chunk = some r) :
    WholeRecord r ∧ ∀ hasOut outRoom appRoom, chunk.length ≤ appRoom →
      handleRecord env ⟨{ p with recBuf := r }, hasOut, outRoom, [], appRoom, [], false⟩ =
        .ok () ⟨{ p.handed chunk with recBuf := r }, hasOut, outRoom, [], appRoom, chunk, false⟩ := by
  obtain ⟨hon, hseq, aead, body, haeadS, hbody, rfl⟩ := tls12Seal_parts h
  have hblen := haead.length _ _ _ _ _ hbody
  have hopen := haead.opens _ _ _ _ _ hbody
  have htag : aeadTagLen = 16 := rfl
  have hpt : recMaxPt = 16384 := rfl
  have hmax : tlsRecMax = 16645 := rfl
  have hhdr : recHdr = 5 := rfl
  have hexp : explicitLen s.aeadId ≤ 8 := by
    unfold explicitLen
    split_ifs <;> omega
  have haad : (aadFor s.wr.seq rtApp chunk.length).length = 13 := by simp [aadFor, wireBytes_length]
  have hpre : ((aadFor s.wr.seq rtApp chunk.length).take (explicitLen s.aeadId)).length = explicitLen s.aeadId := by
    rw [List.length_take, haad]
    omega
  generalize hn : explicitLen s.aeadId + chunk.length + aeadTagLen = n at *
  generalize hx : (aadFor s.wr.seq rtApp chunk.length).take (explicitLen s.aeadId) = pre at *
  have hlen' : (pre ++ body).length = n := by
    rw [List.length_append, hpre, hblen]
    omega
  refine ⟨wholeRecord_app hlen' (by omega), fun hasOut outRoom appRoom hroom => ok_of_meets ?_⟩
  have hdrop : (recordHeader rtApp n ++ (pre ++ body)).drop recHdr = pre ++ body :=
    List.drop_left' (recordHeader_length _ _)
  have hhead : (recordHeader rtApp n ++ (pre ++ body)).headD 0 = rtApp := rfl
  have hct : (pre ++ body).drop (explicitLen s.aeadId) = body := List.drop_left' hpre
  have hexpP : explicitLen p.aeadId = explicitLen s.aeadId := congrArg explicitLen hm.aeadId
  have hnonce : ∀ t : TlsSession, t.aeadId = p.aeadId → nonceFor12 t p.rd (pre ++ body) =
      nonceFor12 s s.wr (aadFor s.wr.seq rtApp chunk.length) := by
    intro t ht
    unfold nonceFor12 nonceFor
    rw [ht, hm.aeadId, hm.iv, hm.seq]
    by_cases he : explicitNonce s.aeadId
    · have he8 : explicitLen s.aeadId = 8 := if_pos he
      rw [if_pos he, if_pos he, List.take_left' (hpre.trans he8), ← hx, he8]
    · rw [if_neg he, if_neg he]
  unfold handleRecord
  simp only [Outcome.meets_bind, meets_session]
  rw [hhead, if_neg (by decide), Outcome.meets_bind]
  unfold openContent
  rw [Outcome.meets_bind, meets_session]
  dsimp only
  rw [if_pos (by rw [hm.version]; exact hv), if_pos (by rw [hm.on]; exact hon)]
  unfold tls12Open
  simp only [Outcome.meets_bind, meets_refuse, meets_session, meets_orRefuse, meets_update, Outcome.meets_pure, hdrop, hm.seq,
    hm.aead, haeadS, hnonce, Option.bind_some, hexpP, hct, hblen, Nat.add_sub_cancel, hopen, hlen']
  refine ⟨by omega, fun _ => ⟨fun h => hseq h, fun _ => ⟨by simp, ?_⟩⟩⟩
  intro pt hpt'
  obtain rfl := Option.some.inj hpt'
  rw [if_neg (show ¬ rtApp = rtAlert by decide), if_neg (show ¬ rtApp = rtHs by decide), if_true]
  refine deliver_meets ?_ ?_ ?_
  · exact hm.ready
  · rfl
  · exact hroom

/-- A record of application data is taken whole and its content delivered. -/
theorem sealApp_handled (h : sealApp env s chunk cap = some r) :
    WholeRecord r ∧ s.wr.on ∧ ∀ hasOut outRoom appRoom, chunk.length ≤ appRoom →
      handleRecord env ⟨{ p with recBuf := r }, hasOut, outRoom, [], appRoom, [], false⟩ =
        .ok () ⟨{ p.handed chunk with recBuf := r }, hasOut, outRoom, [], appRoom, chunk, false⟩ := by
  unfold sealApp at h
  split_ifs at h with hv hc hc
  · obtain ⟨hwhole, hh⟩ := sealed12_handled haead hm hlen hv h
    exact ⟨hwhole, (tls12Seal_parts h).1, hh⟩
  · obtain ⟨hwhole, hh⟩ := sealed13_handled haead hm hlen hv h
    exact ⟨hwhole, (sealRecord_parts h).1, hh⟩

end Handled

end Record

/-- The records of application data a session seals one after another, each with its content. -/
inductive Sealing (env : TlsEnv) : TlsSession → List (Bytes × Bytes) → TlsSession → Prop
  | nil (s : TlsSession) : Sealing env s [] s
  | cons {s s' : TlsSession} {chunk r : Bytes} {l : List (Bytes × Bytes)} {cap : Nat}
      (h : sealApp env s chunk cap = some r) (hlen : chunk.length ≤ recMaxPt) (hl : Sealing env (s.sealedApp chunk) l s') :
      Sealing env s ((r, chunk) :: l) s'

def recordsOf (l : List (Bytes × Bytes)) : Bytes :=
  l.flatMap Prod.fst

def contentOf (l : List (Bytes × Bytes)) : Bytes :=
  l.flatMap Prod.snd

/-- `qn_tls_send_app` seals its data piece by piece. -/
theorem sendLoop_sealing {env : TlsEnv} {fuel : Nat} {s s' : TlsSession} {data bytes : Bytes} {cap : Nat}
    (h : sendLoop env fuel s data cap = (s', some bytes)) :
    ∃ l, Sealing env s l s' ∧ bytes = recordsOf l ∧ data = contentOf l := by
  induction fuel generalizing s data bytes cap with
  | zero => simp [sendLoop] at h
  | succ fuel ih =>
    unfold sendLoop at h
    cases hseal : sealApp env s (data.take recMaxPt) cap with
    | none => simp [hseal] at h
    | some r =>
      have hlen : (data.take recMaxPt).length ≤ recMaxPt := List.length_take_le _ _
      simp only [hseal] at h
      by_cases hd : data.drop recMaxPt = []
      · rw [if_pos hd] at h
        obtain ⟨rfl, rfl⟩ := Prod.mk.inj h |>.imp_right Option.some.inj
        refine ⟨[(r, data.take recMaxPt)], .cons hseal hlen (.nil _), by simp [recordsOf], ?_⟩
        have hsplit := List.take_append_drop recMaxPt data
        rw [hd, List.append_nil] at hsplit
        simp [contentOf, hsplit]
      · rw [if_neg hd] at h
        obtain ⟨hs, hb⟩ := Prod.mk.inj h
        obtain ⟨rest, hrest, rfl⟩ := Option.map_eq_some_iff.mp hb
        obtain ⟨l, hl, rfl, hdata⟩ := ih (Prod.ext hs hrest)
        refine ⟨(r, data.take recMaxPt) :: l, .cons hseal hlen hl, rfl, ?_⟩
        have hsplit := List.take_append_drop recMaxPt data
        rw [hdata] at hsplit
        exact hsplit.symm

/-- What is in the record buffer is a piece of the record that comes next. -/
def Short (buf : Bytes) : List (Bytes × Bytes) → Prop
  | [] => buf = []
  | x :: _ => buf.length < x.1.length

/-- A buffer that holds all that is left is empty. -/
theorem short_all {buf : Bytes} {l : List (Bytes × Bytes)} (h : Short buf l) (heq : buf = recordsOf l) :
    l = [] ∧ buf = [] := by
  cases l with
  | nil => exact ⟨rfl, h⟩
  | cons x l =>
    have hlt : buf.length < x.1.length := h
    have hle := congrArg List.length heq
    simp only [recordsOf, List.flatMap_cons, List.length_append] at hle
    omega

/-- The header tells the length of a record, and is fine by itself. -/
theorem WholeRecord.header_tells {r : Bytes} (h : WholeRecord r) :
    recordNeed (r.take recHdr) = r.length ∧ headerRefused true (r.take recHdr) = false := by
  have hle : recHdr ≤ (r.take recHdr).length := by
    rw [List.length_take]
    have := h.header
    omega
  have hneed := recordNeed_append (x := r.drop recHdr) hle
  have href := @headerRefused_append true _ (r.drop recHdr) hle
  rw [List.take_append_drop] at hneed href
  exact ⟨hneed.symm.trans h.need, href.symm.trans h.fine⟩

theorem WholeRecord.fill_prefix {r x y : Bytes} (h : WholeRecord r) (hr : x ++ y = r) (hy : y ≠ []) :
    fillRecord true [] x = .wait x := by
  have hlen : x.length < r.length := by
    rw [← hr, List.length_append]
    have := List.length_pos_of_ne_nil hy
    omega
  by_cases hshort : x.length < recHdr
  · rw [fillRecord_short (by simpa using hshort)]
    rfl
  · obtain ⟨hhdr, hlong⟩ := @fillRecord_long true [] x (by simp; omega)
    have hfill : fill recHdr [] x = (x.take recHdr, x.drop recHdr) := by simp [fill]
    have htake : x.take recHdr = r.take recHdr := by
      rw [← hr, List.take_append_of_le_length (by omega)]
    obtain ⟨hneed, href⟩ := h.header_tells
    rw [hlong, hfill]
    unfold fillBody
    dsimp only
    rw [htake, href, if_neg (by simp), hneed, if_pos, ← htake, List.take_append_drop]
    rw [List.length_take, List.length_drop, Nat.min_eq_left (by have := h.header; omega)]
    omega

theorem WholeRecord.fill_whole {r : Bytes} (h : WholeRecord r) (rest : Bytes) :
    fillRecord true [] (r ++ rest) = .full r rest := by
  have hr := h.header
  obtain ⟨hhdr, hlong⟩ := @fillRecord_long true [] (r ++ rest) (by simp; omega)
  have hfill : fill recHdr [] (r ++ rest) = (r.take recHdr, r.drop recHdr ++ rest) := by
    simp only [fill, List.length_nil, Nat.sub_zero, List.nil_append]
    rw [List.take_append_of_le_length hr, List.drop_append_of_le_length hr]
  obtain ⟨hneed, href⟩ := h.header_tells
  have htake : (r.take recHdr).length = recHdr := by
    rw [List.length_take]
    omega
  rw [hlong, hfill]
  unfold fillBody
  dsimp only
  rw [href, if_neg (by simp), hneed, if_neg]
  · have hbody : fill r.length (r.take recHdr) (r.drop recHdr ++ rest) = (r, rest) := by
      unfold fill
      rw [htake, List.take_left' (List.length_drop ..), List.drop_left' (List.length_drop ..), List.take_append_drop]
    rw [hbody]
  · rw [htake, List.length_append, List.length_drop]
    omega

theorem WholeRecord.ne_nil {r : Bytes} (h : WholeRecord r) : r ≠ [] := by
  rintro rfl
  exact absurd h.header (by decide)

/-- A peer that was handed the contents of these records. -/
def TlsSession.handedAll (p : TlsSession) (l : List (Bytes × Bytes)) : TlsSession :=
  l.foldl (fun p x => p.handed x.2) p

theorem WholeRecord.fill_resume {x y : Bytes} (h : WholeRecord (x ++ y)) (hy : y ≠ []) (input : Bytes) :
    fillRecord true x input = fillRecord true [] (x ++ input) := by
  rw [fillRecord_append, h.fill_prefix rfl hy]
  rfl

/-- How far one call has come in the records `l` of a sender that ends as `s'`; `later` comes after the
call. -/
def Trip (env : TlsEnv) (s' p : TlsSession) (l : List (Bytes × Bytes)) (later input : Bytes) (done : Bool)
    (res : RecvResult) : Prop :=
  ∃ l₁ l₂ t buf, l = l₁ ++ l₂ ∧ Sealing env t l₂ s' ∧ Mirrors t (p.handedAll l₁) ∧
    buf ++ later = recordsOf l₂ ∧ Short buf l₂ ∧
    res = ⟨{ p.handedAll l₁ with recBuf := buf }, input.length, [], contentOf l₁, if done then .done else .more⟩

section Trip

variable {env : TlsEnv} (haead : AeadSound env)
include haead

theorem recvLoop_trip (fuel : Nat) {s s' p : TlsSession} {l : List (Bytes × Bytes)} (buf later : Bytes) (io : TlsIo)
    (done : Bool) (hl : Sealing env s l s') (hm : Mirrors s p) (hcut : buf ++ (io.input ++ later) = recordsOf l)
    (hshort : Short buf l) (hfuel : buf.length + io.input.length < fuel) (hroom : (contentOf l).length ≤ io.appCap) :
    Trip env s' p l later io.input done (recvLoop env fuel { p with recBuf := buf } io done) := by
  induction fuel generalizing s p l buf io with
  | zero => omega
  | succ fuel ih =>
    cases hl with
    | nil =>
      obtain rfl : buf = [] := hshort
      obtain ⟨hin, rfl⟩ : io.input = [] ∧ later = [] := by simpa [recordsOf] using hcut
      refine ⟨[], [], s', [], rfl, .nil s', hm, rfl, rfl, ?_⟩
      unfold recvLoop
      dsimp only
      rw [hin, fillRecord_short (by decide)]
      rfl
    | @cons _ _ chunk r l cap h hlen hl =>
      obtain ⟨hwhole, hon, hh⟩ := sealApp_handled haead hm hlen h
      have hlt : buf.length < r.length := hshort
      have hon' : p.rd.on = true := hm.on.trans hon
      have hcut' : buf ++ (io.input ++ later) = r ++ recordsOf l := hcut
      obtain ⟨y, rfl⟩ : buf <+: r := List.prefix_of_prefix_length_le (hcut' ▸ List.prefix_append buf _)
        (List.prefix_append r (recordsOf l)) (Nat.le_of_lt hlt)
      have hy : y ≠ [] := by
        rintro rfl
        simp at hlt
      rw [List.append_assoc, List.append_cancel_left_eq] at hcut'
      by_cases hle : y.length ≤ io.input.length
      · obtain ⟨rest, hrest⟩ : y <+: io.input := List.prefix_of_prefix_length_le (List.prefix_append y (recordsOf l))
          (hcut' ▸ List.prefix_append io.input _) hle
        have hleft : rest ++ later = recordsOf l := by
          rw [← hrest, List.append_assoc, List.append_cancel_left_eq] at hcut'
          exact hcut'
        have hfill : fillRecord p.rd.on buf io.input = .full (buf ++ y) rest := by
          rw [hon', hwhole.fill_resume hy, ← hrest, ← List.append_assoc, hwhole.fill_whole]
        have hroom' : chunk.length + (contentOf l).length ≤ io.appCap := by
          simpa [contentOf] using hroom
        have hypos := List.length_pos_of_ne_nil hy
        have hinlen : y.length + rest.length = io.input.length := by rw [← hrest, List.length_append]
        have hshort' : Short [] l := by
          cases hl with
          | nil => rfl
          | cons h' hlen' _ =>
            exact List.length_pos_of_ne_nil (sealApp_handled haead (hm.next chunk) hlen' h').1.ne_nil
        obtain ⟨l₁, l₂, t, buf', rfl, hl₂, hm₂, hbuf, hs₂, hres⟩ := ih (p := p.handed chunk) []
          ⟨rest, io.hasOut, io.outCap, io.appCap - chunk.length⟩ hl (hm.next chunk) hleft hshort'
          (by simp only [List.length_nil]; omega) (by simp only; omega)
        refine ⟨(buf ++ y, chunk) :: l₁, l₂, t, buf', rfl, hl₂, hm₂, hbuf, hs₂, ?_⟩
        unfold recvLoop
        dsimp only
        rw [hfill]
        dsimp only
        rw [hh io.hasOut io.outCap io.appCap (by omega)]
        simp only [Bool.or_false, List.length_nil, Nat.sub_zero]
        rw [hres]
        simp only [RecvResult.mk.injEq, List.nil_append, and_true, true_and]
        refine ⟨rfl, ?_, rfl⟩
        omega
      · obtain ⟨z, rfl⟩ : io.input <+: y := List.prefix_of_prefix_length_le (hcut' ▸ List.prefix_append io.input _)
          (List.prefix_append y (recordsOf l)) (by omega)
        have hz : z ≠ [] := by
          rintro rfl
          simp at hle
        have hlater : later = z ++ recordsOf l := by
          rw [List.append_assoc, List.append_cancel_left_eq] at hcut'
          exact hcut'
        have hfill : fillRecord p.rd.on buf io.input = .wait (buf ++ io.input) := by
          rw [hon', hwhole.fill_resume hy, hwhole.fill_prefix (y := z) (by rw [List.append_assoc]) hz]
        refine ⟨[], (buf ++ (io.input ++ z), chunk) :: l, s, buf ++ io.input, rfl, .cons h hlen hl, hm, ?_, ?_, ?_⟩
        · rw [hlater]
          simp [recordsOf]
        · have := List.length_pos_of_ne_nil hz
          simp only [Short, List.length_append]
          omega
        · unfold recvLoop
          dsimp only
          rw [hfill]
          rfl

/-- However the records of a sender are cut into calls, the peer takes them all. -/
theorem recvAll_trip (calls : List TlsIo) {s s' p : TlsSession} {l : List (Bytes × Bytes)} (buf : Bytes)
    (hl : Sealing env s l s') (hm : Mirrors s p) (hcut : buf ++ calls.flatMap TlsIo.input = recordsOf l)
    (hshort : Short buf l) (hroom : ∀ io ∈ calls, (contentOf l).length ≤ io.appCap) :
    (recvAll env { p with recBuf := buf } calls).flatMap RecvResult.app = contentOf l ∧
    (∀ x ∈ recvAll env { p with recBuf := buf } calls, x.rc = .more) ∧
    lastSession { p with recBuf := buf } (recvAll env { p with recBuf := buf } calls) =
      { p.handedAll l with recBuf := [] } ∧
    Mirrors s' (p.handedAll l) := by
  induction calls generalizing s p l buf with
  | nil =>
    obtain ⟨rfl, rfl⟩ := short_all hshort (by simpa using hcut)
    cases hl
    exact ⟨rfl, by simp [recvAll], rfl, hm⟩
  | cons io calls ih =>
    rw [List.flatMap_cons] at hcut
    obtain ⟨l₁, l₂, t, buf', rfl, hl₂, hm₂, hbuf, hs₂, hres⟩ := recvLoop_trip haead _ buf _ io false hl hm hcut hshort
      (Nat.lt_succ_self _) (hroom io List.mem_cons_self)
    have hcontent : contentOf (l₁ ++ l₂) = contentOf l₁ ++ contentOf l₂ := List.flatMap_append
    have hroom₂ : ∀ x ∈ calls, (contentOf l₂).length ≤ x.appCap := by
      intro x hx
      have hle := hroom x (List.mem_cons_of_mem _ hx)
      rw [hcontent, List.length_append] at hle
      omega
    obtain ⟨happ, hrc, hlast, hm'⟩ := ih buf' hl₂ hm₂ hbuf hs₂ hroom₂
    have hone : tlsRecv env { p with recBuf := buf } io =
        ⟨{ p.handedAll l₁ with recBuf := buf' }, io.input.length, [], contentOf l₁, .more⟩ := hres
    have hall : recvAll env { p with recBuf := buf } (io :: calls) =
        ⟨{ p.handedAll l₁ with recBuf := buf' }, io.input.length, [], contentOf l₁, .more⟩ ::
          recvAll env { p.handedAll l₁ with recBuf := buf' } calls := by
      rw [recvAll, hone]
      rfl
    have hhanded : (p.handedAll l₁).handedAll l₂ = p.handedAll (l₁ ++ l₂) := (List.foldl_append ..).symm
    rw [hall, List.flatMap_cons, happ, hcontent, lastSession_cons, hlast, hhanded]
    refine ⟨rfl, ?_, rfl, hhanded ▸ hm'⟩
    intro x hx
    rcases List.mem_cons.mp hx with rfl | hx
    · rfl
    · exact hrc x hx

/-- What `qn_tls_send_app` returns comes out of the peer's calls as it went in. -/
theorem sendApp_trip {s s' p : TlsSession} {data bytes : Bytes} {cap : Nat} {calls : List TlsIo}
    (hsend : tlsSendApp env s data cap = (s', some bytes)) (hm : Mirrors s p) (hbuf : p.recBuf = [])
    (hcut : calls.flatMap TlsIo.input = bytes) (hroom : ∀ io ∈ calls, data.length ≤ io.appCap) :
    (recvAll env p calls).flatMap RecvResult.app = data ∧ (∀ x ∈ recvAll env p calls, x.rc = .more) ∧
      (lastSession p (recvAll env p calls)).recBuf = [] ∧ Mirrors s' (lastSession p (recvAll env p calls)) := by
  unfold tlsSendApp at hsend
  split_ifs at hsend with hst
  · exact absurd hsend (by simp)
  obtain ⟨l, hl, rfl, rfl⟩ := sendLoop_sealing hsend
  have hp : { p with recBuf := [] } = p := by rw [← hbuf]
  have hshort : Short [] l := by
    cases hl with
    | nil => rfl
    | cons h hlen _ => exact List.length_pos_of_ne_nil (sealApp_handled haead hm hlen h).1.ne_nil
  obtain ⟨happ, hrc, hlast, hm'⟩ := recvAll_trip haead calls [] hl hm hcut hshort hroom
  rw [hp] at happ hrc hlast
  rw [hlast]
  exact ⟨happ, hrc, rfl, hm'.ready, hm'.version, hm'.aeadId, hm'.aead, hm'.iv, hm'.seq, hm'.on⟩

end Trip

end Qanat

import Qanat.TlsTrip
import Qanat.TlsWire

namespace Qanat

open TlsHandler Outcome

/-- What the nonces rely on: the key derivations return as many bytes as they are asked for. -/
structure DerivesSized (env : TlsEnv) : Prop where
  expand : ∀ id secret label ctx n p, env.hkdfExpandLabel id secret label ctx n = some p → p.length = n
  prf : ∀ id secret label seed n p, env.tls12Prf id secret label seed n = some p → p.length = n

theorem wireBytes_inj {n v w : Nat} (h : wireBytes n v = wireBytes n w) : v % 256 ^ n = w % 256 ^ n := by
  induction n generalizing v w with
  | zero => rw [Nat.pow_zero, Nat.mod_one, Nat.mod_one]
  | succ n ih =>
    obtain ⟨hhi, hlo⟩ := List.append_inj h (by rw [wireBytes_length, wireBytes_length])
    have hlo' : v % 256 = w % 256 := by
      have := congrArg UInt8.toNat (List.cons.inj hlo).1
      simpa using this
    have hhi' := ih hhi
    rw [Nat.pow_succ', Nat.mod_mul, Nat.mod_mul, hlo', hhi']

theorem zipWith_xor_inj {iv a b : Bytes} (ha : a.length ≤ iv.length) (hlen : a.length = b.length)
    (h : List.zipWith (· ^^^ ·) iv a = List.zipWith (· ^^^ ·) iv b) : a = b := by
  induction iv generalizing a b with
  | nil =>
    have ha' : a = [] := List.eq_nil_of_length_eq_zero (by simpa using ha)
    subst ha'
    exact (List.eq_nil_of_length_eq_zero hlen.symm).symm
  | cons x iv ih =>
    cases a with
    | nil => exact (List.eq_nil_of_length_eq_zero hlen.symm).symm
    | cons y a =>
      cases b with
      | nil => simp at hlen
      | cons z b =>
        simp only [List.zipWith_cons_cons, List.cons.injEq, List.length_cons, Nat.add_le_add_iff_right,
          Nat.add_right_cancel_iff] at h hlen ha
        have hyz : y = z := by
          have := congrArg (x ^^^ ·) h.1
          simpa [← UInt8.xor_assoc] using this
        rw [hyz, ih ha hlen h.2]

/-- The nonce of a session's record with sequence number `q`. -/
def nonceAt (s : TlsSession) (q : Nat) : Bytes :=
  if s.version = 0x0303 ∧ explicitNonce s.aeadId then s.wr.iv.take 4 ++ wireBytes 8 q
  else List.zipWith (· ^^^ ·) s.wr.iv (List.replicate 4 0 ++ wireBytes 8 q)

theorem nonceAt_inj {s : TlsSession} {q q' : Nat} (hiv : s.wr.iv.length = aeadIvLen) (hq : q < 2 ^ 64) (hq' : q' < 2 ^ 64)
    (h : nonceAt s q = nonceAt s q') : q = q' := by
  have hbytes : wireBytes 8 q = wireBytes 8 q' := by
    unfold nonceAt at h
    split_ifs at h with he
    · exact List.append_cancel_left h
    · refine List.append_cancel_left (zipWith_xor_inj ?_ ?_ h)
      · rw [List.length_append, List.length_replicate, wireBytes_length, hiv]
        decide
      · simp [wireBytes_length]
  have hmod := wireBytes_inj hbytes
  have h256 : 256 ^ 8 = 2 ^ 64 := by decide
  rw [h256, Nat.mod_eq_of_lt hq, Nat.mod_eq_of_lt hq'] at hmod
  exact hmod

/-- The records sealed so far went under nonces of their own. -/
structure Fresh (s : TlsSession) : Prop where
  nodup : s.seals.Nodup
  past : ∀ x ∈ s.seals, x.1 ≤ s.wrGen
  iv : s.wr.iv.length = aeadIvLen

/-- The nonces under the write key in force are those of the sequence numbers so far. -/
def Current (s : TlsSession) : Prop :=
  s.wr.seq ≤ seqMax ∧ ∀ x ∈ s.seals, x.1 = s.wrGen → ∃ q < s.wr.seq, x.2 = nonceAt s q

/-- The state of the nonces while a message is handled. -/
def Nonces (s : TlsSession) : Prop :=
  Fresh s ∧ (s.wr.on → Current s)

/-- No write key is in force before a ServerHello was taken. -/
def Nonces.Settled (s : TlsSession) : Prop :=
  Nonces s ∧ (s.st = .new ∨ s.st = .waitSh → s.wr.on = false)

theorem Nonces.of_sealing {s s' : TlsSession} (h : Nonces s) (hs : s'.sealing = s.sealing) : Nonces s' := by
  simp only [TlsSession.sealing, TlsSealing.mk.injEq] at hs
  obtain ⟨hv, ha, hw, hg, hl⟩ := hs
  obtain ⟨⟨hn, hp, hi⟩, hc⟩ := h
  refine ⟨⟨?_, ?_, ?_⟩, ?_⟩
  · rw [hl]
    exact hn
  · rw [hl, hg]
    exact hp
  · rw [hw]
    exact hi
  · unfold Current nonceAt at hc ⊢
    rw [hv, ha, hw, hg, hl]
    exact hc

/-- Code that leaves a part of the session as it is, whether it returns or fails. -/
abbrev Keeps {α β : Type} (π : TlsSession → β) (m : TlsHandler α) : Prop :=
  Within (fun _ => True) (SameIn π) m

theorem keeps_of_mute {α : Type} {m : TlsHandler α} (h : Frames Mute m) : Keeps TlsSession.sealing m :=
  h.mono (fun _ _ => trivial) fun _ _ h => h.sealing

theorem keeps_onServerKx12 : Keeps TlsSession.sealing onServerKx12 := by
  intro w
  simp [onServerKx12, onServerKx]

theorem nonceFor_at {s : TlsSession} (hv : s.version ≠ 0x0303) : nonceFor s.wr = nonceAt s s.wr.seq := by
  unfold nonceFor nonceAt
  rw [if_neg fun h => hv h.1]

theorem nonceFor12_at {s : TlsSession} (hv : s.version = 0x0303) (type : UInt8) (n : Nat) :
    nonceFor12 s s.wr (aadFor s.wr.seq type n) = nonceAt s s.wr.seq := by
  have htake : (aadFor s.wr.seq type n).take 8 = wireBytes 8 s.wr.seq := by
    unfold aadFor
    rw [List.append_assoc]
    exact List.take_left' (wireBytes_length 8 _)
  unfold nonceFor12 nonceAt nonceFor
  rw [htake]
  by_cases he : explicitNonce s.aeadId
  · rw [if_pos he, if_pos ⟨hv, he⟩]
  · rw [if_neg he, if_neg fun h => he h.2]

/-- One more record under the next sequence number. -/
theorem Nonces.sealed {s : TlsSession} (h : Nonces s) (hon : s.wr.on) (hseq : s.wr.seq ≠ seqMax) :
    Nonces (s.sealed (nonceAt s s.wr.seq)) := by
  obtain ⟨⟨hnodup, hpast, hiv⟩, hcur⟩ := h
  obtain ⟨hmax, hcur⟩ := hcur hon
  have hlt : s.wr.seq < 2 ^ 64 := by
    have : seqMax = 2 ^ 64 - 1 := rfl
    omega
  have hnew : (s.wrGen, nonceAt s s.wr.seq) ∉ s.seals := by
    intro hmem
    obtain ⟨q, hq, heq⟩ := hcur _ hmem rfl
    have := nonceAt_inj hiv hlt (by omega) heq
    omega
  refine ⟨⟨?_, ?_, hiv⟩, fun _ => ⟨?_, ?_⟩⟩
  · refine List.nodup_append.mpr ⟨hnodup, by simp, ?_⟩
    intro x hx y hy
    rw [List.mem_singleton.mp hy]
    exact fun hxy => hnew (hxy ▸ hx)
  · intro x hx
    rcases List.mem_append.mp hx with hx | hx
    · exact hpast x hx
    · rw [List.mem_singleton.mp hx]
      exact Nat.le_refl _
  · show s.wr.seq + 1 ≤ seqMax
    omega
  · intro x hx hgen
    rcases List.mem_append.mp hx with hx | hx
    · obtain ⟨q, hq, heq⟩ := hcur x hx hgen
      exact ⟨q, Nat.lt_succ_of_lt hq, heq⟩
    · rw [List.mem_singleton.mp hx]
      exact ⟨s.wr.seq, Nat.lt_succ_self _, rfl⟩

/-- A write key that no record was sealed under. -/
theorem Fresh.rekeyed {s s' : TlsSession} (h : Fresh s) (hgen : s'.wrGen = s.wrGen + 1) (hseals : s'.seals = s.seals)
    (hiv : s'.wr.iv.length = aeadIvLen) (hseq : s'.wr.seq = 0) : Fresh s' ∧ Current s' := by
  have hlt : ∀ x ∈ s'.seals, x.1 < s'.wrGen := by
    intro x hx
    rw [hseals] at hx
    have := h.past x hx
    omega
  refine ⟨⟨?_, fun x hx => Nat.le_of_lt (hlt x hx), hiv⟩, ?_, fun x hx hg => ?_⟩
  · rw [hseals]
    exact h.nodup
  · rw [hseq]
    exact Nat.zero_le _
  · exact absurd hg (Nat.ne_of_lt (hlt x hx))

/-- A property of the session that is still there. -/
def Lasts (P : TlsSession → Prop) (w v : TlsWork) : Prop :=
  P w.session → P v.session

instance (P : TlsSession → Prop) : IsPreorder TlsWork (Lasts P) where
  refl := fun _ h => h
  trans := fun _ _ _ h h' hw => h' (h hw)

/-- Code that keeps a property of the session, whether it returns or fails. -/
abbrev Stays {α : Type} (P : TlsSession → Prop) (m : TlsHandler α) : Prop :=
  Within (fun _ => True) (Lasts P) m

section Stays

variable {α β : Type} {P : TlsSession → Prop}

theorem stays_of {m : TlsHandler α}
    (h : ∀ w, P w.session → Meets (m w) (fun _ v => P v.session) (fun _ v => P v.session)) : Stays P m := by
  intro w
  by_cases hw : P w.session
  · exact (h w hw).mono (fun _ _ hv _ => hv) (fun _ _ hv => ⟨trivial, fun _ => hv⟩)
  · cases m w with
    | ok a v => exact fun hw' => absurd hw' hw
    | error rc v => exact ⟨trivial, fun hw' => absurd hw' hw⟩

theorem stays_meets {m : TlsHandler α} (h : Stays P m) {w : TlsWork} (hw : P w.session) :
    Meets (m w) (fun _ v => P v.session) (fun _ v => P v.session) :=
  (h w).mono (fun _ _ hv => hv hw) (fun _ _ hv => hv.2 hw)

/-- Code that keeps a property, and then code that makes of it what the property also implies. -/
theorem stays_then {R : TlsSession → Prop} {m : TlsHandler α} {f : α → TlsHandler β} (hm : Stays P m)
    (hPR : ∀ s, P s → R s)
    (hf : ∀ a w, P w.session → Meets (f a w) (fun _ v => R v.session) (fun _ v => R v.session)) {w : TlsWork}
    (h : P w.session) : Meets ((m >>= f) w) (fun _ v => R v.session) (fun _ v => R v.session) := by
  rw [meets_bind]
  apply (hm w).mono
  · intro a v hv
    exact hf a v (hv h)
  · intro rc v hv
    exact hPR _ (hv.2 h)

end Stays

/-- The nonces of a session whose version is TLS 1.2, or of one where it is not. -/
def NoncesOf (old : Bool) (s : TlsSession) : Prop :=
  Nonces s ∧ decide (s.version = 0x0303) = old

theorem NoncesOf.of_sealing {old : Bool} (s s' : TlsSession) (h : NoncesOf old s) (hs : s'.sealing = s.sealing) :
    NoncesOf old s' := by
  refine ⟨h.1.of_sealing hs, ?_⟩
  have hv : s'.version = s.version := congrArg TlsSealing.version hs
  rw [hv]
  exact h.2

section Sealing

variable {env : TlsEnv} {old : Bool}

theorem stays_of_mute {α : Type} {m : TlsHandler α} (h : Frames Mute m) : Stays (NoncesOf old) m :=
  h.mono (fun _ _ => trivial) fun _ _ h hw => hw.of_sealing _ _ h.sealing

theorem stays_update {f : TlsSession → TlsSession} (h : ∀ s, (f s).sealing = s.sealing) :
    Stays (NoncesOf old) (update f) :=
  frames_update fun w hw => hw.of_sealing _ _ (h w.session)

theorem stays_needRoom (n : Nat) (rc : TlsRc) : Stays (NoncesOf old) (needRoom n rc) := by
  intro w
  rw [meets_needRoom]
  exact ⟨fun _ => ⟨trivial, id⟩, fun _ => id⟩

theorem stays_emit (p : Bytes) : Stays (NoncesOf old) (emit p) :=
  fun _ => id

theorem stays_sealOut (inner : UInt8) (data : Bytes) (rc : TlsRc) :
    Stays (NoncesOf false) (sealOut env inner data rc) := by
  intro w
  unfold sealOut
  simp only [meets_bind, meets_needRoom, meets_session, meets_orRefuse, meets_update, meets_emit]
  refine ⟨fun _ => ⟨trivial, id⟩, fun _ => ⟨fun _ => ⟨trivial, id⟩, fun p hp h => ?_⟩⟩
  obtain ⟨hon, hseq, -⟩ := sealRecord_parts hp
  have hv : w.session.version ≠ 0x0303 := by simpa using h.2
  show NoncesOf false (w.session.sealed (nonceFor w.session.wr))
  rw [nonceFor_at hv]
  exact ⟨h.1.sealed hon hseq, h.2⟩

theorem stays_tls12SealOut (type : UInt8) (data : Bytes) (rc : TlsRc) :
    Stays (NoncesOf true) (tls12SealOut env type data rc) := by
  intro w
  unfold tls12SealOut
  simp only [meets_bind, meets_needRoom, meets_session, meets_orRefuse, meets_update, meets_emit]
  refine ⟨fun _ => ⟨trivial, id⟩, fun _ => ⟨fun _ => ⟨trivial, id⟩, fun p hp h => ?_⟩⟩
  obtain ⟨hon, hseq, -⟩ := tls12Seal_parts hp
  have hv : w.session.version = 0x0303 := by simpa using h.2
  show NoncesOf true (w.session.sealed (nonceFor12 w.session w.session.wr _))
  rw [nonceFor12_at hv]
  exact ⟨h.1.sealed hon hseq, h.2⟩

theorem deriveKeys_sized (hsize : DerivesSized env) (s : TlsSession) {k : TlsKeys} (secret : Bytes) (epoch : Epoch)
    (hk : k.iv.length = aeadIvLen) :
    (deriveKeys env s k secret epoch).iv.length = aeadIvLen ∧ (deriveKeys env s k secret epoch).seq = 0 := by
  unfold deriveKeys
  cases env.hkdfExpandLabel s.hash secret "key" [] (aeadKeyLen s.aeadId) with
  | none => exact ⟨hk, rfl⟩
  | some key =>
    cases hiv : env.hkdfExpandLabel s.hash secret "iv" [] aeadIvLen with
    | none => exact ⟨hk, rfl⟩
    | some iv =>
      have hlen := hsize.expand _ _ _ _ _ _ hiv
      dsimp only
      cases env.aeadInit s.aeadId key with
      | none => exact ⟨hlen, rfl⟩
      | some aead => exact ⟨hlen, rfl⟩

/-- A write key from a secret: a new one, or none that is in force. -/
theorem setWrite_nonces (hsize : DerivesSized env) (secret : Bytes) (epoch : Epoch) (w : TlsWork) (h : Fresh w.session) :
    Meets (setWrite env secret epoch w)
      (fun _ v => Nonces v.session ∧ v.session.version = w.session.version)
      (fun _ v => Nonces v.session ∧ v.session.version = w.session.version ∧ v.session.wr.on = false) := by
  obtain ⟨hiv, hseq⟩ := deriveKeys_sized hsize w.session secret epoch h.iv
  unfold setWrite
  simp only [meets_bind, meets_update, meets_session, meets_refuse, upd_session]
  generalize deriveKeys env w.session w.session.wr secret epoch = k at hiv hseq
  constructor
  · intro hoff
    have hoff' : k.on = false := by simpa using hoff
    refine ⟨⟨⟨h.nodup, ?_, hiv⟩, fun hon => absurd hon hoff⟩, trivial, hoff'⟩
    show ∀ x ∈ w.session.seals, x.1 ≤ if k.on then w.session.wrGen + 1 else w.session.wrGen
    rw [hoff', if_neg (by simp)]
    exact h.past
  · intro hon
    obtain ⟨hfresh, hcur⟩ := @Fresh.rekeyed _ (w.upd fun s =>
      { s with wr := k, wrGen := if k.on then s.wrGen + 1 else s.wrGen }).session h (if_pos (not_not.mp hon)) rfl hiv hseq
    exact ⟨⟨hfresh, fun _ => hcur⟩, trivial⟩

theorem stays_setWrite (hsize : DerivesSized env) (secret : Bytes) (epoch : Epoch) :
    Stays (NoncesOf old) (setWrite env secret epoch) := by
  refine stays_of fun w h => ?_
  apply (setWrite_nonces hsize secret epoch w h.1.1).mono
  · rintro _ v ⟨hn, hv⟩
    refine ⟨hn, ?_⟩
    rw [hv]
    exact h.2
  · rintro rc v ⟨hn, hv, -⟩
    refine ⟨hn, ?_⟩
    rw [hv]
    exact h.2

theorem stays_sendEmptyCert (requested : Bool) : Stays (NoncesOf false) (sendEmptyCert env requested) := by
  unfold sendEmptyCert
  split
  next => exact Within.bind (stays_sealOut _ _ _) fun _ => stays_update fun _ => rfl
  next => exact Within.pure _

theorem stays_sendFinished : Stays (NoncesOf false) (sendFinished env) := by
  apply Within.bind frames_session
  intro s
  apply Within.bind (within_orRefuse _ trivial)
  intro fkey
  exact Within.bind (stays_sealOut _ _ _) fun _ => stays_update fun _ => rfl

theorem stays_sendClientFlight (hsize : DerivesSized env) : Stays (NoncesOf false) (sendClientFlight env) := by
  apply Within.bind frames_session
  intro s
  apply Within.bind (stays_needRoom _ _)
  intro _
  apply Within.bind (stays_of_mute (mute_of_still (still_scheduleApplication env)))
  intro ap
  apply Within.bind (stays_emit _)
  intro _
  apply Within.bind (stays_sendEmptyCert _)
  intro _
  apply Within.bind stays_sendFinished
  intro _
  apply Within.bind (stays_setWrite hsize _ _)
  intro _
  apply Within.bind (stays_of_mute (mute_setRead _ _))
  intro _
  refine Within.bind (stays_update ?_) fun _ => Within.pure _
  exact fun _ => rfl

theorem stays_onServerFinished (hsize : DerivesSized env) : Stays (NoncesOf false) (onServerFinished env) := by
  apply Within.bind frames_session
  intro s
  apply Within.bind (within_refuse _ trivial)
  intro _
  apply Within.bind (within_refuse _ trivial)
  intro _
  apply Within.bind (within_orRefuse _ trivial)
  intro expect
  apply Within.bind (within_refuse _ trivial)
  intro _
  exact stays_sendClientFlight hsize

/-- The key block of TLS 1.2 brings a new write key. -/
theorem keyBlock_nonces (hsize : DerivesSized env) (w : TlsWork) (h : NoncesOf true w.session) :
    Meets (keyBlock env w) (fun _ v => NoncesOf true v.session ∧ Current v.session) (fun _ v => NoncesOf true v.session) := by
  unfold keyBlock
  simp only [meets_bind, meets_session, meets_orRefuse, meets_update, meets_refuse, upd_session]
  refine ⟨fun _ => h, fun kb hkb => ?_⟩
  have hlen := hsize.prf _ _ _ _ _ _ hkb
  have hiv : (w.session.withKeyBlock env kb).wr.iv.length = aeadIvLen := by
    have hle : ivLenFor w.session.aeadId ≤ aeadIvLen := by
      unfold ivLenFor
      split_ifs <;> decide
    have hold := h.1.1.iv
    simp only [TlsSession.withKeyBlock, List.length_append, List.length_take, List.length_drop, hlen, hold]
    omega
  obtain ⟨hfresh, hcur⟩ := @Fresh.rekeyed _ (w.session.withKeyBlock env kb) h.1.1 rfl rfl hiv rfl
  have hn : NoncesOf true (w.session.withKeyBlock env kb) := ⟨⟨hfresh, fun _ => hcur⟩, h.2⟩
  exact ⟨fun _ => hn, fun _ => ⟨hn, hcur⟩⟩

theorem tls12SendFinished_nonces (w : TlsWork) (h : NoncesOf true w.session) (hcur : Current w.session) :
    Meets (tls12SendFinished env w) (fun _ v => NoncesOf true v.session) (fun _ v => NoncesOf true v.session) := by
  have hon : NoncesOf true { w.session with wr := { w.session.wr with on := true } } :=
    ⟨⟨⟨h.1.1.nodup, h.1.1.past, h.1.1.iv⟩, fun _ => hcur⟩, h.2⟩
  have hfin : Stays (NoncesOf true) (do
      let s ← session
      let verify ← orRefuse (finishedData env s "client finished" s.transcript) .proto
      let fin := [20, 0, 0, UInt8.ofNat verifyLen] ++ verify
      update fun s => { s.shook fin with transcript := s.transcript.update fin }
      tls12SealOut env rtHs fin .space) := by
    apply Within.bind frames_session
    intro s
    apply Within.bind (within_orRefuse _ trivial)
    intro verify
    refine Within.bind (stays_update ?_) fun _ => stays_tls12SealOut _ _ _
    exact fun _ => rfl
  unfold tls12SendFinished
  rw [meets_bind, meets_emit, meets_bind, meets_update]
  exact stays_meets hfin hon

theorem stays_onHelloDone12 (hsize : DerivesSized env) : Stays (NoncesOf true) (onHelloDone12 env) := by
  have hkeys : Stays (NoncesOf true) (do
      keyBlock env
      tls12SendFinished env
      update fun s => { s with st := .waitCcs }
      pure TlsRc.ok : TlsHandler TlsRc) := by
    refine stays_of fun w h => ?_
    rw [meets_bind]
    apply (keyBlock_nonces hsize w h).mono
    · rintro _ v ⟨hv, hcur⟩
      rw [meets_bind]
      apply (tls12SendFinished_nonces v hv hcur).mono
      · intro _ u hu
        exact NoncesOf.of_sealing _ _ hu rfl
      · intro rc u hu
        exact hu
    · intro rc v hv
      exact hv
  apply Within.bind frames_session
  intro s
  apply Within.bind (within_refuse _ trivial)
  intro _
  apply Within.bind (within_refuse _ trivial)
  intro _
  refine Within.bind (stays_update ?_) fun _ => ?_
  · exact fun _ => rfl
  apply Within.bind frames_session
  intro s
  apply Within.bind (within_refuse _ trivial)
  intro _
  apply Within.bind (within_orRefuse _ trivial)
  intro pub
  apply Within.bind (stays_needRoom _ _)
  intro _
  apply Within.bind (stays_emit _)
  intro _
  refine Within.bind (stays_update ?_) fun _ => ?_
  · exact fun _ => rfl
  apply Within.bind (within_orRefuse _ trivial)
  intro pms
  apply Within.bind (stays_of_mute (mute_of_still (still_masterSecret env pms)))
  intro _
  exact hkeys

/-- The write side of a session. -/
def TlsSession.writes (s : TlsSession) : TlsKeys × Nat × List (Nat × Bytes) :=
  (s.wr, s.wrGen, s.seals)

/-- No write key is in force. -/
def Unkeyed (s : TlsSession) : Prop :=
  Fresh s ∧ s.wr.on = false

theorem Unkeyed.settled {s : TlsSession} (h : Unkeyed s) : Nonces.Settled s :=
  ⟨⟨h.1, by simp [h.2]⟩, fun _ => h.2⟩

theorem Unkeyed.of_writes {s s' : TlsSession} (h : Unkeyed s) (hs : s'.writes = s.writes) : Unkeyed s' := by
  simp only [TlsSession.writes, Prod.mk.injEq] at hs
  obtain ⟨hw, hg, hl⟩ := hs
  refine ⟨⟨?_, ?_, ?_⟩, ?_⟩
  · rw [hl]
    exact h.1.nodup
  · rw [hl, hg]
    exact h.1.past
  · rw [hw]
    exact h.1.iv
  · rw [hw]
    exact h.2

theorem writes_of_sealing {s s' : TlsSession} (h : s'.sealing = s.sealing) : s'.writes = s.writes := by
  simp only [TlsSession.sealing, TlsSealing.mk.injEq] at h
  obtain ⟨-, -, hw, hg, hl⟩ := h
  simp [TlsSession.writes, hw, hg, hl]

theorem keeps_selectVersion (sh : ServerHello) : Keeps TlsSession.writes (selectVersion sh) := by
  intro w
  simp [selectVersion, selectTls12, selectTls13, adoptSuite, TlsSession.writes]

theorem keeps_onHelloRetry (sh : ServerHello) : Keeps TlsSession.writes (onHelloRetry env sh) := by
  intro w
  simp [onHelloRetry, adoptSuite, sendSecondClientHello, TlsSession.writes]

theorem startTranscript_writes (s : TlsSession) : s.startTranscript.writes = s.writes := by
  unfold TlsSession.startTranscript
  split
  next => rfl
  next => rfl

theorem trafficKeys_settled (hsize : DerivesSized env) (c t : Bytes) (w : TlsWork) (h : Unkeyed w.session) :
    Meets ((do
      setRead env t .handshake
      setWrite env c .handshake
      update fun s => { s with st := .waitEe }
      pure .ok : TlsHandler TlsRc) w)
      (fun _ v => Nonces.Settled v.session) (fun _ v => Nonces.Settled v.session) := by
  rw [meets_bind]
  apply (mute_setRead t .handshake w).mono
  · intro _ v hv
    have hun := h.of_writes (writes_of_sealing hv.sealing)
    rw [meets_bind]
    apply (setWrite_nonces hsize c .handshake v hun.1).mono
    · rintro _ u ⟨hn, -⟩
      exact ⟨hn.of_sealing rfl, by simp⟩
    · rintro rc u ⟨hn, -, hoff⟩
      exact ⟨hn, fun _ => hoff⟩
  · intro rc v hv
    exact (h.of_writes (writes_of_sealing hv.2.sealing)).settled

theorem handshakeKeys_settled (hsize : DerivesSized env) (sh : ServerHello) (w : TlsWork) (h : Unkeyed w.session) :
    Meets (handshakeKeys env sh w) (fun _ v => Nonces.Settled v.session) (fun _ v => Nonces.Settled v.session) := by
  have hset : ∀ s, Unkeyed s → Nonces.Settled s := fun s hs => hs.settled
  have hupd : ∀ f : TlsSession → TlsSession, (∀ s, (f s).writes = s.writes) → Stays Unkeyed (update f) :=
    fun f hf => frames_update fun v hv => hv.of_writes (hf v.session)
  have hlift : ∀ x : Except TlsRc Bytes, Stays Unkeyed (lift x) := by
    intro x v
    rw [meets_lift]
    exact ⟨fun _ _ => ⟨trivial, id⟩, fun _ _ => id⟩
  unfold handshakeKeys
  rw [meets_bind, meets_session]
  refine stays_then (hlift _) hset (fun shared v hv => ?_) h
  refine stays_then (hupd _ ?_) hset (fun _ v hv => ?_) hv
  · exact fun _ => rfl
  refine stays_then (within_orRefuse _ trivial) hset (fun derived v hv => ?_) hv
  refine stays_then (hupd _ ?_) hset (fun _ v hv => ?_) hv
  · exact fun _ => rfl
  refine stays_then (within_orRefuse _ trivial) hset (fun c v hv => ?_) hv
  refine stays_then (hupd _ ?_) hset (fun _ v hv => ?_) hv
  · exact fun _ => rfl
  refine stays_then (within_orRefuse _ trivial) hset (fun t v hv => ?_) hv
  refine stays_then (hupd _ ?_) hset (fun _ v hv => ?_) hv
  · exact fun _ => rfl
  exact trafficKeys_settled hsize c t v hv

theorem onServerHello_settled (hsize : DerivesSized env) (w : TlsWork) (h : Nonces.Settled w.session) :
    Meets (onServerHello env w) (fun _ v => Nonces.Settled v.session) (fun _ v => Nonces.Settled v.session) := by
  unfold onServerHello
  rw [meets_bind]
  apply ((readServerHello_meets w).and (hears_readServerHello w)).mono
  · rintro sh v ⟨⟨hq, hread⟩, -, hseal, -⟩
    have hun : Unkeyed v.session := by
      have h₀ : Unkeyed w.session := ⟨h.1.1, h.2 (.inr hread.st)⟩
      exact h₀.of_writes (writes_of_sealing hseal)
    have hlater : ∀ s : TlsSession, s.writes = v.session.writes → Nonces.Settled s :=
      fun s hs => (hun.of_writes hs).settled
    rw [meets_ite]
    refine ⟨fun _ => ?_, fun _ => ?_⟩
    · apply (keeps_onHelloRetry sh v).mono
      · intro _ u hu
        exact hlater _ hu
      · intro rc u hu
        exact hlater _ hu.2
    · rw [meets_bind]
      apply (keeps_selectVersion sh v).mono
      · intro version u hu
        have hstart : ∀ s : TlsSession, s.writes = u.session.writes → s.startTranscript.writes = v.session.writes :=
          fun s hs => (startTranscript_writes s).trans (hs.trans hu)
        rw [meets_bind, meets_update, meets_ite]
        refine ⟨fun _ => ?_, fun _ => ?_⟩
        · exact hlater _ (hstart { u.session with version := version } rfl)
        · exact handshakeKeys_settled hsize sh _
            (hun.of_writes (hstart { u.session with version := version } rfl))
      · intro rc u hu
        exact hlater _ hu.2
  · rintro rc v ⟨⟨-, hq⟩, -, -, hseal, -⟩
    refine ⟨h.1.of_sealing hseal, fun hst => ?_⟩
    have hst' : v.session.st = w.session.st := congrArg TlsFlow.st hq.flow
    have hw : v.session.wr = w.session.wr := congrArg TlsSealing.wr hseal
    rw [hst'] at hst
    rw [hw]
    exact h.2 hst

theorem Nonces.Settled.same {s s' : TlsSession} (h : Nonces.Settled s) (hs : s'.sealing = s.sealing)
    (hst : s'.st = .new ∨ s'.st = .waitSh → s.st = .new ∨ s.st = .waitSh) : Nonces.Settled s' := by
  refine ⟨h.1.of_sealing hs, fun he => ?_⟩
  have hw : s'.wr = s.wr := congrArg TlsSealing.wr hs
  rw [hw]
  exact h.2 (hst he)

/-- What a message other than a ServerHello does to the nonces. -/
def Sealed (s s' : TlsSession) : Prop :=
  s'.sealing = s.sealing ∨ Nonces s' ∧ s.st ≠ .new ∧ s.st ≠ .waitSh

theorem keeps_sealed {α : Type} {m : TlsHandler α} (h : Keeps TlsSession.sealing m) (w : TlsWork) :
    Meets (m w) (fun _ v => Sealed w.session v.session) (fun _ v => Sealed w.session v.session) := by
  apply (h w).mono
  · intro a v hv
    exact .inl hv
  · intro rc v hv
    exact .inl hv.2

theorem onServerFinished_sealed (hsize : DerivesSized env) (w : TlsWork) (h : Nonces w.session)
    (hv : w.session.version ≠ 0x0303) :
    Meets (onServerFinished env w) (fun _ v => Sealed w.session v.session) (fun _ v => Sealed w.session v.session) := by
  by_cases hst : w.session.st = .waitFin
  · have hlate : w.session.st ≠ .new ∧ w.session.st ≠ .waitSh := by simp [hst]
    apply (stays_meets (stays_onServerFinished hsize) ⟨h, by simpa using hv⟩).mono
    · intro rc v hn
      exact .inr ⟨hn.1, hlate⟩
    · intro rc v hn
      exact .inr ⟨hn.1, hlate⟩
  · unfold onServerFinished
    rw [meets_bind, meets_session, meets_bind, meets_refuse]
    exact ⟨fun _ => .inl rfl, fun hno => absurd hst hno⟩

theorem onHelloDone12_sealed (hsize : DerivesSized env) (w : TlsWork) (h : Nonces w.session)
    (hv : w.session.version = 0x0303) :
    Meets (onHelloDone12 env w) (fun _ v => Sealed w.session v.session) (fun _ v => Sealed w.session v.session) := by
  by_cases hst : w.session.st = .waitCert
  · have hlate : w.session.st ≠ .new ∧ w.session.st ≠ .waitSh := by simp [hst]
    apply (stays_meets (stays_onHelloDone12 hsize) ⟨h, by simpa using hv⟩).mono
    · intro rc v hn
      exact .inr ⟨hn.1, hlate⟩
    · intro rc v hn
      exact .inr ⟨hn.1, hlate⟩
  · unfold onHelloDone12
    rw [meets_bind, meets_session, meets_bind, meets_refuse]
    exact ⟨fun _ => .inl rfl, fun hno => absurd (.inl hst) hno⟩

theorem dispatch_sealed (hsize : DerivesSized env) (w : TlsWork) (h : Nonces w.session)
    (hty : w.session.hsType ≠ hsServerHello) :
    Meets (tlsDispatch env w) (fun _ v => Sealed w.session v.session) (fun _ v => Sealed w.session v.session) := by
  unfold tlsDispatch
  rw [meets_bind, meets_session, if_neg hty]
  by_cases hv : w.session.version = 0x0303
  · rw [if_pos hv]
    unfold tls12Dispatch
    split_ifs
    · exact keeps_sealed (keeps_of_mute mute_onCertificate12) w
    · exact keeps_sealed (keeps_of_mute mute_onCertificateRequest12) w
    · exact keeps_sealed keeps_onServerKx12 w
    · exact onHelloDone12_sealed hsize w h hv
    · exact keeps_sealed (keeps_of_mute mute_onServerFinished12) w
    · exact keeps_sealed (keeps_of_mute mute_onNewTicket12) w
    · exact .inl rfl
  · rw [if_neg hv]
    unfold tls13Dispatch
    split_ifs
    · exact keeps_sealed (keeps_of_mute mute_onEncryptedExtensions) w
    · exact keeps_sealed (keeps_of_mute mute_onCertificate) w
    · exact keeps_sealed (keeps_of_mute mute_onCompressedCertificate) w
    · exact keeps_sealed (keeps_of_mute mute_onCertificateRequest) w
    · exact keeps_sealed (keeps_of_mute mute_onCertificateVerify) w
    · exact onServerFinished_sealed hsize w h hv
    · exact keeps_sealed (keeps_of_mute mute_onNewTicket) w
    · exact keeps_sealed (keeps_of_mute mute_onKeyUpdate) w
    · exact .inl rfl

theorem Sealed.settled {s s' : TlsSession} (h : Sealed s s') (hs : Nonces.Settled s)
    (hst : s'.st = .new ∨ s'.st = .waitSh → s.st = .new ∨ s.st = .waitSh) : Nonces.Settled s' := by
  rcases h with heq | ⟨hn, hlate⟩
  · exact hs.same heq hst
  · exact ⟨hn, fun he => absurd (hst he) (by simp [hlate])⟩

theorem tlsDispatch_settled (hsize : DerivesSized env) (w : TlsWork) (h : Nonces.Settled w.session) :
    Meets (tlsDispatch env w) (fun _ v => Nonces.Settled v.session) (fun _ v => Nonces.Settled v.session) := by
  by_cases hty : w.session.hsType = hsServerHello
  · unfold tlsDispatch
    rw [meets_bind, meets_session, if_pos hty]
    exact onServerHello_settled hsize w h
  · apply ((dispatch_sealed hsize w h.1 hty).and (tlsDispatch_settles env w)).mono
    · rintro rc v ⟨hsealed, f, hacc, hm⟩
      have hv : v.session.st = f.st := congrArg TlsFlow.st hm.flow
      refine hsealed.settled h fun he => ?_
      rw [hv] at he
      cases hacc <;> simp_all
    · rintro rc v ⟨hsealed, -, f, href, hm⟩
      have hv : v.session.st = f.st := congrArg TlsFlow.st hm.flow
      refine hsealed.settled h fun he => ?_
      rw [hv, href.st] at he
      exact he

theorem trUpdate_sealing (s : TlsSession) (p : Bytes) : (s.trUpdate p).sealing = s.sealing := by
  unfold TlsSession.trUpdate
  split
  next => rfl
  next => rfl

theorem beginMessage_sealing (s : TlsSession) : s.beginMessage.sealing = s.sealing := by
  unfold TlsSession.beginMessage TlsSession.trUpdate
  dsimp only
  split_ifs <;> rfl

theorem Same.early {s s' : TlsSession} (h : Same s s') :
    s'.st = .new ∨ s'.st = .waitSh → s.st = .new ∨ s.st = .waitSh := by
  have hst : s'.st = s.st := congrArg TlsFlow.st h.flow
  rw [hst]
  exact id

theorem scanning_sealing (s : TlsSession) (c : CertScan) (c13 : Cert13Scan) : (s.scanning c c13).sealing = s.sealing :=
  rfl

theorem bodyTaken_sealing (s : TlsSession) (e : Epoch) (q : Bytes) : (s.bodyTaken e q).sealing = s.sealing :=
  rfl

theorem settled_rules (hsize : DerivesSized env) :
    SessionRules env (fun s _ _ => Nonces.Settled s) Nonces.Settled where
  skip := fun w e p h => h
  took := by
    intro w e q rest s' h ht
    have hsame := ht.grown.toSame
    refine Nonces.Settled.same h ?_ hsame.early
    cases ht with
    | header ha hlen => rfl
    | start ha hlen hq => exact beginMessage_sealing _
    | body ha hq c c13 => rw [bodyTaken_sealing, scanning_sealing, trUpdate_sealing]
  spoilt := by
    intro w e p s' h hs
    refine ⟨rfl, Nonces.Settled.same h ?_ hs.same.early⟩
    cases hs with
    | start ha q => exact beginMessage_sealing _
    | body ha q c c13 => rw [scanning_sealing, trUpdate_sealing]
  accepted := by
    intro w e rest rc v h _ _ hd
    have hm := tlsDispatch_settled hsize { w with session := w.session.received } (Nonces.Settled.same h rfl id)
    rw [hd] at hm
    exact Nonces.Settled.same hm rfl id
  refused := by
    intro w e rest rc v h _ _ hd
    have hm := tlsDispatch_settled hsize { w with session := w.session.received } (Nonces.Settled.same h rfl id)
    rw [hd] at hm
    exact ⟨(dispatched_error rest hd).1, Nonces.Settled.same hm rfl id⟩
  opened := by
    intro w e s' h ho p
    refine Nonces.Settled.same h ?_ ho.same.early
    rcases ho with rfl | rfl <;> rfl
  failed := fun w e p rc h hrc => ⟨hrc, h⟩
  ccs := by
    intro w e h _ _ _
    refine Nonces.Settled.same h ?_ fun he => ?_
    · unfold TlsSession.changed TlsSession.tls12OnCcs
      dsimp only
      split_ifs <;> rfl
    · have hf := congrArg TlsFlow.st (changed_flow w.session)
      split_ifs at hf with hturn
      · have hf' : w.session.changed.st = .waitFin := hf
        exact absurd he (by simp [hf'])
      · have hf' : w.session.changed.st = w.session.st := hf
        rw [hf'] at he
        exact he
  alert := fun w e p h => ⟨rfl, Nonces.Settled.same h rfl (by simp [TlsSession.alerted])⟩
  data := fun w e p h _ => Nonces.Settled.same h rfl id

theorem appNonce_at (s : TlsSession) (n : Nat) : appNonce s n = nonceAt s s.wr.seq := by
  unfold appNonce
  by_cases hv : s.version = 0x0303
  · rw [if_pos hv, nonceFor12_at hv]
  · rw [if_neg hv, nonceFor_at hv]

theorem sealApp_on {s : TlsSession} {chunk r : Bytes} {cap : Nat} (h : sealApp env s chunk cap = some r) :
    s.wr.on ∧ s.wr.seq ≠ seqMax := by
  unfold sealApp at h
  split_ifs at h with hv hc hc
  · obtain ⟨hon, hseq, -⟩ := tls12Seal_parts h
    exact ⟨hon, hseq⟩
  · obtain ⟨hon, hseq, -⟩ := sealRecord_parts h
    exact ⟨hon, hseq⟩

theorem sendLoop_settled (fuel : Nat) {s : TlsSession} (data : Bytes) (cap : Nat) (h : Nonces.Settled s) :
    Nonces.Settled (sendLoop env fuel s data cap).1 := by
  induction fuel generalizing s data cap with
  | zero => exact h
  | succ fuel ih =>
    unfold sendLoop
    cases hseal : sealApp env s (data.take recMaxPt) cap with
    | none => exact h
    | some p =>
      obtain ⟨hon, hseq⟩ := sealApp_on hseal
      have hnext : Nonces.Settled (s.sealedApp (data.take recMaxPt)) := by
        refine ⟨?_, h.2⟩
        unfold TlsSession.sealedApp
        rw [appNonce_at]
        exact h.1.sealed hon hseq
      dsimp only
      split_ifs
      · exact hnext
      · exact ih _ _ hnext

end Sealing

/-- In every run the nonces of a session are in order. -/
theorem reach_settled {env : TlsEnv} {cfg : TlsConfig} {draws : HelloDraws} {cap : Nat} {c : Conn}
    {guard : Conn → TlsAct → Prop} (hsize : DerivesSized env)
    (h : Transition.Reach (Conn.step env) guard (Conn.start env cfg draws cap) c) : Nonces.Settled c.session := by
  have hinit : ∀ s : TlsSession, s.wr = .off → s.seals = [] → Nonces.Settled s := by
    intro s hw hs
    refine ⟨⟨⟨by simp [hs], by simp [hs], ?_⟩, by simp [hw, TlsKeys.off]⟩, fun _ => by rw [hw]; rfl⟩
    rw [hw]
    rfl
  have hstart : Nonces.Settled (Conn.start env cfg draws cap).session := by
    unfold Conn.start tlsStart TlsSession.withDraws
    dsimp only
    repeat' split
    all_goals exact hinit _ rfl rfl
  have hinv : ∀ c act c', Nonces.Settled c.session → guard c act → Conn.step env c act = some c' →
      Nonces.Settled c'.session := by
    intro c act c' hc _ hstep
    cases act with
    | recv io =>
      cases hstep
      have hr := recvLoop_flow (settled_rules hsize) (e := .plain) (fun s e buf hs => Nonces.Settled.same hs rfl id)
        (fun s buf hs => Nonces.Settled.same hs rfl id) (c.session.recBuf.length + io.input.length + 1) io false hc
      by_cases hrc : (tlsRecv env c.session io).rc.isError
      · exact hr.2 hrc
      · rw [Bool.not_eq_true] at hrc
        obtain ⟨e, hj⟩ := hr.1 hrc
        exact hj
    | sendApp data cap =>
      cases hstep
      show Nonces.Settled (tlsSendApp env c.session data cap).1
      unfold tlsSendApp
      split_ifs
      · exact hc
      · exact sendLoop_settled _ data cap hc
  refine Transition.Reach.invariant ?_ hinv h
  exact hstart

/-- Records come out of the peer as they went in, and no nonce is used twice under one key. -/
theorem records_sound {env : TlsEnv} (haead : AeadSound env) (hsize : DerivesSized env) :
    (∀ (s s' p : TlsSession) (data bytes : Bytes) (cap : Nat) (calls : List TlsIo),
      tlsSendApp env s data cap = (s', some bytes) → Mirrors s p → p.recBuf = [] →
      calls.flatMap TlsIo.input = bytes → (∀ io ∈ calls, data.length ≤ io.appCap) →
      (recvAll env p calls).flatMap RecvResult.app = data ∧ (∀ x ∈ recvAll env p calls, x.rc = .more) ∧
        (lastSession p (recvAll env p calls)).rd.seq = s'.wr.seq) ∧
    ∀ (cfg : TlsConfig) (draws : HelloDraws) (cap : Nat) (c : Conn),
      Transition.Reach (Conn.step env) (fun _ _ => True) (Conn.start env cfg draws cap) c → c.session.seals.Nodup := by
  refine ⟨fun s s' p data bytes cap calls hsend hm hbuf hcut hroom => ?_, fun cfg draws cap c h => ?_⟩
  · obtain ⟨happ, hrc, -, hm'⟩ := sendApp_trip haead hsend hm hbuf hcut hroom
    exact ⟨happ, hrc, hm'.seq⟩
  · exact (reach_settled hsize h).1.1.nodup

/-- The other end of the sample session. -/
def samplePeer : TlsSession :=
  { (sampleConn sampleFlight).session with rd := (sampleConn sampleFlight).session.wr }

theorem mirrors_self {s : TlsSession} (h : s.st = .ready) : Mirrors s { s with rd := s.wr } :=
  ⟨h, rfl, rfl, rfl, rfl, rfl, rfl⟩

theorem sampleEnv_aead : AeadSound sampleEnv := by
  constructor
  · rintro a nonce aad p c h
    obtain rfl := Option.some.inj h
    have hlen : (p ++ zeros aeadTagLen).length - aeadTagLen = p.length := by simp [zeros]
    show (if _ then _ else _) = _
    rw [hlen, List.drop_left, if_pos rfl, List.take_left]
  · rintro a nonce aad p c h
    obtain rfl := Option.some.inj h
    simp [zeros]

theorem sampleEnv_sized : DerivesSized sampleEnv := by
  constructor
  · rintro id secret label ctx n p h
    obtain rfl := Option.some.inj h
    exact List.length_replicate
  · rintro id secret label seed n p h
    obtain rfl := Option.some.inj h
    exact List.length_replicate

theorem records_sound_sample :
    (∃ bytes, (tlsSendApp sampleEnv (sampleConn sampleFlight).session [7, 0, 0] 100).2 = some bytes ∧
      (recvAll sampleEnv samplePeer [sampleIo (bytes.take 3), sampleIo (bytes.drop 3)]).flatMap RecvResult.app =
        [7, 0, 0]) ∧
    (sampleConn sampleFlight).session.seals.Nodup := by
  obtain ⟨htrip, hfresh⟩ := records_sound sampleEnv_aead sampleEnv_sized
  refine ⟨?_, hfresh _ _ _ _ (sampleConn_reach trivial)⟩
  have hsome : (tlsSendApp sampleEnv (sampleConn sampleFlight).session [7, 0, 0] 100).2.isSome := by decide +kernel
  obtain ⟨bytes, hbytes⟩ := Option.isSome_iff_exists.mp hsome
  have hready : (sampleConn sampleFlight).session.st = .ready := by decide +kernel
  have hm : Mirrors (sampleConn sampleFlight).session samplePeer := mirrors_self hready
  have hbuf : samplePeer.recBuf = [] := by decide +kernel
  obtain ⟨happ, -⟩ := htrip _ _ samplePeer [7, 0, 0] bytes 100 [sampleIo (bytes.take 3), sampleIo (bytes.drop 3)]
    (Prod.ext rfl hbytes) hm hbuf (by simp [sampleIo]) (by simp [sampleIo])
  exact ⟨bytes, hbytes, happ⟩

end Qanat

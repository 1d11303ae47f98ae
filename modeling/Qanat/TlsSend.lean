import Qanat.TlsTrip

namespace Qanat

/-- Sealing a text of the size of a record does not fail, and adds the tag. -/
structure AeadSeals (env : TlsEnv) : Prop where
  seals : ∀ a nonce aad p, p.length ≤ recMaxPt + 1 →
    ∃ c, env.aeadSeal a nonce aad p = some c ∧ c.length = p.length + aeadTagLen

def intMax : Nat := 2 ^ 31 - 1

/-- A `size_t` cast to `int`. -/
def toInt (n : Nat) : Int :=
  ((n : Int) + 2 ^ 31) % 2 ^ 32 - 2 ^ 31

/-- What `qn_tls_send_app` answers. -/
def sendAppReturn (r : TlsSession × Option Bytes) : Int :=
  match r.2 with
  | some out => toInt out.length
  | none => -1

/-- Either all records went out, and the answer is their length, or the write sequence number is as before. -/
def AllOrNothing (env : TlsEnv) (s : TlsSession) (data : Bytes) (r : TlsSession × Option Bytes) : Prop :=
  (∃ l, Sealing env s l r.1 ∧ r.2 = some (recordsOf l) ∧ contentOf l = data ∧
    sendAppReturn r = (recordsOf l).length ∧ r.1.wr.seq = s.wr.seq + l.length) ∨
  sendAppReturn r = -1 ∧ r.1.wr.seq = s.wr.seq

/-- The size on the wire of a record of application data around `n` bytes. -/
def recordLen (s : TlsSession) (n : Nat) : Nat :=
  if s.version = 0x0303 then seal12Len s.aeadId n else sealLen n

/-- The number of records around `n` bytes. -/
def sendCount (n : Nat) : Nat :=
  max 1 ((n + (recMaxPt - 1)) / recMaxPt)

/-- The size of the records around `n` bytes. -/
def sendLen (s : TlsSession) (n : Nat) : Nat :=
  n + sendCount n * recordLen s 0

/-- Whether a record around `n` bytes can be sealed into `cap` bytes. -/
def SealFits (s : TlsSession) (n cap : Nat) : Prop :=
  s.wr.on ∧ s.wr.aead.isSome ∧ s.wr.seq ≠ seqMax ∧ recordLen s n ≤ cap

/-- Whether the records around `n` bytes all fit. -/
def SendFits (s : TlsSession) (n cap : Nat) : Prop :=
  s.wr.seq + sendCount n ≤ seqMax ∧ sendLen s n ≤ cap

/-- One record is enough, or not even the first can be sealed, or all fit and an `int` holds their length. -/
def SendSafe (s : TlsSession) (n cap : Nat) : Prop :=
  n ≤ recMaxPt ∨ ¬ SealFits s recMaxPt cap ∨ SendFits s n cap ∧ sendLen s n ≤ intMax

theorem toInt_eq_iff {n : Nat} : toInt n = n ↔ n ≤ intMax := by
  unfold toInt intMax
  omega

section Records

variable {env : TlsEnv} {s : TlsSession} {chunk data r : Bytes} {n cap fuel : Nat}

theorem recordLen_add (s : TlsSession) (n : Nat) : recordLen s n = recordLen s 0 + n := by
  unfold recordLen seal12Len sealLen
  split
  next => omega
  next => omega

theorem recordLen_zero_le (s : TlsSession) : recordLen s 0 ≤ 64 := by
  unfold recordLen seal12Len sealLen explicitLen
  have hhdr : recHdr = 5 := rfl
  have htag : aeadTagLen = 16 := rfl
  split
  next =>
    split
    next => omega
    next => omega
  next => omega

theorem sendCount_one (h : n ≤ recMaxPt) : sendCount n = 1 := by
  unfold recMaxPt at h
  unfold sendCount recMaxPt
  omega

theorem sendCount_more (h : recMaxPt < n) : sendCount n = sendCount (n - recMaxPt) + 1 := by
  unfold recMaxPt at h
  unfold sendCount recMaxPt
  omega

theorem sendLen_one (h : n ≤ recMaxPt) : sendLen s n = recordLen s n := by
  rw [sendLen, sendCount_one h, Nat.one_mul, recordLen_add s n, Nat.add_comm]

theorem sendLen_more (h : recMaxPt < n) : sendLen s n = recordLen s recMaxPt + sendLen s (n - recMaxPt) := by
  rw [sendLen, sendLen, sendCount_more h, Nat.succ_mul, recordLen_add s recMaxPt]
  omega

theorem sealRecord_isSome (hseals : AeadSeals env) (inner : UInt8) (hlen : chunk.length ≤ recMaxPt) :
    (sealRecord env s inner chunk).isSome ↔ s.wr.on ∧ s.wr.aead.isSome ∧ s.wr.seq ≠ seqMax := by
  constructor
  · intro h
    obtain ⟨r, hr⟩ := Option.isSome_iff_exists.mp h
    obtain ⟨hon, hseq, aead, -, haead, -, -⟩ := sealRecord_parts hr
    exact ⟨hon, by rw [haead]; rfl, hseq⟩
  · rintro ⟨hon, haead, hseq⟩
    obtain ⟨aead, haead⟩ := Option.isSome_iff_exists.mp haead
    have hbig : ¬ 0xFFFF < chunk.length + 1 + aeadTagLen := by
      have hmax : recMaxPt = 16384 := rfl
      have htag : aeadTagLen = 16 := rfl
      omega
    obtain ⟨c, hc, -⟩ := hseals.seals aead (nonceFor s.wr) (recordHeader rtApp (chunk.length + 1 + aeadTagLen))
      (chunk ++ [inner]) (by rw [List.length_append]; exact Nat.succ_le_succ hlen)
    unfold sealRecord
    dsimp only
    rw [if_neg (by simp [hon, hseq, hbig]), haead]
    simp [hc]

theorem tls12Seal_isSome (hseals : AeadSeals env) (type : UInt8) (hlen : chunk.length ≤ recMaxPt) :
    (tls12Seal env s type chunk).isSome ↔ s.wr.on ∧ s.wr.aead.isSome ∧ s.wr.seq ≠ seqMax := by
  constructor
  · intro h
    obtain ⟨r, hr⟩ := Option.isSome_iff_exists.mp h
    obtain ⟨hon, hseq, aead, -, haead, -, -⟩ := tls12Seal_parts hr
    exact ⟨hon, by rw [haead]; rfl, hseq⟩
  · rintro ⟨hon, haead, hseq⟩
    obtain ⟨aead, haead⟩ := Option.isSome_iff_exists.mp haead
    have hbig : ¬ 0xFFFF < explicitLen s.aeadId + chunk.length + aeadTagLen := by
      have hmax : recMaxPt = 16384 := rfl
      have htag : aeadTagLen = 16 := rfl
      have hexp : explicitLen s.aeadId ≤ 8 := by
        unfold explicitLen
        split
        next => exact Nat.le_refl _
        next => exact Nat.zero_le _
      omega
    obtain ⟨c, hc, -⟩ := hseals.seals aead (nonceFor12 s s.wr (aadFor s.wr.seq type chunk.length))
      (aadFor s.wr.seq type chunk.length) chunk (hlen.trans (Nat.le_succ _))
    unfold tls12Seal
    dsimp only
    rw [if_neg (by simp [hon, hseq, hbig]), haead]
    simp [hc]

theorem sealApp_isSome (hseals : AeadSeals env) (s : TlsSession) (cap : Nat) (hlen : chunk.length ≤ recMaxPt) :
    (sealApp env s chunk cap).isSome ↔ SealFits s chunk.length cap := by
  unfold sealApp SealFits recordLen
  by_cases hv : s.version = 0x0303
  · rw [if_pos hv, if_pos hv]
    by_cases hcap : cap < seal12Len s.aeadId chunk.length
    · rw [if_pos hcap]
      exact ⟨fun h => Bool.noConfusion h, fun h => absurd h.2.2.2 (Nat.not_le.mpr hcap)⟩
    · rw [if_neg hcap, tls12Seal_isSome hseals rtApp hlen]
      exact ⟨fun h => ⟨h.1, h.2.1, h.2.2, Nat.not_lt.mp hcap⟩, fun h => ⟨h.1, h.2.1, h.2.2.1⟩⟩
  · rw [if_neg hv, if_neg hv]
    by_cases hcap : cap < sealLen chunk.length
    · rw [if_pos hcap]
      exact ⟨fun h => Bool.noConfusion h, fun h => absurd h.2.2.2 (Nat.not_le.mpr hcap)⟩
    · rw [if_neg hcap, sealRecord_isSome hseals rtApp hlen]
      exact ⟨fun h => ⟨h.1, h.2.1, h.2.2, Nat.not_lt.mp hcap⟩, fun h => ⟨h.1, h.2.1, h.2.2.1⟩⟩

theorem sealApp_length (hseals : AeadSeals env) (hlen : chunk.length ≤ recMaxPt)
    (h : sealApp env s chunk cap = some r) : r.length = recordLen s chunk.length := by
  unfold sealApp at h
  unfold recordLen
  split at h
  next hv =>
    rw [if_pos hv]
    split at h
    next => cases h
    next =>
      obtain ⟨-, -, aead, body, -, hbody, rfl⟩ := tls12Seal_parts h
      obtain ⟨c, hc, hclen⟩ := hseals.seals aead (nonceFor12 s s.wr (aadFor s.wr.seq rtApp chunk.length))
        (aadFor s.wr.seq rtApp chunk.length) chunk (hlen.trans (Nat.le_succ _))
      obtain rfl := Option.some.inj (hbody.symm.trans hc)
      have haad : ((aadFor s.wr.seq rtApp chunk.length).take (explicitLen s.aeadId)).length = explicitLen s.aeadId := by
        refine List.length_take_of_le ?_
        unfold explicitLen aadFor
        rw [List.length_append, List.length_append, wireBytes_length, wireBytes_length]
        split
        next => exact (Nat.le_add_right 8 3).trans (Nat.le_add_right _ _)
        next => exact Nat.zero_le _
      rw [List.length_append, List.length_append, haad, hclen, recordHeader, List.length_append, wireBytes_length,
        seal12Len]
      have hhdr : recHdr = 5 := rfl
      simp only [List.length_cons, List.length_nil]
      omega
  next hv =>
    rw [if_neg hv]
    split at h
    next => cases h
    next =>
      obtain ⟨-, -, aead, body, -, hbody, rfl⟩ := sealRecord_parts h
      have hin : (chunk ++ [rtApp]).length ≤ recMaxPt + 1 := by
        rw [List.length_append]
        exact Nat.succ_le_succ hlen
      obtain ⟨c, hc, hclen⟩ := hseals.seals aead (nonceFor s.wr)
        (recordHeader rtApp (chunk.length + 1 + aeadTagLen)) (chunk ++ [rtApp]) hin
      obtain rfl := Option.some.inj (hbody.symm.trans hc)
      rw [List.length_append, hclen, recordHeader, List.length_append, wireBytes_length, List.length_append, sealLen]
      have hhdr : recHdr = 5 := rfl
      simp only [List.length_cons, List.length_nil]
      omega

theorem Sealing.seq {l : List (Bytes × Bytes)} {s' : TlsSession} (h : Sealing env s l s') :
    s'.wr.seq = s.wr.seq + l.length := by
  induction h with
  | nil => rfl
  | @cons s s' chunk r l cap _ _ _ ih =>
    have hnext : (s.sealedApp chunk).wr.seq = s.wr.seq + 1 := rfl
    rw [ih, hnext, List.length_cons]
    omega

theorem sendLoop_seq_le (fuel : Nat) (s : TlsSession) (data : Bytes) (cap : Nat) :
    s.wr.seq ≤ (sendLoop env fuel s data cap).1.wr.seq := by
  induction fuel generalizing s data cap with
  | zero => exact Nat.le_refl _
  | succ fuel ih =>
    unfold sendLoop
    cases sealApp env s (data.take recMaxPt) cap with
    | none => exact Nat.le_refl _
    | some p =>
      have hnext : s.wr.seq ≤ (s.sealedApp (data.take recMaxPt)).wr.seq := Nat.le_succ _
      dsimp only
      split
      next => exact hnext
      next => exact hnext.trans (ih _ _ _)

/-- One record more than the rest needs. -/
theorem sendFits_more (chunk : Bytes) (h : recMaxPt < n) : SendFits s n cap ↔ recordLen s recMaxPt ≤ cap ∧
    SendFits (s.sealedApp chunk) (n - recMaxPt) (cap - recordLen s recMaxPt) := by
  have hseq : (s.sealedApp chunk).wr.seq = s.wr.seq + 1 := rfl
  have hlen : sendLen (s.sealedApp chunk) (n - recMaxPt) = sendLen s (n - recMaxPt) := rfl
  unfold SendFits
  rw [hseq, hlen, sendCount_more h, sendLen_more h]
  constructor
  · rintro ⟨hs, hc⟩
    exact ⟨by omega, by omega, by omega⟩
  · rintro ⟨hr, hs, hc⟩
    exact ⟨by omega, by omega⟩

theorem SendFits.seal (h : SendFits s n cap) (hon : s.wr.on) (haead : s.wr.aead.isSome) :
    SealFits s (min recMaxPt n) cap := by
  obtain ⟨hseq, hcap⟩ := h
  have hcount : 1 ≤ sendCount n := le_max_left _ _
  refine ⟨hon, haead, by omega, ?_⟩
  by_cases hn : n ≤ recMaxPt
  · rw [Nat.min_eq_right hn, ← sendLen_one hn]
    exact hcap
  · rw [Nat.min_eq_left (Nat.le_of_not_le hn)]
    rw [sendLen_more (Nat.lt_of_not_le hn)] at hcap
    omega

/-- The loop sends all of its data if and only if all of the records fit. -/
theorem sendLoop_fits (cap : Nat) (hseals : AeadSeals env) (hseq : s.wr.seq ≤ seqMax) (hon : s.wr.on)
    (haead : s.wr.aead.isSome) (hfuel : data.length < fuel) :
    (sendLoop env fuel s data cap).2.isSome ↔ SendFits s data.length cap := by
  induction fuel generalizing s data cap with
  | zero => exact absurd hfuel (Nat.not_lt_zero _)
  | succ fuel ih =>
    have htake : (data.take recMaxPt).length = min recMaxPt data.length := List.length_take
    have hone := sealApp_isSome hseals s cap (List.length_take_le recMaxPt data)
    rw [htake] at hone
    unfold sendLoop
    cases hseal : sealApp env s (data.take recMaxPt) cap with
    | none =>
      rw [hseal] at hone
      exact ⟨fun h => Bool.noConfusion h, fun h => absurd (h.seal hon haead) fun hf => Bool.noConfusion (hone.mpr hf)⟩
    | some p =>
      have hplen := sealApp_length hseals (List.length_take_le recMaxPt data) hseal
      rw [hseal] at hone
      obtain ⟨-, -, hne, hcap⟩ := hone.mp rfl
      rw [htake] at hplen
      dsimp only
      by_cases hlast : data.length ≤ recMaxPt
      · rw [if_pos (List.drop_eq_nil_of_le hlast)]
        rw [Nat.min_eq_right hlast] at hcap
        refine ⟨fun _ => ⟨?_, ?_⟩, fun _ => rfl⟩
        · rw [sendCount_one hlast]
          omega
        · rw [sendLen_one hlast]
          exact hcap
      · have hmore : recMaxPt < data.length := Nat.lt_of_not_le hlast
        have hne' : data.drop recMaxPt ≠ [] := fun h => hlast (List.drop_eq_nil_iff.mp h)
        have hpos : 0 < recMaxPt := by decide
        have hdrop : (data.drop recMaxPt).length = data.length - recMaxPt := List.length_drop
        rw [Nat.min_eq_left hmore.le] at hcap hplen
        rw [if_neg hne', Option.isSome_map, sendFits_more (data.take recMaxPt) hmore, hplen, ← hdrop]
        have hseq' : (s.sealedApp (data.take recMaxPt)).wr.seq ≤ seqMax := by
          show s.wr.seq + 1 ≤ seqMax
          omega
        rw [ih _ hseq' hon haead (by omega)]
        exact ⟨fun h => ⟨hcap, h⟩, fun h => h.2⟩

theorem sendLoop_length (hseals : AeadSeals env) (fuel : Nat) (s : TlsSession) (data : Bytes) (cap : Nat) {out : Bytes}
    (h : (sendLoop env fuel s data cap).2 = some out) : out.length = sendLen s data.length := by
  induction fuel generalizing s data cap out with
  | zero => cases h
  | succ fuel ih =>
    unfold sendLoop at h
    cases hseal : sealApp env s (data.take recMaxPt) cap with
    | none =>
      rw [hseal] at h
      cases h
    | some p =>
      have hplen := sealApp_length hseals (List.length_take_le recMaxPt data) hseal
      rw [List.length_take] at hplen
      rw [hseal] at h
      dsimp only at h
      by_cases hlast : data.length ≤ recMaxPt
      · rw [if_pos (List.drop_eq_nil_of_le hlast)] at h
        obtain rfl := Option.some.inj h
        rw [hplen, Nat.min_eq_right hlast, sendLen_one hlast]
      · have hmore : recMaxPt < data.length := Nat.lt_of_not_le hlast
        rw [if_neg fun hd => hlast (List.drop_eq_nil_iff.mp hd)] at h
        obtain ⟨rest, hrest, rfl⟩ := Option.map_eq_some_iff.mp h
        have hlen := ih _ _ _ hrest
        have hsame : sendLen (s.sealedApp (data.take recMaxPt)) (data.drop recMaxPt).length =
            sendLen s (data.drop recMaxPt).length := rfl
        rw [List.length_append, hplen, hlen, hsame, Nat.min_eq_left hmore.le, sendLen_more hmore, List.length_drop]

/-- Once a record is sealed the write sequence number is not what it was. -/
theorem sendLoop_advances (fuel : Nat) (h : SealFits s (min recMaxPt data.length) cap) (hseals : AeadSeals env) :
    s.wr.seq < (sendLoop env (fuel + 1) s data cap).1.wr.seq := by
  have hone := sealApp_isSome hseals s cap (List.length_take_le recMaxPt data)
  rw [List.length_take] at hone
  obtain ⟨p, hp⟩ := Option.isSome_iff_exists.mp (hone.mpr h)
  have hnext : s.wr.seq < (s.sealedApp (data.take recMaxPt)).wr.seq := Nat.lt_succ_self _
  unfold sendLoop
  rw [hp]
  dsimp only
  split
  next => exact hnext
  next => exact Nat.lt_of_lt_of_le hnext (sendLoop_seq_le _ _ _ _)

theorem allOrNothing_sent {s' : TlsSession} {out : Bytes} (h : sendLoop env fuel s data cap = (s', some out))
    (hadv : s.wr.seq < s'.wr.seq) : AllOrNothing env s data (s', some out) ↔ out.length ≤ intMax := by
  constructor
  · rintro (⟨l, -, hout, -, hret, -⟩ | ⟨-, hseq⟩)
    · obtain rfl := Option.some.inj hout
      exact toInt_eq_iff.mp hret
    · exact absurd hseq hadv.ne'
  · intro hle
    obtain ⟨l, hl, rfl, hdata⟩ := sendLoop_sealing h
    exact .inl ⟨l, hl, rfl, hdata.symm, toInt_eq_iff.mpr hle, hl.seq⟩

theorem allOrNothing_failed {s' : TlsSession} : AllOrNothing env s data (s', none) ↔ s'.wr.seq = s.wr.seq := by
  constructor
  · rintro (⟨l, -, hout, -⟩ | ⟨-, hseq⟩)
    · cases hout
    · exact hseq
  · exact fun hseq => .inr ⟨rfl, hseq⟩

end Records

/-- A ready session sends all or nothing exactly where one record does, where the first record already fails, or
where there is room for all of them. -/
theorem sendApp_allOrNothing_iff {env : TlsEnv} {s : TlsSession} (hseals : AeadSeals env) (hready : s.st = .ready)
    (hseq : s.wr.seq ≤ seqMax) (data : Bytes) (cap : Nat) :
    AllOrNothing env s data (tlsSendApp env s data cap) ↔ SendSafe s data.length cap := by
  have hmax : recMaxPt = 16384 := rfl
  unfold tlsSendApp
  rw [if_neg (not_not.mpr hready)]
  by_cases hfirst : SealFits s (min recMaxPt data.length) cap
  · have hadv := sendLoop_advances data.length hfirst hseals
    have hfits := sendLoop_fits cap hseals hseq hfirst.1 hfirst.2.1 (Nat.lt_succ_self data.length)
    have hone : data.length ≤ recMaxPt → SendFits s data.length cap := by
      intro hle
      obtain ⟨-, -, hne, hcap⟩ := hfirst
      rw [Nat.min_eq_right hle] at hcap
      refine ⟨?_, ?_⟩
      · rw [sendCount_one hle]
        omega
      · rw [sendLen_one hle]
        exact hcap
    have hlen := @sendLoop_length env hseals (data.length + 1) s data cap
    generalize hr : sendLoop env (data.length + 1) s data cap = r at hadv hfits hlen
    obtain ⟨s', out⟩ := r
    cases out with
    | some out =>
      rw [allOrNothing_sent hr hadv, hlen rfl]
      constructor
      · exact fun hle => .inr (.inr ⟨hfits.mp rfl, hle⟩)
      · rintro (hle | hno | ⟨-, hle⟩)
        · have hzero := recordLen_zero_le s
          rw [sendLen_one hle, recordLen_add]
          unfold intMax
          omega
        · by_cases hle : data.length ≤ recMaxPt
          · have hzero := recordLen_zero_le s
            rw [sendLen_one hle, recordLen_add]
            unfold intMax
            omega
          · rw [Nat.min_eq_left (Nat.le_of_not_le hle)] at hfirst
            exact absurd hfirst hno
        · exact hle
    | none =>
      rw [allOrNothing_failed]
      constructor
      · exact fun hs => absurd hs hadv.ne'
      · rintro (hle | hno | ⟨hf, -⟩)
        · exact Bool.noConfusion (hfits.mpr (hone hle))
        · by_cases hle : data.length ≤ recMaxPt
          · exact Bool.noConfusion (hfits.mpr (hone hle))
          · rw [Nat.min_eq_left (Nat.le_of_not_le hle)] at hfirst
            exact absurd hfirst hno
        · exact Bool.noConfusion (hfits.mpr hf)
  · have hone := sealApp_isSome hseals s cap (List.length_take_le recMaxPt data)
    rw [List.length_take] at hone
    have hnone : sealApp env s (data.take recMaxPt) cap = none :=
      Option.not_isSome_iff_eq_none.mp fun h => hfirst (hone.mp h)
    unfold sendLoop
    rw [hnone]
    refine ⟨fun _ => ?_, fun _ => .inr ⟨rfl, rfl⟩⟩
    by_cases hle : data.length ≤ recMaxPt
    · exact .inl hle
    · rw [Nat.min_eq_left (Nat.le_of_not_le hle)] at hfirst
      exact .inr (.inl hfirst)

theorem sampleEnv_seals : AeadSeals sampleEnv where
  seals := fun _ _ _ p _ => ⟨p ++ zeros aeadTagLen, rfl, by simp [zeros]⟩

theorem sendApp_allOrNothing_sample : AllOrNothing sampleEnv (sampleConn sampleFlight).session [7, 0, 0]
    (tlsSendApp sampleEnv (sampleConn sampleFlight).session [7, 0, 0] 100) :=
  (sendApp_allOrNothing_iff sampleEnv_seals (by decide +kernel) (by decide +kernel) [7, 0, 0] 100).mpr
    (.inl (by decide))

/-- The first of two records takes the whole room, and the second fails behind it. -/
theorem sendApp_halfway :
    Transition.Reach (Conn.step sampleEnv) (fun _ _ => True) sampleStart (sampleConn sampleFlight) ∧
    (sampleConn sampleFlight).session.st = .ready ∧
    sendAppReturn (tlsSendApp sampleEnv (sampleConn sampleFlight).session (zeros 16385) 16406) = -1 ∧
    ¬ AllOrNothing sampleEnv (sampleConn sampleFlight).session (zeros 16385)
      (tlsSendApp sampleEnv (sampleConn sampleFlight).session (zeros 16385) 16406) := by
  have hready : (sampleConn sampleFlight).session.st = .ready := by decide +kernel
  have hon : (sampleConn sampleFlight).session.wr.on = true := by decide +kernel
  have haead : (sampleConn sampleFlight).session.wr.aead.isSome = true := by decide +kernel
  have hseq : (sampleConn sampleFlight).session.wr.seq = 0 := by decide +kernel
  have hversion : (sampleConn sampleFlight).session.version = 0x0304 := by decide +kernel
  refine ⟨sampleConn_reach trivial, hready, ?_⟩
  generalize (sampleConn sampleFlight).session = s at hready hon haead hseq hversion
  have hdata : (zeros 16385).length = 16385 := List.length_replicate
  have hrecord : recordLen s recMaxPt = 16406 := by
    rw [recordLen, if_neg (by rw [hversion]; decide)]
    rfl
  have hfirst : SealFits s (min recMaxPt (zeros 16385).length) 16406 := by
    rw [hdata]
    exact ⟨hon, haead, by rw [hseq]; decide, hrecord.le⟩
  have hnone : ¬ SendFits s (zeros 16385).length 16406 := by
    rintro ⟨-, hcap⟩
    rw [hdata, sendLen_more (by decide), hrecord] at hcap
    have hpos : 0 < sendLen s (16385 - recMaxPt) := Nat.lt_of_lt_of_le (by decide) (Nat.le_add_right _ _)
    omega
  have hadv := sendLoop_advances (zeros 16385).length hfirst sampleEnv_seals
  have hfits := sendLoop_fits 16406 sampleEnv_seals (by rw [hseq]; exact Nat.zero_le _) hon haead
    (Nat.lt_succ_self (zeros 16385).length)
  unfold tlsSendApp
  rw [if_neg (not_not.mpr hready)]
  generalize sendLoop sampleEnv ((zeros 16385).length + 1) s (zeros 16385) 16406 = r at hadv hfits
  obtain ⟨s', out⟩ := r
  cases out with
  | some out => exact absurd (hfits.mp rfl) hnone
  | none => exact ⟨rfl, fun h => absurd (allOrNothing_failed.mp h) hadv.ne'⟩

end Qanat

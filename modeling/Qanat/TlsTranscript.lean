import Qanat.TlsHelloWire

namespace Qanat

open TlsHandler Outcome

/-- The bytes of a message. -/
def Message.bytes (m : Message) : Bytes :=
  m.tags.map Prod.fst

/-- The bytes of the message being received. -/
def TlsSession.piece (s : TlsSession) : Bytes :=
  s.tags.map Prod.fst

/-- What a transcript over these handshake messages absorbs; after a retry a digest stands for the first. -/
def tape (env : TlsEnv) (hash : HashId) (retried : Bool) (flights : List Bytes) : Bytes :=
  if retried then
    match flights with
    | [] => []
    | ch :: rest => messageHash env hash ch ++ rest.flatten
  else flights.flatten

theorem tape_append {env : TlsEnv} {hash : HashId} {retried : Bool} {flights : List Bytes}
    (h : retried → flights ≠ []) (l : List Bytes) :
    tape env hash retried (flights ++ l) = tape env hash retried flights ++ l.flatten := by
  cases retried with
  | false => simp [tape]
  | true =>
    obtain ⟨ch, rest, rfl⟩ := List.exists_cons_of_ne_nil (h rfl)
    simp [tape]

/-- The parts of the message being received fit together. -/
structure Pieced (s : TlsSession) : Prop where
  idle : s.hsActive = false → s.piece = s.hsHdr
  busy : s.hsActive → ∃ body, s.piece = s.hsHdr ++ body ∧ s.hs = body.take tlsHsBuf ∧ s.hsGot = body.length ∧
    s.hsGot ≤ s.hsLen

/-- A message that is complete and fits the buffer is its header and the buffer. -/
theorem Pieced.whole {s : TlsSession} (h : Pieced s) (ha : s.hsActive) (hgot : s.hsLen ≤ s.hsGot)
    (hlen : s.hsLen = s.hs.length) : s.piece = s.hsHdr ++ s.hs := by
  obtain ⟨body, hp, hhs, hgot', hle⟩ := h.busy ha
  have hbody : body.length ≤ tlsHsBuf := by
    rw [hhs, List.length_take] at hlen
    omega
  rw [hp, hhs, List.take_of_length_le hbody]

/-- The fields a message that begins sets, and those the transcript depends on. -/
structure Begins (s s' : TlsSession) : Prop where
  transcript : s'.transcript = if s.trOn then s.transcript.update s.hsHdr else s.transcript
  trFin : s'.trFin = if byteAt s.hsHdr 0 = hsFinished then s.transcript else s.trFin
  hsType : s'.hsType = byteAt s.hsHdr 0
  hs : s'.hs = []
  hsGot : s'.hsGot = 0
  hsHdr : s'.hsHdr = s.hsHdr
  trOn : s'.trOn = s.trOn
  flights : s'.flights = s.flights
  ch : s'.ch = s.ch

theorem beginMessage_begins (s : TlsSession) : Begins s s.beginMessage := by
  unfold TlsSession.beginMessage TlsSession.trUpdate
  constructor
  all_goals
    dsimp only
    split_ifs <;> rfl

theorem Grown.piece {e : Epoch} {s s' : TlsSession} {q : Bytes} (h : Grown e s q s') : s'.piece = s.piece ++ q := by
  unfold TlsSession.piece
  rw [h.tags, List.map_append, List.map_map]
  exact congrArg _ (List.map_id q)

theorem Took.pieced {e : Epoch} {s s' : TlsSession} {q : Bytes} (h : Took e s q s') (hp : Pieced s) : Pieced s' := by
  have hpiece := h.grown.piece
  cases h with
  | header ha hlen =>
    refine ⟨fun _ => ?_, fun ha' => absurd ha' (by simp [TlsSession.headerTaken, ha])⟩
    rw [hpiece, hp.idle ha]
    rfl
  | start ha hlen hq =>
    have hb := beginMessage_begins (s.headerTaken e q)
    refine ⟨fun ha' => ?_, fun _ => ⟨[], ?_, ?_, ?_, ?_⟩⟩
    · rw [beginMessage_hsActive] at ha'
      exact absurd ha' (by simp)
    · rw [hpiece, hp.idle ha, hb.hsHdr, List.append_nil]
      rfl
    · rw [hb.hs]
      rfl
    · rw [hb.hsGot]
      rfl
    · rw [hb.hsGot]
      exact Nat.zero_le _
  | body ha hq c c13 =>
    obtain ⟨body, hbody, hhs, hgot, hle⟩ := hp.busy ha
    have hpast := trUpdate_past s q
    simp only [TlsSession.past, TlsPast.mk.injEq] at hpast
    obtain ⟨-, -, hhs', hhdr', -, hlen', hgot', hact', -, -, -⟩ := hpast
    refine ⟨fun ha' => ?_, fun _ => ⟨body ++ q, ?_, ?_, ?_, ?_⟩⟩
    · have hact : (s.trUpdate q).hsActive = false := ha'
      rw [hact', ha] at hact
      exact absurd hact (by simp)
    · rw [hpiece, hbody, List.append_assoc]
      show _ = (s.trUpdate q).hsHdr ++ (body ++ q)
      rw [hhdr']
    · show (s.trUpdate q).hs ++ q.take (tlsHsBuf - (s.trUpdate q).hs.length) = _
      rw [hhs', hhs, List.take_append, List.length_take]
      congr 2
      omega
    · show (s.trUpdate q).hsGot + q.length = _
      rw [hgot', hgot, List.length_append]
    · show (s.trUpdate q).hsGot + q.length ≤ (s.trUpdate q).hsLen
      rw [hgot', hlen']
      omega

/-- A Finished that was accepted was checked against the messages before it. -/
def Covered (env : TlsEnv) (retried : Bool) (flights : List Bytes) (log : List Entry) : Prop :=
  ∀ m, .message m ∈ log → m.type = hsFinished → m.rc.isError = false →
    ∃ before after, flights = before ++ m.bytes :: after ∧ m.transcript.data = tape env m.transcript.id retried before

/-- Where a session stands with its transcript. -/
structure Standing (env : TlsEnv) (s : TlsSession) : Prop where
  waiting : s.st = .waitSh → s.trOn = s.hrrDone
  running : s.st = .new ∨ s.st = .waitSh ∨ s.st = .closed ∨ s.trOn
  off : s.trOn = false → s.st = .waitSh → s.flights = [s.ch]
  retried : s.hrrDone → s.flights ≠ []
  heard : .hello ∈ kinds s.log → s.trOn
  early : s.st = .new ∨ s.st = .waitSh → ∀ m, .message m ∈ s.log → m.type = hsFinished → m.rc.isError
  covered : Covered env s.hrrDone s.flights s.log

/-- What the transcript of a session has absorbed. -/
structure Taped (env : TlsEnv) (s : TlsSession) : Prop where
  pieced : Pieced s
  standing : Standing env s
  on : s.trOn → s.transcript.data =
    tape env s.transcript.id s.hrrDone s.flights ++ if s.hsActive then s.piece else []
  finished : s.trOn → s.hsActive → s.hsType = hsFinished →
    s.trFin = ⟨s.transcript.id, tape env s.transcript.id s.hrrDone s.flights⟩

theorem Standing.same {env : TlsEnv} {s s' : TlsSession} (h : Standing env s) (hs : Same s s')
    (htrOn : s'.trOn = s.trOn) (hflights : s'.flights = s.flights) (hch : s'.ch = s.ch) : Standing env s' := by
  have hst : s'.st = s.st := congrArg TlsFlow.st hs.flow
  have hdone : s'.hrrDone = s.hrrDone := congrArg TlsFlow.hrrDone hs.flow
  refine ⟨?_, ?_, ?_, ?_, ?_, ?_, ?_⟩
  · rw [hst, htrOn, hdone]
    exact h.waiting
  · rw [hst, htrOn]
    exact h.running
  · rw [hst, htrOn, hflights, hch]
    exact h.off
  · rw [hdone, hflights]
    exact h.retried
  · rw [hs.log, htrOn]
    exact h.heard
  · rw [hst, hs.log]
    exact h.early
  · rw [hdone, hflights, hs.log]
    exact h.covered

theorem bodyTaken_tape (s : TlsSession) (e : Epoch) (q : Bytes) (c : CertScan) (c13 : Cert13Scan) :
    ((s.scanning c c13).bodyTaken e q).trOn = s.trOn ∧ ((s.scanning c c13).bodyTaken e q).flights = s.flights ∧
      ((s.scanning c c13).bodyTaken e q).ch = s.ch :=
  ⟨rfl, rfl, rfl⟩

theorem Took.taped {env : TlsEnv} {e : Epoch} {s s' : TlsSession} {q : Bytes} (h : Took e s q s') (ht : Taped env s) :
    Taped env s' := by
  have hpieced := h.pieced ht.pieced
  have hpiece := h.grown.piece
  have hsame := h.grown.toSame
  have hdone : s'.hrrDone = s.hrrDone := congrArg TlsFlow.hrrDone hsame.flow
  cases h with
  | header ha hlen =>
    refine ⟨hpieced, ht.standing.same hsame rfl rfl rfl, fun hon => ?_, fun _ ha' => ?_⟩
    · have hold := ht.on hon
      rw [ha, if_neg (by simp)] at hold
      have ha' : (s.headerTaken e q).hsActive = false := ha
      rw [ha', if_neg (by simp)]
      exact hold
    · exact absurd (ha : s.hsActive = false) (by simp [show s.hsActive = true from ha'])
  | start ha hlen hq =>
    have hb := beginMessage_begins (s.headerTaken e q)
    refine ⟨hpieced, ht.standing.same hsame hb.trOn hb.flights hb.ch, fun hon => ?_, fun hon _ hty => ?_⟩
    · rw [hb.trOn] at hon
      have hold := ht.on hon
      rw [ha, if_neg (by simp), List.append_nil] at hold
      rw [hb.transcript, if_pos hon, hb.flights, beginMessage_hsActive, if_pos rfl, hdone, hpiece, ht.pieced.idle ha]
      show s.transcript.data ++ (s.hsHdr ++ q) = _
      rw [hold]
      rfl
    · rw [hb.trOn] at hon
      have hold := ht.on hon
      rw [ha, if_neg (by simp), List.append_nil] at hold
      rw [hb.hsType] at hty
      rw [hb.trFin, if_pos hty, hb.transcript, if_pos hon, hb.flights, hdone]
      show s.transcript = ⟨s.transcript.id, tape env s.transcript.id s.hrrDone s.flights⟩
      rw [← hold]
  | body ha hq c c13 =>
    have htrOn : (s.trUpdate q).trOn = s.trOn := by
      unfold TlsSession.trUpdate
      split <;> rfl
    have hflights : (s.trUpdate q).flights = s.flights := by
      unfold TlsSession.trUpdate
      split <;> rfl
    have hch : (s.trUpdate q).ch = s.ch := by
      unfold TlsSession.trUpdate
      split <;> rfl
    have htrFin : (s.trUpdate q).trFin = s.trFin := by
      unfold TlsSession.trUpdate
      split <;> rfl
    have hpast := trUpdate_past s q
    simp only [TlsSession.past, TlsPast.mk.injEq] at hpast
    obtain ⟨-, -, -, -, hty', -, -, hact', -, -, -⟩ := hpast
    have htr : s.trOn → (s.trUpdate q).transcript = s.transcript.update q := by
      intro hon
      unfold TlsSession.trUpdate
      rw [if_pos hon]
    obtain ⟨htrOn', hflights', hch'⟩ := bodyTaken_tape (s.trUpdate q) e q c c13
    have hstand := ht.standing.same hsame (htrOn'.trans htrOn) (hflights'.trans hflights) (hch'.trans hch)
    refine ⟨hpieced, hstand, fun hon => ?_, fun hon _ hty => ?_⟩
    · have hon' : s.trOn := htrOn ▸ hon
      have hold := ht.on hon'
      rw [if_pos ha] at hold
      rw [hpiece, hdone]
      show (s.trUpdate q).transcript.data = tape env (s.trUpdate q).transcript.id s.hrrDone (s.trUpdate q).flights ++
        if (s.trUpdate q).hsActive then s.piece ++ q else []
      rw [htr hon', hflights, hact', if_pos ha, ← List.append_assoc]
      show s.transcript.data ++ q = _
      rw [hold]
      rfl
    · have hon' : s.trOn := htrOn ▸ hon
      have hold := ht.finished hon' ha (hty'.symm.trans hty)
      rw [hdone]
      show (s.trUpdate q).trFin = ⟨(s.trUpdate q).transcript.id,
        tape env (s.trUpdate q).transcript.id s.hrrDone (s.trUpdate q).flights⟩
      rw [htrFin, htr hon', hflights, hold]
      rfl

section Accepted

variable {env : TlsEnv} {s v : TlsSession} {rc : TlsRc} {f : TlsFlow} {left : Bytes}

/-- A message other than ServerHello is only accepted once the transcript is on. -/
theorem Accepts.later (h : Accepts env s rc f) (hty : s.hsType ≠ hsServerHello) (hs : Standing env s) :
    s.trOn ∧ f.hrrDone = s.hrrDone ∧ f.st ≠ .new ∧ f.st ≠ .waitSh := by
  have hrun := hs.running
  cases h <;> simp_all

/-- A message after which the transcript has only what was sent since. -/
theorem taped_sent (ht : Taped env s) (ha : s.hsActive) (hacc : Accepts env s rc f)
    (hty : s.hsType ≠ hsServerHello) (l : List Bytes)
    (htape : v.trOn = s.trOn ∧ v.transcript = s.transcript.update l.flatten ∧ v.flights = s.flights ++ s.piece :: l)
    (hend : Ended s f (s.message env left rc) (v.endMessage (s.message env left rc))) :
    Taped env (v.endMessage (s.message env left rc)) := by
  obtain ⟨hon, hdone, hnew, hwait⟩ := hacc.later hty ht.standing
  obtain ⟨htrOn, htr, hfl⟩ := htape
  have hst' : (v.endMessage (s.message env left rc)).st = f.st := congrArg TlsFlow.st hend.flow
  have hdone' : (v.endMessage (s.message env left rc)).hrrDone = s.hrrDone :=
    (congrArg TlsFlow.hrrDone hend.flow).trans hdone
  have hon' : (v.endMessage (s.message env left rc)).trOn = true := htrOn.trans hon
  have hfl' : (v.endMessage (s.message env left rc)).flights = s.flights ++ s.piece :: l := hfl
  have hold := ht.on hon
  rw [if_pos ha] at hold
  refine ⟨⟨fun _ => rfl, fun ha' => absurd ha' (by simp [hend.between.1])⟩, ⟨?_, ?_, ?_, ?_, ?_, ?_, ?_⟩, fun _ => ?_, ?_⟩
  · exact fun h => absurd (hst'.symm.trans h) hwait
  · exact .inr (.inr (.inr hon'))
  · exact fun h => absurd h (by simp [hon'])
  · intro _
    rw [hfl']
    simp
  · exact fun _ => hon'
  · rintro (h | h)
    · exact absurd (hst'.symm.trans h) hnew
    · exact absurd (hst'.symm.trans h) hwait
  · intro m hm hmty hmrc
    rw [hend.log] at hm
    rw [hdone', hfl']
    rcases List.mem_append.mp hm with hm | hm
    · obtain ⟨before, after, hfa, hcov⟩ := ht.standing.covered m hm hmty hmrc
      exact ⟨before, after ++ s.piece :: l, by rw [hfa]; simp, hcov⟩
    · obtain rfl := Entry.message.inj (List.mem_singleton.mp hm)
      refine ⟨s.flights, l, rfl, ?_⟩
      have hfin := ht.finished hon ha hmty
      show s.trFin.data = tape env s.trFin.id s.hrrDone s.flights
      rw [hfin]
  · rw [hend.between.1, if_neg (by simp), List.append_nil, hdone', hfl']
    show v.transcript.data = tape env v.transcript.id s.hrrDone (s.flights ++ s.piece :: l)
    rw [htr, tape_append ht.standing.retried]
    show s.transcript.data ++ l.flatten = _
    rw [hold, List.append_assoc]
    rfl
  · exact fun _ ha' => absurd ha' (by simp [hend.between.1])

/-- A ServerHello after which the transcript is on. -/
theorem taped_hello (ht : Taped env s) (hty : s.hsType = hsServerHello) (hst : s.st = .waitSh)
    (hon : v.trOn = true) (hwait : f.st = .waitSh → f.hrrDone) (hne : v.flights ≠ [])
    (htr : v.transcript.data = tape env v.transcript.id f.hrrDone v.flights)
    (hend : Ended s f (s.message env left rc) (v.endMessage (s.message env left rc))) :
    Taped env (v.endMessage (s.message env left rc)) := by
  have hst' : (v.endMessage (s.message env left rc)).st = f.st := congrArg TlsFlow.st hend.flow
  have hdone' : (v.endMessage (s.message env left rc)).hrrDone = f.hrrDone := congrArg TlsFlow.hrrDone hend.flow
  have hnone : ∀ m, .message m ∈ (v.endMessage (s.message env left rc)).log → m.type = hsFinished → m.rc.isError := by
    intro m hm hmty
    rw [hend.log] at hm
    rcases List.mem_append.mp hm with hm | hm
    · exact ht.standing.early (.inr hst) m hm hmty
    · obtain rfl := Entry.message.inj (List.mem_singleton.mp hm)
      exact absurd (hty.symm.trans hmty) (by decide)
  refine ⟨⟨fun _ => rfl, fun ha' => absurd ha' (by simp [hend.between.1])⟩, ⟨?_, ?_, ?_, ?_, ?_, ?_, ?_⟩, fun _ => ?_, ?_⟩
  · intro h
    rw [hdone', hwait (hst'.symm.trans h)]
    exact hon
  · exact .inr (.inr (.inr hon))
  · exact fun h => absurd hon (by rw [show v.trOn = false from h]; simp)
  · exact fun _ => hne
  · exact fun _ => hon
  · exact fun _ => hnone
  · intro m hm hmty hmrc
    have herr := hnone m hm hmty
    rw [hmrc] at herr
    exact absurd herr (by simp)
  · rw [hend.between.1, if_neg (by simp), List.append_nil, hdone']
    exact htr
  · exact fun _ ha' => absurd ha' (by simp [hend.between.1])

theorem taped_helloDid (ht : Taped env s) (ha : s.hsActive) (hgot : s.hsLen ≤ s.hsGot)
    (hacc : Accepts env s rc f) (hty : s.hsType = hsServerHello) (hst : s.st = .waitSh) (hwhole : s.hsLen = s.hs.length)
    (hdid : HelloDid env s.received v)
    (hend : Ended s f (s.message env left rc) (v.endMessage (s.message env left rc))) :
    Taped env (v.endMessage (s.message env left rc)) := by
  have hpiece := ht.pieced.whole ha hgot hwhole
  have htrOn := ht.standing.waiting hst
  cases hdid with
  | retry hr hash info group cookie hgroup hbuild hwire =>
    obtain ⟨-, hfd, hsd⟩ | ⟨hr', -⟩ := hacc.ofHello hty
    · have hoff : s.trOn = false := htrOn.trans hsd
      have hfl := ht.standing.off hoff hst
      have hon : v.trOn = true := congrArg TlsWire.trOn hwire
      have htr : v.transcript = _ := congrArg TlsWire.transcript hwire
      have hvfl : v.flights = s.flights ++ [s.piece] ++ [info.body] := congrArg TlsWire.flights hwire
      refine taped_hello ht hty hst hon (fun _ => hfd) (by rw [hvfl]; simp) ?_ hend
      rw [htr, hvfl, hfd, hfl, hpiece]
      simp [tape, TlsSession.received]
    · have hr'' : isHelloRetry s.hs = true := hr
      exact absurd hr'' (by simp [hr'])
  | pick hr hash group hpick hwire =>
    obtain ⟨hr', -⟩ | ⟨-, hfd, hfst⟩ := hacc.ofHello hty
    · exact absurd hr' (by simp [show isHelloRetry s.hs = false from hr])
    · have hvfl : v.flights = s.flights ++ [s.piece] := congrArg TlsWire.flights hwire
      have hvtr : v.transcript = if s.hrrDone then s.transcript else ⟨hash, s.ch ++ s.hsHdr ++ s.hs⟩ :=
        congrArg TlsWire.transcript hwire
      have hvon : v.trOn = if s.hrrDone then s.trOn else true := congrArg TlsWire.trOn hwire
      refine taped_hello ht hty hst ?_ (fun h => absurd h hfst) (by rw [hvfl]; simp) ?_ hend
      · rw [hvon]
        by_cases hd : s.hrrDone
        · rw [if_pos hd]
          exact htrOn.trans hd
        · rw [if_neg hd]
      · rw [hvtr, hvfl, hfd]
        by_cases hd : s.hrrDone
        · have hold := ht.on (htrOn.trans hd)
          rw [if_pos ha] at hold
          rw [if_pos hd, tape_append ht.standing.retried, hold]
          simp
        · rw [if_neg hd]
          have hfl := ht.standing.off (htrOn.trans (by simpa using hd)) hst
          rw [hfl, hpiece]
          simp [tape, hd]

theorem taped_accepted (ht : Taped env s) (ha : s.hsActive) (hgot : s.hsLen ≤ s.hsGot) (hacc : Accepts env s rc f)
    (hdid : WireDid env s.received v)
    (hend : Ended s f (s.message env left rc) (v.endMessage (s.message env left rc))) :
    Taped env (v.endMessage (s.message env left rc)) := by
  cases hdid with
  | hello hty hst hwhole hdid => exact taped_helloDid ht ha hgot hacc hty hst hwhole hdid hend
  | sent hty l hwire =>
    have hfl : v.flights = s.flights ++ [s.piece] ++ l := congrArg TlsWire.flights hwire
    refine taped_sent ht ha hacc hty l ⟨congrArg TlsWire.trOn hwire, congrArg TlsWire.transcript hwire, ?_⟩ hend
    rw [hfl, List.append_assoc]
    rfl
  | group hty hv g hwire =>
    refine taped_sent ht ha hacc hty [] ⟨congrArg TlsWire.trOn hwire, ?_, congrArg TlsWire.flights hwire⟩ hend
    have htr : v.transcript = s.transcript := congrArg TlsWire.transcript hwire
    rw [htr]
    simp [TlsHash.update]

end Accepted

/-- A change of a session that the transcript does not see. -/
theorem Taped.carry {env : TlsEnv} {s s' : TlsSession} (ht : Taped env s) (hst : Standing env s')
    (hdone : s'.hrrDone = s.hrrDone) (hw : s'.wire = s.wire)
    (hp : { s'.past with recBuf := [], log := [], sawCcs := true } =
      { s.past with recBuf := [], log := [], sawCcs := true }) : Taped env s' := by
  have hact : s'.hsActive = s.hsActive := congrArg TlsPast.hsActive hp
  have hhdr : s'.hsHdr = s.hsHdr := congrArg TlsPast.hsHdr hp
  have hhs : s'.hs = s.hs := congrArg TlsPast.hs hp
  have hgot : s'.hsGot = s.hsGot := congrArg TlsPast.hsGot hp
  have hlen : s'.hsLen = s.hsLen := congrArg TlsPast.hsLen hp
  have hty : s'.hsType = s.hsType := congrArg TlsPast.hsType hp
  have hpiece : s'.piece = s.piece := congrArg (List.map Prod.fst) (congrArg TlsPast.tags hp)
  have htrOn : s'.trOn = s.trOn := congrArg TlsWire.trOn hw
  have htr : s'.transcript = s.transcript := congrArg TlsWire.transcript hw
  have htrFin : s'.trFin = s.trFin := congrArg TlsWire.trFin hw
  have hfl : s'.flights = s.flights := congrArg TlsWire.flights hw
  refine ⟨⟨?_, ?_⟩, hst, ?_, ?_⟩
  · rw [hact, hpiece, hhdr]
    exact ht.pieced.idle
  · rw [hact, hpiece, hhdr, hhs, hgot, hlen]
    exact ht.pieced.busy
  · rw [htrOn, htr, hdone, hfl, hact, hpiece]
    exact ht.on
  · rw [htrOn, hact, hty, htrFin, htr, hdone, hfl]
    exact ht.finished

theorem opened_wire {s s' : TlsSession} (h : Opened s s') : s'.wire = s.wire := by
  obtain rfl | rfl := h
  · rfl
  · rfl

theorem kinds_other {x : Entry} (hx : ∀ m, x ≠ .message m) : .hello ∉ kinds [x] := by
  cases x with
  | message m => exact absurd rfl (hx m)
  | ccs v i => simp [kinds, Entry.kind]
  | alert => simp [kinds, Entry.kind]
  | data p => simp [kinds, Entry.kind]

/-- An entry of the history that is no message. -/
theorem Standing.noted {env : TlsEnv} {s s' : TlsSession} {x : Entry} (h : Standing env s)
    (hlog : s'.log = s.log ++ [x]) (hx : ∀ m, x ≠ .message m)
    (hst : s'.st = s.st ∨ s'.st = .waitFin ∧ s.st = .waitCcs) (hdone : s'.hrrDone = s.hrrDone)
    (hw : s'.wire = s.wire) : Standing env s' := by
  have htrOn : s'.trOn = s.trOn := congrArg TlsWire.trOn hw
  have hfl : s'.flights = s.flights := congrArg TlsWire.flights hw
  have hch : s'.ch = s.ch := congrArg TlsWire.ch hw
  have hmem : ∀ m, .message m ∈ s'.log → .message m ∈ s.log := by
    intro m hm
    rw [hlog] at hm
    rcases List.mem_append.mp hm with hm | hm
    · exact hm
    · exact absurd (List.mem_singleton.mp hm).symm (hx m)
  have hwait : s'.st = .waitSh → s.st = .waitSh := by
    intro h'
    rcases hst with hst | ⟨hst, -⟩
    · exact hst.symm.trans h'
    · exact absurd (hst.symm.trans h') (by simp)
  have hnew : s'.st = .new → s.st = .new := by
    intro h'
    rcases hst with hst | ⟨hst, -⟩
    · exact hst.symm.trans h'
    · exact absurd (hst.symm.trans h') (by simp)
  refine ⟨fun h' => ?_, ?_, fun hoff h' => ?_, fun hd => ?_, fun hh => ?_, fun h' m hm => ?_, fun m hm => ?_⟩
  · rw [htrOn, hdone]
    exact h.waiting (hwait h')
  · rw [htrOn]
    rcases hst with hst | ⟨hst, hst'⟩
    · rw [hst]
      exact h.running
    · have hrun := h.running
      simp only [hst', reduceCtorEq, false_or] at hrun
      exact .inr (.inr (.inr hrun))
  · rw [hfl, hch]
    exact h.off (htrOn.symm.trans hoff) (hwait h')
  · rw [hfl]
    exact h.retried (hdone.symm.trans hd)
  · rw [htrOn]
    rw [hlog, kinds_append] at hh
    exact h.heard ((List.mem_append.mp hh).resolve_right (kinds_other hx))
  · exact h.early (h'.imp hnew hwait) m (hmem m hm)
  · rw [hdone, hfl]
    exact h.covered m (hmem m hm)

theorem taped_rules (env : TlsEnv) : SessionRules env (fun s _ _ => Taped env s) (fun _ => True) where
  skip := fun w e p h => h
  took := fun w e q rest s' h ht => ht.taped h
  spoilt := fun w e p s' _ _ => ⟨rfl, trivial⟩
  accepted := by
    intro w e rest rc v h ha hgot hd
    obtain ⟨f, hacc, -, -, hend⟩ := dispatched_ok rest hd
    have hdid := tlsDispatch_wire env { w with session := w.session.received }
    rw [hd] at hdid
    exact taped_accepted h ha hgot hacc hdid.1 hend
  refused := fun w e rest rc v _ _ _ hd => ⟨(dispatched_error rest hd).1, trivial⟩
  opened := by
    intro w e s' h ho p
    have hw := opened_wire ho
    have hst := h.standing.same ho.same (congrArg TlsWire.trOn hw) (congrArg TlsWire.flights hw) (congrArg TlsWire.ch hw)
    refine h.carry hst (congrArg TlsFlow.hrrDone ho.same.flow) hw ?_
    rw [ho.past]
  failed := fun w e p rc _ hrc => ⟨hrc, trivial⟩
  ccs := by
    intro w e h _ _ _
    have hf := changed_flow w.session
    have hsame : w.session.changed.wire = w.session.wire ∧
        { w.session.changed.past with recBuf := [], log := [], sawCcs := true } =
          { w.session.past with recBuf := [], log := [], sawCcs := true } := by
      unfold TlsSession.changed TlsSession.tls12OnCcs
      dsimp only
      split_ifs <;> exact ⟨rfl, rfl⟩
    have hdone : w.session.changed.hrrDone = w.session.hrrDone := by
      have hd := congrArg TlsFlow.hrrDone hf
      split_ifs at hd
      · exact hd
      · exact hd
    have hst : w.session.changed.st = w.session.st ∨ w.session.changed.st = .waitFin ∧ w.session.st = .waitCcs := by
      have hs := congrArg TlsFlow.st hf
      split_ifs at hs with hturn
      · exact .inr ⟨hs, hturn.2⟩
      · exact .inl hs
    exact h.carry (h.standing.noted (changed_log w.session) (by simp) hst hdone hsame.1) hdone hsame.1 hsame.2
  alert := fun w e p _ => ⟨rfl, trivial⟩
  data := by
    intro w e p h _
    exact h.carry (h.standing.noted rfl (by simp) (.inl rfl) rfl rfl) rfl rfl rfl

/-- A session right after `qn_tls_start`, as far as the transcript goes. -/
theorem start_standing (env : TlsEnv) (cfg : TlsConfig) (draws : HelloDraws) (cap : Nat) :
    let s := (Conn.start env cfg draws cap).session
    s.past = (tlsInit cfg).past ∧ s.trOn = false ∧ s.hrrDone = false ∧
      (s.st = .new ∨ s.st = .waitSh ∧ s.flights = [s.ch]) := by
  unfold Conn.start tlsStart
  dsimp only
  split_ifs with hst
  · exact ⟨rfl, rfl, rfl, .inl rfl⟩
  cases draws.start with
  | none => exact ⟨rfl, rfl, rfl, .inl rfl⟩
  | some d =>
    cases draws.keys with
    | none => exact ⟨rfl, rfl, rfl, .inl rfl⟩
    | some keys =>
      dsimp only
      cases env.helloBuild (sessionHelloRequest { (tlsInit cfg).withDraws d.1 d.2.1 d.2.2 with keys := keys } 0) with
      | none => exact ⟨rfl, rfl, rfl, .inl rfl⟩
      | some info =>
        dsimp only
        split_ifs with hroom
        · exact ⟨rfl, rfl, rfl, .inl rfl⟩
        · exact ⟨rfl, rfl, rfl, .inr ⟨rfl, rfl⟩⟩

theorem start_taped (env : TlsEnv) (cfg : TlsConfig) (draws : HelloDraws) (cap : Nat) :
    Taped env (Conn.start env cfg draws cap).session := by
  obtain ⟨hpast, hoff, hdone, hst⟩ := start_standing env cfg draws cap
  generalize (Conn.start env cfg draws cap).session = s at *
  have hact : s.hsActive = false := congrArg TlsPast.hsActive hpast
  have hlog : s.log = [] := congrArg TlsPast.log hpast
  have hhdr : s.hsHdr = [] := congrArg TlsPast.hsHdr hpast
  have htags : s.tags = [] := congrArg TlsPast.tags hpast
  refine ⟨⟨fun _ => ?_, by simp [hact]⟩, ⟨fun _ => ?_, ?_, fun _ hw => ?_, by simp [hdone], ?_, ?_, ?_⟩,
    by simp [hoff], by simp [hact]⟩
  · rw [TlsSession.piece, htags, hhdr]
    rfl
  · rw [hoff, hdone]
  · exact hst.imp_right fun h => .inl h.1
  · rcases hst with hst | hst
    · exact absurd (hst.symm.trans hw) (by simp)
    · exact hst.2
  · simp [hlog, kinds]
  · simp [hlog]
  · simp [Covered, hlog]

/-- A handshake message of a session, written by it or read. -/
inductive Spoken
  | sent (m : Bytes)
  | heard (m : Bytes)

def Spoken.bytes : Spoken → Bytes
  | .sent m => m
  | .heard m => m

def sentOf (turns : List Spoken) : List Bytes :=
  turns.filterMap fun
    | .sent m => some m
    | .heard _ => none

def heardOf (turns : List Spoken) : List Bytes :=
  turns.filterMap fun
    | .sent _ => none
    | .heard m => some m

/-- The messages of a history, as they were received. -/
def messagesOf (log : List Entry) : List Bytes :=
  log.filterMap fun
    | .message m => some m.bytes
    | _ => none

theorem sentOf_sent (l : List Bytes) : sentOf (l.map .sent) = l := by
  induction l with
  | nil => rfl
  | cons m l ih => exact congrArg (m :: ·) ih

theorem heardOf_sent (l : List Bytes) : heardOf (l.map .sent) = [] := by
  induction l with
  | nil => rfl
  | cons m l ih => exact ih

theorem bytes_sent (l : List Bytes) : (l.map Spoken.sent).map Spoken.bytes = l := by
  rw [List.map_map]
  exact List.map_id l

/-- The messages of a session are those in the records `out` it wrote and those in its history, in turns. -/
def OnWire (env : TlsEnv) (s : TlsSession) (out : Bytes) : Prop :=
  ∃ turns : List Spoken, s.flights = turns.map Spoken.bytes ∧ messagesOf s.log = heardOf turns ∧
    SentRecords env (sentOf turns) out

section OnWire

variable {env : TlsEnv} {s s' : TlsSession} {out p : Bytes}

theorem OnWire.same (h : OnWire env s out) (hfl : s'.flights = s.flights) (hlog : messagesOf s'.log = messagesOf s.log) :
    OnWire env s' out := by
  obtain ⟨turns, hturns, hheard, hsent⟩ := h
  exact ⟨turns, hfl.trans hturns, hlog.trans hheard, hsent⟩

theorem OnWire.same_wire (h : OnWire env s out) (hw : s'.wire = s.wire)
    (hlog : messagesOf s'.log = messagesOf s.log) : OnWire env s' out :=
  h.same (congrArg TlsWire.flights hw) hlog

/-- Records that carry no handshake message. -/
theorem OnWire.quiet (h : OnWire env s out) (hp : SentRecords env [] p) : OnWire env s (out ++ p) := by
  obtain ⟨turns, hturns, hheard, hsent⟩ := h
  refine ⟨turns, hturns, hheard, ?_⟩
  have hout := hsent.append hp
  rwa [List.append_nil] at hout

/-- A message that was heard, and the answer to it. -/
theorem OnWire.answered {m : Bytes} {l : List Bytes} (h : OnWire env s out)
    (hfl : s'.flights = s.flights ++ [m] ++ l) (hlog : messagesOf s'.log = messagesOf s.log ++ [m])
    (hp : SentRecords env l p) : OnWire env s' (out ++ p) := by
  obtain ⟨turns, hturns, hheard, hsent⟩ := h
  refine ⟨turns ++ .heard m :: l.map .sent, ?_, ?_, ?_⟩
  · rw [hfl, hturns, List.map_append, List.map_cons, bytes_sent, List.append_assoc]
    rfl
  · rw [hlog, hheard]
    show _ = heardOf (turns ++ .heard m :: l.map .sent)
    unfold heardOf
    rw [List.filterMap_append, List.filterMap_cons]
    exact congrArg _ (congrArg (m :: ·) (heardOf_sent l).symm)
  · have hnew : sentOf (turns ++ .heard m :: l.map .sent) = sentOf turns ++ l := by
      unfold sentOf
      rw [List.filterMap_append, List.filterMap_cons]
      exact congrArg _ (sentOf_sent l)
    rw [hnew]
    exact hsent.append hp

theorem messagesOf_append (l k : List Entry) : messagesOf (l ++ k) = messagesOf l ++ messagesOf k :=
  List.filterMap_append

theorem Took.onWire {e : Epoch} {q : Bytes} (h : Took e s q s') (hw : OnWire env s out) : OnWire env s' out := by
  have hlog := congrArg messagesOf h.grown.log
  cases h with
  | header ha hlen => exact hw.same rfl hlog
  | start ha hlen hq => exact hw.same (beginMessage_begins (s.headerTaken e q)).flights hlog
  | body ha hq c c13 =>
    refine hw.same ?_ hlog
    show (s.trUpdate q).flights = _
    unfold TlsSession.trUpdate
    split <;> rfl

theorem changed_wire (s : TlsSession) : s.changed.wire = s.wire := by
  unfold TlsSession.changed TlsSession.tls12OnCcs
  dsimp only
  split_ifs <;> rfl

/-- The rules of what a session has written since the records `base`. -/
theorem onWire_rules (env : TlsEnv) (base : Bytes) :
    TlsRules env (fun w _ _ => OnWire env w.session (base ++ w.out)) (fun rc _ => rc.isError) where
  skip := fun w e p h => h
  took := fun w e q rest s' h ht => ht.onWire h
  spoilt := fun w e p s' _ _ => rfl
  accepted := by
    intro w e rest rc v h ha _ hd
    obtain ⟨f, -, -, -, hend⟩ := dispatched_ok rest hd
    have hdid := tlsDispatch_wire env { w with session := w.session.received }
    rw [hd] at hdid
    obtain ⟨-, l, p, hfl, hout, hp⟩ := hdid
    show OnWire env _ (base ++ v.out)
    rw [hout, ← List.append_assoc]
    refine h.answered hfl ?_ hp
    rw [hend.log, messagesOf_append]
    rfl
  refused := fun w e rest rc v _ _ _ hd => (dispatched_error rest hd).1
  opened := fun w e s' h ho p => h.same_wire (opened_wire ho) (congrArg messagesOf ho.same.log)
  failed := fun w e p rc _ hrc => hrc
  ccs := by
    intro w e h _ _ _
    refine h.same_wire (changed_wire w.session) ?_
    rw [changed_log, messagesOf_append]
    exact List.append_nil _
  alert := fun w e p _ => rfl
  data := by
    intro w e p h _
    refine h.same rfl ?_
    show messagesOf (w.session.log ++ [Entry.data p]) = _
    rw [messagesOf_append]
    exact List.append_nil _

theorem recvLoop_onWire (fuel : Nat) (io : TlsIo) (done : Bool) (h : OnWire env s out)
    (hrc : (recvLoop env fuel s io done).rc.isError = false) :
    OnWire env (recvLoop env fuel s io done).session (out ++ (recvLoop env fuel s io done).out) := by
  induction fuel generalizing s out io done with
  | zero =>
    unfold recvLoop
    rw [List.append_nil]
    exact h
  | succ fuel ih =>
    unfold recvLoop at hrc ⊢
    cases hfill : fillRecord s.rd.on s.recBuf io.input with
    | wait buf =>
      rw [List.append_nil]
      exact h.same rfl rfl
    | bad buf rest =>
      rw [hfill] at hrc
      exact absurd hrc (by simp)
    | full buf rest =>
      rw [hfill] at hrc
      dsimp only at hrc ⊢
      have hm := handleRecord_meets (onWire_rules env out) (e := .plain)
        (w := ⟨{ s with recBuf := buf }, io.hasOut, io.outCap, [], io.appCap, [], false⟩)
        (by
          rw [List.append_nil]
          exact h.same rfl rfl)
      cases hw : handleRecord env ⟨{ s with recBuf := buf }, io.hasOut, io.outCap, [], io.appCap, [], false⟩ with
      | error rc w =>
        rw [hw] at hm hrc
        exact absurd hrc (by simp [show rc.isError = true from hm])
      | ok _ w =>
        rw [hw] at hm hrc
        obtain ⟨-, hw'⟩ := hm
        dsimp only at hrc ⊢
        rw [← List.append_assoc]
        have hnext : OnWire env { w.session with recBuf := [] } (out ++ w.out) := hw'.same rfl rfl
        exact ih _ _ hnext hrc

theorem sendLoop_records (env : TlsEnv) (fuel : Nat) (s : TlsSession) (data : Bytes) (cap : Nat) :
    SentRecords env [] ((sendLoop env fuel s data cap).2.getD []) := by
  induction fuel generalizing s data cap with
  | zero => exact .nil
  | succ fuel ih =>
    unfold sendLoop
    cases hp : sealApp env s (data.take recMaxPt) cap with
    | none => exact .nil
    | some p =>
      dsimp only
      have hone := (SentRecord.data s (data.take recMaxPt) p cap hp).alone
      by_cases hd : data.drop recMaxPt = []
      · rw [if_pos hd]
        exact hone
      · rw [if_neg hd]
        have hrest := ih (s.sealedApp (data.take recMaxPt)) (data.drop recMaxPt) (cap - p.length)
        cases hr : (sendLoop env fuel (s.sealedApp (data.take recMaxPt)) (data.drop recMaxPt) (cap - p.length)).2 with
        | none => exact .nil
        | some q =>
          rw [hr] at hrest
          exact hone.append hrest

theorem tlsSendApp_records (env : TlsEnv) (s : TlsSession) (data : Bytes) (cap : Nat) :
    SentRecords env [] ((tlsSendApp env s data cap).2.getD []) := by
  unfold tlsSendApp
  by_cases hst : s.st ≠ .ready
  · rw [if_pos hst]
    exact .nil
  · rw [if_neg hst]
    exact sendLoop_records env _ s data cap

end OnWire

/-- A session in use, and all it has written to `io->out` so far. -/
structure Talk where
  conn : Conn
  out : Bytes

/-- What a call writes. -/
def Conn.written (env : TlsEnv) (c : Conn) : TlsAct → Bytes
  | .recv io => (tlsRecv env c.session io).out
  | .sendApp data cap => (tlsSendApp env c.session data cap).2.getD []

def Talk.step (env : TlsEnv) (t : Talk) (act : TlsAct) : Option Talk :=
  (Conn.step env t.conn act).map fun c => ⟨c, t.out ++ t.conn.written env act⟩

/-- A session after `qn_tls_start`, and the record it wrote. -/
def Talk.start (env : TlsEnv) (cfg : TlsConfig) (draws : HelloDraws) (cap : Nat) : Talk :=
  ⟨Conn.start env cfg draws cap, (tlsStart env (tlsInit cfg) draws cap).2.getD []⟩

section Talk

variable {env : TlsEnv} {cfg : TlsConfig} {draws : HelloDraws} {cap : Nat} {t : Talk}

/-- The calls of a talk are a run of the session. -/
theorem talk_conn (h : Transition.Reach (Talk.step env) (fun t _ => t.conn.failed = false) (Talk.start env cfg draws cap) t) :
    Transition.Reach (Conn.step env) (fun c _ => c.failed = false) (Conn.start env cfg draws cap) t.conn := by
  obtain ⟨acts, hrun⟩ := h
  induction hrun with
  | nil => exact .refl
  | snoc _ hlive hstep ih =>
    obtain ⟨c, hc, rfl⟩ := Option.map_eq_some_iff.mp hstep
    exact ih.tail hlive hc

theorem start_onWire (env : TlsEnv) (cfg : TlsConfig) (draws : HelloDraws) (cap : Nat) :
    OnWire env (Conn.start env cfg draws cap).session (Talk.start env cfg draws cap).out := by
  have hnew : ∀ s : TlsSession, s.flights = [] → s.log = [] → OnWire env s [] := by
    intro s hfl hlog
    exact ⟨[], hfl, by rw [hlog]; rfl, .nil⟩
  unfold Talk.start Conn.start tlsStart
  dsimp only
  split_ifs with hst
  · exact hnew _ rfl rfl
  cases draws.start with
  | none => exact hnew _ rfl rfl
  | some d =>
    cases draws.keys with
    | none => exact hnew _ rfl rfl
    | some keys =>
      dsimp only
      cases hb : env.helloBuild (sessionHelloRequest { (tlsInit cfg).withDraws d.1 d.2.1 d.2.2 with keys := keys } 0) with
      | none => exact hnew _ rfl rfl
      | some info =>
        dsimp only
        split_ifs with hroom
        · exact hnew _ rfl rfl
        · exact ⟨[.sent info.body], rfl, rfl, (SentRecord.hello _ info hb).alone⟩

theorem talk_onWire (h : Transition.Reach (Talk.step env) (fun t _ => t.conn.failed = false) (Talk.start env cfg draws cap) t)
    (hlive : t.conn.failed = false) : OnWire env t.conn.session t.out := by
  obtain ⟨acts, hrun⟩ := h
  induction hrun with
  | nil => exact start_onWire env cfg draws cap
  | @snoc _ act t t' _ hguard hstep ih =>
    have hw := ih hguard
    cases act with
    | recv io =>
      cases hstep
      have hrc : (tlsRecv env t.conn.session io).rc.isError = false := by simpa [hguard] using hlive
      exact recvLoop_onWire _ io false hw hrc
    | sendApp data cap =>
      cases hstep
      obtain ⟨n, hn⟩ := tlsSendApp_sealedBy env t.conn.session data cap
      have hsame : OnWire env (tlsSendApp env t.conn.session data cap).1 t.out := by
        rw [hn]
        exact hw.same rfl rfl
      exact hsame.quiet (tlsSendApp_records env t.conn.session data cap)

end Talk

/-- Until a call fails, the handshake messages of a session are those it wrote to `io->out` and those it
received; after an accepted ServerHello the transcript is these, and a Finished was checked against those
before it. -/
theorem transcript_wire {env : TlsEnv} {cfg : TlsConfig} {draws : HelloDraws} {cap : Nat} {t : Talk}
    (h : Transition.Reach (Talk.step env) (fun t _ => t.conn.failed = false) (Talk.start env cfg draws cap) t)
    (hlive : t.conn.failed = false) :
    OnWire env t.conn.session t.out ∧
    (.hello ∈ kinds t.conn.session.log → t.conn.session.hsActive = false →
      t.conn.session.transcript.data =
        tape env t.conn.session.transcript.id t.conn.session.hrrDone t.conn.session.flights) ∧
    ∀ m, .message m ∈ t.conn.session.log → m.type = hsFinished → m.rc.isError = false →
      ∃ before after, t.conn.session.flights = before ++ m.bytes :: after ∧
        m.transcript.data = tape env m.transcript.id t.conn.session.hrrDone before := by
  have hdet : ∀ e : Epoch, Detached fun s => Taped env s := by
    intro _
    refine ⟨fun s buf ht => ?_, fun s n ht => ?_⟩
    · exact ht.carry (ht.standing.same ⟨rfl, rfl, rfl⟩ rfl rfl rfl) rfl rfl rfl
    · exact ht.carry (ht.standing.same ⟨rfl, rfl, rfl⟩ rfl rfl rfl) rfl rfl rfl
  have hu := reach_until (taped_rules env) hdet ⟨fun _ _ h => h, fun _ _ h => h⟩ (fun _ _ h => h) rfl
    (start_taped env cfg draws cap) (talk_conn h)
  obtain ⟨-, ht⟩ := hu.1 hlive
  refine ⟨talk_onWire h hlive, fun hh ha => ?_, ht.standing.covered⟩
  have hon := ht.on (ht.standing.heard hh)
  rw [ha, if_neg (by simp), List.append_nil] at hon
  exact hon

/-- The sample session after a call on each of these inputs, and what it has written. -/
def sampleTalk (inputs : List Bytes) : Talk :=
  inputs.foldl (fun t input => ⟨⟨(tlsRecv sampleEnv t.conn.session (sampleIo input)).session,
    t.conn.failed || (tlsRecv sampleEnv t.conn.session (sampleIo input)).rc.isError⟩,
    t.out ++ t.conn.written sampleEnv (.recv (sampleIo input))⟩)
    (Talk.start sampleEnv sampleCfg sampleDraws tlsHsBuf)

theorem sampleTalk_reach {guard : Talk → TlsAct → Prop} (inputs : List Bytes) (input : Bytes)
    (h : Transition.Reach (Talk.step sampleEnv) guard (sampleTalk []) (sampleTalk inputs))
    (hg : guard (sampleTalk inputs) (.recv (sampleIo input))) :
    Transition.Reach (Talk.step sampleEnv) guard (sampleTalk []) (sampleTalk (inputs ++ [input])) := by
  refine h.tail hg ?_
  unfold sampleTalk
  rw [List.foldl_append]
  rfl

/-- The flight in two calls, cut inside a record. -/
def sampleHalves : Talk :=
  sampleTalk [sampleFlight.take 70, sampleFlight.drop 70]

theorem transcript_wire_sample : OnWire sampleEnv sampleHalves.conn.session sampleHalves.out ∧
    .hello ∈ kinds sampleHalves.conn.session.log ∧ sampleHalves.conn.session.transcript.data =
      tape sampleEnv sampleHalves.conn.session.transcript.id sampleHalves.conn.session.hrrDone
        sampleHalves.conn.session.flights := by
  have hhalf : (sampleTalk [sampleFlight.take 70]).conn.failed = false := by decide +kernel
  have hreach : Transition.Reach (Talk.step sampleEnv) (fun t _ => t.conn.failed = false) (sampleTalk []) sampleHalves :=
    sampleTalk_reach [sampleFlight.take 70] (sampleFlight.drop 70)
      (sampleTalk_reach [] (sampleFlight.take 70) .refl rfl) hhalf
  have hlive : sampleHalves.conn.failed = false := by decide +kernel
  have hh : .hello ∈ kinds sampleHalves.conn.session.log := by decide +kernel
  obtain ⟨hwire, hdata, -⟩ := transcript_wire hreach hlive
  exact ⟨hwire, hh, hdata hh (by decide +kernel)⟩

/-- A ServerHello that picks a version no one offered. -/
def sampleRefusal : Bytes :=
  plainRecord rtHs (sampleHello (zeros 32) [0, 0x2b, 0, 2, 3, 5])

/-- The flight after a ServerHello that was refused. -/
def sampleResumed : Talk :=
  sampleTalk [sampleRefusal, sampleFlight]

/-- A message that was refused is in no transcript, also where a later call goes on. -/
theorem transcript_refused : ¬ ∀ t, Transition.Reach (Talk.step sampleEnv) (fun _ _ => True)
      (Talk.start sampleEnv sampleCfg sampleDraws tlsHsBuf) t →
    .hello ∈ kinds t.conn.session.log → t.conn.session.hsActive = false →
      t.conn.session.transcript.data =
        tape sampleEnv t.conn.session.transcript.id t.conn.session.hrrDone t.conn.session.flights := by
  intro h
  have hreach : Transition.Reach (Talk.step sampleEnv) (fun _ _ => True) (sampleTalk []) sampleResumed :=
    sampleTalk_reach [sampleRefusal] sampleFlight (sampleTalk_reach [] sampleRefusal .refl trivial) trivial
  have hh : .hello ∈ kinds sampleResumed.conn.session.log := by decide +kernel
  have hidle : sampleResumed.conn.session.hsActive = false := by decide +kernel
  exact absurd (h sampleResumed hreach hh hidle) (by decide +kernel)

end Qanat

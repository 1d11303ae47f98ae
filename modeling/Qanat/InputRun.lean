import Qanat.InputPaste

namespace Qanat

section Whole

variable {nowMs : UInt64} {c : InputCore} {q : List UInt8}

/-- Everything that a state tells about its bytes, and where it comes to rest. -/
def settle (nowMs : UInt64) (p : InputCore × List UInt8) : List Key × (InputCore × List UInt8) :=
  (Pulse.drain (listTurn nowMs) (inputFuel listFifo p) p).getD ([], p)

/-- The keys of bytes that come in one piece, into a queue without bound. -/
def wholeKeys (nowMs : UInt64) (bytes : List UInt8) : List Key :=
  (settle nowMs (coreInit, bytes)).1

theorem turnsLeft_lt (p : InputCore × List UInt8) : turnsLeft p < inputFuel listFifo p := by
  unfold turnsLeft inputFuel
  have : listFifo.count p.2 = p.2.length := rfl
  rw [this]
  split <;> omega

theorem listTurn_lowers (nowMs : UInt64) (p : InputCore × List UInt8) :
    (listTurn nowMs p).Leads (turnsLeft · < turnsLeft p) := by
  have h := listTurn_forward nowMs p.1 p.2
  change (listTurn nowMs p).Leads _ at h
  cases ht : listTurn nowMs p with
  | wait => trivial
  | emit k p' =>
    rw [ht] at h
    exact h.fewer
  | again p' =>
    rw [ht] at h
    exact h.fewer

theorem settle_steps (nowMs : UInt64) (p : InputCore × List UInt8) :
    Pulse.Steps (listTurn nowMs) p (settle nowMs p).1 (settle nowMs p).2 ∧
      listTurn nowMs (settle nowMs p).2 = .wait := by
  obtain ⟨ks, t, h⟩ := Pulse.drain_total (listTurn_lowers nowMs) (turnsLeft_lt p)
  have hsettle : settle nowMs p = (ks, t) := by rw [settle, h, Option.getD_some]
  rw [hsettle]
  exact Pulse.drain_steps h

theorem settle_unique {p t : InputCore × List UInt8} {ks : List Key} (h : Pulse.Steps (listTurn nowMs) p ks t)
    (hw : listTurn nowMs t = .wait) : settle nowMs p = (ks, t) := by
  obtain ⟨hsteps, hwait⟩ := settle_steps nowMs p
  obtain ⟨hks, ht⟩ := hsteps.unique hwait h hw
  exact Prod.ext hks ht

/-- A run does not change what is told in the end. -/
theorem settle_of_steps {p t : InputCore × List UInt8} {ks : List Key} (h : Pulse.Steps (listTurn nowMs) p ks t) :
    settle nowMs p = (ks ++ (settle nowMs t).1, (settle nowMs t).2) := by
  obtain ⟨hsteps, hwait⟩ := settle_steps nowMs t
  exact settle_unique (h.trans hsteps) hwait

theorem coreInit_fresh (nowMs : UInt64) : EscFresh nowMs coreInit :=
  escFresh_of_ne nofun

/-- What has settled goes on from there. -/
theorem settle_more {pre : List UInt8} (h : (settle nowMs (coreInit, pre)).2 = (c, q)) (more : List UInt8) :
    settle nowMs (coreInit, pre ++ more) =
      (wholeKeys nowMs pre ++ (settle nowMs (c, q ++ more)).1, (settle nowMs (c, q ++ more)).2) := by
  have hsteps := (settle_steps nowMs (coreInit, pre)).1
  rw [h] at hsteps
  exact settle_of_steps (hsteps.feed (listTurn_streams nowMs) (coreInit_fresh nowMs) more)

end Whole

section Run

inductive InputOp
  | feed (bytes : List UInt8)
  | next

/-- Feeds that are all accepted, and calls of `qn_input_next` in between: the keys, and the input after them. -/
def inputRun (nowMs : UInt64) : List InputOp → Input → Option (List Key × Input)
  | [], i => some ([], i)
  | .feed bytes :: ops, i =>
    match inputFeed i bytes with
    | (false, _) => none
    | (true, i) => inputRun nowMs ops i
  | .next :: ops, i =>
    match inputNext nowMs i with
    | none => none
    | some (o, i) => (inputRun nowMs ops i).map fun p => (o.toList ++ p.1, p.2)

/-- The bytes of the feeds. -/
def fedBytes (ops : List InputOp) : List UInt8 :=
  ops.flatMap fun
    | .feed bytes => bytes
    | .next => []

theorem fedBytes_next (n : Nat) : fedBytes (List.replicate n .next) = [] := by
  rw [fedBytes, List.flatMap_replicate]
  simp

variable {nowMs : UInt64} {i i' : Input}

theorem inputFeed_contents (i : Input) (bytes : List UInt8) :
    if (ringContents i.2).length + bytes.length ≤ inputRingCap then
      (inputFeed i bytes).1 = true ∧ (inputFeed i bytes).2.1 = i.1 ∧
        ringContents (inputFeed i bytes).2.2 = ringContents i.2 ++ bytes
    else inputFeed i bytes = (false, i) := by
  have h := ringFeed_contents i.2 bytes
  split at h
  next hroom =>
    rw [if_pos hroom]
    exact ⟨h.1, rfl, h.2⟩
  next hroom =>
    rw [if_neg hroom, inputFeed, h]

/-- The turns left for the bytes of the ring. -/
def inputLeft (i : Input) : Nat :=
  turnsLeft (onContents ringContents i)

theorem inputTurn_lowers (nowMs : UInt64) (i : Input) :
    (inputTurn inputFifo nowMs i).Leads (inputLeft · < inputLeft i) := by
  have h := listTurn_lowers nowMs (onContents ringContents i)
  rw [listTurn, ← inputTurn_map inputFifo_reads i] at h
  exact Pulse.leads_map h

theorem inputLeft_lt (i : Input) : inputLeft i < inputFuel inputFifo i := by
  have h := turnsLeft_lt (onContents ringContents i)
  have hfuel : inputFuel listFifo (onContents ringContents i) = inputFuel inputFifo i :=
    congrArg (2 * · + 2) (inputFifo_reads.count i.2).symm
  rwa [hfuel] at h

/-- `qn_input_next` comes to an end. -/
theorem inputNext_total (nowMs : UInt64) (i : Input) : ∃ o i', inputNext nowMs i = some (o, i') :=
  Pulse.next_total (inputTurn_lowers nowMs) (inputLeft_lt i)

theorem inputNext_steps {o : Option Key} (h : inputNext nowMs i = some (o, i')) :
    Pulse.Steps (listTurn nowMs) (onContents ringContents i) o.toList (onContents ringContents i') ∧
      (o = none → listTurn nowMs (onContents ringContents i') = .wait) := by
  obtain ⟨hsteps, hwait⟩ := Pulse.next_steps h
  exact ⟨hsteps.map (inputTurn_map inputFifo_reads), fun ho =>
    (Pulse.wait_map (inputTurn_map inputFifo_reads)).mpr (hwait ho)⟩

/-- A run does on the bytes it is fed what the decoding of all of them does. -/
theorem inputRun_steps {ops : List InputOp} {ks ks' : List Key} {sofar : List UInt8}
    (h : inputRun nowMs ops i = some (ks', i'))
    (hi : Pulse.Steps (listTurn nowMs) (coreInit, sofar) ks (onContents ringContents i)) :
    Pulse.Steps (listTurn nowMs) (coreInit, sofar ++ fedBytes ops) (ks ++ ks') (onContents ringContents i') := by
  induction ops generalizing i ks ks' sofar with
  | nil =>
    cases h
    simpa [fedBytes] using hi
  | cons op ops ih =>
    cases op with
    | feed bytes =>
      rw [inputRun] at h
      have hfeed := inputFeed_contents i bytes
      split at hfeed
      next =>
        obtain ⟨hok, hcore, hcontents⟩ := hfeed
        split at h
        next => cases h
        next i₁ he =>
          rw [he] at hcore hcontents
          have hfed : onContents ringContents i₁ = Pulse.fed bytes (onContents ringContents i) :=
            Prod.ext hcore hcontents
          have hmore := hi.feed (listTurn_streams nowMs) (coreInit_fresh nowMs) bytes
          rw [← hfed] at hmore
          have := ih h hmore
          rwa [List.append_assoc] at this
      next =>
        rw [hfeed] at h
        cases h
    | next =>
      rw [inputRun] at h
      split at h
      next => cases h
      next o i₁ hnext =>
        obtain ⟨⟨ks₁, i₂⟩, hrun, hpair⟩ := Option.map_eq_some_iff.mp h
        cases hpair
        have hstep := hi.trans (inputNext_steps hnext).1
        have := ih hrun hstep
        rwa [List.append_assoc] at this

/-- Some calls get out all that is left. -/
theorem inputRun_exhausts (nowMs : UInt64) (i : Input) :
    ∃ n rest i' i'', inputRun nowMs (List.replicate n .next) i = some (rest, i') ∧
      inputNext nowMs i' = some (none, i'') := by
  induction hn : inputLeft i using Nat.strongRecOn generalizing i with
  | ind m ih =>
    obtain ⟨o, i₁, hnext⟩ := inputNext_total nowMs i
    cases o with
    | none => exact ⟨0, [], i, i₁, rfl, hnext⟩
    | some k =>
      have hlt : inputLeft i₁ < m := hn ▸ Pulse.next_lowers (inputTurn_lowers nowMs) hnext
      obtain ⟨n, rest, i', i'', hrun, hend⟩ := ih _ hlt i₁ rfl
      refine ⟨n + 1, k :: rest, i', i'', ?_, hend⟩
      rw [List.replicate_succ, inputRun, hnext]
      simp only [hrun, Option.map_some, Option.toList_some, List.singleton_append]

end Run

section Claim

/-- What holds of a run: its keys, together with those still to come, are those of its bytes in one piece. -/
structure InputFaithful (nowMs : UInt64) (ops : List InputOp) (ks : List Key) (i : Input) : Prop where
  keys : ∃ n rest i' i'', inputRun nowMs (List.replicate n .next) i = some (rest, i') ∧
    inputNext nowMs i' = some (none, i'') ∧ ks ++ rest = wholeKeys nowMs (fedBytes ops)
  order : ringContents i.2 <:+ fedBytes ops
  room : ∀ bytes, if (ringContents i.2).length + bytes.length ≤ inputRingCap then
      (inputFeed i bytes).1 = true ∧ (inputFeed i bytes).2.1 = i.1 ∧
        ringContents (inputFeed i bytes).2.2 = ringContents i.2 ++ bytes
    else inputFeed i bytes = (false, i)
  ends : ∀ nowMs, ∃ o i', inputNext nowMs i = some (o, i')

def pasteStart : List UInt8 := [0x1B, 0x5B, 0x32, 0x30, 0x30, 0x7E]

/-- What a paste tells: behind its start sequence, until the first end sequence or without one. -/
structure PasteRule (nowMs : UInt64) : Prop where
  start : ∀ pre c, (settle nowMs (coreInit, pre)).2 = (c, []) → c.state = .ground →
    ∃ c', settle nowMs (coreInit, pre ++ pasteStart) = (wholeKeys nowMs pre, (c', [])) ∧ c'.state = .bracketedPaste
  inside : ∀ pre c body, (settle nowMs (coreInit, pre)).2 = (c, []) → c.state = .bracketedPaste → ¬pasteEnd <:+: body →
    ∃ pasted, wholeKeys nowMs (pre ++ body) = wholeKeys nowMs pre ++ pasted ∧ ∀ k ∈ pasted, k.Pasted
  closed : ∀ pre c body post, (settle nowMs (coreInit, pre)).2 = (c, []) → c.state = .bracketedPaste → EndsFirst body →
    ∃ pasted c', wholeKeys nowMs (pre ++ (body ++ pasteEnd ++ post)) =
        wholeKeys nowMs pre ++ pasted ++ (settle nowMs (c', post)).1 ∧
      (∀ k ∈ pasted, k.Pasted) ∧ c'.state = .ground

theorem inputRun_faithful {nowMs : UInt64} {ops : List InputOp} {ks : List Key} {i : Input}
    (h : inputRun nowMs ops inputInit = some (ks, i)) : InputFaithful nowMs ops ks i := by
  have hsteps := @inputRun_steps nowMs inputInit i ops [] ks [] h (.refl _)
  rw [List.nil_append, List.nil_append] at hsteps
  refine ⟨?_, (hsteps.streams (listTurn_streams nowMs) (coreInit_fresh nowMs)).2, inputFeed_contents i,
    fun nowMs => inputNext_total nowMs i⟩
  obtain ⟨n, rest, i', i'', hrun, hend⟩ := inputRun_exhausts nowMs i
  refine ⟨n, rest, i', i'', hrun, hend, ?_⟩
  have hmore := inputRun_steps hrun hsteps
  obtain ⟨hlast, hwait⟩ := inputNext_steps hend
  rw [fedBytes_next, List.append_nil] at hmore
  have := settle_unique (hmore.trans hlast) (hwait rfl)
  rw [wholeKeys, this]
  exact (List.append_nil _).symm

theorem pasteStart_last {nowMs : UInt64} {c : InputCore} (hs : c.state = .csi) (hseq : c.seq = [0x32, 0x30, 0x30]) :
    listTurn nowMs (c, [0x7E]) = .again ({ c with state := .bracketedPaste, seq := [] }, []) := by
  have hcsi : decodeCsi [0x32, 0x30, 0x30, 0x7E] = (none, true) := by decide
  unfold listTurn inputTurn
  simp only [hs]
  unfold csiTurn
  rw [if_neg (count_cons _ _), hseq, hs]
  simp only [show listFifo.pop [0x7E] = (0x7E, []) from rfl, List.cons_append, List.nil_append, hcsi]
  rfl

theorem pasteRule (nowMs : UInt64) : PasteRule nowMs where
  start pre c hpre hc := by
    refine ⟨{ c with state := .bracketedPaste, seq := [], escSinceMs := nowMs }, ?_, rfl⟩
    have hstart : settle nowMs (c, [] ++ pasteStart) =
        ([], ({ c with state := .bracketedPaste, seq := [], escSinceMs := nowMs }, [])) := by
      obtain ⟨state, need, seq, paste, value, least, since⟩ := c
      obtain rfl : state = .ground := hc
      refine settle_unique (.again rfl (.again rfl (.again rfl (.again rfl (.again rfl ?_))))) rfl
      exact .again (pasteStart_last rfl rfl) (.refl _)
    rw [settle_more hpre, hstart, List.append_nil]
  inside pre c body hpre hc hopen := by
    obtain ⟨hsteps, -⟩ := settle_steps nowMs (c, [] ++ body)
    refine ⟨(settle nowMs (c, [] ++ body)).1, ?_, (paste_open hsteps (.inl hc) hopen).1⟩
    rw [wholeKeys, settle_more hpre]
  closed pre c body post hpre hc hb := by
    obtain ⟨ks, c', hsteps, hks, hground⟩ := paste_closed nowMs post (.inl hc) hb
    refine ⟨ks, c', ?_, hks, hground⟩
    rw [wholeKeys, settle_more hpre, List.nil_append, settle_of_steps hsteps, List.append_assoc]

/-- Keys do not depend on how their bytes arrive, and pasted text is told as such. -/
theorem input_decoding {nowMs : UInt64} {ops : List InputOp} {ks : List Key} {i : Input}
    (h : inputRun nowMs ops inputInit = some (ks, i)) : InputFaithful nowMs ops ks i ∧ PasteRule nowMs :=
  ⟨inputRun_faithful h, pasteRule nowMs⟩

/-- A paste of two characters, cut inside its sequences and inside the second character. -/
def cutPaste : List InputOp :=
  [.feed [0x1B], .next, .feed [0x5B, 0x32, 0x30, 0x30, 0x7E, 0x61], .next, .feed [0xC3], .next,
    .feed [0xA9, 0x1B, 0x5B], .next, .next, .feed [0x32, 0x30, 0x31, 0x7E, 0x71], .next, .next]

theorem input_decoding_cutPaste :
    ∃ ks i, inputRun 100 cutPaste inputInit = some (ks, i) ∧ InputFaithful 100 cutPaste ks i ∧
      wholeKeys 100 (fedBytes cutPaste) = [.char 0x61 true, .char 0xE9 true, .char 0x71 false] := by
  have hsome : (inputRun 100 cutPaste inputInit).isSome = true := by decide +kernel
  obtain ⟨⟨ks, i⟩, h⟩ := Option.isSome_iff_exists.mp hsome
  exact ⟨ks, i, h, (input_decoding h).1, by decide +kernel⟩

end Claim

end Qanat

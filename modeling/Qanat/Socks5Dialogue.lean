import Mathlib.Data.List.Induction
import Qanat.Socks5

namespace Qanat

/-- What a part of the answer to a CONNECT request amounts to; `pending` says how long it has to get first. -/
inductive Verdict
  | pending (needed : Nat)
  | ready
  | failed
  deriving DecidableEq, Repr

/-- The verdict on `length` bytes of an answer that is `needed` bytes long. -/
def verdictAt (needed length : Nat) : Verdict :=
  if length < needed then .pending needed else if length = needed then .ready else .failed

/-- The verdict on what follows the head of an answer with a domain name. -/
def domainVerdict : Bytes → Verdict
  | [] => .pending 5
  | l :: a => if l = 0 then .failed else verdictAt (7 + l.toNat) (5 + a.length)

/-- The verdict on an answer with these four bytes ahead of it. -/
def replyVerdict (version status reserved type : UInt8) (a : Bytes) : Verdict :=
  if version ≠ 5 ∨ status ≠ 0 ∨ reserved ≠ 0 then .failed
  else if type = 1 then verdictAt 10 (4 + a.length)
  else if type = 3 then domainVerdict a
  else .failed

def connectVerdict : Bytes → Verdict
  | version :: status :: reserved :: type :: a => replyVerdict version status reserved type a
  | _ => .pending 4

/-- The answer that opens the way to the target. -/
inductive ConnectReply : Bytes → Prop
  | address (a : Bytes) : a.length = 6 → ConnectReply ([5, 0, 0, 1] ++ a)
  | domain (l : UInt8) (a : Bytes) : l ≠ 0 → a.length = l.toNat + 2 → ConnectReply ([5, 0, 0, 3, l] ++ a)

section Verdicts

variable {t x : Bytes} {n : Nat}

theorem verdictAt_ready {needed length : Nat} : verdictAt needed length = .ready ↔ length = needed := by
  unfold verdictAt
  split
  next h => exact ⟨fun hv => Verdict.noConfusion hv, fun hv => by omega⟩
  next h =>
    split
    next he => exact ⟨fun _ => he, fun _ => rfl⟩
    next he => exact ⟨fun hv => Verdict.noConfusion hv, fun hv => absurd hv he⟩

theorem verdictAt_pending {needed length : Nat} (h : verdictAt needed length = .pending n) :
    length < needed ∧ n = needed := by
  unfold verdictAt at h
  split at h
  next hlt => exact ⟨hlt, (Verdict.pending.inj h).symm⟩
  next =>
    split at h
    next => cases h
    next => cases h

theorem domainVerdict_cons (l : UInt8) (a : Bytes) :
    domainVerdict (l :: a) = if l = 0 then .failed else verdictAt (7 + l.toNat) (5 + a.length) := rfl

/-- An answer that is long enough already fails with every further byte. -/
theorem verdictAt_longer {needed length more : Nat} (h : ∀ n, verdictAt needed length ≠ .pending n) (hm : 0 < more) :
    verdictAt needed (length + more) = .failed := by
  have hle : ¬ length < needed := by
    intro hlt
    exact h needed (if_pos hlt)
  unfold verdictAt
  rw [if_neg (by omega), if_neg (by omega)]

theorem connectVerdict_short (h : t.length < 4) : connectVerdict t = .pending 4 := by
  obtain _ | ⟨a, _ | ⟨b, _ | ⟨c, _ | ⟨d, t⟩⟩⟩⟩ := t
  · rfl
  · rfl
  · rfl
  · rfl
  · exact absurd h (by simp)

theorem domainVerdict_ready {a : Bytes} (h : domainVerdict a = .ready) :
    ∃ l b, a = l :: b ∧ l ≠ 0 ∧ b.length = l.toNat + 2 := by
  cases a with
  | nil => cases h
  | cons l b =>
    rw [domainVerdict_cons] at h
    split at h
    next => cases h
    next hl =>
      have hlen := verdictAt_ready.mp h
      exact ⟨l, b, rfl, hl, by omega⟩

theorem domainVerdict_pending {a : Bytes} (h : domainVerdict a = .pending n) : (a = [] ∧ n = 5) ∨
    ∃ l b, a = l :: b ∧ l ≠ 0 ∧ b.length < l.toNat + 2 ∧ n = 7 + l.toNat := by
  cases a with
  | nil => exact .inl ⟨rfl, (Verdict.pending.inj h).symm⟩
  | cons l b =>
    rw [domainVerdict_cons] at h
    split at h
    next => cases h
    next hl =>
      obtain ⟨hlt, hn⟩ := verdictAt_pending h
      exact .inr ⟨l, b, rfl, hl, by omega, hn⟩

theorem domainVerdict_over {a : Bytes} (h : ∀ n, domainVerdict a ≠ .pending n) (hx : x ≠ []) :
    domainVerdict (a ++ x) = .failed := by
  cases a with
  | nil => exact absurd rfl (h 5)
  | cons l b =>
    rw [List.cons_append, domainVerdict_cons]
    rw [domainVerdict_cons] at h
    split
    next => rfl
    next hl =>
      rw [if_neg hl] at h
      rw [List.length_append, ← Nat.add_assoc]
      exact verdictAt_longer h (List.length_pos_of_ne_nil hx)

/-- A verdict other than a failure is one of the two kinds of answers. -/
theorem replyVerdict_cases {v s z k : UInt8} {a : Bytes} (h : replyVerdict v s z k a ≠ .failed) :
    (v = 5 ∧ s = 0 ∧ z = 0) ∧ (k = 1 ∧ replyVerdict v s z k a = verdictAt 10 (4 + a.length) ∨
      k = 3 ∧ replyVerdict v s z k a = domainVerdict a) := by
  unfold replyVerdict at h ⊢
  split at h
  next => exact absurd rfl h
  next hhead =>
    rw [if_neg hhead]
    simp only [not_or, not_not] at hhead
    refine ⟨hhead, ?_⟩
    split at h
    next hk => exact .inl ⟨hk, if_pos hk⟩
    next hk =>
      rw [if_neg hk]
      split at h
      next hk' => exact .inr ⟨hk', if_pos hk'⟩
      next => exact absurd rfl h

theorem connectVerdict_ready : connectVerdict t = .ready ↔ ConnectReply t := by
  constructor
  · intro h
    obtain _ | ⟨v, _ | ⟨s, _ | ⟨z, _ | ⟨k, a⟩⟩⟩⟩ := t
    · cases h
    · cases h
    · cases h
    · cases h
    · have h : replyVerdict v s z k a = .ready := h
      obtain ⟨⟨rfl, rfl, rfl⟩, ⟨rfl, hv⟩ | ⟨rfl, hv⟩⟩ :=
        replyVerdict_cases (by rw [h]; exact fun hf => Verdict.noConfusion hf)
      · have hlen := verdictAt_ready.mp (hv.symm.trans h)
        exact .address a (by omega)
      · obtain ⟨l, b, rfl, hl, hlen⟩ := domainVerdict_ready (hv.symm.trans h)
        exact .domain l b hl hlen
  · rintro (⟨a, ha⟩ | ⟨l, a, hl, ha⟩)
    · show verdictAt 10 (4 + a.length) = .ready
      exact verdictAt_ready.mpr (by omega)
    · show domainVerdict (l :: a) = .ready
      rw [domainVerdict_cons, if_neg hl]
      exact verdictAt_ready.mpr (by omega)

/-- The forms of an answer that may still become one. -/
theorem connectVerdict_pending (h : connectVerdict t = .pending n) :
    (t.length < 4 ∧ n = 4) ∨ (∃ a, t = 5 :: 0 :: 0 :: 1 :: a ∧ a.length < 6 ∧ n = 10) ∨
      (t = [5, 0, 0, 3] ∧ n = 5) ∨
      ∃ l a, t = 5 :: 0 :: 0 :: 3 :: l :: a ∧ l ≠ 0 ∧ a.length < l.toNat + 2 ∧ n = 7 + l.toNat := by
  by_cases hshort : t.length < 4
  · rw [connectVerdict_short hshort] at h
    exact .inl ⟨hshort, (Verdict.pending.inj h).symm⟩
  · obtain _ | ⟨v, _ | ⟨s, _ | ⟨z, _ | ⟨k, a⟩⟩⟩⟩ := t
    · exact absurd (by decide) hshort
    · exact absurd (by simp) hshort
    · exact absurd (by simp) hshort
    · exact absurd (by simp) hshort
    · have h : replyVerdict v s z k a = .pending n := h
      obtain ⟨⟨rfl, rfl, rfl⟩, ⟨rfl, hv⟩ | ⟨rfl, hv⟩⟩ :=
        replyVerdict_cases (by rw [h]; exact fun hf => Verdict.noConfusion hf)
      · obtain ⟨hlt, hn⟩ := verdictAt_pending (hv.symm.trans h)
        exact .inr (.inl ⟨a, rfl, by omega, hn⟩)
      · obtain ⟨rfl, hn⟩ | ⟨l, b, rfl, hl, hlt, hn⟩ := domainVerdict_pending (hv.symm.trans h)
        · exact .inr (.inr (.inl ⟨rfl, hn⟩))
        · exact .inr (.inr (.inr ⟨l, b, rfl, hl, hlt, hn⟩))

/-- No further byte mends an answer that failed, or belongs to one that is complete. -/
theorem connectVerdict_over (h : ∀ n, connectVerdict t ≠ .pending n) (hx : x ≠ []) :
    connectVerdict (t ++ x) = .failed := by
  obtain _ | ⟨v, _ | ⟨s, _ | ⟨z, _ | ⟨k, a⟩⟩⟩⟩ := t
  · exact absurd rfl (h 4)
  · exact absurd rfl (h 4)
  · exact absurd rfl (h 4)
  · exact absurd rfl (h 4)
  · have h : ∀ n, replyVerdict v s z k a ≠ .pending n := h
    show replyVerdict v s z k (a ++ x) = .failed
    unfold replyVerdict at h ⊢
    split
    next => rfl
    next hhead =>
      rw [if_neg hhead] at h
      split
      next hk =>
        rw [if_pos hk] at h
        rw [List.length_append, ← Nat.add_assoc]
        exact verdictAt_longer h (List.length_pos_of_ne_nil hx)
      next hk =>
        rw [if_neg hk] at h
        split
        next hk' =>
          rw [if_pos hk'] at h
          exact domainVerdict_over h hx
        next => rfl

end Verdicts

/-- A client that waits for the rest of an answer. -/
structure Waits (c : Socks5Client) (t : Bytes) (n : Nat) : Prop where
  phase : c.phase = .connect
  response : c.response = t
  needed : c.responseNeeded = n
  verdict : connectVerdict t = .pending n

/-- How the loop ends, before it was asked to send anything. -/
def EndsIn (phase : SocksPhase) (r : Socks5Client × Socks5Action × Bytes × Bytes) : Prop :=
  r.1.phase = phase ∧ r.2.1 ≠ .sendConnect

section Answers

variable {c : Socks5Client} {t : Bytes} {n capacity : Nat}

theorem Waits.length_lt (h : Waits c t n) : t.length < n ∧ n < socksResponseMax := by
  have hmax : socksResponseMax = 263 := rfl
  obtain ⟨hlt, rfl⟩ | ⟨a, rfl, hlt, rfl⟩ | ⟨rfl, rfl⟩ | ⟨l, a, rfl, -, hlt, rfl⟩ := connectVerdict_pending h.verdict
  · omega
  · simp only [List.length_cons]
    omega
  · decide
  · have hl := l.toNat_lt
    simp only [List.length_cons]
    omega

theorem Waits.more (h : Waits c t n) (b : UInt8) (rest : Bytes) (hlt : t.length + 1 < n) :
    socksLoop capacity c (b :: rest) = socksLoop capacity { c with response := t ++ [b] } rest := by
  obtain ⟨hn, hmax⟩ := h.length_lt
  have hlen : (t ++ [b]).length = t.length + 1 := by simp
  rw [socksLoop, h.response, if_neg (by omega), if_pos (by dsimp only; rw [hlen, h.needed]; exact hlt)]

theorem Waits.complete (h : Waits c t n) (b : UInt8) (rest : Bytes) (heq : t.length + 1 = n) (hn : 5 < n) :
    EndsIn (if rest = [] then .ready else .failed) (socksLoop capacity c (b :: rest)) := by
  obtain ⟨-, hmax⟩ := h.length_lt
  have hneeded := h.needed
  have hlen : (t ++ [b]).length = t.length + 1 := by simp
  have hdomain : connectDomain { c with response := t ++ [b] } = ({ c with response := t ++ [b] }, none) := by
    rw [connectDomain, if_neg]
    rintro ⟨-, -, h5, -⟩
    dsimp only at h5
    omega
  have hloop : socksLoop capacity c (b :: rest) =
      if rest ≠ [] then
        ((connectComplete { c with response := t ++ [b] }).fail .overflow, .failed, [], rest)
      else (connectComplete { c with response := t ++ [b] }, .ready, [], rest) := by
    rw [socksLoop, h.response, if_neg (by omega)]
    dsimp only
    rw [if_neg (by omega), if_neg (by rw [h.phase]; decide), if_neg (by omega)]
    dsimp only
    rw [hdomain]
    dsimp only
    rw [if_pos ⟨h.phase, by omega, by omega⟩]
  rw [hloop]
  by_cases hr : rest = []
  · rw [if_neg (not_not.mpr hr), if_pos hr]
    exact ⟨rfl, fun hc => Socks5Action.noConfusion hc⟩
  · rw [if_pos hr, if_neg hr]
    exact ⟨rfl, fun hc => Socks5Action.noConfusion hc⟩

theorem connectHeader_eq {v s z k : UInt8} (h : c.response = [v, s, z, k]) : connectHeader c =
    if v ≠ 5 then (c, some .version) else if s ≠ 0 then (c, some .connect) else if z ≠ 0 then (c, some .reserved)
    else if k = 1 then ({ c with responseNeeded := 10 }, none)
    else if k = 3 then ({ c with responseNeeded := 5 }, none) else (c, some .address) := by
  rw [connectHeader, h]
  rfl

/-- What the fourth byte of an answer does. -/
theorem Waits.head {v s z : UInt8} (h : Waits c [v, s, z] 4) (k : UInt8) (rest : Bytes) :
    (∃ m, connectVerdict [v, s, z, k] = .pending m ∧ socksLoop capacity c (k :: rest) =
      socksLoop capacity { c with response := [v, s, z, k], responseNeeded := m } rest) ∨
    connectVerdict [v, s, z, k] = .failed ∧ EndsIn .failed (socksLoop capacity c (k :: rest)) := by
  have hneeded := h.needed
  have hmax : ¬ socksResponseMax ≤ [v, s, z].length := Nat.not_le.mpr (by decide : 3 < 263)
  rw [socksLoop, h.response, if_neg hmax]
  dsimp only [List.cons_append, List.nil_append, List.length_cons, List.length_nil]
  rw [if_neg (by omega), if_neg (by rw [h.phase]; decide), if_pos hneeded, connectHeader_eq rfl]
  show (∃ m, replyVerdict v s z k [] = .pending m ∧ _) ∨ replyVerdict v s z k [] = .failed ∧ _
  unfold replyVerdict
  by_cases hv : v = 5
  · by_cases hs : s = 0
    · by_cases hz : z = 0
      · rw [if_neg (not_not.mpr hv), if_neg (not_not.mpr hs), if_neg (not_not.mpr hz),
          if_neg (by simp [hv, hs, hz])]
        by_cases h1 : k = 1
        · left
          rw [if_pos h1, if_pos h1]
          refine ⟨10, rfl, ?_⟩
          dsimp only
          rw [connectDomain, if_neg fun hc => absurd hc.2.2.1 (show (10 : Nat) ≠ 5 by decide)]
          dsimp only
          rw [if_neg fun hc => absurd hc.2.1 (show (4 : Nat) ≠ 10 by decide)]
        · by_cases h3 : k = 3
          · left
            rw [if_neg h1, if_neg h1, if_pos h3, if_pos h3]
            refine ⟨5, rfl, ?_⟩
            dsimp only
            rw [connectDomain, if_neg fun hc => absurd hc.2.2.2 (show (4 : Nat) ≠ 5 by decide)]
            dsimp only
            rw [if_neg fun hc => absurd hc.2.1 (show (4 : Nat) ≠ 5 by decide)]
          · right
            rw [if_neg h1, if_neg h1, if_neg h3, if_neg h3]
            exact ⟨rfl, rfl, fun hc => Socks5Action.noConfusion hc⟩
      · right
        rw [if_neg (not_not.mpr hv), if_neg (not_not.mpr hs), if_pos hz, if_pos (.inr (.inr hz))]
        exact ⟨rfl, rfl, fun hc => Socks5Action.noConfusion hc⟩
    · right
      rw [if_neg (not_not.mpr hv), if_pos hs, if_pos (.inr (.inl hs))]
      exact ⟨rfl, rfl, fun hc => Socks5Action.noConfusion hc⟩
  · right
    rw [if_pos hv, if_pos (.inl hv)]
    exact ⟨rfl, rfl, fun hc => Socks5Action.noConfusion hc⟩

theorem connectDomain_eq {l : UInt8} (hp : c.phase = .connect) (hr : c.response = [5, 0, 0, 3, l])
    (hn : c.responseNeeded = 5) : connectDomain c = if l = 0 then
      ({ c with responseNeeded := 7 + l.toNat }, some .address)
    else ({ c with responseNeeded := 7 + l.toNat }, none) := by
  have hl := l.toNat_lt
  have hfits : ¬ socksResponseMax < 7 + l.toNat := Nat.not_lt.mpr (show 7 + l.toNat ≤ 263 by omega)
  rw [connectDomain, hr, if_pos ⟨hp, rfl, hn, rfl⟩]
  show (if socksResponseMax < 7 + l.toNat ∨ l = 0 then _ else _) = _
  by_cases hz : l = 0
  · rw [if_pos (.inr hz), if_pos hz]
    rfl
  · rw [if_neg (not_or.mpr ⟨hfits, hz⟩), if_neg hz]
    rfl

/-- What the length octet of a domain name does. -/
theorem Waits.domain (h : Waits c [5, 0, 0, 3] 5) (l : UInt8) (rest : Bytes) :
    l ≠ 0 ∧ socksLoop capacity c (l :: rest) =
      socksLoop capacity { c with response := [5, 0, 0, 3, l], responseNeeded := 7 + l.toNat } rest ∨
    l = 0 ∧ EndsIn .failed (socksLoop capacity c (l :: rest)) := by
  have hneeded := h.needed
  have hl := l.toNat_lt
  rw [socksLoop, h.response, if_neg (by decide)]
  dsimp only [List.cons_append, List.nil_append, List.length_cons, List.length_nil]
  rw [if_neg (by omega), if_neg (by rw [h.phase]; decide), if_neg (by omega)]
  dsimp only
  rw [@connectDomain_eq { c with response := [5, 0, 0, 3, l] } l h.phase rfl hneeded]
  by_cases hz : l = 0
  · right
    rw [if_pos hz]
    exact ⟨hz, rfl, fun hc => Socks5Action.noConfusion hc⟩
  · left
    rw [if_neg hz]
    dsimp only
    rw [if_neg (by rintro ⟨-, h5, -⟩; simp only [List.length_cons, List.length_nil] at h5; omega)]
    exact ⟨hz, rfl⟩

/-- One more byte of an answer. -/
theorem Waits.byte (h : Waits c t n) (b : UInt8) (rest : Bytes) :
    (∃ c' m, Waits c' (t ++ [b]) m ∧ socksLoop capacity c (b :: rest) = socksLoop capacity c' rest) ∨
    connectVerdict (t ++ [b]) = .ready ∧
      EndsIn (if rest = [] then .ready else .failed) (socksLoop capacity c (b :: rest)) ∨
    connectVerdict (t ++ [b]) = .failed ∧ EndsIn .failed (socksLoop capacity c (b :: rest)) := by
  have hverdict := h.verdict
  obtain ⟨hlt, rfl⟩ | ⟨a, rfl, hlt, rfl⟩ | ⟨rfl, rfl⟩ | ⟨l, a, rfl, hl, hlt, rfl⟩ := connectVerdict_pending hverdict
  · by_cases hmore : t.length + 1 < 4
    · exact .inl ⟨{ c with response := t ++ [b] }, 4,
        ⟨h.phase, rfl, h.needed, connectVerdict_short (by simpa using hmore)⟩, h.more b rest hmore⟩
    · obtain ⟨v, s, z, rfl⟩ : ∃ v s z, t = [v, s, z] := List.length_eq_three.mp (by omega)
      obtain ⟨m, hm, hloop⟩ | hfail := @Waits.head c capacity v s z h b rest
      · exact .inl ⟨{ c with response := [v, s, z, b], responseNeeded := m }, m, ⟨h.phase, rfl, rfl, hm⟩, hloop⟩
      · exact .inr (.inr hfail)
  · have hv : connectVerdict (5 :: 0 :: 0 :: 1 :: a ++ [b]) = verdictAt 10 (4 + (a ++ [b]).length) := rfl
    rw [List.length_append, List.length_singleton] at hv
    by_cases hmore : a.length + 1 < 6
    · refine .inl ⟨{ c with response := 5 :: 0 :: 0 :: 1 :: a ++ [b] }, 10,
        ⟨h.phase, rfl, h.needed, hv.trans (if_pos (by omega))⟩, h.more b rest ?_⟩
      simp only [List.length_cons]
      omega
    · refine .inr (.inl ⟨hv.trans (verdictAt_ready.mpr (by omega)), h.complete b rest ?_ (by decide)⟩)
      simp only [List.length_cons]
      omega
  · obtain ⟨hne, hloop⟩ | ⟨hz, hends⟩ := @Waits.domain c capacity h b rest
    · refine .inl ⟨{ c with response := [5, 0, 0, 3, b], responseNeeded := 7 + b.toNat }, 7 + b.toNat,
        ⟨h.phase, rfl, rfl, ?_⟩, hloop⟩
      show domainVerdict [b] = _
      rw [domainVerdict_cons, if_neg hne]
      exact if_pos (by simp only [List.length_nil]; omega)
    · refine .inr (.inr ⟨?_, hends⟩)
      show domainVerdict [b] = _
      rw [domainVerdict_cons, if_pos hz]
  · have hv : connectVerdict (5 :: 0 :: 0 :: 3 :: l :: a ++ [b]) = domainVerdict (l :: (a ++ [b])) := rfl
    rw [domainVerdict_cons, if_neg hl, List.length_append, List.length_singleton] at hv
    by_cases hmore : a.length + 1 < l.toNat + 2
    · refine .inl ⟨{ c with response := 5 :: 0 :: 0 :: 3 :: l :: a ++ [b] }, 7 + l.toNat,
        ⟨h.phase, rfl, h.needed, hv.trans (if_pos (by omega))⟩, h.more b rest ?_⟩
      simp only [List.length_cons]
      omega
    · refine .inr (.inl ⟨hv.trans (verdictAt_ready.mpr (by omega)), h.complete b rest ?_ ?_⟩)
      · simp only [List.length_cons]
        omega
      · have hpos : 0 < l.toNat := Nat.pos_of_ne_zero fun hz => hl (UInt8.toNat_inj.mp hz)
        omega

/-- What a piece of an answer leads to is what the verdict on all of it says. -/
def ReplyRead (t : Bytes) (r : Socks5Client × Socks5Action × Bytes × Bytes) : Prop :=
  r.2.1 ≠ .sendConnect ∧ ((∃ n, Waits r.1 t n) ∨ connectVerdict t = .ready ∧ r.1.phase = .ready ∨
    connectVerdict t = .failed ∧ r.1.phase = .failed)

theorem Waits.loop (h : Waits c t n) (x : Bytes) : ReplyRead (t ++ x) (socksLoop capacity c x) := by
  induction x generalizing c t n with
  | nil =>
    rw [List.append_nil]
    exact ⟨fun hc => Socks5Action.noConfusion hc, .inl ⟨n, h⟩⟩
  | cons b rest ih =>
    have hsplit : t ++ b :: rest = t ++ [b] ++ rest := by simp
    obtain ⟨c', m, hw, hloop⟩ | ⟨hv, hphase, hact⟩ | ⟨hv, hphase, hact⟩ := @Waits.byte c t n capacity h b rest
    · rw [hloop, hsplit]
      exact ih hw
    · refine ⟨hact, .inr ?_⟩
      by_cases hr : rest = []
      · subst hr
        exact .inl ⟨hv, hphase.trans (if_pos rfl)⟩
      · rw [hsplit]
        refine .inr ⟨connectVerdict_over (fun m hm => ?_) hr, hphase.trans (if_neg hr)⟩
        exact Verdict.noConfusion (hv.symm.trans hm)
    · refine ⟨hact, .inr (.inr ⟨?_, hphase⟩)⟩
      by_cases hr : rest = []
      · subst hr
        exact hv
      · rw [hsplit]
        exact connectVerdict_over (fun m hm => Verdict.noConfusion (hv.symm.trans hm)) hr

end Answers

/-- The dialogue as the bytes tell it, call by call. -/
inductive Dialogue
  | greeted (t : Bytes)
  | asked (t : Bytes)
  | ready
  | failed
  deriving DecidableEq, Repr

/-- Where an answer `t` with this verdict leads. -/
def Verdict.dialogue (t : Bytes) : Verdict → Dialogue
  | .pending _ => .asked t
  | .ready => .ready
  | .failed => .failed

def Dialogue.feed : Dialogue → Bytes → Dialogue
  | .greeted t, x =>
    if (t ++ x).length < 2 then .greeted (t ++ x) else if t ++ x = [5, 0] then .asked [] else .failed
  | .asked t, x => (connectVerdict (t ++ x)).dialogue (t ++ x)
  | .ready, _ => .failed
  | .failed, _ => .failed

theorem Dialogue.feed_greeted (t x : Bytes) : (Dialogue.greeted t).feed x =
    if (t ++ x).length < 2 then .greeted (t ++ x) else if t ++ x = [5, 0] then .asked [] else .failed := rfl

theorem Dialogue.feed_asked (t x : Bytes) :
    (Dialogue.asked t).feed x = (connectVerdict (t ++ x)).dialogue (t ++ x) := rfl

/-- Whether the bytes of a call complete the answer to the greeting. -/
def Dialogue.sends : Dialogue → Bytes → Prop
  | .greeted t, x => t ++ x = [5, 0]
  | _, _ => False

/-- A client that stands where the dialogue does. -/
inductive Represents (host : Bytes) (port : UInt16) : Socks5Client → Dialogue → Prop
  | greeted {c : Socks5Client} : c.phase = .method → c.responseNeeded = 2 → c.host = host → c.port = port →
      c.response.length < 2 → Represents host port c (.greeted c.response)
  | asked {c : Socks5Client} {t : Bytes} {n : Nat} : Waits c t n → Represents host port c (.asked t)
  | ready {c : Socks5Client} : c.phase = .ready → Represents host port c .ready
  | failed {c : Socks5Client} : c.phase = .failed → Represents host port c .failed

section Feeding

variable {c : Socks5Client} {host x : Bytes} {port : UInt16} {capacity : Nat} {d : Dialogue}

/-- The second byte of the answer to the greeting. -/
theorem methodByte {a : UInt8} (hphase : c.phase = .method) (hneeded : c.responseNeeded = 2)
    (hresponse : c.response = [a]) (hroom : 7 + c.host.length ≤ capacity) (b : UInt8) (rest : Bytes) :
    ((a = 5 ∧ b = 0) ∧ rest = [] ∧ socksLoop capacity c (b :: rest) =
      ({ c with phase := .connect, response := [], responseNeeded := 4 }, .sendConnect,
        connectRequest c.host c.port, [])) ∨
    ¬ (a :: b :: rest = [5, 0]) ∧ EndsIn .failed (socksLoop capacity c (b :: rest)) := by
  have hmax : ¬ socksResponseMax ≤ [a].length := Nat.not_le.mpr (by decide : 1 < 263)
  rw [socksLoop, hresponse, if_neg hmax]
  dsimp only [List.cons_append, List.nil_append, List.length_cons, List.length_nil]
  rw [if_neg (by omega), if_pos hphase]
  have hcomplete : methodComplete { c with response := [a, b] } capacity =
      if a ≠ 5 then ({ c with response := [a, b] }.fail .version, .failed, [])
      else if b ≠ 0 then ({ c with response := [a, b] }.fail .auth, .failed, [])
      else ({ c with phase := .connect, response := [], responseNeeded := 4 }, .sendConnect,
        connectRequest c.host c.port) := by
    rw [methodComplete]
    dsimp only
    rw [if_neg (Nat.not_lt.mpr hroom)]
    rfl
  rw [hcomplete]
  by_cases hr : rest = []
  · subst hr
    by_cases ha : a = 5
    · by_cases hb : b = 0
      · left
        rw [if_neg (not_not.mpr ha), if_neg (not_not.mpr hb)]
        exact ⟨⟨ha, hb⟩, rfl, rfl⟩
      · right
        rw [if_neg (not_not.mpr ha), if_pos hb]
        exact ⟨fun h => hb (List.cons.inj (List.cons.inj h).2).1, rfl, fun hc => Socks5Action.noConfusion hc⟩
    · right
      rw [if_pos ha]
      exact ⟨fun h => ha (List.cons.inj h).1, rfl, fun hc => Socks5Action.noConfusion hc⟩
  · right
    rw [if_pos hr]
    refine ⟨fun h => hr (List.cons.inj (List.cons.inj h).2).2, ?_, fun hc => Socks5Action.noConfusion hc⟩
    split
    next => rfl
    next =>
      split
      next => rfl
      next => rfl

/-- A call in the method phase that ends with an answer of fewer than two bytes leaves them. -/
theorem methodLoop (hphase : c.phase = .method) (hneeded : c.responseNeeded = 2) (hx : x ≠ [])
    (hshort : c.response.length < 2) (hroom : 7 + c.host.length ≤ capacity) :
    ((c.response ++ x).length < 2 ∧
      socksLoop capacity c x = ({ c with response := c.response ++ x }, .needInput, [], [])) ∨
    (c.response ++ x = [5, 0] ∧ socksLoop capacity c x =
      ({ c with phase := .connect, response := [], responseNeeded := 4 }, .sendConnect,
        connectRequest c.host c.port, [])) ∨
    (2 ≤ (c.response ++ x).length ∧ c.response ++ x ≠ [5, 0]) ∧ EndsIn .failed (socksLoop capacity c x) := by
  obtain _ | ⟨a, rest⟩ := x
  · exact absurd rfl hx
  · have hcase : ∀ r : Bytes, r.length < 2 → r = [] ∨ ∃ v, r = [v] := by
      rintro (_ | ⟨v, _ | ⟨w, t⟩⟩) hr
      · exact .inl rfl
      · exact .inr ⟨v, rfl⟩
      · exact absurd hr (by simp)
    obtain hr | ⟨v, hr⟩ := hcase _ hshort
    · have hfirst : socksLoop capacity c (a :: rest) = socksLoop capacity { c with response := [a] } rest := by
        have hmax : ¬ socksResponseMax ≤ c.response.length := by
          rw [hr]
          exact Nat.not_le.mpr (by decide : 0 < 263)
        rw [socksLoop, if_neg hmax, hr]
        dsimp only [List.nil_append, List.length_cons, List.length_nil]
        rw [if_pos (by omega)]
      rw [hfirst, hr, List.nil_append]
      obtain _ | ⟨b, rest⟩ := rest
      · exact .inl ⟨by simp, rfl⟩
      · obtain ⟨⟨rfl, rfl⟩, rfl, hloop⟩ | ⟨hne, hends⟩ :=
          @methodByte { c with response := [a] } capacity a hphase hneeded rfl hroom b rest
        · exact .inr (.inl ⟨rfl, hloop⟩)
        · exact .inr (.inr ⟨⟨by simp, hne⟩, hends⟩)
    · rw [hr]
      obtain ⟨⟨rfl, rfl⟩, rfl, hloop⟩ | ⟨hne, hends⟩ := methodByte hphase hneeded hr hroom a rest
      · exact .inr (.inl ⟨rfl, hloop⟩)
      · exact .inr (.inr ⟨⟨by simp, hne⟩, hends⟩)

/-- A call moves the client as its bytes move the dialogue, and asks for the request where the greeting is answered. -/
theorem Represents.feed (h : Represents host port c d) (hx : x ≠ []) (hroom : 7 + host.length ≤ capacity) :
    Represents host port (socks5Feed c x capacity).client (d.feed x) ∧
      ((socks5Feed c x capacity).action = .sendConnect ↔ d.sends x) ∧
      ((socks5Feed c x capacity).action = .sendConnect →
        (socks5Feed c x capacity).output = connectRequest host port) := by
  have hquiet : ∀ {e : Dialogue} {y : Bytes} {a : Socks5Action} {q : Prop}, ¬ e.sends y → a ≠ .sendConnect →
      (a = .sendConnect ↔ e.sends y) ∧ (a = .sendConnect → q) :=
    fun hn ha => ⟨⟨fun hc => absurd hc ha, fun hc => absurd hc hn⟩, fun hc => absurd hc ha⟩
  cases h with
  | greeted hphase hneeded hhost hport hshort =>
    subst hhost hport
    unfold socks5Feed
    rw [if_neg (by rw [hphase]; decide), if_neg (by rw [hphase]; decide), Dialogue.feed_greeted]
    obtain ⟨hlen, hloop⟩ | ⟨hall, hloop⟩ | ⟨⟨hlen, hne⟩, hends⟩ := methodLoop hphase hneeded hx hshort hroom
    · rw [hloop, if_pos hlen]
      have hno : ¬ (Dialogue.greeted c.response).sends x := by
        intro hs
        rw [show c.response ++ x = [5, 0] from hs] at hlen
        exact absurd hlen (by decide)
      exact ⟨@Represents.greeted _ _ { c with response := c.response ++ x } hphase hneeded rfl rfl hlen,
        hquiet hno fun hc => Socks5Action.noConfusion hc⟩
    · rw [hloop, if_neg (by rw [hall]; decide), if_pos hall]
      exact ⟨.asked ⟨rfl, rfl, rfl, rfl⟩, ⟨fun _ => hall, fun _ => rfl⟩, fun _ => rfl⟩
    · rw [if_neg (Nat.not_lt.mpr hlen), if_neg hne]
      obtain ⟨hfailed, hact⟩ := hends
      exact ⟨.failed hfailed, hquiet hne hact⟩
  | @asked t n hw =>
    unfold socks5Feed
    rw [if_neg (by rw [hw.phase]; decide), if_neg (by rw [hw.phase]; decide)]
    obtain ⟨hact, ⟨m, hm⟩ | ⟨hv, hp⟩ | ⟨hv, hp⟩⟩ := @Waits.loop _ t n capacity hw x
    · rw [Dialogue.feed_asked, hm.verdict]
      exact ⟨.asked hm, hquiet id hact⟩
    · rw [Dialogue.feed_asked, hv]
      exact ⟨.ready hp, hquiet id hact⟩
    · rw [Dialogue.feed_asked, hv]
      exact ⟨.failed hp, hquiet id hact⟩
  | ready hphase =>
    unfold socks5Feed
    rw [if_pos hphase, if_pos hx]
    exact ⟨.failed rfl, hquiet id fun hc => Socks5Action.noConfusion hc⟩
  | failed hphase =>
    unfold socks5Feed
    rw [if_neg (by rw [hphase]; decide), if_pos hphase]
    exact ⟨.failed hphase, hquiet id fun hc => Socks5Action.noConfusion hc⟩

end Feeding

/-- The dialogue behind a row of calls. -/
def Dialogue.run (chunks : List Bytes) : Dialogue :=
  chunks.foldl Dialogue.feed (.greeted [])

/-- The greeting is answered with `05 00` at the end of a call. -/
def Answers (chunks : List Bytes) : Prop :=
  ∃ a b, chunks = a ++ b ∧ a.flatten = [5, 0]

section Running

variable {chunks a b : List Bytes} {x : Bytes}

theorem Dialogue.run_snoc (chunks : List Bytes) (x : Bytes) :
    Dialogue.run (chunks ++ [x]) = (Dialogue.run chunks).feed x := by
  rw [Dialogue.run, Dialogue.run, List.foldl_append]
  rfl

theorem flatten_snoc (chunks : List Bytes) (x : Bytes) : (chunks ++ [x]).flatten = chunks.flatten ++ x := by
  simp

theorem Dialogue.run_greeted (h : chunks.flatten.length < 2) : Dialogue.run chunks = .greeted chunks.flatten := by
  induction chunks using List.reverseRecOn with
  | nil => rfl
  | append_singleton chunks x ih =>
    rw [flatten_snoc] at h ⊢
    rw [Dialogue.run_snoc, ih (by rw [List.length_append] at h; omega), Dialogue.feed_greeted, if_pos h]

theorem Dialogue.run_answered (ha : ∀ x ∈ a, x ≠ []) (h : a.flatten = [5, 0]) : Dialogue.run a = .asked [] := by
  induction a using List.reverseRecOn with
  | nil => cases h
  | append_singleton a x _ =>
    rw [flatten_snoc] at h
    have hpos := List.length_pos_of_ne_nil (ha x (by simp))
    have hlen := congrArg List.length h
    rw [List.length_append, List.length_cons, List.length_singleton] at hlen
    rw [Dialogue.run_snoc, Dialogue.run_greeted (by omega), Dialogue.feed_greeted, h]
    rfl

/-- A prefix of an answer that is not refused yet is waited behind. -/
theorem Dialogue.run_asked (ha : ∀ x ∈ a, x ≠ []) (hb : ∀ x ∈ b, x ≠ []) (h : a.flatten = [5, 0]) {n : Nat}
    (hv : connectVerdict b.flatten = .pending n) : Dialogue.run (a ++ b) = .asked b.flatten := by
  induction b using List.reverseRecOn generalizing n with
  | nil =>
    rw [List.append_nil]
    exact Dialogue.run_answered ha h
  | append_singleton b x ih =>
    rw [flatten_snoc] at hv ⊢
    have hprefix : ∃ m, connectVerdict b.flatten = .pending m := by
      by_contra hno
      rw [connectVerdict_over (fun m hm => hno ⟨m, hm⟩) (hb x (by simp))] at hv
      cases hv
    obtain ⟨m, hm⟩ := hprefix
    rw [← List.append_assoc, Dialogue.run_snoc, ih (fun y hy => hb y (List.mem_append_left _ hy)) hm,
      Dialogue.feed_asked, hv]
    rfl

theorem Dialogue.run_ready (ha : ∀ x ∈ a, x ≠ []) (hb : ∀ x ∈ b, x ≠ []) (h : a.flatten = [5, 0])
    (hv : ConnectReply b.flatten) : Dialogue.run (a ++ b) = .ready := by
  have hready := connectVerdict_ready.mpr hv
  induction b using List.reverseRecOn with
  | nil => cases hready
  | append_singleton b x _ =>
    rw [flatten_snoc] at hready
    have hprefix : ∃ m, connectVerdict b.flatten = .pending m := by
      by_contra hno
      rw [connectVerdict_over (fun m hm => hno ⟨m, hm⟩) (hb x (by simp))] at hready
      cases hready
    obtain ⟨m, hm⟩ := hprefix
    rw [← List.append_assoc, Dialogue.run_snoc,
      Dialogue.run_asked ha (fun y hy => hb y (List.mem_append_left _ hy)) h hm,
      Dialogue.feed_asked, hready]
    rfl

/-- What each stage of the dialogue says of the bytes that led there. -/
theorem Dialogue.run_tells (chunks : List Bytes) : match Dialogue.run chunks with
    | .greeted t => t = chunks.flatten
    | .asked t => ∃ a b, chunks = a ++ b ∧ a.flatten = [5, 0] ∧ b.flatten = t
    | .ready => ∃ a b, chunks = a ++ b ∧ a.flatten = [5, 0] ∧ ConnectReply b.flatten
    | .failed => True := by
  induction chunks using List.reverseRecOn with
  | nil => rfl
  | append_singleton chunks x ih =>
    rw [Dialogue.run_snoc]
    cases hd : Dialogue.run chunks with
    | greeted t =>
      rw [hd] at ih
      have ht : t ++ x = (chunks ++ [x]).flatten := by
        rw [flatten_snoc]
        exact congrArg (· ++ x) ih
      rw [Dialogue.feed_greeted]
      split_ifs with hshort hall
      · exact ht
      · exact ⟨chunks ++ [x], [], (List.append_nil _).symm, ht.symm.trans hall, rfl⟩
      · trivial
    | asked t =>
      rw [hd] at ih
      obtain ⟨a, b, rfl, ha, rfl⟩ := ih
      have hsplit : a ++ b ++ [x] = a ++ (b ++ [x]) := List.append_assoc _ _ _
      rw [Dialogue.feed_asked]
      cases hv : connectVerdict (b.flatten ++ x) with
      | pending n => exact ⟨a, b ++ [x], hsplit, ha, flatten_snoc b x⟩
      | ready =>
        refine ⟨a, b ++ [x], hsplit, ha, ?_⟩
        rw [flatten_snoc]
        exact connectVerdict_ready.mp hv
      | failed => trivial
    | ready => trivial
    | failed => trivial

theorem Dialogue.sends_iff (chunks : List Bytes) (hx : x ≠ []) :
    (Dialogue.run chunks).sends x ↔ (chunks ++ [x]).flatten = [5, 0] := by
  rw [flatten_snoc]
  constructor
  · intro hs
    have htells := Dialogue.run_tells chunks
    cases hd : Dialogue.run chunks with
    | greeted t =>
      rw [hd] at htells hs
      have ht : t = chunks.flatten := htells
      rw [← ht]
      exact hs
    | asked t =>
      rw [hd] at hs
      exact hs.elim
    | ready =>
      rw [hd] at hs
      exact hs.elim
    | failed =>
      rw [hd] at hs
      exact hs.elim
  · intro hall
    have hpos := List.length_pos_of_ne_nil hx
    have hlen := congrArg List.length hall
    rw [List.length_append, List.length_cons, List.length_singleton] at hlen
    rw [Dialogue.run_greeted (by omega)]
    exact hall

theorem answers_snoc (chunks : List Bytes) (x : Bytes) :
    Answers (chunks ++ [x]) ↔ Answers chunks ∨ (chunks ++ [x]).flatten = [5, 0] := by
  constructor
  · rintro ⟨a, b, hab, ha⟩
    obtain rfl | ⟨b, y, rfl⟩ := b.eq_nil_or_concat
    · rw [List.append_nil] at hab
      exact .inr (hab ▸ ha)
    · rw [List.concat_eq_append, ← List.append_assoc] at hab
      exact .inl ⟨a, b, (List.append_inj' hab rfl).1, ha⟩
  · rintro (⟨a, b, rfl, ha⟩ | hall)
    · exact ⟨a, b ++ [x], List.append_assoc _ _ _, ha⟩
    · exact ⟨_, [], (List.append_nil _).symm, hall⟩

/-- The greeting is answered once. -/
theorem Answers.once (h : Answers chunks) (hx : x ≠ []) : (chunks ++ [x]).flatten ≠ [5, 0] := by
  obtain ⟨a, b, rfl, ha⟩ := h
  intro hall
  have hpos := List.length_pos_of_ne_nil hx
  have hlen := congrArg List.length hall
  rw [flatten_snoc, List.flatten_append, ha, List.length_append, List.length_append] at hlen
  simp only [List.length_cons, List.length_nil] at hlen
  omega

end Running

section Client

variable {c : Socks5Client} {host : Bytes} {port : UInt16} {capacity : Nat}

theorem socks5Init_represents (h : socks5Init host port = some c) :
    Represents host port c (.greeted []) ∧ host.length < 256 ∧ c.response = [] := by
  unfold socks5Init at h
  split at h
  next => cases h
  next =>
    split at h
    next => cases h
    next hlen =>
      split at h
      next => cases h
      next =>
        obtain rfl := Option.some.inj h
        exact ⟨@Represents.greeted host port ⟨.method, [], 2, port, host, .none⟩ rfl rfl rfl rfl
            (show 0 < 2 by decide),
          Nat.not_le.mp fun hle => hlen (.inr hle), rfl⟩

/-- A row of calls moves the client as the bytes move the dialogue. -/
theorem socks5Run_represents (h : Represents host port c (.greeted [])) (hhost : host.length < 256)
    {calls : List (Bytes × Nat)} (hcalls : ∀ x ∈ calls, x.1 ≠ [] ∧ socksResponseMax ≤ x.2) :
    Represents host port (socks5Run c calls).client (Dialogue.run (calls.map Prod.fst)) ∧
      (Answers (calls.map Prod.fst) → (socks5Run c calls).requests = [connectRequest host port]) ∧
      (¬ Answers (calls.map Prod.fst) → (socks5Run c calls).requests = []) := by
  induction calls using List.reverseRecOn with
  | nil =>
    refine ⟨h, ?_, fun _ => rfl⟩
    rintro ⟨a, b, hab, ha⟩
    obtain ⟨rfl, -⟩ := List.append_eq_nil_iff.mp hab.symm
    cases ha
  | append_singleton calls call ih =>
    obtain ⟨hr, hasked, hquiet⟩ := ih fun y hy => hcalls y (List.mem_append_left _ hy)
    obtain ⟨hne, hroom⟩ := hcalls call (by simp)
    have hmax : socksResponseMax = 263 := rfl
    obtain ⟨hnext, hsends, houtput⟩ := @Represents.feed _ _ _ _ call.2 _ hr hne (by omega)
    have hmap : (calls ++ [call]).map Prod.fst = calls.map Prod.fst ++ [call.1] := by simp
    have hstep : socks5Run c (calls ++ [call]) = (socks5Run c calls).feed call := by
      rw [socks5Run, socks5Run, List.foldl_append]
      rfl
    have hrequests : (socks5Run c (calls ++ [call])).requests = (socks5Run c calls).requests ++
        if (socks5Feed (socks5Run c calls).client call.1 call.2).action = .sendConnect then
          [(socks5Feed (socks5Run c calls).client call.1 call.2).output] else [] := by
      rw [hstep]
      rfl
    rw [Dialogue.sends_iff _ hne] at hsends
    rw [hmap, Dialogue.run_snoc, answers_snoc, hrequests]
    refine ⟨?_, ?_, ?_⟩
    · rw [hstep]
      exact hnext
    · rintro (hbefore | hnow)
      · rw [hasked hbefore, if_neg fun hc => hbefore.once hne (hsends.mp hc), List.append_nil]
      · rw [hquiet fun hbefore => hbefore.once hne hnow, if_pos (hsends.mpr hnow), houtput (hsends.mpr hnow),
          List.nil_append]
    · intro hno
      rw [hquiet fun hbefore => hno (.inl hbefore), if_neg fun hc => hno (.inr (hsends.mp hc)), List.nil_append]

/-- The request names the target: the length of the host in an octet, the host, the port with its high byte ahead. -/
theorem connectRequest_eq (hhost : host.length < 256) (port : UInt16) : ∃ l hi lo : UInt8,
    l.toNat = host.length ∧ 256 * hi.toNat + lo.toNat = port.toNat ∧
      connectRequest host port = [5, 1, 0, 3, l] ++ host ++ [hi, lo] := by
  have hport := port.toNat_lt
  have hhigh : (port >>> 8).toUInt8.toNat = port.toNat / 256 := by
    rw [UInt16.toNat_toUInt8, UInt16.toNat_shiftRight, Nat.shiftRight_eq_div_pow]
    exact Nat.mod_eq_of_lt (by show port.toNat / 2 ^ 8 < 2 ^ 8; omega)
  have hlow : port.toUInt8.toNat = port.toNat % 256 := UInt16.toNat_toUInt8 port
  refine ⟨UInt8.ofNat host.length, (port >>> 8).toUInt8, port.toUInt8, ?_, ?_, rfl⟩
  · exact UInt8.toNat_ofNat_of_lt' hhost
  · rw [hhigh, hlow]
    omega

theorem methodComplete_length (h : c.response.length ≤ socksResponseMax) :
    (methodComplete c capacity).1.response.length ≤ socksResponseMax := by
  unfold methodComplete
  split_ifs
  · exact h
  · exact h
  · exact h
  · exact Nat.zero_le _

theorem connectHeader_response (c : Socks5Client) : (connectHeader c).1.response = c.response := by
  unfold connectHeader
  split_ifs
  · rfl
  · rfl
  · rfl
  · rfl
  · rfl
  · rfl

theorem connectDomain_response (c : Socks5Client) : (connectDomain c).1.response = c.response := by
  unfold connectDomain
  dsimp only
  split_ifs
  · rfl
  · rfl
  · rfl

/-- No byte is written behind the buffer. -/
theorem socksLoop_length (h : c.response.length ≤ socksResponseMax) (x : Bytes) :
    (socksLoop capacity c x).1.response.length ≤ socksResponseMax := by
  induction x generalizing c with
  | nil => exact h
  | cons b rest ih =>
    unfold socksLoop
    split
    next => exact h
    next hroom =>
      have hnext : (c.response ++ [b]).length ≤ socksResponseMax := by
        rw [List.length_append, List.length_singleton]
        omega
      dsimp only
      split
      next => exact ih hnext
      next =>
        split
        next =>
          have hm := @methodComplete_length { c with response := c.response ++ [b] } capacity hnext
          split_ifs
          · exact hm
          · exact hm
        next =>
          have hheader : (if c.responseNeeded = 4 then connectHeader { c with response := c.response ++ [b] }
              else ({ c with response := c.response ++ [b] }, none)).1.response = c.response ++ [b] := by
            split
            next => exact connectHeader_response _
            next => rfl
          generalize (if c.responseNeeded = 4 then connectHeader { c with response := c.response ++ [b] }
              else ({ c with response := c.response ++ [b] }, none)) = r at hheader
          obtain ⟨c', error⟩ := r
          have hheld : c'.response.length ≤ socksResponseMax := (congrArg List.length hheader).trans_le hnext
          cases error with
          | some error => exact hheld
          | none =>
            have hdomain := (congrArg List.length (connectDomain_response c')).trans_le hheld
            dsimp only
            generalize connectDomain c' = r at hdomain
            obtain ⟨c'', error⟩ := r
            cases error with
            | some error => exact hdomain
            | none =>
              dsimp only
              split_ifs
              · exact hdomain
              · exact hdomain
              · exact ih hdomain

theorem socks5Feed_length (h : c.response.length ≤ socksResponseMax) (x : Bytes) :
    (socks5Feed c x capacity).client.response.length ≤ socksResponseMax := by
  unfold socks5Feed
  split_ifs
  · exact h
  · exact h
  · exact h
  · exact socksLoop_length h x

theorem socks5Run_length (h : c.response.length ≤ socksResponseMax) (calls : List (Bytes × Nat)) :
    (socks5Run c calls).client.response.length ≤ socksResponseMax := by
  induction calls using List.reverseRecOn with
  | nil => exact h
  | append_singleton calls call ih =>
    rw [socks5Run, List.foldl_append]
    exact socks5Feed_length ih call.1

theorem failed_stays {r : Socks5Run} (h : r.client.phase = .failed) (calls : List (Bytes × Nat)) :
    (calls.foldl Socks5Run.feed r).client.phase = .failed := by
  induction calls generalizing r with
  | nil => exact h
  | cons call calls ih =>
    refine ih ?_
    show (socks5Feed r.client call.1 call.2).client.phase = .failed
    unfold socks5Feed
    rw [if_neg (by rw [h]; decide), if_pos h]
    exact h

end Client

/-- The dialogue of a client with any server, in any pieces: when it ends well, what is asked for, and what a failure
or a long answer leaves. -/
theorem socks5_dialogue {host : Bytes} {port : UInt16} {c : Socks5Client} (hinit : socks5Init host port = some c)
    {calls : List (Bytes × Nat)} (hcalls : ∀ x ∈ calls, x.1 ≠ [] ∧ socksResponseMax ≤ x.2) :
    ((socks5Run c calls).client.phase = .ready ↔
      ∃ a b, calls.map Prod.fst = a ++ b ∧ a.flatten = [5, 0] ∧ ConnectReply b.flatten) ∧
    ((∃ a b, calls.map Prod.fst = a ++ b ∧ a.flatten = [5, 0]) →
      ∃ l hi lo : UInt8, l.toNat = host.length ∧ 256 * hi.toNat + lo.toNat = port.toNat ∧
        (socks5Run c calls).requests = [[5, 1, 0, 3, l] ++ host ++ [hi, lo]]) ∧
    ((¬ ∃ a b, calls.map Prod.fst = a ++ b ∧ a.flatten = [5, 0]) → (socks5Run c calls).requests = []) ∧
    ((socks5Run c calls).client.phase = .failed → ∀ more, (socks5Run c (calls ++ more)).client.phase = .failed) ∧
    (socks5Run c calls).client.response.length ≤ socksResponseMax := by
  obtain ⟨hstart, hhost, hempty⟩ := socks5Init_represents hinit
  obtain ⟨hr, hasked, hquiet⟩ := socks5Run_represents hstart hhost hcalls
  obtain ⟨l, hi, lo, hl, hport, hrequest⟩ := connectRequest_eq hhost port
  refine ⟨⟨fun hready => ?_, ?_⟩, fun h => ⟨l, hi, lo, hl, hport, (hasked h).trans (congrArg (fun r => [r]) hrequest)⟩,
    hquiet, fun hf more => ?_, ?_⟩
  · have htells := Dialogue.run_tells (calls.map Prod.fst)
    generalize Dialogue.run (calls.map Prod.fst) = d at hr htells
    cases hr with
    | greeted hp => exact absurd (hp.symm.trans hready) (by decide)
    | asked hw => exact absurd (hw.phase.symm.trans hready) (by decide)
    | ready => exact htells
    | failed hp => exact absurd (hp.symm.trans hready) (by decide)
  · rintro ⟨a, b, hab, ha, hb⟩
    have hne : ∀ x ∈ calls.map Prod.fst, x ≠ [] := by
      intro x hx
      obtain ⟨call, hcall, rfl⟩ := List.mem_map.mp hx
      exact (hcalls call hcall).1
    rw [hab] at hne hr
    rw [Dialogue.run_ready (fun x hx => hne x (List.mem_append_left _ hx))
      (fun x hx => hne x (List.mem_append_right _ hx)) ha hb] at hr
    cases hr with
    | ready hp => exact hp
  · rw [socks5Run, List.foldl_append]
    exact failed_stays hf more
  · exact socks5Run_length (by rw [hempty]; exact Nat.zero_le _) calls

/-- A proxy that answers in pieces, with a domain name of one letter. -/
theorem socks5_dialogue_pieces : ∃ c, socks5Init [0x61] 443 = some c ∧
    (socks5Run c [([5], 263), ([0], 263), ([5, 0, 0, 3], 263), ([1, 0x62, 1, 0xbb], 300)]).client.phase = .ready := by
  obtain ⟨c, hc⟩ : ∃ c, socks5Init [0x61] 443 = some c := ⟨_, rfl⟩
  refine ⟨c, hc, (socks5_dialogue hc ?_).1.mpr
    ⟨[[5], [0]], [[5, 0, 0, 3], [1, 0x62, 1, 0xbb]], rfl, rfl, .domain 1 [0x62, 1, 0xbb] (by decide) rfl⟩⟩
  intro x hx
  simp only [List.mem_cons, List.not_mem_nil, or_false] at hx
  obtain rfl | rfl | rfl | rfl := hx
  · exact ⟨by decide, by decide⟩
  · exact ⟨by decide, by decide⟩
  · exact ⟨by decide, by decide⟩
  · exact ⟨by decide, by decide⟩

end Qanat

import Qanat.TlsTypes
import Qanat.General.Reads
import Mathlib.Tactic.Common
import Mathlib.Data.List.Basic

namespace Qanat

/-- The answers of `qn_tls_classify` among those of `qn_tls_outcome`. -/
inductive TlsOutcome
  | serverhello | alert | silence | garbage
  deriving DecidableEq

open Reads (be16 be24)

section Classify

variable (buf : Bytes)

/-- The loop over the extensions: whether it reaches their end. Here and below the outer `none` is a read past the end
of the buffer. -/
def classifyExts (fin pos : Nat) : Option Bool :=
  if pos < fin then
    if fin - pos < 4 then some false
    else do
      let hi ← buf[pos + 2]?
      let lo ← buf[pos + 3]?
      if fin - (pos + 4) < be16 hi lo then some false else classifyExts fin (pos + 4 + be16 hi lo)
  else some true
termination_by fin - pos

/-- What follows the compression method at `off`, in a message that ends at `fin`. -/
def classifyTail (fin off : Nat) : Option Bool :=
  if fin - off = 0 then some true
  else if fin - off < 2 then some false
  else do
    let hi ← buf[off]?
    let lo ← buf[off + 1]?
    if be16 hi lo + 2 ≠ fin - off then some false else classifyExts buf (off + 2 + be16 hi lo) (off + 2)

/-- The ServerHello from byte 9 to `fin`. -/
def classifyHello (fin : Nat) : Option Bool := do
  let major ← buf[9]?
  if major ≠ 3 then some false
  else do
    let minor ← buf[9 + 1]?
    if minor < 1 ∨ 3 < minor then some false
    else if fin ≤ 9 + 34 then some false
    else do
      let sid ← buf[9 + 34]?
      if 32 < sid then some false
      else
        let off := 9 + 34 + (1 + sid.toNat)
        if fin < off + 3 then some false
        else do
          let s₁ ← buf[off]?
          let s₂ ← buf[off + 1]?
          let comp ← buf[off + 2]?
          if (s₁ = 0 ∧ s₂ = 0) ∨ (s₁ = 0 ∧ s₂ = 0xFF) ∨ comp ≠ 0 then some false
          else classifyTail buf fin (off + 3)

/-- The handshake record. -/
def classifyHandshake (recordLen : Nat) : Option Bool :=
  if recordLen < 42 then some false
  else do
    let typ ← buf[5]?
    if typ ≠ 2 then some false
    else do
      let h₁ ← buf[6]?
      let h₂ ← buf[7]?
      let h₃ ← buf[8]?
      if be24 h₁ h₂ h₃ < 38 ∨ recordLen < be24 h₁ h₂ h₃ + 4 ∨ buf.length < 9 + be24 h₁ h₂ h₃ then some false
      else classifyHello buf (9 + be24 h₁ h₂ h₃)

/-- The loop over the alerts. -/
def classifyAlerts (fin pos : Nat) : Option Bool :=
  if pos < fin then do
    let level ← buf[pos]?
    if level ≠ 1 ∧ level ≠ 2 then some false else classifyAlerts fin (pos + 2)
  else some true
termination_by fin - pos

/-- `qn_tls_classify`. -/
def tlsClassify : Option TlsOutcome :=
  if buf.length = 0 then some .silence
  else if buf.length < 5 then some .garbage
  else do
    let major ← buf[1]?
    if major ≠ 3 then some .garbage
    else do
      let minor ← buf[2]?
      if minor < 1 ∨ 4 < minor then some .garbage
      else do
        let hi ← buf[3]?
        let lo ← buf[4]?
        let recordLen := be16 hi lo
        if recordLen = 0 ∨ 16640 < recordLen ∨ buf.length < 5 + recordLen then some .garbage
        else do
          let typ ← buf[0]?
          if typ = 0x16 then
            let ok ← classifyHandshake buf recordLen
            some (if ok then .serverhello else .garbage)
          else if typ = 0x15 then
            if recordLen % 2 ≠ 0 then some .garbage
            else do
              let ok ← classifyAlerts buf (5 + recordLen) 5
              some (if ok then .alert else .garbage)
          else some .garbage

end Classify

section Format

/-- Extensions whose lengths nest. -/
inductive ExtItems : Bytes → Prop
  | nil : ExtItems []
  | cons (t₁ t₂ hi lo : UInt8) (data rest : Bytes) : data.length = be16 hi lo → ExtItems rest →
    ExtItems (t₁ :: t₂ :: hi :: lo :: (data ++ rest))

/-- Nothing, or an extensions block whose lengths nest. -/
def ExtBlock (t : Bytes) : Prop :=
  t = [] ∨ ∃ (hi lo : UInt8) (items : Bytes), t = hi :: lo :: items ∧ items.length = be16 hi lo ∧ ExtItems items

/-- The body of a complete ServerHello. -/
def ServerHelloBody (b : Bytes) : Prop :=
  ∃ minor random sidLen sid s₁ s₂ tail, b = 3 :: minor :: (random ++ sidLen :: (sid ++ s₁ :: s₂ :: 0 :: tail)) ∧
    1 ≤ minor ∧ minor ≤ 3 ∧ random.length = 32 ∧ sid.length = sidLen.toNat ∧ sid.length ≤ 32 ∧
    ¬(s₁ = 0 ∧ (s₂ = 0 ∨ s₂ = 0xFF)) ∧ ExtBlock tail

/-- The bytes start with one complete record, of version 3.1 to 3.4. -/
def StartsRecord (typ : UInt8) (payload buf : Bytes) : Prop :=
  ∃ minor hi lo rest, buf = typ :: 3 :: minor :: hi :: lo :: (payload ++ rest) ∧ 1 ≤ minor ∧ minor ≤ 4 ∧
    payload.length = be16 hi lo ∧ payload.length ≤ 16640

/-- The first message of a record is a complete ServerHello. -/
def ServerHelloFirst (payload : Bytes) : Prop :=
  ∃ h₁ h₂ h₃ body rest, payload = 2 :: h₁ :: h₂ :: h₃ :: (body ++ rest) ∧
    body.length = be24 h₁ h₂ h₃ ∧ ServerHelloBody body

def StartsServerHello (buf : Bytes) : Prop :=
  ∃ payload, StartsRecord 0x16 payload buf ∧ ServerHelloFirst payload

/-- Every level is a warning or fatal. -/
def AlertLevels (payload : Bytes) : Prop :=
  ∀ i, 2 * i < payload.length → payload[2 * i]? = some 1 ∨ payload[2 * i]? = some 2

def StartsAlert (buf : Bytes) : Prop :=
  ∃ payload, StartsRecord 0x15 payload buf ∧ 0 < payload.length ∧ payload.length % 2 = 0 ∧ AlertLevels payload

end Format

section Exact

/-- What a test says of a property; it does not read past the end. -/
def Decides (r : Option Bool) (P : Prop) : Prop :=
  ∃ ok, r = some ok ∧ (ok = true ↔ P)

theorem decides_true {P : Prop} (h : P) : Decides (some true) P :=
  ⟨true, rfl, fun _ => h, fun _ => rfl⟩

theorem decides_false {P : Prop} (h : ¬P) : Decides (some false) P :=
  ⟨false, rfl, fun he => absurd he (by decide), fun hp => absurd hp h⟩

theorem Decides.congr {r : Option Bool} {P Q : Prop} (h : Decides r P) (hpq : P ↔ Q) : Decides r Q := by
  obtain ⟨ok, hr, hok⟩ := h
  exact ⟨ok, hr, hok.trans hpq⟩

theorem extItems_cons {t₁ t₂ hi lo : UInt8} {rest : Bytes} :
    ExtItems (t₁ :: t₂ :: hi :: lo :: rest) ↔ be16 hi lo ≤ rest.length ∧ ExtItems (rest.drop (be16 hi lo)) := by
  constructor
  · intro h
    generalize hs : t₁ :: t₂ :: hi :: lo :: rest = s at h
    cases h with
    | nil => cases hs
    | cons _ _ _ _ data tail hlen htail =>
      cases hs
      rw [← hlen, List.length_append, List.drop_left]
      exact ⟨Nat.le_add_right _ _, htail⟩
  · rintro ⟨hle, htail⟩
    rw [← List.take_append_drop (be16 hi lo) rest]
    exact .cons _ _ _ _ _ _ (List.length_take_of_le hle) htail

theorem extItems_length {s : Bytes} (h : ExtItems s) : s = [] ∨ 4 ≤ s.length := by
  cases h with
  | nil => exact .inl rfl
  | cons _ _ _ _ data rest _ _ => exact .inr (by simp only [List.length_cons]; omega)

theorem classifyExts_exact (pre seg post : Bytes) :
    Decides (classifyExts (pre ++ (seg ++ post)) (pre.length + seg.length) pre.length) (ExtItems seg) := by
  induction hn : seg.length using Nat.strong_induction_on generalizing pre seg with
  | _ n ih =>
    subst hn
    rw [classifyExts]
    by_cases hempty : seg = []
    · subst hempty
      rw [if_neg (by simp)]
      exact decides_true .nil
    have hpos := List.length_pos_iff.mpr hempty
    rw [if_pos (by omega), Nat.add_sub_cancel_left]
    by_cases hshort : seg.length < 4
    · rw [if_pos hshort]
      refine decides_false fun h => ?_
      obtain h | h := extItems_length h
      · exact hempty h
      · omega
    rw [if_neg hshort]
    obtain ⟨t₁, t₂, hi, lo, rest, rfl⟩ : ∃ t₁ t₂ hi lo rest, seg = t₁ :: t₂ :: hi :: lo :: rest := by
      match seg, hshort with
      | t₁ :: t₂ :: hi :: lo :: rest, _ => exact ⟨t₁, t₂, hi, lo, rest, rfl⟩
      | [_, _, _], h => exact absurd (by decide : 3 < 4) h
      | [_, _], h => exact absurd (by decide : 2 < 4) h
      | [_], h => exact absurd (by decide : 1 < 4) h
      | [], h => exact absurd (by decide : 0 < 4) h
    rw [Reads.behind, Reads.behind]
    change Decides (if _ then _ else _) _
    have hroom : pre.length + (t₁ :: t₂ :: hi :: lo :: rest).length - (pre.length + 4) = rest.length := by
      simp only [List.length_cons]
      omega
    rw [hroom]
    by_cases hlong : rest.length < be16 hi lo
    · rw [if_pos hlong]
      exact decides_false fun h => absurd (extItems_cons.mp h).1 (Nat.not_le.mpr hlong)
    rw [if_neg hlong]
    have hle := Nat.not_lt.mp hlong
    have hrest := ih (rest.drop (be16 hi lo)).length (by simp only [List.length_drop, List.length_cons]; omega)
      (pre ++ t₁ :: t₂ :: hi :: lo :: rest.take (be16 hi lo)) (rest.drop (be16 hi lo)) rfl
    have hbuf : pre ++ t₁ :: t₂ :: hi :: lo :: rest.take (be16 hi lo) ++ (rest.drop (be16 hi lo) ++ post) =
        pre ++ (t₁ :: t₂ :: hi :: lo :: rest ++ post) := by
      rw [← List.append_assoc _ (rest.drop _), List.append_assoc pre, List.append_assoc]
      simp only [List.cons_append, List.take_append_drop]
    have hpre : (pre ++ t₁ :: t₂ :: hi :: lo :: rest.take (be16 hi lo)).length = pre.length + 4 + be16 hi lo := by
      simp only [List.length_append, List.length_cons, List.length_take, Nat.min_eq_left hle]
      omega
    have hfin : pre.length + 4 + be16 hi lo + (rest.drop (be16 hi lo)).length =
        pre.length + (t₁ :: t₂ :: hi :: lo :: rest).length := by
      simp only [List.length_drop, List.length_cons]
      omega
    rw [hbuf, hpre, hfin] at hrest
    exact hrest.congr (by rw [extItems_cons]; exact (and_iff_right hle).symm)

theorem extBlock_cons {hi lo : UInt8} {items : Bytes} :
    ExtBlock (hi :: lo :: items) ↔ items.length = be16 hi lo ∧ ExtItems items := by
  constructor
  · rintro (h | ⟨_, _, _, h, hlen, hitems⟩)
    · cases h
    · cases h
      exact ⟨hlen, hitems⟩
  · rintro ⟨hlen, hitems⟩
    exact .inr ⟨hi, lo, items, rfl, hlen, hitems⟩

theorem classifyTail_exact (pre tail post : Bytes) :
    Decides (classifyTail (pre ++ (tail ++ post)) (pre.length + tail.length) pre.length) (ExtBlock tail) := by
  unfold classifyTail
  rw [Nat.add_sub_cancel_left]
  match tail with
  | [] => exact decides_true (.inl rfl)
  | [b] =>
    refine decides_false ?_
    rintro (h | ⟨_, _, _, h, -⟩) <;> cases h
  | hi :: lo :: items =>
    rw [if_neg (by simp), if_neg (by simp), Reads.behind_zero, Reads.behind]
    change Decides (if _ then _ else _) _
    by_cases hlen : items.length = be16 hi lo
    · rw [if_neg (by simp only [List.length_cons]; omega)]
      have hitems := classifyExts_exact (pre ++ [hi, lo]) items post
      have hbuf : pre ++ [hi, lo] ++ (items ++ post) = pre ++ (hi :: lo :: items ++ post) := by
        simp only [List.append_assoc, List.cons_append, List.nil_append]
      rw [hbuf, List.length_append, hlen] at hitems
      exact hitems.congr (by rw [extBlock_cons]; exact (and_iff_right hlen).symm)
    · rw [if_pos (by simp only [List.length_cons]; omega)]
      exact decides_false fun h => hlen (extBlock_cons.mp h).1

/-- The parts of a body that is long enough up to its session id. -/
theorem serverHelloBody_iff {major minor sidLen s₁ s₂ comp : UInt8} {random sid tail : Bytes}
    (hrandom : random.length = 32) (hsid : sid.length = sidLen.toNat) :
    ServerHelloBody (major :: minor :: (random ++ sidLen :: (sid ++ s₁ :: s₂ :: comp :: tail))) ↔
      major = 3 ∧ (1 ≤ minor ∧ minor ≤ 3) ∧ sidLen ≤ 32 ∧ (¬(s₁ = 0 ∧ (s₂ = 0 ∨ s₂ = 0xFF)) ∧ comp = 0) ∧
        ExtBlock tail := by
  constructor
  · rintro ⟨minor', random', sidLen', sid', s₁', s₂', tail', heq, hlo, hhi, hrandom', hsid', hle, hsuite, htail⟩
    injection heq with hmajor heq
    injection heq with hminor heq
    subst hmajor hminor
    obtain ⟨-, hbehind⟩ := List.append_inj heq (hrandom.trans hrandom'.symm)
    injection hbehind with hsidLen hsession
    subst hsidLen
    obtain ⟨-, hsuites⟩ := List.append_inj hsession (hsid.trans hsid'.symm)
    cases hsuites
    rw [hsid'] at hle
    exact ⟨rfl, ⟨hlo, hhi⟩, hle, ⟨hsuite, rfl⟩, htail⟩
  · rintro ⟨rfl, ⟨hlo, hhi⟩, hle, ⟨hsuite, rfl⟩, htail⟩
    exact ⟨minor, random, sidLen, sid, s₁, s₂, tail, rfl, hlo, hhi, hrandom, hsid, hsid ▸ hle, hsuite, htail⟩

theorem serverHelloBody_session {major minor sidLen : UInt8} {random t : Bytes} (hrandom : random.length = 32)
    (h : ServerHelloBody (major :: minor :: (random ++ sidLen :: t))) :
    major = 3 ∧ (1 ≤ minor ∧ minor ≤ 3) ∧ sidLen ≤ 32 ∧ sidLen.toNat + 3 ≤ t.length := by
  obtain ⟨minor', random', sidLen', sid', s₁', s₂', tail', heq, hlo, hhi, hrandom', hsid', hle, -⟩ := h
  injection heq with hmajor heq
  injection heq with hminor heq
  subst hmajor hminor
  obtain ⟨-, hbehind⟩ := List.append_inj heq (hrandom.trans hrandom'.symm)
  injection hbehind with hsidLen hsession
  subst hsidLen
  rw [hsid'] at hle
  refine ⟨rfl, ⟨hlo, hhi⟩, hle, ?_⟩
  rw [hsession, List.length_append, hsid']
  simp only [List.length_cons]
  omega

theorem classifyHello_exact {pre : Bytes} (hpre : pre.length = 9) {body : Bytes} (hbody : 38 ≤ body.length)
    (post : Bytes) : Decides (classifyHello (pre ++ (body ++ post)) (9 + body.length)) (ServerHelloBody body) := by
  obtain ⟨major, minor, random, sidLen, t, rfl, hrandom⟩ : ∃ major minor random sidLen t,
      body = major :: minor :: (random ++ sidLen :: t) ∧ random.length = 32 := by
    obtain ⟨major, minor, u, rfl⟩ : ∃ major minor u, body = major :: minor :: u := by
      match body, hbody with
      | major :: minor :: u, _ => exact ⟨major, minor, u, rfl⟩
      | [_], h => exact absurd h (by simp)
      | [], h => exact absurd h (by simp)
    simp only [List.length_cons] at hbody
    obtain ⟨sidLen, t, ht⟩ : ∃ sidLen t, u.drop 32 = sidLen :: t := by
      refine List.exists_cons_of_ne_nil fun hnil => ?_
      have hlen := congrArg List.length hnil
      rw [List.length_drop, List.length_nil] at hlen
      omega
    refine ⟨major, minor, u.take 32, sidLen, t, ?_, List.length_take_of_le (by omega)⟩
    rw [← ht, List.take_append_drop]
  have hat : ∀ k, (pre ++ (major :: minor :: (random ++ sidLen :: t) ++ post))[9 + k]? =
      (major :: minor :: (random ++ sidLen :: (t ++ post)))[k]? := by
    intro k
    rw [← hpre, Reads.behind]
    simp only [List.cons_append, List.append_assoc]
  have hsid : (pre ++ (major :: minor :: (random ++ sidLen :: t) ++ post))[9 + 34]? = some sidLen := by
    rw [hat]
    have hbehind := Reads.behind (major :: minor :: random) (sidLen :: (t ++ post)) 0
    rw [show (major :: minor :: random).length + 0 = 34 by simp only [List.length_cons, hrandom]] at hbehind
    exact hbehind
  have hlen : (major :: minor :: (random ++ sidLen :: t)).length = 35 + t.length := by
    simp only [List.length_cons, List.length_append, hrandom]
    omega
  unfold classifyHello
  rw [show (pre ++ (major :: minor :: (random ++ sidLen :: t) ++ post))[9]? = some major from hat 0,
    show (pre ++ (major :: minor :: (random ++ sidLen :: t) ++ post))[9 + 1]? = some minor from hat 1, hsid]
  change Decides (if _ then _ else if _ then _ else if _ then _ else if _ then _ else _) _
  by_cases hmajor : major ≠ 3
  · rw [if_pos hmajor]
    exact decides_false fun h => hmajor (serverHelloBody_session hrandom h).1
  rw [if_neg hmajor]
  by_cases hminor : minor < 1 ∨ 3 < minor
  · rw [if_pos hminor]
    refine decides_false fun h => ?_
    obtain ⟨hlo, hhi⟩ := (serverHelloBody_session hrandom h).2.1
    exact hminor.elim (fun h => absurd hlo (UInt8.not_le.mpr h)) fun h => absurd hhi (UInt8.not_le.mpr h)
  rw [if_neg hminor, if_neg (by omega)]
  by_cases hlong : 32 < sidLen
  · rw [if_pos hlong]
    exact decides_false fun h => absurd (serverHelloBody_session hrandom h).2.2.1 (UInt8.not_le.mpr hlong)
  rw [if_neg hlong]
  by_cases hroom : t.length < sidLen.toNat + 3
  · rw [if_pos (by omega)]
    refine decides_false fun h => ?_
    have hfits := (serverHelloBody_session hrandom h).2.2.2
    omega
  rw [if_neg (by omega)]
  obtain ⟨sid, s₁, s₂, comp, tail, rfl, hsidLen⟩ : ∃ sid s₁ s₂ comp tail,
      t = sid ++ s₁ :: s₂ :: comp :: tail ∧ sid.length = sidLen.toNat := by
    have hrest : 3 ≤ (t.drop sidLen.toNat).length := by
      rw [List.length_drop]
      omega
    match hdrop : t.drop sidLen.toNat, hrest with
    | s₁ :: s₂ :: comp :: tail, _ =>
      refine ⟨t.take sidLen.toNat, s₁, s₂, comp, tail, ?_, List.length_take_of_le (by omega)⟩
      rw [← hdrop, List.take_append_drop]
    | [_, _], h => exact absurd h (by simp)
    | [_], h => exact absurd h (by simp)
    | [], h => exact absurd h (by simp)
  have hbuf : pre ++ (major :: minor :: (random ++ sidLen :: (sid ++ s₁ :: s₂ :: comp :: tail)) ++ post) =
      (pre ++ major :: minor :: (random ++ sidLen :: sid)) ++ s₁ :: s₂ :: comp :: (tail ++ post) := by
    simp only [List.append_assoc, List.cons_append]
  have hoff : (pre ++ major :: minor :: (random ++ sidLen :: sid)).length = 9 + 34 + (1 + sidLen.toNat) := by
    simp only [List.length_append, List.length_cons, hpre, hrandom, hsidLen]
    omega
  rw [hbuf, ← hoff, Reads.behind_zero, Reads.behind, Reads.behind]
  change Decides (if _ then _ else _) _
  by_cases hsuite : (s₁ = 0 ∧ s₂ = 0) ∨ (s₁ = 0 ∧ s₂ = 0xFF) ∨ comp ≠ 0
  · rw [if_pos hsuite]
    refine decides_false fun h => ?_
    obtain ⟨-, -, -, ⟨hno, hcomp⟩, -⟩ := (serverHelloBody_iff hrandom hsidLen).mp h
    obtain ⟨h₁, h₂⟩ | ⟨h₁, h₂⟩ | h₃ := hsuite
    · exact hno ⟨h₁, .inl h₂⟩
    · exact hno ⟨h₁, .inr h₂⟩
    · exact h₃ hcomp
  rw [if_neg hsuite]
  have htail := classifyTail_exact (pre ++ major :: minor :: (random ++ sidLen :: sid) ++ [s₁, s₂, comp]) tail post
  rw [List.append_assoc _ [s₁, s₂, comp],
    @List.length_append _ (pre ++ major :: minor :: (random ++ sidLen :: sid)) [s₁, s₂, comp]] at htail
  have hfin : (pre ++ major :: minor :: (random ++ sidLen :: sid)).length + [s₁, s₂, comp].length + tail.length =
      9 + (major :: minor :: (random ++ sidLen :: (sid ++ s₁ :: s₂ :: comp :: tail))).length := by
    rw [hoff]
    simp only [List.length_cons, List.length_append, List.length_nil, hrandom, hsidLen]
    omega
  rw [hfin] at htail
  refine htail.congr ?_
  rw [serverHelloBody_iff hrandom hsidLen]
  rw [not_or, UInt8.not_lt, UInt8.not_lt] at hminor
  refine ⟨fun h => ⟨not_not.mp hmajor, hminor, UInt8.not_lt.mp hlong, ⟨?_, ?_⟩, h⟩, fun h => h.2.2.2.2⟩
  · rintro ⟨h₁, h₂ | h₂⟩
    · exact hsuite (.inl ⟨h₁, h₂⟩)
    · exact hsuite (.inr (.inl ⟨h₁, h₂⟩))
  · exact not_not.mp fun h => hsuite (.inr (.inr h))

theorem serverHelloBody_length {b : Bytes} (h : ServerHelloBody b) : 38 ≤ b.length := by
  obtain ⟨minor, random, sidLen, sid, s₁, s₂, tail, rfl, -, -, hrandom, -⟩ := h
  simp only [List.length_cons, List.length_append, hrandom]
  omega

theorem serverHelloFirst_iff {typ h₁ h₂ h₃ : UInt8} {u : Bytes} :
    ServerHelloFirst (typ :: h₁ :: h₂ :: h₃ :: u) ↔
      typ = 2 ∧ be24 h₁ h₂ h₃ ≤ u.length ∧
        ServerHelloBody (u.take (be24 h₁ h₂ h₃)) := by
  constructor
  · rintro ⟨h₁', h₂', h₃', body, rest, heq, hlen, hbody⟩
    cases heq
    rw [← hlen, List.take_left, List.length_append]
    exact ⟨rfl, Nat.le_add_right _ _, hbody⟩
  · rintro ⟨rfl, hle, hbody⟩
    refine ⟨h₁, h₂, h₃, u.take (be24 h₁ h₂ h₃), u.drop (be24 h₁ h₂ h₃), ?_,
      List.length_take_of_le hle, hbody⟩
    rw [List.take_append_drop]

theorem classifyHandshake_exact {pre : Bytes} (hpre : pre.length = 5) (payload post : Bytes) :
    Decides (classifyHandshake (pre ++ (payload ++ post)) payload.length) (ServerHelloFirst payload) := by
  unfold classifyHandshake
  by_cases hshort : payload.length < 42
  · rw [if_pos hshort]
    refine decides_false ?_
    rintro ⟨h₁, h₂, h₃, body, rest, rfl, -, hbody⟩
    have hlen := serverHelloBody_length hbody
    simp only [List.length_cons, List.length_append] at hshort
    omega
  rw [if_neg hshort]
  obtain ⟨typ, h₁, h₂, h₃, u, rfl⟩ : ∃ typ h₁ h₂ h₃ u, payload = typ :: h₁ :: h₂ :: h₃ :: u := by
    match payload, hshort with
    | typ :: h₁ :: h₂ :: h₃ :: u, _ => exact ⟨typ, h₁, h₂, h₃, u, rfl⟩
    | [_, _, _], h => exact absurd (by simp) h
    | [_, _], h => exact absurd (by simp) h
    | [_], h => exact absurd (by simp) h
    | [], h => exact absurd (by simp) h
  have hat : ∀ i k c, i = 5 + k → (typ :: h₁ :: h₂ :: h₃ :: (u ++ post))[k]? = some c →
      (pre ++ (typ :: h₁ :: h₂ :: h₃ :: u ++ post))[i]? = some c := by
    rintro _ k c rfl hc
    rw [← hpre, Reads.behind]
    exact hc
  rw [Reads.bind_of_some (hat 5 0 typ rfl rfl)]
  by_cases htyp : typ ≠ 2
  · rw [if_pos htyp]
    exact decides_false fun h => htyp (serverHelloFirst_iff.mp h).1
  rw [if_neg htyp, Reads.bind_of_some (hat 6 1 h₁ rfl rfl), Reads.bind_of_some (hat 7 2 h₂ rfl rfl),
    Reads.bind_of_some (hat 8 3 h₃ rfl rfl)]
  have hlen : (pre ++ (typ :: h₁ :: h₂ :: h₃ :: u ++ post)).length = 9 + u.length + post.length := by
    simp only [List.length_append, List.length_cons, hpre]
    omega
  rw [hlen, List.length_cons, List.length_cons, List.length_cons, List.length_cons]
  obtain ⟨n, hn⟩ : ∃ n, be24 h₁ h₂ h₃ = n := ⟨_, rfl⟩
  rw [hn]
  by_cases hbad : n < 38 ∨ u.length + 1 + 1 + 1 + 1 < n + 4 ∨ 9 + u.length + post.length < 9 + n
  · rw [if_pos hbad]
    refine decides_false fun h => ?_
    obtain ⟨-, hle, hbody⟩ := serverHelloFirst_iff.mp h
    have hlong := serverHelloBody_length hbody
    rw [List.length_take_of_le hle] at hlong
    omega
  rw [if_neg hbad]
  have hle : n ≤ u.length := by omega
  have htake : (u.take n).length = n := List.length_take_of_le hle
  have hpre₉ : (pre ++ [typ, h₁, h₂, h₃]).length = 9 := by
    rw [List.length_append, hpre]
    rfl
  have hhello := classifyHello_exact hpre₉ (by omega : 38 ≤ (u.take n).length) (u.drop n ++ post)
  have hbuf : pre ++ [typ, h₁, h₂, h₃] ++ (u.take n ++ (u.drop n ++ post)) =
      pre ++ (typ :: h₁ :: h₂ :: h₃ :: u ++ post) := by
    rw [← List.append_assoc (u.take n), List.take_append_drop, List.append_assoc]
    rfl
  rw [hbuf, htake] at hhello
  refine hhello.congr ?_
  rw [serverHelloFirst_iff, hn]
  exact ⟨fun h => ⟨not_not.mp htyp, hle, h⟩, fun h => h.2.2⟩

theorem alertLevels_cons {level desc : UInt8} {rest : Bytes} :
    AlertLevels (level :: desc :: rest) ↔ (level = 1 ∨ level = 2) ∧ AlertLevels rest := by
  constructor
  · intro h
    refine ⟨?_, fun i hi => ?_⟩
    · have hfirst := h 0 (by simp)
      rwa [Nat.mul_zero, List.getElem?_cons_zero, Option.some_inj, Option.some_inj] at hfirst
    · exact h (i + 1) (by simp only [List.length_cons]; omega)
  · rintro ⟨hlevel, hrest⟩ i hi
    cases i with
    | zero => exact hlevel.imp (congrArg some) (congrArg some)
    | succ i => exact hrest i (by simp only [List.length_cons] at hi; omega)

theorem classifyAlerts_exact (pre payload post : Bytes) (heven : payload.length % 2 = 0) :
    Decides (classifyAlerts (pre ++ (payload ++ post)) (pre.length + payload.length) pre.length)
      (AlertLevels payload) := by
  induction hn : payload.length using Nat.strong_induction_on generalizing pre payload with
  | _ n ih =>
    subst hn
    rw [classifyAlerts]
    match payload, heven with
    | [], _ =>
      rw [if_neg (by simp)]
      exact decides_true fun i hi => absurd hi (by simp)
    | [_], h => exact absurd h (by simp)
    | level :: desc :: rest, heven =>
      rw [if_pos (by simp), Reads.behind_zero]
      change Decides (if _ then _ else _) _
      by_cases hlevel : level ≠ 1 ∧ level ≠ 2
      · rw [if_pos hlevel]
        refine decides_false fun h => ?_
        exact (alertLevels_cons.mp h).1.elim hlevel.1 hlevel.2
      rw [if_neg hlevel]
      have hrest := ih rest.length (by simp only [List.length_cons]; omega) (pre ++ [level, desc]) rest
        (by simp only [List.length_cons] at heven; omega) rfl
      have hbuf : pre ++ [level, desc] ++ (rest ++ post) = pre ++ (level :: desc :: rest ++ post) := by
        rw [List.append_assoc]
        rfl
      have hfin : (pre ++ [level, desc]).length + rest.length = pre.length + (level :: desc :: rest).length := by
        simp only [List.length_append, List.length_cons, List.length_nil]
        omega
      rw [hbuf, hfin, List.length_append] at hrest
      refine hrest.congr ?_
      rw [alertLevels_cons]
      exact (and_iff_right (by tauto)).symm

end Exact

section Verdict

/-- An answer that is right about both kinds of records. -/
def Judges (r : Option TlsOutcome) (hello alert : Prop) : Prop :=
  ∃ o, r = some o ∧ (o = .serverhello ↔ hello) ∧ (o = .alert ↔ alert)

theorem judges_garbage {hello alert : Prop} (h : ¬hello) (h' : ¬alert) : Judges (some .garbage) hello alert :=
  ⟨.garbage, rfl, ⟨fun he => (by cases he), fun hp => absurd hp h⟩, ⟨fun he => (by cases he), fun hp => absurd hp h'⟩⟩

theorem judges_hello {r : Option Bool} {P hello alert : Prop} (hr : Decides r P) (hp : P ↔ hello) (h' : ¬alert) :
    Judges (r >>= fun ok => some (if ok then .serverhello else .garbage)) hello alert := by
  obtain ⟨ok, rfl, hok⟩ := hr
  refine ⟨if ok then .serverhello else .garbage, rfl, ?_, ?_⟩
  · rw [← hp, ← hok]
    cases ok <;> decide
  · refine ⟨fun he => ?_, fun ha => absurd ha h'⟩
    cases ok <;> cases he

theorem judges_alert {r : Option Bool} {P hello alert : Prop} (hr : Decides r P) (h : ¬hello) (hp : P ↔ alert) :
    Judges (r >>= fun ok => some (if ok then .alert else .garbage)) hello alert := by
  obtain ⟨ok, rfl, hok⟩ := hr
  refine ⟨if ok then .alert else .garbage, rfl, ?_, ?_⟩
  · refine ⟨fun he => ?_, fun hh => absurd hh h⟩
    cases ok <;> cases he
  · rw [← hp, ← hok]
    cases ok <;> decide

theorem startsRecord_iff {typ typ' major minor hi lo : UInt8} {u payload : Bytes} :
    StartsRecord typ' payload (typ :: major :: minor :: hi :: lo :: u) ↔
      typ = typ' ∧ major = 3 ∧ (1 ≤ minor ∧ minor ≤ 4) ∧ be16 hi lo ≤ 16640 ∧ be16 hi lo ≤ u.length ∧
        payload = u.take (be16 hi lo) := by
  constructor
  · rintro ⟨minor', hi', lo', rest, heq, hlo, hhi, hlen, hle⟩
    cases heq
    rw [← hlen, List.take_left, List.length_append]
    exact ⟨rfl, rfl, ⟨hlo, hhi⟩, hle, Nat.le_add_right _ _, rfl⟩
  · rintro ⟨rfl, rfl, ⟨hlo, hhi⟩, hle, hroom, rfl⟩
    refine ⟨minor, hi, lo, u.drop (be16 hi lo), ?_, hlo, hhi, List.length_take_of_le hroom, ?_⟩
    · rw [List.take_append_drop]
    · rwa [List.length_take_of_le hroom]

theorem startsRecord_length {typ : UInt8} {payload buf : Bytes} (h : StartsRecord typ payload buf) :
    5 ≤ buf.length := by
  obtain ⟨minor, hi, lo, rest, rfl, -⟩ := h
  simp only [List.length_cons]
  omega

theorem StartsRecord.append {typ : UInt8} {payload buf : Bytes} (h : StartsRecord typ payload buf) (more : Bytes) :
    StartsRecord typ payload (buf ++ more) := by
  obtain ⟨minor, hi, lo, rest, rfl, hversion⟩ := h
  exact ⟨minor, hi, lo, rest ++ more, by simp only [List.cons_append, List.append_assoc], hversion⟩

theorem tlsClassify_judges (buf : Bytes) :
    Judges (tlsClassify buf) (StartsServerHello buf) (StartsAlert buf) := by
  have hshort : buf.length < 5 → ¬StartsServerHello buf ∧ ¬StartsAlert buf := fun hlt =>
    ⟨fun ⟨_, h, _⟩ => absurd (startsRecord_length h) (Nat.not_le.mpr hlt),
      fun ⟨_, h, _⟩ => absurd (startsRecord_length h) (Nat.not_le.mpr hlt)⟩
  unfold tlsClassify
  by_cases hempty : buf.length = 0
  · rw [if_pos hempty]
    obtain ⟨hhello, halert⟩ := hshort (by omega)
    exact ⟨.silence, rfl, ⟨fun he => (by cases he), fun h => absurd h hhello⟩,
      ⟨fun he => (by cases he), fun h => absurd h halert⟩⟩
  rw [if_neg hempty]
  by_cases hlt : buf.length < 5
  · rw [if_pos hlt]
    exact judges_garbage (hshort hlt).1 (hshort hlt).2
  rw [if_neg hlt]
  obtain ⟨typ, major, minor, hi, lo, u, rfl⟩ : ∃ typ major minor hi lo u,
      buf = typ :: major :: minor :: hi :: lo :: u := by
    match buf, hlt with
    | typ :: major :: minor :: hi :: lo :: u, _ => exact ⟨typ, major, minor, hi, lo, u, rfl⟩
    | [_, _, _, _], h => exact absurd (by simp) h
    | [_, _, _], h => exact absurd (by simp) h
    | [_, _], h => exact absurd (by simp) h
    | [_], h => exact absurd (by simp) h
    | [], h => exact absurd (by simp) h
  simp only [List.getElem?_cons_zero, List.getElem?_cons_succ, Option.bind_eq_bind, Option.bind_some]
  have hnone : (∀ typ' payload, ¬StartsRecord typ' payload (typ :: major :: minor :: hi :: lo :: u)) →
      Judges (some .garbage) (StartsServerHello (typ :: major :: minor :: hi :: lo :: u))
        (StartsAlert (typ :: major :: minor :: hi :: lo :: u)) := fun hno =>
    judges_garbage (fun ⟨_, h, _⟩ => hno _ _ h) fun ⟨_, h, _⟩ => hno _ _ h
  by_cases hmajor : major ≠ 3
  · rw [if_pos hmajor]
    exact hnone fun _ _ h => hmajor (startsRecord_iff.mp h).2.1
  rw [if_neg hmajor]
  by_cases hminor : minor < 1 ∨ 4 < minor
  · rw [if_pos hminor]
    refine hnone fun _ _ h => ?_
    obtain ⟨hge, hle⟩ := (startsRecord_iff.mp h).2.2.1
    exact hminor.elim (fun h => absurd hge (UInt8.not_le.mpr h)) fun h => absurd hle (UInt8.not_le.mpr h)
  rw [if_neg hminor]
  rw [not_or, UInt8.not_lt, UInt8.not_lt] at hminor
  have hlen : (typ :: major :: minor :: hi :: lo :: u).length = 5 + u.length := by
    simp only [List.length_cons]
    omega
  rw [hlen]
  have hrecord : ∀ {typ' payload}, StartsRecord typ' payload (typ :: major :: minor :: hi :: lo :: u) →
      typ = typ' ∧ be16 hi lo ≤ 16640 ∧ be16 hi lo ≤ u.length ∧ payload = u.take (be16 hi lo) := fun h =>
    ⟨(startsRecord_iff.mp h).1, (startsRecord_iff.mp h).2.2.2⟩
  by_cases hbad : be16 hi lo = 0 ∨ 16640 < be16 hi lo ∨ 5 + u.length < 5 + be16 hi lo
  · rw [if_pos hbad]
    refine judges_garbage ?_ ?_
    · rintro ⟨payload, h, h₁, h₂, h₃, body, rest, hpayload, -⟩
      obtain ⟨-, hle, hroom, heq⟩ := hrecord h
      have hcons := congrArg List.length (heq.symm.trans hpayload)
      rw [List.length_take_of_le hroom, List.length_cons] at hcons
      omega
    · rintro ⟨payload, h, hpos, -⟩
      obtain ⟨-, hle, hroom, rfl⟩ := hrecord h
      rw [List.length_take_of_le hroom] at hpos
      omega
  rw [if_neg hbad]
  have hroom : be16 hi lo ≤ u.length := by omega
  have htake : (u.take (be16 hi lo)).length = be16 hi lo := List.length_take_of_le hroom
  have hstarts : ∀ typ', typ = typ' →
      StartsRecord typ' (u.take (be16 hi lo)) (typ :: major :: minor :: hi :: lo :: u) := fun typ' htyp =>
    startsRecord_iff.mpr ⟨htyp, not_not.mp hmajor, hminor, by omega, hroom, rfl⟩
  have hbuf : [typ, major, minor, hi, lo] ++ (u.take (be16 hi lo) ++ u.drop (be16 hi lo)) =
      typ :: major :: minor :: hi :: lo :: u := by
    rw [List.take_append_drop]
    rfl
  by_cases hhandshake : typ = 0x16
  · rw [if_pos hhandshake]
    have hfirst := @classifyHandshake_exact [typ, major, minor, hi, lo] rfl (u.take (be16 hi lo))
      (u.drop (be16 hi lo))
    rw [hbuf, htake] at hfirst
    refine judges_hello hfirst ⟨fun h => ⟨_, hstarts _ hhandshake, h⟩, ?_⟩ ?_
    · rintro ⟨payload, h, hpayload⟩
      rwa [(hrecord h).2.2.2] at hpayload
    · rintro ⟨payload, h, -⟩
      exact absurd ((hrecord h).1.symm.trans hhandshake) (by decide)
  rw [if_neg hhandshake]
  have hnohello : ¬StartsServerHello (typ :: major :: minor :: hi :: lo :: u) := fun ⟨_, h, _⟩ =>
    hhandshake (hrecord h).1
  by_cases halert : typ = 0x15
  · rw [if_pos halert]
    by_cases hodd : be16 hi lo % 2 ≠ 0
    · rw [if_pos hodd]
      refine judges_garbage hnohello ?_
      rintro ⟨payload, h, -, heven, -⟩
      rw [(hrecord h).2.2.2, htake] at heven
      exact hodd heven
    rw [if_neg hodd]
    have heven := not_not.mp hodd
    have hlevels := classifyAlerts_exact [typ, major, minor, hi, lo] (u.take (be16 hi lo)) (u.drop (be16 hi lo))
      (by rw [htake]; exact heven)
    rw [hbuf, htake] at hlevels
    refine judges_alert hlevels hnohello ⟨fun h => ⟨_, hstarts _ halert, by omega, by rwa [htake], h⟩, ?_⟩
    rintro ⟨payload, h, -, -, hpayload⟩
    rwa [(hrecord h).2.2.2] at hpayload
  rw [if_neg halert]
  exact judges_garbage hnohello fun ⟨_, h, _⟩ => halert (hrecord h).1

/-- The classifier reads only inside its input, tells what the input starts with, and keeps a positive answer when
more bytes follow. -/
theorem tlsClassify_exact (buf : Bytes) :
    ∃ o, tlsClassify buf = some o ∧ (o = .serverhello ↔ StartsServerHello buf) ∧ (o = .alert ↔ StartsAlert buf) ∧
      ∀ more, o = .serverhello ∨ o = .alert → tlsClassify (buf ++ more) = some o := by
  obtain ⟨o, ho, hhello, halert⟩ := tlsClassify_judges buf
  refine ⟨o, ho, hhello, halert, fun more hpos => ?_⟩
  obtain ⟨o', ho', hhello', halert'⟩ := tlsClassify_judges (buf ++ more)
  rw [ho']
  obtain rfl | rfl := hpos
  · obtain ⟨payload, hrecord, hfirst⟩ := hhello.mp rfl
    exact congrArg some (hhello'.mpr ⟨payload, hrecord.append more, hfirst⟩)
  · obtain ⟨payload, hrecord, hlevels⟩ := halert.mp rfl
    exact congrArg some (halert'.mpr ⟨payload, hrecord.append more, hlevels⟩)

end Verdict

end Qanat

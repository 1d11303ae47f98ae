import Qanat.TlsTypes
import Qanat.General.Reads
import Mathlib.Data.Fintype.EquivFin
import Mathlib.Tactic.Common

namespace Qanat

open Reads (be16 be32)

section Skip

variable (b : Bytes)

/-- The loop of `dns_skip_name`, the number of its steps first. The outer `none` is a read past the end, the inner one
a refused name. -/
def skipName : Nat → Nat → Bool → Nat → Nat → Option (Option Nat)
  | 0, _, _, _, _ => some none
  | steps + 1, pos, jumped, wireEnd, expanded =>
    if b.length ≤ pos then some none
    else do
      let l ← b[pos]?
      if l = 0 then some (some (if jumped then wireEnd else pos + 1))
      else if l &&& 0xC0 = 0xC0 then
        if b.length ≤ pos + 1 then some none
        else do
          let lo ← b[pos + 1]?
          let target := be16 (l &&& 0x3F) lo
          if pos ≤ target then some none
          else skipName steps target true (if jumped then wireEnd else pos + 2) expanded
      else if l &&& 0xC0 ≠ 0 ∨ 63 < l ∨ b.length - pos - 1 < l.toNat ∨ 255 < expanded + l.toNat + 1 then some none
      else skipName steps (pos + l.toNat + 1) jumped wireEnd (expanded + l.toNat + 1)

/-- `dns_skip_name`. -/
def dnsSkipName (o : Nat) : Option (Option Nat) :=
  if b.length ≤ o then some none else skipName b (b.length + 1) o false 0 0

/-- A name of a message: its labels with their length bytes take `expanded` bytes, and its own encoding ends at `next`.
A pointer leads strictly before itself. -/
inductive NameAt : (pos expanded next : Nat) → Prop
  | root {pos} : b[pos]? = some 0 → NameAt pos 0 (pos + 1)
  | label {pos l expanded next} : b[pos]? = some l → 0 < l → l ≤ 63 → pos + l.toNat < b.length →
    NameAt (pos + l.toNat + 1) expanded next → NameAt pos (expanded + l.toNat + 1) next
  | pointer {pos hi lo expanded next} : b[pos]? = some hi → hi &&& 0xC0 = 0xC0 → b[pos + 1]? = some lo →
    be16 (hi &&& 0x3F) lo < pos → NameAt (be16 (hi &&& 0x3F) lo) expanded next → NameAt pos expanded (pos + 2)

/-- A name that is not too long. -/
def SoundName (o next : Nat) : Prop :=
  ∃ expanded, NameAt b o expanded next ∧ expanded ≤ 255

end Skip

section Steps

variable {b : Bytes}

/-- A name that is left after some labels and pointers. -/
inductive NameIn (b : Bytes) : (steps pos expanded next : Nat) → Prop
  | root {pos} : b[pos]? = some 0 → NameIn b 1 pos 0 (pos + 1)
  | label {steps pos l expanded next} : b[pos]? = some l → 0 < l → l ≤ 63 → pos + l.toNat < b.length →
    NameIn b steps (pos + l.toNat + 1) expanded next → NameIn b (steps + 1) pos (expanded + l.toNat + 1) next
  | pointer {steps pos hi lo expanded next} : b[pos]? = some hi → hi &&& 0xC0 = 0xC0 → b[pos + 1]? = some lo →
    be16 (hi &&& 0x3F) lo < pos → NameIn b steps (be16 (hi &&& 0x3F) lo) expanded next →
    NameIn b (steps + 1) pos expanded (pos + 2)

theorem nameAt_iff {pos expanded next : Nat} :
    NameAt b pos expanded next ↔ ∃ steps, NameIn b steps pos expanded next := by
  constructor
  · intro h
    induction h with
    | root h => exact ⟨1, .root h⟩
    | label hl hpos hle hfits _ ih =>
      obtain ⟨steps, ih⟩ := ih
      exact ⟨steps + 1, .label hl hpos hle hfits ih⟩
    | pointer hhi hmark hlo hback _ ih =>
      obtain ⟨steps, ih⟩ := ih
      exact ⟨steps + 1, .pointer hhi hmark hlo hback ih⟩
  · rintro ⟨steps, h⟩
    induction h with
    | root h => exact .root h
    | label hl hpos hle hfits _ ih => exact .label hl hpos hle hfits ih
    | pointer hhi hmark hlo hback _ ih => exact .pointer hhi hmark hlo hback ih

theorem unmarked_iff : ∀ l : UInt8, l &&& 0xC0 = 0 ↔ l ≤ 63 :=
  Reads.forall_byte (by decide +kernel)

theorem label_unmarked (l : UInt8) (h : l ≤ 63) : l &&& 0xC0 = 0 :=
  (unmarked_iff l).mpr h

theorem pointer_marked {hi : UInt8} (h : hi &&& 0xC0 = 0xC0) : hi ≠ 0 ∧ ¬hi ≤ 63 := by
  refine ⟨fun h0 => ?_, fun hle => ?_⟩
  · rw [h0] at h
    exact absurd h (by decide)
  · rw [label_unmarked hi hle] at h
    exact absurd h (by decide)

theorem NameIn.pos_lt {steps pos expanded next : Nat} (h : NameIn b steps pos expanded next) : pos < b.length := by
  cases h with
  | root h => exact Reads.lt_of_some h
  | label h _ _ _ _ => exact Reads.lt_of_some h
  | pointer h _ _ _ _ => exact Reads.lt_of_some h

/-- The bytes at a position determine how many steps are left. -/
theorem NameIn.steps_unique {steps pos expanded next : Nat} (h : NameIn b steps pos expanded next) :
    ∀ {steps' expanded' next'}, NameIn b steps' pos expanded' next' → steps = steps' := by
  induction h with
  | root h =>
    intro _ _ _ h'
    cases h' with
    | root _ => rfl
    | label hl hpos _ _ _ =>
      cases h.symm.trans hl
      exact absurd hpos (by decide)
    | pointer hhi hmark _ _ _ =>
      cases h.symm.trans hhi
      exact absurd rfl (pointer_marked hmark).1
  | label hl hpos hle _ _ ih =>
    intro _ _ _ h'
    cases h' with
    | root h =>
      cases h.symm.trans hl
      exact absurd hpos (by decide)
    | label hl' _ _ _ hrest =>
      cases hl.symm.trans hl'
      exact congrArg (· + 1) (ih hrest)
    | pointer hhi hmark _ _ _ =>
      cases hl.symm.trans hhi
      exact absurd hle (pointer_marked hmark).2
  | pointer hhi hmark hlo _ _ ih =>
    intro _ _ _ h'
    cases h' with
    | root h =>
      cases h.symm.trans hhi
      exact absurd rfl (pointer_marked hmark).1
    | label hl _ hle _ _ =>
      cases hhi.symm.trans hl
      exact absurd hle (pointer_marked hmark).2
    | pointer hhi' _ hlo' _ hrest =>
      cases hhi.symm.trans hhi'
      cases hlo.symm.trans hlo'
      exact congrArg (· + 1) (ih hrest)

/-- A name with some steps passes a position for every smaller number of steps. -/
theorem NameIn.visits {steps pos expanded next : Nat} (h : NameIn b steps pos expanded next) :
    ∀ k, 1 ≤ k → k ≤ steps → ∃ pos' expanded' next', NameIn b k pos' expanded' next' := by
  induction h with
  | root h =>
    intro k hk hle
    obtain rfl : k = 1 := by omega
    exact ⟨_, _, _, .root h⟩
  | label hl hpos hle hfits hrest ih =>
    intro k hk hk'
    obtain rfl | hlt := Nat.eq_or_lt_of_le hk'
    · exact ⟨_, _, _, .label hl hpos hle hfits hrest⟩
    · exact ih k hk (by omega)
  | pointer hhi hmark hlo hback hrest ih =>
    intro k hk hk'
    obtain rfl | hlt := Nat.eq_or_lt_of_le hk'
    · exact ⟨_, _, _, .pointer hhi hmark hlo hback hrest⟩
    · exact ih k hk (by omega)

/-- A name that ends passes no position twice, so it has no more steps than the message has bytes. -/
theorem NameIn.steps_le {steps pos expanded next : Nat} (h : NameIn b steps pos expanded next) :
    steps ≤ b.length := by
  have hvisit : ∀ k : Fin steps, ∃ pos' : Fin b.length, ∃ expanded' next',
      NameIn b (k.1 + 1) pos'.1 expanded' next' := fun k => by
    obtain ⟨pos', expanded', next', hk⟩ := h.visits (k.1 + 1) (Nat.le_add_left _ _) k.2
    exact ⟨⟨pos', hk.pos_lt⟩, expanded', next', hk⟩
  choose at_ expanded' next' hat using hvisit
  have hinj : Function.Injective at_ := by
    intro k k' heq
    have hk := hat k
    rw [heq] at hk
    exact Fin.ext (Nat.add_right_cancel (hk.steps_unique (hat k')))
  simpa using Fintype.card_le_of_injective at_ hinj

end Steps

section Walk

variable {b : Bytes} {steps pos expanded next : Nat}

theorem nameIn_root_iff (h : b[pos]? = some 0) :
    NameIn b steps pos expanded next ↔ steps = 1 ∧ expanded = 0 ∧ next = pos + 1 := by
  constructor
  · intro hname
    cases hname with
    | root _ => exact ⟨rfl, rfl, rfl⟩
    | label hl hpos _ _ _ =>
      cases h.symm.trans hl
      exact absurd hpos (by decide)
    | pointer hhi hmark _ _ _ =>
      cases h.symm.trans hhi
      exact absurd rfl (pointer_marked hmark).1
  · rintro ⟨rfl, rfl, rfl⟩
    exact .root h

theorem nameIn_pointer_iff {hi : UInt8} (h : b[pos]? = some hi) (hmark : hi &&& 0xC0 = 0xC0) :
    NameIn b steps pos expanded next ↔ ∃ lo steps' next', b[pos + 1]? = some lo ∧ be16 (hi &&& 0x3F) lo < pos ∧
      steps = steps' + 1 ∧ next = pos + 2 ∧ NameIn b steps' (be16 (hi &&& 0x3F) lo) expanded next' := by
  constructor
  · intro hname
    cases hname with
    | root h0 =>
      cases h.symm.trans h0
      exact absurd rfl (pointer_marked hmark).1
    | label hl _ hle _ _ =>
      cases h.symm.trans hl
      exact absurd hle (pointer_marked hmark).2
    | pointer hhi _ hlo hback hrest =>
      cases h.symm.trans hhi
      exact ⟨_, _, _, hlo, hback, rfl, rfl, hrest⟩
  · rintro ⟨lo, steps', next', hlo, hback, rfl, rfl, hrest⟩
    exact .pointer h hmark hlo hback hrest

theorem nameIn_label_iff {l : UInt8} (h : b[pos]? = some l) (h0 : l ≠ 0) (hmark : ¬l &&& 0xC0 = 0xC0) :
    NameIn b steps pos expanded next ↔ l ≤ 63 ∧ pos + l.toNat < b.length ∧ ∃ steps' expanded', steps = steps' + 1 ∧
      expanded = expanded' + l.toNat + 1 ∧ NameIn b steps' (pos + l.toNat + 1) expanded' next := by
  constructor
  · intro hname
    cases hname with
    | root hroot =>
      cases h.symm.trans hroot
      exact absurd rfl h0
    | label hl _ hle hfits hrest =>
      cases h.symm.trans hl
      exact ⟨hle, hfits, _, _, rfl, rfl, hrest⟩
    | pointer hhi hmark' _ _ _ =>
      cases h.symm.trans hhi
      exact absurd hmark' hmark
  · rintro ⟨hle, hfits, steps', expanded', rfl, rfl, hrest⟩
    exact .label h (UInt8.pos_iff_ne_zero.mpr h0) hle hfits hrest

/-- What the walk answers when some steps and some room are left. -/
def Walks (b : Bytes) (steps pos : Nat) (jumped : Bool) (wireEnd before : Nat) (n : Nat) : Prop :=
  ∃ k expanded next, NameIn b k pos expanded next ∧ k ≤ steps ∧ before + expanded ≤ 255 ∧
    n = if jumped then wireEnd else next

theorem refused {P : Nat → Prop} (h : ∀ n, ¬P n) :
    ∃ r, (some none : Option (Option Nat)) = some r ∧ ∀ n, r = some n ↔ P n :=
  ⟨none, rfl, fun n => ⟨fun he => (by cases he), fun hp => absurd hp (h n)⟩⟩

theorem skipName_walks (jumped : Bool) (wireEnd : Nat) {before : Nat} (hbefore : before ≤ 255) :
    ∃ r, skipName b steps pos jumped wireEnd before = some r ∧
      ∀ n, r = some n ↔ Walks b steps pos jumped wireEnd before n := by
  induction steps generalizing pos jumped wireEnd before with
  | zero =>
    refine refused ?_
    rintro n ⟨k, expanded, next, hname, hk, -, -⟩
    cases hname <;> omega
  | succ steps ih =>
    rw [skipName]
    by_cases hend : b.length ≤ pos
    · rw [if_pos hend]
      refine refused ?_
      rintro n ⟨k, expanded, next, hname, -, -, -⟩
      exact absurd hname.pos_lt (Nat.not_lt.mpr hend)
    rw [if_neg hend]
    obtain ⟨l, hl⟩ := Reads.isSome_of_lt (Nat.not_le.mp hend)
    rw [Reads.bind_of_some hl]
    by_cases h0 : l = 0
    · rw [if_pos h0]
      rw [h0] at hl
      refine ⟨_, rfl, fun n => ⟨fun he => ?_, ?_⟩⟩
      · exact ⟨1, 0, pos + 1, .root hl, by omega, hbefore, (Option.some.inj he).symm⟩
      · rintro ⟨k, expanded, next, hname, -, -, rfl⟩
        obtain ⟨-, -, rfl⟩ := (nameIn_root_iff hl).mp hname
        rfl
    rw [if_neg h0]
    by_cases hmark : l &&& 0xC0 = 0xC0
    · rw [if_pos hmark]
      by_cases hend' : b.length ≤ pos + 1
      · rw [if_pos hend']
        refine refused ?_
        rintro n ⟨k, expanded, next, hname, -, -, -⟩
        obtain ⟨lo, _, _, hlo, -⟩ := (nameIn_pointer_iff hl hmark).mp hname
        exact absurd (Reads.lt_of_some hlo) (Nat.not_lt.mpr hend')
      rw [if_neg hend']
      obtain ⟨lo, hlo⟩ := Reads.isSome_of_lt (Nat.not_le.mp hend')
      rw [Reads.bind_of_some hlo]
      dsimp only
      by_cases hback : pos ≤ be16 (l &&& 0x3F) lo
      · rw [if_pos hback]
        refine refused ?_
        rintro n ⟨k, expanded, next, hname, -, -, -⟩
        obtain ⟨lo', _, _, hlo', hback', -⟩ := (nameIn_pointer_iff hl hmark).mp hname
        cases hlo.symm.trans hlo'
        exact absurd hback' (Nat.not_lt.mpr hback)
      rw [if_neg hback]
      obtain ⟨r, hr, hwalks⟩ := ih true (if jumped then wireEnd else pos + 2) hbefore
      refine ⟨r, hr, fun n => (hwalks n).trans ⟨?_, ?_⟩⟩
      · rintro ⟨k, expanded, next, hname, hk, hroom, rfl⟩
        exact ⟨k + 1, expanded, pos + 2, .pointer hl hmark hlo (Nat.not_le.mp hback) hname, by omega, hroom, rfl⟩
      · rintro ⟨k, expanded, next, hname, hk, hroom, rfl⟩
        obtain ⟨lo', k', next', hlo', -, rfl, rfl, hrest⟩ := (nameIn_pointer_iff hl hmark).mp hname
        cases hlo.symm.trans hlo'
        exact ⟨k', expanded, next', hrest, by omega, hroom, rfl⟩
    rw [if_neg hmark]
    by_cases hbad : l &&& 0xC0 ≠ 0 ∨ 63 < l ∨ b.length - pos - 1 < l.toNat ∨ 255 < before + l.toNat + 1
    · rw [if_pos hbad]
      refine refused ?_
      rintro n ⟨k, expanded, next, hname, -, hroom, -⟩
      obtain ⟨hle, hfits, k', expanded', -, rfl, -⟩ := (nameIn_label_iff hl h0 hmark).mp hname
      obtain h | h | h | h := hbad
      · exact h (label_unmarked l hle)
      · exact absurd hle (UInt8.not_le.mpr h)
      · omega
      · omega
    rw [if_neg hbad]
    obtain ⟨hplain, hle, hfits, hroom⟩ : l &&& 0xC0 = 0 ∧ l ≤ 63 ∧ pos + l.toNat < b.length ∧
        before + l.toNat + 1 ≤ 255 := by
      simp only [not_or, not_not, UInt8.not_lt] at hbad
      exact ⟨hbad.1, hbad.2.1, by omega, by omega⟩
    obtain ⟨r, hr, hwalks⟩ := ih jumped wireEnd hroom
    refine ⟨r, hr, fun n => (hwalks n).trans ⟨?_, ?_⟩⟩
    · rintro ⟨k, expanded, next, hname, hk, hsum, rfl⟩
      exact ⟨k + 1, expanded + l.toNat + 1, next, .label hl (UInt8.pos_iff_ne_zero.mpr h0) hle hfits hname, by omega,
        by omega, rfl⟩
    · rintro ⟨k, expanded, next, hname, hk, hsum, rfl⟩
      obtain ⟨-, -, k', expanded', rfl, rfl, hrest⟩ := (nameIn_label_iff hl h0 hmark).mp hname
      exact ⟨k', expanded', next, hrest, by omega, by omega, rfl⟩

/-- A name is skipped exactly when it is one, and the walk reads only inside the message. -/
theorem dnsSkipName_exact (b : Bytes) (o : Nat) :
    ∃ r, dnsSkipName b o = some r ∧ ∀ n, r = some n ↔ SoundName b o n := by
  have hnames : ∀ {n}, Walks b (b.length + 1) o false 0 0 n ↔ SoundName b o n := by
    intro n
    constructor
    · rintro ⟨k, expanded, next, hname, -, hroom, rfl⟩
      exact ⟨expanded, nameAt_iff.mpr ⟨k, hname⟩, by omega⟩
    · rintro ⟨expanded, hname, hroom⟩
      obtain ⟨k, hname⟩ := nameAt_iff.mp hname
      exact ⟨k, expanded, n, hname, Nat.le_succ_of_le hname.steps_le, by omega, rfl⟩
  unfold dnsSkipName
  split
  next hend =>
    refine refused fun n => ?_
    rw [← hnames]
    rintro ⟨k, expanded, next, hname, -, -, -⟩
    exact absurd hname.pos_lt (Nat.not_lt.mpr hend)
  next =>
    obtain ⟨r, hr, hwalks⟩ := @skipName_walks b (b.length + 1) o false 0 0 (Nat.zero_le _)
    exact ⟨r, hr, fun n => (hwalks n).trans hnames⟩

end Walk

section Answers

variable (b : Bytes)

/-- The loop of `dns_answers` over the records that are left; `out` holds the addresses so far. A refusal gives back
no address. -/
def dnsRecords (cap : Nat) : Nat → Nat → List Nat → Option (List Nat)
  | 0, _, out => some out
  | left + 1, o, out => do
    match ← dnsSkipName b o with
    | none => some []
    | some o =>
      if b.length < o + 10 then some []
      else do
        let t₁ ← b[o]?
        let t₂ ← b[o + 1]?
        let c₁ ← b[o + 2]?
        let c₂ ← b[o + 3]?
        let r₁ ← b[o + 8]?
        let r₂ ← b[o + 9]?
        if b.length < o + 10 + be16 r₁ r₂ then some []
        else if be16 t₁ t₂ = 1 ∧ be16 c₁ c₂ = 1 ∧ be16 r₁ r₂ = 4 ∧ out.length < cap then do
          let d₀ ← b[o + 10]?
          let d₁ ← b[o + 10 + 1]?
          let d₂ ← b[o + 10 + 2]?
          let d₃ ← b[o + 10 + 3]?
          dnsRecords cap left (o + 10 + be16 r₁ r₂) (out ++ [be32 d₀ d₁ d₂ d₃])
        else dnsRecords cap left (o + 10 + be16 r₁ r₂) out

/-- `dns_answers`: the first `n` addresses, for the `n` that it returns. -/
def dnsAnswers (cap : Nat) : Option (List Nat) :=
  if cap = 0 ∨ b.length < 12 then some []
  else do
    let q₁ ← b[4]?
    let q₂ ← b[5]?
    let a₁ ← b[6]?
    let a₂ ← b[7]?
    if be16 q₁ q₂ ≠ 1 then some []
    else
      match ← dnsSkipName b 12 with
      | none => some []
      | some o => if b.length < o ∨ b.length - o < 4 then some [] else dnsRecords b cap (be16 a₁ a₂) (o + 4) []

/-- A resource record, less its name and the time it may be kept. -/
structure DnsRecord where
  type : Nat
  cls : Nat
  data : Bytes

/-- The records of a section that starts at `pos`. -/
inductive RecordsAt : (count pos : Nat) → List DnsRecord → Prop
  | nil {pos} : RecordsAt 0 pos []
  | cons {count pos o rs t₁ t₂ c₁ c₂ r₁ r₂ ttl data rest} : SoundName b pos o →
    b.drop o = t₁ :: t₂ :: c₁ :: c₂ :: (ttl ++ r₁ :: r₂ :: (data ++ rest)) → ttl.length = 4 →
    data.length = be16 r₁ r₂ → RecordsAt count (o + 10 + data.length) rs →
    RecordsAt (count + 1) pos (⟨be16 t₁ t₂, be16 c₁ c₂, data⟩ :: rs)

/-- A response with one question and the answers that it counts, each of them well formed. -/
def DnsResponse (rs : List DnsRecord) : Prop :=
  ∃ q₁ q₂ a₁ a₂ o, 12 ≤ b.length ∧ b[4]? = some q₁ ∧ b[5]? = some q₂ ∧ be16 q₁ q₂ = 1 ∧ b[6]? = some a₁ ∧
    b[7]? = some a₂ ∧ SoundName b 12 o ∧ o + 4 ≤ b.length ∧ RecordsAt b (be16 a₁ a₂) (o + 4) rs

end Answers

section Addresses

/-- The address of an A record of the Internet class. -/
def DnsRecord.address (r : DnsRecord) : Option Nat :=
  if r.type = 1 ∧ r.cls = 1 then
    match r.data with
    | [d₀, d₁, d₂, d₃] => some (be32 d₀ d₁ d₂ d₃)
    | _ => none
  else none

variable {b : Bytes}

/-- The fixed part of a record that is inside the message, and what follows it. -/
theorem record_parts {o : Nat} (h : o + 10 ≤ b.length) : ∃ t₁ t₂ c₁ c₂ ttl r₁ r₂ rest,
    b.drop o = t₁ :: t₂ :: c₁ :: c₂ :: (ttl ++ r₁ :: r₂ :: rest) ∧ ttl.length = 4 ∧
      o + 10 + rest.length = b.length := by
  have hlen : (b.drop o).length + o = b.length := by
    rw [List.length_drop]
    omega
  match b.drop o, hlen with
  | t₁ :: t₂ :: c₁ :: c₂ :: x₀ :: x₁ :: x₂ :: x₃ :: r₁ :: r₂ :: rest, hlen =>
    refine ⟨t₁, t₂, c₁, c₂, [x₀, x₁, x₂, x₃], r₁, r₂, rest, rfl, rfl, ?_⟩
    simp only [List.length_cons] at hlen
    omega
  | [], hlen => simp at hlen; omega
  | [_], hlen => simp at hlen; omega
  | [_, _], hlen => simp at hlen; omega
  | [_, _, _], hlen => simp at hlen; omega
  | [_, _, _, _], hlen => simp at hlen; omega
  | [_, _, _, _, _], hlen => simp at hlen; omega
  | [_, _, _, _, _, _], hlen => simp at hlen; omega
  | [_, _, _, _, _, _, _], hlen => simp at hlen; omega
  | [_, _, _, _, _, _, _, _], hlen => simp at hlen; omega
  | [_, _, _, _, _, _, _, _, _], hlen => simp at hlen; omega

theorem reads_drop {o k : Nat} {c : UInt8} {l : Bytes} (h : b.drop o = l) (hc : l[k]? = some c) :
    b[o + k]? = some c := by
  rw [← List.getElem?_drop, h, hc]

theorem recordsAt_cons {count pos o : Nat} {t₁ t₂ c₁ c₂ r₁ r₂ : UInt8} {ttl rest : Bytes} {rs : List DnsRecord}
    (ho : ∀ n, SoundName b pos n ↔ n = o)
    (hdrop : b.drop o = t₁ :: t₂ :: c₁ :: c₂ :: (ttl ++ r₁ :: r₂ :: rest)) (httl : ttl.length = 4) :
    RecordsAt b (count + 1) pos rs ↔ be16 r₁ r₂ ≤ rest.length ∧ ∃ rs', RecordsAt b count (o + 10 + be16 r₁ r₂) rs' ∧
      rs = ⟨be16 t₁ t₂, be16 c₁ c₂, rest.take (be16 r₁ r₂)⟩ :: rs' := by
  constructor
  · intro h
    cases h with
    | @cons _ _ o' rs' _ _ _ _ r₁' r₂' ttl' data rest' hname hdrop' httl' hlen hrest =>
      obtain rfl := (ho o').mp hname
      have hsame := hdrop.symm.trans hdrop'
      simp only [List.cons.injEq] at hsame
      obtain ⟨rfl, rfl, rfl, rfl, hsame⟩ := hsame
      obtain ⟨-, hsame⟩ := List.append_inj hsame (httl.trans httl'.symm)
      simp only [List.cons.injEq] at hsame
      obtain ⟨rfl, rfl, rfl⟩ := hsame
      rw [← hlen, List.take_left, List.length_append]
      exact ⟨Nat.le_add_right _ _, rs', hrest, rfl⟩
  · rintro ⟨hle, rs', hrest, rfl⟩
    have htake : (rest.take (be16 r₁ r₂)).length = be16 r₁ r₂ := List.length_take_of_le hle
    refine @RecordsAt.cons b count pos o rs' t₁ t₂ c₁ c₂ r₁ r₂ ttl (rest.take (be16 r₁ r₂)) (rest.drop (be16 r₁ r₂))
      ((ho o).mpr rfl) ?_ httl htake (by rwa [htake])
    rw [List.take_append_drop, hdrop]

theorem address_eq {type cls : Nat} {data : Bytes} (h : type = 1 ∧ cls = 1 ∧ data.length = 4) :
    ∃ d₀ d₁ d₂ d₃, data = [d₀, d₁, d₂, d₃] ∧
      (⟨type, cls, data⟩ : DnsRecord).address = some (be32 d₀ d₁ d₂ d₃) := by
  obtain ⟨rfl, rfl, hlen⟩ := h
  match data, hlen with
  | [d₀, d₁, d₂, d₃], _ => exact ⟨d₀, d₁, d₂, d₃, rfl, rfl⟩

theorem address_none {type cls : Nat} {data : Bytes} (h : ¬(type = 1 ∧ cls = 1 ∧ data.length = 4)) :
    (⟨type, cls, data⟩ : DnsRecord).address = none := by
  unfold DnsRecord.address
  split
  next hin =>
    split
    next hdata =>
      dsimp only at hin hdata
      exact absurd ⟨hin.1, hin.2, by rw [hdata]; rfl⟩ h
    next => rfl
  next => rfl

/-- The loop gives the addresses of the records in order, up to the capacity, when every record is well formed, and
else none. -/
theorem dnsRecords_exact {cap count pos : Nat} {out : List Nat} (hout : out.length ≤ cap) :
    ∃ res, dnsRecords b cap count pos out = some res ∧
      (∀ rs, RecordsAt b count pos rs → res = (out ++ rs.filterMap DnsRecord.address).take cap) ∧
      ((¬∃ rs, RecordsAt b count pos rs) → res = []) := by
  induction count generalizing pos out with
  | zero =>
    refine ⟨out, rfl, fun rs h => ?_, fun h => absurd ⟨_, .nil⟩ h⟩
    cases h
    rw [List.filterMap_nil, List.append_nil, List.take_of_length_le hout]
  | succ count ih =>
    obtain ⟨r, hr, hnames⟩ := dnsSkipName_exact b pos
    rw [dnsRecords, Reads.bind_of_some hr]
    have refused : (¬∃ rs, RecordsAt b (count + 1) pos rs) → ∃ res, (some [] : Option (List Nat)) = some res ∧
        (∀ rs, RecordsAt b (count + 1) pos rs → res = (out ++ rs.filterMap DnsRecord.address).take cap) ∧
        ((¬∃ rs, RecordsAt b (count + 1) pos rs) → res = []) := fun hno =>
      ⟨[], rfl, fun rs h => absurd ⟨rs, h⟩ hno, fun _ => rfl⟩
    cases r with
    | none =>
      refine refused ?_
      rintro ⟨rs, h⟩
      cases h with
      | cons hname _ _ _ _ => cases (hnames _).mpr hname
    | some o =>
      have ho : ∀ n, SoundName b pos n ↔ n = o := fun n => by
        rw [← hnames, Option.some_inj]
        exact eq_comm
      dsimp only
      by_cases hshort : b.length < o + 10
      · rw [if_pos hshort]
        refine refused ?_
        rintro ⟨rs, h⟩
        cases h with
        | cons hname hdrop httl _ _ =>
          obtain rfl := (ho _).mp hname
          have hlen := congrArg List.length hdrop
          simp only [List.length_drop, List.length_cons, List.length_append, httl] at hlen
          omega
      rw [if_neg hshort]
      obtain ⟨t₁, t₂, c₁, c₂, ttl, r₁, r₂, rest, hdrop, httl, hlen⟩ := record_parts (Nat.not_lt.mp hshort)
      have hat : ∀ k, b[o + (8 + k)]? = (r₁ :: r₂ :: rest)[k]? := fun k => by
        rw [← List.getElem?_drop, hdrop, show 8 + k = (t₁ :: t₂ :: c₁ :: c₂ :: ttl).length + k by
          simp only [List.length_cons, httl]]
        exact Reads.behind (t₁ :: t₂ :: c₁ :: c₂ :: ttl) (r₁ :: r₂ :: rest) k
      have ht₁ : b[o]? = some t₁ := @reads_drop b o 0 t₁ _ hdrop rfl
      have ht₂ : b[o + 1]? = some t₂ := reads_drop hdrop rfl
      have hc₁ : b[o + 2]? = some c₁ := reads_drop hdrop rfl
      have hc₂ : b[o + 3]? = some c₂ := reads_drop hdrop rfl
      have hr₁ : b[o + 8]? = some r₁ := hat 0
      have hr₂ : b[o + 9]? = some r₂ := hat 1
      rw [Reads.bind_of_some ht₁, Reads.bind_of_some ht₂, Reads.bind_of_some hc₁, Reads.bind_of_some hc₂,
        Reads.bind_of_some hr₁, Reads.bind_of_some hr₂]
      by_cases hlong : b.length < o + 10 + be16 r₁ r₂
      · rw [if_pos hlong]
        refine refused ?_
        rintro ⟨rs, h⟩
        have hle := ((recordsAt_cons ho hdrop httl).mp h).1
        omega
      rw [if_neg hlong]
      have hle : be16 r₁ r₂ ≤ rest.length := by omega
      have hrecords := fun rs => @recordsAt_cons b count pos o t₁ t₂ c₁ c₂ r₁ r₂ ttl rest rs ho hdrop httl
      have htake : (rest.take (be16 r₁ r₂)).length = be16 r₁ r₂ := List.length_take_of_le hle
      have hnone : ∀ {res}, ((¬∃ rs, RecordsAt b count (o + 10 + be16 r₁ r₂) rs) → res = []) →
          (¬∃ rs, RecordsAt b (count + 1) pos rs) → res = ([] : List Nat) := fun h hno =>
        h fun ⟨rs', hrs'⟩ => hno ⟨_, (hrecords _).mpr ⟨hle, rs', hrs', rfl⟩⟩
      by_cases hadd : be16 t₁ t₂ = 1 ∧ be16 c₁ c₂ = 1 ∧ be16 r₁ r₂ = 4 ∧ out.length < cap
      · rw [if_pos hadd]
        obtain ⟨htype, hcls, hfour, hroom⟩ := hadd
        obtain ⟨d₀, d₁, d₂, d₃, hdata, haddress⟩ := address_eq ⟨htype, hcls, htake.trans hfour⟩
        have hd : ∀ k d, k < 4 → [d₀, d₁, d₂, d₃][k]? = some d → b[o + 10 + k]? = some d := fun k d hk hd => by
          rw [show o + 10 + k = o + (8 + (k + 2)) by omega, hat, List.getElem?_cons_succ, List.getElem?_cons_succ,
            ← hd, ← hdata, List.getElem?_take_of_lt (hk.trans_eq hfour.symm)]
        have hd₀ : b[o + 10]? = some d₀ := hd 0 d₀ (by decide) rfl
        rw [Reads.bind_of_some hd₀, Reads.bind_of_some (hd 1 d₁ (by decide) rfl),
          Reads.bind_of_some (hd 2 d₂ (by decide) rfl), Reads.bind_of_some (hd 3 d₃ (by decide) rfl)]
        have hgrown : (out ++ [be32 d₀ d₁ d₂ d₃]).length ≤ cap := by
          rw [List.length_append]
          exact hroom
        obtain ⟨res, hres, hall, hno⟩ := @ih (o + 10 + be16 r₁ r₂) (out ++ [be32 d₀ d₁ d₂ d₃]) hgrown
        refine ⟨res, hres, fun rs h => ?_, hnone hno⟩
        obtain ⟨-, rs', hrest, rfl⟩ := (hrecords rs).mp h
        rw [hall rs' hrest, List.append_assoc, List.filterMap_cons_some haddress]
        rfl
      · rw [if_neg hadd]
        obtain ⟨res, hres, hall, hno⟩ := @ih (o + 10 + be16 r₁ r₂) out hout
        refine ⟨res, hres, fun rs h => ?_, hnone hno⟩
        obtain ⟨-, rs', hrest, rfl⟩ := (hrecords rs).mp h
        rw [hall rs' hrest]
        by_cases hfull : out.length = cap
        · rw [List.take_append_of_le_length hfull.ge, List.take_append_of_le_length hfull.ge]
        · rw [List.filterMap_cons_none (address_none fun h => hadd ⟨h.1, h.2.1, htake.symm.trans h.2.2, by omega⟩)]

/-- The answers of a well formed response are the addresses of its records; any other response has none. -/
theorem dnsAnswers_exact (b : Bytes) (cap : Nat) :
    ∃ res, dnsAnswers b cap = some res ∧
      (∀ rs, DnsResponse b rs → res = (rs.filterMap DnsRecord.address).take cap) ∧
      ((¬∃ rs, DnsResponse b rs) → res = []) := by
  have refused : (∀ rs, ¬DnsResponse b rs) → ∃ res, (some [] : Option (List Nat)) = some res ∧
      (∀ rs, DnsResponse b rs → res = (rs.filterMap DnsRecord.address).take cap) ∧
      ((¬∃ rs, DnsResponse b rs) → res = []) := fun hno =>
    ⟨[], rfl, fun rs h => absurd h (hno rs), fun _ => rfl⟩
  unfold dnsAnswers
  by_cases hshort : cap = 0 ∨ b.length < 12
  · rw [if_pos hshort]
    refine ⟨[], rfl, fun rs h => ?_, fun _ => rfl⟩
    obtain ⟨_, _, _, _, _, hlen, -⟩ := h
    obtain rfl | hlt := hshort
    · rfl
    · omega
  rw [if_neg hshort]
  obtain ⟨q₁, hq₁⟩ := @Reads.isSome_of_lt _ b 4 (by omega)
  obtain ⟨q₂, hq₂⟩ := @Reads.isSome_of_lt _ b 5 (by omega)
  obtain ⟨a₁, ha₁⟩ := @Reads.isSome_of_lt _ b 6 (by omega)
  obtain ⟨a₂, ha₂⟩ := @Reads.isSome_of_lt _ b 7 (by omega)
  rw [Reads.bind_of_some hq₁, Reads.bind_of_some hq₂, Reads.bind_of_some ha₁, Reads.bind_of_some ha₂]
  have hresponse : ∀ rs, DnsResponse b rs ↔ be16 q₁ q₂ = 1 ∧
      ∃ o, SoundName b 12 o ∧ o + 4 ≤ b.length ∧ RecordsAt b (be16 a₁ a₂) (o + 4) rs := fun rs => by
    constructor
    · rintro ⟨q₁', q₂', a₁', a₂', o, -, hq₁', hq₂', hone, ha₁', ha₂', hrest⟩
      cases hq₁.symm.trans hq₁'
      cases hq₂.symm.trans hq₂'
      cases ha₁.symm.trans ha₁'
      cases ha₂.symm.trans ha₂'
      exact ⟨hone, o, hrest⟩
    · rintro ⟨hone, o, hrest⟩
      exact ⟨q₁, q₂, a₁, a₂, o, by omega, hq₁, hq₂, hone, ha₁, ha₂, hrest⟩
  by_cases hone : be16 q₁ q₂ = 1
  swap
  · rw [if_pos hone]
    exact refused fun rs h => hone ((hresponse rs).mp h).1
  rw [if_neg (not_not.mpr hone)]
  obtain ⟨r, hr, hnames⟩ := dnsSkipName_exact b 12
  rw [Reads.bind_of_some hr]
  cases r with
  | none =>
    refine refused fun rs h => ?_
    obtain ⟨-, o, hname, -⟩ := (hresponse rs).mp h
    cases (hnames o).mpr hname
  | some o =>
    have ho : ∀ n, SoundName b 12 n ↔ n = o := fun n => by
      rw [← hnames, Option.some_inj]
      exact eq_comm
    dsimp only
    by_cases hroom : b.length < o ∨ b.length - o < 4
    · rw [if_pos hroom]
      refine refused fun rs h => ?_
      obtain ⟨-, o', hname, hfits, -⟩ := (hresponse rs).mp h
      obtain rfl := (ho o').mp hname
      omega
    rw [if_neg hroom]
    obtain ⟨res, hres, hall, hno⟩ := @dnsRecords_exact b cap (be16 a₁ a₂) (o + 4) [] (Nat.zero_le _)
    refine ⟨res, hres, fun rs h => ?_, fun hnone => ?_⟩
    · obtain ⟨-, o', hname, -, hrecords⟩ := (hresponse rs).mp h
      obtain rfl := (ho o').mp hname
      rw [hall rs hrecords, List.nil_append]
    · refine hno fun ⟨rs, hrs⟩ => hnone ⟨rs, (hresponse rs).mpr ⟨hone, o, (ho o).mpr rfl, by omega, hrs⟩⟩

end Addresses

section Build

/-- The labels of `dns_build`, from the position `o` on; a run of bytes that is not a dot is a label. -/
def dnsLabels (cap o : Nat) (p : Bytes) : Option Bytes :=
  if p = [] then some []
  else
    let label := p.takeWhile (· ≠ 0x2E)
    if label.length = 0 ∨ 63 < label.length ∨ cap ≤ o + label.length + 1 then none
    else if p.drop label.length = [] then some (UInt8.ofNat label.length :: label)
    else
      (dnsLabels cap (o + label.length + 1) (p.drop (label.length + 1))).map fun labels =>
        UInt8.ofNat label.length :: (label ++ labels)
termination_by p.length
decreasing_by
  have := List.length_pos_iff.mpr (by assumption : ¬p = [])
  rw [List.length_drop]
  omega

/-- `dns_build`. -/
def dnsBuild (cap : Nat) (name : Bytes) (id : UInt16) : Option Bytes :=
  if cap < 12 + name.length + 6 then none
  else
    (dnsLabels cap 12 name).map fun labels =>
      [UInt8.ofNat (id.toNat / 256), UInt8.ofNat id.toNat, 1, 0, 0, 1, 0, 0, 0, 0, 0, 0] ++ (labels ++ [0, 0, 1, 0, 1])

/-- A label and a name behind it make a name. -/
theorem nameAt_label {pre label rest : Bytes} {expanded next : Nat} (hpos : label.length ≠ 0) (hle : label.length ≤ 63)
    (h : NameAt (pre ++ UInt8.ofNat label.length :: label ++ rest) (pre.length + 1 + label.length) expanded next) :
    NameAt (pre ++ UInt8.ofNat label.length :: label ++ rest) pre.length (expanded + label.length + 1) next := by
  have hl : (UInt8.ofNat label.length).toNat = label.length :=
    UInt8.toNat_ofNat_of_lt' (Nat.lt_of_le_of_lt hle (by decide))
  have hread : (pre ++ UInt8.ofNat label.length :: label ++ rest)[pre.length]? = some (UInt8.ofNat label.length) := by
    rw [List.append_assoc]
    exact Reads.behind_zero _ _
  have hname := @NameAt.label (pre ++ UInt8.ofNat label.length :: label ++ rest) pre.length _ expanded next hread
  rw [hl] at hname
  refine hname ?_ ?_ ?_ ?_
  · rw [UInt8.lt_iff_toNat_lt, hl]
    exact Nat.pos_of_ne_zero hpos
  · rw [UInt8.le_iff_toNat_le, hl]
    exact hle
  · simp only [List.length_append, List.length_cons]
    omega
  · rwa [Nat.add_right_comm]

theorem dnsLabels_name {cap o : Nat} {p labels : Bytes} (h : dnsLabels cap o p = some labels) (pre tail : Bytes) :
    NameAt (pre ++ (labels ++ 0 :: tail)) pre.length labels.length (pre.length + labels.length + 1) ∧
      labels.length ≤ p.length + 1 := by
  induction hn : p.length using Nat.strong_induction_on generalizing o p labels pre with
  | _ n ih =>
    subst hn
    rw [dnsLabels] at h
    by_cases hnil : p = []
    · rw [if_pos hnil] at h
      cases h
      exact ⟨.root (Reads.behind_zero pre (0 :: tail)), Nat.zero_le _⟩
    rw [if_neg hnil] at h
    dsimp only at h
    have hlabel : (p.takeWhile (· ≠ 0x2E)).length ≤ p.length :=
      (List.takeWhile_prefix _).length_le
    generalize p.takeWhile (· ≠ 0x2E) = label at h hlabel
    split at h
    next => cases h
    next hgood =>
      rw [not_or, not_or] at hgood
      obtain ⟨hpos, hle, -⟩ := hgood
      split at h
      next =>
        cases h
        refine ⟨?_, by rw [List.length_cons]; omega⟩
        have hroot : NameAt (pre ++ UInt8.ofNat label.length :: label ++ 0 :: tail) (pre.length + 1 + label.length) 0
            (pre.length + 1 + label.length + 1) := by
          have hbehind := Reads.behind_zero (pre ++ UInt8.ofNat label.length :: label) (0 :: tail)
          rw [List.length_append, List.length_cons, Nat.add_comm label.length, ← Nat.add_assoc] at hbehind
          exact .root hbehind
        have hname := nameAt_label hpos (Nat.not_lt.mp hle) hroot
        rw [List.append_assoc] at hname
        simpa only [List.length_cons, Nat.zero_add, Nat.add_assoc, Nat.add_comm 1] using hname
      next hmore =>
        obtain ⟨more, hmore', rfl⟩ := Option.map_eq_some_iff.mp h
        have hshort : label.length < p.length := by
          have hlen := List.length_pos_iff.mpr hmore
          rw [List.length_drop] at hlen
          omega
        obtain ⟨hrest, hlen⟩ := ih (p.drop (label.length + 1)).length (by rw [List.length_drop]; omega) hmore'
          (pre ++ UInt8.ofNat label.length :: label) rfl
        rw [List.length_drop] at hlen
        have hpre : (pre ++ UInt8.ofNat label.length :: label).length = pre.length + 1 + label.length := by
          rw [List.length_append, List.length_cons]
          omega
        rw [hpre] at hrest
        have hname := nameAt_label hpos (Nat.not_lt.mp hle) hrest
        have hlabels : (UInt8.ofNat label.length :: (label ++ more)).length = more.length + label.length + 1 := by
          rw [List.length_cons, List.length_append]
          omega
        rw [hlabels]
        refine ⟨?_, by omega⟩
        have hbuf : pre ++ UInt8.ofNat label.length :: label ++ (more ++ 0 :: tail) =
            pre ++ (UInt8.ofNat label.length :: (label ++ more) ++ 0 :: tail) := by
          simp only [List.append_assoc, List.cons_append]
        have hnext : pre.length + 1 + label.length + more.length + 1 =
            pre.length + (more.length + label.length + 1) + 1 := by
          omega
        rwa [hbuf, hnext] at hname

/-- The question that is built is skipped up to its type and class. -/
theorem dnsBuild_skipped {cap : Nat} {name m : Bytes} {id : UInt16} (hname : name.length ≤ 253)
    (h : dnsBuild cap name id = some m) : dnsSkipName m 12 = some (some (m.length - 4)) := by
  unfold dnsBuild at h
  split at h
  next => cases h
  next =>
    obtain ⟨labels, hlabels, rfl⟩ := Option.map_eq_some_iff.mp h
    obtain ⟨hat, hlen⟩ := dnsLabels_name hlabels
      [UInt8.ofNat (id.toNat / 256), UInt8.ofNat id.toNat, 1, 0, 0, 1, 0, 0, 0, 0, 0, 0] [0, 1, 0, 1]
    obtain ⟨r, hr, hskip⟩ := dnsSkipName_exact
      ([UInt8.ofNat (id.toNat / 256), UInt8.ofNat id.toNat, 1, 0, 0, 1, 0, 0, 0, 0, 0, 0] ++
        (labels ++ [0, 0, 1, 0, 1])) 12
    rw [hr]
    refine congrArg some ((hskip _).mpr ⟨labels.length, ?_, by omega⟩)
    have hend : ([UInt8.ofNat (id.toNat / 256), UInt8.ofNat id.toNat, 1, 0, 0, 1, 0, 0, 0, 0, 0, 0] ++
        (labels ++ [0, 0, 1, 0, 1])).length - 4 = 12 + labels.length + 1 := by
      simp only [List.length_append, List.length_cons, List.length_nil]
      omega
    rw [hend]
    exact hat

end Build

/-- Names are skipped and answers read exactly, inside the message, and the questions that are built are skipped. -/
theorem dns_exact :
    (∀ b o, ∃ r, dnsSkipName b o = some r ∧ ∀ n, r = some n ↔ SoundName b o n) ∧
      (∀ b cap, ∃ res, dnsAnswers b cap = some res ∧
        (∀ rs, DnsResponse b rs → res = (rs.filterMap DnsRecord.address).take cap) ∧
        ((¬∃ rs, DnsResponse b rs) → res = [])) ∧
      ∀ cap name id m, name.length ≤ 253 → dnsBuild cap name id = some m →
        dnsSkipName m 12 = some (some (m.length - 4)) :=
  ⟨dnsSkipName_exact, dnsAnswers_exact, fun _ _ _ _ => dnsBuild_skipped⟩

end Qanat

import Qanat.HttpProbe
import Qanat.General.Mentions
import Qanat.General.Numeral

namespace Qanat

open Decimal (value strtoull)

/-- `kTop`. -/
def topPorts : List Nat :=
  [80, 443, 22, 21, 25, 3389, 110, 445, 139, 143, 53, 135, 3306, 8080, 1723, 111, 995, 993, 5900, 23, 587, 8443, 1433,
   5432, 6379, 27017, 8888, 9200, 2222, 8000, 8081, 10000, 5060, 1194, 1080, 3128, 2082, 2083, 2086, 2087, 7070, 9000,
   9090, 5555, 6443, 11211, 161, 389, 636, 873, 2049, 5672, 9092, 15672, 32400, 51820]

/-- The output of `qn_parse_ports` so far, and the map of what is in it. -/
structure PortList where
  out : List Nat
  seen : Nat → Bool

def PortList.add (cap : Nat) (s : PortList) (v : Nat) : Option PortList :=
  if s.seen v then some s
  else if cap ≤ s.out.length then none
  else some ⟨s.out ++ [v], Function.update s.seen v true⟩

/-- A number that starts with a digit and lies between two bounds, and what follows it. -/
def portNumber (lo : Nat) (p : Bytes) : Option (Nat × Bytes) :=
  if p.head?.all fun c => !Decimal.isDigit c then none
  else
    let r := strtoull p
    if r.2.2 = p ∨ r.2.1 ∨ r.1 < lo ∨ 65535 < r.1 then none else some (r.1, r.2.2)

/-- One round of the loop of `qn_parse_ports` up to the comma: the range, and what follows. -/
def parsePortItem (p : Bytes) : Option (Nat × Nat × Bytes) :=
  match portNumber 1 (p.dropWhile isBlank) with
  | none => none
  | some (lo, q) =>
    let q := q.dropWhile isBlank
    if q.head? = some 45 then
      match portNumber lo q.tail with
      | none => none
      | some (hi, q) => some (lo, hi, q.dropWhile isBlank)
    else some (lo, lo, q)

/-- The loop of `qn_parse_ports`; no fuel is left only when no input is. -/
def parsePortsLoop (cap : Nat) : Nat → PortList → Bytes → Option PortList
  | 0, _, _ => none
  | fuel + 1, s, p =>
    match parsePortItem p with
    | none => none
    | some (lo, hi, q) =>
      match (List.range' lo (hi + 1 - lo)).foldlM (PortList.add cap) s with
      | none => none
      | some s =>
        if q = [] then some s
        else if q.head? ≠ some 44 then none
        else if q.tail.dropWhile isBlank = [] then none
        else parsePortsLoop cap fuel s (q.tail.dropWhile isBlank)

/-- `qn_parse_ports`. -/
def parsePorts (spec : Bytes) (cap : Nat) : Option (List Nat) :=
  if spec = [] ∨ spec = [45] ∨ spec = ascii ['a', 'l', 'l'] then
    if cap < 65535 then none else some (List.range' 1 65535)
  else if spec = ascii ['t', 'o', 'p'] then if cap < topPorts.length then none else some topPorts
  else ((parsePortsLoop cap spec.length ⟨[], fun _ => false⟩ spec).map PortList.out).filter (· ≠ [])

/-- An item of a port list: blanks, digits, blanks, and where it is a range a minus with digits and blanks. -/
structure PortItem where
  lead : Bytes
  lo : Bytes
  mid : Bytes
  upto : Option (Bytes × Bytes)

def PortItem.render (i : PortItem) : Bytes :=
  i.lead ++ (i.lo ++ (i.mid ++
    match i.upto with
    | none => []
    | some (hi, tail) => 45 :: (hi ++ tail)))

def PortItem.last (i : PortItem) : Nat :=
  match i.upto with
  | none => value i.lo
  | some (hi, _) => value hi

/-- The ports an item denotes. -/
def PortItem.ports (i : PortItem) : List Nat :=
  List.range' (value i.lo) (i.last + 1 - value i.lo)

/-- Blanks are blank and digits are digits. -/
structure PortItem.WellFormed (i : PortItem) : Prop where
  lead : ∀ c ∈ i.lead, isBlank c = true
  lo : i.lo ≠ [] ∧ ∀ c ∈ i.lo, Decimal.isDigit c = true
  mid : ∀ c ∈ i.mid, isBlank c = true
  upto : ∀ hi tail, i.upto = some (hi, tail) →
    (hi ≠ [] ∧ ∀ c ∈ hi, Decimal.isDigit c = true) ∧ ∀ c ∈ tail, isBlank c = true

/-- The numbers are ports, in order. -/
structure PortItem.Legal (i : PortItem) : Prop where
  one_le : 1 ≤ value i.lo
  le_last : value i.lo ≤ i.last
  last_le : i.last ≤ 65535

theorem digit_not_blank {c : UInt8} (h : Decimal.isDigit c = true) : isBlank c = false := by
  by_contra hb
  rw [Bool.not_eq_false, isBlank, Bool.or_eq_true, beq_iff_eq, beq_iff_eq] at hb
  rcases hb with rfl | rfl <;> exact absurd h (by decide)

/-- What does not go on with digits. -/
def EndsDigits (q : Bytes) : Prop :=
  ∀ c ∈ q.head?, Decimal.isDigit c = false

theorem strtoull_digits {ds q : Bytes} (hne : ds ≠ []) (hds : ∀ c ∈ ds, Decimal.isDigit c = true) (hq : EndsDigits q) :
    strtoull (ds ++ q) = if 2 ^ 64 - 1 < value ds then (2 ^ 64 - 1, true, q) else (value ds, false, q) := by
  have hr : Numeral.digitsIn 10 (ds ++ q) = some (value ds, q) := by
    refine Numeral.digitsIn_eq_some.mpr ⟨ds, hne, fun c hc => (Numeral.digit_lt_ten c).mpr (hds c hc), rfl,
      (Numeral.valueIn_ten hds).symm, fun c hc => ?_⟩
    rw [Numeral.digit_lt_ten, hq c hc]
    exact Bool.false_ne_true
  have hf : Numeral.Front (ds ++ q) (ds ++ q) false := @Numeral.Front.bare [] (ds ++ q) fun c hc => by cases hc
  rw [Numeral.strtoull_ten, Numeral.strtoull_front (Numeral.plain_digitsIn (by omega)) hf hr]
  rfl

/-- A number in its bounds is read to its end, and any other is refused. -/
theorem portNumber_digits {ds q : Bytes} {lo : Nat} (hne : ds ≠ []) (hds : ∀ c ∈ ds, Decimal.isDigit c = true)
    (hq : EndsDigits q) : portNumber lo (ds ++ q) =
      if lo ≤ value ds ∧ value ds ≤ 65535 then some (value ds, q) else none := by
  obtain ⟨c, ds, rfl⟩ := List.exists_cons_of_ne_nil hne
  have hc := hds c List.mem_cons_self
  have hdiff : q ≠ c :: ds ++ q := by
    intro heq
    have := congrArg List.length heq
    rw [List.length_append, List.length_cons] at this
    omega
  have hfirst : ¬((c :: ds ++ q).head?.all fun c => !Decimal.isDigit c) = true := by
    simp [hc]
  unfold portNumber
  rw [if_neg hfirst, strtoull_digits hne hds hq]
  by_cases hbig : 2 ^ 64 - 1 < value (c :: ds)
  · rw [if_pos hbig]
    dsimp only
    rw [if_pos (Or.inr (Or.inl rfl)), if_neg (by omega)]
  · rw [if_neg hbig]
    dsimp only
    by_cases hok : lo ≤ value (c :: ds) ∧ value (c :: ds) ≤ 65535
    · rw [if_pos hok, if_neg]
      rintro (h | h | h | h)
      · exact hdiff h
      · cases h
      · omega
      · omega
    · rw [if_neg hok, if_pos (by omega)]

/-- What is taken for a number begins with its digits. -/
theorem portNumber_some {p q : Bytes} {lo v : Nat} (h : portNumber lo p = some (v, q)) :
    ∃ ds, ds ≠ [] ∧ (∀ c ∈ ds, Decimal.isDigit c = true) ∧ EndsDigits q ∧ p = ds ++ q ∧ v = value ds ∧
      lo ≤ v ∧ v ≤ 65535 := by
  have hsplit : p = p.takeWhile Decimal.isDigit ++ p.dropWhile Decimal.isDigit := List.takeWhile_append_dropWhile.symm
  have hds : ∀ c ∈ p.takeWhile Decimal.isDigit, Decimal.isDigit c = true := fun c hc => List.mem_takeWhile_imp hc
  have hq : EndsDigits (p.dropWhile Decimal.isDigit) := by
    intro c hc
    have hnot := List.head?_dropWhile_not Decimal.isDigit p
    rw [Option.mem_def.mp hc] at hnot
    exact hnot
  have hne : p.takeWhile Decimal.isDigit ≠ [] := by
    intro hnil
    rw [hnil, List.nil_append] at hsplit
    have hfirst : (p.head?.all fun c => !Decimal.isDigit c) = true := by
      rw [← hsplit] at hq
      cases hp : p.head? with
      | none => rfl
      | some c => simp [hq c hp]
    rw [portNumber, if_pos hfirst] at h
    cases h
  rw [hsplit, portNumber_digits hne hds hq] at h
  split at h
  next hok =>
    obtain ⟨rfl, rfl⟩ := Prod.mk.inj (Option.some.inj h)
    exact ⟨_, hne, hds, hq, hsplit, rfl, hok⟩
  next => cases h

theorem dropWhile_blank {bl t : Bytes} (hbl : ∀ c ∈ bl, isBlank c = true) (ht : ∀ c ∈ t.head?, isBlank c = false) :
    (bl ++ t).dropWhile isBlank = t := by
  rw [List.dropWhile_append_of_pos hbl]
  cases t with
  | nil => rfl
  | cons c t => exact List.dropWhile_cons_of_neg (by simp [ht c rfl])

/-- What stands at the end of an item: nothing, or something that is no digit, blank or minus. -/
def EndsItem (q : Bytes) : Prop :=
  ∀ c ∈ q.head?, Decimal.isDigit c = false ∧ isBlank c = false ∧ c ≠ 45

theorem blank_not_digit {bl q : Bytes} (hbl : ∀ c ∈ bl, isBlank c = true) (hq : EndsDigits q) :
    EndsDigits (bl ++ q) := by
  cases bl with
  | nil => exact hq
  | cons c bl =>
    intro d hd
    obtain rfl : c = d := Option.some.inj hd
    by_contra hdig
    have := hbl c List.mem_cons_self
    rw [digit_not_blank (Bool.not_eq_false _ ▸ hdig)] at this
    cases this

/-- A well-formed and legal item is read to its end. -/
theorem parsePortItem_render {i : PortItem} {q : Bytes} (hwf : i.WellFormed) (hl : i.Legal) (hq : EndsItem q) :
    parsePortItem (i.render ++ q) = some (value i.lo, i.last, q) := by
  obtain ⟨lead, lo, mid, upto⟩ := i
  have hone := hl.one_le
  have hle := hl.le_last
  have hlast := hl.last_le
  have hlead := hwf.lead
  obtain ⟨hne, hlo⟩ := hwf.lo
  have hmid := hwf.mid
  have hupto := hwf.upto
  dsimp only at hone hle hlast hlead hne hlo hmid hupto
  have hloDigit : ∀ t : Bytes, ∀ c ∈ (lo ++ t).head?, isBlank c = false := by
    intro t c hc
    obtain ⟨d, lo, rfl⟩ := List.exists_cons_of_ne_nil hne
    obtain rfl : d = c := Option.some.inj hc
    exact digit_not_blank (hlo d List.mem_cons_self)
  cases upto with
  | none =>
    have hq' : EndsDigits q := fun c hc => (hq c hc).1
    have hsame : PortItem.last ⟨lead, lo, mid, none⟩ = value lo := rfl
    rw [hsame] at hlast ⊢
    have hrender : PortItem.render ⟨lead, lo, mid, none⟩ ++ q = lead ++ (lo ++ (mid ++ q)) := by
      simp [PortItem.render]
    unfold parsePortItem
    rw [hrender, dropWhile_blank hlead (hloDigit _), portNumber_digits hne hlo (blank_not_digit hmid hq'),
      if_pos ⟨hone, hlast⟩]
    dsimp only
    rw [dropWhile_blank hmid fun c hc => (hq c hc).2.1, if_neg fun h : q.head? = some 45 => (hq 45 h).2.2 rfl]
  | some r =>
    obtain ⟨hi, tail⟩ := r
    obtain ⟨⟨hhine, hhi⟩, htail⟩ := hupto hi tail rfl
    have hq' : EndsDigits q := fun c hc => (hq c hc).1
    have hsame : PortItem.last ⟨lead, lo, mid, some (hi, tail)⟩ = value hi := rfl
    rw [hsame] at hle hlast ⊢
    have hrender : PortItem.render ⟨lead, lo, mid, some (hi, tail)⟩ ++ q =
        lead ++ (lo ++ (mid ++ 45 :: (hi ++ (tail ++ q)))) := by
      simp [PortItem.render]
    have hdash : EndsDigits (45 :: (hi ++ (tail ++ q))) := by
      intro c hc
      obtain rfl : 45 = c := Option.some.inj hc
      rfl
    have hdash' : ∀ c ∈ (45 :: (hi ++ (tail ++ q))).head?, isBlank c = false := by
      intro c hc
      obtain rfl : 45 = c := Option.some.inj hc
      rfl
    unfold parsePortItem
    rw [hrender, dropWhile_blank hlead (hloDigit _), portNumber_digits hne hlo (blank_not_digit hmid hdash),
      if_pos ⟨hone, by omega⟩]
    dsimp only
    rw [dropWhile_blank hmid hdash', if_pos (by rfl), List.tail_cons,
      portNumber_digits hhine hhi (blank_not_digit htail hq'), if_pos ⟨hle, hlast⟩]
    dsimp only
    rw [dropWhile_blank htail fun c hc => (hq c hc).2.1]

theorem head_dropWhile_blank {p : Bytes} {c : UInt8} (h : c ∈ (p.dropWhile isBlank).head?) : isBlank c = false := by
  have hnot := List.head?_dropWhile_not isBlank p
  rw [Option.mem_def.mp h] at hnot
  exact hnot

/-- What is read as an item is a well-formed and legal one. -/
theorem parsePortItem_some {p q : Bytes} {lo hi : Nat} (h : parsePortItem p = some (lo, hi, q)) :
    ∃ i : PortItem, i.WellFormed ∧ i.Legal ∧ p = i.render ++ q ∧ lo = value i.lo ∧ hi = i.last := by
  have hlead : ∀ c ∈ p.takeWhile isBlank, isBlank c = true := fun c hc => List.mem_takeWhile_imp hc
  have hp : p = p.takeWhile isBlank ++ p.dropWhile isBlank := List.takeWhile_append_dropWhile.symm
  unfold parsePortItem at h
  cases hfirst : portNumber 1 (p.dropWhile isBlank) with
  | none =>
    rw [hfirst] at h
    cases h
  | some r =>
    obtain ⟨v, t⟩ := r
    rw [hfirst] at h
    obtain ⟨ds, hne, hds, -, hdrop, rfl, hone, hle⟩ := portNumber_some hfirst
    have hmid : ∀ c ∈ t.takeWhile isBlank, isBlank c = true := fun c hc => List.mem_takeWhile_imp hc
    have ht : t = t.takeWhile isBlank ++ t.dropWhile isBlank := List.takeWhile_append_dropWhile.symm
    dsimp only at h
    by_cases hminus : (t.dropWhile isBlank).head? = some 45
    · rw [if_pos hminus] at h
      obtain ⟨u, hu⟩ := List.head?_eq_some_iff.mp hminus
      cases hsecond : portNumber (value ds) (t.dropWhile isBlank).tail with
      | none =>
        rw [hsecond] at h
        cases h
      | some r =>
        obtain ⟨w, z⟩ := r
        rw [hsecond] at h
        obtain ⟨es, hene, hes, -, htail, rfl, hlo, hhi⟩ := portNumber_some hsecond
        simp only [Option.some.injEq, Prod.mk.injEq] at h
        obtain ⟨rfl, rfl, rfl⟩ := h
        have hz : z = z.takeWhile isBlank ++ z.dropWhile isBlank := List.takeWhile_append_dropWhile.symm
        refine ⟨⟨p.takeWhile isBlank, ds, t.takeWhile isBlank, some (es, z.takeWhile isBlank)⟩,
          ⟨hlead, ⟨hne, hds⟩, hmid, ?_⟩, ⟨hone, hlo, hhi⟩, ?_, rfl, rfl⟩
        · rintro _ _ ⟨⟩
          exact ⟨⟨hene, hes⟩, fun c hc => List.mem_takeWhile_imp hc⟩
        · rw [hu, List.tail_cons] at htail
          rw [htail] at hu
          unfold PortItem.render
          simp only [List.append_assoc, List.cons_append]
          rw [← hz, ← hu, ← ht, ← hdrop]
          exact hp
    · rw [if_neg hminus] at h
      simp only [Option.some.injEq, Prod.mk.injEq] at h
      obtain ⟨rfl, rfl, rfl⟩ := h
      refine ⟨⟨p.takeWhile isBlank, ds, t.takeWhile isBlank, none⟩,
        ⟨hlead, ⟨hne, hds⟩, hmid, fun _ _ h => by cases h⟩, ⟨hone, Nat.le_refl _, hle⟩, ?_, rfl, rfl⟩
      unfold PortItem.render
      simp only [List.append_assoc, List.nil_append]
      rw [← ht, ← hdrop]
      exact hp

/-- The output with a map that agrees with it. -/
def PortList.of (out : List Nat) : PortList :=
  ⟨out, fun v => decide (v ∈ out)⟩

theorem PortList.add_of (cap : Nat) (out : List Nat) (v : Nat) : PortList.add cap (.of out) v =
    if v ∈ out then some (.of out) else if cap ≤ out.length then none else some (.of (out ++ [v])) := by
  unfold PortList.add PortList.of
  dsimp only
  by_cases hv : v ∈ out
  · rw [if_pos hv, if_pos (decide_eq_true hv)]
  · rw [if_neg hv, if_neg (by simpa using hv)]
    by_cases hcap : cap ≤ out.length
    · rw [if_pos hcap, if_pos hcap]
    · rw [if_neg hcap, if_neg hcap]
      congr 2
      funext w
      by_cases hw : w = v
      · simp [hw]
      · rw [Function.update_of_ne hw]
        simp [hw]

/-- Ports are added in the order of their first mention, as long as there is room. -/
theorem PortList.addAll_of {cap : Nat} (l : List Nat) {out : List Nat} (hout : out.length ≤ cap) :
    l.foldlM (PortList.add cap) (.of out) =
      if (out ++ (Mentions.first l).filter (· ∉ out)).length ≤ cap then
        some (.of (out ++ (Mentions.first l).filter (· ∉ out)))
      else none := by
  induction l generalizing out with
  | nil =>
    rw [Mentions.first, List.filter_nil, List.append_nil, if_pos hout]
    rfl
  | cons v l ih =>
    rw [List.foldlM_cons, PortList.add_of]
    by_cases hv : v ∈ out
    · rw [if_pos hv, Mentions.append_first_cons_mem hv]
      exact ih hout
    · rw [if_neg hv, Mentions.append_first_cons_not_mem hv]
      by_cases hcap : cap ≤ out.length
      · rw [if_pos hcap, if_neg]
        · rfl
        · simp only [List.length_append, List.length_singleton]
          omega
      · rw [if_neg hcap]
        exact ih (by rw [List.length_append, List.length_singleton]; omega)

theorem parsePortItem_dropWhile (p : Bytes) : parsePortItem (p.dropWhile isBlank) = parsePortItem p := by
  have hidem : (p.dropWhile isBlank).dropWhile isBlank = p.dropWhile isBlank :=
    @dropWhile_blank [] _ (fun c hc => by cases hc) fun c hc => head_dropWhile_blank hc
  unfold parsePortItem
  rw [hidem]

theorem parsePortsLoop_dropWhile (cap fuel : Nat) (s : PortList) (p : Bytes) :
    parsePortsLoop cap fuel s (p.dropWhile isBlank) = parsePortsLoop cap fuel s p := by
  cases fuel with
  | zero => rfl
  | succ fuel => rw [parsePortsLoop, parsePortsLoop, parsePortItem_dropWhile]

/-- Items joined by commas. -/
def joinItems (items : List PortItem) : Bytes :=
  [44].intercalate (items.map PortItem.render)

theorem joinItems_cons (i j : PortItem) (items : List PortItem) :
    joinItems (i :: j :: items) = i.render ++ 44 :: joinItems (j :: items) := by
  rw [joinItems, List.map_cons, List.map_cons, List.intercalate_cons_cons, List.append_assoc]
  rfl

theorem joinItems_single (i : PortItem) : joinItems [i] = i.render := List.intercalate_singleton

theorem PortItem.WellFormed.digit_mem {i : PortItem} (h : i.WellFormed) : ∃ c ∈ i.render, isBlank c = false := by
  obtain ⟨c, lo, hc⟩ := List.exists_cons_of_ne_nil h.lo.1
  refine ⟨c, ?_, digit_not_blank (h.lo.2 c (hc ▸ List.mem_cons_self))⟩
  unfold PortItem.render
  exact List.mem_append_right _ (List.mem_append_left _ (hc ▸ List.mem_cons_self))

theorem joinItems_not_blank {i : PortItem} {items : List PortItem} (h : i.WellFormed) :
    (joinItems (i :: items)).dropWhile isBlank ≠ [] := by
  obtain ⟨c, hc, hblank⟩ := h.digit_mem
  have hmem : c ∈ joinItems (i :: items) := by
    cases items with
    | nil => rwa [joinItems_single]
    | cons j items =>
      rw [joinItems_cons]
      exact List.mem_append_left _ hc
  intro hnil
  have := List.dropWhile_eq_nil_iff.mp hnil c hmem
  rw [hblank] at this
  cases this

/-- A list of items is read to its end: its ports are added one after the other. -/
theorem parsePortsLoop_items {cap fuel : Nat} {s : PortList} {items : List PortItem} (hne : items ≠ [])
    (hfuel : items.length ≤ fuel) (hall : ∀ i ∈ items, i.WellFormed ∧ i.Legal) :
    parsePortsLoop cap fuel s (joinItems items) = (items.flatMap PortItem.ports).foldlM (PortList.add cap) s := by
  induction items generalizing fuel s with
  | nil => exact absurd rfl hne
  | cons i items ih =>
    obtain ⟨hwf, hl⟩ := hall i List.mem_cons_self
    obtain ⟨fuel, rfl⟩ : ∃ n, fuel = n + 1 := ⟨fuel - 1, by rw [List.length_cons] at hfuel; omega⟩
    cases items with
    | nil =>
      have hread := @parsePortItem_render i [] hwf hl fun c hc => by cases hc
      rw [List.append_nil] at hread
      rw [joinItems_single, parsePortsLoop, hread, List.flatMap_singleton]
      dsimp only
      cases hadd : i.ports.foldlM (PortList.add cap) s with
      | none =>
        rw [PortItem.ports] at hadd
        rw [hadd]
      | some t =>
        rw [PortItem.ports] at hadd
        rw [hadd]
        exact if_pos rfl
    | cons j items =>
      have hread := @parsePortItem_render i (44 :: joinItems (j :: items)) hwf hl fun c hc => by
        obtain rfl : 44 = c := Option.some.inj hc
        exact ⟨by decide, by decide, by decide⟩
      have hwfj := (hall j (List.mem_cons_of_mem i List.mem_cons_self)).1
      rw [joinItems_cons, parsePortsLoop, hread, List.flatMap_cons, List.foldlM_append]
      dsimp only
      cases hadd : i.ports.foldlM (PortList.add cap) s with
      | none =>
        rw [PortItem.ports] at hadd
        rw [hadd]
        rfl
      | some t =>
        rw [PortItem.ports] at hadd
        rw [hadd]
        dsimp only
        rw [if_neg (List.cons_ne_nil _ _), List.head?_cons, if_neg (not_not_intro rfl), List.tail_cons,
          if_neg (joinItems_not_blank hwfj), parsePortsLoop_dropWhile]
        exact ih (List.cons_ne_nil _ _) (Nat.le_of_succ_le_succ hfuel)
          fun k hk => hall k (List.mem_cons_of_mem i hk)

/-- More blanks in front of an item. -/
def PortItem.pad (bl : Bytes) (i : PortItem) : PortItem :=
  { i with lead := bl ++ i.lead }

theorem joinItems_pad (bl : Bytes) (i : PortItem) (items : List PortItem) :
    joinItems (i.pad bl :: items) = bl ++ joinItems (i :: items) := by
  have hrender : (i.pad bl).render = bl ++ i.render := List.append_assoc _ _ _
  cases items with
  | nil => rw [joinItems_single, joinItems_single, hrender]
  | cons j items => rw [joinItems_cons, joinItems_cons, hrender, List.append_assoc]

/-- Whatever is accepted is a list of items. -/
theorem parsePortsLoop_some {cap fuel : Nat} {s t : PortList} {p : Bytes} (h : parsePortsLoop cap fuel s p = some t) :
    ∃ items, items ≠ [] ∧ p = joinItems items ∧ (∀ i ∈ items, i.WellFormed ∧ i.Legal) ∧
      (items.flatMap PortItem.ports).foldlM (PortList.add cap) s = some t := by
  induction fuel generalizing s p with
  | zero => cases h
  | succ fuel ih =>
    rw [parsePortsLoop] at h
    cases hitem : parsePortItem p with
    | none =>
      rw [hitem] at h
      cases h
    | some r =>
      obtain ⟨lo, hi, q⟩ := r
      obtain ⟨i, hwf, hl, rfl, rfl, rfl⟩ := parsePortItem_some hitem
      rw [hitem] at h
      dsimp only at h
      cases hadd : i.ports.foldlM (PortList.add cap) s with
      | none =>
        rw [PortItem.ports] at hadd
        rw [hadd] at h
        cases h
      | some u =>
        have hadd' := hadd
        rw [PortItem.ports] at hadd'
        rw [hadd'] at h
        dsimp only at h
        by_cases hq : q = []
        · rw [if_pos hq] at h
          obtain rfl := Option.some.inj h
          refine ⟨[i], List.cons_ne_nil _ _, by rw [joinItems_single, hq, List.append_nil],
            List.forall_mem_singleton.mpr ⟨hwf, hl⟩, ?_⟩
          rw [List.flatMap_singleton]
          exact hadd
        · rw [if_neg hq] at h
          by_cases hcomma : q.head? = some 44
          · rw [if_neg (not_not_intro hcomma)] at h
            obtain ⟨rest, rfl⟩ := List.head?_eq_some_iff.mp hcomma
            rw [List.tail_cons] at h
            by_cases hend : rest.dropWhile isBlank = []
            · rw [if_pos hend] at h
              cases h
            · rw [if_neg hend] at h
              obtain ⟨items, hne, hjoin, hall, hfold⟩ := ih h
              obtain ⟨j, items, rfl⟩ := List.exists_cons_of_ne_nil hne
              have hlead : ∀ c ∈ rest.takeWhile isBlank, isBlank c = true := fun c hc => List.mem_takeWhile_imp hc
              have hrest : rest = joinItems (j.pad (rest.takeWhile isBlank) :: items) := by
                rw [joinItems_pad, ← hjoin, List.takeWhile_append_dropWhile]
              have hpad : ∀ k ∈ j.pad (rest.takeWhile isBlank) :: items, k.WellFormed ∧ k.Legal := by
                obtain ⟨⟨hjwf, hjl⟩, hitems⟩ := List.forall_mem_cons.mp hall
                refine List.forall_mem_cons.mpr ⟨⟨⟨?_, hjwf.lo, hjwf.mid, hjwf.upto⟩, ?_⟩, hitems⟩
                · exact List.forall_mem_append.mpr ⟨hlead, hjwf.lead⟩
                · exact ⟨hjl.one_le, hjl.le_last, hjl.last_le⟩
              refine ⟨i :: j.pad (rest.takeWhile isBlank) :: items, List.cons_ne_nil _ _, ?_,
                List.forall_mem_cons.mpr ⟨⟨hwf, hl⟩, hpad⟩, ?_⟩
              · rw [joinItems_cons, ← hrest]
              · rw [List.flatMap_cons, List.foldlM_append, hadd]
                exact hfold
          · rw [if_pos hcomma] at h
            cases h

theorem length_items_le {items : List PortItem} (hall : ∀ i ∈ items, i.WellFormed ∧ i.Legal) :
    items.length ≤ (joinItems items).length := by
  induction items with
  | nil => exact Nat.zero_le _
  | cons i items ih =>
    have hpos : 0 < i.render.length := by
      obtain ⟨c, hc, -⟩ := (hall i List.mem_cons_self).1.digit_mem
      exact List.length_pos_of_mem hc
    have hrest := ih fun k hk => hall k (List.mem_cons_of_mem i hk)
    cases items with
    | nil =>
      rw [joinItems_single]
      exact hpos
    | cons j items =>
      rw [joinItems_cons]
      simp only [List.length_append, List.length_cons] at hrest ⊢
      omega

/-- Port lists are parsed exactly: what is accepted is items joined by commas, with ports in their bounds and no more
of them than there is room for, and the output holds the ports in the order of their first mention. -/
theorem parsePorts_exact {spec : Bytes} (h : spec ≠ [] ∧ spec ≠ [45] ∧ spec ≠ ascii ['a', 'l', 'l'] ∧
    spec ≠ ascii ['t', 'o', 'p']) (cap : Nat) (out : List Nat) :
    (parsePorts spec cap = some out ↔ ∃ items, items ≠ [] ∧ spec = [44].intercalate (items.map PortItem.render) ∧
      (∀ i ∈ items, i.WellFormed ∧ i.Legal) ∧ (items.flatMap PortItem.ports).dedup.length ≤ cap ∧
      out = Mentions.first (items.flatMap PortItem.ports)) ∧
    (parsePorts spec cap = some out → out.Nodup) := by
  obtain ⟨hempty, hdash, hall, htop⟩ := h
  have hstart : (⟨[], fun _ => false⟩ : PortList) = .of [] := by
    unfold PortList.of
    congr 1
  have hunfold : parsePorts spec cap =
      ((parsePortsLoop cap spec.length (.of []) spec).map PortList.out).filter (· ≠ []) := by
    unfold parsePorts
    rw [if_neg (by simp [hempty, hdash, hall]), if_neg htop, hstart]
  have hfold : ∀ l : List Nat, l.foldlM (PortList.add cap) (.of []) =
      if l.dedup.length ≤ cap then some (.of (Mentions.first l)) else none := by
    intro l
    have hadd := @PortList.addAll_of cap l [] (Nat.zero_le cap)
    simpa [Mentions.length_first] using hadd
  have hiff : parsePorts spec cap = some out ↔ ∃ items, items ≠ [] ∧
      spec = [44].intercalate (items.map PortItem.render) ∧ (∀ i ∈ items, i.WellFormed ∧ i.Legal) ∧
      (items.flatMap PortItem.ports).dedup.length ≤ cap ∧ out = Mentions.first (items.flatMap PortItem.ports) := by
    rw [hunfold, Option.filter_eq_some_iff, Option.map_eq_some_iff]
    constructor
    · rintro ⟨⟨t, hloop, rfl⟩, -⟩
      obtain ⟨items, hne, hjoin, hitems, hrun⟩ := parsePortsLoop_some hloop
      rw [hfold] at hrun
      split at hrun
      next hcap =>
        obtain rfl := Option.some.inj hrun
        exact ⟨items, hne, hjoin, hitems, hcap, rfl⟩
      next => cases hrun
    · rintro ⟨items, hne, hjoin, hitems, hcap, rfl⟩
      have hjoin' : spec = joinItems items := hjoin
      have hrun := @parsePortsLoop_items cap spec.length (.of []) items hne
        (hjoin' ▸ length_items_le hitems) hitems
      rw [← hjoin', hfold, if_pos hcap] at hrun
      refine ⟨⟨_, hrun, rfl⟩, ?_⟩
      obtain ⟨i, items, rfl⟩ := List.exists_cons_of_ne_nil hne
      have hl := (hitems i List.mem_cons_self).2
      have hmem : value i.lo ∈ Mentions.first ((i :: items).flatMap PortItem.ports) := by
        rw [Mentions.mem_first]
        refine List.mem_flatMap.mpr ⟨i, List.mem_cons_self, List.mem_range'_1.mpr ⟨Nat.le_refl _, ?_⟩⟩
        have := hl.le_last
        omega
      exact decide_eq_true (List.ne_nil_of_mem hmem)
  refine ⟨hiff, fun hsome => ?_⟩
  obtain ⟨items, -, -, -, -, rfl⟩ := hiff.mp hsome
  exact Mentions.nodup_first _

/-- `8-10`, then ` 09`. -/
def eightToTen : PortItem := ⟨[], [56], [], some ([49, 48], [])⟩

def nine : PortItem := ⟨[32], [48, 57], [], none⟩

theorem eightToTen_wellFormed : eightToTen.WellFormed where
  lead := List.forall_mem_nil _
  lo := ⟨by decide, List.all_eq_true.mp (by decide)⟩
  mid := List.forall_mem_nil _
  upto := by
    rintro hi tail ⟨⟩
    exact ⟨⟨by decide, List.all_eq_true.mp (by decide)⟩, List.forall_mem_nil _⟩

theorem nine_wellFormed : nine.WellFormed where
  lead := List.all_eq_true.mp (by decide)
  lo := ⟨by decide, List.all_eq_true.mp (by decide)⟩
  mid := List.forall_mem_nil _
  upto := by
    rintro hi tail ⟨⟩

theorem parsePorts_exact_sample : parsePorts [56, 45, 49, 48, 44, 32, 48, 57] 3 = some [8, 9, 10] := by
  have hlegal : eightToTen.Legal ∧ nine.Legal :=
    ⟨⟨by decide, by decide, by decide⟩, ⟨by decide, by decide, by decide⟩⟩
  have hitems : ∀ i ∈ [eightToTen, nine], i.WellFormed ∧ i.Legal := by
    simp only [List.forall_mem_cons]
    exact ⟨⟨eightToTen_wellFormed, hlegal.1⟩, ⟨nine_wellFormed, hlegal.2⟩, List.forall_mem_nil _⟩
  have hspec := @parsePorts_exact [56, 45, 49, 48, 44, 32, 48, 57] (by decide) 3 [8, 9, 10]
  exact hspec.1.mpr ⟨[eightToTen, nine], by decide, by decide, hitems, by decide +kernel, by decide +kernel⟩

end Qanat

import Qanat.CidrSnapshot
import Qanat.General.ListSum

namespace Qanat

/-- The lines of a file, each without its end. -/
def fileLines (buf : Bytes) : List Bytes :=
  (Lines.split chLf buf).map lineBody

/-- A line that does not fit the scratch buffer, or that holds a zero byte. -/
def Broken (l : Bytes) : Prop :=
  scratchCap ≤ l.length ∨ 0 ∈ l

instance (l : Bytes) : Decidable (Broken l) :=
  inferInstanceAs (Decidable (_ ∨ _))

def isGap (c : UInt8) : Bool :=
  c == chSp || c == chTab || c == chCr

/-- A line without the blanks around it. -/
def lineText (l : Bytes) : Bytes :=
  (l.dropWhile isGap).rdropWhile isGap

def Blank (l : Bytes) : Prop :=
  ¬Broken l ∧ lineText l = []

def Comment (l : Bytes) : Prop :=
  ¬Broken l ∧ ((lineText l).head? = some 0x23 ∨ (lineText l).head? = some 0x3B)

/-- A line that is neither broken, nor blank, nor a comment. -/
def Content (l : Bytes) : Prop :=
  ¬Broken l ∧ lineText l ≠ [] ∧ (lineText l).head? ≠ some 0x23 ∧ (lineText l).head? ≠ some 0x3B

instance (l : Bytes) : Decidable (Content l) :=
  inferInstanceAs (Decidable (_ ∧ _))

section Spec

variable (inet : InetText) (requiredAf : Int)

/-- A line that is a prefix of the required family. -/
def PrefixLine (l : Bytes) (p : Prefix) : Prop :=
  Content l ∧ PrefixText inet (lineText l) p ∧ (requiredAf = 0 ∨ p.net.af = requiredAf)

def RejectedLine (l : Bytes) : Prop :=
  Broken l ∨ Content l ∧ ∀ p, ¬PrefixLine inet requiredAf l p

/-- What a load of a file has to say about its lines. -/
structure PassesAgree (lines : List Bytes) (out : RangeSnapshot) : Prop where
  overflow : out.rep.overflow = 0
  counted : out.rep.accepted + out.rep.rejected = lines.countP (Content ·) + lines.countP (Broken ·)
  no_bad : (∀ l ∈ lines, ¬RejectedLine inet requiredAf l) → out.rep.badLine = 0
  badLine : ∀ k l, lines[k]? = some l → RejectedLine inet requiredAf l →
    (∀ l' ∈ lines.take k, ¬RejectedLine inet requiredAf l') → out.rep.badLine = k + 1
  success : out.ok = true ↔ (∃ l ∈ lines, ∃ p, PrefixLine inet requiredAf l p) ∧
    ∀ l ∈ lines, Blank l ∨ Comment l ∨ ∃ p, PrefixLine inet requiredAf l p
  held : out.ok = true → List.Forall₂ (PrefixLine inet requiredAf) (lines.filter (Content ·)) out.set.v

/-- A line whose text stands behind a carriage return. -/
def BehindCr (l : Bytes) : Prop :=
  Content l ∧ (l.dropWhile isBlank).head? = some chCr

instance (l : Bytes) : Decidable (BehindCr l) :=
  inferInstanceAs (Decidable (_ ∧ _))

end Spec

section Line

/-- What `range_line` takes from a line. -/
def rangeText (l : Bytes) : Option Bytes :=
  match l.dropWhile isBlank with
  | [] => none
  | c :: t =>
    if skipsLine c then none
    else
      let kept := (c :: t).rdropWhile isTrailing
      if kept = [] then none else some kept

theorem rangeLine_fst (line : Bytes) : (rangeLine line).1 = rangeText (cString line) := by
  unfold rangeLine rangeText
  dsimp only
  cases (cString line).dropWhile isBlank with
  | nil => rfl
  | cons c t =>
    dsimp only
    split <;> rfl

theorem cString_line {l junk : Bytes} (h : 0 ∉ l) : cString (l ++ 0 :: junk) = l := by
  have hall : ∀ c ∈ l, decide (c ≠ 0) = true := by
    intro c hc
    rw [decide_eq_true_eq]
    rintro rfl
    exact h hc
  unfold cString
  rw [List.takeWhile_append_of_pos hall, List.takeWhile_cons_of_neg (by decide), List.append_nil]

theorem isGap_of_isBlank {c : UInt8} (h : isBlank c = true) : isGap c = true := by
  unfold isGap
  rw [show (c == chSp || c == chTab) = true from h]
  rfl

theorem dropWhile_gap (l : Bytes) : (l.dropWhile isBlank).dropWhile isGap = l.dropWhile isGap := by
  induction l with
  | nil => rfl
  | cons c l ih =>
    by_cases hc : isBlank c = true
    · rw [List.dropWhile_cons_of_pos hc, List.dropWhile_cons_of_pos (isGap_of_isBlank hc), ih]
    · rw [List.dropWhile_cons_of_neg hc]

/-- Where no line feed stands, what trails a line is what is blank around it. -/
theorem rdropWhile_trailing {l : Bytes} (h : chLf ∉ l) : l.rdropWhile isTrailing = l.rdropWhile isGap := by
  induction l using List.reverseRecOn with
  | nil => rfl
  | append_singleton l c ih =>
    have hc : c ≠ chLf := by
      rintro rfl
      exact h (by simp)
    have hsame : isTrailing c = isGap c := by
      unfold isTrailing isGap isBlank
      rw [beq_eq_false_iff_ne.mpr hc, Bool.false_or, Bool.or_comm]
    rw [List.rdropWhile_concat, List.rdropWhile_concat, hsame, ih fun hl => h (List.mem_append_left _ hl)]

/-- A line's text starts with the first byte that is not blank. -/
theorem lineText_cons {l : Bytes} {c : UInt8} {t : Bytes} (h : l.dropWhile isGap = c :: t) :
    ∃ t', lineText l = c :: t' := by
  have hc : ¬isGap c = true := by
    have := List.head?_dropWhile_not isGap l
    rw [h] at this
    simpa using this
  unfold lineText
  rw [h]
  have hne : (c :: t).rdropWhile isGap ≠ [] := fun hnil => hc (List.rdropWhile_eq_nil_iff.mp hnil c List.mem_cons_self)
  obtain ⟨d, t', hd⟩ := List.exists_cons_of_ne_nil hne
  have hpre := List.rdropWhile_prefix isGap (l := c :: t)
  rw [hd] at hpre ⊢
  obtain rfl := (List.cons_prefix_cons.mp hpre).1
  exact ⟨t', rfl⟩

/-- `range_line` takes the text of each line that has one, unless it stands behind a carriage return. -/
theorem rangeText_eq {l : Bytes} (hlf : chLf ∉ l) (hfit : ¬Broken l) (hcr : ¬BehindCr l) :
    rangeText l = if Content l then some (lineText l) else none := by
  have hgap := dropWhile_gap l
  unfold rangeText
  cases hd : l.dropWhile isBlank with
  | nil =>
    rw [hd] at hgap
    have hnil : lineText l = [] := by
      unfold lineText
      rw [← hgap]
      rfl
    exact (if_neg fun h => h.2.1 hnil).symm
  | cons c t =>
    dsimp only
    by_cases hc : c = chCr
    · subst hc
      have hskip : skipsLine chCr = true := by decide
      rw [if_pos hskip, if_neg fun h => hcr ⟨h, by rw [hd]; rfl⟩]
    · have hmem : ∀ d ∈ c :: t, d ∈ l := fun d hm => (List.dropWhile_suffix isBlank).subset (hd ▸ hm)
      have hne : c ≠ chLf := by
        rintro rfl
        exact hlf (hmem _ List.mem_cons_self)
      have hng : ¬isGap c = true := by
        have := List.head?_dropWhile_not isBlank l
        rw [hd] at this
        unfold isGap
        rw [beq_eq_false_iff_ne.mpr hc, Bool.or_false]
        simpa [isBlank] using this
      rw [hd, List.dropWhile_cons_of_neg hng] at hgap
      obtain ⟨t', ht'⟩ := lineText_cons hgap.symm
      have hkept : (c :: t).rdropWhile isTrailing = lineText l := by
        rw [rdropWhile_trailing fun hm => hlf (hmem _ hm), hgap]
        rfl
      rw [hkept, ht']
      have hskip : skipsLine c = true ↔ c = 0x23 ∨ c = 0x3B := by
        unfold skipsLine
        rw [beq_eq_false_iff_ne.mpr hne, beq_eq_false_iff_ne.mpr hc]
        simp
      have hcontent : Content l ↔ ¬(c = 0x23 ∨ c = 0x3B) := by
        unfold Content
        rw [ht']
        simp [hfit]
      by_cases hs : c = 0x23 ∨ c = 0x3B
      · rw [if_pos (hskip.mpr hs), if_neg (fun h => hcontent.mp h hs)]
      · rw [if_neg (mt hskip.mp hs), if_neg (List.cons_ne_nil _ _), if_pos (hcontent.mpr hs)]

theorem rangeText_behindCr {l : Bytes} (h : BehindCr l) : rangeText l = none := by
  obtain ⟨-, hhead⟩ := h
  unfold rangeText
  cases hd : l.dropWhile isBlank with
  | nil => rfl
  | cons c t =>
    rw [hd] at hhead
    obtain rfl : c = chCr := Option.some.inj hhead
    exact if_pos (by decide)

theorem lf_notMem_fileLines {buf l : Bytes} (h : l ∈ fileLines buf) : chLf ∉ l := by
  obtain ⟨line, -, rfl⟩ := List.mem_map.mp h
  have htake : chLf ∉ line.takeWhile (· ≠ chLf) := by
    intro hm
    simpa using List.mem_takeWhile_imp hm
  unfold lineBody
  dsimp only
  split
  next => exact fun hm => htake (List.dropLast_subset _ hm)
  next => exact htake

end Line

section Verdict

variable (inet : InetText) (requiredAf : Int)

def familyOk (p : Prefix) : Bool :=
  requiredAf = 0 || p.net.af = requiredAf

/-- What the parsing pass makes of a line: nothing, a rejection or a prefix. -/
def lineVerdict (l : Bytes) : Option (Option Prefix) :=
  if Broken l then some none
  else (rangeText l).map fun t => (cidrParse inet t).filter (familyOk requiredAf)

variable {inet requiredAf} {l : Bytes} (hlf : chLf ∉ l) (hcr : ¬BehindCr l)
include hlf hcr

theorem lineVerdict_eq : lineVerdict inet requiredAf l =
    if Broken l then some none
    else if Content l then some ((cidrParse inet (lineText l)).filter (familyOk requiredAf)) else none := by
  unfold lineVerdict
  split
  next => rfl
  next hfit =>
    rw [rangeText_eq hlf hfit hcr]
    split <;> rfl

theorem prefixLine_iff (p : Prefix) :
    lineVerdict inet requiredAf l = some (some p) ↔ PrefixLine inet requiredAf l p := by
  have hfam : familyOk requiredAf p = true ↔ requiredAf = 0 ∨ p.net.af = requiredAf := by
    unfold familyOk
    simp
  rw [lineVerdict_eq hlf hcr]
  unfold PrefixLine
  by_cases hb : Broken l
  · rw [if_pos hb]
    constructor
    · intro h
      cases h
    · rintro ⟨hc, -⟩
      exact absurd hb hc.1
  · rw [if_neg hb]
    by_cases hc : Content l
    · rw [if_pos hc, Option.some_inj, Option.filter_eq_some_iff, cidrParse_iff, hfam]
      simp [hc]
    · simp [hc]

theorem rejectedLine_iff : lineVerdict inet requiredAf l = some none ↔ RejectedLine inet requiredAf l := by
  have hp := fun p => (@prefixLine_iff inet requiredAf l hlf hcr p).symm
  unfold RejectedLine
  simp only [hp]
  rw [lineVerdict_eq hlf hcr]
  by_cases hb : Broken l
  · simp [hb]
  · by_cases hc : Content l
    · rw [if_neg hb, if_pos hc, Option.some_inj]
      simp only [hb, hc, false_or, true_and, Option.some_inj, Option.eq_none_iff_forall_ne_some]
    · simp [hb, hc]

theorem skippedLine_iff : lineVerdict inet requiredAf l = none ↔ Blank l ∨ Comment l := by
  rw [lineVerdict_eq hlf hcr]
  unfold Content Blank Comment
  by_cases hb : Broken l
  · simp [hb]
  · by_cases hnil : lineText l = []
    · simp [hb, hnil]
    · by_cases h₁ : (lineText l).head? = some 0x23 <;> by_cases h₂ : (lineText l).head? = some 0x3B <;>
        simp [hb, hnil, h₁, h₂]

end Verdict

section Passes

variable {inet : InetText} {requiredAf : Int} {rest scratch : Bytes}

def afterLine (rest : Bytes) : Bytes :=
  (rest.dropWhile (· ≠ chLf)).tail

theorem fileLines_cons (h : rest ≠ []) : fileLines rest = lineBody rest :: fileLines (afterLine rest) := by
  obtain ⟨l, hsplit, htake⟩ := @Lines.split_eq_cons _ _ chLf rest h
  have hbody : lineBody l = lineBody rest := by
    unfold lineBody
    rw [htake]
  unfold fileLines
  rw [hsplit, List.map_cons, hbody]
  rfl

theorem afterLine_length (h : rest ≠ []) : (afterLine rest).length < rest.length := by
  have hle := (List.dropWhile_suffix (fun c : UInt8 => decide (c ≠ chLf)) (l := rest)).length_le
  have hpos := List.length_pos_iff.mpr h
  unfold afterLine
  rw [List.length_tail]
  omega

theorem snapNext_broken (h : Broken (lineBody rest)) :
    ∃ ln scratch', snapNext scratchCap rest scratch = (ln, afterLine rest, scratch') ∧
      (ln.overlong = true ∨ ln.hasNul = true ∨ (!ln.text) = true) ∧ ln.hasNul = decide (0 ∈ lineBody rest) := by
  unfold snapNext
  dsimp only
  split
  next => exact ⟨_, _, rfl, .inl rfl, rfl⟩
  next hlen =>
    have hnul : decide (0 ∈ lineBody rest) = true := decide_eq_true (h.resolve_left hlen)
    exact ⟨_, _, rfl, .inr (.inl hnul), rfl⟩

theorem snapNext_fits (h : ¬Broken (lineBody rest)) :
    ∃ junk, snapNext scratchCap rest scratch =
      (⟨true, (lineBody rest).length, false, false⟩, afterLine rest, lineBody rest ++ 0 :: junk) := by
  obtain ⟨hlen, hnul⟩ := not_or.mp h
  unfold snapNext
  dsimp only
  rw [if_neg hlen, decide_eq_false hnul]
  exact ⟨_, rfl⟩

def worthLine (l : Bytes) : Bool :=
  !decide (Broken l) && (rangeText l).isSome

theorem countPass_eq (fuel : Nat) {want : Nat} (hfuel : rest.length ≤ fuel)
    (hfit : want + (fileLines rest).countP worthLine < 2 ^ 32) :
    (countPass fuel rest scratch want).1 = want + (fileLines rest).countP worthLine := by
  induction fuel generalizing rest scratch want with
  | zero =>
    obtain rfl := List.length_eq_zero_iff.mp (Nat.le_zero.mp hfuel)
    rfl
  | succ fuel ih =>
    by_cases hnil : rest = []
    · subst hnil
      rfl
    · have hlt := afterLine_length hnil
      rw [fileLines_cons hnil, List.countP_cons] at hfit ⊢
      rw [countPass, if_neg hnil]
      by_cases hb : Broken (lineBody rest)
      · obtain ⟨ln, scratch', hnext, hbad, -⟩ := @snapNext_broken rest scratch hb
        have hworth : worthLine (lineBody rest) = false := by simp [worthLine, hb]
        rw [hworth, if_neg Bool.false_ne_true, Nat.add_zero] at hfit ⊢
        rw [hnext]
        dsimp only
        rw [if_pos hbad]
        exact ih (by omega) hfit
      · obtain ⟨junk, hnext⟩ := @snapNext_fits rest scratch hb
        have htext := rangeLine_fst (lineBody rest ++ 0 :: junk)
        rw [cString_line (not_or.mp hb).2] at htext
        have hworth : worthLine (lineBody rest) = (rangeText (lineBody rest)).isSome := by simp [worthLine, hb]
        rw [hnext]
        dsimp only
        rw [if_neg (by simp), htext]
        rw [hworth] at hfit ⊢
        cases hsome : (rangeText (lineBody rest)).isSome with
        | false =>
          rw [hsome, if_neg Bool.false_ne_true, Nat.add_zero] at hfit
          rw [if_neg Bool.false_ne_true, if_neg Bool.false_ne_true, Nat.add_zero]
          exact ih (by omega) hfit
        | true =>
          rw [hsome, if_pos rfl] at hfit
          rw [if_pos rfl, if_pos rfl, Nat.mod_eq_of_lt (by omega), ih (by omega) (by omega)]
          omega

/-- One turn of the parsing pass, on the line alone. -/
def lineStep (inet : InetText) (requiredAf : Int) (st : SnapState) (l : Bytes) : SnapState :=
  let st := { st with lineno := (st.lineno + 1) % 2 ^ 32 }
  if Broken l then st.reject (if 0 ∈ l then embeddedNul else lineTooLong)
  else
    match rangeText l with
    | none => st
    | some t => parseLine inet requiredAf st t

theorem parsePass_eq (fuel : Nat) {st : SnapState} (hfuel : rest.length ≤ fuel) :
    parsePass inet requiredAf fuel rest scratch st = (fileLines rest).foldl (lineStep inet requiredAf) st := by
  induction fuel generalizing rest scratch st with
  | zero =>
    obtain rfl := List.length_eq_zero_iff.mp (Nat.le_zero.mp hfuel)
    rfl
  | succ fuel ih =>
    by_cases hnil : rest = []
    · subst hnil
      rfl
    · have hlt := afterLine_length hnil
      rw [fileLines_cons hnil, List.foldl_cons, parsePass, if_neg hnil]
      unfold lineStep
      dsimp only
      by_cases hb : Broken (lineBody rest)
      · obtain ⟨ln, scratch', hnext, hbad, hnul⟩ := @snapNext_broken rest scratch hb
        rw [hnext, if_pos hb]
        dsimp only
        rw [if_pos hbad, hnul, ih (by omega)]
        simp only [decide_eq_true_eq]
        rfl
      · obtain ⟨junk, hnext⟩ := @snapNext_fits rest scratch hb
        have htext := rangeLine_fst (lineBody rest ++ 0 :: junk)
        rw [cString_line (not_or.mp hb).2] at htext
        rw [hnext, if_neg hb]
        dsimp only
        rw [if_neg (by simp), htext]
        cases rangeText (lineBody rest) with
        | none => exact ih (by omega)
        | some t => exact ih (by omega)

end Passes

section Reached

variable (inet : InetText) (requiredAf : Int)

/-- The state of the parsing pass behind the lines it has read. -/
structure Reached (cap : Nat) (done : List Bytes) (st : SnapState) : Prop where
  lineno : st.lineno = done.length
  accepted : st.rep.accepted = done.countP fun l => (lineVerdict inet requiredAf l).join.isSome
  rejected : st.rep.rejected = done.countP fun l => lineVerdict inet requiredAf l = some none
  overflow : st.rep.overflow = 0
  badLine : st.rep.badLine = ((done.findIdx? fun l => lineVerdict inet requiredAf l = some none).map (· + 1)).getD 0
  held : st.set.v = done.filterMap fun l => (lineVerdict inet requiredAf l).join
  room : st.set.cap = cap

variable {inet requiredAf} {st : SnapState} {l : Bytes}

theorem lineStep_skips (h : lineVerdict inet requiredAf l = none) :
    lineStep inet requiredAf st l = { st with lineno := (st.lineno + 1) % 2 ^ 32 } := by
  unfold lineVerdict at h
  split at h
  next => cases h
  next hb =>
    unfold lineStep
    dsimp only
    rw [if_neg hb, Option.map_eq_none_iff.mp h]

theorem lineStep_rejects (h : lineVerdict inet requiredAf l = some none) :
    ∃ text, lineStep inet requiredAf st l = SnapState.reject { st with lineno := (st.lineno + 1) % 2 ^ 32 } text := by
  unfold lineStep
  dsimp only
  by_cases hb : Broken l
  · exact ⟨_, if_pos hb⟩
  · unfold lineVerdict at h
    rw [if_neg hb] at h
    obtain ⟨t, ht, hparse⟩ := Option.map_eq_some_iff.mp h
    rw [if_neg hb, ht]
    unfold parseLine
    dsimp only
    cases hp : cidrParse inet t with
    | none => exact ⟨t, rfl⟩
    | some p =>
      rw [hp, Option.filter_eq_none_iff] at hparse
      have hfam : requiredAf ≠ 0 ∧ p.net.af ≠ requiredAf := by
        have := hparse p rfl
        unfold familyOk at this
        simpa using this
      exact ⟨t, if_pos hfam⟩

/-- There is room for each prefix that is parsed, and nothing else keeps it out of the set. -/
theorem lineStep_accepts {p : Prefix} (h : lineVerdict inet requiredAf l = some (some p))
    (hroom : st.set.v.length < st.set.cap) :
    lineStep inet requiredAf st l =
      { set := { st.set with v := st.set.v ++ [p] }
        rep := { st.rep with accepted := (st.rep.accepted + 1) % 2 ^ 32 }
        lineno := (st.lineno + 1) % 2 ^ 32 } := by
  unfold lineVerdict at h
  split at h
  next => cases h
  next hb =>
    obtain ⟨t, ht, hparse⟩ := Option.map_eq_some_iff.mp h
    obtain ⟨hp, hfam⟩ := Option.filter_eq_some_iff.mp hparse
    have hno : ¬(requiredAf ≠ 0 ∧ p.net.af ≠ requiredAf) := by
      unfold familyOk at hfam
      rw [Bool.or_eq_true, decide_eq_true_eq, decide_eq_true_eq] at hfam
      exact fun hno => hfam.elim hno.1 hno.2
    unfold lineStep
    dsimp only
    rw [if_neg hb, ht]
    dsimp only
    unfold parseLine
    rw [hp]
    dsimp only
    rw [if_neg hno, cidrSetAdd_iff.mpr ⟨(cidrParse_iff.mp hp).canon, hroom, rfl⟩]

theorem join_worth {p : Prefix} (h : lineVerdict inet requiredAf l = some (some p)) : worthLine l = true := by
  unfold lineVerdict at h
  split at h
  next => cases h
  next hb =>
    obtain ⟨t, ht, -⟩ := Option.map_eq_some_iff.mp h
    unfold worthLine
    rw [ht, decide_eq_false hb]
    rfl

theorem length_held_le (done : List Bytes) :
    (done.filterMap fun l => (lineVerdict inet requiredAf l).join).length ≤ done.countP worthLine := by
  rw [List.length_filterMap_eq_countP]
  refine List.countP_mono_left fun l _ h => ?_
  obtain ⟨p, hp⟩ := Option.isSome_iff_exists.mp h
  exact join_worth (Option.join_eq_some_iff.mp hp)

theorem Reached.step {cap : Nat} {done : List Bytes} (h : Reached inet requiredAf cap done st)
    (hshort : done.length + 1 < 2 ^ 32) (hcap : (done ++ [l]).countP worthLine ≤ cap) :
    Reached inet requiredAf cap (done ++ [l]) (lineStep inet requiredAf st l) := by
  have hline : (st.lineno + 1) % 2 ^ 32 = (done ++ [l]).length := by
    rw [h.lineno, List.length_append, List.length_singleton, Nat.mod_eq_of_lt hshort]
  cases hv : lineVerdict inet requiredAf l with
  | none =>
    rw [lineStep_skips hv]
    refine ⟨hline, ?_, ?_, h.overflow, ?_, ?_, h.room⟩
    · simp [hv, h.accepted]
    · simp [hv, h.rejected]
    · simp [hv, h.badLine, List.findIdx?_append]
    · simp [hv, h.held]
  | some r =>
    cases r with
    | none =>
      obtain ⟨text, htext⟩ := @lineStep_rejects inet requiredAf st l hv
      have hle : st.rep.rejected ≤ done.length := h.rejected ▸ List.countP_le_length
      have hrej : (st.rep.rejected + 1) % 2 ^ 32 = st.rep.rejected + 1 := Nat.mod_eq_of_lt (by omega)
      rw [htext]
      unfold SnapState.reject CidrReport.noteBad
      dsimp only
      rw [hrej]
      cases hf : done.findIdx? fun l => lineVerdict inet requiredAf l = some none with
      | none =>
        have hzero : st.rep.badLine = 0 := by
          rw [h.badLine, hf]
          rfl
        rw [if_pos hzero]
        refine ⟨hline, ?_, ?_, h.overflow, ?_, ?_, h.room⟩
        · simp [hv, h.accepted]
        · simp [hv, h.rejected]
        · rw [hline, List.findIdx?_append, hf]
          simp [hv]
        · simp [hv, h.held]
      | some k =>
        have hbad : st.rep.badLine = k + 1 := by
          rw [h.badLine, hf]
          rfl
        rw [if_neg (by omega)]
        refine ⟨hline, ?_, ?_, h.overflow, ?_, ?_, h.room⟩
        · simp [hv, h.accepted]
        · simp [hv, h.rejected]
        · rw [List.findIdx?_append, hf]
          exact hbad
        · simp [hv, h.held]
    | some p =>
      have hroom : st.set.v.length < st.set.cap := by
        have hle := @length_held_le inet requiredAf done
        rw [List.countP_append, List.countP_singleton, if_pos (join_worth hv)] at hcap
        rw [h.held, h.room]
        omega
      have hle : st.rep.accepted ≤ done.length := h.accepted ▸ List.countP_le_length
      rw [lineStep_accepts hv hroom, Nat.mod_eq_of_lt (show st.rep.accepted + 1 < 2 ^ 32 by omega)]
      refine ⟨hline, ?_, ?_, h.overflow, ?_, ?_, h.room⟩
      · simp [hv, h.accepted]
      · simp [hv, h.rejected]
      · simp [hv, h.badLine, List.findIdx?_append]
      · simp [hv, h.held]

theorem Reached.run {cap : Nat} {done : List Bytes} (h : Reached inet requiredAf cap done st) (lines : List Bytes)
    (hshort : (done ++ lines).length < 2 ^ 32) (hcap : (done ++ lines).countP worthLine ≤ cap) :
    Reached inet requiredAf cap (done ++ lines) (lines.foldl (lineStep inet requiredAf) st) := by
  induction lines generalizing done st with
  | nil =>
    rw [List.append_nil]
    exact h
  | cons l lines ih =>
    rw [List.append_cons] at hshort hcap ⊢
    rw [List.foldl_cons]
    refine ih (h.step ?_ ?_) hshort hcap
    · rw [List.length_append, List.length_append, List.length_singleton] at hshort
      omega
    · rw [List.countP_append] at hcap
      omega

theorem length_fileLines (buf : Bytes) : (fileLines buf).length ≤ buf.length := by
  induction hn : buf.length using Nat.strongRecOn generalizing buf with
  | ind n ih =>
    by_cases hnil : buf = []
    · subst hnil
      exact Nat.zero_le _
    · have hlt := afterLine_length hnil
      have := ih _ (hn ▸ hlt) (afterLine buf) rfl
      rw [fileLines_cons hnil, List.length_cons]
      omega

/-- The counting pass makes room for every line that the parsing pass adds. -/
theorem load_reached (inet : InetText) (s : CidrSet) (scratch buf : Bytes) (requiredAf : Int)
    (hlen : buf.length ≤ cidrFileMax) :
    ∃ cap st, Reached inet requiredAf cap (fileLines buf) st ∧
      cidrSetLoadSnapshot inet s scratch buf requiredAf =
        ⟨st.rep.accepted ≠ 0 && st.rep.rejected == 0 && st.rep.overflow == 0, st.set, st.rep⟩ := by
  have hmax : cidrFileMax < 2 ^ 32 := by decide
  have hlines := length_fileLines buf
  have hcount : (fileLines buf).countP worthLine ≤ (fileLines buf).length := List.countP_le_length
  have hwant := @countPass_eq buf scratch buf.length 0 (Nat.le_refl _) (by omega)
  rw [Nat.zero_add] at hwant
  unfold cidrSetLoadSnapshot
  rw [if_neg (Nat.not_lt.mpr hlen)]
  dsimp only
  rw [hwant, parsePass_eq _ (Nat.le_refl _)]
  generalize hcap : (if (fileLines buf).countP worthLine ≠ 0 then (fileLines buf).countP worthLine else 1) = cap
  have hle : (fileLines buf).countP worthLine ≤ cap := by
    rw [← hcap]
    split <;> omega
  have hstart : Reached inet requiredAf cap [] ⟨cidrSetInit cap false, ⟨0, 0, 0, 0, []⟩, 0⟩ :=
    ⟨rfl, rfl, rfl, rfl, rfl, rfl, rfl⟩
  have hrun := hstart.run (fileLines buf)
  rw [List.nil_append] at hrun
  exact ⟨cap, _, hrun (by omega) hle, rfl⟩

end Reached

section Agree

variable {inet : InetText} {requiredAf : Int} {lines : List Bytes}

theorem count_verdicts (lines : List Bytes) :
    lines.countP (fun l => (lineVerdict inet requiredAf l).join.isSome) +
      lines.countP (fun l => lineVerdict inet requiredAf l = some none) =
    lines.countP fun l => (lineVerdict inet requiredAf l).isSome := by
  rw [ListSum.countP_add_of_disjoint]
  · refine List.countP_congr fun l _ => ?_
    rcases lineVerdict inet requiredAf l with _ | _ | p <;> simp
  · intro l _
    rcases lineVerdict inet requiredAf l with _ | _ | p <;> simp

theorem count_kinds (lines : List Bytes) :
    lines.countP (Content ·) + lines.countP (Broken ·) = lines.countP fun l => Content l ∨ Broken l := by
  rw [ListSum.countP_add_of_disjoint]
  · exact List.countP_congr fun l _ => by simp
  · intro l _ hc
    exact decide_eq_false (of_decide_eq_true hc).1

theorem verdict_kind {l : Bytes} (hlf : chLf ∉ l) (h : (lineVerdict inet requiredAf l).isSome = true) :
    Content l ∨ Broken l := by
  by_cases hcr : BehindCr l
  · exact .inl hcr.1
  · by_contra hno
    obtain ⟨hc, hb⟩ := not_or.mp hno
    rw [lineVerdict_eq hlf hcr, if_neg hb, if_neg hc] at h
    cases h

/-- The lines that are counted are all there are exactly where no text stands behind a carriage return. -/
theorem counted_iff (hlf : ∀ l ∈ lines, chLf ∉ l) :
    lines.countP (fun l => (lineVerdict inet requiredAf l).join.isSome) +
        lines.countP (fun l => lineVerdict inet requiredAf l = some none) =
      lines.countP (Content ·) + lines.countP (Broken ·) ↔
    ∀ l ∈ lines, ¬BehindCr l := by
  rw [count_verdicts, count_kinds, ListSum.countP_eq_iff_of_imp]
  · refine forall₂_congr fun l hl => ?_
    rw [decide_eq_true_eq]
    constructor
    · intro h hcr
      have := h (.inl hcr.1)
      unfold lineVerdict at this
      rw [if_neg hcr.1.1, rangeText_behindCr hcr] at this
      cases this
    · intro hcr hkind
      rw [lineVerdict_eq (hlf l hl) hcr]
      split
      next => rfl
      next hb =>
        rw [if_pos (hkind.resolve_right hb)]
        rfl
  · intro l hl h
    exact decide_eq_true (verdict_kind (hlf l hl) h)

theorem held_prefixes (hlf : ∀ l ∈ lines, chLf ∉ l) (hcr : ∀ l ∈ lines, ¬BehindCr l)
    (hok : ∀ l ∈ lines, lineVerdict inet requiredAf l ≠ some none) :
    List.Forall₂ (PrefixLine inet requiredAf) (lines.filter (Content ·))
      (lines.filterMap fun l => (lineVerdict inet requiredAf l).join) := by
  induction lines with
  | nil => exact .nil
  | cons l lines ih =>
    have hl := hlf l List.mem_cons_self
    have hc := hcr l List.mem_cons_self
    have htail := ih (fun m hm => hlf m (List.mem_cons_of_mem _ hm)) (fun m hm => hcr m (List.mem_cons_of_mem _ hm))
      fun m hm => hok m (List.mem_cons_of_mem _ hm)
    match hv : lineVerdict inet requiredAf l with
    | none =>
      have hno : ¬Content l := by
        rintro ⟨hfit, hne, h₁, h₂⟩
        rcases (skippedLine_iff hl hc).mp hv with hblank | hcomment
        · exact hne hblank.2
        · exact hcomment.2.elim h₁ h₂
      rw [List.filter_cons_of_neg (by simpa using hno), List.filterMap_cons_none (by rw [hv]; rfl)]
      exact htail
    | some none => exact absurd hv (hok l List.mem_cons_self)
    | some (some p) =>
      have hp := (prefixLine_iff hl hc p).mp hv
      rw [List.filter_cons_of_pos (by simpa using hp.1), List.filterMap_cons_some (by rw [hv]; rfl)]
      exact .cons hp htail

theorem Reached.agrees {cap : Nat} {st : SnapState} (h : Reached inet requiredAf cap lines st)
    (hlf : ∀ l ∈ lines, chLf ∉ l) (hcr : ∀ l ∈ lines, ¬BehindCr l) :
    PassesAgree inet requiredAf lines
      ⟨st.rep.accepted ≠ 0 && st.rep.rejected == 0 && st.rep.overflow == 0, st.set, st.rep⟩ := by
  have hrej : ∀ l ∈ lines, lineVerdict inet requiredAf l = some none ↔ RejectedLine inet requiredAf l :=
    fun l hl => rejectedLine_iff (hlf l hl) (hcr l hl)
  have hok : (st.rep.accepted ≠ 0 && st.rep.rejected == 0 && st.rep.overflow == 0) = true ↔
      (∃ l ∈ lines, ∃ p, lineVerdict inet requiredAf l = some (some p)) ∧
        ∀ l ∈ lines, lineVerdict inet requiredAf l ≠ some none := by
    rw [h.overflow, h.accepted, h.rejected]
    simp [List.countP_eq_zero, Option.isSome_iff_exists, Option.join_eq_some_iff]
  refine ⟨h.overflow, ?_, ?_, ?_, ?_, ?_⟩
  · show st.rep.accepted + st.rep.rejected = _
    rw [h.accepted, h.rejected]
    exact (counted_iff hlf).mpr hcr
  · intro hnone
    show st.rep.badLine = 0
    rw [h.badLine, List.findIdx?_eq_none_iff.mpr]
    · rfl
    · exact fun l hl => decide_eq_false fun hv => hnone l hl ((hrej l hl).mp hv)
  · intro k l hk hl hbefore
    show st.rep.badLine = k + 1
    obtain ⟨hlt, rfl⟩ := List.getElem?_eq_some_iff.mp hk
    rw [h.badLine, List.findIdx?_eq_some_iff_getElem.mpr]
    · rfl
    · refine ⟨hlt, decide_eq_true ((hrej _ (List.getElem_mem hlt)).mpr hl), fun j hj hv => ?_⟩
      refine hbefore _ ?_ ((hrej _ (List.getElem_mem _)).mp (of_decide_eq_true hv))
      exact List.mem_take_iff_getElem.mpr ⟨j, by omega, rfl⟩
  · rw [hok]
    refine and_congr ?_ ?_
    · refine exists_congr fun l => and_congr_right fun hl => exists_congr fun p => ?_
      exact prefixLine_iff (hlf l hl) (hcr l hl) p
    · refine forall₂_congr fun l hl => ?_
      have hskip := @skippedLine_iff inet requiredAf l (hlf l hl) (hcr l hl)
      have hpre := @prefixLine_iff inet requiredAf l (hlf l hl) (hcr l hl)
      rw [← or_assoc, ← hskip]
      simp only [← hpre]
      rcases lineVerdict inet requiredAf l with _ | _ | p <;> simp
  · intro htrue
    show List.Forall₂ _ _ st.set.v
    rw [h.held]
    exact held_prefixes hlf hcr (hok.mp htrue).2

/-- A load says what has to be said of a file exactly where no line hides its text behind a carriage return. -/
theorem snapshot_agrees_iff (inet : InetText) (s : CidrSet) (scratch buf : Bytes) (requiredAf : Int)
    (hlen : buf.length ≤ cidrFileMax) :
    PassesAgree inet requiredAf (fileLines buf) (cidrSetLoadSnapshot inet s scratch buf requiredAf) ↔
      ∀ l ∈ fileLines buf, ¬BehindCr l := by
  obtain ⟨cap, st, hst, hload⟩ := load_reached inet s scratch buf requiredAf hlen
  have hlf : ∀ l ∈ fileLines buf, chLf ∉ l := fun l hl => lf_notMem_fileLines hl
  rw [hload]
  constructor
  · intro h
    have hcounted := h.counted
    dsimp only at hcounted
    rw [hst.accepted, hst.rejected] at hcounted
    exact (counted_iff hlf).mp hcounted
  · exact hst.agrees hlf

def crlfFile : Bytes :=
  ascii "# two\r\n1.1.1.0/24\r\n8.8.8.8 \r\n".toList

theorem snapshot_agrees_crlfFile :
    crlfFile.length ≤ cidrFileMax ∧
      PassesAgree plainInet 2 (fileLines crlfFile)
        (cidrSetLoadSnapshot plainInet (cidrSetInit 1 false) [] crlfFile 2) :=
  ⟨by decide, (snapshot_agrees_iff plainInet (cidrSetInit 1 false) [] crlfFile 2 (by decide)).mpr (by decide)⟩

/-- A range behind a stray carriage return, and a range. -/
def strayFile : Bytes :=
  ascii "\r10.0.0.0/8\n1.1.1.1\n".toList

/-- The first range is left out, and the load still succeeds. -/
theorem snapshot_drops_strayFile :
    (cidrSetLoadSnapshot plainInet (cidrSetInit 1 false) [] strayFile 2).ok = true ∧
      (cidrSetLoadSnapshot plainInet (cidrSetInit 1 false) [] strayFile 2).set.v = [⟨.v4 0x01010101, 32, 1⟩] ∧
      ¬PassesAgree plainInet 2 (fileLines strayFile)
        (cidrSetLoadSnapshot plainInet (cidrSetInit 1 false) [] strayFile 2) := by
  refine ⟨rfl, rfl, fun h => ?_⟩
  have hcounted := h.counted
  revert hcounted
  decide

end Agree

end Qanat

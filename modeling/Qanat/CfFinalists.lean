import Qanat.CfDiverse

namespace Qanat

open OpenTable

/-- The entries of a list whose block was neither seen before nor among the entries before them. -/
def firstOf {β : Type} [DecidableEq β] (block : Nat → Option β) : List β → List Nat → List Nat
  | _, [] => []
  | seen, i :: l =>
    match block i with
    | none => firstOf block seen l
    | some b => if b ∈ seen then firstOf block seen l else i :: firstOf block (b :: seen) l

section FirstOf

variable {β : Type} [DecidableEq β] {block : Nat → Option β} {seen : List β} {l : List Nat} {i : Nat}

theorem firstOf_none (h : block i = none) : firstOf block seen (i :: l) = firstOf block seen l := by
  rw [firstOf, h]

theorem firstOf_seen {b : β} (h : block i = some b) (hb : b ∈ seen) :
    firstOf block seen (i :: l) = firstOf block seen l := by
  rw [firstOf, h]
  exact if_pos hb

theorem firstOf_new {b : β} (h : block i = some b) (hb : b ∉ seen) :
    firstOf block seen (i :: l) = i :: firstOf block (b :: seen) l := by
  rw [firstOf, h]
  exact if_neg hb

theorem mem_of_mem_firstOf (h : i ∈ firstOf block seen l) : i ∈ l := by
  induction l generalizing seen with
  | nil => exact h
  | cons j l ih =>
    cases hj : block j with
    | none =>
      rw [firstOf_none hj] at h
      exact List.mem_cons_of_mem j (ih h)
    | some b =>
      by_cases hb : b ∈ seen
      · rw [firstOf_seen hj hb] at h
        exact List.mem_cons_of_mem j (ih h)
      · rw [firstOf_new hj hb] at h
        rcases List.mem_cons.mp h with rfl | h
        · exact List.mem_cons_self ..
        · exact List.mem_cons_of_mem j (ih h)

theorem nodup_firstOf (h : l.Nodup) : (firstOf block seen l).Nodup := by
  induction l generalizing seen with
  | nil => exact h
  | cons j l ih =>
    obtain ⟨hj, hl⟩ := List.nodup_cons.mp h
    cases hb : block j with
    | none =>
      rw [firstOf_none hb]
      exact ih hl
    | some b =>
      by_cases hs : b ∈ seen
      · rw [firstOf_seen hb hs]
        exact ih hl
      · rw [firstOf_new hb hs]
        exact List.nodup_cons.mpr ⟨fun hmem => hj (mem_of_mem_firstOf hmem), ih hl⟩

/-- The blocks of the entries are the new ones, each once. -/
theorem blocks_firstOf : ((firstOf block seen l).filterMap block).Nodup ∧
    (∀ b, b ∈ (firstOf block seen l).filterMap block ↔ b ∈ l.filterMap block ∧ b ∉ seen) ∧
    ((firstOf block seen l).filterMap block).length = (firstOf block seen l).length := by
  induction l generalizing seen with
  | nil => exact ⟨List.nodup_nil, by simp [firstOf], rfl⟩
  | cons j l ih =>
    cases hb : block j with
    | none =>
      rw [firstOf_none hb, List.filterMap_cons_none hb]
      exact ih
    | some b =>
      by_cases hs : b ∈ seen
      · rw [firstOf_seen hb hs, List.filterMap_cons_some hb]
        obtain ⟨hnodup, hmem, hlen⟩ := @ih seen
        refine ⟨hnodup, fun c => ?_, hlen⟩
        rw [hmem c, List.mem_cons]
        constructor
        · exact fun h => ⟨.inr h.1, h.2⟩
        · rintro ⟨rfl | hc, hcs⟩
          · exact absurd hs hcs
          · exact ⟨hc, hcs⟩
      · rw [firstOf_new hb hs, List.filterMap_cons_some hb, List.filterMap_cons_some hb]
        obtain ⟨hnodup, hmem, hlen⟩ := @ih (b :: seen)
        refine ⟨List.nodup_cons.mpr ⟨?_, hnodup⟩, fun c => ?_, ?_⟩
        · rw [hmem b]
          exact fun h => h.2 (List.mem_cons_self ..)
        · rw [List.mem_cons, List.mem_cons, hmem c, List.mem_cons, not_or]
          by_cases hc : c = b
          · simp [hc, hs]
          · simp [hc]
        · rw [List.length_cons, List.length_cons, hlen]

theorem length_firstOf : (firstOf block [] l).length = (l.filterMap block).dedup.length := by
  obtain ⟨hnodup, hmem, hlen⟩ := @blocks_firstOf β _ block [] l
  rw [← hlen]
  refine ((List.perm_ext_iff_of_nodup hnodup (List.nodup_dedup _)).mpr fun b => ?_).length_eq
  rw [hmem b, List.mem_dedup]
  simp

/-- Whether an entry is the first of its block in a list. -/
def isFirst (block : Nat → Option β) (l : List Nat) (i : Nat) : Bool :=
  (block i).isSome && l.find? (fun j => block j = block i) = some i

theorem isFirst_cons_ne {j : Nat} (h : block j = block i → block i = none) :
    isFirst block (j :: l) i = isFirst block l i := by
  unfold isFirst
  cases hi : block i with
  | none => rfl
  | some b =>
    rw [List.find?_cons_of_neg ?_]
    simp only [decide_eq_true_eq]
    intro heq
    rw [hi] at h
    exact Option.some_ne_none b (h heq)

theorem firstOf_eq (h : l.Nodup) : firstOf block seen l =
    l.filter fun i => isFirst block l i && decide (∀ b ∈ seen, block i ≠ some b) := by
  induction l generalizing seen with
  | nil => rfl
  | cons j l ih =>
    obtain ⟨hj, hl⟩ := List.nodup_cons.mp h
    cases hb : block j with
    | none =>
      rw [firstOf_none hb, ih hl, List.filter_cons_of_neg (by simp [isFirst, hb])]
      refine List.filter_congr fun i _ => ?_
      rw [isFirst_cons_ne]
      intro heq
      rw [← heq, hb]
    | some b =>
      by_cases hs : b ∈ seen
      · rw [firstOf_seen hb hs, ih hl, List.filter_cons_of_neg (by simp [hb, hs])]
        refine List.filter_congr fun i _ => ?_
        by_cases hi : block i = some b
        · have hfalse : decide (∀ c ∈ seen, block i ≠ some c) = false :=
            decide_eq_false fun hall => hall b hs hi
          rw [hfalse, Bool.and_false, Bool.and_false]
        · rw [isFirst_cons_ne]
          intro heq
          exact absurd (heq.symm.trans hb) hi
      · have hkeep : isFirst block (j :: l) j && decide (∀ c ∈ seen, block j ≠ some c) := by
          unfold isFirst
          rw [List.find?_cons_of_pos (by simp), hb]
          simp only [Option.isSome_some, decide_true, Bool.true_and, decide_eq_true_eq]
          intro c hc heq
          exact hs (Option.some.inj heq ▸ hc)
        have hhead := List.filter_cons_of_pos (l := l)
          (p := fun i => isFirst block (j :: l) i && decide (∀ c ∈ seen, block i ≠ some c)) hkeep
        rw [firstOf_new hb hs, ih hl, hhead]
        refine congrArg (List.cons j) (List.filter_congr fun i hi => ?_)
        by_cases hib : block i = some b
        · have hnot : isFirst block (j :: l) i = false := by
            unfold isFirst
            rw [List.find?_cons_of_pos (by simp [hb, hib])]
            have hne : j ≠ i := fun heq => hj (heq ▸ hi)
            simp [hne]
          have hfalse : decide (∀ c ∈ b :: seen, block i ≠ some c) = false :=
            decide_eq_false fun hall => hall b (List.mem_cons_self ..) hib
          rw [hnot, hfalse, Bool.and_false, Bool.false_and]
        · rw [isFirst_cons_ne fun heq => absurd (heq.symm.trans hb) hib]
          congr 1
          simp [hib]

end FirstOf

theorem map_range_set {α : Type} (g : Nat → α) (n x : Nat) (v : α) :
    ((List.range n).map g).set x v = (List.range n).map fun i => if i = x then v else g i := by
  refine List.ext_getElem (by simp) fun i _ _ => ?_
  rw [List.getElem_set]
  by_cases hx : x = i
  · simp [hx]
  · simp [hx, Ne.symm hx]

/-- The marks of the chosen indices. -/
def marks (cap : Nat) (output : List Nat) : List UInt32 :=
  (List.range cap).map fun i => if i ∈ output then maxU32 else 0

@[simp] theorem marks_length (cap : Nat) (output : List Nat) : (marks cap output).length = cap := by
  unfold marks
  simp

theorem marks_nil (cap : Nat) : marks cap [] = List.replicate cap 0 := by
  unfold marks
  simp

theorem marks_get {cap i : Nat} (h : i < cap) (output : List Nat) :
    (marks cap output)[i]? = some (if i ∈ output then maxU32 else 0) := by
  unfold marks
  rw [List.getElem?_map, List.getElem?_range h]
  rfl

theorem marks_set (cap i : Nat) (output : List Nat) :
    (marks cap output).set i maxU32 = marks cap (output ++ [i]) := by
  unfold marks
  rw [map_range_set]
  refine List.map_congr_left fun j _ => ?_
  by_cases hj : j = i
  · simp [hj]
  · simp [hj]

/-- Taking the marks back leaves none. -/
theorem marks_clear (cap : Nat) (output : List Nat) :
    output.foldl (fun b i => b.set i 0) (marks cap output) = List.replicate cap 0 := by
  have hclear : ∀ (l : List Nat) (g : Nat → UInt32), l.foldl (fun b i => b.set i 0) ((List.range cap).map g) =
      (List.range cap).map fun i => if i ∈ l then 0 else g i := by
    intro l
    induction l with
    | nil => simp
    | cons x l ih =>
      intro g
      rw [List.foldl_cons, map_range_set, ih]
      refine List.map_congr_left fun i _ => ?_
      by_cases hil : i ∈ l
      · simp [hil]
      · simp [hil]
  unfold marks
  rw [hclear, ← marks_nil]
  refine List.map_congr_left fun i _ => ?_
  by_cases hi : i ∈ output
  · simp [hi]
  · simp [hi]

section Passes

variable {s : CfChoice} {order : Option (List Nat)} {f : Nat → Nat}

theorem ipv4Block_eq (hs : s.Sized) (index : Nat) : s.ipv4Block index = some (s.blockOf index) := by
  unfold CfChoice.blockOf CfChoice.ipv4Block
  split_ifs with hn
  · rfl
  · have hlt : index < s.records.length := by
      have := hs.n
      rw [hs.records]
      omega
    rw [List.getElem?_eq_getElem hlt]
    rfl

/-- A /24 is one of `2 ^ 24`, so it is not mistaken for a free slot. -/
theorem blockOf_lt {index : Nat} {block : UInt32} (h : s.blockOf index = some block) : block.toNat < 2 ^ 24 := by
  unfold CfChoice.blockOf CfChoice.ipv4Block at h
  split_ifs at h with hn
  · cases h
  · cases hr : s.records[index]? with
    | none =>
      rw [hr] at h
      cases h
    | some r =>
      rw [hr] at h
      simp only [Option.map_some, Option.join_some] at h
      split_ifs at h
      cases ha : r.addr with
      | v4 a =>
        rw [ha] at h
        obtain rfl := Option.some.inj h
        rw [UInt32.toNat_shiftRight]
        have := a.toNat_lt
        simp [Nat.shiftRight_eq_div_pow]
        omega
      | v6 b =>
        rw [ha] at h
        cases h

theorem blockOf_eligible {index : Nat} {block : UInt32} (h : s.blockOf index = some block) :
    s.eligible index = true := by
  unfold CfChoice.blockOf CfChoice.ipv4Block at h
  unfold CfChoice.eligible
  split_ifs at h with hn
  · cases h
  · cases hr : s.records[index]? with
    | none =>
      rw [hr] at h
      cases h
    | some r =>
      rw [hr] at h
      simp only [Option.map_some, Option.join_some] at h
      split_ifs at h with htls
      simp [htls, Nat.lt_of_not_le hn]

/-- The arrays after the choices of `output`, whose blocks stand in the table. -/
structure Chosen (s : CfChoice) (blocks : List UInt32) (x : Selection) : Prop where
  placed : Placed maxU32 (probePath s.cap) x.scratch
  size : x.scratch.length = s.cap
  holds : ∀ v, Holds maxU32 x.scratch v ↔ v ∈ blocks
  nodup : blocks.Nodup
  bound : ∀ v ∈ blocks, v.toNat < 2 ^ 24
  count : blocks.length = x.output.length
  marked : x.baseline = marks s.cap x.output

theorem chosen_start (s : CfChoice) : Chosen s [] ⟨List.replicate s.cap maxU32, List.replicate s.cap 0, []⟩ where
  placed := placed_replicate _ _ _
  size := List.length_replicate
  holds := by
    intro v
    constructor
    · rintro ⟨hv, q, hq⟩
      exact absurd (List.eq_of_mem_replicate (List.mem_of_getElem? hq)) hv
    · intro hv
      cases hv
  nodup := List.nodup_nil
  bound := by
    intro v hv
    cases hv
  count := rfl
  marked := (marks_nil _).symm

theorem ne_maxU32 {v : UInt32} (h : v.toNat < 2 ^ 24) : v ≠ maxU32 := by
  rintro rfl
  exact absurd h (by decide)

theorem Chosen.few {blocks : List UInt32} {x : Selection} (h : Chosen s blocks x) {block : UInt32}
    (hb : block.toNat < 2 ^ 24) (hnew : block ∉ blocks) : blocks.length < 2 ^ 24 := by
  have hnodup : ((block :: blocks).map UInt32.toNat).Nodup :=
    (List.nodup_cons.mpr ⟨hnew, h.nodup⟩).map fun _ _ heq => UInt32.toNat_inj.mp heq
  have hsub : (block :: blocks).map UInt32.toNat ⊆ List.range (2 ^ 24) := by
    intro v hv
    obtain ⟨w, hw, rfl⟩ := List.mem_map.mp hv
    rcases List.mem_cons.mp hw with rfl | hw
    · exact List.mem_range.mpr hb
    · exact List.mem_range.mpr (h.bound w hw)
  have hlen := (hnodup.subperm hsub).length_le
  rwa [List.length_map, List.length_range, List.length_cons] at hlen

/-- A new block finds a free slot, and its record goes to the output. -/
theorem Chosen.claim_new {blocks : List UInt32} {x : Selection} (h : Chosen s blocks x) (hs : s.Sized)
    (hroom : x.output.length < s.cap) {index : Nat} {block : UInt32} (hb : s.blockOf index = some block)
    (hnew : block ∉ blocks) : ∃ scratch,
      claim maxU32 block (probePath s.cap block) x.scratch = some (scratch, false) ∧
      Chosen s (block :: blocks) ⟨scratch, marks s.cap (x.output ++ [index]), x.output ++ [index]⟩ := by
  have hlt := blockOf_lt hb
  have hfree := ne_maxU32 hlt
  have hin : ∀ p ∈ probePath s.cap block, p < x.scratch.length := by
    rw [h.size]
    exact probePath_lt hs.cap block
  have hnot : ¬ Holds maxU32 x.scratch block := fun hh => hnew ((h.holds block).mp hh)
  have hslots := probePath_distinct hs.cap block
  have hfew := h.few hlt hnew
  have hcount := h.count
  obtain ⟨l, q, r, hpath, hl, hq, hclaim⟩ := OpenTable.claim_new hnot hfree hin
    (h.placed.room (fun v hv => (h.holds v).mp hv) hin (by omega))
  refine ⟨x.scratch.set q block, hclaim, ?_⟩
  exact {
    placed := placed_set h.placed hpath hl hq
    size := by simpa using h.size
    holds := by
      intro v
      rw [holds_set hq hfree, h.holds, List.mem_cons, or_comm]
    nodup := List.nodup_cons.mpr ⟨hnew, h.nodup⟩
    bound := by
      intro v hv
      rcases List.mem_cons.mp hv with rfl | hv
      · exact hlt
      · exact h.bound v hv
    count := by simp [hcount]
    marked := rfl }

/-- The first loop chooses the first record of each block, as far as the reserve goes. -/
theorem reservePass_spec (hs : s.Sized) {reserve : Nat} (hreserve : reserve ≤ s.cap) (is : List Nat)
    (hf : ∀ i ∈ is, orderedIndex order i = some (f i)) {blocks : List UInt32} {x : Selection}
    (h : Chosen s blocks x) : ∃ y, reservePass s order reserve is x = some y ∧
      y.output = x.output ++ (firstOf s.blockOf blocks (is.map f)).take (reserve - x.output.length) ∧
      y.baseline = marks s.cap y.output := by
  induction is generalizing blocks x with
  | nil => exact ⟨x, rfl, by simp [firstOf], h.marked⟩
  | cons i is ih =>
    unfold reservePass
    by_cases hfull : reserve ≤ x.output.length
    · rw [if_pos hfull]
      refine ⟨x, rfl, ?_, h.marked⟩
      rw [Nat.sub_eq_zero_of_le hfull, List.take_zero, List.append_nil]
    rw [if_neg hfull, hf i (List.mem_cons_self ..), Option.bind_some, ipv4Block_eq hs, Option.bind_some, List.map_cons]
    have hrest : ∀ j ∈ is, orderedIndex order j = some (f j) := fun j hj => hf j (List.mem_cons_of_mem i hj)
    cases hb : s.blockOf (f i) with
    | none =>
      rw [firstOf_none hb]
      exact ih hrest h
    | some block =>
      dsimp only
      by_cases hseen : block ∈ blocks
      · rw [firstOf_seen hb hseen, claim_found h.placed ((h.holds block).mpr hseen), Option.bind_some, if_pos rfl]
        exact ih hrest h
      · obtain ⟨scratch, hclaim, hnext⟩ := h.claim_new hs (by omega) hb hseen
        have hlt : f i < s.cap := by
          have helig := blockOf_eligible hb
          unfold CfChoice.eligible at helig
          simp only [Bool.and_eq_true, decide_eq_true_eq] at helig
          exact Nat.lt_of_lt_of_le helig.1 hs.n
        have hchoose : Selection.choose { x with scratch := scratch } (f i) =
            some ⟨scratch, marks s.cap (x.output ++ [f i]), x.output ++ [f i]⟩ := by
          unfold Selection.choose
          dsimp only
          rw [h.marked, marks_length, if_pos hlt, marks_set]
        obtain ⟨y, hy, hout, hmarks⟩ := ih hrest hnext
        refine ⟨y, ?_, ?_, hmarks⟩
        · rw [hclaim, Option.bind_some, if_neg Bool.false_ne_true, hchoose, Option.bind_some]
          exact hy
        · rw [hout, firstOf_new hb hseen]
          obtain ⟨k, hk⟩ : ∃ k, reserve - x.output.length = k + 1 := ⟨reserve - x.output.length - 1, by omega⟩
          have hk' : reserve - (x.output ++ [f i]).length = k := by
            rw [List.length_append, List.length_singleton]
            omega
          rw [hk, hk', List.take_succ_cons, List.append_assoc, List.singleton_append]

/-- The second loop chooses what is left, in order, as far as there is room. -/
theorem restPass_spec (hs : s.Sized) (keep : Nat) (is : List Nat)
    (hf : ∀ i ∈ is, orderedIndex order i = some (f i)) (hnodup : (is.map f).Nodup) {x : Selection}
    (h : x.baseline = marks s.cap x.output) : ∃ y, restPass s order keep is x = some y ∧
      y.output = x.output ++
        ((is.map f).filter fun i => s.eligible i && decide (i ∉ x.output)).take (keep - x.output.length) ∧
      y.baseline = marks s.cap y.output := by
  induction is generalizing x with
  | nil => exact ⟨x, rfl, by simp, h⟩
  | cons i is ih =>
    have hrest : ∀ j ∈ is, orderedIndex order j = some (f j) := fun j hj => hf j (List.mem_cons_of_mem i hj)
    rw [List.map_cons] at hnodup ⊢
    obtain ⟨hi, hnodup⟩ := List.nodup_cons.mp hnodup
    unfold restPass
    by_cases hfull : keep ≤ x.output.length
    · rw [if_pos hfull]
      refine ⟨x, rfl, ?_, h⟩
      rw [Nat.sub_eq_zero_of_le hfull, List.take_zero, List.append_nil]
    rw [if_neg hfull, hf i (List.mem_cons_self ..), Option.bind_some]
    by_cases hn : s.n ≤ f i
    · have helig : s.eligible (f i) = false := by simp [CfChoice.eligible, hn]
      rw [if_pos hn, List.filter_cons_of_neg (by simp [helig])]
      exact ih hrest hnodup h
    have hcap : f i < s.cap := Nat.lt_of_lt_of_le (Nat.lt_of_not_le hn) hs.n
    rw [if_neg hn, h, marks_get hcap, Option.bind_some]
    by_cases hmem : f i ∈ x.output
    · rw [if_pos hmem, if_pos rfl, List.filter_cons_of_neg (by simp [hmem])]
      exact ih hrest hnodup h
    obtain ⟨r, hget⟩ : ∃ r, s.records[f i]? = some r := ⟨_, List.getElem?_eq_getElem (hs.records ▸ hcap)⟩
    have hzero : (0 : UInt32) ≠ maxU32 := by decide
    rw [if_neg hmem, if_neg hzero, hget, Option.bind_some]
    cases htls : r.hasTls with
    | false =>
      have helig : s.eligible (f i) = false := by simp [CfChoice.eligible, hget, htls]
      rw [if_neg Bool.false_ne_true, List.filter_cons_of_neg (by simp [helig])]
      exact ih hrest hnodup h
    | true =>
      have helig : s.eligible (f i) = true := by simp [CfChoice.eligible, hget, htls, Nat.lt_of_not_le hn]
      have hchoose : x.choose (f i) = some ⟨x.scratch, marks s.cap (x.output ++ [f i]), x.output ++ [f i]⟩ := by
        unfold Selection.choose
        rw [h, marks_length, if_pos hcap, marks_set]
      obtain ⟨y, hy, hout, hmarks⟩ :=
        @ih hrest hnodup ⟨x.scratch, marks s.cap (x.output ++ [f i]), x.output ++ [f i]⟩ rfl
      refine ⟨y, ?_, ?_, hmarks⟩
      · rw [if_pos rfl, hchoose, Option.bind_some]
        exact hy
      · rw [hout, List.filter_cons_of_pos (by simp [helig, hmem])]
        obtain ⟨k, hk⟩ : ∃ k, keep - x.output.length = k + 1 := ⟨keep - x.output.length - 1, by omega⟩
        have hk' : keep - (x.output ++ [f i]).length = k := by
          rw [List.length_append, List.length_singleton]
          omega
        have hcongr : ((is.map f).filter fun j => s.eligible j && decide (j ∉ x.output ++ [f i])) =
            (is.map f).filter fun j => s.eligible j && decide (j ∉ x.output) := by
          refine List.filter_congr fun j hj => ?_
          have hne : j ≠ f i := fun heq => hi (heq ▸ hj)
          simp [hne]
        dsimp only
        rw [hk, hk', hcongr, List.take_succ_cons, List.append_assoc, List.singleton_append]

end Passes

/-- The indices that `choose_diverse` looks at, in order. -/
def sequence (order : Option (List Nat)) (count : Nat) : List Nat :=
  (List.range count).filterMap (orderedIndex order)

/-- A choice from `l` of at most `keep` records: the first of each of the first `reserve` blocks, and then what
comes first of the rest. -/
structure Diverse (s : CfChoice) (l : List Nat) (keep reserve : Nat) (out : List Nat) : Prop where
  length : out.length = min keep (l.filter s.eligible).length
  nodup : out.Nodup
  eligible : ∀ i ∈ out, i ∈ l ∧ s.eligible i = true
  reserved : (out.take reserve).length = reserve ∧
    out.take reserve = (l.filter (isFirst s.blockOf l)).take reserve
  rest : out.drop reserve =
    (l.filter fun i => s.eligible i && decide (i ∉ out.take reserve)).take (keep - reserve)

theorem sequence_eq {order : Option (List Nat)} {count : Nat}
    (horder : ∀ o, order = some o → count ≤ o.length) : ∃ f : Nat → Nat,
      (∀ i ∈ List.range count, orderedIndex order i = some (f i)) ∧
      sequence order count = (List.range count).map f := by
  have hall : ∃ f : Nat → Nat, ∀ i ∈ List.range count, orderedIndex order i = some (f i) := by
    cases order with
    | none => exact ⟨id, fun i _ => rfl⟩
    | some o =>
      refine ⟨fun i => o.getD i 0, fun i hi => ?_⟩
      have hlt : i < o.length := Nat.lt_of_lt_of_le (List.mem_range.mp hi) (horder o rfl)
      show o[i]? = some (o.getD i 0)
      rw [List.getD_eq_getElem?_getD, List.getElem?_eq_getElem hlt, Option.getD_some]
  obtain ⟨f, hf⟩ := hall
  refine ⟨f, hf, ?_⟩
  unfold sequence
  rw [List.filterMap_congr hf, List.filterMap_eq_map']

theorem orderedIndex_inj {order : Option (List Nat)} {count i j : Nat}
    (horder : ∀ o, order = some o → count ≤ o.length ∧ o.Nodup) (hi : i < count)
    (h : orderedIndex order i = orderedIndex order j) : i = j := by
  cases order with
  | none => exact Option.some.inj h
  | some o =>
    obtain ⟨hlen, hnodup⟩ := horder o rfl
    exact (List.getElem?_inj (Nat.lt_of_lt_of_le hi hlen) hnodup).mp h

/-- Out of a list without repetitions, what is chosen and what is not make up the whole. -/
theorem length_chosen {l h : List Nat} {p : Nat → Bool} (hl : l.Nodup) (hh : h.Nodup)
    (hsub : ∀ i ∈ h, i ∈ l ∧ p i = true) :
    (l.filter fun i => p i && decide (i ∉ h)).length + h.length = (l.filter p).length := by
  have hsame : ((l.filter p).filter fun i => decide (i ∈ h)).Perm h := by
    refine (List.perm_ext_iff_of_nodup ((hl.filter _).filter _) hh).mpr fun i => ?_
    simp only [List.mem_filter, decide_eq_true_eq]
    exact ⟨fun hi => hi.2, fun hi => ⟨hsub i hi, hi⟩⟩
  have hsplit := List.length_eq_length_filter_add (l := l.filter p) fun i => decide (i ∈ h)
  have hrest : (l.filter p).filter (fun i => !decide (i ∈ h)) = l.filter fun i => p i && decide (i ∉ h) := by
    rw [List.filter_filter]
    refine List.filter_congr fun i _ => ?_
    rw [Bool.and_comm, decide_not]
  rw [hsame.length_eq, hrest] at hsplit
  omega

/-- The heads of blocks first and then the rest is a diverse choice. -/
theorem diverse_append {s : CfChoice} {l : List Nat} (hl : l.Nodup) {keep reserve : Nat} (hreserve : reserve ≤ keep)
    {heads : List Nat} (hheads : heads = (firstOf s.blockOf [] l).take reserve) {out : List Nat}
    (hout : out = heads ++ (l.filter fun i => s.eligible i && decide (i ∉ heads)).take (keep - heads.length)) :
    Diverse s l keep (min reserve (l.filterMap s.blockOf).dedup.length) out := by
  have hlen : heads.length = min reserve (l.filterMap s.blockOf).dedup.length := by
    rw [hheads, List.length_take, length_firstOf]
  have hnodup : heads.Nodup := by
    rw [hheads]
    exact (nodup_firstOf hl).sublist (List.take_sublist _ _)
  have hfirst : firstOf s.blockOf [] l = l.filter (isFirst s.blockOf l) := by
    rw [firstOf_eq hl]
    refine List.filter_congr fun i _ => ?_
    simp
  have hsub : ∀ i ∈ heads, i ∈ l ∧ s.eligible i = true := by
    intro i hi
    rw [hheads, hfirst] at hi
    obtain ⟨hil, hi⟩ := List.mem_filter.mp (List.mem_of_mem_take hi)
    unfold isFirst at hi
    rw [Bool.and_eq_true] at hi
    obtain ⟨block, hb⟩ := Option.isSome_iff_exists.mp hi.1
    exact ⟨hil, blockOf_eligible hb⟩
  have hsum := length_chosen hl hnodup hsub
  have htake : out.take heads.length = heads := by
    rw [hout]
    exact List.take_left
  rw [← hlen]
  refine ⟨?_, ?_, ?_, ?_, ?_⟩
  · rw [hout, List.length_append, List.length_take]
    omega
  · rw [hout]
    refine List.nodup_append.mpr ⟨hnodup, (hl.filter _).sublist (List.take_sublist _ _), ?_⟩
    intro i hi j hj heq
    have hnot := (List.mem_filter.mp (List.mem_of_mem_take hj)).2
    simp only [Bool.and_eq_true, decide_eq_true_eq] at hnot
    exact hnot.2 (heq ▸ hi)
  · intro i hi
    rw [hout] at hi
    rcases List.mem_append.mp hi with hi | hi
    · exact hsub i hi
    · obtain ⟨hil, hi⟩ := List.mem_filter.mp (List.mem_of_mem_take hi)
      simp only [Bool.and_eq_true] at hi
      exact ⟨hil, hi.1⟩
  · rw [htake, ← hfirst]
    refine ⟨rfl, ?_⟩
    rw [hheads, List.length_take]
    exact List.take_eq_take_min
  · rw [htake, hout, List.drop_left]

/-- `choose_diverse` keeps as many records as it can, all different, spread over the blocks first; and it
leaves no mark behind. -/
theorem chooseDiverse_diverse {s : CfChoice} (hs : s.Sized) {order : Option (List Nat)} {count keep : Nat}
    (hkeep : keep ≤ s.cap) (horder : ∀ o, order = some o → count ≤ o.length ∧ o.Nodup ∧ ∀ i ∈ o, i < s.n) :
    ∃ out s', chooseDiverse s order count keep = some (out, s') ∧
      Diverse s (sequence order count) keep
        (min (reserveOf keep) ((sequence order count).filterMap s.blockOf).dedup.length) out ∧
      s'.rttBaselineUs = List.replicate s.cap 0 := by
  obtain ⟨f, hf, hseq⟩ := sequence_eq fun o ho => (horder o ho).1
  have hnodup : (sequence order count).Nodup := by
    rw [hseq]
    refine List.Nodup.map_on ?_ List.nodup_range
    intro i hi j hj heq
    refine orderedIndex_inj (fun o ho => ⟨(horder o ho).1, (horder o ho).2.1⟩) (List.mem_range.mp hi) ?_
    rw [hf i hi, hf j hj, heq]
  have hreserve : reserveOf keep ≤ keep := Nat.min_le_left _ _
  obtain ⟨x, hx, hxout, hxmarks⟩ := reservePass_spec hs (Nat.le_trans hreserve hkeep) (List.range count) hf
    (chosen_start s)
  obtain ⟨y, hy, hyout, hymarks⟩ := restPass_spec hs keep (List.range count) hf (hseq ▸ hnodup) hxmarks
  rw [← hseq] at hxout hyout
  refine ⟨y.output, { s with selectionScratch := y.scratch, rttBaselineUs := List.replicate s.cap 0 }, ?_,
    diverse_append hnodup hreserve hxout hyout, rfl⟩
  unfold chooseDiverse
  rw [hx, Option.bind_some, hy, Option.map_some, hymarks, marks_clear]

/-- An IPv4 record that got through the TLS handshake. -/
def scannedRecord (a : UInt32) : CfRecord :=
  ⟨.v4 a, 0, 0, 0, 0, 0, 0, 0, 0, 0, 0, 0, 0, rungTls, termSuccess, 0, [], 0, 0, false, 0⟩

/-- Two records of one /24 before one of another: one of the first block, and then the rest in order. -/
theorem chooseDiverse_diverse_sample :
    ∃ out s', chooseDiverse ⟨[scannedRecord 0x0A000001, scannedRecord 0x0A000002, scannedRecord 0x0A000101], 3, 3,
        [], []⟩ (some [1, 0, 2]) 3 2 = some (out, s') ∧
      Diverse ⟨[scannedRecord 0x0A000001, scannedRecord 0x0A000002, scannedRecord 0x0A000101], 3, 3, [], []⟩ [1, 0, 2] 2
        1 out ∧ s'.rttBaselineUs = [0, 0, 0] :=
  chooseDiverse_diverse ⟨rfl, by decide, by decide⟩ (by decide) (by simp)

end Qanat

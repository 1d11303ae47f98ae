import Qanat.CidrKept
import Mathlib.Data.List.Basic

namespace Qanat

/-- The output of `normalize_prefixes` so far, of either family, last prefix first. -/
structure KeptOk (out : List Prefix) : Prop where
  canon : ∀ p ∈ out, p.Canon
  apart : out.Pairwise fun p q => q.lo + q.span ≤ p.lo

def KeptBehind (out : List Prefix) (cur : Prefix) : Prop :=
  ∀ p ∈ out, p.lo + p.span ≤ cur.lo

theorem KeptOk.tail {top : Prefix} {rest : List Prefix} (h : KeptOk (top :: rest)) : KeptOk rest :=
  ⟨fun p hp => h.canon p (List.mem_cons_of_mem _ hp), (List.pairwise_cons.mp h.apart).2⟩

/-- What the merging loop leaves. -/
structure MergeKept (skipEdges : Bool) (out : List Prefix) (cur : Prefix) (r : List Prefix × Prefix) : Prop where
  ok : KeptOk r.1
  kept : ∀ p ∈ r.1, p ∈ out
  canon : r.2.Canon
  behind : KeptBehind r.1 r.2
  key_le : prefixKey r.2 ≤ prefixKey cur
  holds : ∀ q ∈ cur :: out, ∃ t ∈ r.2 :: r.1, prefixContains t q = true
  sound : ∀ t ∈ r.2 :: r.1, ∀ x, t.lo ≤ x ∧ x < t.lo + t.span → ∃ q ∈ cur :: out, q.lo ≤ x ∧ x < q.lo + q.span
  enum : ∀ x, (∃ t ∈ r.2 :: r.1, Enumerates skipEdges t x) ↔ ∃ q ∈ cur :: out, Enumerates skipEdges q x

theorem contains_self {p : Prefix} (hp : p.Canon) : prefixContains p p = true :=
  (contains_iff_within hp hp).mpr ⟨Nat.le_refl _, Nat.le_refl _⟩

theorem MergeKept.refl {skipEdges : Bool} {out : List Prefix} {cur : Prefix} (h : KeptOk out) (hcur : cur.Canon)
    (hb : KeptBehind out cur) : MergeKept skipEdges out cur (out, cur) where
  ok := h
  kept := fun _ hp => hp
  canon := hcur
  behind := hb
  key_le := le_refl _
  holds := by
    intro q hq
    refine ⟨q, hq, contains_self ?_⟩
    rcases List.mem_cons.mp hq with rfl | hq
    · exact hcur
    · exact h.canon q hq
  sound := fun t ht x hx => ⟨t, ht, hx⟩
  enum := fun _ => Iff.rfl

theorem enumerates_whole {p : Prefix} (hp : p.Canon) (hw : p.Whole hp) (x : Nat) :
    Enumerates false p x ↔ p.lo ≤ x ∧ x < p.lo + p.span := by
  have hspan : prefixUsable p false = p.span := hw
  unfold Enumerates
  rw [hspan]
  simp [edgeOffset]

theorem key_le_of_lo {p q : Prefix} (hp : p.Canon) (hq : q.Canon) (h : p.lo < q.lo) : prefixKey p ≤ prefixKey q := by
  by_contra hno
  have hle : prefixKey q ≤ prefixKey p := le_of_lt (lt_of_not_ge hno)
  have := (key_order hq hp hle).1
  omega

/-- Two halves and their merged prefix hold and enumerate the same. -/
theorem Merges.same {p q m : Prefix} {hp : p.Canon} {hq : q.Canon} {hm : m.Canon} (h : Merges hp hq hm) (x : Nat) :
    (m.lo ≤ x ∧ x < m.lo + m.span ↔ (p.lo ≤ x ∧ x < p.lo + p.span) ∨ (q.lo ≤ x ∧ x < q.lo + q.span)) ∧
      (Enumerates false m x ↔ Enumerates false p x ∨ Enumerates false q x) := by
  obtain ⟨hlo, hsize, hnext, hwp, hwq, hwm⟩ := h
  have hlo : m.lo = p.lo := hlo
  have hsize : m.span = p.span + q.span := hsize
  have hnext : p.lo + p.span = q.lo := hnext
  have hpos := p.span_pos
  have hpos' := q.span_pos
  have hcov : m.lo ≤ x ∧ x < m.lo + m.span ↔
      (p.lo ≤ x ∧ x < p.lo + p.span) ∨ (q.lo ≤ x ∧ x < q.lo + q.span) := by
    omega
  refine ⟨hcov, ?_⟩
  rw [enumerates_whole hm hwm, enumerates_whole hp hwp, enumerates_whole hq hwq]
  exact hcov

theorem mergeDown_kept (skipEdges : Bool) {out : List Prefix} {cur : Prefix} (h : KeptOk out) (hcur : cur.Canon)
    (hb : KeptBehind out cur) : MergeKept skipEdges out cur (mergeDown skipEdges out cur) := by
  induction out generalizing cur with
  | nil => exact .refl h hcur hb
  | cons top rest ih =>
    have hmem : top ∈ top :: rest := List.mem_cons_self
    unfold mergeDown
    split
    next => exact .refl h hcur hb
    next hskip =>
      obtain rfl : skipEdges = false := by simpa using hskip
      cases hm : mergeSiblings top cur with
      | none => exact .refl h hcur hb
      | some merged =>
        have htop := h.canon top hmem
        obtain ⟨hcanon, hmerge⟩ := mergeSiblings_canon htop hcur (hb top hmem) hm
        have hlo : merged.lo = top.lo := hmerge.lo
        have hspan := top.span_pos
        have hbtop := hb top hmem
        have hbehind : KeptBehind rest merged := by
          intro p hp
          rw [hlo]
          exact (List.pairwise_cons.mp h.apart).1 p hp
        have hkey : prefixKey merged ≤ prefixKey cur := key_le_of_lo hcanon hcur (by omega)
        have hsize : merged.span = top.span + cur.span := hmerge.size
        have hnext : top.lo + top.span = cur.lo := hmerge.next
        have hdown : MergeKept false (top :: rest) cur (rest, merged) := by
          refine ⟨h.tail, fun p hp => List.mem_cons_of_mem _ hp, hcanon, hbehind, hkey, ?_, ?_, ?_⟩
          · intro q hq
            rcases List.mem_cons.mp hq with rfl | hq
            · refine ⟨merged, List.mem_cons_self, (contains_iff_within hcanon hcur).mpr ?_⟩
              omega
            · rcases List.mem_cons.mp hq with rfl | hq
              · refine ⟨merged, List.mem_cons_self, (contains_iff_within hcanon htop).mpr ?_⟩
                omega
              · exact ⟨q, List.mem_cons_of_mem _ hq, contains_self (h.tail.canon q hq)⟩
          · intro t ht x hx
            rcases List.mem_cons.mp ht with rfl | ht
            · rcases (hmerge.same x).1.mp hx with hx | hx
              · exact ⟨top, List.mem_cons_of_mem _ hmem, hx⟩
              · exact ⟨cur, List.mem_cons_self, hx⟩
            · exact ⟨t, List.mem_cons_of_mem _ (List.mem_cons_of_mem _ ht), hx⟩
          · intro x
            simp only [List.exists_mem_cons_iff, (hmerge.same x).2]
            tauto
        dsimp only
        split
        next => exact hdown
        next =>
          have hrec := ih h.tail hcanon hbehind
          refine ⟨hrec.ok, fun p hp => List.mem_cons_of_mem _ (hrec.kept p hp), hrec.canon, hrec.behind,
            le_trans hrec.key_le hkey, ?_, ?_, fun x => (hrec.enum x).trans (hdown.enum x)⟩
          · intro q hq
            obtain ⟨t, ht, htq⟩ := hdown.holds q hq
            obtain ⟨u, hu, hut⟩ := hrec.holds t ht
            have hcq : q.Canon := by
              rcases List.mem_cons.mp hq with rfl | hq
              · exact hcur
              · exact h.canon q hq
            have hct : t.Canon := by
              rcases List.mem_cons.mp ht with rfl | ht
              · exact hcanon
              · exact h.tail.canon t ht
            have hcu : u.Canon := by
              rcases List.mem_cons.mp hu with rfl | hu
              · exact hrec.canon
              · exact hrec.ok.canon u hu
            exact ⟨u, hu, contains_trans hcu hct hcq hut htq⟩
          · intro t ht x hx
            obtain ⟨u, hu, hux⟩ := hrec.sound t ht x hx
            exact hdown.sound u hu x hux

/-- A prefix that lies in no larger one of the list. -/
def Outermost (v : List Prefix) (p : Prefix) : Prop :=
  ∀ q ∈ v, prefixContains q p = true → prefixContains p q = true

/-- What the output holds of the prefixes that have been taken in. -/
structure Kept (skipEdges : Bool) (taken out : List Prefix) : Prop where
  ok : KeptOk out
  holds : ∀ q ∈ taken, ∃ r ∈ out, prefixContains r q = true
  sound : ∀ r ∈ out, ∀ x, r.lo ≤ x ∧ x < r.lo + r.span → ∃ q ∈ taken, q.lo ≤ x ∧ x < q.lo + q.span
  enum : ∀ x, (∃ r ∈ out, Enumerates skipEdges r x) ↔ ∃ p ∈ taken, Outermost taken p ∧ Enumerates skipEdges p x

section Step

variable {skipEdges : Bool} {taken out : List Prefix} {cur : Prefix}

theorem taken_contains (htaken : ∀ p ∈ taken, p.Canon) (hcur : cur.Canon)
    (hle : ∀ p ∈ taken, prefixKey p ≤ prefixKey cur) (h : Kept skipEdges taken out)
    (htop : topContains out cur = true) : ∃ q ∈ taken, prefixContains q cur = true := by
  cases out with
  | nil => simp [topContains] at htop
  | cons top rest =>
    have hmem : top ∈ top :: rest := List.mem_cons_self
    have hin := (contains_iff_within (h.ok.canon top hmem) hcur).mp htop
    have hspan := cur.span_pos
    obtain ⟨q, hq, hqx⟩ := h.sound top hmem cur.lo (by omega)
    refine ⟨q, hq, ?_⟩
    rcases contains_or_contains (htaken q hq) hcur hqx (by omega) with hc | hc
    · exact hc
    · obtain ⟨hqle, heq⟩ := key_order (htaken q hq) hcur (hle q hq)
      have := (contains_iff_within hcur (htaken q hq)).mp hc
      exact heq (by omega)

theorem top_contains_of_taken (htaken : ∀ p ∈ taken, p.Canon) (hcur : cur.Canon)
    (hle : ∀ p ∈ out, prefixKey p ≤ prefixKey cur) (h : Kept skipEdges taken out) {q : Prefix} (hq : q ∈ taken)
    (hqc : prefixContains q cur = true) : topContains out cur = true := by
  obtain ⟨r, hr, hrq⟩ := h.holds q hq
  have hrc := contains_trans (h.ok.canon r hr) (htaken q hq) hcur hrq hqc
  cases out with
  | nil => exact absurd hr List.not_mem_nil
  | cons top rest =>
    rcases List.mem_cons.mp hr with rfl | hrest
    · exact hrc
    · have hin := (contains_iff_within (h.ok.canon r hr) hcur).mp hrc
      have hapart := (List.pairwise_cons.mp h.ok.apart).1 r hrest
      have htop := (key_order (h.ok.canon top List.mem_cons_self) hcur (hle top List.mem_cons_self)).1
      have hspan := cur.span_pos
      omega

/-- A prefix that the output holds already is left out. -/
theorem Kept.drop (htaken : ∀ p ∈ taken, p.Canon) (hcur : cur.Canon) (h : Kept skipEdges taken out) {q : Prefix}
    (hq : q ∈ taken) (hqc : prefixContains q cur = true) : Kept skipEdges (cur :: taken) out := by
  refine ⟨h.ok, ?_, ?_, ?_⟩
  · intro p hp
    rcases List.mem_cons.mp hp with rfl | hp
    · obtain ⟨r, hr, hrq⟩ := h.holds q hq
      exact ⟨r, hr, contains_trans (h.ok.canon r hr) (htaken q hq) hcur hrq hqc⟩
    · exact h.holds p hp
  · intro r hr x hx
    obtain ⟨p, hp, hpx⟩ := h.sound r hr x hx
    exact ⟨p, List.mem_cons_of_mem _ hp, hpx⟩
  · intro x
    rw [h.enum]
    constructor
    · rintro ⟨p, hp, htop, hx⟩
      refine ⟨p, List.mem_cons_of_mem _ hp, ?_, hx⟩
      intro t ht htp
      rcases List.mem_cons.mp ht with rfl | ht
      · have hqp := contains_trans (htaken q hq) hcur (htaken p hp) hqc htp
        exact contains_trans (htaken p hp) (htaken q hq) hcur (htop q hq hqp) hqc
      · exact htop t ht htp
    · rintro ⟨p, hp, htop, hx⟩
      have hout : Outermost taken p := fun t ht => htop t (List.mem_cons_of_mem _ ht)
      rcases List.mem_cons.mp hp with rfl | hp
      · have heq := contains_antisymm hcur (htaken q hq) (htop q (List.mem_cons_of_mem _ hq) hqc) hqc
        rw [← heq] at hq
        exact ⟨_, hq, hout, hx⟩
      · exact ⟨p, hp, hout, hx⟩

/-- A prefix that nothing before it contains is taken in. -/
theorem Kept.push {r : List Prefix × Prefix} (htaken : ∀ p ∈ taken, p.Canon) (hcur : cur.Canon)
    (hle : ∀ p ∈ taken, prefixKey p ≤ prefixKey cur) (h : Kept skipEdges taken out)
    (hnone : ∀ q ∈ taken, ¬ prefixContains q cur = true) (hm : MergeKept skipEdges out cur r) :
    Kept skipEdges (cur :: taken) (r.2 :: r.1) := by
  have hcanon : ∀ p ∈ r.2 :: r.1, p.Canon := by
    intro p hp
    rcases List.mem_cons.mp hp with rfl | hp
    · exact hm.canon
    · exact hm.ok.canon p hp
  refine ⟨⟨hcanon, List.pairwise_cons.mpr ⟨hm.behind, hm.ok.apart⟩⟩, ?_, ?_, ?_⟩
  · intro q hq
    rcases List.mem_cons.mp hq with rfl | hq
    · exact hm.holds q List.mem_cons_self
    · obtain ⟨t, ht, htq⟩ := h.holds q hq
      obtain ⟨u, hu, hut⟩ := hm.holds t (List.mem_cons_of_mem _ ht)
      exact ⟨u, hu, contains_trans (hcanon u hu) (h.ok.canon t ht) (htaken q hq) hut htq⟩
  · intro t ht x hx
    obtain ⟨u, hu, hux⟩ := hm.sound t ht x hx
    rcases List.mem_cons.mp hu with rfl | hu
    · exact ⟨u, List.mem_cons_self, hux⟩
    · obtain ⟨q, hq, hqx⟩ := h.sound u hu x hux
      exact ⟨q, List.mem_cons_of_mem _ hq, hqx⟩
  · intro x
    have houter (p : Prefix) (hp : p ∈ taken) : Outermost (cur :: taken) p ↔ Outermost taken p := by
      constructor
      · exact fun ht t htm => ht t (List.mem_cons_of_mem _ htm)
      · intro ht t htm htp
        rcases List.mem_cons.mp htm with rfl | htm
        · obtain ⟨hple, heq⟩ := key_order (htaken p hp) hcur (hle p hp)
          have := (contains_iff_within hcur (htaken p hp)).mp htp
          exact heq (by omega)
        · exact ht t htm htp
    have hself : Outermost (cur :: taken) cur := by
      intro t htm htc
      rcases List.mem_cons.mp htm with rfl | htm
      · exact htc
      · exact absurd htc (hnone t htm)
    rw [hm.enum, List.exists_mem_cons_iff, h.enum, List.exists_mem_cons_iff]
    constructor
    · rintro (hx | ⟨p, hp, ht, hx⟩)
      · exact .inl ⟨hself, hx⟩
      · exact .inr ⟨p, hp, (houter p hp).mpr ht, hx⟩
    · rintro (⟨-, hx⟩ | ⟨p, hp, ht, hx⟩)
      · exact .inl hx
      · exact .inr ⟨p, hp, (houter p hp).mp ht, hx⟩

theorem normalizeStep_kept (htaken : ∀ p ∈ taken, p.Canon) (hcur : cur.Canon)
    (hle : ∀ p ∈ taken, prefixKey p ≤ prefixKey cur) (hout : ∀ p ∈ out, prefixKey p ≤ prefixKey cur)
    (h : Kept skipEdges taken out) :
    Kept skipEdges (cur :: taken) (normalizeStep skipEdges out cur) ∧
      ∀ p ∈ normalizeStep skipEdges out cur, prefixKey p ≤ prefixKey cur := by
  unfold normalizeStep
  split
  next htop =>
    obtain ⟨q, hq, hqc⟩ := taken_contains htaken hcur hle h htop
    exact ⟨h.drop htaken hcur hq hqc, hout⟩
  next htop =>
    have hb : KeptBehind out cur := by
      cases out with
      | nil => exact fun _ hp => absurd hp List.not_mem_nil
      | cons top rest =>
        have hmem : top ∈ top :: rest := List.mem_cons_self
        have hfirst := behind_or_contains (h.ok.canon top hmem) hcur (hout top hmem) htop
        intro p hp
        rcases List.mem_cons.mp hp with rfl | hp
        · exact hfirst
        · have := (List.pairwise_cons.mp h.ok.apart).1 p hp
          have := top.span_pos
          omega
    have hm := mergeDown_kept skipEdges h.ok hcur hb
    have hnotop : ¬ topContains (mergeDown skipEdges out cur).1 (mergeDown skipEdges out cur).2 = true := by
      intro htop'
      cases hrest : (mergeDown skipEdges out cur).1 with
      | nil => simp [hrest, topContains] at htop'
      | cons t rest =>
        rw [hrest] at htop'
        have ht : t ∈ (mergeDown skipEdges out cur).1 := by simp [hrest]
        have hin := (contains_iff_within (hm.ok.canon t ht) hm.canon).mp htop'
        have := hm.behind t ht
        have := (mergeDown skipEdges out cur).2.span_pos
        omega
    dsimp only
    rw [if_neg hnotop]
    refine ⟨h.push htaken hcur hle ?_ hm, ?_⟩
    · exact fun q hq hqc => htop (top_contains_of_taken htaken hcur hout h hq hqc)
    · intro p hp
      rcases List.mem_cons.mp hp with rfl | hp
      · exact hm.key_le
      · exact hout p (hm.kept p hp)

end Step

theorem normalizeFold_kept {skipEdges : Bool} {v taken out : List Prefix} (hv : ∀ p ∈ v, p.Canon)
    (htaken : ∀ p ∈ taken, p.Canon) (hsorted : v.Pairwise fun a b => prefixKey a ≤ prefixKey b)
    (hle : ∀ p ∈ taken, ∀ q ∈ v, prefixKey p ≤ prefixKey q) (hout : ∀ p ∈ out, ∀ q ∈ v, prefixKey p ≤ prefixKey q)
    (h : Kept skipEdges taken out) :
    Kept skipEdges (v.reverse ++ taken) (v.foldl (normalizeStep skipEdges) out) := by
  induction v generalizing taken out with
  | nil => exact h
  | cons cur v ih =>
    have hmem : cur ∈ cur :: v := List.mem_cons_self
    obtain ⟨hfirst, hrest⟩ := List.pairwise_cons.mp hsorted
    obtain ⟨hstep, hkeys⟩ := normalizeStep_kept htaken (hv cur hmem) (fun p hp => hle p hp cur hmem)
      (fun p hp => hout p hp cur hmem) h
    rw [List.reverse_cons, List.append_assoc, List.singleton_append, List.foldl_cons]
    apply ih (fun p hp => hv p (List.mem_cons_of_mem _ hp)) ?_ hrest ?_ ?_ hstep
    · intro p hp
      rcases List.mem_cons.mp hp with rfl | hp
      · exact hv p hmem
      · exact htaken p hp
    · intro p hp q hq
      rcases List.mem_cons.mp hp with rfl | hp
      · exact hfirst q hq
      · exact hle p hp q (List.mem_cons_of_mem _ hq)
    · intro p hp q hq
      exact le_trans (hkeys p hp) (hfirst q hq)

theorem normalizePrefixes_fold (skipEdges : Bool) {v : List Prefix} (hv : ∀ p ∈ v, p.Canon) :
    Kept skipEdges (v.mergeSort prefixLe).reverse ((v.mergeSort prefixLe).foldl (normalizeStep skipEdges) []) := by
  have hperm := List.mergeSort_perm v prefixLe
  have hnil : Kept skipEdges [] [] := ⟨⟨by simp, List.Pairwise.nil⟩, by simp, by simp, by simp⟩
  have hfold := normalizeFold_kept (v := v.mergeSort prefixLe) (fun p hp => hv p (hperm.mem_iff.mp hp)) (by simp)
    (sorted_prefixes v) (by simp) (by simp) hnil
  rwa [List.append_nil] at hfold

/-- The prefixes of the normal form lie apart, in order. -/
theorem normalizePrefixes_apart (skipEdges : Bool) {v : List Prefix} (hv : ∀ p ∈ v, p.Canon) :
    (∀ p ∈ normalizePrefixes skipEdges v, p.Canon) ∧
      (normalizePrefixes skipEdges v).Pairwise fun p q => p.lo + p.span ≤ q.lo := by
  have hfold := normalizePrefixes_fold skipEdges hv
  unfold normalizePrefixes
  exact ⟨fun p hp => hfold.ok.canon p (List.mem_reverse.mp hp), List.pairwise_reverse.mpr hfold.ok.apart⟩

/-- The normal form holds each prefix, and nothing that no prefix holds. -/
theorem normalizePrefixes_spans (skipEdges : Bool) {v : List Prefix} (hv : ∀ p ∈ v, p.Canon) :
    (∀ q ∈ v, ∃ r ∈ normalizePrefixes skipEdges v, prefixContains r q = true) ∧
      ∀ r ∈ normalizePrefixes skipEdges v, ∀ x, r.lo ≤ x ∧ x < r.lo + r.span →
        ∃ q ∈ v, q.lo ≤ x ∧ x < q.lo + q.span := by
  have hfold := normalizePrefixes_fold skipEdges hv
  have hholds := hfold.holds
  have hsound := hfold.sound
  unfold normalizePrefixes
  simp only [List.mem_reverse, (List.mergeSort_perm v prefixLe).mem_iff] at hholds hsound ⊢
  exact ⟨hholds, hsound⟩

/-- The normal form enumerates what the outermost prefixes do. -/
theorem normalizePrefixes_kept (skipEdges : Bool) {v : List Prefix} (hv : ∀ p ∈ v, p.Canon) :
    (∀ p ∈ normalizePrefixes skipEdges v, p.Canon) ∧
      ∀ x, (∃ r ∈ normalizePrefixes skipEdges v, Enumerates skipEdges r x) ↔
        ∃ p ∈ v, Outermost v p ∧ Enumerates skipEdges p x := by
  refine ⟨(normalizePrefixes_apart skipEdges hv).1, fun x => ?_⟩
  have henum := (normalizePrefixes_fold skipEdges hv).enum x
  unfold normalizePrefixes
  simp only [List.mem_reverse, Outermost, (List.mergeSort_perm v prefixLe).mem_iff] at henum ⊢
  exact henum

end Qanat

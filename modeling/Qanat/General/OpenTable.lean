import Mathlib.Algebra.Order.Ring.Nat
import Mathlib.Data.List.Dedup
import Mathlib.Data.List.Nodup
import Mathlib.Data.List.Perm.Subperm

namespace OpenTable

variable {β : Type}

/-- Looks for `b` along some slots of a table, up to the first that is free, and puts it there; says whether
it was there before. A slot outside the table gives no result. -/
def claim [DecidableEq β] (free b : β) : List Nat → List β → Option (List β × Bool)
  | [], t => some (t, false)
  | p :: path, t =>
    match t[p]? with
    | none => none
    | some v =>
      if v = b then some (t, true)
      else if v = free then some (t.set p b, false)
      else claim free b path t

/-- Every value of the table stands on its path, behind slots that others took. -/
def Placed (free : β) (path : β → List Nat) (t : List β) : Prop :=
  ∀ (q : Nat) (b : β), t[q]? = some b → b ≠ free →
    ∃ l r, path b = l ++ q :: r ∧ ∀ p ∈ l, ∃ v, t[p]? = some v ∧ v ≠ free ∧ v ≠ b

/-- The values in a table. -/
def Holds (free : β) (t : List β) (b : β) : Prop :=
  b ≠ free ∧ ∃ q : Nat, t[q]? = some b

section Table

variable {free b : β} {path : β → List Nat} {t : List β}

theorem placed_replicate (free : β) (path : β → List Nat) (n : Nat) : Placed free path (List.replicate n free) := by
  intro q b hq hb
  exact absurd (List.eq_of_mem_replicate (List.mem_of_getElem? hq)) hb

theorem getElem?_set_new {q : Nat} (hq : t[q]? = some free) (p : Nat) :
    (t.set q b)[p]? = if p = q then some b else t[p]? := by
  have hlt : q < t.length := (List.getElem?_eq_some_iff.mp hq).1
  by_cases hp : p = q
  · rw [if_pos hp, hp]
    exact List.getElem?_set_self hlt
  · rw [if_neg hp, List.getElem?_set_ne (Ne.symm hp)]

theorem holds_set {q : Nat} (hq : t[q]? = some free) (hfree : b ≠ free) (v : β) :
    Holds free (t.set q b) v ↔ Holds free t v ∨ v = b := by
  constructor
  · rintro ⟨hv, p, hp⟩
    rw [getElem?_set_new hq] at hp
    split_ifs at hp
    · exact .inr (Option.some.inj hp).symm
    · exact .inl ⟨hv, p, hp⟩
  · rintro (⟨hv, p, hp⟩ | rfl)
    · refine ⟨hv, p, ?_⟩
      rw [getElem?_set_new hq, if_neg ?_]
      · exact hp
      · rintro rfl
        exact hv (Option.some.inj (hp.symm.trans hq))
    · exact ⟨hfree, q, by rw [getElem?_set_new hq, if_pos rfl]⟩

/-- A value put at the first free slot of its path leaves every other one where it is looked for. -/
theorem placed_set (h : Placed free path t) {l r : List Nat} {q : Nat} (hpath : path b = l ++ q :: r)
    (hl : ∀ p ∈ l, ∃ v, t[p]? = some v ∧ v ≠ free ∧ v ≠ b)
    (hq : t[q]? = some free) : Placed free path (t.set q b) := by
  have hkeep : ∀ (p : Nat) v, t[p]? = some v → v ≠ free → (t.set q b)[p]? = some v := by
    intro p v hp hv
    rw [getElem?_set_new hq, if_neg ?_]
    · exact hp
    · rintro rfl
      exact hv (Option.some.inj (hp.symm.trans hq))
  intro p c hp hc
  rw [getElem?_set_new hq] at hp
  split_ifs at hp with heq
  · obtain rfl := Option.some.inj hp
    subst heq
    refine ⟨l, r, hpath, fun p' hp' => ?_⟩
    obtain ⟨v, hv, hvf, hvb⟩ := hl p' hp'
    exact ⟨v, hkeep p' v hv hvf, hvf, hvb⟩
  · obtain ⟨l', r', hpath', hl'⟩ := h p c hp hc
    refine ⟨l', r', hpath', fun p' hp' => ?_⟩
    obtain ⟨v, hv, hvf, hvc⟩ := hl' p' hp'
    exact ⟨v, hkeep p' v hv hvf, hvf, hvc⟩

/-- No value stands twice. -/
theorem Placed.unique (h : Placed free path t) (hfree : b ≠ free) {p q : Nat} (hp : t[p]? = some b)
    (hq : t[q]? = some b) : p = q := by
  obtain ⟨l, r, hl, hbefore⟩ := h p b hp hfree
  obtain ⟨l', r', hl', hbefore'⟩ := h q b hq hfree
  have hfirst : ∀ {l r : List Nat} {p q : Nat}, path b = l ++ p :: r → t[q]? = some b →
      (∀ p ∈ l, ∃ v, t[p]? = some v ∧ v ≠ free ∧ v ≠ b) → q ∉ l := by
    intro l r p q _ hq hbefore hmem
    obtain ⟨v, hv, -, hne⟩ := hbefore q hmem
    exact hne (Option.some.inj (hv.symm.trans hq))
  rcases List.append_eq_append_iff.mp (hl.symm.trans hl') with ⟨m, rfl, hm⟩ | ⟨m, rfl, hm⟩
  · cases m with
    | nil => exact (List.cons.inj hm).1
    | cons x m =>
      obtain ⟨rfl, -⟩ := List.cons.inj hm
      exact absurd (by simp) (hfirst hl' hp hbefore')
  · cases m with
    | nil => exact (List.cons.inj hm).1.symm
    | cons x m =>
      obtain ⟨rfl, -⟩ := List.cons.inj hm
      exact absurd (by simp) (hfirst hl hq hbefore)

/-- A path of more slots than there are values has a free one. -/
theorem Placed.room (h : Placed free path t) {values : List β} (hvalues : ∀ v, Holds free t v → v ∈ values)
    {ps : List Nat} (hin : ∀ p ∈ ps, p < t.length) (hlen : values.length < ps.dedup.length) :
    ∃ p ∈ ps, t[p]? = some free := by
  by_contra hnone
  have hget : ∀ p ∈ ps, t[p]? = some (t.getD p free) ∧ t.getD p free ≠ free := by
    intro p hp
    have hp' : t[p]? = some (t.getD p free) := by
      rw [List.getD_eq_getElem?_getD, List.getElem?_eq_getElem (hin p hp), Option.getD_some]
    exact ⟨hp', fun heq => hnone ⟨p, hp, by rw [hp', heq]⟩⟩
  have hnodup : (ps.dedup.map fun p => t.getD p free).Nodup := by
    refine List.Nodup.map_on ?_ (List.nodup_dedup ps)
    intro p hp q hq heq
    obtain ⟨hp₁, hp₂⟩ := hget p (List.mem_dedup.mp hp)
    obtain ⟨hq₁, -⟩ := hget q (List.mem_dedup.mp hq)
    exact h.unique hp₂ hp₁ (heq ▸ hq₁)
  have hsub : (ps.dedup.map fun p => t.getD p free) ⊆ values := by
    intro v hv
    obtain ⟨p, hp, rfl⟩ := List.mem_map.mp hv
    obtain ⟨hp₁, hp₂⟩ := hget p (List.mem_dedup.mp hp)
    exact hvalues _ ⟨hp₂, p, hp₁⟩
  have hle := (hnodup.subperm hsub).length_le
  rw [List.length_map] at hle
  omega

end Table

section Claim

variable [DecidableEq β] {free b : β} {path : β → List Nat} {t : List β}

/-- A walk over taken slots goes on behind them. -/
theorem claim_skip {l r : List Nat} (h : ∀ p ∈ l, ∃ v, t[p]? = some v ∧ v ≠ free ∧ v ≠ b) :
    claim free b (l ++ r) t = claim free b r t := by
  induction l with
  | nil => rfl
  | cons p l ih =>
    obtain ⟨v, hv, hfree, hne⟩ := h p (List.mem_cons_self ..)
    rw [List.cons_append, claim, hv]
    dsimp only
    rw [if_neg hne, if_neg hfree]
    exact ih fun q hq => h q (List.mem_cons_of_mem p hq)

/-- A value that is there is found. -/
theorem claim_found (h : Placed free path t) (hb : Holds free t b) : claim free b (path b) t = some (t, true) := by
  obtain ⟨hfree, q, hq⟩ := hb
  obtain ⟨l, r, hpath, hl⟩ := h q b hq hfree
  rw [hpath, claim_skip hl, claim, hq]
  dsimp only
  rw [if_pos rfl]

/-- A value that is not there gets the first free slot of its path. -/
theorem claim_new (hb : ¬ Holds free t b) (hfree : b ≠ free) (hin : ∀ p ∈ path b, p < t.length)
    (hroom : ∃ p ∈ path b, t[p]? = some free) :
    ∃ l q r, path b = l ++ q :: r ∧ (∀ p ∈ l, ∃ v, t[p]? = some v ∧ v ≠ free ∧ v ≠ b) ∧ t[q]? = some free ∧
      claim free b (path b) t = some (t.set q b, false) := by
  have hpath : ∀ ps : List Nat, (∀ p ∈ ps, p < t.length) → (∃ p ∈ ps, t[p]? = some free) →
      ∃ l q r, ps = l ++ q :: r ∧ (∀ p ∈ l, ∃ v, t[p]? = some v ∧ v ≠ free ∧ v ≠ b) ∧ t[q]? = some free := by
    intro ps hin hroom
    induction ps with
    | nil => simp at hroom
    | cons p ps ih =>
      have hlt : p < t.length := hin p (List.mem_cons_self ..)
      have hp : t[p]? = some t[p] := List.getElem?_eq_getElem hlt
      by_cases hpf : t[p] = free
      · exact ⟨[], p, ps, rfl, by simp, by rw [hp, hpf]⟩
      · have hroom' : ∃ p ∈ ps, t[p]? = some free := by
          obtain ⟨q, hq, hqf⟩ := hroom
          rcases List.mem_cons.mp hq with rfl | hq
          · rw [hp] at hqf
            exact absurd (Option.some.inj hqf) hpf
          · exact ⟨q, hq, hqf⟩
        obtain ⟨l, q, r, rfl, hl, hq⟩ := ih (fun q hq => hin q (List.mem_cons_of_mem p hq)) hroom'
        refine ⟨p :: l, q, r, rfl, ?_, hq⟩
        intro p' hp'
        rcases List.mem_cons.mp hp' with rfl | hp'
        · exact ⟨_, hp, hpf, fun heq => hb ⟨hfree, _, hp.trans (congrArg some heq)⟩⟩
        · exact hl p' hp'
  obtain ⟨l, q, r, hlqr, hl, hq⟩ := hpath (path b) hin hroom
  refine ⟨l, q, r, hlqr, hl, hq, ?_⟩
  rw [hlqr, claim_skip hl, claim, hq]
  dsimp only
  rw [if_neg (Ne.symm hfree), if_pos rfl]

end Claim

end OpenTable

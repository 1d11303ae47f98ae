import Mathlib.Data.List.DropRight

namespace Lines

variable {α : Type*} [DecidableEq α] {nl : α}

/-- The lines of a text, each with its end; the last one may have none. -/
def split (nl : α) : List α → List (List α)
  | [] => []
  | c :: t =>
    if c = nl then [c] :: split nl t
    else match split nl t with
      | [] => [[c]]
      | l :: ls => (c :: l) :: ls

theorem split_line {l t : List α} (h : nl ∉ l) : split nl (l ++ nl :: t) = (l ++ [nl]) :: split nl t := by
  induction l with
  | nil => rw [List.nil_append, split, if_pos rfl, List.nil_append]
  | cons c l ih =>
    have hc : c ≠ nl := fun e => h (e ▸ List.mem_cons_self)
    rw [List.cons_append, split, if_neg hc, ih fun hm => h (List.mem_cons_of_mem _ hm)]
    rfl

/-- The first line of a text goes up to the first `nl`, and the others are the lines of what stands behind it. -/
theorem split_eq_cons {t : List α} (h : t ≠ []) :
    ∃ l, split nl t = l :: split nl (t.dropWhile (· ≠ nl)).tail ∧ l.takeWhile (· ≠ nl) = t.takeWhile (· ≠ nl) := by
  induction t with
  | nil => exact absurd rfl h
  | cons c t ih =>
    by_cases hc : c = nl
    · refine ⟨[c], ?_, ?_⟩
      · rw [split, if_pos hc, List.dropWhile_cons_of_neg (by simp [hc]), List.tail_cons]
      · rw [List.takeWhile_cons_of_neg (by simp [hc]), List.takeWhile_cons_of_neg (by simp [hc])]
    · rw [split, if_neg hc, List.dropWhile_cons_of_pos (by simp [hc]), List.takeWhile_cons_of_pos (by simp [hc])]
      by_cases ht : t = []
      · subst ht
        exact ⟨[c], rfl, by simp [hc]⟩
      · obtain ⟨l, hl, htake⟩ := ih ht
        rw [hl]
        refine ⟨c :: l, rfl, ?_⟩
        rw [List.takeWhile_cons_of_pos (by simp [hc]), htake]

/-- Lines that each end in the one `nl` they hold are read back as they are. -/
theorem split_flatten {ls : List (List α)} (h : ∀ l ∈ ls, ∃ body, l = body ++ [nl] ∧ nl ∉ body) :
    split nl ls.flatten = ls := by
  induction ls with
  | nil => rfl
  | cons l ls ih =>
    obtain ⟨body, rfl, hbody⟩ := h l List.mem_cons_self
    rw [List.flatten_cons, List.append_assoc, List.singleton_append, split_line hbody,
      ih fun l' hl' => h l' (List.mem_cons_of_mem _ hl')]

end Lines

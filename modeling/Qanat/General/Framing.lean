import Qanat.General.Scanner

namespace Scanner

/-- A scanner that counts entries, and knows when it is spoilt and when it is through. -/
structure Machine (σ β : Type) where
  bad : σ → Bool
  step : σ → β → σ
  isDone : σ → Bool
  count : σ → Nat
  done_ok : ∀ s, isDone s = true → bad s = false

/-- So many entries, one behind the other. -/
inductive Entries {β : Type} (entry : List β → Prop) : Nat → List β → Prop
  | nil : Entries entry 0 []
  | cons {n : Nat} {e rest : List β} (he : entry e) (hrest : Entries entry n rest) :
    Entries entry (n + 1) (e ++ rest)

theorem Entries.ne_nil {β : Type} {entry : List β → Prop} (hne : ∀ e, entry e → e ≠ []) {n : Nat} {p : List β}
    (h : Entries entry n p) (hn : n ≠ 0) : p ≠ [] := by
  cases h with
  | nil => exact absurd rfl hn
  | cons he _ =>
    intro happ
    exact hne _ he (List.append_eq_nil_iff.mp happ).1

namespace Machine

variable {σ β : Type} (M : Machine σ β) {n : Nat} {s : σ}

/-- The machine takes the input and is through then, with `n` entries. -/
def Takes (n : Nat) (s : σ) (p : List β) : Prop :=
  Accepts M.bad M.step (fun s => M.isDone s = true ∧ M.count s = n) s p

theorem isDone_bad (h : M.bad s = true) : M.isDone s = false := by
  cases hdone : M.isDone s with
  | false => rfl
  | true =>
    have hok := M.done_ok s hdone
    rw [h] at hok
    cases hok

theorem takes_bad (h : M.bad s = true) (p : List β) : ¬ M.Takes n s p :=
  accepts_bad h p

theorem takes_nil : M.Takes n s [] ↔ M.isDone s = true ∧ M.count s = n :=
  accepts_nil fun h => M.done_ok s h.1

theorem takes_cons (h : M.bad s = false) (b : β) (p : List β) :
    M.Takes n s (b :: p) ↔ M.Takes n (M.step s b) p :=
  accepts_cons h b p

section Field

variable (part : List β → σ) {k : Nat}
  (hopen : ∀ l, l.length ≤ k → M.bad (part l) = false ∧ M.isDone (part l) = false)
  (hmore : ∀ l b, l.length < k → M.step (part l) b = part (l ++ [b]))
include hopen hmore

/-- A machine that holds in `part` what has come of a field takes `k` elements of it, and is not through before. -/
theorem takes_part (p : List β) : M.Takes n (part []) p ↔
    ∃ h rest, p = h ++ rest ∧ h.length = k ∧ M.Takes n (part h) rest := by
  have hread := accepts_read (P := fun s => M.isDone s = true ∧ M.count s = n) part k (fun l hl => (hopen l hl.le).1)
    (fun l hl h => by rw [(hopen l hl.le).2] at h; cases h.1) hmore [] (Nat.zero_le k) p
  simpa [Takes] using hread

/-- A field of which another element is taken: at the end of the field `good` says where it brings the machine, or
it spoils the machine. -/
theorem takes_field (good : List β → σ) (ok : List β → Prop)
    (hgood : ∀ l b, l.length = k → ok (l ++ [b]) → M.step (part l) b = good (l ++ [b]))
    (hbad : ∀ l b, l.length = k → ¬ ok (l ++ [b]) → M.bad (M.step (part l) b) = true) (p : List β) :
    M.Takes n (part []) p ↔
      ∃ field rest, p = field ++ rest ∧ field.length = k + 1 ∧ ok field ∧ M.Takes n (good field) rest := by
  rw [M.takes_part part hopen hmore]
  constructor
  · rintro ⟨h, rest, rfl, hlen, htakes⟩
    have hh := hopen h hlen.le
    cases rest with
    | nil =>
      have hdone := (M.takes_nil.mp htakes).1
      rw [hh.2] at hdone
      cases hdone
    | cons b rest =>
      rw [M.takes_cons hh.1] at htakes
      by_cases hok : ok (h ++ [b])
      · rw [hgood h b hlen hok] at htakes
        exact ⟨h ++ [b], rest, by simp, by simp [hlen], hok, htakes⟩
      · exact absurd htakes (M.takes_bad (hbad h b hlen hok) rest)
  · rintro ⟨field, rest, rfl, hlen, hok, htakes⟩
    have hne : field ≠ [] := List.ne_nil_of_length_eq_add_one hlen
    have hfield := List.dropLast_concat_getLast hne
    have hinit : field.dropLast.length = k := by rw [List.length_dropLast, hlen, Nat.add_sub_cancel]
    refine ⟨field.dropLast, field.getLast hne :: rest, ?_, hinit, ?_⟩
    · rw [List.append_cons, hfield]
    · rw [M.takes_cons (hopen _ hinit.le).1, hgood _ _ hinit (by rw [hfield]; exact hok), hfield]
      exact htakes

/-- A field that is only counted. -/
theorem takes_body (after : σ) (hlast : ∀ l b, l.length = k → M.step (part l) b = after) (p : List β) :
    M.Takes n (part []) p ↔
      ∃ field rest, p = field ++ rest ∧ field.length = k + 1 ∧ M.Takes n after rest := by
  simpa using M.takes_field part hopen hmore (fun _ => after) (fun _ => True) (fun l b hl _ => hlast l b hl)
    (fun _ _ _ h => absurd trivial h) p

/-- A field for which there is no room: what has come of it fits, and one more element spoils the machine. -/
theorem takes_cut (hend : ∀ l b, l.length = k → M.bad (M.step (part l) b) = true) (p : List β) :
    ¬ M.Takes n (part []) p := by
  intro h
  obtain ⟨-, rest, -, -, hnone, -⟩ := (M.takes_field part hopen hmore part (fun _ => False)
    (fun _ _ _ hnone => hnone.elim) (fun l b hl _ => hend l b hl) p).mp h
  exact hnone

end Field

section List

variable {entry : List β → Prop} (hne : ∀ e, entry e → e ≠ []) {total : Nat} (between : Nat → Nat → σ)
  (hend : ∀ count, 0 < count → ∀ p, M.Takes n (between 0 count) p ↔ p = [] ∧ count = n)
  (hentry : ∀ left count, left ≠ 0 → left ≤ total → ∀ p, M.Takes n (between left count) p ↔
    ∃ e rest, p = e ++ rest ∧ entry e ∧ e.length ≤ left ∧ M.Takes n (between (left - e.length) (count + 1)) rest)
include hne hend hentry

/-- Between two entries, with `left` elements of the list to come, a machine takes just the entries that fill it. -/
theorem takes_entries {left count : Nat} (hleft : left ≤ total) (hsome : 0 < count ∨ left ≠ 0) (p : List β) :
    M.Takes n (between left count) p ↔ p.length = left ∧ ∃ m, count + m = n ∧ Entries entry m p := by
  induction left using Nat.strong_induction_on generalizing count p with
  | _ left ih =>
    by_cases hzero : left = 0
    · subst hzero
      rw [hend count (hsome.resolve_right fun h => h rfl) p]
      constructor
      · rintro ⟨rfl, hcount⟩
        exact ⟨rfl, 0, hcount, .nil⟩
      · rintro ⟨hp, m, hm, hentries⟩
        obtain rfl := List.eq_nil_of_length_eq_zero hp
        by_cases hm0 : m = 0
        · exact ⟨rfl, by omega⟩
        · exact absurd rfl (hentries.ne_nil hne hm0)
    rw [hentry left count hzero hleft p]
    constructor
    · rintro ⟨e, rest, rfl, he, hle, h⟩
      have hpos := List.length_pos_of_ne_nil (hne e he)
      obtain ⟨hrest, m, hm, hentries⟩ := (ih _ (by omega) (by omega) (.inl (Nat.succ_pos count)) rest).mp h
      refine ⟨?_, m + 1, by omega, .cons he hentries⟩
      rw [List.length_append]
      omega
    · rintro ⟨hp, m, hm, hentries⟩
      cases hentries with
      | nil => exact absurd hp.symm hzero
      | @cons m e rest he hrest =>
        have hpos := List.length_pos_of_ne_nil (hne e he)
        rw [List.length_append] at hp
        refine ⟨e, rest, rfl, he, by omega, ?_⟩
        exact (ih _ (by omega) (by omega) (.inl (Nat.succ_pos count)) rest).mpr ⟨by omega, m, by omega, hrest⟩

/-- A list behind its length, `used` elements into a message of `total`: at least one entry, and the message ends
with the last one. -/
theorem takes_list {used k : Nat} {size : List β → Nat}
    (hstart : ∀ p, M.Takes n s p ↔ ∃ len list, p = len ++ list ∧ len.length = k ∧
      (size len ≠ 0 ∧ used + k + size len = total) ∧ M.Takes n (between (size len) 0) list) (p : List β) :
    M.Takes n s p ↔ (∃ len list, p = len ++ list ∧ len.length = k ∧ list.length = size len ∧ 0 < n ∧
      Entries entry n list) ∧ used + p.length = total := by
  rw [hstart p]
  constructor
  · rintro ⟨len, list, rfl, hlen, ⟨hsize, htotal⟩, h⟩
    obtain ⟨hlist, m, hm, hentries⟩ :=
      (M.takes_entries hne between hend hentry (by omega) (.inr hsize) list).mp h
    obtain rfl : m = n := by omega
    refine ⟨⟨len, list, rfl, hlen, hlist, Nat.pos_of_ne_zero fun hzero => ?_, hentries⟩, ?_⟩
    · subst hzero
      cases hentries
      exact hsize hlist.symm
    · rw [List.length_append]
      omega
  · rintro ⟨⟨len, list, rfl, hlen, hlist, hn, hentries⟩, htotal⟩
    have hpos := List.length_pos_of_ne_nil (hentries.ne_nil hne hn.ne')
    rw [List.length_append] at htotal
    refine ⟨len, list, rfl, hlen, ⟨by omega, by omega⟩, ?_⟩
    exact (M.takes_entries hne between hend hentry (by omega) (.inr (by omega)) list).mpr
      ⟨hlist, n, Nat.zero_add n, hentries⟩

end List

end Machine

end Scanner

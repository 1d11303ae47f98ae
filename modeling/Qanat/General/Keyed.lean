import Mathlib.Data.List.Nodup
import Mathlib.Data.Finset.Card

namespace Keyed

variable {α κ : Type*} {key : α → κ} {l : List α}

theorem mem_modify {f : α → α} {i : Nat} {y : α} (h : y ∈ l.modify i f) : ∃ x ∈ l, y = x ∨ y = f x := by
  induction l generalizing i with
  | nil => cases i <;> cases h
  | cons x l ih =>
    cases i with
    | zero =>
      rw [List.modify_zero_cons] at h
      obtain rfl | h := List.mem_cons.mp h
      · exact ⟨x, List.mem_cons_self, .inr rfl⟩
      · exact ⟨y, List.mem_cons_of_mem _ h, .inl rfl⟩
    | succ i =>
      rw [List.modify_succ_cons] at h
      obtain rfl | h := List.mem_cons.mp h
      · exact ⟨y, List.mem_cons_self, .inl rfl⟩
      · obtain ⟨z, hz, hy⟩ := ih h
        exact ⟨z, List.mem_cons_of_mem _ hz, hy⟩

theorem map_key_modify {f : α → α} (hf : ∀ x, key (f x) = key x) (i : Nat) : (l.modify i f).map key = l.map key := by
  induction l generalizing i with
  | nil => cases i <;> rfl
  | cons x l ih =>
    cases i with
    | zero => rw [List.modify_zero_cons, List.map_cons, List.map_cons, hf]
    | succ i => rw [List.modify_succ_cons, List.map_cons, List.map_cons, ih]

theorem modify_congr {f g : α → α} (h : ∀ x ∈ l, f x = g x) (i : Nat) : l.modify i f = l.modify i g := by
  induction l generalizing i with
  | nil => cases i <;> rfl
  | cons x l ih =>
    cases i with
    | zero => rw [List.modify_zero_cons, List.modify_zero_cons, h x List.mem_cons_self]
    | succ i =>
      rw [List.modify_succ_cons, List.modify_succ_cons, ih fun y hy => h y (List.mem_cons_of_mem _ hy)]

variable [DecidableEq κ]

/-- Where keys are distinct, a change at the place of a key changes the one entry of that key. -/
theorem modify_findIdx (h : (l.map key).Nodup) (k : κ) (f : α → α) :
    l.modify (l.findIdx fun x => key x = k) f = l.map fun x => if key x = k then f x else x := by
  induction l with
  | nil => rfl
  | cons x l ih =>
    rw [List.map_cons, List.nodup_cons] at h
    by_cases hx : key x = k
    · have hrest : (l.map fun y => if key y = k then f y else y) = l.map id := by
        refine List.map_congr_left fun y hy => ?_
        rw [if_neg fun hyk => h.1 (List.mem_map.mpr ⟨y, hy, hyk.trans hx.symm⟩), id]
      rw [List.findIdx_cons, List.map_cons, hrest, List.map_id, if_pos hx]
      simp [hx]
    · rw [List.findIdx_cons, List.map_cons, ← ih h.2, if_neg hx]
      simp [hx]

theorem findIdx_lt_iff (k : κ) : (l.findIdx fun x => key x = k) < l.length ↔ k ∈ l.map key := by
  rw [List.findIdx_lt_length, List.mem_map]
  simp only [decide_eq_true_eq]

theorem findIdx_eq_iff (k : κ) : (l.findIdx fun x => key x = k) = l.length ↔ k ∉ l.map key := by
  rw [← findIdx_lt_iff]
  have : (l.findIdx fun x => decide (key x = k)) ≤ l.length := List.findIdx_le_length
  omega

section Lookup

/-- The first entry of a key. -/
def lookup (key : α → κ) (k : κ) (l : List α) : Option α :=
  l.find? fun x => key x = k

theorem lookup_cons (x : α) (k : κ) : lookup key k (x :: l) = if key x = k then some x else lookup key k l := by
  by_cases h : key x = k <;> simp [lookup, h]

theorem lookup_append (l' : List α) (k : κ) : lookup key k (l ++ l') = (lookup key k l).or (lookup key k l') :=
  List.find?_append

theorem lookup_eq_none {k : κ} : lookup key k l = none ↔ k ∉ l.map key := by
  rw [lookup, List.find?_eq_none, List.mem_map, not_exists]
  simp only [decide_eq_true_eq, not_and]

theorem mem_of_lookup {k : κ} {x : α} (h : lookup key k l = some x) : x ∈ l ∧ key x = k :=
  ⟨List.mem_of_find?_eq_some h, by simpa using List.find?_some h⟩

theorem lookup_eq_some (h : (l.map key).Nodup) {k : κ} {x : α} : lookup key k l = some x ↔ x ∈ l ∧ key x = k := by
  refine ⟨mem_of_lookup, fun ⟨hx, hk⟩ => ?_⟩
  cases hl : lookup key k l with
  | none => exact absurd (List.mem_map.mpr ⟨x, hx, hk⟩) (lookup_eq_none.mp hl)
  | some y =>
    obtain ⟨hy, hyk⟩ := mem_of_lookup hl
    rw [List.inj_on_of_nodup_map h hy hx (hyk.trans hk.symm)]

theorem lookup_map {g : α → α} (hg : ∀ x, key (g x) = key x) (k : κ) :
    lookup key k (l.map g) = (lookup key k l).map g := by
  unfold lookup
  rw [List.find?_map]
  congr 2
  funext x
  simp only [Function.comp_apply, hg]

end Lookup

section Upsert

/-- Puts an entry into a bounded list, combined with the entry of its key if there is one. -/
def upsert (key : α → κ) (cap : Nat) (combine : α → α → α) (out : List α) (d : α) : List α :=
  if key d ∉ out.map key then if out.length < cap then out ++ [d] else out
  else out.map fun m => if key m = key d then combine d m else m

variable {cap : Nat} {combine : α → α → α} {out disk : List α} {d m : α} {k : κ}

theorem length_upsert_le (h : out.length ≤ cap) : (upsert key cap combine out d).length ≤ cap := by
  unfold upsert
  split
  next =>
    split
    next hlt =>
      rw [List.length_append, List.length_singleton]
      exact hlt
    next => exact h
  next =>
    rw [List.length_map]
    exact h

theorem mem_upsert {x : α} (h : x ∈ upsert key cap combine out d) :
    x ∈ out ∨ x = d ∨ ∃ m ∈ out, key m = key d ∧ x = combine d m := by
  unfold upsert at h
  split at h
  next =>
    split at h
    next =>
      obtain h | h := List.mem_append.mp h
      · exact .inl h
      · exact .inr (.inl (List.mem_singleton.mp h))
    next => exact .inl h
  next =>
    obtain ⟨m, hm, rfl⟩ := List.mem_map.mp h
    split
    next hk => exact .inr (.inr ⟨m, hm, hk, rfl⟩)
    next => exact .inl hm

theorem lookup_upsert_none (h : lookup key (key d) out = none) :
    lookup key (key d) (upsert key cap combine out d) = if out.length < cap then some d else none := by
  unfold upsert
  rw [if_pos (lookup_eq_none.mp h)]
  split
  next => rw [lookup_append, h, lookup_cons, if_pos rfl, Option.none_or]
  next => exact h

theorem length_upsertAll_le (h : out.length ≤ cap) : (disk.foldl (upsert key cap combine) out).length ≤ cap := by
  induction disk generalizing out with
  | nil => exact h
  | cons d disk ih => exact ih (length_upsert_le h)

/-- A list of distinct keys from `S` has room for a key of `S` that it lacks. -/
theorem length_lt_of_keys {S : Finset κ} (hS : S.card ≤ cap) (hout : ∀ x ∈ out, key x ∈ S) (hnd : (out.map key).Nodup)
    (hk : k ∈ S) (habs : k ∉ out.map key) : out.length < cap := by
  have hsub : (out.map key).toFinset ⊂ S := by
    refine Finset.ssubset_iff_subset_ne.mpr ⟨fun x hx => ?_, fun e => habs ?_⟩
    · obtain ⟨y, hy, rfl⟩ := List.mem_map.mp (List.mem_toFinset.mp hx)
      exact hout y hy
    · rw [← List.mem_toFinset, e]
      exact hk
  calc out.length = (out.map key).toFinset.card := by rw [List.toFinset_card_of_nodup hnd, List.length_map]
    _ < S.card := Finset.card_lt_card hsub
    _ ≤ cap := hS

variable (hkey : ∀ d m, key m = key d → key (combine d m) = key d)

include hkey

theorem key_combined (m : α) : key (if key m = key d then combine d m else m) = key m := by
  split
  next h => rw [hkey d m h, h]
  next => rfl

theorem nodup_upsert (h : (out.map key).Nodup) : ((upsert key cap combine out d).map key).Nodup := by
  unfold upsert
  split
  next hnew =>
    split
    next =>
      rw [List.map_append, List.map_singleton]
      refine List.nodup_append.mpr ⟨h, List.nodup_singleton _, fun x hx y hy e => hnew ?_⟩
      rw [← List.mem_singleton.mp hy, ← e]
      exact hx
    next => exact h
  next =>
    have hsame : (out.map fun m => if key m = key d then combine d m else m).map key = out.map key := by
      rw [List.map_map]
      exact List.map_congr_left fun m _ => key_combined hkey m
    rw [hsame]
    exact h

theorem lookup_upsert_of_ne (h : key d ≠ k) : lookup key k (upsert key cap combine out d) = lookup key k out := by
  unfold upsert
  split
  next =>
    split
    next => rw [lookup_append, lookup_cons, if_neg h, lookup, lookup, List.find?_nil, Option.or_none]
    next => rfl
  next =>
    rw [lookup_map (key_combined hkey)]
    cases hl : lookup key k out with
    | none => rfl
    | some m => rw [Option.map_some, if_neg fun e => h (e.symm.trans (mem_of_lookup hl).2)]

theorem lookup_upsert_some (h : lookup key (key d) out = some m) :
    lookup key (key d) (upsert key cap combine out d) = some (combine d m) := by
  obtain ⟨hm, hk⟩ := mem_of_lookup h
  unfold upsert
  rw [if_neg fun habs => habs (List.mem_map.mpr ⟨m, hm, hk⟩), lookup_map (key_combined hkey), h, Option.map_some, if_pos hk]

theorem nodup_upsertAll (h : (out.map key).Nodup) :
    ((disk.foldl (upsert key cap combine) out).map key).Nodup := by
  induction disk generalizing out with
  | nil => exact h
  | cons d disk ih => exact ih (nodup_upsert hkey h)

theorem lookup_upsertAll_absent (h : lookup key k disk = none) :
    lookup key k (disk.foldl (upsert key cap combine) out) = lookup key k out := by
  induction disk generalizing out with
  | nil => rfl
  | cons d disk ih =>
    rw [lookup_cons] at h
    split at h
    next => cases h
    next hne => rw [List.foldl_cons, ih h, lookup_upsert_of_ne hkey hne]

/-- Both lists have the key: what stands behind is the combination. -/
theorem lookup_upsertAll_both (hdisk : (disk.map key).Nodup) (hd : lookup key k disk = some d)
    (hm : lookup key k out = some m) :
    lookup key k (disk.foldl (upsert key cap combine) out) = some (combine d m) := by
  induction disk generalizing out with
  | nil => cases hd
  | cons x disk ih =>
    rw [List.map_cons, List.nodup_cons] at hdisk
    rw [lookup_cons] at hd
    rw [List.foldl_cons]
    split at hd
    next hx =>
      obtain rfl := Option.some.inj hd
      subst hx
      rw [lookup_upsertAll_absent hkey (lookup_eq_none.mpr hdisk.1)]
      exact lookup_upsert_some hkey hm
    next hx => exact ih hdisk.2 hd ((lookup_upsert_of_ne hkey hx).trans hm)

/-- Only the second list has the key: its entry is taken unless there is no room. -/
theorem lookup_upsertAll_new (cap : Nat) (hdisk : (disk.map key).Nodup) (hd : lookup key k disk = some d)
    (hm : lookup key k out = none) :
    lookup key k (disk.foldl (upsert key cap combine) out) = some d ∨
      lookup key k (disk.foldl (upsert key cap combine) out) = none := by
  induction disk generalizing out with
  | nil => cases hd
  | cons x disk ih =>
    rw [List.map_cons, List.nodup_cons] at hdisk
    rw [lookup_cons] at hd
    rw [List.foldl_cons]
    split at hd
    next hx =>
      obtain rfl := Option.some.inj hd
      subst hx
      rw [lookup_upsertAll_absent hkey (lookup_eq_none.mpr hdisk.1), lookup_upsert_none hm]
      split
      · exact .inl rfl
      · exact .inr rfl
    next hx => exact ih hdisk.2 hd ((lookup_upsert_of_ne hkey hx).trans hm)

theorem lookup_upsertAll_room {S : Finset κ} (hS : S.card ≤ cap) (hdiskS : ∀ x ∈ disk, key x ∈ S)
    (hout : ∀ x ∈ out, key x ∈ S) (hnd : (out.map key).Nodup) (hdisk : (disk.map key).Nodup)
    (hd : lookup key k disk = some d) (hm : lookup key k out = none) :
    lookup key k (disk.foldl (upsert key cap combine) out) = some d := by
  induction disk generalizing out with
  | nil => cases hd
  | cons x disk ih =>
    have hxS := hdiskS x List.mem_cons_self
    rw [List.map_cons, List.nodup_cons] at hdisk
    rw [lookup_cons] at hd
    rw [List.foldl_cons]
    split at hd
    next hx =>
      obtain rfl := Option.some.inj hd
      subst hx
      rw [lookup_upsertAll_absent hkey (lookup_eq_none.mpr hdisk.1), lookup_upsert_none hm,
        if_pos (length_lt_of_keys hS hout hnd hxS (lookup_eq_none.mp hm))]
    next hx =>
      have hkeys : ∀ y ∈ upsert key cap combine out x, key y ∈ S := by
        intro y hy
        obtain hy | rfl | ⟨m, hm, he, rfl⟩ := mem_upsert hy
        · exact hout y hy
        · exact hxS
        · rw [hkey x m he]
          exact hxS
      exact ih (fun y hy => hdiskS y (List.mem_cons_of_mem _ hy)) hkeys (nodup_upsert hkey hnd) hdisk.2 hd
        ((lookup_upsert_of_ne hkey hx).trans hm)

end Upsert

end Keyed

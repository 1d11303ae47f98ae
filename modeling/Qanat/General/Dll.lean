import Mathlib.Data.List.Basic
import Mathlib.Data.List.Nodup
import Mathlib.Data.List.Lattice

namespace Dll

variable {ι : Type*} {prev next prev' next' : ι → Option ι} {p : Option ι} {l : List ι} {x y : ι}

/-- The nodes of a list are linked both ways; `p` stands before the first one and nothing after the last one. -/
def Linked (prev next : ι → Option ι) : Option ι → List ι → Prop
  | _, [] => True
  | p, x :: l => prev x = p ∧ next x = l.head? ∧ Linked prev next (some x) l

/-- The nodes that the forward links lead through, at most `k` of them. -/
def walk (next : ι → Option ι) : Nat → Option ι → List ι
  | 0, _ => []
  | _ + 1, none => []
  | k + 1, some x => x :: walk next k (next x)

theorem walk_eq (h : Linked prev next p l) {k : Nat} (hk : l.length ≤ k) : walk next k l.head? = l := by
  induction l generalizing p k with
  | nil =>
    cases k with
    | zero => rfl
    | succ k => rfl
  | cons x l ih =>
    cases k with
    | zero => exact absurd hk (by simp)
    | succ k =>
      obtain ⟨_, hnext, hrest⟩ := h
      rw [List.head?_cons, walk, hnext, ih hrest (by simpa using hk)]

/-- Links are read at the nodes of the list only. -/
theorem Linked.congr (h : Linked prev next p l) (hprev : ∀ y ∈ l, prev' y = prev y)
    (hnext : ∀ y ∈ l, next' y = next y) : Linked prev' next' p l := by
  induction l generalizing p with
  | nil => trivial
  | cons x l ih =>
    obtain ⟨hx, hn, hrest⟩ := h
    refine ⟨?_, ?_, ih hrest (fun y hy => hprev y (List.mem_cons_of_mem _ hy))
      (fun y hy => hnext y (List.mem_cons_of_mem _ hy))⟩
    · rw [hprev x List.mem_cons_self, hx]
    · rw [hnext x List.mem_cons_self, hn]

theorem Linked.next_mem (h : Linked prev next p l) (hx : x ∈ l) (hy : next x = some y) : y ∈ l := by
  induction l generalizing p with
  | nil => cases hx
  | cons z l ih =>
    obtain ⟨_, hn, hrest⟩ := h
    obtain rfl | hx := List.mem_cons.mp hx
    · rw [hn] at hy
      exact List.mem_cons_of_mem _ (List.mem_of_head? hy)
    · exact List.mem_cons_of_mem _ (ih hrest hx)

theorem Linked.prev_mem (h : Linked prev next p l) (hx : x ∈ l) (hy : prev x = some y) : p = some y ∨ y ∈ l := by
  induction l generalizing p with
  | nil => cases hx
  | cons z l ih =>
    obtain ⟨hz, _, hrest⟩ := h
    obtain rfl | hx := List.mem_cons.mp hx
    · exact .inl (hz.symm.trans hy)
    · refine .inr ?_
      obtain heq | hmem := ih hrest hx
      · rw [Option.some.inj heq]
        exact List.mem_cons_self
      · exact List.mem_cons_of_mem _ hmem

theorem Linked.next_ne (h : Linked prev next p l) (hd : l.Nodup) (hx : x ∈ l) : next x ≠ some x := by
  induction l generalizing p with
  | nil => cases hx
  | cons c l ih =>
    obtain ⟨_, hn, hrest⟩ := h
    obtain ⟨hcl, hdl⟩ := List.nodup_cons.mp hd
    obtain rfl | hx := List.mem_cons.mp hx
    · rw [hn]
      exact fun e => hcl (List.mem_of_head? e)
    · exact ih hrest hdl hx

theorem Linked.prev_ne (h : Linked prev next p l) (hd : l.Nodup) (hp : ∀ z ∈ l, p ≠ some z) (hx : x ∈ l) :
    prev x ≠ some x := by
  induction l generalizing p with
  | nil => cases hx
  | cons c l ih =>
    obtain ⟨hc, _, hrest⟩ := h
    obtain ⟨hcl, hdl⟩ := List.nodup_cons.mp hd
    obtain rfl | hx := List.mem_cons.mp hx
    · rw [hc]
      exact hp _ List.mem_cons_self
    · exact ih hrest hdl (fun z hz e => hcl ((Option.some.inj e) ▸ hz)) hx

/-- What stands before a node other than the first one is in the list. -/
theorem Linked.prev_tail (h : Linked prev next p (x :: l)) (hy : y ∈ l) : ∃ z, prev y = some z ∧ z ∈ x :: l := by
  induction l generalizing p x with
  | nil => cases hy
  | cons z l ih =>
    obtain ⟨_, _, hrest⟩ := h
    obtain rfl | hy := List.mem_cons.mp hy
    · exact ⟨x, hrest.1, List.mem_cons_self⟩
    · obtain ⟨t, ht, hmem⟩ := ih hrest hy
      exact ⟨t, ht, List.mem_cons_of_mem _ hmem⟩

variable [DecidableEq ι]

/-- The first node once `x` is unlinked. -/
theorem head?_erase (h : Linked prev next none l) (hx : x ∈ l) :
    (l.erase x).head? = if prev x = none then next x else l.head? := by
  cases l with
  | nil => cases hx
  | cons y l =>
    by_cases hxy : x = y
    · subst hxy
      rw [List.erase_cons_head, if_pos h.1, h.2.1]
    · have hmem : x ∈ l := (List.mem_cons.mp hx).resolve_left hxy
      obtain ⟨z, hz, _⟩ := h.prev_tail hmem
      rw [List.erase_cons_tail (by simpa using fun e => hxy e.symm), hz, if_neg (by simp)]
      rfl

/-- Unlinking `x` redirects the links of its two neighbours. -/
theorem Linked.unlink (h : Linked prev next p l) (hd : l.Nodup) (hp : ∀ z ∈ l, p ≠ some z) (hx : x ∈ l)
    (hprev : ∀ y ∈ l.erase x, prev' y = if next x = some y then prev x else prev y)
    (hnext : ∀ y ∈ l.erase x, next' y = if prev x = some y then next x else next y) :
    Linked prev' next' p (l.erase x) := by
  induction l generalizing p with
  | nil => cases hx
  | cons c l ih =>
    obtain ⟨hc, hn, hrest⟩ := h
    obtain ⟨hcl, hdl⟩ := List.nodup_cons.mp hd
    by_cases hxc : x = c
    · subst hxc
      rw [List.erase_cons_head] at hprev hnext ⊢
      cases l with
      | nil => trivial
      | cons y l =>
        obtain ⟨hyl, _⟩ := List.nodup_cons.mp hdl
        have hnext' : ∀ z ∈ y :: l, next' z = next z := fun z hz => by
          rw [hnext z hz, if_neg]
          rw [hc]
          exact hp z (List.mem_cons_of_mem _ hz)
        refine ⟨?_, ?_, ?_⟩
        · rw [hprev y List.mem_cons_self, if_pos (by rw [hn]; rfl), hc]
        · rw [hnext' y List.mem_cons_self, hrest.2.1]
        · refine hrest.2.2.congr (fun z hz => ?_) fun z hz => hnext' z (List.mem_cons_of_mem _ hz)
          rw [hprev z (List.mem_cons_of_mem _ hz), if_neg]
          intro hzy
          rw [hn, List.head?_cons, Option.some.injEq] at hzy
          exact hyl (hzy ▸ hz)
    · have hmem : x ∈ l := (List.mem_cons.mp hx).resolve_left hxc
      rw [List.erase_cons_tail (by simpa using fun e => hxc e.symm)] at hprev hnext ⊢
      refine ⟨?_, ?_, ?_⟩
      · rw [hprev c List.mem_cons_self, if_neg, hc]
        exact fun e => hcl (hrest.next_mem hmem e)
      · rw [hnext c List.mem_cons_self]
        cases l with
        | nil => cases hmem
        | cons y l =>
          by_cases hxy : x = y
          · subst hxy
            rw [if_pos hrest.1, List.erase_cons_head, hrest.2.1]
          · have htail : x ∈ l := (List.mem_cons.mp hmem).resolve_left hxy
            obtain ⟨z, hz, hzl⟩ := hrest.prev_tail htail
            rw [if_neg, hn, List.erase_cons_tail (by simpa using fun e => hxy e.symm)]
            · rfl
            · intro e
              rw [hz, Option.some.injEq] at e
              exact hcl (e ▸ hzl)
      · refine ih hrest hdl (fun z hz e => ?_) hmem (fun y hy => hprev y (List.mem_cons_of_mem _ hy))
          fun y hy => hnext y (List.mem_cons_of_mem _ hy)
        exact hcl ((Option.some.inj e) ▸ hz)

/-- Putting `x` in front of a list redirects the backward link of its first node. -/
theorem Linked.push (h : Linked prev next none l) (hd : l.Nodup) (hx : prev' x = none) (hhead : next' x = l.head?)
    (hprev : ∀ y ∈ l, prev' y = if l.head? = some y then some x else prev y)
    (hnext : ∀ y ∈ l, next' y = next y) : Linked prev' next' none (x :: l) := by
  refine ⟨hx, hhead, ?_⟩
  cases l with
  | nil => trivial
  | cons y l =>
    obtain ⟨hyl, _⟩ := List.nodup_cons.mp hd
    refine ⟨?_, ?_, ?_⟩
    · rw [hprev y List.mem_cons_self, if_pos List.head?_cons]
    · rw [hnext y List.mem_cons_self, h.2.1]
    · refine h.2.2.congr (fun z hz => ?_) fun z hz => hnext z (List.mem_cons_of_mem _ hz)
      rw [hprev z (List.mem_cons_of_mem _ hz), if_neg]
      intro e
      exact hyl ((Option.some.inj e) ▸ hz)

end Dll

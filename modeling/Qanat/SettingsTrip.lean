import Qanat.SettingsRows
import Mathlib.Data.List.Nodup

namespace Qanat

section Text

variable {key body : Bytes} {v : Nat} {st : SettingsScan}

/-- A line end that the loader strips. -/
def LineEnd (eol : Bytes) : Prop :=
  eol = [chLf] ∨ eol = [chCr, chLf]

/-- A line body that is read as it is written. -/
def Legible (body : Bytes) : Prop :=
  body.length ≤ 64 ∧ ∀ c ∈ body, c ≠ chLf ∧ c ≠ chCr ∧ c ≠ 0

theorem render_ne {n : Nat} {c d : UInt8} (h : c ∈ Decimal.render n) (hd : Decimal.isDigit d = false) : c ≠ d :=
  Decimal.not_isDigit_of (Decimal.isDigit_render h) hd

theorem pairLine_legible (hk : Writable key) (hv : v < 2 ^ 64) : Legible (pairLine key v) := by
  obtain ⟨_, hlen, hkey⟩ := hk
  have hdigits := Decimal.length_render_le (show 0 < 20 by decide) (hv.trans (by decide))
  refine ⟨?_, fun c hc => ?_⟩
  · unfold pairLine
    rw [List.length_append, List.length_cons]
    omega
  · obtain hc | hc := List.mem_append.mp hc
    · exact (hkey c hc).2
    · obtain rfl | hc := List.mem_cons.mp hc
      · decide
      · exact ⟨render_ne hc (by decide), render_ne hc (by decide), render_ne hc (by decide)⟩

theorem pairLine_ne_nil : pairLine key v ≠ [] := by
  unfold pairLine
  simp

theorem pairLine_key (hkey : ∀ c ∈ key, c ≠ chEquals ∧ c ≠ chLf ∧ c ≠ chCr ∧ c ≠ 0) (v : Nat) :
    (pairLine key v).takeWhile (· ≠ chEquals) = key := by
  unfold pairLine
  rw [List.takeWhile_append_of_pos fun c hc => decide_eq_true (hkey c hc).1, List.takeWhile_cons_of_neg (by simp),
    List.append_nil]

/-- A pair is read back from its line. -/
theorem settingBody_pair (hk : Writable key) (hv : v < 2 ^ 64) :
    settingBody st (pairLine key v) = settingPair st key v := by
  obtain ⟨hne, _, hkey⟩ := hk
  have hpos : ∀ c ∈ key, decide (c ≠ chEquals) = true := fun c hc => decide_eq_true (hkey c hc).1
  have hnot : chEquals ∉ Decimal.render v := fun hc => render_ne hc (by decide) rfl
  have htake := pairLine_key hkey v
  have hdrop : (pairLine key v).dropWhile (· ≠ chEquals) = chEquals :: Decimal.render v := by
    unfold pairLine
    rw [List.dropWhile_append_of_pos hpos, List.dropWhile_cons_of_neg (by simp)]
  unfold settingBody
  rw [htake, hdrop]
  dsimp only
  rw [if_neg (fun hc => hc.elim hne hnot), Decimal.read_render hv]
  rfl

theorem strip_eol {eol : Bytes} (hb : Legible body) (he : LineEnd eol) : (body ++ eol).rdropWhile isEol = body := by
  have hbody : ∀ c ∈ body.reverse, isEol c = false := fun c hc => by
    obtain ⟨hlf, hcr, _⟩ := hb.2 c (List.mem_reverse.mp hc)
    simp [isEol, hlf, hcr]
  have heol : ∀ c ∈ eol.reverse, isEol c = true := by
    refine List.all_eq_true.mp ?_
    obtain rfl | rfl := he
    · decide
    · decide
  unfold List.rdropWhile
  rw [List.reverse_append, List.dropWhile_append_of_pos heol]
  cases hr : body.reverse with
  | nil => simpa using hr.symm
  | cons c t =>
    rw [List.dropWhile_cons_of_neg (by simp [hbody c (hr ▸ List.mem_cons_self)]), ← hr, List.reverse_reverse]

theorem settingLine_legible {eol : Bytes} (hb : Legible body) (he : LineEnd eol) :
    settingLine st (body ++ eol) = if body = [] then some st else settingBody st body := by
  have hlen : eol.length ≤ 2 := by
    obtain rfl | rfl := he
    · decide
    · decide
  have hzero : (0 : UInt8) ∉ body ++ eol := by
    intro hz
    obtain hz | hz := List.mem_append.mp hz
    · exact (hb.2 0 hz).2.2 rfl
    · obtain rfl | rfl := he
      · exact absurd hz (by decide)
      · exact absurd hz (by decide)
  have hshort := hb.1
  unfold settingLine
  rw [if_neg, strip_eol hb he]
  rw [List.length_append]
  exact fun hc => hc.elim (fun hc => by omega) hzero

end Text

section Saved

variable {r : PlanRequest}

def savedLine (r : PlanRequest) (s : Setting) : Bytes :=
  pairLine s.name (s.get r)

def versionLine : Bytes :=
  pairLine versionKey settingsVersion

theorem mem_settingsLines {b : Bytes} : b ∈ settingsLines r ↔ b = versionLine ∨ ∃ s, b = savedLine r s := by
  unfold settingsLines
  rw [List.mem_cons, List.mem_map]
  refine or_congr_right ⟨fun ⟨s, _, hs⟩ => ⟨s, hs.symm⟩, fun ⟨s, hs⟩ => ⟨s, mem_settingDesc s, hs.symm⟩⟩

theorem savedLine_inj {s t : Setting} (h : savedLine r s = savedLine r t) : s = t := by
  refine Setting.name_injective ?_
  rw [← pairLine_key s.writable.2.2 (s.get r), ← pairLine_key t.writable.2.2 (t.get r)]
  exact congrArg (List.takeWhile (· ≠ chEquals)) h

theorem savedLine_ne_version (s : Setting) : savedLine r s ≠ versionLine := by
  intro h
  refine s.name_ne_version ?_
  rw [← pairLine_key s.writable.2.2 (s.get r), ← pairLine_key versionKey_writable.2.2 settingsVersion]
  exact congrArg (List.takeWhile (· ≠ chEquals)) h

theorem settingsLines_nodup (r : PlanRequest) : (settingsLines r).Nodup := by
  refine List.nodup_cons.mpr ⟨fun hmem => ?_, List.Nodup.map (fun s t h => savedLine_inj h) nodup_settingDesc⟩
  obtain ⟨s, _, hs⟩ := List.mem_map.mp hmem
  exact savedLine_ne_version s hs

theorem settingBody_version {st : SettingsScan} (h : st.version = none) :
    settingBody st versionLine = some { st with version := some settingsVersion } := by
  unfold versionLine
  rw [settingBody_pair versionKey_writable (by decide)]
  unfold settingPair
  rw [if_pos rfl, if_neg]
  rw [h]
  simp

theorem settingBody_saved (hr : InRange r) {st : SettingsScan} {s : Setting} (h : s ∉ st.seen) :
    settingBody st (savedLine r s) = some { st with loaded := s.put st.loaded (s.get r), seen := s :: st.seen } := by
  unfold savedLine
  rw [settingBody_pair s.writable ((hr s).trans_lt s.maximum_lt)]
  unfold settingPair
  rw [if_neg s.name_ne_version, settingFind_name]
  dsimp only
  rw [if_neg]
  exact fun hc => hc.elim h (Nat.not_lt.mpr (hr s))

/-- The loader takes the saved lines, in any order, into the rows they name. -/
theorem fold_saved (hr : InRange r) {bs : List Bytes} (st : SettingsScan) (hnodup : bs.Nodup)
    (hmem : ∀ b ∈ bs, b ∈ settingsLines r) (hseen : ∀ s, savedLine r s ∈ bs → s ∉ st.seen)
    (hversion : versionLine ∈ bs → st.version = none) : ∃ st', bs.foldlM settingBody st = some st' ∧
      (∀ s, s ∈ st'.seen ↔ s ∈ st.seen ∨ savedLine r s ∈ bs) ∧
      (versionLine ∈ bs → st'.version = some settingsVersion) ∧ (versionLine ∉ bs → st'.version = st.version) ∧
      (∀ s, savedLine r s ∈ bs → s.get st'.loaded = s.get r) ∧
      (∀ s, savedLine r s ∉ bs → s.get st'.loaded = s.get st.loaded) := by
  induction bs generalizing st with
  | nil => exact ⟨st, rfl, by simp, by simp, by simp, by simp, by simp⟩
  | cons b bs ih =>
    obtain ⟨hb, hrest⟩ := List.nodup_cons.mp hnodup
    have hmem' : ∀ b ∈ bs, b ∈ settingsLines r := fun c hc => hmem c (List.mem_cons_of_mem _ hc)
    obtain rfl | ⟨s, rfl⟩ := mem_settingsLines.mp (hmem b List.mem_cons_self)
    · have hnone := hversion List.mem_cons_self
      obtain ⟨st', hfold, hs, _, hv, hg, hk⟩ := ih { st with version := some settingsVersion } hrest hmem'
        (fun s hsb => hseen s (List.mem_cons_of_mem _ hsb)) (fun hc => absurd hc hb)
      have hline : ∀ s, savedLine r s ∈ versionLine :: bs ↔ savedLine r s ∈ bs := fun s => by
        rw [List.mem_cons]
        exact or_iff_right (savedLine_ne_version s)
      refine ⟨st', ?_, fun s => ?_, fun _ => hv hb, fun hc => absurd List.mem_cons_self hc, fun s h => ?_, fun s h => ?_⟩
      · rw [List.foldlM_cons, settingBody_version hnone]
        exact hfold
      · rw [hline]
        exact hs s
      · exact hg s ((hline s).mp h)
      · exact hk s fun hc => h ((hline s).mpr hc)
    · have hnot := hseen s List.mem_cons_self
      have hline : ∀ t, savedLine r t ∈ savedLine r s :: bs ↔ t = s ∨ savedLine r t ∈ bs := fun t => by
        rw [List.mem_cons]
        exact or_congr_left ⟨savedLine_inj, fun h => h ▸ rfl⟩
      have hver : versionLine ∈ savedLine r s :: bs ↔ versionLine ∈ bs := by
        rw [List.mem_cons]
        exact or_iff_right (savedLine_ne_version s).symm
      obtain ⟨st', hfold, hs, hv, hv', hg, hk⟩ := ih
        { st with loaded := s.put st.loaded (s.get r), seen := s :: st.seen } hrest hmem'
        (fun t htb hc => by
          obtain rfl | hc := List.mem_cons.mp hc
          · exact hb htb
          · exact hseen t (List.mem_cons_of_mem _ htb) hc) (fun hc => hversion (hver.mpr hc))
      refine ⟨st', ?_, fun t => ?_, fun h => hv (hver.mp h), fun h => hv' fun hc => h (hver.mpr hc), fun t h => ?_,
        fun t h => ?_⟩
      · rw [List.foldlM_cons, settingBody_saved hr hnot]
        exact hfold
      · rw [hs, hline, List.mem_cons]
        tauto
      · by_cases ht : savedLine r t ∈ bs
        · exact hg t ht
        · obtain rfl := ((hline t).mp h).resolve_right ht
          rw [hk t ht, Setting.get_put _ (hr t)]
      · have ht : t ≠ s := fun e => h ((hline t).mpr (.inl e))
        rw [hk t fun hc => h ((hline t).mpr (.inr hc)), Setting.get_put_ne _ _ ht]

theorem legible_saved (hr : InRange r) {b : Bytes} (h : b ∈ settingsLines r) : Legible b ∧ b ≠ [] := by
  obtain rfl | ⟨s, rfl⟩ := mem_settingsLines.mp h
  · exact ⟨pairLine_legible versionKey_writable (by decide), pairLine_ne_nil⟩
  · exact ⟨pairLine_legible s.writable ((hr s).trans_lt s.maximum_lt), pairLine_ne_nil⟩

/-- Empty lines and either line end make no difference to what the loader takes in. -/
theorem fold_lines {ls : List (Bytes × Bytes)} (hb : ∀ l ∈ ls, Legible l.1) (he : ∀ l ∈ ls, LineEnd l.2)
    (st : SettingsScan) : (ls.map fun l => l.1 ++ l.2).foldlM settingLine st =
      ((ls.map Prod.fst).filter (· ≠ [])).foldlM settingBody st := by
  induction ls generalizing st with
  | nil => rfl
  | cons l ls ih =>
    have ih' := ih (fun x hx => hb x (List.mem_cons_of_mem _ hx)) fun x hx => he x (List.mem_cons_of_mem _ hx)
    rw [List.map_cons, List.foldlM_cons, settingLine_legible (hb l List.mem_cons_self) (he l List.mem_cons_self),
      List.map_cons]
    by_cases hnil : l.1 = []
    · rw [if_pos hnil, List.filter_cons_of_neg (by simp [hnil])]
      exact ih' st
    · rw [if_neg hnil, List.filter_cons_of_pos (by simp [hnil]), List.foldlM_cons]
      exact bind_congr fun st' => ih' st'

theorem split_lines {ls : List (Bytes × Bytes)} (hb : ∀ l ∈ ls, Legible l.1) (he : ∀ l ∈ ls, LineEnd l.2) :
    Lines.split chLf (ls.map fun l => l.1 ++ l.2).flatten = ls.map fun l => l.1 ++ l.2 := by
  refine Lines.split_flatten fun l hl => ?_
  obtain ⟨p, hp, rfl⟩ := List.mem_map.mp hl
  have hbody : chLf ∉ p.1 := fun hc => ((hb p hp).2 chLf hc).1 rfl
  obtain heol | heol := he p hp
  · exact ⟨p.1, by rw [heol], hbody⟩
  · refine ⟨p.1 ++ [chCr], by rw [heol, List.append_assoc]; rfl, fun hc => ?_⟩
    obtain hc | hc := List.mem_append.mp hc
    · exact hbody hc
    · exact absurd hc (by decide)

/-- The lines of a saved request, in any order, with empty lines between them and either line end, load it back. -/
theorem settingsLoad_saved (hr : InRange r) (hvalid : requestValidate r = .ok ()) {ls : List (Bytes × Bytes)}
    (he : ∀ l ∈ ls, LineEnd l.2) (hperm : ((ls.map Prod.fst).filter (· ≠ [])).Perm (settingsLines r))
    (dest : PlanRequest) : settingsLoad (ls.map fun l => l.1 ++ l.2).flatten dest = (.ok (), r) := by
  have hb : ∀ l ∈ ls, Legible l.1 := by
    intro l hl
    by_cases hnil : l.1 = []
    · rw [hnil]
      exact ⟨by decide, by simp⟩
    · have hmem : l.1 ∈ (ls.map Prod.fst).filter (· ≠ []) :=
        List.mem_filter.mpr ⟨List.mem_map_of_mem hl, by simp [hnil]⟩
      exact (legible_saved hr (hperm.mem_iff.mp hmem)).1
  obtain ⟨st', hfold, hseen, hversion, _, hget, _⟩ := fold_saved hr ⟨.defaults, [], none⟩
    (hperm.nodup_iff.mpr (settingsLines_nodup r)) (fun b h => hperm.mem_iff.mp h) (fun _ _ => by simp) (fun _ => rfl)
  have hall : ∀ s, savedLine r s ∈ (ls.map Prod.fst).filter (· ≠ []) := fun s =>
    hperm.mem_iff.mpr (mem_settingsLines.mpr (.inr ⟨s, rfl⟩))
  have hloaded : st'.loaded = r := request_ext fun s => hget s (hall s)
  have hsaw : sawExactly st'.seen (fun _ => true) = true := by
    refine List.all_eq_true.mpr fun s _ => ?_
    rw [beq_iff_eq, List.contains_iff_mem, hseen]
    exact .inr (hall s)
  unfold settingsLoad
  rw [split_lines hb he, fold_lines hb he, hfold]
  have hfinish : settingsFinish st' = some r := by
    unfold settingsFinish
    rw [hversion (hperm.mem_iff.mpr (mem_settingsLines.mpr (.inl rfl)))]
    simp only [if_true, hsaw, hloaded]
  rw [Option.bind_some, hfinish]
  dsimp only
  rw [hvalid]

/-- What a save writes is such a text. -/
theorem settingsLoad_save (hr : InRange r) (hvalid : requestValidate r = .ok ()) (dest : PlanRequest) :
    settingsLoad ((settingsLines r).flatMap (· ++ [chLf])) dest = (.ok (), r) := by
  have hfilter : (settingsLines r).filter (· ≠ []) = settingsLines r :=
    List.filter_eq_self.mpr fun b hb => by simpa using (legible_saved hr hb).2
  have h := @settingsLoad_saved r hr hvalid ((settingsLines r).map fun b => (b, [chLf])) (fun l hl => by
    obtain ⟨b, _, rfl⟩ := List.mem_map.mp hl
    exact .inl rfl) (by
      rw [List.map_map]
      change ((settingsLines r).map id).filter _ |>.Perm _
      rw [List.map_id, hfilter]) dest
  rw [List.map_map] at h
  exact h

end Saved

end Qanat

import Qanat.SettingsTrip

namespace Qanat

/-- The key of a line that is not empty, and its value if it reads as a number. -/
def lineField (line : Bytes) : Option (Bytes × Option Nat) :=
  if line.rdropWhile isEol = [] then none
  else some ((line.rdropWhile isEol).takeWhile (· ≠ chEquals),
    Decimal.read ((line.rdropWhile isEol).dropWhile (· ≠ chEquals)).tail)

def settingsFields (content : Bytes) : List (Bytes × Option Nat) :=
  (Lines.split chLf content).filterMap lineField

/-- What the loader has of the lines that it took. -/
structure SettingsTaken (fields : List (Bytes × Option Nat)) (st : SettingsScan) : Prop where
  keys : (fields.map Prod.fst).Perm ((if st.version.isSome then [versionKey] else []) ++ st.seen.map Setting.name)
  nodup : st.seen.Nodup
  range : InRange st.loaded
  version : ∀ v, st.version = some v → (v = 1 ∨ v = settingsVersion) ∧ (versionKey, some v) ∈ fields

section Line

variable {st st' : SettingsScan} {fields : List (Bytes × Option Nat)}

theorem settingLine_cases {line : Bytes} (h : settingLine st line = some st') :
    (lineField line = none ∧ st' = st) ∨
    ∃ key v, lineField line = some (key, some v) ∧ settingPair st key v = some st' := by
  unfold settingLine at h
  unfold lineField
  split at h
  next => cases h
  next =>
    split at h
    next hnil => exact .inl ⟨if_pos hnil, (Option.some.inj h).symm⟩
    next hnil =>
      refine .inr ?_
      rw [if_neg hnil]
      unfold settingBody at h
      split at h
      next => cases h
      next c text htext =>
        split at h
        next => cases h
        next =>
          obtain ⟨v, hv, hpair⟩ := Option.bind_eq_some_iff.mp h
          exact ⟨_, v, by rw [htext, List.tail_cons, hv], hpair⟩

theorem settingPair_cases {key : Bytes} {v : Nat} (h : settingPair st key v = some st') :
    (key = versionKey ∧ st.version = none ∧ (v = 1 ∨ v = settingsVersion) ∧ st' = { st with version := some v }) ∨
    ∃ s : Setting, key = s.name ∧ s ∉ st.seen ∧ v ≤ s.maximum ∧
      st' = { st with loaded := s.put st.loaded v, seen := s :: st.seen } := by
  unfold settingPair at h
  split at h
  next hkey =>
    split at h
    next => cases h
    next hc =>
      push Not at hc
      refine .inl ⟨hkey, by simpa using hc.1, ?_, (Option.some.inj h).symm⟩
      by_cases h1 : v = 1
      · exact .inl h1
      · exact .inr (hc.2 h1)
  next =>
    split at h
    next => cases h
    next s hs =>
      split at h
      next => cases h
      next hc =>
        push Not at hc
        exact .inr ⟨s, settingFind_some hs, hc.1, hc.2, (Option.some.inj h).symm⟩

theorem SettingsTaken.line (h : SettingsTaken fields st) {line : Bytes} (hl : settingLine st line = some st') :
    SettingsTaken (fields ++ (lineField line).toList) st' := by
  obtain ⟨hnone, rfl⟩ | ⟨key, v, hfield, hpair⟩ := settingLine_cases hl
  · rw [hnone]
    simpa using h
  · rw [hfield, Option.toList_some]
    obtain ⟨rfl, hver, hv, rfl⟩ | ⟨s, rfl, hs, hv, rfl⟩ := settingPair_cases hpair
    · have hkeys := h.keys
      rw [hver] at hkeys
      refine ⟨?_, h.nodup, h.range, fun u hu => ?_⟩
      · rw [List.map_append]
        exact List.perm_append_comm.trans (hkeys.cons versionKey)
      · obtain rfl := Option.some.inj hu
        exact ⟨hv, by simp⟩
    · refine ⟨?_, List.nodup_cons.mpr ⟨hs, h.nodup⟩, h.range.put hv, fun u hu => ?_⟩
      · rw [List.map_append]
        exact List.perm_append_comm.trans ((h.keys.cons s.name).trans List.perm_middle.symm)
      · obtain ⟨hu', hmem⟩ := h.version u hu
        exact ⟨hu', List.mem_append_left _ hmem⟩

theorem SettingsTaken.lines (h : SettingsTaken fields st) {lines : List Bytes}
    (hl : lines.foldlM settingLine st = some st') : SettingsTaken (fields ++ lines.filterMap lineField) st' := by
  induction lines generalizing fields st with
  | nil =>
    obtain rfl := Option.some.inj hl
    simpa using h
  | cons line lines ih =>
    rw [List.foldlM_cons] at hl
    obtain ⟨st₁, h₁, hrest⟩ := Option.bind_eq_some_iff.mp hl
    have := ih (h.line h₁) hrest
    rw [List.append_assoc] at this
    rw [List.filterMap_cons]
    cases hf : lineField line with
    | none =>
      rw [hf] at this
      simpa using this
    | some f =>
      rw [hf] at this
      simpa using this

theorem settingsTaken_start : SettingsTaken [] ⟨.defaults, [], none⟩ :=
  ⟨by simp, List.nodup_nil, inRange_defaults, fun _ h => by cases h⟩

end Line

/-- No key of a text is repeated, unknown or missing; with version 1 the tunnel keys are left out and the stage is off. -/
def SettingsComplete (content : Bytes) (r : PlanRequest) : Prop :=
  ∃ v, (versionKey, some v) ∈ settingsFields content ∧
    (v = settingsVersion ∧
        ((settingsFields content).map Prod.fst).Perm (versionKey :: settingDesc.map Setting.name) ∨
      v = 1 ∧ ((settingsFields content).map Prod.fst).Perm
          (versionKey :: (settingDesc.filter fun s => !s.isTunnel).map Setting.name) ∧
        r.tunnelEnabled = false)

theorem sawExactly_perm {seen : List Setting} {wanted : Setting → Bool} (hnodup : seen.Nodup)
    (h : sawExactly seen wanted = true) : seen.Perm (settingDesc.filter wanted) := by
  refine (List.perm_ext_iff_of_nodup hnodup (nodup_settingDesc.filter _)).mpr fun s => ?_
  have hs := List.all_eq_true.mp h s (mem_settingDesc s)
  rw [beq_iff_eq] at hs
  rw [List.mem_filter, ← hs, List.contains_iff_mem]
  exact ⟨fun h => ⟨mem_settingDesc s, h⟩, fun h => h.2⟩

theorem settingsFinish_some {content : Bytes} {st : SettingsScan} {r : PlanRequest}
    (hst : SettingsTaken (settingsFields content) st) (h : settingsFinish st = some r) :
    InRange r ∧ SettingsComplete content r := by
  unfold settingsFinish at h
  split at h
  next => cases h
  next v hv =>
    obtain ⟨hone, hmem⟩ := hst.version v hv
    have hkeys := hst.keys
    rw [hv, Option.isSome_some, if_pos rfl] at hkeys
    split at h
    next hv2 =>
      split at h
      next hsaw =>
        obtain rfl := Option.some.inj h
        have hperm := sawExactly_perm hst.nodup hsaw
        rw [List.filter_true] at hperm
        exact ⟨hst.range, v, hmem, .inl ⟨hv2, hkeys.trans ((hperm.map _).cons _)⟩⟩
      next => cases h
    next hv2 =>
      split at h
      next hsaw =>
        obtain rfl := Option.some.inj h
        have hperm := sawExactly_perm hst.nodup hsaw
        refine ⟨?_, v, hmem, .inr ⟨hone.resolve_right hv2, hkeys.trans ((hperm.map _).cons _), rfl⟩⟩
        have h₁ : InRange (Setting.tunnelEnabled.put st.loaded 0) := hst.range.put (Nat.zero_le _)
        have h₂ : InRange (Setting.tunnelAll.put (Setting.tunnelEnabled.put st.loaded 0) 0) := h₁.put (Nat.zero_le _)
        exact h₂.put (s := Setting.tunnelTarget) (Nat.zero_le _)
      next => cases h

theorem settingsLoad_ok {content : Bytes} {dest r : PlanRequest} (h : settingsLoad content dest = (.ok (), r)) :
    requestValidate r = .ok () ∧ InRange r ∧ SettingsComplete content r := by
  unfold settingsLoad at h
  split at h
  next => cases h
  next loaded hloaded =>
    obtain ⟨st, hfold, hfinish⟩ := Option.bind_eq_some_iff.mp hloaded
    split at h
    next => cases h
    next hvalid =>
      obtain rfl := (Prod.mk.inj h).2
      have htaken := settingsTaken_start.lines hfold
      obtain ⟨hrange, hcomplete⟩ := settingsFinish_some htaken hfinish
      exact ⟨hvalid, hrange, hcomplete⟩

theorem settingsLoad_error {content : Bytes} {dest r : PlanRequest} {e : String}
    (h : settingsLoad content dest = (.error e, r)) : r = dest := by
  unfold settingsLoad at h
  split at h
  next => exact (Prod.mk.inj h).2.symm
  next =>
    split at h
    next => exact (Prod.mk.inj h).2.symm
    next => cases h

theorem settingsSave_ok {r : PlanRequest} (h : requestValidate r = .ok ()) :
    settingsSave r = .ok ((settingsLines r).flatMap (· ++ [chLf])) := by
  unfold settingsSave
  rw [h]

/-- Saved settings load back however their lines are arranged, loaded settings are complete, valid and save back,
and a load that fails leaves the request alone. -/
theorem settings_round_trip :
    (∀ r, requestValidate r = .ok () → InRange r →
      settingsSave r = .ok ((settingsLines r).flatMap (· ++ [chLf])) ∧
      ∀ (ls : List (Bytes × Bytes)) (dest : PlanRequest), (∀ l ∈ ls, LineEnd l.2) →
        ((ls.map Prod.fst).filter (· ≠ [])).Perm (settingsLines r) →
        ∃ r', settingsLoad (ls.map fun l => l.1 ++ l.2).flatten dest = (.ok (), r') ∧ requestEqual r' r = true) ∧
    (∀ content dest r, settingsLoad content dest = (.ok (), r) →
      requestValidate r = .ok () ∧ SettingsComplete content r ∧
      ∃ text, settingsSave r = .ok text ∧ ∀ dest', settingsLoad text dest' = (.ok (), r)) ∧
    (∀ content dest e r, settingsLoad content dest = (.error e, r) → r = dest) := by
  refine ⟨fun r hvalid hr => ⟨settingsSave_ok hvalid, fun ls dest he hperm => ?_⟩, fun content dest r h => ?_,
    fun content dest e r h => settingsLoad_error h⟩
  · exact ⟨r, settingsLoad_saved hr hvalid he hperm dest, requestEqual_refl r⟩
  · obtain ⟨hvalid, hrange, hcomplete⟩ := settingsLoad_ok h
    exact ⟨hvalid, hcomplete, _, settingsSave_ok hvalid, fun dest' => settingsLoad_save hrange hvalid dest'⟩

/-- A full scan with limits of its own and the tunnel stage on. -/
def fullRequest : PlanRequest :=
  { PlanRequest.defaults with
    mode := .full, rankBy := .latency, coveragePpm := 1000000, explorePercent := 35, outputLimit := 50
    candidateCapacity := 5000, candidateAuto := false, memoryBudgetBytes := 2 ^ 26, memoryAuto := false
    scanConcurrency := 256, scanConcurrencyAuto := false, tunnelEnabled := true, tunnelTarget := 12
    tunnelConcurrency := 3 }

theorem inRange_fullRequest : InRange fullRequest := by
  intro s
  cases s <;> decide

/-- The lines of `fullRequest` from the last to the first, with the ends another system writes. -/
theorem settings_round_trip_sample : ∃ r',
    settingsLoad (((settingsLines fullRequest).reverse.map fun b => (b, [chCr, chLf])).map fun l => l.1 ++ l.2).flatten
      .defaults = (.ok (), r') ∧
    requestEqual r' fullRequest = true ∧ requestEqual fullRequest .defaults = false := by
  have hvalid : requestValidate fullRequest = .ok () := by decide
  obtain ⟨_, hload⟩ := settings_round_trip.1 fullRequest hvalid inRange_fullRequest
  have hends : ∀ l ∈ (settingsLines fullRequest).reverse.map fun b => (b, [chCr, chLf]), LineEnd l.2 := by
    intro l hl
    obtain ⟨b, _, rfl⟩ := List.mem_map.mp hl
    exact .inr rfl
  have hlines : (((settingsLines fullRequest).reverse.map fun b => (b, [chCr, chLf])).map Prod.fst).filter (· ≠ []) =
      (settingsLines fullRequest).reverse := by
    rw [List.map_map, show Prod.fst ∘ (fun b : Bytes => (b, [chCr, chLf])) = id from rfl, List.map_id]
    exact List.filter_eq_self.mpr fun b hb =>
      decide_eq_true (legible_saved inRange_fullRequest (List.mem_reverse.mp hb)).2
  obtain ⟨r', hr', heq⟩ := hload _ .defaults hends (hlines ▸ List.reverse_perm _)
  exact ⟨r', hr', heq, by decide⟩

end Qanat

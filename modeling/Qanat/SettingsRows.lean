import Qanat.Settings
import Mathlib.Tactic.IntervalCases

namespace Qanat

theorem mem_settingDesc (s : Setting) : s ∈ settingDesc := by
  cases s <;> decide

theorem nodup_settingDesc : settingDesc.Nodup := by decide

/-- A key that a line can hold: not empty, short, and without the bytes that a line is read by. -/
def Writable (key : Bytes) : Prop :=
  key ≠ [] ∧ key.length ≤ 27 ∧ ∀ c ∈ key, c ≠ chEquals ∧ c ≠ chLf ∧ c ≠ chCr ∧ c ≠ 0

theorem writable_of_all {key : Bytes} (hne : key ≠ []) (hlen : key.length ≤ 27)
    (h : key.all (fun c => c ≠ chEquals ∧ c ≠ chLf ∧ c ≠ chCr ∧ c ≠ 0) = true) : Writable key :=
  ⟨hne, hlen, fun c hc => of_decide_eq_true (List.all_eq_true.mp h c hc)⟩

theorem Setting.writable (s : Setting) : Writable s.name := by
  refine writable_of_all ?_ ?_ ?_
  · cases s <;> decide
  · cases s <;> decide
  · cases s <;> decide

theorem versionKey_writable : Writable versionKey :=
  writable_of_all (by decide) (by decide) (by decide)

theorem settingFind_name (s : Setting) : settingFind s.name = some s := by
  cases s <;> rfl

theorem Setting.name_ne_version (s : Setting) : s.name ≠ versionKey := by
  cases s <;> decide

theorem Setting.name_injective : Function.Injective Setting.name := by
  intro s t h
  have hs := settingFind_name s
  rw [h, settingFind_name] at hs
  exact (Option.some.inj hs).symm

theorem settingFind_some {key : Bytes} {s : Setting} (h : settingFind key = some s) : key = s.name := by
  simpa using List.find?_some h

theorem Setting.maximum_lt (s : Setting) : s.maximum < 2 ^ 64 := by
  cases s <;> decide

theorem ScanMode.code_ofCode {v : Nat} (h : v ≤ 4) : (ScanMode.ofCode v).code = v := by
  interval_cases v <;> rfl

theorem SelectionPolicy.code_ofCode {v : Nat} (h : v ≤ 3) : (SelectionPolicy.ofCode v).code = v := by
  interval_cases v <;> rfl

theorem RankPolicy.code_ofCode {v : Nat} (h : v ≤ 3) : (RankPolicy.ofCode v).code = v := by
  interval_cases v <;> rfl

theorem toNat_decide_ne_zero {v : Nat} (h : v ≤ 1) : (decide (v ≠ 0)).toNat = v := by
  interval_cases v <;> rfl

theorem Setting.get_put (r : PlanRequest) {v : Nat} {s : Setting} (h : v ≤ s.maximum) : s.get (s.put r v) = v := by
  cases s
  case mode => exact ScanMode.code_ofCode h
  case selection => exact SelectionPolicy.code_ofCode h
  case rankBy => exact RankPolicy.code_ofCode h
  case coveragePpm => exact Nat.mod_eq_of_lt (h.trans_lt (by decide))
  case explorePercent => exact Nat.mod_eq_of_lt (h.trans_lt (by decide))
  case scanConcurrency => exact Nat.mod_eq_of_lt (h.trans_lt (by decide))
  case verifyConcurrency => exact Nat.mod_eq_of_lt (h.trans_lt (by decide))
  case stabilityConcurrency => exact Nat.mod_eq_of_lt (h.trans_lt (by decide))
  case tunnelConcurrency => exact Nat.mod_eq_of_lt (h.trans_lt (by decide))
  case tunnelAttempts => exact Nat.mod_eq_of_lt (h.trans_lt (by decide))
  case addressBudget => rfl
  case reachableTarget => rfl
  case candidateCapacity => rfl
  case finalistLimit => rfl
  case outputLimit => rfl
  case memoryBudgetBytes => rfl
  case tunnelTarget => rfl
  all_goals exact toNat_decide_ne_zero h

/-- A row leaves the other rows alone. -/
theorem Setting.get_put_ne (r : PlanRequest) (v : Nat) {s t : Setting} (h : t ≠ s) : t.get (s.put r v) = t.get r := by
  cases s <;> cases t <;> first | rfl | exact absurd rfl h

/-- The request with given values in its rows. -/
def requestOf (value : Setting → Nat) : PlanRequest where
  mode := .ofCode (value .mode)
  selection := .ofCode (value .selection)
  rankBy := .ofCode (value .rankBy)
  coveragePpm := value .coveragePpm
  explorePercent := value .explorePercent
  addressBudget := value .addressBudget
  reachableTarget := value .reachableTarget
  candidateCapacity := value .candidateCapacity
  finalistLimit := value .finalistLimit
  outputLimit := value .outputLimit
  memoryBudgetBytes := value .memoryBudgetBytes
  scanConcurrency := value .scanConcurrency
  verifyConcurrency := value .verifyConcurrency
  stabilityConcurrency := value .stabilityConcurrency
  tunnelTarget := value .tunnelTarget
  tunnelConcurrency := value .tunnelConcurrency
  tunnelAttempts := value .tunnelAttempts
  candidateAuto := value .candidateAuto ≠ 0
  finalistsAuto := value .finalistsAuto ≠ 0
  finalistsAll := value .finalistsAll ≠ 0
  outputAll := value .outputAll ≠ 0
  memoryAuto := value .memoryAuto ≠ 0
  scanConcurrencyAuto := value .scanConcurrencyAuto ≠ 0
  verifyConcurrencyAuto := value .verifyConcurrencyAuto ≠ 0
  stabilityConcurrencyAuto := value .stabilityConcurrencyAuto ≠ 0
  tunnelEnabled := value .tunnelEnabled ≠ 0
  tunnelAll := value .tunnelAll ≠ 0

theorem ScanMode.ofCode_code (m : ScanMode) : ScanMode.ofCode m.code = m := by
  cases m <;> rfl

theorem SelectionPolicy.ofCode_code (p : SelectionPolicy) : SelectionPolicy.ofCode p.code = p := by
  cases p <;> rfl

theorem RankPolicy.ofCode_code (p : RankPolicy) : RankPolicy.ofCode p.code = p := by
  cases p <;> rfl

theorem decide_toNat_ne_zero (b : Bool) : decide (b.toNat ≠ 0) = b := by
  cases b <;> rfl

theorem requestOf_get (r : PlanRequest) : requestOf (fun s => s.get r) = r := by
  unfold requestOf Setting.get
  simp only [ScanMode.ofCode_code, SelectionPolicy.ofCode_code, RankPolicy.ofCode_code, decide_toNat_ne_zero]

/-- The rows of a request are all of it. -/
theorem request_ext {a b : PlanRequest} (h : ∀ s : Setting, s.get a = s.get b) : a = b := by
  rw [← requestOf_get a, ← requestOf_get b, funext h]

theorem requestEqual_refl (r : PlanRequest) : requestEqual r r = true := by
  simp [requestEqual]

/-- Every row is within its maximum. -/
def InRange (r : PlanRequest) : Prop :=
  ∀ s : Setting, s.get r ≤ s.maximum

theorem InRange.put {r : PlanRequest} (h : InRange r) {s : Setting} {v : Nat} (hv : v ≤ s.maximum) :
    InRange (s.put r v) := by
  intro t
  by_cases hts : t = s
  · subst hts
    rw [Setting.get_put r hv]
    exact hv
  · rw [Setting.get_put_ne r v hts]
    exact h t

theorem inRange_defaults : InRange .defaults := by
  intro s
  cases s <;> decide

end Qanat

import Mathlib.Tactic.Ring
import Mathlib.Algebra.Order.Ring.Nat

namespace Qanat

inductive ScanMode
  | auto | full | coverage | budget | reachable
  deriving DecidableEq

inductive SelectionPolicy
  | uniform | stratified | adaptive | hybrid
  deriving DecidableEq

/-- The part of `qn_scan_request` that decides which addresses a sweep visits. -/
structure ScanRequest where
  mode : ScanMode
  selection : SelectionPolicy
  coveragePpm : Nat
  explorePercent : Nat
  addressBudget : Nat
  reachableTarget : Nat

structure ScanPlan where
  requestedMode : ScanMode
  mode : ScanMode
  selection : SelectionPolicy
  coveragePpm : Nat
  explorePercent : Nat
  totalAddresses : Nat
  plannedAddresses : Nat
  reachableTarget : Nat
  exactFull : Bool
  autoAdjusted : Bool

def coverageScale : Nat := 1000000

def addU64 (a b : Nat) : Option Nat :=
  if 2 ^ 64 - 1 - b < a then none else some (a + b)

def mulU64 (a b : Nat) : Option Nat :=
  if a ≠ 0 ∧ (2 ^ 64 - 1) / a < b then none else some (a * b)

def coverageCount (total coveragePpm : Nat) : Option Nat :=
  if total = 0 ∨ coveragePpm < 100 ∨ coverageScale < coveragePpm then none
  else
    match mulU64 (total / coverageScale) coveragePpm, mulU64 (total % coverageScale) coveragePpm with
    | some whole, some scaled =>
      addU64 whole (scaled / coverageScale + if scaled % coverageScale ≠ 0 then 1 else 0)
    | _, _ => none

/-- The switch of `resolve_scope` over the mode it has settled on. -/
def scopeOf (request : ScanRequest) (total : Nat) (plan : ScanPlan) : Except String ScanPlan :=
  match plan.mode with
  | .full => .ok { plan with plannedAddresses := total, coveragePpm := coverageScale, exactFull := true }
  | .coverage =>
    match coverageCount total plan.coveragePpm with
    | none => .error "coverage must be between 0.01% and 100%"
    | some planned =>
      if plan.coveragePpm = coverageScale then
        .ok { plan with plannedAddresses := planned, mode := .full, exactFull := true }
      else .ok { plan with plannedAddresses := planned }
  | .budget =>
    if request.addressBudget = 0 then .error "address budget must be greater than zero"
    else
      let planned := if request.addressBudget < total then request.addressBudget else total
      .ok { plan with plannedAddresses := planned, exactFull := planned = total }
  | .reachable =>
    if request.reachableTarget = 0 ∨ total < request.reachableTarget then
      .error "reachable target must be within the loaded address set"
    else .ok { plan with reachableTarget := request.reachableTarget, plannedAddresses := total }
  | .auto => .error "invalid scan mode"

def resolveScope (request : ScanRequest) (total : Nat) (plan : ScanPlan) : Except String ScanPlan :=
  let plan := { plan with requestedMode := request.mode, mode := request.mode, coveragePpm := request.coveragePpm }
  if plan.mode = .auto then
    if total ≤ 65536 then scopeOf request total { plan with mode := .full, autoAdjusted := true }
    else scopeOf request total { plan with mode := .coverage, coveragePpm := 100000, autoAdjusted := true }
  else scopeOf request total plan

/-- `qn_scan_plan_resolve` up to and including `resolve_scope`. What follows there fills other
fields of the plan or refuses it (`planResolve_scan`). -/
def scanPlanResolve (request : ScanRequest) (total : Nat) : Except String ScanPlan :=
  if total = 0 then .error "scan plan environment is incomplete"
  else if 100 < request.explorePercent then .error "scan selection or ranking policy is invalid"
  else
    resolveScope request total
      { requestedMode := .auto
        mode := .auto
        selection := request.selection
        coveragePpm := 0
        explorePercent := request.explorePercent
        totalAddresses := total
        plannedAddresses := 0
        reachableTarget := 0
        exactFull := false
        autoAdjusted := false }

/-- A plan a sweep may run. -/
structure ScanPlan.Valid (plan : ScanPlan) (total : Nat) : Prop where
  total_eq : plan.totalAddresses = total
  planned_le : plan.plannedAddresses ≤ total
  exact : plan.exactFull = true → plan.plannedAddresses = total
  percent : plan.explorePercent ≤ 100

theorem addU64_some {a b c : Nat} (h : addU64 a b = some c) : a + b = c := by
  unfold addU64 at h
  split at h
  next => simp at h
  next => exact Option.some.inj h

theorem mulU64_some {a b c : Nat} (h : mulU64 a b = some c) : a * b = c := by
  unfold mulU64 at h
  split at h
  next => simp at h
  next => exact Option.some.inj h

theorem coverageCount_le {total ppm count : Nat} (h : coverageCount total ppm = some count) :
    count ≤ total ∧ (ppm = coverageScale → count = total) := by
  unfold coverageCount at h
  split at h
  next => simp at h
  next hcond =>
    push Not at hcond
    obtain ⟨-, -, hppm⟩ := hcond
    split at h
    next whole scaled hwhole hscaled =>
      have hw := mulU64_some hwhole
      have hs := mulU64_some hscaled
      have hc := addU64_some h
      have hsplit := Nat.div_add_mod total coverageScale
      have hwle : whole ≤ coverageScale * (total / coverageScale) := by
        rw [← hw, Nat.mul_comm]
        exact Nat.mul_le_mul_right _ hppm
      have hsle : scaled ≤ coverageScale * (total % coverageScale) := by
        rw [← hs, Nat.mul_comm]
        exact Nat.mul_le_mul_right _ hppm
      unfold coverageScale at *
      constructor
      · split at hc <;> omega
      · rintro rfl
        split at hc <;> omega
    next => simp at h

theorem scopeOf_valid {request : ScanRequest} {total : Nat} {plan plan' : ScanPlan}
    (h : scopeOf request total plan = .ok plan') (htotal : plan.totalAddresses = total)
    (hfull : plan.exactFull = false) (hpercent : plan.explorePercent ≤ 100) :
    plan'.Valid total := by
  unfold scopeOf at h
  split at h
  next =>
    obtain rfl := Except.ok.inj h
    exact ⟨htotal, le_refl _, fun _ => rfl, hpercent⟩
  next =>
    split at h
    next => simp at h
    next planned hcount =>
      obtain ⟨hle, heq⟩ := coverageCount_le hcount
      split at h
      next hppm =>
        obtain rfl := Except.ok.inj h
        exact ⟨htotal, hle, fun _ => heq hppm, hpercent⟩
      next =>
        obtain rfl := Except.ok.inj h
        exact ⟨htotal, hle, fun hx => by simp [hfull] at hx, hpercent⟩
  next =>
    split at h
    next => simp at h
    next =>
      obtain rfl := Except.ok.inj h
      refine ⟨htotal, ?_, fun hx => of_decide_eq_true hx, hpercent⟩
      dsimp only
      split <;> omega
  next =>
    split at h
    next => simp at h
    next =>
      obtain rfl := Except.ok.inj h
      exact ⟨htotal, le_refl _, fun hx => by simp [hfull] at hx, hpercent⟩
  next => simp at h

theorem scanPlanResolve_valid {request : ScanRequest} {total : Nat} {plan : ScanPlan}
    (h : scanPlanResolve request total = .ok plan) : plan.Valid total := by
  unfold scanPlanResolve at h
  split at h
  next => simp at h
  next =>
    split at h
    next => simp at h
    next hpercent =>
      unfold resolveScope at h
      dsimp only at h
      split at h
      next => split at h <;> exact scopeOf_valid h rfl rfl (by dsimp only; omega)
      next => exact scopeOf_valid h rfl rfl (by dsimp only; omega)

end Qanat

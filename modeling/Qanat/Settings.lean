import Qanat.PlanRequest
import Qanat.HttpProbe
import Qanat.General.Decimal
import Qanat.General.Lines

namespace Qanat

/-- The rows of `setting_desc`. -/
inductive Setting
  | mode | selection | rankBy | coveragePpm | explorePercent | addressBudget | reachableTarget
  | candidateCapacity | finalistLimit | outputLimit | memoryBudgetBytes
  | scanConcurrency | verifyConcurrency | stabilityConcurrency
  | tunnelTarget | tunnelConcurrency | tunnelAttempts
  | candidateAuto | finalistsAuto | finalistsAll | outputAll | memoryAuto
  | scanConcurrencyAuto | verifyConcurrencyAuto | stabilityConcurrencyAuto | tunnelEnabled | tunnelAll
  deriving DecidableEq

def settingDesc : List Setting :=
  [ .mode, .selection, .rankBy, .coveragePpm, .explorePercent, .addressBudget, .reachableTarget,
    .candidateCapacity, .finalistLimit, .outputLimit, .memoryBudgetBytes,
    .scanConcurrency, .verifyConcurrency, .stabilityConcurrency,
    .tunnelTarget, .tunnelConcurrency, .tunnelAttempts,
    .candidateAuto, .finalistsAuto, .finalistsAll, .outputAll, .memoryAuto,
    .scanConcurrencyAuto, .verifyConcurrencyAuto, .stabilityConcurrencyAuto, .tunnelEnabled, .tunnelAll ]

def Setting.name : Setting → Bytes
  | .mode => ascii "mode".toList
  | .selection => ascii "selection".toList
  | .rankBy => ascii "rank_by".toList
  | .coveragePpm => ascii "coverage_ppm".toList
  | .explorePercent => ascii "explore_percent".toList
  | .addressBudget => ascii "address_budget".toList
  | .reachableTarget => ascii "reachable_target".toList
  | .candidateCapacity => ascii "candidate_capacity".toList
  | .finalistLimit => ascii "finalist_limit".toList
  | .outputLimit => ascii "output_limit".toList
  | .memoryBudgetBytes => ascii "memory_budget_bytes".toList
  | .scanConcurrency => ascii "scan_concurrency".toList
  | .verifyConcurrency => ascii "verify_concurrency".toList
  | .stabilityConcurrency => ascii "stability_concurrency".toList
  | .tunnelTarget => ascii "tunnel_target".toList
  | .tunnelConcurrency => ascii "tunnel_concurrency".toList
  | .tunnelAttempts => ascii "tunnel_attempts".toList
  | .candidateAuto => ascii "candidate_auto".toList
  | .finalistsAuto => ascii "finalists_auto".toList
  | .finalistsAll => ascii "finalists_all".toList
  | .outputAll => ascii "output_all".toList
  | .memoryAuto => ascii "memory_auto".toList
  | .scanConcurrencyAuto => ascii "scan_concurrency_auto".toList
  | .verifyConcurrencyAuto => ascii "verify_concurrency_auto".toList
  | .stabilityConcurrencyAuto => ascii "stability_concurrency_auto".toList
  | .tunnelEnabled => ascii "tunnel_enabled".toList
  | .tunnelAll => ascii "tunnel_all".toList

def Setting.maximum : Setting → Nat
  | .mode => 4
  | .selection => 3
  | .rankBy => 3
  | .coveragePpm => coverageScale
  | .explorePercent => 100
  | .addressBudget | .reachableTarget | .memoryBudgetBytes => 2 ^ 64 - 1
  | .candidateCapacity | .finalistLimit | .outputLimit | .tunnelTarget => 2 ^ 32 - 1
  | .scanConcurrency | .verifyConcurrency | .stabilityConcurrency => 2 ^ 32 - 1
  | .tunnelConcurrency => 32
  | .tunnelAttempts => 2
  | .candidateAuto | .finalistsAuto | .finalistsAll | .outputAll | .memoryAuto => 1
  | .scanConcurrencyAuto | .verifyConcurrencyAuto | .stabilityConcurrencyAuto | .tunnelEnabled | .tunnelAll => 1

def ScanMode.code : ScanMode → Nat
  | .auto => 0
  | .full => 1
  | .coverage => 2
  | .budget => 3
  | .reachable => 4

def ScanMode.ofCode : Nat → ScanMode
  | 0 => .auto
  | 1 => .full
  | 2 => .coverage
  | 3 => .budget
  | _ => .reachable

def SelectionPolicy.code : SelectionPolicy → Nat
  | .uniform => 0
  | .stratified => 1
  | .adaptive => 2
  | .hybrid => 3

def SelectionPolicy.ofCode : Nat → SelectionPolicy
  | 0 => .uniform
  | 1 => .stratified
  | 2 => .adaptive
  | _ => .hybrid

def RankPolicy.code : RankPolicy → Nat
  | .balanced => 0
  | .latency => 1
  | .stability => 2
  | .throughput => 3

def RankPolicy.ofCode : Nat → RankPolicy
  | 0 => .balanced
  | 1 => .latency
  | 2 => .stability
  | _ => .throughput

/-- `setting_get`. -/
def Setting.get (r : PlanRequest) : Setting → Nat
  | .mode => r.mode.code
  | .selection => r.selection.code
  | .rankBy => r.rankBy.code
  | .coveragePpm => r.coveragePpm
  | .explorePercent => r.explorePercent
  | .addressBudget => r.addressBudget
  | .reachableTarget => r.reachableTarget
  | .candidateCapacity => r.candidateCapacity
  | .finalistLimit => r.finalistLimit
  | .outputLimit => r.outputLimit
  | .memoryBudgetBytes => r.memoryBudgetBytes
  | .scanConcurrency => r.scanConcurrency
  | .verifyConcurrency => r.verifyConcurrency
  | .stabilityConcurrency => r.stabilityConcurrency
  | .tunnelTarget => r.tunnelTarget
  | .tunnelConcurrency => r.tunnelConcurrency
  | .tunnelAttempts => r.tunnelAttempts
  | .candidateAuto => r.candidateAuto.toNat
  | .finalistsAuto => r.finalistsAuto.toNat
  | .finalistsAll => r.finalistsAll.toNat
  | .outputAll => r.outputAll.toNat
  | .memoryAuto => r.memoryAuto.toNat
  | .scanConcurrencyAuto => r.scanConcurrencyAuto.toNat
  | .verifyConcurrencyAuto => r.verifyConcurrencyAuto.toNat
  | .stabilityConcurrencyAuto => r.stabilityConcurrencyAuto.toNat
  | .tunnelEnabled => r.tunnelEnabled.toNat
  | .tunnelAll => r.tunnelAll.toNat

/-- `setting_put`. -/
def Setting.put (r : PlanRequest) (v : Nat) : Setting → PlanRequest
  | .mode => { r with mode := .ofCode v }
  | .selection => { r with selection := .ofCode v }
  | .rankBy => { r with rankBy := .ofCode v }
  | .coveragePpm => { r with coveragePpm := v % 2 ^ 32 }
  | .explorePercent => { r with explorePercent := v % 2 ^ 32 }
  | .addressBudget => { r with addressBudget := v }
  | .reachableTarget => { r with reachableTarget := v }
  | .candidateCapacity => { r with candidateCapacity := v }
  | .finalistLimit => { r with finalistLimit := v }
  | .outputLimit => { r with outputLimit := v }
  | .memoryBudgetBytes => { r with memoryBudgetBytes := v }
  | .scanConcurrency => { r with scanConcurrency := v % 2 ^ 32 }
  | .verifyConcurrency => { r with verifyConcurrency := v % 2 ^ 32 }
  | .stabilityConcurrency => { r with stabilityConcurrency := v % 2 ^ 32 }
  | .tunnelTarget => { r with tunnelTarget := v }
  | .tunnelConcurrency => { r with tunnelConcurrency := v % 2 ^ 32 }
  | .tunnelAttempts => { r with tunnelAttempts := v % 2 ^ 32 }
  | .candidateAuto => { r with candidateAuto := v ≠ 0 }
  | .finalistsAuto => { r with finalistsAuto := v ≠ 0 }
  | .finalistsAll => { r with finalistsAll := v ≠ 0 }
  | .outputAll => { r with outputAll := v ≠ 0 }
  | .memoryAuto => { r with memoryAuto := v ≠ 0 }
  | .scanConcurrencyAuto => { r with scanConcurrencyAuto := v ≠ 0 }
  | .verifyConcurrencyAuto => { r with verifyConcurrencyAuto := v ≠ 0 }
  | .stabilityConcurrencyAuto => { r with stabilityConcurrencyAuto := v ≠ 0 }
  | .tunnelEnabled => { r with tunnelEnabled := v ≠ 0 }
  | .tunnelAll => { r with tunnelAll := v ≠ 0 }

/-- `qn_scan_request_equal`. -/
def requestEqual (a b : PlanRequest) : Bool :=
  a.mode = b.mode && a.selection = b.selection && a.rankBy = b.rankBy && a.coveragePpm = b.coveragePpm &&
  a.explorePercent = b.explorePercent && a.addressBudget = b.addressBudget &&
  a.reachableTarget = b.reachableTarget && a.candidateCapacity = b.candidateCapacity &&
  a.finalistLimit = b.finalistLimit && a.outputLimit = b.outputLimit &&
  a.memoryBudgetBytes = b.memoryBudgetBytes && a.scanConcurrency = b.scanConcurrency &&
  a.verifyConcurrency = b.verifyConcurrency && a.stabilityConcurrency = b.stabilityConcurrency &&
  a.tunnelTarget = b.tunnelTarget && a.tunnelConcurrency = b.tunnelConcurrency &&
  a.tunnelAttempts = b.tunnelAttempts && a.candidateAuto = b.candidateAuto && a.finalistsAuto = b.finalistsAuto &&
  a.finalistsAll = b.finalistsAll && a.outputAll = b.outputAll && a.memoryAuto = b.memoryAuto &&
  a.scanConcurrencyAuto = b.scanConcurrencyAuto && a.verifyConcurrencyAuto = b.verifyConcurrencyAuto &&
  a.stabilityConcurrencyAuto = b.stabilityConcurrencyAuto && a.tunnelEnabled = b.tunnelEnabled &&
  a.tunnelAll = b.tunnelAll

def settingsVersion : Nat := 2

def versionKey : Bytes := ascii "version".toList

def chEquals : UInt8 := 61

/-- `%s=%u`. -/
def pairLine (key : Bytes) (v : Nat) : Bytes :=
  key ++ chEquals :: Decimal.render v

def settingsLines (r : PlanRequest) : List Bytes :=
  pairLine versionKey settingsVersion :: settingDesc.map fun s => pairLine s.name (s.get r)

/-- `qn_scan_settings_save`: the text it writes. -/
def settingsSave (r : PlanRequest) : Except String Bytes :=
  match requestValidate r with
  | .error e => .error e
  | .ok () => .ok ((settingsLines r).flatMap (· ++ [chLf]))

def settingFind (key : Bytes) : Option Setting :=
  settingDesc.find? fun s => key == s.name

def Setting.isTunnel (s : Setting) : Bool :=
  (ascii "tunnel_".toList).isPrefixOf s.name

structure SettingsScan where
  loaded : PlanRequest
  seen : List Setting
  version : Option Nat

/-- What the loader does with a key and its value. -/
def settingPair (st : SettingsScan) (key : Bytes) (v : Nat) : Option SettingsScan :=
  if key = versionKey then
    if st.version.isSome ∨ (v ≠ 1 ∧ v ≠ settingsVersion) then none else some { st with version := some v }
  else
    match settingFind key with
    | none => none
    | some s =>
      if s ∈ st.seen ∨ s.maximum < v then none
      else some { st with loaded := s.put st.loaded v, seen := s :: st.seen }

/-- A line without its end: the key, and the text behind the first equals sign. -/
def settingBody (st : SettingsScan) (body : Bytes) : Option SettingsScan :=
  match body.dropWhile (· ≠ chEquals) with
  | [] => none
  | _ :: text =>
    if body.takeWhile (· ≠ chEquals) = [] ∨ chEquals ∈ text then none
    else (Decimal.read text).bind (settingPair st (body.takeWhile (· ≠ chEquals)))

def isEol (c : UInt8) : Bool :=
  c == chLf || c == chCr

def settingLine (st : SettingsScan) (line : Bytes) : Option SettingsScan :=
  if 4096 < line.length ∨ 0 ∈ line then none
  else if line.rdropWhile isEol = [] then some st
  else settingBody st (line.rdropWhile isEol)

/-- Whether exactly the rows that `wanted` names were seen. -/
def sawExactly (seen : List Setting) (wanted : Setting → Bool) : Bool :=
  settingDesc.all fun s => seen.contains s == wanted s

def settingsFinish (st : SettingsScan) : Option PlanRequest :=
  match st.version with
  | none => none
  | some v =>
    if v = settingsVersion then if sawExactly st.seen fun _ => true then some st.loaded else none
    else if sawExactly st.seen fun s => !s.isTunnel then
      some { st.loaded with tunnelEnabled := false, tunnelAll := false, tunnelTarget := 0 }
    else none

def settingsMalformed : String := "settings file is malformed or incomplete"

/-- `qn_scan_settings_load` on the text of an open file, with the request it may overwrite. -/
def settingsLoad (content : Bytes) (request : PlanRequest) : Except String Unit × PlanRequest :=
  match ((Lines.split chLf content).foldlM settingLine ⟨.defaults, [], none⟩).bind settingsFinish with
  | none => (.error settingsMalformed, request)
  | some loaded =>
    match requestValidate loaded with
    | .error e => (.error e, request)
    | .ok () => (.ok (), loaded)

end Qanat

import Fabrication.Fault
import Fabrication.Ident

/-!
# Errors of planning

`PlanError` lists why a request is refused: a material nobody produces, an unknown plan or
step, a facility that cannot be resolved, a production cycle, a tree deeper than allowed, a
bad input, or a store that refuses writes. Each has a fixed text (`PlanError.message`); only
a refused write may be retried. `Failure` joins these with the arithmetic `Fault`s.
-/

namespace Fabrication

/-- Why no facility bonus can be resolved. -/
inductive BonusGap where
  | unknownFacility (facility : Nat)
  | noFacilities (user : Nat)
  deriving DecidableEq, Repr

def BonusGap.describe : BonusGap → String
  | .unknownFacility f => s!"設施 {f} 不存在"
  | .noFacilities u => s!"使用者 {u} 沒有設定設施"

/-- What is wrong with an input. -/
inductive InputProblem where
  /-- The configuration text cannot be read; the detail says where and why. -/
  | configUnreadable (detail : String)
  /-- A configuration value lies outside its range. -/
  | configOutOfRange (field value : String)
  | jobDurationZero
  | depthLimitZero
  | noTargets
  | zeroQuantity (material : Nat)
  | targetEfficiency (material : Nat)
  | editEfficiency (value : Nat)
  deriving DecidableEq, Repr

/-- The text of an input problem. -/
def InputProblem.describe : InputProblem → String
  | .configUnreadable d => s!"配置解析失敗: {d}"
  | .configOutOfRange f v => s!"{f} 超出範圍: {v}"
  | .jobDurationZero => "max_job_duration_secs 必須大於 0"
  | .depthLimitZero => "max_depth 必須大於 0"
  | .noTargets => "計劃沒有目標產品"
  | .zeroQuantity m => s!"物料 {m} 的需求數量必須大於 0"
  | .targetEfficiency m => s!"物料 {m} 的效率超出範圍"
  | .editEfficiency v => s!"效率超出範圍: {v}"

/-- Why a planning request is refused. -/
inductive PlanError where
  | noProducer (material : Nat)
  | planNotFound (plan : Ident)
  | stepNotFound (step : Ident)
  | bonusUnavailable (gap : BonusGap)
  | cycleDetected (path : List Nat)
  | depthExceeded (limit : Nat)
  | invalidInput (problem : InputProblem)
  | storeRefused
  deriving DecidableEq, Repr

namespace PlanError

/-- The name of the kind of error. -/
def kind : PlanError → String
  | .noProducer _ => "NoProducer"
  | .planNotFound _ => "PlanNotFound"
  | .stepNotFound _ => "StepNotFound"
  | .bonusUnavailable _ => "BonusUnavailable"
  | .cycleDetected _ => "CycleDetected"
  | .depthExceeded _ => "DepthExceeded"
  | .invalidInput _ => "InvalidInput"
  | .storeRefused => "DataSource"

def pathText (path : List Nat) : String := "[" ++ ", ".intercalate (path.map toString) ++ "]"

/-- The text of an error; `idText` writes identifiers. -/
def message (idText : Ident → String) : PlanError → String
  | .noProducer m => s!"找不到物料 {m} 的生產配方"
  | .planNotFound p => "找不到生產計劃: " ++ idText p
  | .stepNotFound s => "找不到計劃步驟: " ++ idText s
  | .bonusUnavailable g => "設施/加成資料不可用: " ++ g.describe
  | .cycleDetected path => "偵測到生產鏈循環: " ++ pathText path
  | .depthExceeded n => s!"展開深度超過上限 {n}"
  | .invalidInput p => "無效的輸入: " ++ p.describe
  | .storeRefused => "資料讀取失敗（可重試）: 存放區拒絕寫入"

/-- Only a refused write may be retried as it is. -/
def isRetryable : PlanError → Bool
  | .storeRefused => true
  | _ => false

end PlanError

/-- A refused request or an arithmetic breakdown. -/
inductive Failure where
  | rejected (e : PlanError)
  | fault (f : Fault)
  deriving DecidableEq, Repr

abbrev Outcome (α : Type) := Except Failure α

def Outcome.ofFault {α : Type} (x : Except Fault α) : Outcome α := x.mapError .fault

def Outcome.ofPlan {α : Type} (x : Except PlanError α) : Outcome α := x.mapError .rejected

end Fabrication

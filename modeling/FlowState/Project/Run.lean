import FlowState.Json

/-! # Calculation runs

What a project keeps of each state calculation. -/

namespace FlowState

/-- How a run ended. -/
inductive RunStatus where
  | succeeded
  /-- The decoder stopped early, and the run covers what it had decoded. -/
  | partialResult
  | failed
  deriving Repr, DecidableEq

namespace RunStatus

/-- The name of a status. -/
def name : RunStatus → String
  | .succeeded => "succeeded"
  | .partialResult => "partial"
  | .failed => "failed"

/-- The status of a name. -/
def ofName? (s : String) : Option RunStatus :=
  [succeeded, partialResult, failed].find? fun r => r.name == s

theorem ofName?_name (r : RunStatus) : ofName? r.name = some r := by cases r <;> decide

end RunStatus

/-- A run as a project keeps it. -/
structure RunRecord where
  /-- The number of the run, once it has one. -/
  id : Option Nat
  binary : String
  updateFunction : String
  status : RunStatus
  startedAt : String
  finishedAt : String
  fixupCount : UInt64
  deriving Repr, DecidableEq

/-- The value that a run is written as. -/
def RunRecord.toJson (r : RunRecord) : Json :=
  .object ((r.id.map fun n => ("id", Json.ofNat n)).toList ++
    [("binary", .text r.binary), ("update_function", .text r.updateFunction),
      ("status", .text r.status.name), ("started_at", .text r.startedAt),
      ("finished_at", .text r.finishedAt), ("fixup_count", .word r.fixupCount)])

end FlowState

import FlowState.Address

/-! # Errors of state calculations -/

namespace FlowState

/-- Why a state cannot be calculated. -/
inductive StateError where
  /-- The calculation or its update function is used before it is prepared. -/
  | notPrepared
  | preparation (reason : String)
  | updateFailed (address : Address) (reason : String)
  /-- A load reference without the address of its data. -/
  | missingReference (address : Address)
  | cancelled
  | unknownUpdateFunction (name : String)
  | invalidValue (text : String)
  deriving Repr, DecidableEq

/-- The message of an error. -/
def StateError.message : StateError → String
  | .notPrepared => "State calculator used before prepare()"
  | .preparation reason => s!"State update function could not be prepared: {reason}"
  | .updateFailed address reason => "State update failed at " ++ address.text ++ ": " ++ reason
  | .missingReference address =>
    "Load reference at " ++ address.text ++ " has no data operand address"
  | .cancelled => "State calculation cancelled"
  | .unknownUpdateFunction name => s!"Unknown state update function '{name}'"
  | .invalidValue text => s!"Invalid state value '{text}'"

end FlowState

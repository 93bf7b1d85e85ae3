/-!
# ClassUnit -- the states of a unit

A unit is unprocessed, then either skipped or in progress, and from there
enhanced or failed. The last three states are final.
-/


namespace ClassWeave

/-- How far the enhancement of a unit has come. -/
inductive EnhancementState where
  | unprocessed
  | inProgress
  | enhanced
  | skipped
  | failed
  deriving DecidableEq, Repr

namespace EnhancementState

/-- A state that is never left. -/
def isFinal : EnhancementState → Bool
  | .enhanced | .skipped | .failed => true
  | .unprocessed | .inProgress => false

/-- The steps from state to state. -/
def canAdvance : EnhancementState → EnhancementState → Bool
  | .unprocessed, .inProgress => true
  | .unprocessed, .skipped => true
  | .inProgress, .enhanced => true
  | .inProgress, .failed => true
  | _, _ => false

/-- The name of a state in a report. -/
def label : EnhancementState → String
  | .unprocessed => "unprocessed"
  | .inProgress => "in_progress"
  | .enhanced => "enhanced"
  | .skipped => "skipped"
  | .failed => "failed"

/-- The name of a state in a message. -/
def title : EnhancementState → String
  | .unprocessed => "Unprocessed"
  | .inProgress => "InProgress"
  | .enhanced => "Enhanced"
  | .skipped => "Skipped"
  | .failed => "Failed"

end EnhancementState

/-- A step that the states do not allow. -/
structure StateError where
  unit : String
  source : EnhancementState
  target : EnhancementState
  deriving DecidableEq, Repr

/-- The wording of a step that is not allowed. -/
def StateError.message (e : StateError) : String :=
  "illegal state transition for " ++ e.unit ++ ": " ++ e.source.title ++ " -> " ++ e.target.title

end ClassWeave

import ClassWeave.ClassUnit.State
import ClassWeave.Enhancer.Fault
import ClassWeave.Files.Fault
import ClassWeave.Ledger.Fault
/-!
# Event -- what a run reports besides its result

Warnings and errors that do not end a run: each with a level, a fixed
message, and named fields that say what it is about.
-/


namespace ClassWeave

/-- Writing a unit back failed. -/
structure PersistenceError where
  unit : String
  path : Path
  fault : Fault
  deriving DecidableEq, Repr

/-- The wording of a failure to write back. -/
def PersistenceError.message (e : PersistenceError) : String :=
  chained ["failed to write enhanced " ++ e.unit ++ " to " ++ e.path.text, e.fault.message]

/-- What a run reports. -/
inductive Event where
  | entryUnlisted (path : Path) (cause : String)
  | classUnreadable (path : Path) (cause : String)
  | sourceMisplaced (path : Path)
  | classMalformed (unit : String) (cause : ClassFile.FormatError)
  | writeBackFailed (error : PersistenceError)
  /-- The marker of a unit names other passes than the run's. -/
  | otherEnhancers (unit : String) (recorded expected : List EnhancerId)
  | noEnhancers
  | ledgerUnavailable (path : Path) (cause : LedgerError)
  | ledgerNotUpdated (unit : String) (cause : LedgerError)
  | enhancementFailed (error : ChainError)
  | stateViolated (error : StateError)
  deriving DecidableEq, Repr

/-- How grave an event is. -/
inductive Severity where
  | warning
  | error
  deriving DecidableEq, Repr

namespace Event

/-- How grave an event is. -/
def severity : Event → Severity
  | .enhancementFailed _ | .stateViolated _ => .error
  | _ => .warning

/-- The fixed message of an event. -/
def message : Event → String
  | .entryUnlisted .. => "failed to enumerate entry"
  | .classUnreadable .. => "failed to read class file"
  | .sourceMisplaced _ => "source found where a compiled unit was expected, ignoring"
  | .classMalformed .. => "malformed class file"
  | .writeBackFailed _ => "write-back failed"
  | .otherEnhancers .. =>
    "unit was enhanced by a different enhancer set; rebuild it to re-enhance"
  | .noEnhancers => "no enhancers configured; eligible units will only be marked"
  | .ledgerUnavailable .. => "ledger unavailable, continuing without it"
  | .ledgerNotUpdated .. => "failed to update ledger"
  | .enhancementFailed _ => "enhancement failed"
  | .stateViolated _ => "descriptor state machine violated"

/-- The named fields of an event. -/
def fields : Event → List (String × String)
  | .entryUnlisted p cause | .classUnreadable p cause => [("path", p.text), ("error", cause)]
  | .sourceMisplaced p => [("path", p.text)]
  | .classMalformed unit cause => [("unit", unit), ("error", cause.message)]
  | .writeBackFailed e => [("unit", e.unit), ("error", e.message)]
  | .otherEnhancers unit recorded expected =>
    [("unit", unit), ("recorded", EnhancerId.displayAll recorded),
      ("expected", EnhancerId.displayAll expected)]
  | .noEnhancers => []
  | .ledgerUnavailable p cause => [("path", p.text), ("error", cause.headline)]
  | .ledgerNotUpdated unit cause => [("unit", unit), ("error", cause.headline)]
  | .enhancementFailed e =>
    [("unit", e.unit), ("enhancer", e.enhancer.display), ("error", e.message)]
  | .stateViolated e => [("unit", e.unit), ("error", e.message)]

/-- An event as a line of the log. -/
def line (e : Event) : String :=
  (match e.severity with
    | .warning => " WARN "
    | .error => "ERROR ")
  ++ e.message ++ String.join (e.fields.map fun p => " " ++ p.1 ++ "=" ++ p.2)

end Event

end ClassWeave

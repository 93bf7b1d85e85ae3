import ClassWeave.Commit
import ClassWeave.Eligibility
import ClassWeave.Ledger.Store
/-!
# Processor -- one unit from its verdict to its file

A processor takes a unit through all that is done with it: the verdict,
the chain, the writing back and the ledger. A unit in a final state is
reported as it stands and nothing else happens.

A unit whose octets cannot be written back stays enhanced; the failure
stands in its report. A ledger that cannot be updated is only a warning.
-/


namespace ClassWeave

/-- What became of a unit. The last four fields are there only where they
say something. -/
structure UnitReport where
  unit : String
  state : EnhancementState
  skipReason : Option SkipReason
  failure : Option String
  /-- The pass that failed. -/
  enhancer : Option EnhancerId
  committed : Option CommitReceipt
  persistenceError : Option PersistenceError
  deriving DecidableEq, Repr

/-- The report of a unit as it stands. -/
def UnitReport.settled (u : ClassUnit) : UnitReport where
  unit := u.name
  state := u.state
  skipReason := u.skipReason
  failure := u.failure
  enhancer := none
  committed := none
  persistenceError := none

/-- The workspace, the unit and its report after processing. -/
structure Processed where
  workspace : Workspace
  unit : ClassUnit
  report : UnitReport

/-- What decides about units and changes them. -/
structure Processor where
  filter : EligibilityFilter
  chain : Chain
  ledger : Option Ledger

namespace Processor

/-- The processor of a chain whose filter expects the chain's own passes
in markers. -/
def ofChain (chain : Chain) (reserved : List String) (ledger : Option Ledger) : Processor :=
  ⟨.ofExtra reserved chain.ids, chain, ledger⟩

/-- A unit that is reported as it stands. -/
def rest (w : Workspace) (u : ClassUnit) : Processed := ⟨w, u, .settled u⟩

/-- A unit after a step; one that refuses the step stays as it was, and
the refusal is reported. -/
def settle (w : Workspace) (u : ClassUnit) (step : Except StateError ClassUnit) : Processed :=
  match step with
  | .ok u => rest w u
  | .error e => rest (w.report [.stateViolated e]) u

/-- The row that the ledger gets for a unit written back. -/
def rowOf (p : Processor) (w : Workspace) (u : ClassUnit) (receipt : CommitReceipt) :
    LedgerRow where
  unit := u.name
  sourceSha256 := Bytes.sha256Hex u.compiled
  outputSha256 := receipt.sha256
  enhancers := p.chain.ids.map EnhancerId.display
  recordedAt := w.clock

/-- The workspace with a unit written back recorded in the ledger. -/
def record (p : Processor) (w : Workspace) (u : ClassUnit) (receipt : CommitReceipt) :
    Workspace :=
  match p.ledger with
  | none => w
  | some ledger =>
    match ledger.record w receipt.path (p.rowOf w u receipt) with
    | .ok w => w
    | .error cause => w.report [.ledgerNotUpdated u.name cause]

/-- An enhanced unit written back. -/
def writeBack (p : Processor) (w : Workspace) (u : ClassUnit) : Processed :=
  match u.commit w.files with
  | (files, .error e) =>
    ⟨(w.withFiles files).report [.writeBackFailed e], u,
      { UnitReport.settled u with persistenceError := some e }⟩
  | (files, .ok none) => rest (w.withFiles files) u
  | (files, .ok (some receipt)) =>
    ⟨p.record (w.withFiles files) u receipt, u,
      { UnitReport.settled u with committed := some receipt }⟩

/-- A unit in progress, given to the chain. -/
def enhance (p : Processor) (w : Workspace) (u : ClassUnit) : Processed :=
  let outcome := p.chain.apply u
  let w := w.noteCalls outcome.calls
  match outcome.error with
  | some e =>
    let failed := settle (w.report [.enhancementFailed e]) outcome.unit
      (outcome.unit.fail e.message)
    { failed with report := { failed.report with enhancer := some e.enhancer } }
  | none =>
    let done := settle w outcome.unit (outcome.unit.advance .enhanced)
    p.writeBack done.workspace done.unit

/-- A unit after all that is done with it. -/
def process (p : Processor) (w : Workspace) (u : ClassUnit) : Processed :=
  if u.state.isFinal then rest w u
  else
    match p.filter.classify w.files u with
    | .error cause =>
      settle (w.report [.classMalformed u.name cause]) u
        (u.fail ("malformed class file: " ++ cause.message))
    | .ok (verdict, events) =>
      let w := w.report events
      match verdict.skipReason? with
      | some reason => settle w u (u.skip reason)
      | none =>
        match u.advance .inProgress with
        | .error e => rest (w.report [.stateViolated e]) u
        | .ok u => p.enhance w u

end Processor

end ClassWeave

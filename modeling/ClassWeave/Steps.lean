import ClassWeave.Files.Steps
import ClassWeave.Processor
/-!
# Steps -- processing taken apart

What a processor does with a unit, as the steps of a job: others who work on
the same files, with the same ledger and with the same record of events may
take theirs in between. What a pass makes of a unit is no matter of the state
that they share, so a call is only noted.
-/


namespace ClassWeave

/-- A unit written to its output, if it has anything to write. -/
def ClassUnit.commitJob (u : ClassUnit) :
    Job FileTree (Except PersistenceError (Option CommitReceipt)) :=
  match u.output? with
  | none => return .ok none
  | some bytes => do
    let p := u.location.output
    match ← FileTree.writeJob p bytes with
    | .error fault => return .error ⟨u.name, p, fault⟩
    | .ok () => return .ok (some ⟨p, bytes.length, Bytes.sha256Hex bytes⟩)

namespace Workspace

def onFiles {α : Type} (job : Job FileTree α) : Job Workspace α :=
  job.within files fun t w => w.withFiles t

def reportJob (events : List Event) : Job Workspace Unit := Job.act fun w => w.report events

/-- Calls of passes, noted one by one. -/
def callsJob : List PassCall → Job Workspace Unit
  | [] => return ()
  | call :: calls => do
    Job.act fun w => w.noteCalls [call]
    callsJob calls

end Workspace

namespace Processor

open Workspace (onFiles reportJob callsJob)

/-- A unit after a step of its own, with its report. -/
def settleJob (u : ClassUnit) (step : Except StateError ClassUnit) :
    Job Workspace (ClassUnit × UnitReport) :=
  match step with
  | .ok u => return (u, .settled u)
  | .error e => do
    reportJob [.stateViolated e]
    return (u, .settled u)

/-- The report of an enhanced unit that is written back. -/
def writeBackJob (p : Processor) (u : ClassUnit) : Job Workspace UnitReport := do
  match ← onFiles u.commitJob with
  | .error e =>
    reportJob [.writeBackFailed e]
    return { UnitReport.settled u with persistenceError := some e }
  | .ok none => return .settled u
  | .ok (some receipt) =>
    Job.act fun w => p.record w u receipt
    return { UnitReport.settled u with committed := some receipt }

/-- A unit in progress, given to the chain. -/
def enhanceJob (p : Processor) (u : ClassUnit) : Job Workspace (ClassUnit × UnitReport) := do
  let outcome := p.chain.apply u
  callsJob outcome.calls
  match outcome.error with
  | some e =>
    reportJob [.enhancementFailed e]
    let failed ← settleJob outcome.unit (outcome.unit.fail e.message)
    return (failed.1, { failed.2 with enhancer := some e.enhancer })
  | none =>
    let enhanced ← settleJob outcome.unit (outcome.unit.advance .enhanced)
    return (enhanced.1, ← p.writeBackJob enhanced.1)

/-- What is done with a unit on the verdict on it. -/
def verdictJob (p : Processor) (u : ClassUnit) :
    Except ClassFile.FormatError (Verdict × List Event) → Job Workspace (ClassUnit × UnitReport)
  | .error cause => do
    reportJob [.classMalformed u.name cause]
    settleJob u (u.fail ("malformed class file: " ++ cause.message))
  | .ok (verdict, events) => do
    reportJob events
    match verdict.skipReason? with
    | some reason => settleJob u (u.skip reason)
    | none =>
      match u.advance .inProgress with
      | .error e =>
        reportJob [.stateViolated e]
        return (u, .settled u)
      | .ok u => p.enhanceJob u

/-- All that is done with a unit: the unit as it is left, and its report. -/
def job (p : Processor) (u : ClassUnit) : Job Workspace (ClassUnit × UnitReport) :=
  if u.state.isFinal then return (u, .settled u)
  else do p.verdictJob u (← Job.look fun w => p.filter.classify w.files u)

end Processor

end ClassWeave

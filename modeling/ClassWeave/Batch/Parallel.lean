import ClassWeave.Batch
import ClassWeave.Steps
/-!
# Batch -- class files in parallel

The workers of a parallel run share the files, the cache and the rest of the
workspace, and a unit is locked while one of them has it in hand. Each class
file is a job of its own; in which order their steps are taken is settled by
nobody, so a run is as told only if it is so in every order
(`Batch.Ensures`). The reports come in the order of the scan.
-/


namespace ClassWeave

namespace Batch

/-- What the workers of a run share. -/
structure Shared where
  workspace : Workspace
  cache : UnitCache
  /-- The names of the units that are locked. -/
  locked : List String

namespace Shared

/-- The unit that is kept for a name, or else the one given. -/
def unitFor (r : Shared) (name : String) (u : ClassUnit) : ClassUnit := (r.cache.get? name).getD u

/-- A unit is kept for a name, if there is none yet. -/
def keep (r : Shared) (name : String) (u : ClassUnit) : Shared :=
  if (r.cache.get? name).isSome then r else { r with cache := r.cache.put name u }

/-- A unit is locked. -/
def lock (r : Shared) (name : String) : Shared := { r with locked := name :: r.locked }

/-- A unit is put back as it was left, and unlocked. -/
def unlock (r : Shared) (name : String) (u : ClassUnit) : Shared :=
  { r with cache := r.cache.put name u, locked := r.locked.erase name }

end Shared

/-- The unit that a class file stands for if none is kept for its name. -/
def newUnit (b : Batch) (s : ScannedUnit) : ClassUnit :=
  .fresh s.qualifiedName (locate b.destination s) s.bytes

/-- What a worker does with a class file: its unit is looked up, or made, and
processed as soon as it is free. -/
def job (b : Batch) (s : ScannedUnit) : Job Shared UnitReport := do
  let name := s.qualifiedName
  Job.act fun r => r.keep name (b.newUnit s)
  let u ← Job.await (fun r => !r.locked.contains name) fun r =>
    (r.lock name, r.unitFor name (b.newUnit s))
  let done ← (b.processor.job u).within Shared.workspace fun w r => { r with workspace := w }
  Job.act fun r => r.unlock name done.1
  return done.2

/-- **What is sure of a run** over the class tree under a root: of the class
files one by one, or, in parallel, of every order in which the workers may
take their steps. -/
def Ensures (b : Batch) (w : Workspace) (root : Path) (recursive : Bool)
    (Q : Except StructuralError (Workspace × Batch × BatchReport) → Prop) : Prop :=
  if b.parallel then
    match w.files.scan root recursive with
    | .error e => Q (.error e)
    | .ok (scan, events) =>
      Job.Always (fun r reports =>
          Q (.ok (r.workspace, { b with cache := r.cache }, b.reportOf root scan reports)))
        (scan.units.map b.job) ⟨w.report events, b.cache, []⟩
  else Q (b.run w root recursive)

end Batch

end ClassWeave

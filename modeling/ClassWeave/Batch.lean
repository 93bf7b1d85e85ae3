import ClassWeave.Processor
import ClassWeave.Scan
import ClassWeave.UnitCache
/-!
# Batch -- a whole class tree at once

A batch scans a class root and processes each class file that it finds,
in the order of the scan. Its cache outlives a run: a name met again, in
the same run or a later one, is the unit it was the first time.

A batch may have the class files processed in parallel. To take them one by
one is one of the orders in which that may go.
-/


namespace ClassWeave

/-- What became of a class tree. -/
structure BatchReport where
  root : Path
  destination : Path
  /-- One report for each class file of the scan, in its order. -/
  units : List UnitReport
  structuralErrors : List StructuralError
  misplaced : List Path
  abandoned : Nat
  deriving DecidableEq, Repr

namespace BatchReport

/-- How many units ended in a state. -/
def count (r : BatchReport) (state : EnhancementState) : Nat :=
  (r.units.filter fun u => u.state == state).length

/-- How many units could not be written back. -/
def persistenceErrors (r : BatchReport) : Nat :=
  (r.units.filter fun u => u.persistenceError.isSome).length

def hasFailures (r : BatchReport) : Bool :=
  0 < r.count .failed || 0 < r.persistenceErrors || !r.structuralErrors.isEmpty

/-- The first report of a name. -/
def find? (r : BatchReport) (name : String) : Option UnitReport :=
  r.units.find? fun u => u.unit == name

end BatchReport

/-- What processes class trees: where output goes, if not over the
sources, the units met so far, and whether class files are processed in
parallel. -/
structure Batch where
  processor : Processor
  destination : Option Path
  cache : UnitCache
  parallel : Bool

namespace Batch

/-- A batch that has met no units, and takes class files one by one. -/
def fresh (processor : Processor) (destination : Option Path) : Batch :=
  ⟨processor, destination, [], false⟩

/-- The batch with class files processed in parallel, or not. -/
def withParallel (b : Batch) (parallel : Bool) : Batch := { b with parallel := parallel }

/-- Where a class file is read from and written to. -/
def locate (destination : Option Path) (s : ScannedUnit) : UnitLocation :=
  match destination with
  | some d => ⟨s.path, d.join s.relative⟩
  | none => .inPlace s.path

/-- The unit that a class file stands for: the one that is kept for its
name, or else a new one. -/
def unitOf (b : Batch) (s : ScannedUnit) : ClassUnit :=
  (b.cache.get? s.qualifiedName).getD
    (.fresh s.qualifiedName (locate b.destination s) s.bytes)

/-- A run under way; the reports come last first. -/
structure Progress where
  workspace : Workspace
  batch : Batch
  reports : List UnitReport

/-- A run after one more class file. -/
def step (r : Progress) (s : ScannedUnit) : Progress :=
  let done := r.batch.processor.process r.workspace (r.batch.unitOf s)
  { workspace := done.workspace
    batch := { r.batch with cache := r.batch.cache.put s.qualifiedName done.unit }
    reports := done.report :: r.reports }

/-- The class files of a scan, processed. -/
def processAll (b : Batch) (w : Workspace) (units : List ScannedUnit) : Progress :=
  units.foldl step ⟨w, b, []⟩

/-- The report of a scan that has been processed. -/
def reportOf (b : Batch) (root : Path) (scan : ScanReport) (reports : List UnitReport) :
    BatchReport where
  root := root
  destination := b.destination.getD root
  units := reports
  structuralErrors := scan.errors
  misplaced := scan.misplaced
  abandoned := scan.abandoned

/-- The class tree under a root, scanned and processed one class file after
another. -/
def run (b : Batch) (w : Workspace) (root : Path) (recursive : Bool) :
    Except StructuralError (Workspace × Batch × BatchReport) :=
  match w.files.scan root recursive with
  | .error e => .error e
  | .ok (scan, events) =>
    let r := b.processAll (w.report events) scan.units
    .ok (r.workspace, r.batch, b.reportOf root scan r.reports.reverse)

end Batch

end ClassWeave

import ClassWeave.Batch
import ClassWeave.Json
import ClassWeave.Loader
/-!
# Document -- reports as documents

How each report reads as a document. Fields that say nothing are null in
what describes a class, and left out in what tells of a run.
-/


namespace ClassWeave

/-- An exemption as a document. -/
def ExemptReason.toJson (r : ExemptReason) : Json :=
  .object (("kind", .string r.label) :: match r with
    | .platform s => [("prefix", .string s)]
    | _ => [])

def PriorEnhancement.toJson (p : PriorEnhancement) : Json :=
  .object [("kind", .string p.label)]

/-- A reason to skip as a document. -/
def SkipReason.toJson : SkipReason → Json
  | .exempt r => .object [("exempt", r.toJson)]
  | .alreadyEnhanced p => .object [("already_enhanced", p.toJson)]

/-- A verdict as a document. -/
def Verdict.toJson : Verdict → Json
  | .proceed => .object [("verdict", .string "proceed")]
  | .exempt r => .object [("verdict", .string "exempt"), ("reason", r.toJson)]
  | .alreadyEnhanced p => .object [("verdict", .string "already_enhanced"), ("by", p.toJson)]

def EnhancerId.toJson (id : EnhancerId) : Json :=
  .object [("name", .string id.name), ("version", .string id.version)]

/-- A marker's record as a document. -/
def MarkerRecord.toJson (r : MarkerRecord) : Json :=
  .object
    [("enhancers", .array (r.enhancers.map EnhancerId.toJson)),
      ("source_sha256", .ofText? r.sourceSha256)]

/-- A receipt as a document. -/
def CommitReceipt.toJson (r : CommitReceipt) : Json :=
  .object
    [("path", .string r.path.text), ("bytes", .ofNat r.size), ("sha256", .string r.sha256)]

/-- The report of a unit as a document. -/
def UnitReport.toJson (r : UnitReport) : Json :=
  .object ([("unit", .string r.unit), ("state", .string r.state.label)]
    ++ Json.field? "skip_reason" (r.skipReason.map SkipReason.toJson)
    ++ Json.field? "enhancer" (r.enhancer.map fun id => .string id.display)
    ++ Json.field? "failure" (r.failure.map .string)
    ++ Json.field? "committed" (r.committed.map CommitReceipt.toJson)
    ++ Json.field? "persistence_error" (r.persistenceError.map fun e => .string e.message))

/-- What is wrong with a tree as a document. -/
def StructuralError.toJson (e : StructuralError) : Json :=
  .object [("path", .string e.path.text), ("message", .string e.message)]

/-- The report of a tree as the fields of a document. -/
def BatchReport.fields (r : BatchReport) : List (String × Json) :=
  [("root", .string r.root.text), ("destination", .string r.destination.text),
    ("enhanced", .ofNat (r.count .enhanced)), ("skipped", .ofNat (r.count .skipped)),
    ("failed", .ofNat (r.count .failed)), ("persistence_errors", .ofNat r.persistenceErrors),
    ("units", .array (r.units.map UnitReport.toJson)),
    ("structural_errors", .array (r.structuralErrors.map StructuralError.toJson)),
    ("misplaced_sources", .texts (r.misplaced.map Path.text)),
    ("abandoned", .ofNat r.abandoned)]

/-- The origin of a class as a document. -/
def ClassOrigin.toJson : ClassOrigin → Json
  | .project state => .object [("kind", .string "local"), ("state", .string state.label)]
  | .parent => .object [("kind", .string "parent")]

/-- A class as the fields of a document. -/
def DefinedClass.fields (c : DefinedClass) : List (String × Json) :=
  [("name", .string c.name), ("super_class", .ofText? c.superClass),
    ("interfaces", .texts c.interfaces), ("access_flags", .ofNat c.accessFlags.toNat),
    ("origin", c.origin.toJson), ("size", .ofNat c.bytes.length), ("sha256", .string c.sha256)]

/-- What a ledger amounts to as a document. -/
def LedgerStats.toJson (db : Path) (s : LedgerStats) : Json :=
  .object
    [("db_path", .string db.text), ("units", .ofNat s.units),
      ("by_enhancer", .object (s.byEnhancer.map fun (name, n) => (name, .ofNat n))),
      ("last_recorded_at", match s.lastRecordedAt with
        | some t => .ofNat t
        | none => .null)]

end ClassWeave

import ClassWeave.Files.OsPath
import ClassWeave.Json.Reader
import ClassWeave.Ledger.Fault
/-!
# Ledger -- what was written where

A ledger keeps one row for each output file: the unit it came from, the
digests of what was read and what was written, the passes, and the time.
Rows are kept by the absolute spelling of the output's path, read as text,
and a later row replaces an earlier one. What is kept of a row is its text,
as a document on one line.
-/


namespace ClassWeave

/-- What a ledger says about one output file. -/
structure LedgerRow where
  unit : String
  sourceSha256 : String
  outputSha256 : String
  enhancers : List String
  /-- Seconds since the epoch. -/
  recordedAt : Nat
  deriving DecidableEq, Repr

namespace LedgerRow

/-- A row as a document. -/
def toJson (r : LedgerRow) : Json :=
  .object
    [("unit", .string r.unit), ("source_sha256", .string r.sourceSha256),
      ("output_sha256", .string r.outputSha256), ("enhancers", .texts r.enhancers),
      ("recorded_at", .ofNat r.recordedAt)]

/-- The text that a row is kept as. -/
def encode (r : LedgerRow) : String := r.toJson.compact

/-- The row that a document describes. -/
def ofJson? : Json → Option LedgerRow
  | .object fields => do
    let unit ← (← Json.once? fields "unit").text?
    let source ← (← Json.once? fields "source_sha256").text?
    let output ← (← Json.once? fields "output_sha256").text?
    let enhancers ← (← Json.once? fields "enhancers").texts?
    let time ← (← Json.once? fields "recorded_at").nat?
    return ⟨unit, source, output, enhancers, time⟩
  | _ => none

/-- The row that a text stands for. -/
def decode? (s : String) : Option LedgerRow := (Json.parse? s).bind ofJson?

end LedgerRow

/-- The texts of the rows of a ledger by key. -/
abbrev LedgerTable := List (String × String)

/-- What the rows of a ledger amount to. -/
structure LedgerStats where
  units : Nat
  /-- How often each pass occurs, in the order of their names. -/
  byEnhancer : List (String × Nat)
  lastRecordedAt : Option Nat
  deriving DecidableEq, Repr

namespace LedgerTable

/-- The key of an output path: its absolute spelling, if it has one, read
as text, if that takes 1 to 511 octets. Octets that are no character are
replaced, so paths that are no text may have one key. -/
def key? (home output : OsPath) : Option String :=
  let text := ((output.absolute? home).getD output).lossy
  let size := (Utf8.encode text).length
  if 1 ≤ size ∧ size ≤ 511 then some text else none

/-- The table with a row put for a key. -/
def put (table : LedgerTable) (key : String) (row : LedgerRow) : LedgerTable :=
  (key, row.encode) :: table.filter fun p => p.1 != key

/-- The rows whose texts can be read. -/
def rows (table : LedgerTable) : List LedgerRow := table.filterMap fun p => LedgerRow.decode? p.2

/-- One more of a name, in a list in the order of names. -/
def countOne (name : String) : List (String × Nat) → List (String × Nat)
  | [] => [(name, 1)]
  | (other, n) :: rest =>
    if name = other then (other, n + 1) :: rest
    else if name < other then (name, 1) :: (other, n) :: rest
    else (other, n) :: countOne name rest

/-- How often each pass occurs in the rows. -/
def byEnhancer (table : LedgerTable) : List (String × Nat) :=
  (table.rows.flatMap LedgerRow.enhancers).foldl (fun counts name => countOne name counts) []

/-- What the rows amount to. One that cannot be read still counts as a
unit. -/
def stats (table : LedgerTable) : LedgerStats where
  units := table.length
  byEnhancer := table.byEnhancer
  lastRecordedAt := (table.rows.map LedgerRow.recordedAt).max?

end LedgerTable

end ClassWeave

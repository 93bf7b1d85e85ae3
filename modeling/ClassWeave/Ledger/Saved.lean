import ClassWeave.Ledger.Store
import ClassWeave.Toml.Reader
/-!
# Ledger -- the rows between two runs

Between two runs the rows of a ledger are kept in its file, as a table of
one key whose value lists the rows. A run takes them from there and leaves
the file's mark in their place; at its end the rows take the place of the
mark.
-/


namespace ClassWeave

namespace LedgerTable

/-! ## Writing -/

/-- A character between quotes. -/
def escapeChar (c : Char) : List Char :=
  if c = '"' then ['\\', '"']
  else if c = '\\' then ['\\', '\\']
  else if c.toNat < 0x20 ∨ c.toNat = 0x7F then
    "\\u00".toList ++ (Bytes.toHex [UInt8.ofNat c.toNat]).toList
  else [c]

def quote (s : String) : String :=
  String.ofList ('"' :: s.toList.flatMap escapeChar ++ ['"'])

/-- The text of a row with its key. -/
def rowText (p : String × String) : String :=
  "  \x7b key = " ++ quote p.1 ++ ", row = " ++ quote p.2 ++ " \x7d,\n"

/-- The text that rows are kept as. -/
def text (table : LedgerTable) : String :=
  "rows = [\n" ++ String.join (table.map rowText) ++ "]\n"

/-! ## Reading -/

/-- The text of a key. -/
def textAt? (fields : Toml.Fields) (key : String) : Option String :=
  match Toml.get? fields key with
  | some (.string s) => some s
  | _ => none

/-- The text of a row that a value holds, with its key. -/
def row? : Toml → Option (String × String)
  | .table fields => return (← textAt? fields "key", ← textAt? fields "row")
  | _ => none

/-- The rows that a ledger's file holds. -/
def ofBytes? (bytes : Bytes) : Option LedgerTable := do
  match Toml.get? (← Toml.parse? (← Utf8.decode? bytes)) "rows" with
  | some (.array rows) => rows.mapM row?
  | _ => none

end LedgerTable

namespace Workspace

/-- The workspace with the rows taken from the file of a ledger. A file
that holds no rows is left as it is. -/
def takeRows (w : Workspace) (p : Path) : Workspace :=
  match w.files.resolve true p with
  | .error _ => w
  | .ok loc =>
    match w.files.entry? loc with
    | some (.file bytes) =>
      match LedgerTable.ofBytes? bytes with
      | some table =>
        (w.withFiles (w.files.put loc (.file Ledger.fileMark))).putTable loc table
      | none => w
    | _ => w

/-- The files with the rows of every ledger put back into its file. -/
def filesWithRows (w : Workspace) : FileTree :=
  w.ledgers.foldl (fun t p =>
    if t.entry? p.1 = some (.file Ledger.fileMark)
    then t.put p.1 (.file (Utf8.encode (LedgerTable.text p.2))) else t) w.files

end Workspace

end ClassWeave

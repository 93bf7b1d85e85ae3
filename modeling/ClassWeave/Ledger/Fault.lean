import ClassWeave.Enhancer.Fault
import ClassWeave.Files.Fault
import ClassWeave.Files.Path
/-!
# Ledger -- what can go wrong with a ledger

The causes for which a ledger cannot be opened, written, read or removed,
and their wording.
-/


namespace ClassWeave

/-- Why the store of a ledger cannot be opened. -/
inductive StoreFault where
  /-- Its file cannot be reached or made. -/
  | file (fault : Fault)
  /-- It is open already. -/
  | alreadyOpen
  /-- Its file holds something else. -/
  | invalid
  deriving DecidableEq, Repr

/-- The wording of a store that cannot be opened. -/
def StoreFault.message : StoreFault → String
  | .file fault => fault.message
  | .alreadyOpen =>
    "environment already open in this program; close it to be able to open it again with different options"
  | .invalid => "MDB_INVALID: File is not an LMDB file"

/-- Why an operation on a ledger failed. -/
inductive LedgerError where
  | directoryNotMade (path : Path) (fault : Fault)
  | notOpened (path : Path) (cause : StoreFault)
  /-- A key of no octets or of more than 511. -/
  | badKeySize
  /-- The text kept for a key is no row. -/
  | unreadableRow (key : String)
  /-- A file of the ledger, of the kind named, stays. -/
  | notRemoved (kind : String) (path : Path) (fault : Fault)
  deriving DecidableEq, Repr

/-- The messages of a failed operation, the outermost first. -/
def LedgerError.messages : LedgerError → List String
  | .directoryNotMade p fault =>
    ["Failed to create ledger directory: " ++ p.text, fault.message]
  | .notOpened p cause => ["Failed to create/open ledger env: " ++ p.text, cause.message]
  | .badKeySize =>
    ["MDB_BAD_VALSIZE: Unsupported size of key/DB name/data, or wrong DUPFIXED size"]
  | .unreadableRow key => ["Failed to parse ledger row for " ++ key]
  | .notRemoved kind p fault =>
    ["Failed to remove " ++ kind ++ " file: " ++ p.text, fault.message]

def LedgerError.headline (e : LedgerError) : String := e.messages.headD ""

def LedgerError.message (e : LedgerError) : String := chained e.messages

end ClassWeave

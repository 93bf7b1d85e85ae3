import ClassWeave.Workspace
/-!
# Ledger -- opening, using and removing a ledger

A ledger is kept in a file with a lock file beside it; its rows are those
that the workspace has for the file's location. A ledger is opened by one
holder at a time. A file that is empty or not there yet becomes a ledger
with no rows.
-/


namespace ClassWeave

/-- An open ledger: the path it was opened by, and where it is kept. -/
structure Ledger where
  path : Path
  location : Location
  deriving DecidableEq, Repr

namespace Ledger

/-- What the file of a ledger, and its lock, hold. -/
def fileMark : Bytes := Utf8.encode "ledger"

/-- The path of the lock beside a ledger. -/
def lockPath (p : Path) : Path := p.extend "-lock"

/-- The files with the lock of a ledger made. -/
def makeLock (t : FileTree) (lock : Path) : Except Fault FileTree :=
  match t.stat lock with
  | .ok .directory => .error .isDirectory
  | .ok _ => .ok t
  | .error .missing => t.write lock fileMark
  | .error fault => .error fault

/-- Whether a path that leads nowhere yet is a name alone. Such a ledger
has no directory to be made in. -/
def isHomeless (t : FileTree) (p : Path) : Bool :=
  !t.reaches p && p.parent?.all fun q => q.text == ""

/-- The workspace with the store at a location open. -/
def openStore (w : Workspace) (held : List Location) (p : Path) :
    Workspace × Except StoreFault Location :=
  if isHomeless w.files p then (w, .error (.file .missing))
  else
    match w.files.resolve true p with
    | .error fault => (w, .error (.file fault))
    | .ok loc =>
      if loc ∈ held then (w, .error .alreadyOpen)
      else
        match makeLock w.files (lockPath p) with
        | .error fault => (w, .error (.file fault))
        | .ok files =>
          let w := w.withFiles files
          let fresh := (w.withFiles (files.put loc (.file fileMark))).putTable loc []
          match files.entry? loc with
          | none | some (.file []) => (fresh, .ok loc)
          | some (.file bytes) =>
            if bytes = fileMark then (w, .ok loc) else (w, .error .invalid)
          | some _ => (w, .error (.file .isDirectory))

/-- The ledger at a path, opened; `held` are the locations of those that
are open. -/
def open? (w : Workspace) (held : List Location) (p : Path) :
    Workspace × Except LedgerError Ledger :=
  match w.files.makeParents p with
  | (files, .error fault) =>
    (w.withFiles files, .error (.directoryNotMade (p.parent?.getD ⟨""⟩) fault))
  | (files, .ok ()) =>
    match openStore (w.withFiles files) held p with
    | (w, .error cause) => (w, .error (.notOpened p cause))
    | (w, .ok loc) => (w, .ok ⟨p, loc⟩)

/-- The workspace with a row recorded for an output. -/
def record (l : Ledger) (w : Workspace) (output : OsPath) (row : LedgerRow) :
    Except LedgerError Workspace :=
  match LedgerTable.key? w.home output with
  | none => .error .badKeySize
  | some key => .ok (w.putTable l.location ((w.table l.location).put key row))

/-- The row of an output. -/
def get (l : Ledger) (w : Workspace) (output : OsPath) : Except LedgerError (Option LedgerRow) :=
  match LedgerTable.key? w.home output with
  | none => .error .badKeySize
  | some key =>
    match (w.table l.location).lookup key with
    | none => .ok none
    | some text =>
      match LedgerRow.decode? text with
      | none => .error (.unreadableRow key)
      | some row => .ok (some row)

def stats (l : Ledger) (w : Workspace) : LedgerStats := (w.table l.location).stats

/-- The files without the one a path leads to, if it does. -/
def removeIfThere (t : FileTree) (p : Path) (kind : String) : Except LedgerError FileTree :=
  if t.reaches p then (t.remove p).mapError (.notRemoved kind p) else .ok t

/-- The workspace without a ledger and its lock. -/
def clear (w : Workspace) (p : Path) : Workspace × Except LedgerError Unit :=
  match removeIfThere w.files p "ledger" with
  | .error e => (w, .error e)
  | .ok files =>
    match removeIfThere files (lockPath p) "ledger lock" with
    | .error e => (w.withFiles files, .error e)
    | .ok files => (w.withFiles files, .ok ())

end Ledger

end ClassWeave

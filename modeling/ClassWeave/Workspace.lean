import ClassWeave.Enhancer.Chain
import ClassWeave.Event
import ClassWeave.Files.Tree
import ClassWeave.Ledger.Basic
/-!
# Workspace -- all that a run reads and changes

The files, the ledgers by where they are kept, the time, and what the run
has reported so far: its events and the calls of its passes, in order.
-/


namespace ClassWeave

/-- All that a run reads and changes. -/
structure Workspace where
  files : FileTree
  ledgers : List (Location × LedgerTable)
  /-- Seconds since the epoch. -/
  clock : Nat
  events : List Event
  calls : List PassCall

namespace Workspace

def home (w : Workspace) : Path := ⟨"/" ++ String.intercalate "/" w.files.home⟩

def report (w : Workspace) (events : List Event) : Workspace :=
  { w with events := w.events ++ events }

/-- The workspace with more calls of passes noted. -/
def noteCalls (w : Workspace) (calls : List PassCall) : Workspace :=
  { w with calls := w.calls ++ calls }

def withFiles (w : Workspace) (files : FileTree) : Workspace := { w with files := files }

/-- The rows of the ledger kept at a location. -/
def table (w : Workspace) (loc : Location) : LedgerTable := (w.ledgers.lookup loc).getD []

/-- The workspace with other rows in the ledger kept at a location. -/
def putTable (w : Workspace) (loc : Location) (table : LedgerTable) : Workspace :=
  { w with ledgers := (loc, table) :: w.ledgers.filter fun p => p.1 != loc }

end Workspace

end ClassWeave

import ClassWeave.Command.Run
import ClassWeave.Ledger.Saved
/-!
# Command -- which files a command has to do with

A command is run on a tree of files, and the tree need not be larger than
what the command may look at: first the files of its configuration, then,
with the configuration settled, the class tree, its destination, the class
path and the ledger, each with all that is below it. The rows of the ledger
are taken from its file before the command is run.
-/


namespace ClassWeave

namespace Invocation

/-- The files that the configuration is read from. -/
def configFiles (i : Invocation) : List Path := i.layers.files

/-- A ledger and its lock. -/
def ledgerFiles (i : Invocation) (c : Config) (dataDirectory : Path) : List Path :=
  match i.ledgerPath c dataDirectory with
  | some p => [p, Ledger.lockPath p]
  | none => []

/-- The files that a command works on, once its configuration is settled. -/
def footprint (i : Invocation) (c : Config) (dataDirectory : Path) : List Path :=
  let ledger := i.ledgerFiles c dataDirectory
  match i.command with
  | .enhance .. => [c.source, c.effectiveDestination] ++ ledger
  | .resolve _ classpath =>
    [c.source, c.effectiveDestination] ++ c.classpath ++ classpath ++ ledger
  | .inspect file => [file]
  | .stats | .clear => ledger

/-- The workspace with the rows of the command's ledger taken from its
file. -/
def takeRows (i : Invocation) (w : Workspace) (dataDirectory : Path) : Workspace :=
  match i.configure w.files with
  | .error _ => w
  | .ok c => (i.ledgerPath c dataDirectory).elim w w.takeRows

/-- The command, run with the rows that its ledger was left with. -/
def runSaved (i : Invocation) (w : Workspace) (dataDirectory : Path) : Conclusion :=
  i.run (i.takeRows w dataDirectory) [] dataDirectory

/-- What the log of a command says about events, at the level that its
configuration sets. -/
def eventLines (i : Invocation) (t : FileTree) (events : List Event) : List String :=
  match i.configure t with
  | .error _ => []
  | .ok c =>
    match LogFilter.parse? c.logLevel with
    | none => []
    | some filter => (events.filter fun e => filter.allows e.severity.level).map Event.line

end Invocation

end ClassWeave

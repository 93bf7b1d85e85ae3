import ClassWeave.Files.Tree
/-!
# Files -- what was changed between two trees

A run changes a tree as a value. What has to be done to the files
themselves is read off the tree before and the tree after: files and links
that are gone are removed, directories that are new are made, the outer
ones first, and files with other octets are written.
-/


namespace ClassWeave

/-- One thing to be done to a file or directory. -/
inductive Change where
  | remove (loc : Location)
  | makeDirectory (loc : Location)
  | write (loc : Location) (bytes : Bytes)
  deriving DecidableEq, Repr

namespace FileTree

/-- The removals that lead from one tree to another. -/
def removals (old new : FileTree) : List Change :=
  old.entries.filterMap fun (loc, _) =>
    if (new.entry? loc).isNone then some (.remove loc) else none

/-- The directories of a tree that another has not, outer ones first. -/
def newDirectories (old new : FileTree) : List Change :=
  let made := new.entries.filterMap fun (loc, e) =>
    if e = .directory ∧ old.entry? loc ≠ some .directory then some loc else none
  (made.mergeSort fun a b => a.length ≤ b.length).map .makeDirectory

/-- The files of a tree that another has not, or has with other octets. -/
def newFiles (old new : FileTree) : List Change :=
  new.entries.filterMap fun (loc, e) =>
    match e with
    | .file bytes => if old.entry? loc ≠ some e then some (.write loc bytes) else none
    | _ => none

/-- All that leads from one tree to another. -/
def changes (old new : FileTree) : List Change :=
  removals old new ++ newDirectories old new ++ newFiles old new

end FileTree

end ClassWeave

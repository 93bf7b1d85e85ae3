import ClassWeave.ClassFile.Name
import ClassWeave.Event
import ClassWeave.Files.Listing
/-!
# Scan -- the class files of a tree

A scan walks a class root and collects its class files with their octets.
It is fail-fast for each directory: the first entry of a directory that
cannot be listed or read is reported, and all that comes later in that
directory or below it is left out and only counted. Source files among
the class files are reported and passed over.
-/


namespace ClassWeave

/-- What is wrong with the tree rather than with one class. -/
inductive StructuralError where
  | missingRoot (path : Path)
  | notADirectory (path : Path)
  | unreadableEntry (path : Path) (cause : String)
  deriving DecidableEq, Repr

/-- The path that an error is about. -/
def StructuralError.path : StructuralError → Path
  | .missingRoot p | .notADirectory p | .unreadableEntry p _ => p

/-- The wording of an error. -/
def StructuralError.message : StructuralError → String
  | .missingRoot p => "class root not found: " ++ p.text
  | .notADirectory p => "class root is not a directory: " ++ p.text
  | .unreadableEntry p cause => "failed to read " ++ p.text ++ ": " ++ cause

/-- A class file that a scan found. -/
structure ScannedUnit where
  /-- The path from the class root. -/
  relative : Path
  path : Path
  bytes : Bytes
  deriving DecidableEq, Repr

/-- The name that a class file's place in the tree gives it. -/
def ScannedUnit.qualifiedName (u : ScannedUnit) : String := u.relative.qualifiedName

/-- What a scan found. -/
structure ScanReport where
  units : List ScannedUnit
  errors : List StructuralError
  /-- Source files among the class files. -/
  misplaced : List Path
  /-- How many entries were left out behind a failure. -/
  abandoned : Nat
  deriving DecidableEq, Repr

namespace Scan

/-- A scan under way: what it found, the directories it has given up, and
what it reported. -/
structure Progress where
  found : ScanReport
  closed : List (List String)
  events : List Event

/-- The path from the class root that names lead to. -/
def relativePath (names : List String) : Path := ⟨String.intercalate "/" names⟩

/-- The path of an entry, spelled from the root's own spelling. -/
def pathOf (root : Path) (names : List String) : Path :=
  names.foldl (fun p name => p.join ⟨name⟩) root

/-- A failure at an entry, which closes its directory. -/
def Progress.fail (s : Progress) (path : Path) (names : List String) (cause : String)
    (event : Event) : Progress :=
  { found := { s.found with errors := s.found.errors ++ [.unreadableEntry path cause] }
    closed := names.dropLast :: s.closed
    events := s.events ++ [event] }

/-- The scan after one more visit. -/
def Progress.visit (root : Path) (s : Progress) (v : Visit) : Progress :=
  let path := pathOf root v.names
  if s.closed.any fun d => d.isPrefixOf v.names then
    { s with found := { s.found with abandoned := s.found.abandoned + 1 } }
  else
    match v.sight with
    | .directory => s
    | .unlisted fault =>
      s.fail path v.names fault.message (.entryUnlisted path fault.message)
    | .file content =>
      let extension := (relativePath v.names).extension?
      if extension = some "class" then
        match content with
        | .ok bytes =>
          let u : ScannedUnit := ⟨relativePath v.names, path, bytes⟩
          { s with found := { s.found with units := s.found.units ++ [u] } }
        | .error fault =>
          s.fail path v.names fault.message (.classUnreadable path fault.message)
      else if extension = some "java" then
        { s with
          found := { s.found with misplaced := s.found.misplaced ++ [path] }
          events := s.events ++ [.sourceMisplaced path] }
      else s

/-- What the visits of a walk amount to. -/
def collect (root : Path) (visits : List Visit) : ScanReport × List Event :=
  let s := visits.foldl (Progress.visit root) ⟨⟨[], [], [], 0⟩, [], []⟩
  (s.found, s.events)

end Scan

/-- The class files under a root, with all below it or with its own
entries alone. A root spelled as a lone dash stands for standard input
and holds nothing. -/
def FileTree.scan (t : FileTree) (root : Path) (recursive : Bool) :
    Except StructuralError (ScanReport × List Event) :=
  if !t.reaches root then .error (.missingRoot root)
  else if !t.isDirectory root then .error (.notADirectory root)
  else if root.components = [.name "-"] then .ok (Scan.collect root [])
  else .ok (Scan.collect root (t.list root recursive).visits)

end ClassWeave

import ClassWeave.Command.Footprint
import ClassWeave.Command.Usage
import ClassWeave.Files.Change
import ClassWeave.Ledger.Saved
import Std.Time.DateTime.Timestamp
/-!
# Main -- the program

Reads the files that a command has to do with into a tree, runs the
command on it, and then does to the files what the run did to the tree.
The document goes to the standard output, and events and errors go to the
standard error.
-/


namespace ClassWeave

namespace Program

/-- The path of a location. -/
def pathOf (loc : Location) : String := "/" ++ String.intercalate "/" loc

/-- The location that an absolute path spells. -/
def locationOf (path : String) : Location := (Path.mk path).names

/-- The location that a path leads to in the end, if it leads anywhere. -/
def realLocation? (path : String) : IO (Option Location) := do
  match ← (IO.FS.realPath path).toBaseIO with
  | .ok real => return some (locationOf (toString real))
  | .error _ => return none

/-! ## Reading -/

/-- The names in the directory at a location, if there is one. -/
def namesIn? (loc : Location) : IO (Option (List String)) := do
  match ← (do (← IO.FS.realPath (pathOf loc)).readDir : IO _).toBaseIO with
  | .ok found => return some (found.toList.map IO.FS.DirEntry.fileName)
  | .error _ => return none

/-- What stands at a location, if it leads anywhere. A link is taken with
the location that it leads to in the end. -/
def entryAt? (loc : Location) : IO (Option Entry) := do
  match ← realLocation? (pathOf loc) with
  | none => return none
  | some place =>
    if place ≠ loc then return some (.link ⟨pathOf place⟩)
    else if (← namesIn? loc).isSome then return some .directory
    else
      match ← (IO.FS.readBinFile (pathOf loc)).toBaseIO with
      | .ok bytes => return some (.file bytes.toList)
      | .error _ => return none

/-- The tree with what stands at a location. -/
def take (t : FileTree) (loc : Location) : IO FileTree := do
  if (t.entry? loc).isSome then return t
  match ← entryAt? loc with
  | some e => return t.put loc e
  | none => return t

/-- The tree with what stands at a location and on the way to it. -/
def takeWay (t : FileTree) (loc : Location) : IO FileTree :=
  (List.range (loc.length + 1)).foldlM (fun t n => take t (loc.take n)) t

/-- A tree, and the locations below which it has all that is there. -/
structure Survey where
  tree : FileTree
  seen : List Location

/-- The survey with a location and all that is below it, links followed. A
name in a directory that leads nowhere is a link to nothing. -/
partial def Survey.below (s : Survey) (loc : Location) : IO Survey := do
  if loc ∈ s.seen then return s
  let s : Survey := ⟨← takeWay s.tree loc, loc :: s.seen⟩
  match s.tree.entry? loc with
  | some .directory =>
    ((← namesIn? loc).getD []).foldlM (fun s name => s.below (loc ++ [name])) s
  | some (.link target) => s.below (locationOf target.text)
  | some (.file _) => return s
  | none => return { s with tree := s.tree.put loc (.link ⟨""⟩) }

/-- The survey with one step of a path: where it stands by itself, and
where it leads. -/
def Survey.step (s : Survey) (p : Path) : IO Survey := do
  let up ← match p.parent?, p.components.getLast? with
    | some up, some (.name name) => do
      pure ((← realLocation? up.text).map (· ++ [name]))
    | _, _ => pure none
  let locations := up.toList ++ (← realLocation? p.text).toList
  return { s with tree := ← locations.foldlM takeWay s.tree }

/-- The survey with a path, step by step, and all that is below it. -/
def Survey.path (s : Survey) (p : Path) : IO Survey := do
  let spelled := (p.absolute? ⟨pathOf s.tree.home⟩).getD p
  let s ← spelled.ancestors.reverse.foldlM Survey.step s
  (← realLocation? spelled.text).toList.foldlM Survey.below s

/-- The files that a command has to do with. -/
def survey (i : Invocation) (data : Path) : IO FileTree := do
  let home := (← realLocation? ".").getD []
  let s : Survey := ⟨← takeWay ⟨home, []⟩ home, []⟩
  let s ← i.configFiles.foldlM Survey.path s
  match i.configure s.tree with
  | .error _ => return s.tree
  | .ok c => return (← (i.footprint c data).foldlM Survey.path s).tree

/-! ## Writing -/

/-- Does to the files one thing that was done to the tree. A file is
written beside its place and then moved there. -/
def carryOut : Change → IO Unit
  | .remove loc => IO.FS.removeFile (pathOf loc)
  | .makeDirectory loc => IO.FS.createDirAll (pathOf loc)
  | .write loc bytes => do
    let beside := pathOf loc ++ ".writing"
    IO.FS.writeBinFile beside ⟨bytes.toArray⟩
    IO.FS.rename beside (pathOf loc)

/-- The directory for user data. -/
def dataDirectory : IO Path := do
  match ← IO.getEnv "XDG_DATA_HOME", ← IO.getEnv "HOME" with
  | some data, _ => return ⟨data⟩
  | none, some home => return (Path.mk home).join ⟨".local/share"⟩
  | none, none => return ⟨"."⟩

/-- Seconds since the epoch. -/
def clock : IO Nat := do
  return (← Std.Time.Timestamp.now).toSecondsSinceUnixEpoch.val.toNat

/-- Runs the command of a command line. -/
def run (i : Invocation) : IO UInt32 := do
  let start ← IO.monoMsNow
  let data ← dataDirectory
  let files ← survey i data
  let w : Workspace :=
    { files := files, ledgers := [], clock := ← clock, events := [], calls := [] }
  let c := i.runSaved w data
  (files.changes c.workspace.filesWithRows).forM carryOut
  (i.eventLines files c.workspace.events).forM IO.eprintln
  if let some document := c.document then
    IO.println (document ((← IO.monoMsNow) - start)).pretty
  match c.error with
  | none => return 0
  | some e =>
    IO.eprintln ("Error: " ++ e.report)
    return 1

end Program

end ClassWeave

/-- Runs the command that the arguments tell. -/
def main (args : List String) : IO UInt32 :=
  match ClassWeave.Invocation.parse args with
  | .ok i => ClassWeave.Program.run i
  | .error e => do
    if e.exitCode = 0 then IO.println e.message else IO.eprintln e.message
    return UInt32.ofNat e.exitCode

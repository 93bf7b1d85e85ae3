import ClassWeave.Archive.Zip
import ClassWeave.ClassFile.Name
import ClassWeave.Enhancer.Fault
import ClassWeave.Files.Tree
/-!
# Classpath -- where classes outside the project are found

A class path is a row of directories and archives. A name is looked up in
one after the other, and the first that holds it gives its octets. What
does not hold the name, or is not there at all, is passed over; what
cannot be read ends the lookup.
-/


namespace ClassWeave

/-- Why a member of an archive cannot be had. -/
inductive ArchiveError where
  | unreadable (archive : Path) (cause : ZipFault)
  | memberUnreadable (member : String) (archive : Path) (cause : ZipFault)
  | notInflated (member : String) (archive : Path) (cause : ContentFault)
  deriving DecidableEq, Repr

/-- The messages of an error, the outermost first. -/
def ArchiveError.messages : ArchiveError → List String
  | .unreadable archive cause =>
    ("Failed to read zip structure: " ++ archive.text) :: cause.messages
  | .memberUnreadable member archive cause =>
    ("Failed to read " ++ member ++ " from " ++ archive.text) :: cause.messages
  | .notInflated member archive cause =>
    ["Failed to inflate " ++ member ++ " from " ++ archive.text, cause.message]

/-- Why a lookup ended without an answer. -/
inductive LookupError where
  | read (name : String) (path : Path) (fault : Fault)
  | archive (name : String) (path : Path) (cause : ArchiveError)
  deriving DecidableEq, Repr

/-- The messages of an error, the outermost first. -/
def LookupError.messages : LookupError → List String
  | .read name p fault => ["failed to read " ++ name ++ " from " ++ p.text, fault.message]
  | .archive name p cause =>
    ("failed to read " ++ name ++ " from archive " ++ p.text) :: cause.messages

/-- One place on a class path. -/
inductive ClasspathEntry where
  | directory (path : Path)
  | archive (path : Path)
  deriving DecidableEq, Repr

namespace ClasspathEntry

def path : ClasspathEntry → Path
  | .directory p | .archive p => p

/-- The entry that a path means: an archive if its extension says so,
whatever is there. -/
def ofPath (p : Path) : ClasspathEntry :=
  match p.extension? with
  | some e => if Text.lower e = "jar" ∨ Text.lower e = "zip" then .archive p else .directory p
  | none => .directory p

end ClasspathEntry

/-- The places where classes are looked up, in order. -/
abbrev Classpath := List ClasspathEntry

namespace FileTree

/-- The content of a member of an archive. An archive that is not there
has no members. -/
def readMember (t : FileTree) (archive : Path) (member : String) :
    Except ArchiveError (Option Bytes) :=
  match t.stat archive with
  | .ok (.file bytes) =>
    match Zip.ofBytes bytes with
    | .error cause => .error (.unreadable archive cause)
    | .ok z =>
      match z.find? member with
      | none => .ok none
      | some m =>
        match z.raw m with
        | .error cause => .error (.memberUnreadable member archive cause)
        | .ok raw =>
          match m.content raw with
          | .error cause => .error (.notInflated member archive cause)
          | .ok content => .ok (some content)
  | _ => .ok none

end FileTree

namespace ClasspathEntry

/-- What an entry has for a name. -/
def lookUp (t : FileTree) (name : String) : ClasspathEntry → Except LookupError (Option Bytes)
  | .directory d =>
    let p := d.join ⟨ClassFile.classPath name⟩
    match t.read p with
    | .ok bytes => .ok (some bytes)
    | .error .missing => .ok none
    | .error fault => .error (.read name p fault)
  | .archive a =>
    match t.readMember a (ClassFile.classPath name) with
    | .ok found => .ok found
    | .error cause => .error (.archive name a cause)

end ClasspathEntry

namespace Classpath

/-- The class path of paths. -/
def ofPaths (paths : List Path) : Classpath := paths.map .ofPath

/-- What the first entry that holds a name has for it. -/
def lookUp (t : FileTree) (name : String) : Classpath → Except LookupError (Option Bytes)
  | [] => .ok none
  | entry :: rest =>
    match entry.lookUp t name with
    | .error e => .error e
    | .ok (some bytes) => .ok (some bytes)
    | .ok none => lookUp t name rest

end Classpath

end ClassWeave

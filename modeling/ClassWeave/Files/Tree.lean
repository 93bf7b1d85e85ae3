import ClassWeave.Files.Fault
import ClassWeave.Files.Path
/-!
# Files -- a tree of files, and what can be done to it

A tree holds regular files, directories and symbolic links, each at its
location: the list of names that leads to it from the root, with no link
on the way. A path is resolved name by name, links followed, to a
location; every operation is a lookup or a change at one location, so
what it leaves alone can be read off it.

Operations that can fail after a change give the tree back with the
failure.
-/


namespace ClassWeave

/-- The names that lead to an entry from the root. -/
abbrev Location := List String

/-- What stands at a location. -/
inductive Entry where
  | file (bytes : Bytes)
  | directory
  | link (target : Path)
  deriving DecidableEq, Repr

/-- A tree of files, and the directory that relative paths start at. The
root is always a directory and is not listed. -/
structure FileTree where
  home : Location
  entries : List (Location × Entry)
  deriving Repr

namespace FileTree

/-! ## Locations -/

/-- What stands at a location. -/
def entry? (t : FileTree) (loc : Location) : Option Entry :=
  if loc = [] then some .directory else t.entries.lookup loc

/-- The tree with an entry put at a location, over what stood there. -/
def put (t : FileTree) (loc : Location) (e : Entry) : FileTree :=
  { t with entries := (loc, e) :: t.entries.filter fun p => p.1 != loc }

/-- The tree without what stood at a location. -/
def erase (t : FileTree) (loc : Location) : FileTree :=
  { t with entries := t.entries.filter fun p => p.1 != loc }

/-- The names in a directory, in no particular order. -/
def children (t : FileTree) (loc : Location) : List String :=
  t.entries.filterMap fun (l, _) =>
    match l.getLast? with
    | some name => if l.dropLast = loc then some name else none
    | none => none

/-! ## Resolving paths -/

/-- The steps a path takes, from the root or from where one stands. A
slash at the end asks for a directory, as one more lone dot does. -/
def steps (p : Path) : List String :=
  let named := (p.segments.filter fun s => !s.isEmpty).map String.ofList
  if p.text.toList.getLast? = some '/' then named ++ ["."] else named

/-- The location that steps lead to from another. Every step but the last
must be at a directory; what the last leads to need not be there. A link
is handed on with the steps that remain, unless it is last and is not to
be followed. -/
def chaseWith (t : FileTree) (follow : Bool)
    (onLink : Location → Path → List String → Except Fault Location) :
    Location → List String → Except Fault Location
  | loc, [] => .ok loc
  | loc, s :: rest =>
    match t.entry? loc with
    | none => .error .missing
    | some .directory =>
      if s = "." then chaseWith t follow onLink loc rest
      else if s = ".." then chaseWith t follow onLink loc.dropLast rest
      else if 255 < (Utf8.encode s).length then .error .nameTooLong
      else
        match t.entry? (loc ++ [s]) with
        | some (.link target) =>
          if rest.isEmpty && !follow then .ok (loc ++ [s]) else onLink loc target rest
        | _ => chaseWith t follow onLink (loc ++ [s]) rest
    | some _ => .error .notDirectory

/-- The location that steps lead to, over no more than `links` links. -/
def chase (t : FileTree) (follow : Bool) : Nat → Location → List String → Except Fault Location
  | 0 => chaseWith t follow fun _ _ _ => .error .tooManyLinks
  | links + 1 => chaseWith t follow fun loc target rest =>
      if target.text = "" then .error .missing
      else chase t follow links (if target.isRooted then [] else loc) (steps target ++ rest)

/-- The location that a path leads to. A link in the last place is
followed or not, as asked. -/
def resolve (t : FileTree) (follow : Bool) (p : Path) : Except Fault Location :=
  if p.text.toList.any (· == Char.ofNat 0) then .error .holdsNul
  else if p.text = "" then .error .missing
  else if 4096 ≤ (Utf8.encode p.text).length then .error .nameTooLong
  else chase t follow 40 (if p.isRooted then [] else t.home) (steps p)

/-! ## Looking -/

/-- What a path leads to, links followed. -/
def stat (t : FileTree) (p : Path) : Except Fault Entry := do
  match t.entry? (← t.resolve true p) with
  | some e => .ok e
  | none => .error .missing

/-- Whether a path leads anywhere. -/
def reaches (t : FileTree) (p : Path) : Bool :=
  match t.stat p with
  | .ok _ => true
  | .error _ => false

/-- Whether a path leads to a directory. -/
def isDirectory (t : FileTree) (p : Path) : Bool :=
  match t.stat p with
  | .ok .directory => true
  | _ => false

/-- Whether a path leads to a regular file. -/
def isFile (t : FileTree) (p : Path) : Bool :=
  match t.stat p with
  | .ok (.file _) => true
  | _ => false

/-- The octets of the file that a path leads to. -/
def read (t : FileTree) (p : Path) : Except Fault Bytes := do
  match ← t.stat p with
  | .file bytes => .ok bytes
  | _ => .error .isDirectory

/-! ## Changing -/

/-- The tree with a file's octets written. The file is made if it is not
there; its directory must be. -/
def write (t : FileTree) (p : Path) (bytes : Bytes) : Except Fault FileTree := do
  let loc ← t.resolve true p
  match t.entry? loc with
  | some .directory => .error .isDirectory
  | _ => .ok (t.put loc (.file bytes))

/-- A path without the slashes at its end. -/
def bare (p : Path) : Path :=
  ⟨String.ofList (match (p.text.toList.reverse.dropWhile (· == '/')).reverse with
    | [] => p.text.toList
    | cs => cs)⟩

/-- The tree with one more directory, in a directory that is there. -/
def makeDirectory (t : FileTree) (p : Path) : Except Fault FileTree := do
  let loc ← t.resolve false (bare p)
  match t.entry? loc with
  | some _ => .error .present
  | none => .ok (t.put loc .directory)

/-- The tree with a directory and all directories on the way to it made;
the path comes with its ancestors. One that is already there is kept. -/
def makeDirectoriesOf (t : FileTree) : List Path → FileTree × Except Fault Unit
  | [] => (t, .error .missing)
  | p :: up =>
    if p.text = "" then (t, .ok ())
    else
      match t.makeDirectory p with
      | .ok t => (t, .ok ())
      | .error .missing =>
        match t.makeDirectoriesOf up with
        | (t, .error e) => (t, .error e)
        | (t, .ok ()) =>
          match t.makeDirectory p with
          | .ok t => (t, .ok ())
          | .error e => (t, if t.isDirectory p then .ok () else .error e)
      | .error e => (t, if t.isDirectory p then .ok () else .error e)

/-- The tree with a directory and all directories on the way to it. -/
def makeDirectories (t : FileTree) (p : Path) : FileTree × Except Fault Unit :=
  t.makeDirectoriesOf p.ancestors

/-- The tree with the directory that a path is in, and all on the way to
it. A name alone is in the working directory, which is there. -/
def makeParents (t : FileTree) (p : Path) : FileTree × Except Fault Unit :=
  match p.parent? with
  | some q => if q.text = "" then (t, .ok ()) else t.makeDirectories q
  | none => (t, .ok ())

/-- Whether the last step of a path is a lone dot or `..`, which name no
entry of their own. -/
def endsInDots (p : Path) : Bool :=
  match (p.segments.filter fun s => !s.isEmpty).getLast? with
  | some s => s == ['.'] || s == ['.', '.']
  | none => p.isRooted

/-- The tree with a file or a link moved to another place, over what
stood there unless that is a directory. -/
def move (t : FileTree) (old new : Path) : Except Fault FileTree := do
  if new.text = "" then .error .missing
  else if endsInDots old || endsInDots new then .error .busy
  else
    let source ← t.resolve false old
    let place ← t.resolve false (bare new)
    match t.entry? source with
    | none => .error .missing
    | some e =>
      if (bare new) ≠ new then .error .notDirectory
      else if t.entry? place = some .directory then .error .isDirectory
      else .ok ((t.erase source).put place e)

/-- The tree without a file or a link. -/
def remove (t : FileTree) (p : Path) : Except Fault FileTree := do
  let loc ← t.resolve false p
  match t.entry? loc with
  | none => .error .missing
  | some .directory => .error .isDirectory
  | some _ => .ok (t.erase loc)

end FileTree

end ClassWeave

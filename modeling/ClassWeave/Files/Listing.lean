import ClassWeave.Files.Tree
/-!
# Files -- the listing of a directory and all below it

A listing is what one sees walking down from a directory: its entries in
the order of their names, links followed, each directory with its own
listing. A link that leads nowhere cannot be listed, nor can one that
leads back to a directory that the walk is in.

`Listing.visits` is the same listing laid out flat, each directory before
what it holds.
-/


namespace ClassWeave

/-- Why an entry cannot be listed. -/
inductive ListingFault where
  /-- The entry leads nowhere. -/
  | unreachable (path : Path) (fault : Fault)
  /-- The entry leads back to a directory that the walk is in. -/
  | cycle (path ancestor : Path)
  deriving DecidableEq, Repr

/-- The wording of a listing fault. -/
def ListingFault.message : ListingFault → String
  | .unreachable p fault =>
    p.text ++ ": IO error for operation on " ++ p.text ++ ": " ++ fault.message
  | .cycle p ancestor =>
    "File system loop found: " ++ p.text ++ " points to an ancestor " ++ ancestor.text

/-- The entries of a directory, first to last. -/
inductive Listing where
  | done
  /-- A regular file, and what reading it gives. -/
  | file (name : String) (content : Except Fault Bytes) (rest : Listing)
  /-- A directory, and what it holds. -/
  | directory (name : String) (inside rest : Listing)
  /-- An entry that cannot be listed. -/
  | unlisted (name : String) (fault : ListingFault) (rest : Listing)

/-- What a visit finds. -/
inductive Sight where
  | file (content : Except Fault Bytes)
  | directory
  | unlisted (fault : ListingFault)

/-- One step of a walk: the names that lead to an entry from the root of
the walk, and what it is. -/
structure Visit where
  names : List String
  sight : Sight

/-- The visits of a walk over a listing that `above` leads to. -/
def Listing.visitsFrom (above : List String) : Listing → List Visit
  | .done => []
  | .file name content rest => ⟨above ++ [name], .file content⟩ :: visitsFrom above rest
  | .directory name inside rest =>
    ⟨above ++ [name], .directory⟩ :: visitsFrom (above ++ [name]) inside ++ visitsFrom above rest
  | .unlisted name fault rest => ⟨above ++ [name], .unlisted fault⟩ :: visitsFrom above rest

/-- The visits of a walk over a listing. -/
def Listing.visits (l : Listing) : List Visit := l.visitsFrom []

namespace FileTree

/-- The order of names: by character number, which is also that of their
octets. -/
def nameLe (a b : String) : Bool := !(b < a)

/-- A directory that a walk is in: its path, and its location. -/
abbrev Stand := Path × Location

/-- The listing of named entries of a directory. The directories among
them are listed by `descend`, and the walk is in `stands`, innermost
first. -/
def listNames (t : FileTree) (descend : Path → Location → Listing)
    (path : Path) (loc : Location) (stands : List Stand) : List String → Listing
  | [] => .done
  | name :: names =>
    let p := path.join ⟨name⟩
    let rest := listNames t descend path loc stands names
    match t.entry? (loc ++ [name]) with
    | some (.link _) =>
      match t.resolve true p with
      | .error fault => .unlisted name (.unreachable p fault) rest
      | .ok place =>
        match t.entry? place with
        | some .directory =>
          match stands.find? fun s => s.2 == place with
          | some (ancestor, _) => .unlisted name (.cycle p ancestor) rest
          | none => .directory name (descend p place) rest
        | some _ => .file name (t.read p) rest
        | none => .unlisted name (.unreachable p .missing) rest
    | some .directory => .directory name (descend p (loc ++ [name])) rest
    | _ => .file name (t.read p) rest

/-- The listing of a directory down to a depth. -/
def listTo (t : FileTree) : Nat → List Stand → Path → Location → Listing
  | 0, _, _, _ => .done
  | depth + 1, stands, path, loc =>
    let stands := (path, loc) :: stands
    t.listNames (t.listTo depth stands) path loc stands
      ((t.children loc).mergeSort nameLe)

/-- More than the depth that any walk can reach: between two links that
it follows, each to a directory it is not in, it goes down at most as far
as the tree does. -/
def depthBound (t : FileTree) : Nat := (t.entries.length + 2) * (t.entries.length + 2)

/-- The listing of the directory that a path leads to, with all below it
or with its own entries alone. -/
def list (t : FileTree) (root : Path) (recursive : Bool) : Listing :=
  match t.resolve true root with
  | .error _ => .done
  | .ok loc => t.listTo (if recursive then t.depthBound else 1) [] root loc

end FileTree

end ClassWeave

import ClassWeave.Text.Utf8
import ClassWeave.Text.Basic
/-!
# Files -- paths as text

A path is text; slashes part it into segments. Most questions are about
its components: a leading slash is the root, a leading lone dot is the
place one stands at, `..` leads up, and all other empty segments and lone
dots mean nothing. Two paths are the same when their components are, but
a path keeps its own spelling, which messages repeat.

Paths and the names of files are Unicode text here, that is, their octets
are UTF-8. An operating system has others too; `OsPath` is for those.
-/


namespace ClassWeave

/-- A path, as it is spelled: any Unicode text. -/
structure Path where
  text : String
  deriving DecidableEq, Repr

namespace Path

/-! ## Components -/

/-- What a segment of a path means. -/
inductive Component where
  | root
  | here
  | up
  | name (text : String)
  deriving DecidableEq, Repr

def segments (p : Path) : List (List Char) := Text.pieces '/' p.text.toList

/-- Whether a path starts at the root. -/
def isRooted (p : Path) : Bool := p.text.toList.head? == some '/'

/-- A segment with no meaning inside a path. -/
def isIdle (s : List Char) : Bool := s.isEmpty || s == ['.']

/-- The meaning of a segment inside a path. -/
def componentOf? (s : List Char) : Option Component :=
  if isIdle s then none
  else if s = ['.', '.'] then some .up
  else some (.name (String.ofList s))

/-- What the path starts with, apart from the segments' own meaning. -/
def start (p : Path) : List Component :=
  if p.isRooted then [.root]
  else if p.segments.head? = some ['.'] then [.here]
  else []

def components (p : Path) : List Component :=
  p.start ++ p.segments.filterMap componentOf?

/-- Whether two spellings have the same components. -/
def same (p q : Path) : Bool := p.components == q.components

/-- The names among the components. -/
def names (p : Path) : List String :=
  p.components.filterMap fun
    | .name s => some s
    | _ => none

/-! ## Putting paths together -/

def ofSegments (segments : List (List Char)) : Path := ⟨String.ofList (Text.join '/' segments)⟩

/-- A path taken from the place that another leads to. A rooted path
forgets where it is taken from. -/
def join (p q : Path) : Path :=
  if q.isRooted then q
  else if p.text.toList.getLast?.all (· == '/') then ⟨p.text ++ q.text⟩
  else ⟨p.text ++ "/" ++ q.text⟩

/-- A path with something written right behind it. -/
def extend (p : Path) (tail : String) : Path := ⟨p.text ++ tail⟩

/-! ## The last component -/

/-- The segments of a path after its first, without the idle ones at the
end. -/
def tailSegments (p : Path) : List (List Char) :=
  (p.segments.tail.reverse.dropWhile isIdle).reverse

/-- The path that leads to where the last component is taken from; the
root and the empty path have none. -/
def parent? (p : Path) : Option Path :=
  let first := p.segments.headD []
  let tail := p.tailSegments
  if tail.isEmpty then
    if first.isEmpty then none else some ⟨""⟩
  else
    let rest := (tail.dropLast.reverse.dropWhile isIdle).reverse
    if first.isEmpty && rest.isEmpty then some ⟨"/"⟩
    else some (ofSegments (first :: rest))

/-- A path, its parent, and so on up. -/
def ancestors (p : Path) : List Path :=
  go p (p.segments.length + 1)
where
  go (p : Path) : Nat → List Path
    | 0 => [p]
    | n + 1 => p :: match p.parent? with
      | some q => go q n
      | none => []

/-- The segments up to the last that is not idle, which is a name. -/
def namedSegments? (p : Path) : Option (List (List Char) × List Char) :=
  let all := p.segments.headD [] :: p.tailSegments
  match all.getLast? with
  | none => none
  | some last =>
    if isIdle last || last == ['.', '.'] then none else some (all.dropLast, last)

/-- A name cut at its last dot. A name that only starts with a dot is not
cut. -/
def cutName (name : List Char) : List Char × Option (List Char) :=
  match Text.cutLast? '.' name with
  | none => (name, none)
  | some (stem, extension) => if stem.isEmpty then (name, none) else (stem, some extension)

def extension? (p : Path) : Option String :=
  p.namedSegments?.bind fun (_, name) => (cutName name).2.map String.ofList

/-- The path up to the stem of its last name. -/
def withoutExtension (p : Path) : Path :=
  match p.namedSegments? with
  | none => p
  | some (before, name) => ofSegments (before ++ [(cutName name).1])

/-- The names of a path, its extension left off, in qualified writing. -/
def qualifiedName (p : Path) : String :=
  String.intercalate "." p.withoutExtension.names

/-! ## Absolute spelling -/

/-- The spelling from the root, with idle segments left out: `..` stays,
and so does a slash at the end. Exactly two slashes in front stay two.
The empty path has none. -/
def absolute? (p home : Path) : Option Path :=
  if p.text = "" then none
  else
    let cs := p.text.toList
    let body := p.segments.filter fun s => !isIdle s
    let base : Path :=
      if !p.isRooted then home
      else if cs.take 2 = ['/', '/'] ∧ cs.take 3 ≠ ['/', '/', '/'] then ⟨"//"⟩
      else ⟨"/"⟩
    let full := body.foldl (fun q s => q.join ⟨String.ofList s⟩) base
    some (if cs.getLast? = some '/' then full.join ⟨""⟩ else full)

end Path

end ClassWeave

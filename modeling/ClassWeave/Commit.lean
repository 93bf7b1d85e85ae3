import ClassWeave.Bytes.Sha256
import ClassWeave.ClassUnit.Basic
import ClassWeave.Event
import ClassWeave.Files.Tree
/-!
# Commit -- writing a unit back

An enhanced unit is written beside its output first and then moved over
it, so that whoever reads the output sees the old octets or the new ones,
never half of them. If the move fails, what was written beside is removed
again.
-/


namespace ClassWeave

/-- What was written, and where. -/
structure CommitReceipt where
  path : Path
  size : Nat
  sha256 : String
  deriving DecidableEq, Repr

namespace FileTree

/-- The path that octets are written to before they are moved. -/
def draftPath (p : Path) : Path := p.extend ".enhancing"

/-- The tree with octets written at once, its directories made first. -/
def writeWhole (t : FileTree) (p : Path) (bytes : Bytes) : FileTree × Except Fault Unit :=
  match t.makeParents p with
  | (t, .error e) => (t, .error e)
  | (t, .ok ()) =>
    match t.write (draftPath p) bytes with
    | .error e => (t, .error e)
    | .ok t =>
      match t.move (draftPath p) p with
      | .ok t => (t, .ok ())
      | .error e =>
        match t.remove (draftPath p) with
        | .ok t => (t, .error e)
        | .error _ => (t, .error e)

end FileTree

namespace ClassUnit

/-- The octets of a unit that are to be written: those of an enhanced
unit, if there are any. -/
def output? (u : ClassUnit) : Option Bytes :=
  if u.state = .enhanced then u.enhanced.filter fun b => !b.isEmpty else none

/-- The tree with a unit written to its output, if it has anything to
write. -/
def commit (u : ClassUnit) (t : FileTree) :
    FileTree × Except PersistenceError (Option CommitReceipt) :=
  match u.output? with
  | none => (t, .ok none)
  | some bytes =>
    let p := u.location.output
    match t.writeWhole p bytes with
    | (t, .error fault) => (t, .error ⟨u.name, p, fault⟩)
    | (t, .ok ()) => (t, .ok (some ⟨p, bytes.length, Bytes.sha256Hex bytes⟩))

end ClassUnit

end ClassWeave

import ClassWeave.Commit
import ClassWeave.Job
/-!
# Files -- writing taken apart

What it takes to write an output, as the steps of a job on the files: each is
something that the operating system does at once, and others may do something
to the files in between.
-/


namespace ClassWeave

namespace FileTree

/-- A change of the files that is made at once, or fails and changes
nothing. -/
def attempt (change : FileTree → Except Fault FileTree) : Job FileTree (Except Fault Unit) :=
  Job.once fun t =>
    match change t with
    | .ok t => (t, .ok ())
    | .error fault => (t, .error fault)

/-- A directory that could not be made is looked for: it may be there. -/
def orThere (p : Path) : Except Fault Unit → Job FileTree (Except Fault Unit)
  | .ok () => return .ok ()
  | .error fault => do
    let there ← Job.look fun t => t.isDirectory p
    return if there then .ok () else .error fault

/-- A directory and all directories on the way to it, made one by one; the
path comes with its ancestors. -/
def directoriesJob : List Path → Job FileTree (Except Fault Unit)
  | [] => return .error .missing
  | p :: up =>
    if p.text = "" then return .ok ()
    else do
      match ← attempt fun t => t.makeDirectory p with
      | .error .missing =>
        match ← directoriesJob up with
        | .error fault => return .error fault
        | .ok () => orThere p (← attempt fun t => t.makeDirectory p)
      | made => orThere p made

/-- The directory that a path is in, and all on the way to it. -/
def parentsJob (p : Path) : Job FileTree (Except Fault Unit) :=
  match p.parent? with
  | some q => if q.text = "" then return .ok () else directoriesJob q.ancestors
  | none => return .ok ()

/-- Octets written beside their place and moved there, where its directory
is. All of a draft is there at once: nobody is to look at it before it is
moved. -/
def besideJob (p : Path) (bytes : Bytes) : Job FileTree (Except Fault Unit) := do
  match ← attempt fun t => t.write (draftPath p) bytes with
  | .error fault => return .error fault
  | .ok () =>
    match ← attempt fun t => t.move (draftPath p) p with
    | .ok () => return .ok ()
    | .error fault =>
      let _ ← attempt fun t => t.remove (draftPath p)
      return .error fault

/-- Octets written at once, their directories made first. -/
def writeJob (p : Path) (bytes : Bytes) : Job FileTree (Except Fault Unit) := do
  match ← parentsJob p with
  | .error fault => return .error fault
  | .ok () => besideJob p bytes

end FileTree

end ClassWeave

import ClassWeave.Config.Basic
import ClassWeave.Files.Tree
import ClassWeave.Toml.Reader
/-!
# Config -- the files that a configuration is made of

A configuration is layered: a base file, which need not be there, and then
one file for each configuration id, in the order in which the ids are
given. Each file is merged over those before it. A file that was named
before is left out where it is named again.
-/


namespace ClassWeave

/-- The files of a configuration: the base file if there is to be one, and
the directory and ids of the others. -/
structure ConfigLayers where
  base : Option Path
  directory : Path
  ids : List String
  deriving DecidableEq, Repr

namespace ConfigLayers

/-- The layers of a directory, with the base file that is usual in it. -/
def usual (directory : Path) (ids : List String) : ConfigLayers :=
  ⟨some (directory.join ⟨"enhance.toml"⟩), directory, ids⟩

/-- The file of an id; blanks around an id mean nothing. -/
def idFile (l : ConfigLayers) (id : String) : Path :=
  l.directory.join ⟨"enhance_" ++ Text.trimString id ++ ".toml"⟩

/-- Paths without those that were met before, under any spelling. -/
def dropRepeated : List Path → List Path → List Path
  | _, [] => []
  | met, p :: rest =>
    if met.any p.same then dropRepeated met rest else p :: dropRepeated (p :: met) rest

/-- All files that are named, in order. -/
def named (l : ConfigLayers) : List Path := l.base.toList ++ l.ids.map l.idFile

/-- The files, in order, each once. -/
def files (l : ConfigLayers) : List Path := dropRepeated [] l.named

/-- The table of a file. -/
def table (t : FileTree) (p : Path) : Except ConfigError Toml.Fields :=
  if !t.reaches p then .error (.notFound p)
  else
    match t.read p with
    | .error _ => .error (.unreadable p)
    | .ok bytes =>
      match Utf8.decode? bytes with
      | none => .error (.unreadable p)
      | some text =>
        match Toml.parse? text with
        | none => .error (.unparsable p)
        | some fields => .ok fields

/-- Fields with the tables of files merged over them, one after the
other. -/
def mergeAll (t : FileTree) : Toml.Fields → List Path → Except ConfigError Toml.Fields
  | fields, [] => .ok fields
  | fields, p :: rest =>
    match table t p with
    | .error e => .error e
    | .ok layer => mergeAll t (Toml.merge fields layer) rest

/-- The files that must be there: all but a base file that is not. -/
def required (l : ConfigLayers) (t : FileTree) : List Path :=
  match l.base, l.files with
  | some _, p :: rest => if t.reaches p then p :: rest else rest
  | _, files => files

/-- The table that the files make together. -/
def merged (l : ConfigLayers) (t : FileTree) : Except ConfigError Toml.Fields :=
  mergeAll t [] (l.required t)

/-- The settings that the files make together. -/
def load (l : ConfigLayers) (t : FileTree) : Except ConfigError Config :=
  match l.merged t with
  | .error e => .error e
  | .ok fields =>
    match Config.ofFields? fields with
    | none => .error .invalid
    | some c => .ok c

end ConfigLayers

end ClassWeave

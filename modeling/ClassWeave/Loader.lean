import ClassWeave.Classpath
import ClassWeave.Processor
import ClassWeave.UnitCache
/-!
# Loader -- classes on request, enhanced when first asked for

A loader answers names with classes that a host can define. Names of the
project's own tree are read from its source, processed once, and answered
with the unit's current octets from then on. Names in a reserved
namespace, array names and names that the tree does not have go to the
loader's parent, which may be a class path or anything else that gives
octets for names (`ParentResolver`), and what it gave for a name is kept
too. A renewed loader keeps nothing.
-/


namespace ClassWeave

/-- Where a class came from. -/
inductive ClassOrigin where
  /-- The project's own tree, through a unit in a state. -/
  | project (state : EnhancementState)
  /-- Whatever answers for all else. -/
  | parent
  deriving DecidableEq, Repr

/-- A class that can be defined; its names are in qualified writing. -/
structure DefinedClass where
  name : String
  superClass : Option String
  interfaces : List String
  accessFlags : UInt16
  origin : ClassOrigin
  bytes : Bytes
  deriving DecidableEq, Repr

def DefinedClass.sha256 (c : DefinedClass) : String := Bytes.sha256Hex c.bytes

/-- What makes a name no name of a class. -/
inductive NameFault where
  | empty
  | reservedCharacter
  | emptySegment
  deriving DecidableEq, Repr

/-- The wording of a name fault. -/
def NameFault.message : NameFault → String
  | .empty => "empty name"
  | .reservedCharacter => "contains a path separator or reserved character"
  | .emptySegment => "empty segment"

/-- Why a name was not answered with a class. -/
inductive LoadError where
  | notFound (name : String)
  | invalidName (name : String) (fault : NameFault)
  | lookup (error : LookupError)
  | malformed (name : String) (cause : ClassFile.FormatError)
  /-- The octets declare another name. -/
  | wrongName (requested found : String)
  | enhancement (name reason : String)
  deriving DecidableEq, Repr

/-- The messages of an error, the outermost first. -/
def LoadError.messages : LoadError → List String
  | .notFound name => ["class not found: " ++ name]
  | .invalidName name fault => [s!"invalid class name `{name}`: " ++ fault.message]
  | .lookup e => e.messages
  | .malformed name cause => ["malformed class file for " ++ name, cause.message]
  | .wrongName requested found => [requested ++ " resolved to bytes declaring " ++ found]
  | .enhancement name reason => ["enhancement of " ++ name ++ " failed: " ++ reason]

def LoadError.message (e : LoadError) : String := chained e.messages

namespace DefinedClass

/-- The class that octets define under the name they were asked for. -/
def define (requested : String) (bytes : Bytes) (origin : ClassOrigin) :
    Except LoadError DefinedClass :=
  match ClassFile.parse bytes with
  | .error cause => .error (.malformed requested cause)
  | .ok c =>
    if c.qualifiedName ≠ requested then .error (.wrongName requested c.qualifiedName)
    else
      .ok { name := c.qualifiedName
            superClass := c.superClass.map ClassFile.qualifiedOfInternal
            interfaces := c.interfaces.map ClassFile.qualifiedOfInternal
            accessFlags := c.accessFlags
            origin := origin
            bytes := bytes }

end DefinedClass

/-- What answers the names that the source tree has nothing for, with the
octets of a class, with nothing, or with an error; from the files, if it
reads any. -/
structure ParentResolver where
  lookUp : FileTree → String → Except LoadError (Option Bytes)

namespace ParentResolver

/-- A class path as a parent. -/
def ofClasspath (classpath : Classpath) : ParentResolver where
  lookUp t name := (classpath.lookUp t name).mapError .lookup

instance : Coe Classpath ParentResolver := ⟨ofClasspath⟩

/-- A parent that has no classes. -/
def noParent : ParentResolver where
  lookUp _ _ := .ok none

end ParentResolver

/-- What answers names: a source tree, where its output goes, and the
parent for all else; and what it has answered so far. -/
structure Loader where
  source : Path
  destination : Path
  processor : Processor
  parent : ParentResolver
  cache : UnitCache
  /-- The classes that the parent gave. -/
  delegated : List (String × DefinedClass)
  generation : Nat

namespace Loader

/-- A loader that has answered nothing. Without a destination, output goes
over the sources. -/
def fresh (source : Path) (destination : Option Path) (processor : Processor)
    (parent : ParentResolver) : Loader where
  source := source
  destination := destination.getD source
  processor := processor
  parent := parent
  cache := []
  delegated := []
  generation := 0

/-- The next generation of a loader, which has answered nothing. -/
def renew (l : Loader) : Loader :=
  { l with cache := [], delegated := [], generation := l.generation + 1 }

/-! ## Names -/

/-- A name as it is asked for, in qualified writing and without the blanks
around it. -/
def normalName (raw : String) : String := ClassFile.qualifiedOfInternal (Text.trimString raw)

/-- The characters that would lead a path elsewhere. -/
def isReserved (c : Char) : Bool := c == '\\' || c == Char.ofNat 0 || c == ':'

/-- What makes a name no name of a class, if anything does. -/
def nameFault? (name : String) : Option NameFault :=
  if name = "" then some .empty
  else if name.toList.any isReserved then some .reservedCharacter
  else if (Text.pieces '.' name.toList).any List.isEmpty then some .emptySegment
  else none

/-! ## Answers -/

/-- The answer of the parent, which is kept. -/
def delegate (l : Loader) (w : Workspace) (name : String) : Loader × Except LoadError DefinedClass :=
  match l.delegated.lookup name with
  | some c => (l, .ok c)
  | none =>
    match l.parent.lookUp w.files name with
    | .error e => (l, .error e)
    | .ok none => (l, .error (.notFound name))
    | .ok (some bytes) =>
      match DefinedClass.define name bytes .parent with
      | .error e => (l, .error e)
      | .ok c => ({ l with delegated := (name, c) :: l.delegated }, .ok c)

/-- The unit that the source tree has for a name, if it has one. Octets
that are no class file make a unit all the same; it fails when it is
processed. -/
def readLocal (l : Loader) (w : Workspace) (name : String) :
    Except LoadError (Option ClassUnit) :=
  let relative : Path := ⟨ClassFile.classPath name⟩
  let p := l.source.join relative
  match w.files.read p with
  | .error .missing => .ok none
  | .error fault => .error (.lookup (.read name p fault))
  | .ok bytes =>
    let u := ClassUnit.fresh name ⟨p, l.destination.join relative⟩ bytes
    match ClassFile.parse bytes with
    | .error _ => .ok (some u)
    | .ok c =>
      if c.qualifiedName = name then .ok (some u)
      else .error (.wrongName name c.qualifiedName)

/-- The unit for a name: the one that is kept, or else the source tree's. -/
def unit? (l : Loader) (w : Workspace) (name : String) : Except LoadError (Option ClassUnit) :=
  match l.cache.get? name with
  | some u => .ok (some u)
  | none => l.readLocal w name

/-- The workspace and the loader after a request, and the answer. -/
structure Response where
  workspace : Workspace
  loader : Loader
  answer : Except LoadError DefinedClass

/-- The answer of a unit of the source tree, which is processed and kept. -/
def answerLocal (l : Loader) (w : Workspace) (name : String) (u : ClassUnit) : Response :=
  let done := l.processor.process w u
  { workspace := done.workspace
    loader := { l with cache := l.cache.put name done.unit }
    answer :=
      if done.report.state = .failed then
        .error (.enhancement name (done.report.failure.getD ""))
      else DefinedClass.define name done.unit.current (.project done.report.state) }

/-- The loader with a slot for a name whose unit could not be loaded. -/
def reserve (l : Loader) (name : String) : Loader := { l with cache := l.cache.reserve name }

/-- The answer of the parent as a response. -/
def answerDelegated (l : Loader) (w : Workspace) (name : String) : Response :=
  ⟨w, (l.delegate w name).1, (l.delegate w name).2⟩

/-- The answer to a name. -/
def resolve (l : Loader) (w : Workspace) (raw : String) : Response :=
  let name := normalName raw
  if name.toList.head? = some '[' then l.answerDelegated w name
  else
    match nameFault? name with
    | some fault => ⟨w, l, .error (.invalidName name fault)⟩
    | none =>
      if (l.processor.filter.platformNamespace? name).isSome then l.answerDelegated w name
      else
        match l.unit? w name with
        | .error e => ⟨w, l.reserve name, .error e⟩
        | .ok none => (l.reserve name).answerDelegated w name
        | .ok (some u) => l.answerLocal w name u

end Loader

end ClassWeave

import ClassWeave.Enhancer.Chain
import ClassWeave.Text.Quoted
import ClassWeave.Toml.Value
/-!
# Enhancer -- the passes that a configuration asks for

A registration names a pass and gives it a version and options; its kind,
which is its name unless it says otherwise, tells what builds it. A
registry knows the kinds. A chain is built from registrations in order,
each under a name of its own.
-/


namespace ClassWeave

/-- A registration of a pass. -/
structure EnhancerSpec where
  name : String
  version : String
  /-- The kind, where one is given. -/
  declaredKind : Option String
  options : Toml.Fields

namespace EnhancerSpec

def id (s : EnhancerSpec) : EnhancerId := ⟨s.name, s.version⟩

/-- The kind, which is the name unless one is given. -/
def kind (s : EnhancerSpec) : String := s.declaredKind.getD s.name

/-- The text that an option has, if it has one. -/
def text? (s : EnhancerSpec) (key : String) : Option String :=
  match Toml.get? s.options key with
  | some (.string v) => some v
  | _ => none

end EnhancerSpec

/-- Why a pass cannot be built from its options. -/
inductive BuildFault where
  | noAttribute (name : String)
  | emptyAttribute (name : String)
  deriving DecidableEq, Repr

/-- The wording of a pass that cannot be built. -/
def BuildFault.message : BuildFault → String
  | .noAttribute name => s!"enhancer `{name}` needs an `attribute` key"
  | .emptyAttribute name => s!"enhancer `{name}` has an empty `attribute`"

/-- Why a chain cannot be built. -/
inductive RegistryError where
  | duplicate (name : String)
  | unknownKind (kind name : String) (known : List String)
  | notBuilt (id : EnhancerId) (fault : BuildFault)
  deriving DecidableEq, Repr

/-- The messages of a chain that cannot be built, the outermost first. -/
def RegistryError.messages : RegistryError → List String
  | .duplicate name => [s!"enhancer `{name}` is registered more than once"]
  | .unknownKind kind name known =>
    [s!"unknown enhancer kind `{kind}` for `{name}` (known: "
      ++ String.intercalate ", " known ++ ")"]
  | .notBuilt id fault => ["Failed to build enhancer `" ++ id.display ++ "`", fault.message]

/-- What builds the passes of a kind. -/
abbrev PassBuilder := EnhancerSpec → Except BuildFault Pass

/-- The kinds of pass and what builds them, in the order of their names. -/
abbrev Registry := List (String × PassBuilder)

namespace Registry

/-- The registry with a kind more, in place of one of the same name. -/
def register (r : Registry) (kind : String) (build : PassBuilder) : Registry :=
  (r.filter fun p => p.1 < kind) ++ (kind, build) :: r.filter fun p => kind < p.1

/-- Passes that add a fixed attribute, with the text of an option as its
payload. -/
def buildAttribute : PassBuilder := fun s =>
  match s.text? "attribute" with
  | none => .error (.noAttribute s.name)
  | some name =>
    if name = "" then .error (.emptyAttribute s.name)
    else .ok (.attributeTag s.id name (Utf8.encode ((s.text? "payload").getD "")))

/-- Passes that add a reload stamp. -/
def buildReloadStamp : PassBuilder := fun s => .ok (.reloadStamp s.id)

/-- The registry of the built-in kinds. -/
def builtin : Registry :=
  Registry.register (Registry.register [] "attribute" buildAttribute) "reload-stamp"
    buildReloadStamp

/-- The known kinds. -/
def kinds (r : Registry) : List String := r.map Prod.fst

/-- The pass of a registration. -/
def build (r : Registry) (s : EnhancerSpec) : Except RegistryError Pass :=
  match r.lookup s.kind with
  | none => .error (.unknownKind s.kind s.name r.kinds)
  | some build => (build s).mapError (.notBuilt s.id)

/-- The chain of registrations, after those whose names are taken. -/
def chainAfter (r : Registry) : List String → List EnhancerSpec → Except RegistryError Chain
  | _, [] => .ok []
  | taken, s :: rest =>
    if s.name ∈ taken then .error (.duplicate s.name)
    else do
      let p ← r.build s
      return p :: (← chainAfter r (s.name :: taken) rest)

/-- The chain of registrations. -/
def chain (r : Registry) (specs : List EnhancerSpec) : Except RegistryError Chain :=
  r.chainAfter [] specs

end Registry

/-- The identities of a chain in one line, each in quotes. -/
def Chain.listing (chain : Chain) : String :=
  "[" ++ String.intercalate ", " (chain.ids.map fun id => Quoted.encode id.display) ++ "]"

end ClassWeave

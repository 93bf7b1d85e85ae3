import ClassWeave.Files.Path
/-!
# Command -- the arguments of the command line

A command line is general options, a subcommand, and then the
subcommand's own options and names, among which general options may stand
as well. An option takes the next argument as its value, or what follows
an equals sign. After a lone double dash every argument is a name.

Options that are given on both sides of the subcommand count as given
after it. An option's value is looked at when the next option or name
comes, or at the end, and a level ends before the level above it.
-/


namespace ClassWeave

/-- What is wrong with a command line, or that help was asked for. -/
inductive UsageError where
  | unknownArgument
  | invalidSubcommand
  | missingArgument
  | argumentConflict
  /-- A value that is missing, or empty where it must not be. -/
  | invalidValue
  | unneededValue
  | help
  | helpOnMissing
  | missingSubcommand
  deriving DecidableEq, Repr

/-- What the program is told to do. -/
inductive Command where
  | enhance (noRecurse parallel keepGoing : Bool)
  | resolve (names : List String) (classpath : List Path)
  | inspect (file : Path)
  | stats
  | clear
  deriving DecidableEq, Repr

/-- A command line. -/
structure Invocation where
  command : Command
  /-- The base file of the configuration. -/
  config : Option Path
  configDirectory : Option Path
  ids : List String
  source : Option Path
  destination : Option Path
  ledger : Option Path
  noLedger : Bool
  logLevel : Option String
  deriving DecidableEq, Repr

namespace Arguments

/-- The levels of a command line: general options, or a subcommand. -/
inductive Level where
  | general
  | enhance
  | resolve
  | inspect
  | stats
  | clear
  deriving DecidableEq, Repr

/-- The subcommand of a name. -/
def Level.ofName? : String → Option Level
  | "enhance" => some .enhance
  | "resolve" => some .resolve
  | "inspect" => some .inspect
  | "stats" => some .stats
  | "clear" => some .clear
  | _ => none

/-- What takes values: options, and the names of a subcommand. -/
inductive Slot where
  | config
  | configDirectory
  | id
  | source
  | destination
  | ledger
  | logLevel
  | classpath
  | names
  | file
  deriving DecidableEq, Repr

/-- Whether more than one value may be given. -/
def Slot.isMany : Slot → Bool
  | .id | .classpath | .names => true
  | _ => false

/-- Whether a value is a path, which must not be empty. -/
def Slot.isPath : Slot → Bool
  | .id | .logLevel | .names => false
  | _ => true

/-- What is given or not. -/
inductive Flag where
  | noLedger
  | noRecurse
  | parallel
  | keepGoing
  | help
  deriving DecidableEq, Repr

/-- What a long option stands for. -/
inductive Meaning where
  | takes (s : Slot)
  | sets (f : Flag)
  deriving DecidableEq, Repr

/-- What an option stands for at a level. -/
def meaning? (level : Level) (name : String) : Option Meaning :=
  match level, name with
  | _, "config" => some (.takes .config)
  | _, "conf-dir" => some (.takes .configDirectory)
  | _, "id" => some (.takes .id)
  | _, "source" => some (.takes .source)
  | _, "destination" => some (.takes .destination)
  | _, "ledger" => some (.takes .ledger)
  | _, "log-level" => some (.takes .logLevel)
  | _, "no-ledger" => some (.sets .noLedger)
  | _, "help" => some (.sets .help)
  | .enhance, "no-recurse" => some (.sets .noRecurse)
  | .enhance, "parallel" => some (.sets .parallel)
  | .enhance, "keep-going" => some (.sets .keepGoing)
  | .resolve, "classpath" => some (.takes .classpath)
  | _, _ => none

/-! ## Taking arguments in -/

/-- What has been given at a level. -/
structure Given where
  values : List (Slot × String)
  flags : List Flag
  /-- An option or a name that has not been looked at yet, with its value
  if it has one. -/
  pending : Option (Slot × Option String)
  /-- Whether a lone double dash has been met. -/
  namesOnly : Bool
  deriving DecidableEq, Repr

namespace Given

/-- A level at which nothing has been given. -/
def nothing : Given := ⟨[], [], none, false⟩

def isNothing (g : Given) : Bool := g.values.isEmpty && g.flags.isEmpty

def value? (g : Given) (slot : Slot) : Option String :=
  ((g.values.filter fun p => p.1 == slot).map Prod.snd).getLast?

def all (g : Given) (slot : Slot) : List String :=
  (g.values.filter fun p => p.1 == slot).map Prod.snd

/-- The level with a value taken in. -/
def take (g : Given) (slot : Slot) (v : String) : Except UsageError Given :=
  if !slot.isMany && (g.value? slot).isSome then .error .argumentConflict
  else if slot.isPath && v == "" then .error .invalidValue
  else .ok { g with values := g.values ++ [(slot, v)] }

/-- The level with what is pending taken in. -/
def settle (g : Given) : Except UsageError Given :=
  match g.pending with
  | none => .ok g
  | some (_, none) => .error .invalidValue
  | some (slot, some v) => ({ g with pending := none }).take slot v

/-- Whether an option waits for the next argument. -/
def awaits? (g : Given) : Option Slot :=
  match g.pending with
  | some (slot, none) => if g.namesOnly then none else some slot
  | _ => none

/-- The level with a flag set. -/
def set (g : Given) (flag : Flag) : Except UsageError Given := do
  let g ← g.settle
  if flag = .help then throw .help
  else if flag ∈ g.flags then throw .argumentConflict
  else return { g with flags := g.flags ++ [flag] }

/-- The level with a long option taken in. -/
def option (level : Level) (g : Given) (name : String) (attached : Option String) :
    Except UsageError Given :=
  match meaning? level name, attached with
  | none, _ => .error .unknownArgument
  | some (.sets _), some _ => .error .unneededValue
  | some (.sets flag), none => g.set flag
  | some (.takes slot), some v => do (← g.settle).take slot v
  | some (.takes slot), none => do return { ← g.settle with pending := some (slot, none) }

/-- The level with short options taken in; there is but the one for help. -/
def short (g : Given) (letters : List Char) : Except UsageError Given :=
  if letters.head? = some 'h' then g.set .help else .error .unknownArgument

/-- The slot of the next name at a level. -/
def nameSlot? (level : Level) (g : Given) : Option Slot :=
  match level with
  | .resolve => some .names
  | .inspect =>
    if (g.value? .file).isSome ∨ (g.pending.map Prod.fst) = some .file then none else some .file
  | _ => none

/-- The level with a name taken in. -/
def name (level : Level) (g : Given) (arg : String) : Except UsageError Given :=
  match g.nameSlot? level with
  | none =>
    if level ≠ .general then .error .unknownArgument
    else if g.namesOnly && ((Level.ofName? arg).isSome || arg == "help") then
      .error .unknownArgument
    else .error .invalidSubcommand
  | some slot => do return { ← g.settle with pending := some (slot, some arg) }

/-- The level with an argument taken in that is no subcommand. -/
def argument (level : Level) (g : Given) (arg : String) : Except UsageError Given :=
  if g.namesOnly then g.name level arg
  else
    match arg.toList with
    | ['-', '-'] => .ok { g with namesOnly := true }
    | '-' :: '-' :: rest =>
      let name := String.ofList (rest.takeWhile (· ≠ '='))
      g.option level name ((rest.dropWhile (· ≠ '=')).tail?.map String.ofList)
    | '-' :: c :: rest => g.short (c :: rest)
    | _ =>
      match g.awaits? with
      | some slot => .ok { g with pending := some (slot, some arg) }
      | none => g.name level arg

/-- Whether what is given excludes each other. -/
def conflicts (g : Given) : Bool :=
  (g.value? .ledger).isSome && g.flags.contains .noLedger

end Given

/-! ## Levels -/

/-- The arguments of a subcommand. -/
def below (level : Level) : Given → List String → Except UsageError Given
  | g, [] => do
    let g ← g.settle
    if g.conflicts then throw .argumentConflict
    else if level = .resolve ∧ (g.value? .names).isNone then throw .missingArgument
    else if level = .inspect ∧ (g.value? .file).isNone then throw .missingArgument
    else return g
  | g, arg :: rest => do below level (← g.argument level arg) rest

/-- What asking for help about subcommands comes to. -/
def help (names : List String) : UsageError :=
  match names with
  | [] => .help
  | [name] => if (Level.ofName? name).isSome || name == "help" then .help else .invalidSubcommand
  | _ => .invalidSubcommand

/-- The arguments of a command line: what is given in front of the
subcommand, the subcommand, and what is given behind it. -/
def levels : Given → List String → Except UsageError (Given × Level × Given)
  | g, [] => do
    let g ← g.settle
    throw (if g.isNothing then .helpOnMissing else .missingSubcommand)
  | g, arg :: rest =>
    if !g.namesOnly && g.awaits?.isNone && arg == "help" then .error (help rest)
    else
      match if !g.namesOnly && g.awaits?.isNone then Level.ofName? arg else none with
      | some level => do
        let inner ← below level .nothing rest
        let g ← g.settle
        if g.conflicts then throw .argumentConflict else return (g, level, inner)
      | none => do levels (← g.argument .general arg) rest

/-- The command of a level. -/
def commandOf (g : Given) : Level → Command
  | .enhance =>
    .enhance (g.flags.contains .noRecurse) (g.flags.contains .parallel)
      (g.flags.contains .keepGoing)
  | .resolve => .resolve (g.all .names) ((g.all .classpath).map Path.mk)
  | .inspect => .inspect ⟨(g.value? .file).getD ""⟩
  | .stats => .stats
  | .general | .clear => .clear

end Arguments

/-- The command line that arguments are. -/
def Invocation.parse (args : List String) : Except UsageError Invocation := do
  let (outer, level, inner) ← Arguments.levels .nothing args
  let value (slot : Arguments.Slot) := (inner.value? slot).or (outer.value? slot)
  let ids := inner.all .id
  return {
    command := Arguments.commandOf inner level
    config := (value .config).map Path.mk
    configDirectory := (value .configDirectory).map Path.mk
    ids := if ids.isEmpty then outer.all .id else ids
    source := (value .source).map Path.mk
    destination := (value .destination).map Path.mk
    ledger := (value .ledger).map Path.mk
    noLedger := inner.flags.contains .noLedger || outer.flags.contains .noLedger
    logLevel := value .logLevel }

end ClassWeave

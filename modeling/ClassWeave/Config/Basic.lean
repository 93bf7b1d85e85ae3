import ClassWeave.Enhancer.Registry
import ClassWeave.Files.Path
/-!
# Config -- what a run is configured with

The settings of a run and their defaults, and how they are read from the
table of a configuration file. Keys that no setting has are passed over;
a setting of another type than it must have is refused.
-/


namespace ClassWeave

/-- The settings of a run. -/
structure Config where
  /-- The root of the class tree. -/
  source : Path
  /-- Where output goes; over the sources if not given. -/
  destination : Option Path
  recursive : Bool
  /-- Whether units may be processed at the same time; that shows in
  nothing but the order of events. -/
  parallel : Bool
  encoding : String
  logLevel : String
  ledger : Option Path
  /-- Further reserved namespaces. -/
  reserved : List String
  classpath : List Path
  enhancers : List EnhancerSpec

namespace Config

/-- The settings of an empty configuration. -/
def default : Config where
  source := ⟨"target/classes"⟩
  destination := none
  recursive := true
  parallel := false
  encoding := "UTF-8"
  logLevel := "warn"
  ledger := none
  reserved := []
  classpath := []
  enhancers := []

/-- Where output goes. -/
def effectiveDestination (c : Config) : Path := c.destination.getD c.source

/-! ## Reading -/

/-- A text. -/
def text? : Toml → Option String
  | .string s => some s
  | _ => none

def path? (v : Toml) : Option Path := (text? v).map Path.mk

/-- A yes or no. -/
def boolean? : Toml → Option Bool
  | .boolean b => some b
  | _ => none

/-- A row of values that are read alike. -/
def list? {α : Type} (item : Toml → Option α) : Toml → Option (List α)
  | .array items => items.mapM item
  | _ => none

/-- The setting of a key, or a default where the key is not there. -/
def setting {α : Type} (fields : Toml.Fields) (key : String) (read : Toml → Option α)
    (otherwise : α) : Option α :=
  match Toml.get? fields key with
  | some v => read v
  | none => some otherwise

/-- The keys of a registration that are no options. -/
def specKeys : List String := ["name", "version", "kind"]

/-- The registration that fields describe. -/
def specOfFields? (fields : Toml.Fields) : Option EnhancerSpec := do
  let name ← text? (← Toml.get? fields "name")
  let version ← setting fields "version" text? "1"
  let kind ← setting fields "kind" (fun v => (text? v).map some) none
  return ⟨name, version, kind, fields.filter fun p => !specKeys.contains p.1⟩

/-- The registration that a table describes. -/
def spec? : Toml → Option EnhancerSpec
  | .table fields => specOfFields? fields
  | _ => none

/-- The settings that fields describe. -/
def ofFields? (fields : Toml.Fields) : Option Config := do
  return {
    source := ← setting fields "source" path? default.source
    destination := ← setting fields "destination" (fun v => (path? v).map some) none
    recursive := ← setting fields "recursive" boolean? default.recursive
    parallel := ← setting fields "parallel" boolean? default.parallel
    encoding := ← setting fields "encoding" text? default.encoding
    logLevel := ← setting fields "log_level" text? default.logLevel
    ledger := ← setting fields "ledger" (fun v => (path? v).map some) none
    reserved := ← setting fields "platform_prefixes" (list? text?) []
    classpath := ← setting fields "classpath" (list? path?) []
    enhancers := ← setting fields "enhancers" (list? spec?) [] }

end Config

/-- Why there is no configuration to run with. -/
inductive ConfigError where
  | notFound (path : Path)
  /-- A file that cannot be read as text. -/
  | unreadable (path : Path)
  | unparsable (path : Path)
  /-- The tables do not describe settings. -/
  | invalid
  | unsupportedEncoding (name : String)
  | noSource
  deriving DecidableEq, Repr

/-- The wording of a configuration that is refused. -/
def ConfigError.message : ConfigError → String
  | .notFound p => "Config file not found: " ++ p.text
  | .unreadable p => "Failed to read config file: " ++ p.text
  | .unparsable p => "Failed to parse config file: " ++ p.text
  | .invalid => "Invalid enhancer configuration"
  | .unsupportedEncoding name =>
    s!"unsupported encoding `{name}`: attribute payloads are written as UTF-8"
  | .noSource => "`source` must not be empty"

namespace Config

/-- An encoding's name in small letters, without dashes and underscores. -/
def normalEncoding (name : String) : String :=
  String.ofList ((Text.lower name).toList.filter fun c => c != '-' && c != '_')

/-- Refuses settings that no run can have. -/
def validate (c : Config) : Except ConfigError Unit :=
  if normalEncoding c.encoding ≠ "utf8" then .error (.unsupportedEncoding c.encoding)
  else if c.source.text = "" then .error .noSource
  else .ok ()

end Config

end ClassWeave

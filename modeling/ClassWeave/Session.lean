import ClassWeave.Batch
import ClassWeave.Config.Basic
import ClassWeave.Loader
/-!
# Session -- a configuration put to use

A session holds a configuration and the processor that it describes, and
makes batches and loaders from the two. A ledger that cannot be opened is
reported, and the session goes on without one.
-/


namespace ClassWeave

/-- Why a session cannot be opened, or its tree not be walked. -/
inductive SessionError where
  | config (error : ConfigError)
  | registrations (error : RegistryError)
  | walk (root : Path) (error : StructuralError)
  deriving DecidableEq, Repr

/-- The messages of an error, the outermost first. -/
def SessionError.messages : SessionError → List String
  | .config e => [e.message]
  | .registrations e => "Invalid enhancer registration list" :: e.messages
  | .walk root e => ["Failed to walk class root: " ++ root.text, e.message]

/-- A configuration and the processor that it describes. -/
structure Session where
  config : Config
  processor : Processor

namespace Session

/-- The session of a configuration with a chain of one's own. -/
def ofChain (config : Config) (chain : Chain) (ledger : Option Ledger) : Session :=
  ⟨config, .ofChain chain config.reserved ledger⟩

/-- The ledger at a path, if there is to be one and it can be opened. -/
def openLedger (w : Workspace) (held : List Location) : Option Path → Workspace × Option Ledger
  | none => (w, none)
  | some p =>
    match Ledger.open? w held p with
    | (w, .ok ledger) => (w, some ledger)
    | (w, .error cause) => (w.report [.ledgerUnavailable p cause], none)

/-- The session of a configuration, its chain built from a registry; `held`
are the ledgers that are open already. -/
def ofConfig (registry : Registry) (w : Workspace) (held : List Location) (config : Config)
    (ledger : Option Path) : Except SessionError (Workspace × Session) :=
  match config.validate with
  | .error e => .error (.config e)
  | .ok () =>
    match registry.chain config.enhancers with
    | .error e => .error (.registrations e)
    | .ok chain =>
      let w := if chain.isEmpty then w.report [.noEnhancers] else w
      let opened := openLedger w held ledger
      .ok (opened.1, ofChain config chain opened.2)

def batch (s : Session) : Batch :=
  (Batch.fresh s.processor s.config.destination).withParallel s.config.parallel

/-- The session's class tree, run as a batch. -/
def runBatch (s : Session) (w : Workspace) : Except SessionError (Workspace × BatchReport) :=
  match s.batch.run w s.config.source s.config.recursive with
  | .error e => .error (.walk s.config.source e)
  | .ok (w, _, report) => .ok (w, report)

/-- A loader of the session, over the session's class path. -/
def loader (s : Session) : Loader :=
  .fresh s.config.source s.config.destination s.processor (Classpath.ofPaths s.config.classpath)

end Session

end ClassWeave

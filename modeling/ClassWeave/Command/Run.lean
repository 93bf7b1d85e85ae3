import ClassWeave.Command.Arguments
import ClassWeave.Config.Layers
import ClassWeave.Document
import ClassWeave.LogFilter
import ClassWeave.Session
/-!
# Command -- what each command does

A command settles its configuration and its log filter first, and then
does its work on the workspace. It ends with a document, with an error, or
with both where it did its work and part of it failed.
-/


namespace ClassWeave

namespace Invocation

/-- The directory of configuration files. -/
def directory (i : Invocation) : Path := i.configDirectory.getD ⟨"conf"⟩

/-- The files of the configuration. -/
def layers (i : Invocation) : ConfigLayers :=
  let usual := ConfigLayers.usual i.directory i.ids
  match i.config with
  | some p => { usual with base := some p }
  | none => usual

/-- The settings of the files with those of the command line over them. -/
def override (i : Invocation) (c : Config) : Config :=
  { c with
    source := i.source.getD c.source
    destination := i.destination.or c.destination
    logLevel := i.logLevel.getD c.logLevel }

/-- The configuration of a command line. A base file that is named there
must be there. -/
def configure (i : Invocation) (t : FileTree) : Except ConfigError Config :=
  match i.config.filter fun p => !t.reaches p with
  | some p => .error (.notFound p)
  | none =>
    match i.layers.load t with
    | .error e => .error e
    | .ok c =>
      match (i.override c).validate with
      | .error e => .error e
      | .ok () => .ok (i.override c)

/-- The ledger of a command line, if there is to be one: by itself it is
kept in the directory for user data. -/
def ledgerPath (i : Invocation) (c : Config) (dataDirectory : Path) : Option Path :=
  if i.noLedger then none
  else
    some ((i.ledger.or c.ledger).getD
      (dataDirectory.join ⟨"class-enhancer/ledger.lmdb"⟩))

end Invocation

/-- Why a command failed. -/
inductive CommandError where
  | config (error : ConfigError)
  | logFilter (text : String)
  | noLedger
  | ledger (error : LedgerError)
  | session (error : SessionError)
  | unitsFailed (failed persistence structural : Nat)
  | unresolved (failed total : Nat)
  | unreadable (file : Path) (fault : Fault)
  | notAClass (file : Path) (cause : ClassFile.FormatError)
  deriving DecidableEq, Repr

/-- The messages of a failed command, the outermost first. -/
def CommandError.messages : CommandError → List String
  | .config e => [e.message]
  | .logFilter text => ["Invalid log level/filter: " ++ text]
  | .noLedger => ["The ledger is disabled (--no-ledger)"]
  | .ledger e => e.messages
  | .session e => e.messages
  | .unitsFailed failed persistence structural =>
    [s!"{failed} unit(s) failed, {persistence} write-back error(s), {structural} unreadable entr(ies)"]
  | .unresolved failed total => [s!"{failed} of {total} name(s) could not be resolved"]
  | .unreadable file fault => ["Failed to read class file: " ++ file.text, fault.message]
  | .notAClass file cause => ["Not a class file: " ++ file.text, cause.message]

/-- The outermost message of a failed command. -/
def CommandError.message (e : CommandError) : String := e.messages.headD ""

/-- The messages below the outermost one, each on a line of its own; they
are numbered if there are several. -/
def CommandError.report (e : CommandError) : String :=
  match e.messages with
  | [] => ""
  | [message] => message
  | [message, cause] => message ++ "\n\nCaused by:\n    " ++ cause
  | message :: causes =>
    message ++ "\n\nCaused by:"
      ++ String.join (causes.zipIdx.map fun p => s!"\n    {p.2}: {p.1}")

/-- How a command ended. -/
structure Conclusion where
  workspace : Workspace
  /-- The document, which may also say how many milliseconds it took. -/
  document : Option (Nat → Json)
  error : Option CommandError

namespace Conclusion

/-- A command that came to nothing. -/
def failed (w : Workspace) (e : CommandError) : Conclusion := ⟨w, none, some e⟩

/-- A command that did all it was told. -/
def done (w : Workspace) (document : Json) : Conclusion := ⟨w, some fun _ => document, none⟩

/-- The report of a batch as a document. -/
def batchDocument (r : BatchReport) (elapsed : Nat) : Json :=
  .object (r.fields ++ [("elapsed_ms", .ofNat elapsed)])

/-- A class tree, enhanced. -/
def ofBatch (s : Session) (w : Workspace) (keepGoing : Bool) : Conclusion :=
  match s.runBatch w with
  | .error e => .failed w (.session e)
  | .ok (w, r) =>
    ⟨w, some (batchDocument r),
      if r.hasFailures && !keepGoing then
        some (.unitsFailed (r.count .failed) r.persistenceErrors r.structuralErrors.length)
      else none⟩

/-- The answers of a loader to names, one after the other. -/
def resolveAll (w : Workspace) (l : Loader) :
    List String → Workspace × List (String × Except LoadError DefinedClass)
  | [] => (w, [])
  | name :: rest =>
    let r := l.resolve w name
    let after := resolveAll r.workspace r.loader rest
    (after.1, (name, r.answer) :: after.2)

/-- An answer as a document. -/
def answerDocument (a : String × Except LoadError DefinedClass) : Json :=
  .object (("name", .string a.1) :: match a.2 with
    | .ok c => [("class", .object c.fields)]
    | .error e => [("error", .string e.message)])

/-- Whether an answer is an error. -/
def isFailure (a : String × Except LoadError DefinedClass) : Bool :=
  match a.2 with
  | .ok _ => false
  | .error _ => true

/-- Names, resolved by a loader of the session. -/
def ofNames (s : Session) (w : Workspace) (names : List String) : Conclusion :=
  let r := resolveAll w s.loader names
  let failed := (r.2.filter isFailure).length
  ⟨r.1,
    some fun elapsed => .object
      [("source", .string s.config.source.text), ("duration_ms", .ofNat elapsed),
        ("results", .array (r.2.map answerDocument))],
    if failed = 0 then none else some (.unresolved failed names.length)⟩

/-- A class file's header and its verdict. -/
def ofFile (c : Config) (w : Workspace) (file : Path) : Conclusion :=
  match w.files.read file with
  | .error fault => .failed w (.unreadable file fault)
  | .ok bytes =>
    match ClassFile.parse bytes with
    | .error cause => .failed w (.notAClass file cause)
    | .ok k =>
      let filter := EligibilityFilter.ofExtra c.reserved (c.enhancers.map EnhancerSpec.id)
      let u := ClassUnit.fresh k.qualifiedName (.inPlace file) bytes
      match filter.classify w.files u with
      | .error cause => .failed w (.notAClass file cause)
      | .ok (verdict, events) =>
        .done (w.report events) (.object
          [("file", .string file.text), ("name", .string k.qualifiedName),
            ("major_version", .ofNat k.major.toNat), ("minor_version", .ofNat k.minor.toNat),
            ("access_flags", .ofNat k.accessFlags.toNat),
            ("super_class", .ofText? (k.superClass.map ClassFile.qualifiedOfInternal)),
            ("interfaces", .texts (k.interfaces.map ClassFile.qualifiedOfInternal)),
            ("fields", .ofNat k.fieldCount), ("methods", .ofNat k.methodCount),
            ("attributes", .texts (k.attributes.map ClassFile.Attribute.name)),
            ("marker", match k.marker? with
              | some r => r.toJson
              | none => .null),
            ("verdict", verdict.toJson)])

/-- What the ledger amounts to. -/
def ofStats (w : Workspace) (held : List Location) (p : Path) : Conclusion :=
  match Ledger.open? w held p with
  | (w, .error e) => .failed w (.ledger e)
  | (w, .ok ledger) => .done w ((ledger.stats w).toJson p)

/-- The ledger, removed. -/
def ofClearing (w : Workspace) (p : Path) : Conclusion :=
  match Ledger.clear w p with
  | (w, .error e) => .failed w (.ledger e)
  | (w, .ok ()) => .done w (.object [("cleared", .string p.text)])

/-- Work in a session of a configuration. -/
def inSession (w : Workspace) (held : List Location) (c : Config) (ledger : Option Path)
    (work : Session → Workspace → Conclusion) : Conclusion :=
  match Session.ofConfig .builtin w held c ledger with
  | .error e => .failed w (.session e)
  | .ok (w, s) => work s w

end Conclusion

namespace Invocation

/-- The command of a command line with its configuration settled. -/
def runWith (i : Invocation) (w : Workspace) (held : List Location) (dataDirectory : Path)
    (c : Config) : Conclusion :=
  let ledger := i.ledgerPath c dataDirectory
  match i.command with
  | .enhance noRecurse parallel keepGoing =>
    let c := { c with
      recursive := c.recursive && !noRecurse
      parallel := c.parallel || parallel }
    Conclusion.inSession w held c ledger fun s w => Conclusion.ofBatch s w keepGoing
  | .resolve names classpath =>
    let c := { c with classpath := c.classpath ++ classpath }
    Conclusion.inSession w held c ledger fun s w => Conclusion.ofNames s w names
  | .inspect file => Conclusion.ofFile c w file
  | .stats =>
    match ledger with
    | some p => Conclusion.ofStats w held p
    | none => .failed w .noLedger
  | .clear =>
    match ledger with
    | some p => Conclusion.ofClearing w p
    | none => .failed w .noLedger

/-- The command of a command line, with the ledgers that are open already
and the directory for user data. -/
def run (i : Invocation) (w : Workspace) (held : List Location) (dataDirectory : Path) :
    Conclusion :=
  match i.configure w.files with
  | .error e => .failed w (.config e)
  | .ok c =>
    match LogFilter.parse? c.logLevel with
    | none => .failed w (.logFilter c.logLevel)
    | some _ => i.runWith w held dataDirectory c

end Invocation

end ClassWeave

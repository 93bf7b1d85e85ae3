import ClassWeave.Event
import ClassWeave.Text.Basic
/-!
# LogFilter -- which events are written to the log

A log filter is a row of directives between commas. A directive is a
level, by word or number, or names a target with or without a level. What
a run itself reports is under no target, so of the directives without one
the last counts; with no directive at all only errors are written.
-/


namespace ClassWeave

/-- The levels of log entries, gravest first. -/
inductive LogLevel where
  | error
  | warning
  | info
  | debug
  | trace
  deriving DecidableEq, Repr

/-- The place of a level, counted from the gravest. -/
def LogLevel.rank : LogLevel → Nat
  | .error => 1
  | .warning => 2
  | .info => 3
  | .debug => 4
  | .trace => 5

/-- The level at which an event is written. -/
def Severity.level : Severity → LogLevel
  | .warning => .warning
  | .error => .error

/-- A log filter: the rank up to which entries are written. -/
structure LogFilter where
  limit : Nat
  deriving DecidableEq, Repr

namespace LogFilter

/-- Whether entries of a level are written. -/
def allows (f : LogFilter) (level : LogLevel) : Bool := level.rank ≤ f.limit

/-- The number that digits write, with a plus in front or not. -/
def number? (cs : List Char) : Option Nat :=
  let digits := match cs with
    | '+' :: rest => rest
    | cs => cs
  if digits.isEmpty ∨ !digits.all fun c => '0' ≤ c && c ≤ '9' then none
  else some (digits.foldl (fun n c => n * 10 + (c.toNat - 48)) 0)

/-- The words for limits, from none on. -/
def words : List String := ["off", "error", "warn", "info", "debug", "trace"]

/-- The limit that a word or a number up to five means. -/
def limit? (cs : List Char) : Option Nat :=
  match (number? cs).filter (· ≤ 5) with
  | some n => some n
  | none => words.findIdx? (· == Text.lower (String.ofList cs))

/-- The characters that a directive may start with. -/
def isStart (c : Char) : Bool :=
  c.isAlphanum || c == '-' || c == ':' || c == '_' || (128 ≤ c.toNat && !Text.isBlank c)

/-- What a directive means. -/
inductive Directive where
  | limit (n : Nat)
  | target
  deriving DecidableEq, Repr

/-- The directive that text means. -/
def directive? (cs : List Char) : Option Directive :=
  match Text.trim cs with
  | [] => none
  | c :: _ =>
    if !isStart c ∨ '[' ∈ cs then none
    else
      match Text.cutFirst? '=' cs with
      | none => some (((limit? cs).map .limit).getD .target)
      | some (_, level) =>
        if level.isEmpty then some .target else (limit? level).map fun _ => .target

/-- The filter that directives make together. -/
def ofDirectives : List Directive → LogFilter
  | [] => ⟨LogLevel.error.rank⟩
  | directives =>
    ⟨(directives.filterMap fun
      | .limit n => some n
      | .target => none).getLastD 0⟩

/-- The filter that text means. -/
def parse? (s : String) : Option LogFilter :=
  (((Text.pieces ',' s.toList).filter fun p => !p.isEmpty).mapM directive?).map ofDirectives

end LogFilter

end ClassWeave

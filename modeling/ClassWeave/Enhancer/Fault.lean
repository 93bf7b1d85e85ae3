import ClassWeave.ClassFile.Error
import ClassWeave.Enhancer.Id
/-!
# Enhancer -- why a pass or a chain of passes failed

A failed pass gives its causes; a failed chain names the pass and the
unit. Messages are chained, the outermost first.
-/


namespace ClassWeave

/-- Messages in one line, the outermost first. -/
def chained (messages : List String) : String := String.intercalate ": " messages

/-- Why a pass failed. -/
inductive PassFault where
  /-- The octets it was given are no class file. -/
  | unreadable (unit : String) (cause : ClassFile.FormatError)
  /-- The class file does not take what it adds. -/
  | rejected (cause : ClassFile.FormatError)
  /-- Causes of its own, the outermost first. -/
  | reported (messages : List String)
  deriving DecidableEq, Repr

/-- The messages of a failed pass. -/
def PassFault.messages : PassFault → List String
  | .unreadable unit cause => ["failed to parse current bytes of " ++ unit, cause.message]
  | .rejected cause => [cause.message]
  | .reported messages => messages

/-- Why a chain stopped. -/
inductive ChainFault where
  /-- A pass failed. -/
  | pass (fault : PassFault)
  /-- A pass gave octets that are no class file. -/
  | malformedOutput (cause : ClassFile.FormatError)
  /-- The marker could not be added. -/
  | unstamped (cause : ClassFile.FormatError)
  deriving DecidableEq, Repr

/-- The messages of a stopped chain. -/
def ChainFault.messages : ChainFault → List String
  | .pass fault => fault.messages
  | .malformedOutput cause => ["pass produced a malformed class file", cause.message]
  | .unstamped cause => ["failed to stamp enhancement marker", cause.message]

/-- A chain that stopped at a pass of a unit. -/
structure ChainError where
  unit : String
  enhancer : EnhancerId
  cause : ChainFault
  deriving DecidableEq, Repr

def ChainError.message (e : ChainError) : String :=
  chained (("while applying " ++ e.enhancer.display ++ " on " ++ e.unit) :: e.cause.messages)

end ClassWeave

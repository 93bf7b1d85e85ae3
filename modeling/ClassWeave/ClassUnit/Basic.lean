import ClassWeave.ClassUnit.State
import ClassWeave.ClassUnit.Verdict
import ClassWeave.Files.Path
/-!
# ClassUnit -- one compiled class on its way through enhancement

A unit keeps the octets it was read with for good; passes replace its
enhanced octets as a whole. Its state moves only along the allowed steps,
and a step that is refused changes nothing.
-/


namespace ClassWeave

/-- Where a unit is read from and where it is written to. -/
structure UnitLocation where
  source : Path
  output : Path
  deriving DecidableEq, Repr

namespace UnitLocation

/-- The location of a unit that is written where it was read. -/
def inPlace (p : Path) : UnitLocation := ⟨p, p⟩

/-- Whether a unit is written where it was read. -/
def isInPlace (l : UnitLocation) : Bool := l.source.same l.output

end UnitLocation

/-- One compiled class. -/
structure ClassUnit where
  name : String
  location : UnitLocation
  /-- The octets that it was read with, which are kept for good. -/
  compiled : Bytes
  state : EnhancementState
  enhanced : Option Bytes
  skipReason : Option SkipReason
  failure : Option String
  deriving DecidableEq, Repr

namespace ClassUnit

/-- A unit that nothing has been done with. -/
def fresh (name : String) (location : UnitLocation) (compiled : Bytes) : ClassUnit where
  name := name
  location := location
  compiled := compiled
  state := .unprocessed
  enhanced := none
  skipReason := none
  failure := none

/-- The enhanced octets, or the compiled ones if there are none. -/
def current (u : ClassUnit) : Bytes := u.enhanced.getD u.compiled

/-- The unit with a new buffer of enhanced octets. -/
def install (u : ClassUnit) (bytes : Bytes) : ClassUnit := { u with enhanced := some bytes }

/-- The unit one step on. -/
def advance (u : ClassUnit) (next : EnhancementState) : Except StateError ClassUnit :=
  if u.state.canAdvance next then .ok { u with state := next }
  else .error ⟨u.name, u.state, next⟩

/-- The unit skipped for a reason. -/
def skip (u : ClassUnit) (reason : SkipReason) : Except StateError ClassUnit := do
  let u ← u.advance .skipped
  return { u with skipReason := some reason }

/-- The unit failed for a reason; one that was not in progress yet passes
through that state. -/
def fail (u : ClassUnit) (reason : String) : Except StateError ClassUnit := do
  let u ← if u.state = .unprocessed then u.advance .inProgress else .ok u
  let u ← u.advance .failed
  return { u with failure := some reason }

end ClassUnit

end ClassWeave

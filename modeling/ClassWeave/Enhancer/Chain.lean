import ClassWeave.ClassUnit.Basic
import ClassWeave.Enhancer.Pass
/-!
# Enhancer -- the chain of passes

A chain gives a unit to its passes in order, each seeing what the one
before it left. Whatever a pass gives must be a class file, and replaces
the unit's enhanced octets; the first pass that fails ends the chain.
Last of all the marker is added. Each call of a pass is recorded, failed
ones too.
-/


namespace ClassWeave

/-- The passes of a run, in order. -/
abbrev Chain := List Pass

/-- A call of a pass: its place in the chain, and what it was given. -/
structure PassCall where
  position : Nat
  enhancer : EnhancerId
  unit : String
  compiled : Bytes
  current : Bytes
  deriving DecidableEq, Repr

/-- What a chain made of a unit. -/
structure ChainOutcome where
  unit : ClassUnit
  calls : List PassCall
  error : Option ChainError
  deriving DecidableEq, Repr

namespace Chain

def ids (chain : Chain) : List EnhancerId := chain.map Pass.id

/-- The identity that a failure to add the marker is blamed on. -/
def markerId : EnhancerId := ⟨"marker", "0.0.1-beta"⟩

/-- The record that the chain leaves on a unit. -/
def record (chain : Chain) (u : ClassUnit) : MarkerRecord :=
  ⟨chain.ids, some (Bytes.sha256Hex u.compiled)⟩

/-- The call that gives a unit to a pass. -/
def callOf (position : Nat) (p : Pass) (u : ClassUnit) : PassCall :=
  ⟨position, p.id, u.name, u.compiled, u.current⟩

/-- A unit after one pass. -/
def applyPass (p : Pass) (u : ClassUnit) : Except ChainError ClassUnit :=
  match p.run ⟨u.name, u.compiled, u.current⟩ with
  | .error fault => .error ⟨u.name, p.id, .pass fault⟩
  | .ok none => .ok u
  | .ok (some bytes) =>
    match ClassFile.parse bytes with
    | .error cause => .error ⟨u.name, p.id, .malformedOutput cause⟩
    | .ok _ => .ok (u.install bytes)

/-- A unit after the passes from a place in the chain on. -/
def applyFrom (position : Nat) (u : ClassUnit) (calls : List PassCall) :
    List Pass → ChainOutcome
  | [] => ⟨u, calls, none⟩
  | p :: rest =>
    let calls := calls ++ [callOf position p u]
    match applyPass p u with
    | .error e => ⟨u, calls, some e⟩
    | .ok u => applyFrom (position + 1) u calls rest

/-- A unit with the marker added. -/
def stampUnit (chain : Chain) (u : ClassUnit) : Except ChainError ClassUnit :=
  match ClassFile.stamp u.current (chain.record u) with
  | .error cause => .error ⟨u.name, markerId, .unstamped cause⟩
  | .ok bytes => .ok (u.install bytes)

/-- A unit after the whole chain. -/
def apply (chain : Chain) (u : ClassUnit) : ChainOutcome :=
  let outcome := applyFrom 0 u [] chain
  match outcome.error with
  | some _ => outcome
  | none =>
    match chain.stampUnit outcome.unit with
    | .error e => { outcome with error := some e }
    | .ok u => { outcome with unit := u }

end Chain

end ClassWeave

import ClassWeave.Enhancer.Fault
import ClassWeave.Marker
/-!
# Enhancer -- passes

A pass looks at a unit's name, its compiled octets and what the passes
before it made of them, and gives new octets, or nothing if it has
nothing to do. The two built-in passes each add one attribute, and have
nothing to do where it is there already.
-/


namespace ClassWeave

/-- What a pass sees of a unit. -/
structure PassView where
  name : String
  compiled : Bytes
  current : Bytes
  deriving DecidableEq, Repr

/-- The class file that a pass sees. -/
def PassView.classFile (v : PassView) : Except PassFault ClassFile :=
  (ClassFile.parse v.current).mapError (.unreadable v.name)

/-- A transformation with an identity. -/
structure Pass where
  id : EnhancerId
  run : PassView → Except PassFault (Option Bytes)

namespace Pass

/-- Adds an attribute whose payload depends on the unit, unless there is
one of its name. -/
def adding (id : EnhancerId) (name : String) (payload : PassView → Bytes) : Pass where
  id := id
  run v := do
    let c ← v.classFile
    if c.hasAttribute name then return none
    match ClassFile.withAttribute v.current name (payload v) with
    | .ok bytes => return some bytes
    | .error cause => throw (.rejected cause)

/-- Adds a fixed attribute. -/
def attributeTag (id : EnhancerId) (name : String) (payload : Bytes) : Pass :=
  adding id name fun _ => payload

/-- The attribute that a reload stamp adds. -/
def reloadStampAttribute : String := "org.classenhancer.ReloadStamp"

/-- Adds the digest of the compiled octets, by which a host that reloads
classes knows whether two came from the same compilation. -/
def reloadStamp (id : EnhancerId) : Pass :=
  adding id reloadStampAttribute fun v => Utf8.encode (Bytes.sha256Hex v.compiled)

end Pass

end ClassWeave

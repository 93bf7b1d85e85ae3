import ClassWeave.Text.Basic
/-!
# Enhancer -- the identity of a pass

A pass is known by a name and a version, written `name@version`. The last
`@` of a writing parts the two, so a name may hold others.
-/


namespace ClassWeave

/-- The name and version of a pass. -/
structure EnhancerId where
  name : String
  version : String
  deriving DecidableEq, Repr

namespace EnhancerId

/-- The writing `name@version`. -/
def display (id : EnhancerId) : String := id.name ++ "@" ++ id.version

/-- The identity that a writing means, blanks around it left off; with no
`@` in it, it is a name without a version. -/
def parse (raw : String) : EnhancerId :=
  let cs := Text.trim raw.toList
  match Text.cutLast? '@' cs with
  | some (name, version) => ⟨String.ofList name, String.ofList version⟩
  | none => ⟨String.ofList cs, ""⟩

/-- Identities in one line, parted by commas. -/
def displayAll (ids : List EnhancerId) : String := String.intercalate "," (ids.map display)

end EnhancerId

end ClassWeave

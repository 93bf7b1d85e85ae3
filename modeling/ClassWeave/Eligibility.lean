import ClassWeave.ClassUnit.Basic
import ClassWeave.Event
import ClassWeave.Files.Tree
import ClassWeave.Marker
/-!
# Eligibility -- which units enter the chain

A unit is exempt by its name or by its structure; else it may have been
enhanced before, which shows in its own marker or in the marker of the
copy at its output. Names in a reserved namespace are the only ones that
a filter adds to; the passes that it expects only decide about warnings.
-/


namespace ClassWeave

/-- The reserved namespaces, each written with its dot, and the passes
that a marker is expected to name. -/
structure EligibilityFilter where
  reserved : List String
  expected : List EnhancerId
  deriving DecidableEq, Repr

namespace EligibilityFilter

/-- The namespaces that are always reserved. -/
def platformNamespaces : List String :=
  ["java.", "javax.", "jdk.", "sun.", "com.sun.", "org.w3c.dom.", "org.xml.sax."]

/-- A namespace written with its dot. -/
def dotted (s : String) : String :=
  if s.toList.getLast? = some '.' then s else s ++ "."

/-- Reserved namespaces with one more, unless it is there. -/
def addReserved (reserved : List String) (s : String) : List String :=
  if (dotted s) ∈ reserved then reserved else reserved ++ [dotted s]

/-- The filter that reserves more namespaces. -/
def ofExtra (extra : List String) (expected : List EnhancerId) : EligibilityFilter :=
  ⟨extra.foldl addReserved platformNamespaces, expected⟩

/-- The first reserved namespace that a name is in. -/
def platformNamespace? (f : EligibilityFilter) (name : String) : Option String :=
  f.reserved.find? fun s => s.toList.isPrefixOf name.toList

/-! ## Exemption -/

/-- Whether a name is that of an array. -/
def isArrayName (name : String) : Bool :=
  name.toList.head? == some '[' || ['[', ']'].isSuffixOf name.toList

/-- The last segment of a name. -/
def simpleName (sep : Char) (name : String) : String :=
  String.ofList ((Text.pieces sep name.toList).getLastD [])

/-- The exemption that a name alone gives. -/
def nameExemption? (f : EligibilityFilter) (name : String) : Option ExemptReason :=
  if isArrayName name then some .arrayType
  else
    match f.platformNamespace? name with
    | some s => some (.platform s)
    | none =>
      let simple := simpleName '.' name
      if simple = "package-info" ∨ simple = "package" then some .packageInfo
      else if simple = "module-info" then some .moduleInfo
      else none

/-- The exemption that the header of a class file gives. Annotation types
carry the flag of an interface too, so they are told first. -/
def structuralExemption? (c : ClassFile) : Option ExemptReason :=
  if c.hasFlag ClassFile.moduleFlag then some .moduleInfo
  else if c.hasFlag ClassFile.annotationFlag then some .annotationType
  else if c.hasFlag ClassFile.interfaceFlag then some .interfaceType
  else if c.hasFlag ClassFile.enumFlag then some .enumType
  else if simpleName '/' c.thisClass = "package-info" then some .packageInfo
  else none

/-! ## The verdict -/

/-- A warning if a marker names other passes than expected. A filter that
expects none never warns. -/
def compare (f : EligibilityFilter) (name : String) (r : MarkerRecord) : List Event :=
  if f.expected ≠ [] ∧ r.enhancers ≠ f.expected then
    [.otherEnhancers name r.enhancers f.expected]
  else []

/-- The marker of the class file that a path leads to, if it does. -/
def markerAt? (t : FileTree) (p : Path) : Option MarkerRecord :=
  match t.read p with
  | .error _ => none
  | .ok bytes =>
    match ClassFile.parse bytes with
    | .error _ => none
    | .ok c => c.marker?

/-- The marker of the copy at a unit's output, if the copy was made from
the unit's own octets. A unit that is written in place has no copy. -/
def freshCopy? (t : FileTree) (u : ClassUnit) : Option MarkerRecord :=
  if u.location.isInPlace then none
  else (markerAt? t u.location.output).filter fun r =>
    r.sourceSha256 == some (Bytes.sha256Hex u.compiled)

/-- What is to be done with a unit, and the warnings on the way. -/
def classify (f : EligibilityFilter) (t : FileTree) (u : ClassUnit) :
    Except ClassFile.FormatError (Verdict × List Event) :=
  match f.nameExemption? u.name with
  | some reason => .ok (.exempt reason, [])
  | none =>
    match ClassFile.parse u.compiled with
    | .error e => .error e
    | .ok c =>
      match structuralExemption? c with
      | some reason => .ok (.exempt reason, [])
      | none =>
        match c.marker? with
        | some r => .ok (.alreadyEnhanced .marker, f.compare u.name r)
        | none =>
          match freshCopy? t u with
          | some r => .ok (.alreadyEnhanced .outputCopy, f.compare u.name r)
          | none => .ok (.proceed, [])

end EligibilityFilter

end ClassWeave

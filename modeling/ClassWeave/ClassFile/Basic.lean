import ClassWeave.ClassFile.Name
import ClassWeave.ClassFile.Reader
/-!
# ClassFile -- a class file as it is used

The header of a class file with its names looked up, and its class-level
attributes. `parse` is the reading of octets: it succeeds on exactly the
files whose layout can be read, and shows that layout's view.
-/


namespace ClassWeave

/-- A class-level attribute. -/
structure ClassFile.Attribute where
  name : String
  data : Bytes
  deriving DecidableEq, Repr

/-- A class file with its names looked up, in internal writing. -/
structure ClassFile where
  minor : UInt16
  major : UInt16
  accessFlags : UInt16
  thisClass : String
  superClass : Option String
  interfaces : List String
  fieldCount : Nat
  methodCount : Nat
  attributes : List ClassFile.Attribute
  deriving DecidableEq, Repr

namespace ClassFile

/-! ## Flags -/

def interfaceFlag : UInt16 := 0x0200

/-- The flag of an annotation type, which is an interface too. -/
def annotationFlag : UInt16 := 0x2000

def enumFlag : UInt16 := 0x4000

def moduleFlag : UInt16 := 0x8000

/-- Whether any bit of a flag is set. -/
def hasFlag (c : ClassFile) (flag : UInt16) : Bool := c.accessFlags &&& flag != 0

/-! ## The view of a layout -/

/-- A class name that is known to be there. -/
def Pool.classNameD (p : Pool) (i : UInt16) : String :=
  match p.className i with
  | .ok name => name
  | .error _ => ""

/-- A text that is known to be there. -/
def Pool.textD (p : Pool) (i : UInt16) : String :=
  match p.text i with
  | .ok text => text
  | .error _ => ""

/-- What a layout says, its names looked up. -/
def Layout.view (l : Layout) : ClassFile :=
  let pool := l.pool
  { minor := l.minor
    major := l.major
    accessFlags := l.accessFlags
    thisClass := pool.classNameD l.thisClass
    superClass := if l.superClass = 0 then none else some (pool.classNameD l.superClass)
    interfaces := l.interfaces.map pool.classNameD
    fieldCount := l.fields.length
    methodCount := l.methods.length
    attributes := l.attributes.map fun a => ⟨pool.textD a.name, a.data⟩ }

def parse (bytes : Bytes) : Except FormatError ClassFile :=
  (Layout.read bytes).map Layout.view

/-! ## Reading a class file -/

/-- The name of the class, in qualified writing. -/
def qualifiedName (c : ClassFile) : String := qualifiedOfInternal c.thisClass

/-- The first attribute of a name. -/
def find? (c : ClassFile) (name : String) : Option Attribute :=
  c.attributes.find? fun a => a.name == name

/-- Whether there is an attribute of a name. -/
def hasAttribute (c : ClassFile) (name : String) : Bool := (c.find? name).isSome

end ClassFile

end ClassWeave

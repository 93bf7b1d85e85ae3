import ClassWeave.ClassFile.Basic
/-!
# ClassFile -- adding an attribute, and building a class from nothing

`withAttribute` adds one class-level attribute to a class file. The name
is put into the constant pool behind everything that is there, unless the
pool already holds it, so no index moves and all else stays as it is.
`skeleton` is the smallest class file of a name.
-/


namespace ClassWeave

namespace ClassFile

/-- The slot that holds a text, the first if there are several. -/
def Layout.indexOf? (l : Layout) (text : String) : Option Nat :=
  l.slots.findIdx? fun
    | some (.utf8 bytes) => Utf8.decode bytes == text
    | _ => false

/-- The layout with one more attribute. -/
def Layout.append (l : Layout) (name : String) (payload : Bytes) : Except FormatError Layout :=
  let nameBytes := Utf8.encode name
  if 4294967296 ≤ payload.length then .error (.attributeTooLarge name payload.length)
  else if 65536 ≤ nameBytes.length then .error (.attributeTooLarge name nameBytes.length)
  else if 65536 ≤ l.attributes.length + 1 then
    .error (.attributeTooLarge name (l.attributes.length + 1))
  else
    match l.indexOf? name with
    | some i =>
      .ok { l with attributes := l.attributes ++ [⟨UInt16.ofNat i, payload⟩] }
    | none =>
      if l.poolCount = 65535 then .error .poolFull
      else
        .ok { l with
          poolCount := l.poolCount + 1
          constants := l.constants ++ [.utf8 nameBytes]
          attributes := l.attributes ++ [⟨l.poolCount, payload⟩] }

/-- The octets of a class file with one more class-level attribute. -/
def withAttribute (bytes : Bytes) (name : String) (payload : Bytes) :
    Except FormatError Bytes := do
  let l ← Layout.read bytes
  let l ← l.append name payload
  return l.encode

/-- A class with a name, flags and perhaps a super class, and nothing
else, in the format of version 52. Names are written whole, though only
the low sixteen bits of their length are. -/
def Layout.skeleton (name : String) (superName : Option String) (flags : UInt16) : Layout where
  minor := 0
  major := 52
  poolCount := if superName.isSome then 5 else 3
  constants :=
    [.utf8 (Utf8.encode name), .classRef 1]
      ++ match superName with
        | some superName => [.utf8 (Utf8.encode superName), .classRef 3]
        | none => []
  accessFlags := flags
  thisClass := 2
  superClass := if superName.isSome then 4 else 0
  interfaces := []
  fields := []
  methods := []
  attributes := []

/-- The octets of the smallest class file of a name. -/
def skeleton (name : String) (superName : Option String) (flags : UInt16) : Bytes :=
  (Layout.skeleton name superName flags).encode

end ClassFile

end ClassWeave

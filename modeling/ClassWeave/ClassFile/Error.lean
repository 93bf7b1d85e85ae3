import ClassWeave.Bytes.Basic
/-!
# ClassFile -- what can be wrong with a class file

The causes for which octets are refused as a class file, or an attribute
is refused by one, and their wording.
-/


namespace ClassWeave

namespace ClassFile

/-- Why octets are no class file, or why an attribute cannot be added. -/
inductive FormatError where
  /-- The file does not start with the magic number. -/
  | badMagic (found : UInt32)
  /-- `needed` octets were asked for at `offset`, and the file ends first. -/
  | truncated (offset needed : Nat)
  /-- A constant with a tag that no constant has. -/
  | unknownTag (tag : UInt8) (index : Nat)
  /-- An index that does not lead to the kind of constant it must. -/
  | badReference (index : UInt16) (expected : String)
  /-- No slot is left for another constant. -/
  | poolFull
  /-- A name, a payload or a list of attributes over its limit. -/
  | attributeTooLarge (name : String) (size : Nat)
  /-- Octets after the last attribute. -/
  | trailing (count : Nat)
  deriving DecidableEq, Repr

/-- The wording of a refusal. -/
def FormatError.message : FormatError → String
  | .badMagic found => "not a class file (magic 0x" ++ Bytes.toHex (Bytes.ofLong found) ++ ")"
  | .truncated offset needed =>
    s!"truncated class file: {needed} bytes needed at offset {offset}"
  | .unknownTag tag index => s!"unknown constant pool tag {tag} at index {index}"
  | .badReference index expected => s!"constant pool index {index} is not a {expected} entry"
  | .poolFull => "constant pool is full"
  | .attributeTooLarge name size => s!"attribute `{name}` is too large ({size} bytes)"
  | .trailing count => s!"{count} trailing bytes after class attributes"

end ClassFile

end ClassWeave

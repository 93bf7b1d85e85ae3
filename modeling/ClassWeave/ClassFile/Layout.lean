import ClassWeave.Text.Utf8
import ClassWeave.ClassFile.Error
/-!
# ClassFile -- the layout of a class file

A class file as its octets lay it out, with indices into the constant
pool left as numbers: versions, constants, flags, the class's own name
and its relations, members and attributes. `Layout.encode` writes it.

The constant pool has numbered slots. Slot 0 is never used, and a `long`
or `double` constant takes the slot after its own as well, which is
unusable (`Layout.slots`). The declared count bounds the slots, and a
wide constant in the last of them loses its second slot.
-/


namespace ClassWeave

namespace ClassFile

/-! ## Constants -/

/-- The kinds of constant whose body has a fixed size and plays no part
in naming. -/
inductive ConstantKind where
  | integer
  | float
  | long
  | double
  | string
  | fieldRef
  | methodRef
  | interfaceMethodRef
  | nameAndType
  | methodHandle
  | methodType
  | dynamic
  | invokeDynamic
  | moduleName
  | packageName
  deriving DecidableEq, Repr

/-- The octet that announces a constant of a kind. -/
def ConstantKind.tag : ConstantKind → UInt8
  | .integer => 3
  | .float => 4
  | .long => 5
  | .double => 6
  | .string => 8
  | .fieldRef => 9
  | .methodRef => 10
  | .interfaceMethodRef => 11
  | .nameAndType => 12
  | .methodHandle => 15
  | .methodType => 16
  | .dynamic => 17
  | .invokeDynamic => 18
  | .moduleName => 19
  | .packageName => 20

/-- The kind that a tag announces. -/
def ConstantKind.ofTag? (tag : UInt8) : Option ConstantKind :=
  match tag.toNat with
  | 3 => some .integer
  | 4 => some .float
  | 5 => some .long
  | 6 => some .double
  | 8 => some .string
  | 9 => some .fieldRef
  | 10 => some .methodRef
  | 11 => some .interfaceMethodRef
  | 12 => some .nameAndType
  | 15 => some .methodHandle
  | 16 => some .methodType
  | 17 => some .dynamic
  | 18 => some .invokeDynamic
  | 19 => some .moduleName
  | 20 => some .packageName
  | _ => none

/-- The number of octets after the tag. -/
def ConstantKind.size : ConstantKind → Nat
  | .long | .double => 8
  | .integer | .float | .fieldRef | .methodRef | .interfaceMethodRef | .nameAndType
  | .dynamic | .invokeDynamic => 4
  | .methodHandle => 3
  | .string | .methodType | .moduleName | .packageName => 2

/-- The kinds that take two slots. -/
def ConstantKind.isWide : ConstantKind → Bool
  | .long | .double => true
  | _ => false

theorem ConstantKind.ofTag?_tag (kind : ConstantKind) : ofTag? kind.tag = some kind := by
  cases kind <;> rfl

/-- A constant of the pool. -/
inductive Constant where
  /-- Text, up to 65535 octets. -/
  | utf8 (text : Bytes)
  /-- A class, by the index of its name. -/
  | classRef (name : UInt16)
  /-- Any other constant, its body unread. -/
  | other (kind : ConstantKind) (body : Bytes)
  deriving DecidableEq, Repr

/-- A constant that takes two slots. -/
def Constant.isWide : Constant → Bool
  | .other kind _ => kind.isWide
  | _ => false

/-- The octets of a constant: its tag, and its body. -/
def Constant.encode : Constant → Bytes
  | .utf8 text => 1 :: Bytes.ofWord (UInt16.ofNat text.length) ++ text
  | .classRef name => 7 :: Bytes.ofWord name
  | .other kind body => kind.tag :: body

/-- The lengths that a constant's octets can hold. -/
def Constant.Fits : Constant → Prop
  | .utf8 text => text.length < 65536
  | .classRef _ => True
  | .other kind body => body.length = kind.size

/-! ## Attributes and members -/

/-- An attribute: the index of its name, and its payload. -/
structure AttributeEntry where
  name : UInt16
  data : Bytes
  deriving DecidableEq, Repr

def AttributeEntry.encode (a : AttributeEntry) : Bytes :=
  Bytes.ofWord a.name ++ Bytes.ofLong (UInt32.ofNat a.data.length) ++ a.data

/-- A field or a method: six octets of flags and indices, and its own
attributes. -/
structure Member where
  header : Bytes
  attributes : List AttributeEntry
  deriving DecidableEq, Repr

/-- The octets of a counted list of items. -/
def encodeCounted {α : Type} (encode : α → Bytes) (items : List α) : Bytes :=
  Bytes.ofWord (UInt16.ofNat items.length) ++ items.flatMap encode

def Member.encode (m : Member) : Bytes :=
  m.header ++ encodeCounted AttributeEntry.encode m.attributes

/-! ## The whole file -/

/-- A class file, its indices unresolved. -/
structure Layout where
  minor : UInt16
  major : UInt16
  /-- The declared number of slots, slot 0 included. -/
  poolCount : UInt16
  constants : List Constant
  accessFlags : UInt16
  thisClass : UInt16
  /-- Zero where there is no super class. -/
  superClass : UInt16
  interfaces : List UInt16
  fields : List Member
  methods : List Member
  attributes : List AttributeEntry
  deriving DecidableEq, Repr

/-- The first four octets of every class file. -/
def magic : UInt32 := 0xCAFEBABE

namespace Layout

/-- What stands between the constants and the class's attributes: flags,
names, members. -/
def encodeBody (l : Layout) : Bytes :=
  Bytes.ofWord l.accessFlags ++ Bytes.ofWord l.thisClass ++ Bytes.ofWord l.superClass
    ++ encodeCounted Bytes.ofWord l.interfaces
    ++ encodeCounted Member.encode l.fields ++ encodeCounted Member.encode l.methods

/-- The octets of a class file. -/
def encode (l : Layout) : Bytes :=
  Bytes.ofLong magic ++ Bytes.ofWord l.minor ++ Bytes.ofWord l.major
    ++ Bytes.ofWord l.poolCount ++ l.constants.flatMap Constant.encode
    ++ l.encodeBody ++ encodeCounted AttributeEntry.encode l.attributes

/-- The slots a constant takes: its own, and an unusable one after it if
it is wide. -/
def slotsOf (c : Constant) : List (Option Constant) :=
  if c.isWide then [some c, none] else [some c]

/-- The slots of the pool, numbered from 0, as many as are declared. -/
def slots (l : Layout) : List (Option Constant) :=
  (none :: l.constants.flatMap slotsOf).take l.poolCount.toNat

end Layout

/-! ## Names -/

/-- The constant pool by index. -/
structure Pool where
  slots : Array (Option Constant)

namespace Pool

/-- The pool of a declared count and the constants placed in it. -/
def ofConstants (count : UInt16) (constants : List Constant) : Pool :=
  ⟨((none :: constants.flatMap Layout.slotsOf).take count.toNat).toArray⟩

/-- The text that an index leads to. -/
def text (p : Pool) (i : UInt16) : Except FormatError String :=
  match p.slots[i.toNat]? with
  | some (some (.utf8 text)) => .ok (Utf8.decode text)
  | _ => .error (.badReference i "Utf8")

/-- The class name that an index leads to. -/
def className (p : Pool) (i : UInt16) : Except FormatError String :=
  match p.slots[i.toNat]? with
  | some (some (.classRef name)) => p.text name
  | _ => .error (.badReference i "Class")

end Pool

def Layout.pool (l : Layout) : Pool := .ofConstants l.poolCount l.constants

end ClassFile

end ClassWeave

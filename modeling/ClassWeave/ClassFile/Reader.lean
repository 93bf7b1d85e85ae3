import ClassWeave.ClassFile.Layout
/-!
# ClassFile -- reading the layout of a class file

A reader takes octets off the front of the file and keeps count of how
many it has taken, so that a file that ends early is refused with the
place and the number of octets that were missing. `Layout.read` reads a
whole file; indices that must name something are checked as soon as they
are read, so the first fault in the file is the one reported.
-/


namespace ClassWeave

namespace ClassFile

/-- How far a file has been read, and what is left of it. -/
structure Cursor where
  offset : Nat
  rest : Bytes
  deriving DecidableEq, Repr

/-- A step that reads something off the front of the file. -/
abbrev Reader (α : Type) := StateT Cursor (Except FormatError) α

namespace Reader

/-- The next `n` octets. -/
def take (n : Nat) : Reader Bytes := fun c =>
  let front := c.rest.take n
  if front.length = n then .ok (front, ⟨c.offset + n, c.rest.drop n⟩)
  else .error (.truncated c.offset n)

/-- The next octet. -/
def octet : Reader UInt8 := fun c =>
  match c.rest with
  | a :: rest => .ok (a, ⟨c.offset + 1, rest⟩)
  | _ => .error (.truncated c.offset 1)

/-- The next 16-bit word. -/
def word : Reader UInt16 := fun c =>
  match c.rest with
  | a :: b :: rest => .ok (Bytes.word a b, ⟨c.offset + 2, rest⟩)
  | _ => .error (.truncated c.offset 2)

/-- The next 32-bit word. -/
def long : Reader UInt32 := fun c =>
  match c.rest with
  | a :: b :: c' :: d :: rest => .ok (Bytes.long a b c' d, ⟨c.offset + 4, rest⟩)
  | _ => .error (.truncated c.offset 4)

/-- `n` items after those already read, which come last first. -/
def manyOnto {α : Type} (item : Reader α) : Nat → List α → Reader (List α)
  | 0, acc => fun c => .ok (acc.reverse, c)
  | n + 1, acc => fun c =>
    match item c with
    | .error e => .error e
    | .ok (a, c) => manyOnto item n (a :: acc) c

def many {α : Type} (item : Reader α) (n : Nat) : Reader (List α) :=
  manyOnto item n []

/-- A 16-bit count, and as many items. -/
def counted {α : Type} (item : Reader α) : Reader (List α) := do
  let n ← word
  many item n.toNat

/-- The constant at a slot. -/
def constant (index : Nat) : Reader Constant := do
  let tag ← octet
  if tag = 1 then
    let size ← word
    return .utf8 (← take size.toNat)
  else if tag = 7 then
    return .classRef (← word)
  else
    match ConstantKind.ofTag? tag with
    | some kind => return .other kind (← take kind.size)
    | none => throw (.unknownTag tag index)

/-- The constants that fill the last `free` of `count` slots, after those
already read, which come last first. A wide constant fills two. -/
def constantsOnto (count : Nat) : Nat → List Constant → Reader (List Constant)
  | 0, acc => fun c => .ok (acc.reverse, c)
  | 1, acc => fun c =>
    match constant (count - 1) c with
    | .error e => .error e
    | .ok (a, c) => .ok ((a :: acc).reverse, c)
  | free + 2, acc => fun c =>
    match constant (count - (free + 2)) c with
    | .error e => .error e
    | .ok (a, c) =>
      if a.isWide then constantsOnto count free (a :: acc) c
      else constantsOnto count (free + 1) (a :: acc) c

/-- The constants of a pool with `count` slots; slot 0 holds none. -/
def constants (count : UInt16) : Reader (List Constant) :=
  constantsOnto count.toNat (count.toNat - 1) []

/-- An attribute whose name is not looked up. -/
def entry : Reader AttributeEntry := do
  let name ← word
  let size ← long
  return ⟨name, ← take size.toNat⟩

/-- A field or a method. -/
def member : Reader Member := do
  let header ← take 6
  return ⟨header, ← counted entry⟩

/-- An index that must lead to a class name. -/
def classIndex (pool : Pool) : Reader UInt16 := do
  let i ← word
  let _ ← pool.className i
  return i

/-- An attribute of the class, whose name must lead to text. -/
def namedEntry (pool : Pool) : Reader AttributeEntry := do
  let a ← entry
  let _ ← pool.text a.name
  return a

/-- A class file, and whatever comes after it. -/
def layout : Reader Layout := do
  let found ← long
  if found ≠ magic then throw (.badMagic found)
  let minor ← word
  let major ← word
  let poolCount ← word
  let constants ← constants poolCount
  let pool := Pool.ofConstants poolCount constants
  let accessFlags ← word
  let thisClass ← word
  let superClass ← word
  let _ ← pool.className thisClass
  if superClass ≠ 0 then
    let _ ← pool.className superClass
  let interfaces ← counted (classIndex pool)
  let fields ← counted member
  let methods ← counted member
  let attributes ← counted (namedEntry pool)
  return { minor, major, poolCount, constants, accessFlags, thisClass, superClass,
           interfaces, fields, methods, attributes }

end Reader

/-- The layout of a whole class file. -/
def Layout.read (bytes : Bytes) : Except FormatError Layout :=
  match Reader.layout ⟨0, bytes⟩ with
  | .error e => .error e
  | .ok (l, c) => if c.rest = [] then .ok l else .error (.trailing c.rest.length)

end ClassFile

end ClassWeave

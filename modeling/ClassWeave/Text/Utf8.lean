import ClassWeave.Bytes.Basic
/-!
# Text -- UTF-8, written and leniently read

Class files, markers and configuration carry text as UTF-8. Writing is
exact; reading is lenient, and puts one replacement character for each
longest run of octets that starts a character but does not finish it.
Text is exactly encoded when its lenient reading writes the same octets
again (`Utf8.decode?`).
-/


namespace ClassWeave

namespace Utf8

/-! ## Writing -/

/-- The one to four octets of a character. -/
def encodeChar (c : Char) : Bytes :=
  let n := c.toNat
  if n < 0x80 then [UInt8.ofNat n]
  else if n < 0x800 then [UInt8.ofNat (0xC0 + n / 64), UInt8.ofNat (0x80 + n % 64)]
  else if n < 0x10000 then
    [UInt8.ofNat (0xE0 + n / 4096), UInt8.ofNat (0x80 + n / 64 % 64), UInt8.ofNat (0x80 + n % 64)]
  else
    [UInt8.ofNat (0xF0 + n / 262144), UInt8.ofNat (0x80 + n / 4096 % 64),
      UInt8.ofNat (0x80 + n / 64 % 64), UInt8.ofNat (0x80 + n % 64)]

def encode (s : String) : Bytes :=
  s.toList.flatMap encodeChar

/-! ## Reading -/

/-- What stands for octets that are no character. -/
def replacement : Char := Char.ofNat 0xFFFD

/-- A continuation octet, `10xxxxxx`. -/
def isTail (b : UInt8) : Bool := 0x80 ≤ b && b ≤ 0xBF

/-- The octets that may follow the leading octet of a three-octet
character: the least keeps short characters short, and the greatest
keeps surrogates out. -/
def isSecondOfThree (a b : UInt8) : Bool :=
  if a == 0xE0 then 0xA0 ≤ b && b ≤ 0xBF
  else if a == 0xED then 0x80 ≤ b && b ≤ 0x9F
  else isTail b

/-- The octets that may follow the leading octet of a four-octet
character, whose number ends at `0x10FFFF`. -/
def isSecondOfFour (a b : UInt8) : Bool :=
  if a == 0xF0 then 0x90 ≤ b && b ≤ 0xBF
  else if a == 0xF4 then 0x80 ≤ b && b ≤ 0x8F
  else isTail b

/-- The character of two octets. -/
def charOfTwo (a b : UInt8) : Char :=
  Char.ofNat ((a.toNat - 0xC0) * 64 + (b.toNat - 0x80))

/-- The character of three octets. -/
def charOfThree (a b c : UInt8) : Char :=
  Char.ofNat (((a.toNat - 0xE0) * 64 + (b.toNat - 0x80)) * 64 + (c.toNat - 0x80))

/-- The character of four octets. -/
def charOfFour (a b c d : UInt8) : Char :=
  Char.ofNat ((((a.toNat - 0xF0) * 64 + (b.toNat - 0x80)) * 64 + (c.toNat - 0x80)) * 64
    + (d.toNat - 0x80))

/-- The characters read so far, last first, and then those of the rest.
A leading octet takes as many of the next octets as can belong to it. -/
def readOnto : List Char → Bytes → List Char
  | acc, [] => acc.reverse
  | acc, a :: rest =>
    if a < 0x80 then readOnto (Char.ofNat a.toNat :: acc) rest
    else if 0xC2 ≤ a && a ≤ 0xDF then
      match rest with
      | [] => readOnto (replacement :: acc) []
      | b :: rest' =>
        if isTail b then readOnto (charOfTwo a b :: acc) rest'
        else readOnto (replacement :: acc) (b :: rest')
    else if 0xE0 ≤ a && a ≤ 0xEF then
      match rest with
      | [] => readOnto (replacement :: acc) []
      | [b] =>
        if isSecondOfThree a b then readOnto (replacement :: acc) []
        else readOnto (replacement :: acc) [b]
      | b :: c :: rest' =>
        if !isSecondOfThree a b then readOnto (replacement :: acc) (b :: c :: rest')
        else if !isTail c then readOnto (replacement :: acc) (c :: rest')
        else readOnto (charOfThree a b c :: acc) rest'
    else if 0xF0 ≤ a && a ≤ 0xF4 then
      match rest with
      | [] => readOnto (replacement :: acc) []
      | [b] =>
        if isSecondOfFour a b then readOnto (replacement :: acc) []
        else readOnto (replacement :: acc) [b]
      | [b, c] =>
        if !isSecondOfFour a b then readOnto (replacement :: acc) [b, c]
        else if !isTail c then readOnto (replacement :: acc) [c]
        else readOnto (replacement :: acc) []
      | b :: c :: d :: rest' =>
        if !isSecondOfFour a b then readOnto (replacement :: acc) (b :: c :: d :: rest')
        else if !isTail c then readOnto (replacement :: acc) (c :: d :: rest')
        else if !isTail d then readOnto (replacement :: acc) (d :: rest')
        else readOnto (charOfFour a b c d :: acc) rest'
    else readOnto (replacement :: acc) rest

/-- The lenient reading of octets as characters. -/
def decodeChars (bytes : Bytes) : List Char := readOnto [] bytes

/-- The lenient reading of octets as text. -/
def decode (bytes : Bytes) : String := String.ofList (decodeChars bytes)

/-- The text of octets that are exactly encoded: those that the lenient
reading writes again. -/
def decode? (bytes : Bytes) : Option String :=
  let s := decode bytes
  if encode s = bytes then some s else none

end Utf8

end ClassWeave

import ClassWeave.Json
/-!
# Json -- documents, read

A document is read from the front: what stands next says what follows, and
each reader gives back what it read and the characters that are left.
Blanks may stand between the parts. Numbers are whole, and their digits
those that they are written with.

Values lie within values, so the readers of values take a bound on how many
of them read what lies in another or behind it. The number of characters is
always enough.
-/


namespace ClassWeave

namespace Json

/-! ## Text -/

/-- The blanks that may stand between the parts of a document. -/
def isBlank (c : Char) : Bool := c = ' ' || c = '\n' || c = '\r' || c = '\t'

/-- The characters without the blanks in front. -/
def skipBlanks (cs : List Char) : List Char := cs.dropWhile isBlank

/-- The value of a hexadecimal digit. -/
def hexValue? (c : Char) : Option Nat :=
  if '0' ≤ c ∧ c ≤ '9' then some (c.toNat - 48)
  else if 'a' ≤ c ∧ c ≤ 'f' then some (c.toNat - 87)
  else if 'A' ≤ c ∧ c ≤ 'F' then some (c.toNat - 55)
  else none

/-- The number of four hexadecimal digits. -/
def hexNumber? (a b c d : Char) : Option Nat := do
  return ((← hexValue? a) * 16 + (← hexValue? b)) * 256 + ((← hexValue? c) * 16 + (← hexValue? d))

/-- The character that stands behind a backslash for another. -/
def escaped? (c : Char) : Option Char :=
  if c = '"' ∨ c = '\\' ∨ c = '/' then some c
  else if c = 'n' then some '\n'
  else if c = 'r' then some '\r'
  else if c = 't' then some '\t'
  else if c = 'b' then some (Char.ofNat 8)
  else if c = 'f' then some (Char.ofNat 12)
  else none

/-- The character of two numbers that only stand for one together. -/
def charOfPair? (high low : Nat) : Option Char :=
  if 0xDC00 ≤ low ∧ low ≤ 0xDFFF
  then some (Char.ofNat (0x10000 + (high - 0xD800) * 0x400 + (low - 0xDC00)))
  else none

/-- What was read of a text, behind one more character. -/
def behind (c : Char) (text : Option (List Char × List Char)) : Option (List Char × List Char) :=
  text.map fun (s, rest) => (c :: s, rest)

/-- The characters up to the quote that ends a text. -/
def readText : List Char → Option (List Char × List Char)
  | [] => none
  | '"' :: rest => some ([], rest)
  | '\\' :: 'u' :: a :: b :: c :: d :: rest =>
    match hexNumber? a b c d with
    | none => none
    | some n =>
      if 0xD800 ≤ n ∧ n ≤ 0xDBFF then
        match rest with
        | '\\' :: 'u' :: a :: b :: c :: d :: rest =>
          match (hexNumber? a b c d).bind (charOfPair? n) with
          | none => none
          | some char => behind char (readText rest)
        | _ => none
      else if 0xDC00 ≤ n ∧ n ≤ 0xDFFF then none
      else behind (Char.ofNat n) (readText rest)
  | '\\' :: c :: rest =>
    match escaped? c with
    | none => none
    | some char => behind char (readText rest)
  | c :: rest => if c.toNat < 32 then none else behind c (readText rest)

/-! ## Numbers -/

/-- A number without a sign. -/
def readNat (cs : List Char) : Option (Nat × List Char) :=
  let digits := cs.takeWhile Char.isDigit
  let n := Nat.ofDigitChars 10 digits 0
  if Nat.toDigits 10 n = digits then some (n, cs.dropWhile Char.isDigit) else none

/-! ## Values -/

mutual

/-- The value in front. -/
def readValue : Nat → List Char → Option (Json × List Char)
  | 0, _ => none
  | fuel + 1, cs =>
    match skipBlanks cs with
    | 'n' :: 'u' :: 'l' :: 'l' :: rest => some (.null, rest)
    | 't' :: 'r' :: 'u' :: 'e' :: rest => some (.bool true, rest)
    | 'f' :: 'a' :: 'l' :: 's' :: 'e' :: rest => some (.bool false, rest)
    | '"' :: rest => do
      let (s, rest) ← readText rest
      some (.string (String.ofList s), rest)
    | '[' :: rest =>
      match skipBlanks rest with
      | ']' :: rest => some (.array [], rest)
      | rest => do
        let (v, rest) ← readValue fuel rest
        let (items, rest) ← readItems fuel rest
        some (.array (v :: items), rest)
    | '\x7b' :: rest =>
      match skipBlanks rest with
      | '\x7d' :: rest => some (.object [], rest)
      | rest => do
        let (field, rest) ← readField fuel rest
        let (fields, rest) ← readFields fuel rest
        some (.object (field :: fields), rest)
    | '-' :: rest => do
      let (n, rest) ← readNat rest
      some (.number (-n), rest)
    | rest => do
      let (n, rest) ← readNat rest
      some (.number n, rest)

/-- The items behind another, up to the end of their array. -/
def readItems : Nat → List Char → Option (List Json × List Char)
  | 0, _ => none
  | fuel + 1, cs =>
    match skipBlanks cs with
    | ']' :: rest => some ([], rest)
    | ',' :: rest => do
      let (v, rest) ← readValue fuel rest
      let (items, rest) ← readItems fuel rest
      some (v :: items, rest)
    | _ => none

/-- The field in front. -/
def readField : Nat → List Char → Option ((String × Json) × List Char)
  | 0, _ => none
  | fuel + 1, cs =>
    match skipBlanks cs with
    | '"' :: rest => do
      let (key, rest) ← readText rest
      match skipBlanks rest with
      | ':' :: rest =>
        let (v, rest) ← readValue fuel rest
        some ((String.ofList key, v), rest)
      | _ => none
    | _ => none

/-- The fields behind another, up to the end of their object. -/
def readFields : Nat → List Char → Option (List (String × Json) × List Char)
  | 0, _ => none
  | fuel + 1, cs =>
    match skipBlanks cs with
    | '\x7d' :: rest => some ([], rest)
    | ',' :: rest => do
      let (field, rest) ← readField fuel rest
      let (fields, rest) ← readFields fuel rest
      some (field :: fields, rest)
    | _ => none

end

/-- The document that a text is. -/
def parse? (s : String) : Option Json := do
  let (v, rest) ← readValue (s.toList.length + 1) s.toList
  if (skipBlanks rest).isEmpty then some v else none

/-! ## What a value is -/

/-- The text that a value is. -/
def text? : Json → Option String
  | .string s => some s
  | _ => none

/-- The texts that a value is a row of. -/
def texts? : Json → Option (List String)
  | .array items => items.mapM text?
  | _ => none

/-- The natural number that a value is. -/
def nat? : Json → Option Nat
  | .number n => if 0 ≤ n then some n.toNat else none
  | _ => none

/-- The value of a key that an object has once. -/
def once? (fields : List (String × Json)) (key : String) : Option Json :=
  match fields.filter fun p => p.1 == key with
  | [p] => some p.2
  | _ => none

end Json

end ClassWeave

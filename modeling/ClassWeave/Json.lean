import ClassWeave.Bytes.Basic
/-!
# Json -- documents and how they are written

The values that reports are made of, and their text: on one line, or laid
out with two blanks for each level. Objects keep the order of their keys.
Text is written as it is but for quotes, backslashes and control
characters.
-/


namespace ClassWeave

/-- A document. -/
inductive Json where
  | null
  | bool (b : Bool)
  | number (n : Int)
  | string (s : String)
  | array (items : List Json)
  | object (fields : List (String × Json))

namespace Json

/-- A text, or nothing. -/
def ofText? : Option String → Json
  | some s => .string s
  | none => .null

def ofNat (n : Nat) : Json := .number (Int.ofNat n)

def texts (items : List String) : Json := .array (items.map .string)

/-- A field that is left out where it says nothing. -/
def field? (key : String) : Option Json → List (String × Json)
  | some v => [(key, v)]
  | none => []

/-! ## Text -/

/-- A character inside quotes. -/
def escapeChar (c : Char) : String :=
  if c = '"' then "\\\""
  else if c = '\\' then "\\\\"
  else if c = '\n' then "\\n"
  else if c = '\r' then "\\r"
  else if c = '\t' then "\\t"
  else if c.toNat = 8 then "\\b"
  else if c.toNat = 12 then "\\f"
  else if c.toNat < 32 then "\\u00" ++ Bytes.toHex [UInt8.ofNat c.toNat]
  else String.singleton c

def quote (s : String) : String :=
  s.toList.foldl (fun out c => out ++ escapeChar c) "\"" ++ "\""

/-- The break in front of an item: a new line and two blanks for each
level, or nothing where all stands on one line. -/
def breakAt : Option Nat → String
  | some depth => "\n" ++ String.ofList (List.replicate (2 * depth) ' ')
  | none => ""

/-- What parts a key from its value. -/
def colon (layout : Option Nat) : String := if layout.isSome then ": " else ":"

mutual

/-- A text with a document written behind it. The layout is the level that
the document is on, or none where all stands on one line. -/
def write (layout : Option Nat) (out : String) : Json → String
  | .null => out ++ "null"
  | .bool b => out ++ if b then "true" else "false"
  | .number n => out ++ toString n
  | .string s => out ++ quote s
  | .array [] => out ++ "[]"
  | .array (v :: rest) =>
    let inner := layout.map (· + 1)
    writeItems inner (write inner (out ++ "[" ++ breakAt inner) v) rest ++ breakAt layout ++ "]"
  | .object [] => out ++ "\x7b\x7d"
  | .object ((key, v) :: rest) =>
    let inner := layout.map (· + 1)
    writeFields inner
        (write inner (out ++ "\x7b" ++ breakAt inner ++ quote key ++ colon layout) v) rest
      ++ breakAt layout ++ "\x7d"

/-- Further items behind a text. -/
def writeItems (layout : Option Nat) (out : String) : List Json → String
  | [] => out
  | v :: rest => writeItems layout (write layout (out ++ "," ++ breakAt layout) v) rest

/-- Further fields behind a text. -/
def writeFields (layout : Option Nat) (out : String) : List (String × Json) → String
  | [] => out
  | (key, v) :: rest =>
    writeFields layout
      (write layout (out ++ "," ++ breakAt layout ++ quote key ++ colon layout) v) rest

end

def compact (v : Json) : String := write none "" v

def pretty (v : Json) : String := write (some 0) "" v

end Json

end ClassWeave

import ClassWeave.Toml.Draft
import ClassWeave.Toml.Lexeme
/-!
# Toml -- reading a configuration file

A file is lines: blank ones, comments, headers of tables, and keys with
their values. Arrays may go over several lines, tables between braces may
not. Values nest less than eighty deep, and keys have less than eighty
parts.
-/


namespace ClassWeave

namespace Toml

/-- What the depth of values and the parts of a key stay below. -/
def depthLimit : Nat := 80

/-! ## Between values -/

/-- A comment off the front, if there is one. -/
def skipComment : List Char → List Char
  | '#' :: cs => cs.dropWhile Lexeme.isPlain
  | cs => cs

/-- What is left after a line: nothing but blanks and a comment may stand
before its end, which may be the end of the file. -/
def endLine? (cs : List Char) : Option (List Char) :=
  match skipComment (Lexeme.skipSpaces cs) with
  | [] => some []
  | cs => Lexeme.lineEnd? cs

/-- The text without blanks, comments and line ends in front. -/
def skipLines : Nat → List Char → List Char
  | 0, cs => cs
  | fuel + 1, cs =>
    match Lexeme.skipSpaces cs with
    | '#' :: rest => skipLines fuel (rest.dropWhile Lexeme.isPlain)
    | cs =>
      match Lexeme.lineEnd? cs with
      | some rest => skipLines fuel rest
      | none => cs

/-- `skipLines` with as many steps as can be needed. -/
def skipGap (cs : List Char) : List Char := skipLines cs.length cs

/-! ## Keys -/

/-- The characters of a key without quotes. -/
def isBare (c : Char) : Bool :=
  ('a' ≤ c && c ≤ 'z') || ('A' ≤ c && c ≤ 'Z') || ('0' ≤ c && c ≤ '9') || c = '-' || c = '_'

/-- One part of a key. -/
def keyPart (cs : List Char) : Option (String × List Char) :=
  match Lexeme.lineText cs with
  | some r => some r
  | none =>
    match cs.takeWhile isBare with
    | [] => none
    | name => some (String.ofList name, cs.dropWhile isBare)

/-- The parts of a key with dots between them, and blanks around each. -/
def keyParts : Nat → List Char → Option (List String × List Char)
  | 0, _ => none
  | fuel + 1, cs => do
    let (part, cs) ← keyPart (Lexeme.skipSpaces cs)
    match Lexeme.skipSpaces cs with
    | '.' :: cs => do
      let (parts, cs) ← keyParts fuel cs
      return (part :: parts, cs)
    | cs => return ([part], cs)

/-- A key: the way to it, and its last part. -/
def key (cs : List Char) : Option (List String × String × List Char) := do
  let (parts, cs) ← keyParts (depthLimit - 1) cs
  return (parts.dropLast, ← parts.getLast?, cs)

/-! ## Values -/

mutual

/-- A value at a depth. -/
def value (depth : Nat) : Nat → List Char → Option (Toml × List Char)
  | 0, _ => none
  | fuel + 1, cs =>
    match cs with
    | '[' :: rest => if depth + 1 < depthLimit then items (depth + 1) fuel [] rest else none
    | '\x7b' :: rest =>
      if depth + 1 < depthLimit then
        match Lexeme.skipSpaces rest with
        | '\x7d' :: rest => some (.table [], rest)
        | rest => pairs (depth + 1) fuel .empty rest
      else none
    | 't' :: 'r' :: 'u' :: 'e' :: rest => some (.boolean true, rest)
    | 'f' :: 'a' :: 'l' :: 's' :: 'e' :: rest => some (.boolean false, rest)
    | _ =>
      match Lexeme.text cs with
      | some (s, rest) => some (.string s, rest)
      | none => Lexeme.numeric cs

/-- The rest of an array; the items read so far come last first. -/
def items (depth : Nat) : Nat → List Toml → List Char → Option (Toml × List Char)
  | 0, _, _ => none
  | fuel + 1, acc, cs =>
    match skipGap cs with
    | ']' :: rest => some (.array acc.reverse, rest)
    | cs => do
      let (v, cs) ← value depth fuel cs
      match skipGap cs with
      | ',' :: rest => items depth fuel (v :: acc) rest
      | ']' :: rest => some (.array (v :: acc).reverse, rest)
      | _ => none

/-- The rest of a table between braces, at a key. -/
def pairs (depth : Nat) : Nat → DraftTable → List Char → Option (Toml × List Char)
  | 0, _, _ => none
  | fuel + 1, t, cs => do
    let (path, last, cs) ← key cs
    let (v, cs) ← value depth fuel (Lexeme.skipSpaces (← Lexeme.expect '=' cs))
    let t ← t.enter path last v
    match Lexeme.skipSpaces cs with
    | ',' :: rest => pairs depth fuel t rest
    | '\x7d' :: rest => some (.table t.finish, rest)
    | _ => none

end

/-! ## Lines -/

/-- A header: whether it opens one of a row of tables, and its key. -/
def header (cs : List Char) : Option (Bool × List String × List Char) :=
  match cs with
  | '[' :: '[' :: rest => do
    let (path, last, cs) ← key rest
    return (true, path ++ [last], ← Lexeme.expect ']' (← Lexeme.expect ']' cs))
  | '[' :: rest => do
    let (path, last, cs) ← key rest
    return (false, path ++ [last], ← Lexeme.expect ']' cs)
  | _ => none

/-- The file after one more line. -/
def readLine (f : DraftFile) (cs : List Char) : Option (DraftFile × List Char) :=
  match Lexeme.skipSpaces cs with
  | [] => some (f, [])
  | '#' :: rest => (endLine? ('#' :: rest)).map fun cs => (f, cs)
  | '[' :: rest => do
    let (inRow, path, cs) ← header ('[' :: rest)
    let f ← if inRow then f.openRow path else f.openTable path
    return (f, ← endLine? cs)
  | cs =>
    match Lexeme.lineEnd? cs with
    | some rest => some (f, rest)
    | none => do
      let (path, last, cs) ← key cs
      let cs := Lexeme.skipSpaces (← Lexeme.expect '=' cs)
      let (v, cs) ← value 0 (3 * cs.length + 3) cs
      return (← f.enter path last v, ← endLine? cs)

/-- The file after all lines. -/
def readLines : Nat → DraftFile → List Char → Option DraftFile
  | _, f, [] => some f
  | 0, _, _ :: _ => none
  | fuel + 1, f, cs => do
    let (f, cs) ← readLine f cs
    readLines fuel f cs

/-- The table that a file is; a byte order mark in front is passed over. -/
def parse? (s : String) : Option Fields := do
  let cs := match s.toList with
    | c :: cs => if c = Char.ofNat 0xFEFF then cs else c :: cs
    | [] => []
  let f ← readLines (cs.length + 1) .start cs
  return (← f.close).finish

end Toml

end ClassWeave

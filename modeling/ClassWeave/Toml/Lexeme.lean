import ClassWeave.Text.Basic
import ClassWeave.Toml.Value
/-!
# Lexeme -- numbers, dates and texts as they are written

Each reading takes characters off the front and gives what it read and
what is left, or nothing if the front is no such thing. Where two
readings could begin alike, the longer is tried first.
-/


namespace ClassWeave

namespace Toml

namespace Lexeme

/-! ## Characters -/

/-- The characters that stand for themselves in comments and texts: the
tab and everything that is no control character. -/
def isPlain (c : Char) : Bool := c = '\t' || (0x20 ≤ c.toNat && c.toNat != 0x7F)

def isSpace (c : Char) : Bool := c = ' ' || c = '\t'

/-- The text without the blanks in front. -/
def skipSpaces (cs : List Char) : List Char := cs.dropWhile isSpace

/-- A line end off the front: a line feed, with a carriage return before
it or not. -/
def lineEnd? : List Char → Option (List Char)
  | '\n' :: cs => some cs
  | '\r' :: '\n' :: cs => some cs
  | _ => none

/-- The value of a hexadecimal digit. -/
def hexValue? (c : Char) : Option Nat :=
  if '0' ≤ c ∧ c ≤ '9' then some (c.toNat - 48)
  else if 'a' ≤ c ∧ c ≤ 'f' then some (c.toNat - 87)
  else if 'A' ≤ c ∧ c ≤ 'F' then some (c.toNat - 55)
  else none

/-- The value of a digit of a base up to sixteen. -/
def digitValue? (base : Nat) (c : Char) : Option Nat := (hexValue? c).filter (· < base)

def numberOf (base : Nat) (digits : List Nat) : Nat :=
  digits.foldl (fun n d => n * base + d) 0

/-! ## Digits -/

/-- Digits off the front, with single underscores between them; those read
so far come last first. -/
def digitsOnto (base : Nat) : List Nat → List Char → List Nat × List Char
  | acc, [] => (acc.reverse, [])
  | acc, c :: rest =>
    match digitValue? base c with
    | some d => digitsOnto base (d :: acc) rest
    | none =>
      match c, rest with
      | '_', c' :: rest' =>
        match digitValue? base c' with
        | some d => if acc.isEmpty then ([], c :: rest) else digitsOnto base (d :: acc) rest'
        | none => (acc.reverse, c :: rest)
      | _, _ => (acc.reverse, c :: rest)

/-- At least one digit, with single underscores between digits. -/
def digits (base : Nat) (cs : List Char) : Option (List Nat × List Char) :=
  match digitsOnto base [] cs with
  | ([], _) => none
  | (ds, rest) => some (ds, rest)

/-- A sign, if there is one; whether it is a minus. -/
def sign : List Char → Bool × List Char
  | '-' :: cs => (true, cs)
  | '+' :: cs => (false, cs)
  | cs => (false, cs)

/-- A whole number in decimal: a lone zero, or digits that start with no
zero. -/
def whole : List Char → Option (List Nat × List Char)
  | '0' :: cs => some ([0], cs)
  | cs => digits 10 cs

/-! ## Numbers -/

/-- The least number too great for an integer, `2 ^ 63`. -/
def integerBound : Nat := 0x8000000000000000

/-- An integer of 64 bits. -/
def integerOf? (negative : Bool) (n : Nat) : Option Toml :=
  if negative then if n ≤ integerBound then some (.integer (-Int.ofNat n)) else none
  else if n < integerBound then some (.integer (Int.ofNat n)) else none

/-- An integer in a base, which its first two characters tell, or in
decimal with a sign. -/
def integer (cs : List Char) : Option (Toml × List Char) :=
  let based (base : Nat) (cs : List Char) : Option (Toml × List Char) := do
    let (ds, rest) ← digits base cs
    return (← integerOf? false (numberOf base ds), rest)
  match cs with
  | '0' :: 'x' :: cs => based 16 cs
  | '0' :: 'o' :: cs => based 8 cs
  | '0' :: 'b' :: cs => based 2 cs
  | cs => do
    let (negative, cs) := sign cs
    let (ds, rest) ← whole cs
    return (← integerOf? negative (numberOf 10 ds), rest)

/-- The exponent of a float. -/
def exponent : List Char → Option (Int × List Char)
  | c :: cs =>
    if c = 'e' ∨ c = 'E' then do
      let (negative, cs) := sign cs
      let (ds, rest) ← digits 10 cs
      let n := Int.ofNat (numberOf 10 ds)
      return (if negative then -n else n, rest)
    else none
  | [] => none

/-- The digits of a float behind its point. -/
def fractionDigits : List Char → Option (List Nat × List Char)
  | '.' :: cs => digits 10 cs
  | _ => none

/-- A float in decimal: a whole number with a fraction, an exponent, or
both. One too great to be finite is refused unless it is negative. -/
def decimalFloat (cs : List Char) : Option (Toml × List Char) := do
  let (negative, cs) := sign cs
  let (ds, cs) ← whole cs
  let (fs, e, rest) ←
    match fractionDigits cs with
    | some (fs, cs) =>
      match exponent cs with
      | some (e, rest) => some (fs, e, rest)
      | none => some (fs, 0, cs)
    | none => (exponent cs).map fun (e, rest) => ([], e, rest)
  let magnitude := Double.nearestDecimal (numberOf 10 (ds ++ fs)) (e - Int.ofNat fs.length)
  if magnitude = Double.infiniteMagnitude ∧ !negative then none
  else some (.float (.ofMagnitude negative magnitude), rest)

/-- The magnitude of the number that is none. -/
def nanMagnitude : Nat := 0x7FF8000000000000

/-- A float that has a name. -/
def namedFloat (cs : List Char) : Option (Toml × List Char) :=
  match sign cs with
  | (negative, 'i' :: 'n' :: 'f' :: rest) =>
    some (.float (.ofMagnitude negative Double.infiniteMagnitude), rest)
  | (negative, 'n' :: 'a' :: 'n' :: rest) =>
    some (.float (.ofMagnitude negative nanMagnitude), rest)
  | _ => none

/-! ## Dates and times -/

/-- A number of exactly so many digits. -/
def fixedNumber : Nat → Nat → List Char → Option (Nat × List Char)
  | 0, n, cs => some (n, cs)
  | width + 1, n, c :: cs =>
    match digitValue? 10 c with
    | some d => fixedNumber width (n * 10 + d) cs
    | none => none
  | _ + 1, _, [] => none

/-- One character that must be there. -/
def expect (c : Char) : List Char → Option (List Char)
  | c' :: cs => if c' = c then some cs else none
  | [] => none

/-- A date. -/
def date (cs : List Char) : Option (Date × List Char) := do
  let (year, cs) ← fixedNumber 4 0 cs
  let (month, cs) ← fixedNumber 2 0 (← expect '-' cs)
  let (day, cs) ← fixedNumber 2 0 (← expect '-' cs)
  let d : Date := ⟨year, month, day⟩
  if d.valid then some (d, cs) else none

/-- The nanoseconds that digits behind a second write; those after the
ninth are left out. -/
def nanoseconds (digits : List Nat) : Nat :=
  numberOf 10 ((digits ++ List.replicate 9 0).take 9)

/-- The digits behind a second, without underscores. -/
def secondFraction : List Char → Option (List Nat × List Char)
  | '.' :: cs =>
    let ds := cs.takeWhile fun c => (digitValue? 10 c).isSome
    if ds.isEmpty then none
    else some (ds.filterMap (digitValue? 10), cs.dropWhile fun c => (digitValue? 10 c).isSome)
  | _ => none

/-- A time of day. -/
def time (cs : List Char) : Option (Time × List Char) := do
  let (hour, cs) ← fixedNumber 2 0 cs
  let (minute, cs) ← fixedNumber 2 0 (← expect ':' cs)
  let (second, cs) ← fixedNumber 2 0 (← expect ':' cs)
  let (nano, cs) :=
    match secondFraction cs with
    | some (ds, rest) => (nanoseconds ds, rest)
    | none => (0, cs)
  let t : Time := ⟨hour, minute, second, nano⟩
  if t.valid then some (t, cs) else none

/-- An offset. -/
def offset : List Char → Option (Offset × List Char)
  | c :: cs =>
    if c = 'Z' ∨ c = 'z' then some (.universal, cs)
    else if c = '+' ∨ c = '-' then do
      let (hour, cs) ← fixedNumber 2 0 cs
      let (minute, cs) ← fixedNumber 2 0 (← expect ':' cs)
      if hour ≤ 23 ∧ minute ≤ 59 then some (.minutes (c = '+') (hour * 60 + minute), cs) else none
    else none
  | [] => none

/-- The mark between a date and a time. -/
def timeMark : List Char → Option (List Char)
  | c :: cs => if c = 'T' ∨ c = 't' ∨ c = ' ' then some cs else none
  | [] => none

/-- A date with or without a time, or a time. -/
def dateTime (cs : List Char) : Option (DateTime × List Char) :=
  match date cs with
  | some (d, cs) =>
    match (timeMark cs).bind time with
    | some (t, cs) =>
      match offset cs with
      | some (o, cs) => some (⟨some d, some t, some o⟩, cs)
      | none => some (⟨some d, some t, none⟩, cs)
    | none => some (⟨some d, none, none⟩, cs)
  | none => (time cs).map fun (t, cs) => (⟨none, some t, none⟩, cs)

/-- A value that starts with a digit or a sign. -/
def numeric (cs : List Char) : Option (Toml × List Char) :=
  match dateTime cs with
  | some (d, rest) => some (.datetime d, rest)
  | none => (decimalFloat cs).or ((namedFloat cs).or (integer cs))

/-! ## Texts -/

/-- The character of a hexadecimal number of so many digits. -/
def scalar : Nat → Nat → List Char → Option (Char × List Char)
  | 0, n, cs => if n < 0x110000 ∧ ¬(0xD800 ≤ n ∧ n < 0xE000) then some (Char.ofNat n, cs) else none
  | width + 1, n, c :: cs =>
    match hexValue? c with
    | some d => scalar width (n * 16 + d) cs
    | none => none
  | _ + 1, _, [] => none

/-- The character that an escape stands for, read after the backslash. -/
def escaped : List Char → Option (Char × List Char)
  | 'b' :: cs => some (Char.ofNat 8, cs)
  | 't' :: cs => some ('\t', cs)
  | 'n' :: cs => some ('\n', cs)
  | 'f' :: cs => some (Char.ofNat 12, cs)
  | 'r' :: cs => some ('\r', cs)
  | '"' :: cs => some ('"', cs)
  | '\\' :: cs => some ('\\', cs)
  | 'u' :: cs => scalar 4 0 cs
  | 'U' :: cs => scalar 8 0 cs
  | _ => none

/-- The rest of a text on one line, up to the closing quote; what was read
so far comes last first. Escapes count only between double quotes. -/
def line (quote : Char) : Nat → List Char → List Char → Option (String × List Char)
  | 0, _, _ => none
  | _ + 1, _, [] => none
  | fuel + 1, acc, c :: cs =>
    if c = quote then some (String.ofList acc.reverse, cs)
    else if c = '\\' ∧ quote = '"' then
      match escaped cs with
      | some (c, cs) => line quote fuel (c :: acc) cs
      | none => none
    else if isPlain c then line quote fuel (c :: acc) cs
    else none

/-- The end of a text over several lines, at its quotes: up to two of them
belong to the text. -/
def closing (quote : Char) (cs : List Char) : Option (Nat × List Char) :=
  let n := (cs.takeWhile (· == quote)).length
  if n < 3 then none else some (min (n - 3) 2, cs.drop (3 + min (n - 3) 2))

/-- What is left behind a backslash at a line's end: the line end and all
blanks and line ends after it are left out. -/
def continued? (cs : List Char) : Option (List Char) :=
  (lineEnd? (skipSpaces cs)).map fun cs => go cs.length cs
where
  go : Nat → List Char → List Char
    | 0, cs => cs
    | fuel + 1, cs =>
      match cs with
      | c :: rest =>
        if isSpace c then go fuel rest
        else
          match lineEnd? cs with
          | some rest => go fuel rest
          | none => cs
      | [] => []

/-- The rest of a text over several lines, up to the closing quotes; what
was read so far comes last first. Every line end is read as a line feed. -/
def lines (quote : Char) : Nat → List Char → List Char → Option (String × List Char)
  | 0, _, _ => none
  | _ + 1, _, [] => none
  | fuel + 1, acc, c :: cs =>
    if c = quote then
      match closing quote (c :: cs) with
      | some (n, rest) => some (String.ofList (List.replicate n quote ++ acc).reverse, rest)
      | none => lines quote fuel (c :: acc) cs
    else if c = '\\' ∧ quote = '"' then
      match continued? cs with
      | some rest => lines quote fuel acc rest
      | none =>
        match escaped cs with
        | some (c, cs) => lines quote fuel (c :: acc) cs
        | none => none
    else
      match lineEnd? (c :: cs) with
      | some rest => lines quote fuel ('\n' :: acc) rest
      | none => if isPlain c then lines quote fuel (c :: acc) cs else none

/-- A text on one line. -/
def lineText : List Char → Option (String × List Char)
  | c :: cs => if c = '"' ∨ c = '\'' then line c (cs.length + 1) [] cs else none
  | [] => none

/-- A text, on one line or over several. A line end right after the
opening quotes is left out. -/
def text (cs : List Char) : Option (String × List Char) :=
  match cs with
  | q :: q' :: q'' :: rest =>
    if (q = '"' ∨ q = '\'') ∧ q' = q ∧ q'' = q then
      let body := (lineEnd? rest).getD rest
      lines q (body.length + 1) [] body
    else lineText cs
  | _ => lineText cs

end Lexeme

end Toml

end ClassWeave

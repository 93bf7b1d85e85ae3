/-!
# Toml -- dates and times

A date, a time of day, or both, and then perhaps the distance from
universal time. The calendar's own limits hold; a minute may have a
sixty-first second.
-/


namespace ClassWeave

namespace Toml

/-- A day of the calendar. -/
structure Date where
  year : Nat
  month : Nat
  day : Nat
  deriving DecidableEq, Repr

/-- A time of day. -/
structure Time where
  hour : Nat
  minute : Nat
  second : Nat
  nanosecond : Nat
  deriving DecidableEq, Repr

/-- A distance from universal time: the letter that stands for none, or
hours and minutes ahead of it or behind. -/
inductive Offset where
  | universal
  | minutes (ahead : Bool) (count : Nat)
  deriving DecidableEq, Repr

/-- A date, a time, or both. -/
structure DateTime where
  date : Option Date
  time : Option Time
  offset : Option Offset
  deriving DecidableEq, Repr

/-- Whether a year has a day more. -/
def isLeap (year : Nat) : Bool :=
  year % 4 == 0 && (year % 100 != 0 || year % 400 == 0)

/-- The number of days in a month. -/
def daysInMonth (year month : Nat) : Nat :=
  if month = 2 then if isLeap year then 29 else 28
  else if month = 4 ∨ month = 6 ∨ month = 9 ∨ month = 11 then 30
  else 31

/-- A day that the calendar has. -/
def Date.valid (d : Date) : Bool :=
  1 ≤ d.month && d.month ≤ 12 && 1 ≤ d.day && d.day ≤ daysInMonth d.year d.month

/-- A time that a clock shows. -/
def Time.valid (t : Time) : Bool := t.hour ≤ 23 && t.minute ≤ 59 && t.second ≤ 60

/-! ## Text -/

/-- A number with zeros in front up to a width. -/
def padded (width n : Nat) : String :=
  let digits := Nat.toDigits 10 n
  String.ofList (List.replicate (width - digits.length) '0' ++ digits)

def Date.text (d : Date) : String :=
  padded 4 d.year ++ "-" ++ padded 2 d.month ++ "-" ++ padded 2 d.day

/-- The digits behind the second, without zeros at the end. -/
def fraction (nanosecond : Nat) : String :=
  let digits := (padded 9 nanosecond).toList
  "." ++ String.ofList (digits.reverse.dropWhile (· == '0')).reverse

/-- The text of a time. -/
def Time.text (t : Time) : String :=
  padded 2 t.hour ++ ":" ++ padded 2 t.minute ++ ":" ++ padded 2 t.second
    ++ if t.nanosecond = 0 then "" else fraction t.nanosecond

/-- The text of an offset. No distance at all counts as ahead. -/
def Offset.text : Offset → String
  | .universal => "Z"
  | .minutes ahead count =>
    (if ahead || count == 0 then "+" else "-") ++ padded 2 (count / 60) ++ ":"
      ++ padded 2 (count % 60)

/-- The text of a date and time. -/
def DateTime.text (d : DateTime) : String :=
  (match d.date, d.time with
    | some date, some time => date.text ++ "T" ++ time.text
    | some date, none => date.text
    | none, some time => time.text
    | none, none => "")
    ++ match d.offset with
      | some o => o.text
      | none => ""

end Toml

end ClassWeave

import ClassWeave.Decimal.Double
/-!
# Decimal -- the fewest digits that read back

A finite double stands for all reals that round to it. Of the decimals
among them, those with the fewest digits are taken, and of these the
nearest to the double itself; of two equally near, the greater. The text
of a double is positional from `1e-4` to below `1e16`, and has a point or
an exponent in any case.
-/


namespace ClassWeave

namespace Double

/-! ## Selection -/

/-- A positive double and the interval that rounds to it, in units of
`scale / den`. -/
structure Interval where
  low : Nat
  value : Nat
  high : Nat
  /-- Whether the ends round to the double too. -/
  closed : Bool
  /-- The numerator of the unit. -/
  unit : Nat
  /-- The denominator of the unit. -/
  den : Nat

/-- The interval of a positive finite double. Below a power of two the
next double is only half as far away. -/
def interval (x : Double) : Interval :=
  let (m, q) := x.parts
  let narrow := x.magnitude % fractions = 0 ∧ 2 * fractions ≤ x.magnitude
  let (unit, den) := scale 1 1 (q - 2)
  { low := if narrow then 4 * m - 1 else 4 * m - 2
    value := 4 * m
    high := 4 * m + 2
    closed := m % 2 = 0
    unit := unit
    den := den }

/-- A decimal: `digits * 10 ^ exponent`. -/
structure Decimal where
  digits : Nat
  exponent : Int
  deriving DecidableEq, Repr

/-- A fraction times a power of ten, as a fraction. -/
def scaleTen (num den : Nat) (e : Int) : Nat × Nat :=
  match e with
  | .ofNat e => (num * Nat.pow 10 e, den)
  | .negSucc e => (num, den * Nat.pow 10 (e + 1))

/-- The least number of tenfold steps that lift a fraction to one. -/
def stepsToOne (num den : Nat) : Nat → Nat
  | 0 => 0
  | fuel + 1 => if den ≤ num then 0 else stepsToOne (num * 10) den fuel + 1

/-- The number of digits in front of the point; not above zero if there
are zeros behind it first. -/
def order (num den : Nat) : Int :=
  if den ≤ num then Int.ofNat (digitCount (num / den))
  else 1 - Int.ofNat (stepsToOne num den 400)

/-- Whether `n` steps of a grid lie in the interval, where the ends of the
interval are `low / den` and `high / den` steps. -/
def hits (i : Interval) (low high den n : Nat) : Bool :=
  if i.closed then low ≤ n * den && n * den ≤ high
  else low < n * den && n * den < high

/-- The decimal in the interval with no more than a number of digits, if
there is one. -/
def onGrid (i : Interval) (count : Nat) : Option Decimal :=
  let k := order (i.value * i.unit) i.den - Int.ofNat count
  let (unit, den) := scaleTen i.unit i.den (-k)
  let value := i.value * unit
  let below := value / den
  let far := 2 * (value % den)
  let hitBelow := hits i (i.low * unit) (i.high * unit) den below
  let hitAbove := hits i (i.low * unit) (i.high * unit) den (below + 1)
  if hitBelow && (!hitAbove || far < den) then some ⟨below, k⟩
  else if hitAbove then some ⟨below + 1, k⟩
  else none

/-- A decimal without zeros at the end. -/
def Decimal.strip : Nat → Decimal → Decimal
  | 0, d => d
  | fuel + 1, d =>
    if d.digits ≠ 0 ∧ d.digits % 10 = 0 then strip fuel ⟨d.digits / 10, d.exponent + 1⟩ else d

/-- The shortest decimal of a positive finite double. -/
def shortest (x : Double) : Decimal :=
  let i := x.interval
  (((List.range 17).findSome? fun n => onGrid i (n + 1)).getD ⟨0, 0⟩).strip 20

/-! ## Layout -/

/-- A row of zeros. -/
def zeros (n : Nat) : String := String.ofList (List.replicate n '0')

/-- The text of a decimal. -/
def Decimal.text (d : Decimal) : String :=
  let digits := Nat.toDigits 10 d.digits
  let point : Int := Int.ofNat digits.length + d.exponent
  if point ≤ -4 ∨ 16 < point then
    let fraction := digits.drop 1
    String.ofList (digits.take 1)
      ++ (if fraction.isEmpty then "" else "." ++ String.ofList fraction)
      ++ "e" ++ toString (point - 1)
  else if point ≤ 0 then "0." ++ zeros (-point).toNat ++ String.ofList digits
  else
    let whole := digits.take point.toNat
    let fraction := digits.drop point.toNat
    String.ofList whole ++ zeros (point.toNat - whole.length) ++ "."
      ++ if fraction.isEmpty then "0" else String.ofList fraction

/-- The text of a double. -/
def text (x : Double) : String :=
  if x.isNaN then "NaN"
  else
    let body :=
      if x.isInfinite then "inf"
      else if x.magnitude = 0 then "0.0"
      else x.shortest.text
    if x.isNegative then "-" ++ body else body

end Double

end ClassWeave

/-!
# Decimal -- numbers of double precision

A double is kept as its 64 bits: a sign, eleven bits of exponent and
fifty-two of fraction. This file says what the bits mean, and which bits
are nearest to a decimal.
-/


namespace ClassWeave

/-- A number of double precision, by its bits. -/
structure Double where
  bits : UInt64
  deriving DecidableEq, Repr

namespace Double

/-- What the sign bit counts, `2 ^ 63`. -/
def signWeight : Nat := 0x8000000000000000

/-- How many fractions there are, `2 ^ 52`. -/
def fractions : Nat := 0x10000000000000

/-- The bits without the sign. -/
def magnitude (x : Double) : Nat := x.bits.toNat % signWeight

def isNegative (x : Double) : Bool := signWeight ≤ x.bits.toNat

/-- The magnitude of the infinities; greater ones are no numbers. -/
def infiniteMagnitude : Nat := 2047 * fractions

def isNaN (x : Double) : Bool := infiniteMagnitude < x.magnitude

def isInfinite (x : Double) : Bool := x.magnitude == infiniteMagnitude

/-- A double of a sign and a magnitude. -/
def ofMagnitude (negative : Bool) (magnitude : Nat) : Double :=
  ⟨UInt64.ofNat (if negative then signWeight + magnitude else magnitude)⟩

/-- The number `m * 2 ^ q` that a finite double is, without its sign. -/
def parts (x : Double) : Nat × Int :=
  let field := x.magnitude / fractions
  let fraction := x.magnitude % fractions
  if field = 0 then (fraction, -1074) else (fractions + fraction, Int.ofNat field - 1075)

/-! ## From decimals -/

/-- A quotient rounded to the nearest number, and to the even one of two
that are equally near. -/
def roundHalfEven (num den : Nat) : Nat :=
  let k := num / den
  let r := num % den
  if den < 2 * r ∨ (2 * r = den ∧ k % 2 = 1) then k + 1 else k

/-- A fraction times a power of two, as a fraction. -/
def scale (num den : Nat) (q : Int) : Nat × Nat :=
  match q with
  | .ofNat q => (num * Nat.pow 2 q, den)
  | .negSucc q => (num, den * Nat.pow 2 (q + 1))

/-- The magnitude nearest to a positive fraction, at most the infinite
one. Fifty-three bits are kept, or as many as there are above `2 ^ -1074`. -/
def nearestMagnitude (num den : Nat) : Nat :=
  let guess : Int := Int.ofNat num.log2 - Int.ofNat den.log2 - 52
  let (n, d) := scale num den (-guess)
  let exact := if n < fractions * d then guess - 1 else guess
  let q := max exact (-1074)
  let (n, d) := scale num den (-q)
  min ((q + 1074).toNat * fractions + roundHalfEven n d) infiniteMagnitude

/-- The number of decimal digits. -/
def digitCount (n : Nat) : Nat := (Nat.toDigits 10 n).length

/-- The magnitude nearest to `digits * 10 ^ exponent`. -/
def nearestDecimal (digits : Nat) (exponent : Int) : Nat :=
  let order := Int.ofNat (digitCount digits) + exponent
  if digits = 0 ∨ order < -400 then 0
  else if 400 < order then infiniteMagnitude
  else
    match exponent with
    | .ofNat e => nearestMagnitude (digits * Nat.pow 10 e) 1
    | .negSucc e => nearestMagnitude digits (Nat.pow 10 (e + 1))

end Double

end ClassWeave

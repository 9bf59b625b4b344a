/-!
# Decimals

A decimal is a natural number of digits times a power of ten. `Decimal.toFloat` is the
double nearest to it, a tie going to the even neighbour. Exponents may be of any size: far
above the largest double the answer is infinity and far below the smallest it is zero, and
neither power of ten is ever computed.
-/

namespace Recalc

/-- The double that is not a number. -/
def notANumber : Float := 0.0 / 0.0

/-- The value `digits * 10 ^ exponent`. -/
structure Decimal where
  digits : Nat
  exponent : Int
  deriving DecidableEq, Repr

namespace Decimal

/-- Above this power of ten every positive decimal is infinite as a double. -/
def largestExponent : Int := 400

/-- Every decimal below this power of ten is zero as a double. -/
def smallestExponent : Int := -400

/--
The nearest double. A decimal whose digits have `b` binary places is below
`10 ^ (exponent + b)`, which bounds the powers of ten that have to be computed.
-/
def toFloat (d : Decimal) : Float :=
  if d.digits = 0 then 0
  else if largestExponent < d.exponent then 1.0 / 0.0
  else if d.exponent + (d.digits.log2 + 1) < smallestExponent then 0
  else Float.ofScientific d.digits (d.exponent < 0) d.exponent.natAbs

end Decimal

/-- The value of a run of decimal digits. -/
def digitsValue (ds : List Char) : Nat :=
  ds.foldl (fun n c => 10 * n + (c.toNat - '0'.toNat)) 0

end Recalc

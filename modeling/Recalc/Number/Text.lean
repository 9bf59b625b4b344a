import Recalc.Number.Shortest

/-!
# The text of a number

A finite number is written with the fewest digits that read back as the same double, always
positionally: never with an exponent, and with no point when there is nothing behind it.
Zero keeps its sign.
-/

namespace Recalc

namespace Decimal

/-- All digits at their places, with a point only before digits of a fraction. -/
def text (d : Decimal) : List Char :=
  let digits := Nat.toDigits 10 d.digits
  if 0 ≤ d.exponent then digits ++ List.replicate d.exponent.toNat '0'
  else
    let places := (-d.exponent).toNat
    let padded := List.replicate (places + 1 - digits.length) '0' ++ digits
    padded.take (padded.length - places) ++ '.' :: padded.drop (padded.length - places)

end Decimal

/-- The text of a number whose sign has been written. -/
def magnitudeText (bits : UInt64) : List Char :=
  if bits = 0 then ['0'] else (Magnitude.ofBits bits).shortest.text

/-- The text of a number. -/
def numberText (x : Float) : String :=
  if x.isNaN then "NaN"
  else
    let bits := x.toBits
    let sign := if bits >>> 63 = 0 then [] else ['-']
    if x.isInf then String.ofList (sign ++ "inf".toList)
    else String.ofList (sign ++ magnitudeText (bits &&& 0x7FFFFFFFFFFFFFFF))

end Recalc

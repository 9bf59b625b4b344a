import Recalc.Number.Decimal

/-!
# Shortest decimals

A positive finite double stands for all reals that round to it. `Magnitude.shortest` is the
decimal among them with the fewest digits, and of several such the one nearest to the double;
of two that are equally near it is the greater.

A decimal of few digits lies on a coarse grid `10 ^ p`. The search goes from coarse grids to
fine ones and on each looks only at the two grid points next to the double: where any grid
point rounds to the double, one of these two does.
-/

namespace Recalc

/-- A positive finite double, `significand * 2 ^ exponent`. -/
structure Magnitude where
  significand : Nat
  exponent : Int
  /-- The gap to the double below is half the gap to the double above. -/
  narrowBelow : Bool
  deriving DecidableEq, Repr

namespace Magnitude

/-- The absolute value of a double that is neither zero nor infinite and is a number. -/
def ofBits (bits : UInt64) : Magnitude :=
  let field := ((bits >>> 52) &&& 0x7FF).toNat
  let mantissa := (bits &&& 0xFFFFFFFFFFFFF).toNat
  if field = 0 then ⟨mantissa, -1074, false⟩
  else ⟨Nat.pow 2 52 + mantissa, (field : Int) - 1075, mantissa == 0 && 1 < field⟩

/-- The value in quarters of a unit in the last place. -/
def quarters (x : Magnitude) : Nat := 4 * x.significand

/-- The lower end of the reals that round to the value, in the same quarters. -/
def lowerEnd (x : Magnitude) : Nat := if x.narrowBelow then x.quarters - 1 else x.quarters - 2

/-- The upper end of the reals that round to the value, in the same quarters. -/
def upperEnd (x : Magnitude) : Nat := x.quarters + 2

/--
A quarter of a unit in the last place is `2 ^ (exponent - 2)`. In terms of the grid
`10 ^ p` it is the quotient of `quarterOn p` and `gridOn p`.
-/
def quarterOn (x : Magnitude) (p : Int) : Nat :=
  Nat.pow 2 (x.exponent - 2).toNat * Nat.pow 10 (-p).toNat

/-- The other half of the quotient. -/
def gridOn (x : Magnitude) (p : Int) : Nat := Nat.pow 10 p.toNat * Nat.pow 2 (2 - x.exponent).toNat

/--
Whether `d * 10 ^ p` rounds to the value. The ends round to it when the significand is even.
-/
def roundsFrom (x : Magnitude) (p : Int) (d : Nat) : Bool :=
  let point := d * x.gridOn p
  let low := x.lowerEnd * x.quarterOn p
  let high := x.upperEnd * x.quarterOn p
  if x.significand % 2 = 0 then low ≤ point && point ≤ high else low < point && point < high

/-- The best point of the grid `10 ^ p`, if one rounds to the value. -/
def onGrid? (x : Magnitude) (p : Int) : Option Nat :=
  let value := x.quarters * x.quarterOn p
  let below := value / x.gridOn p
  match x.roundsFrom p below, x.roundsFrom p (below + 1) with
  | true, true =>
    some (if 2 * value < (2 * below + 1) * x.gridOn p then below else below + 1)
  | true, false => some below
  | false, true => some (below + 1)
  | false, false => none

/-- A power of ten above the value, and not far above it. -/
def topGrid (x : Magnitude) : Int := (x.exponent + x.significand.log2 + 1) * 30103 / 100000 + 1

/-- The number of grids searched. Seventeen digits tell any two doubles apart. -/
def gridCount : Nat := 20

/-- The shortest decimal that rounds to the value. -/
def shortest (x : Magnitude) : Decimal :=
  let grids := (List.range gridCount).map fun (i : Nat) => x.topGrid - (i : Int)
  (grids.findSome? fun p => (x.onGrid? p).map fun d => ⟨d, p⟩).getD ⟨0, 0⟩

end Magnitude

end Recalc

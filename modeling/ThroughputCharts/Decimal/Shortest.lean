import ThroughputCharts.Binary64.Parts
import ThroughputCharts.Decimal.Rounding

/-!
# Shortest decimals

Every decimal inside the rounding interval of a binary64 number reads back as that number.  The
shortest decimal is the one there with the fewest digits, and of these the nearest to the number; an
exact tie goes to the even digit.
-/

namespace ThroughputCharts
namespace Decimal

open Binary64

/-- The decimal `coefficient * 10 ^ exponent`. -/
structure Scaled where
  coefficient : Nat
  exponent : Int
  deriving DecidableEq

/-- A grid of decimals laid over the neighbourhood of a number: the number is
`center / (4 * step)` grid steps from zero, and the ends of its rounding interval are
`low / (4 * step)` and `high / (4 * step)` steps away. -/
structure Grid where
  low : Nat
  center : Nat
  high : Nat
  step : Nat
  closed : Bool

/-- Whether a number is the least significand of its exponent, so that the gap below it is half the
gap above it. -/
def isLeastOfExponent (magnitude : Magnitude) : Bool :=
  magnitude.significand == Nat.pow 2 fractionBits && decide (leastExponent < magnitude.exponent)

/-- The grid of multiples of `10 ^ exponent` around a number. -/
def grid (magnitude : Magnitude) (exponent : Int) : Grid :=
  let scale := magnitude.denominator * Nat.pow 10 exponent.toNat
  let unit := Nat.pow 2 magnitude.exponent.toNat * Nat.pow 10 (-exponent).toNat
  let quarters := 4 * magnitude.significand
  { low := (quarters - if isLeastOfExponent magnitude then 1 else 2) * unit
    center := quarters * unit
    high := (quarters + 2) * unit
    step := scale
    closed := magnitude.significand % 2 == 0 }

namespace Grid

/-- Whether a grid point lies in the rounding interval; the ends belong to it when the significand
is even. -/
def contains (grid : Grid) (point : Nat) : Bool :=
  let position := 4 * grid.step * point
  if grid.closed then
    decide (grid.low ≤ position) && decide (position ≤ grid.high)
  else
    decide (grid.low < position) && decide (position < grid.high)

/-- The grid point in the rounding interval that is nearest to the number, if there is one. -/
def nearest? (grid : Grid) : Option Nat :=
  let below := grid.center / (4 * grid.step)
  let above := below + 1
  match grid.contains below, grid.contains above with
  | true, true => some (roundDiv grid.center (4 * grid.step))
  | true, false => some below
  | false, true => some above
  | false, false => none

end Grid

/-- The most digits that any binary64 number needs. -/
def mostDigits : Nat := 17

/-- Moves the trailing zeros of a coefficient into the exponent; `fuel` bounds their number. -/
def dropTrailingZeros : Nat → Scaled → Scaled
  | 0, decimal => decimal
  | fuel + 1, decimal =>
    if decimal.coefficient % 10 = 0 then
      dropTrailingZeros fuel ⟨decimal.coefficient / 10, decimal.exponent + 1⟩
    else
      decimal

def shortest (magnitude : Magnitude) : Scaled :=
  let leading := leadingExponent magnitude.numerator magnitude.denominator
  let found := (List.range mostDigits).findSome? fun (digits : Nat) =>
    let exponent := leading - (digits : Int)
    (grid magnitude exponent).nearest?.map fun point => Scaled.mk point exponent
  dropTrailingZeros mostDigits (found.getD ⟨magnitude.significand, magnitude.exponent⟩)

end Decimal
end ThroughputCharts

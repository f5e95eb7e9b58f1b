import ThroughputCharts.Binary64.Nearest

/-!
# Decimal orders of magnitude

The order of magnitude of a number is the whole part of its decimal logarithm, computed as the
quotient of two natural logarithms in binary64.  Rounding makes the quotient miss or reach a whole
number just beside a power of ten, and only there: everywhere else the order is the power of ten of
the leading digit.
-/

namespace ThroughputCharts
namespace Binary64

/-- The exponents of the powers of ten that go to their upper neighbour.  The first power is halfway
between its neighbours, and the second less than a thousandth of a place below that. -/
def raisedExponents : List Int := [23, 210]

/-- A power of ten in binary64, rounded to the nearest but for the raised ones. -/
def powerOfTen (exponent : Int) : Float :=
  let pattern := nearestPattern (Nat.pow 10 exponent.toNat) (Nat.pow 10 (-exponent).toNat)
  Float.ofBits (if exponent ∈ raisedExponents then pattern + 1 else pattern).toUInt64

/-- The natural logarithm of ten to sixty places, in units of `10 ^ (-60)`. -/
def logTenUnits : Nat :=
  2302585092994045684017991454684364207601101488628772976033328

def logTenScale : Nat := Nat.pow 10 60

def logTen : Float := nearest false logTenUnits logTenScale

/-- The natural logarithm of `10 ^ power * (ratio / base)` for a ratio very near its base, as binary64:
two terms of the series of the logarithm suffice. -/
def logNearPower (power : Int) (ratio base : Nat) : Float :=
  let excess : Int := (ratio : Int) - base
  let numerator : Int :=
    power * logTenUnits * (2 * (base * base)) +
      logTenScale * (2 * excess * base - excess * excess)
  nearest (decide (numerator < 0)) numerator.natAbs (logTenScale * (2 * (base * base)))

/-- Whether a ratio is within one part in `2 ^ 40` of its base. -/
def isNear (ratio base : Nat) : Bool :=
  decide (((ratio : Int) - base).natAbs * Nat.pow 2 40 ≤ base)

/-- The order of magnitude of a number beside `10 ^ power`, which is the ratio to the base apart: one
below the power exactly when the quotient of logarithms falls short of it. -/
def orderBeside (power : Int) (ratio base : Nat) : Int :=
  if Float.ofInt power ≤ logNearPower power ratio base / logTen then power else power - 1

/-- The order of magnitude of a positive fraction. -/
def orderOfFraction (numerator denominator : Nat) : Int :=
  let leading := Decimal.leadingExponent numerator denominator
  let ratio (power : Int) := numerator * Nat.pow 10 (-power).toNat
  let base (power : Int) := denominator * Nat.pow 10 power.toNat
  if isNear (ratio leading) (base leading) then
    orderBeside leading (ratio leading) (base leading)
  else if isNear (ratio (leading + 1)) (base (leading + 1)) then
    orderBeside (leading + 1) (ratio (leading + 1)) (base (leading + 1))
  else
    leading

/-- Ten to the order of magnitude of a positive number, which is infinite for infinity. -/
def scale (number : Float) : Float :=
  match parts number with
  | .finite _ magnitude => powerOfTen (orderOfFraction magnitude.numerator magnitude.denominator)
  | _ => number

end Binary64
end ThroughputCharts

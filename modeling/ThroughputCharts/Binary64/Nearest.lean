import ThroughputCharts.Binary64.Parts
import ThroughputCharts.Decimal.Rounding

/-!
# The nearest binary64 number

A fraction is rounded to the nearest binary64 number, ties to the even significand.  The last kept
place is the finest one for which the rounded significand needs at most 53 bits, but never finer than
the place of the smallest positive number.
-/

namespace ThroughputCharts
namespace Binary64

/-- The bit pattern of positive infinity, which is also the first pattern past the finite ones. -/
def infinityPattern : Nat := specialField * Nat.pow 2 fractionBits

/-- The whole number nearest to a fraction counted in units of `2 ^ exponent`. -/
def roundToUnit (numerator denominator : Nat) (exponent : Int) : Nat :=
  Decimal.roundDiv (numerator * Nat.pow 2 (-exponent).toNat)
    (denominator * Nat.pow 2 exponent.toNat)

/-- The exponent of the last place kept of a positive fraction. -/
def unitExponent (numerator denominator : Nat) : Int :=
  let estimate : Int := (numerator.log2 : Int) - denominator.log2 - 53
  let units :=
    numerator * Nat.pow 2 (-estimate).toNat / (denominator * Nat.pow 2 estimate.toNat)
  max leastExponent (if units < Nat.pow 2 (fractionBits + 1) then estimate else estimate + 1)

/-- The bit pattern of the number nearest to a fraction; a carry out of the significand moves into
the exponent field, and whatever passes the greatest finite number becomes infinity. -/
def nearestPattern (numerator denominator : Nat) : Nat :=
  if numerator = 0 then
    0
  else
    let exponent := unitExponent numerator denominator
    let steps := (exponent - leastExponent).toNat
    min infinityPattern
      (steps * Nat.pow 2 fractionBits + roundToUnit numerator denominator exponent)

def nearest (negative : Bool) (numerator denominator : Nat) : Float :=
  let pattern := nearestPattern numerator denominator
  Float.ofBits (if negative then Nat.pow 2 63 + pattern else pattern).toUInt64

end Binary64
end ThroughputCharts

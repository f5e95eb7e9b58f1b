import ThroughputCharts.Binary64.Nearest

/-!
# Whole binary64 numbers

Numbers are rounded down, or to the nearest whole number with halves going away from zero.  Whole
numbers, infinities and what is not a number stay as they are, and zero keeps its sign.
-/

namespace ThroughputCharts
namespace Binary64

/-- Replaces a fractional number by a whole one, chosen by its sign, its significand and the number
of units to a whole. -/
def roundWhole (choose : Bool → Nat → Nat → Nat) (number : Float) : Float :=
  match parts number with
  | .finite negative magnitude =>
    if 0 ≤ magnitude.exponent then
      number
    else
      nearest negative (choose negative magnitude.significand magnitude.denominator) 1
  | _ => number

def floor (number : Float) : Float :=
  roundWhole
    (fun negative significand units =>
      if negative then (significand + units - 1) / units else significand / units)
    number

/-- The nearest whole number; halves go away from zero. -/
def round (number : Float) : Float :=
  roundWhole (fun _ significand units => (2 * significand + units) / (2 * units)) number

end Binary64
end ThroughputCharts

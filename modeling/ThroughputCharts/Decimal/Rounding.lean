/-!
# Rounding a quotient

A quotient of natural numbers is rounded to the nearest whole number, and a quotient halfway between
two of them to the even one.
-/

namespace ThroughputCharts
namespace Decimal

/-- The whole number nearest to a quotient; halves go to the even neighbour. -/
def roundDiv (numerator denominator : Nat) : Nat :=
  let quotient := numerator / denominator
  let remainder := numerator % denominator
  if 2 * remainder < denominator then
    quotient
  else if denominator < 2 * remainder then
    quotient + 1
  else
    quotient + quotient % 2

def digitCount (number : Nat) : Nat :=
  (Nat.toDigits 10 number).length

/-- The power of ten of the leading digit of a positive fraction. -/
def leadingExponent (numerator denominator : Nat) : Int :=
  if denominator ≤ numerator then
    (digitCount (numerator / denominator) : Int) - 1
  else
    -(digitCount ((denominator - 1) / numerator) : Int)

/-- The rounded quotient is within half a unit of the quotient. -/
theorem roundDiv_within_half (numerator denominator : Nat) (positive : 0 < denominator) :
    2 * numerator ≤ 2 * (roundDiv numerator denominator * denominator) + denominator ∧
      2 * (roundDiv numerator denominator * denominator) ≤ 2 * numerator + denominator := by
  have divided := Nat.div_add_mod numerator denominator
  have remainderSmall := Nat.mod_lt numerator positive
  have commuted := Nat.mul_comm (numerator / denominator) denominator
  unfold roundDiv
  dsimp only
  split
  · omega
  · split
    · rw [Nat.add_mul]
      omega
    · rcases Nat.mod_two_eq_zero_or_one (numerator / denominator) with even | odd
      · rw [even]
        simp only [Nat.add_zero]
        omega
      · rw [odd, Nat.add_mul]
        omega

end Decimal
end ThroughputCharts

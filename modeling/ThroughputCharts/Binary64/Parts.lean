/-!
# The parts of a binary64 number

A finite binary64 number is a significand times a power of two.  Taking a number apart by its bits
gives access to its exact value as a fraction of natural numbers.
-/

namespace ThroughputCharts
namespace Binary64

/-- The nonnegative number `significand * 2 ^ exponent`. -/
structure Magnitude where
  significand : Nat
  exponent : Int
  deriving DecidableEq

inductive Parts
  | finite (negative : Bool) (magnitude : Magnitude)
  | infinite (negative : Bool)
  | notANumber
  deriving DecidableEq

/-- The exponent of the smallest positive number. -/
def leastExponent : Int := -1074

/-- The bits of a significand behind the implicit leading one. -/
def fractionBits : Nat := 52

/-- The exponent field of infinities and of what is not a number. -/
def specialField : Nat := 2047

def partsOfBits (bits : UInt64) : Parts :=
  let word := bits.toNat
  let fraction := word % Nat.pow 2 fractionBits
  let field := word / Nat.pow 2 fractionBits % 2048
  let negative := decide (Nat.pow 2 63 ≤ word)
  if field = specialField then
    if fraction = 0 then .infinite negative else .notANumber
  else if field = 0 then
    .finite negative ⟨fraction, leastExponent⟩
  else
    .finite negative ⟨Nat.pow 2 fractionBits + fraction, leastExponent + (field - 1)⟩

def parts (number : Float) : Parts :=
  partsOfBits number.toBits

def Magnitude.numerator (magnitude : Magnitude) : Nat :=
  magnitude.significand * Nat.pow 2 magnitude.exponent.toNat

def Magnitude.denominator (magnitude : Magnitude) : Nat :=
  Nat.pow 2 (-magnitude.exponent).toNat

theorem Magnitude.denominator_pos (magnitude : Magnitude) : 0 < magnitude.denominator :=
  Nat.two_pow_pos _

end Binary64
end ThroughputCharts

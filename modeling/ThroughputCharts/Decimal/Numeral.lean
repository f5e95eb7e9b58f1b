import ThroughputCharts.Binary64.Nearest
import ThroughputCharts.Decimal.Count

/-!
# Decimal numerals

A numeral is an optional sign, digits with at most one point and at least one digit, and an optional
exponent.  It denotes a rational number, which is read as the nearest binary64 number.
-/

namespace ThroughputCharts
namespace Decimal

/-- The number `± coefficient * 10 ^ exponent`. -/
structure Numeral where
  negative : Bool
  coefficient : Nat
  exponent : Int
  deriving DecidableEq

/-- Splits off an optional sign and tells whether it is a minus. -/
def splitSign : List Char → Bool × List Char
  | '-' :: rest => (true, rest)
  | '+' :: rest => (false, rest)
  | text => (false, text)

/-- Splits off an optional point with the digits after it. -/
def splitFraction : List Char → List Char × List Char
  | '.' :: rest => (rest.takeWhile Char.isDigit, rest.dropWhile Char.isDigit)
  | text => ([], text)

/-- Reads an exponent part, which may be absent. -/
def readExponent? : List Char → Option Int
  | [] => some 0
  | mark :: rest =>
    if mark = 'e' ∨ mark = 'E' then
      let (negative, digits) := splitSign rest
      if isDigits digits then
        some (if negative then -(value digits : Int) else value digits)
      else
        none
    else
      none

def readNumeral? (text : List Char) : Option Numeral :=
  let (negative, unsigned) := splitSign text
  let whole := unsigned.takeWhile Char.isDigit
  let (fraction, tail) := splitFraction (unsigned.dropWhile Char.isDigit)
  if whole.isEmpty && fraction.isEmpty then
    none
  else
    (readExponent? tail).map fun exponent =>
      { negative, coefficient := value (whole ++ fraction), exponent := exponent - fraction.length }

namespace Numeral

/-- Positive numerals from `10 ^ 310` on are past every finite number. -/
def overflowExponent : Int := 310

/-- Numerals below `10 ^ (-330)` are nearer to zero than to any other number. -/
def underflowExponent : Int := -330

/-- The binary64 number nearest to the numeral, with its sign kept on zero.  Numerals far outside the
range are settled by their magnitude alone. -/
def toFloat (numeral : Numeral) : Float :=
  let magnitude := digitCount numeral.coefficient + numeral.exponent
  if numeral.coefficient = 0 ∨ magnitude < underflowExponent then
    Binary64.nearest numeral.negative 0 1
  else if overflowExponent < magnitude then
    Binary64.nearest numeral.negative (Nat.pow 2 1024) 1
  else
    Binary64.nearest numeral.negative (numeral.coefficient * Nat.pow 10 numeral.exponent.toNat)
      (Nat.pow 10 (-numeral.exponent).toNat)

end Numeral

end Decimal
end ThroughputCharts

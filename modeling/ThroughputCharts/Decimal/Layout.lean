import ThroughputCharts.Decimal.Shortest

/-!
# Layouts of decimals

The digits of a number are chosen first and laid out second.  Exports switch to exponents for very
large and very small numbers, table cells never do, and labels round to a fixed number of places.
-/

namespace ThroughputCharts
namespace Decimal

open Binary64

def zeros (count : Nat) : List Char :=
  List.replicate count '0'

def signText (negative : Bool) : List Char :=
  if negative then ['-'] else []

/-- Writes a decimal without exponent; whole numbers have no point. -/
def positional (decimal : Scaled) : List Char :=
  let digits := Nat.toDigits 10 decimal.coefficient
  if 0 ≤ decimal.exponent then
    digits ++ zeros decimal.exponent.toNat
  else
    let places := (-decimal.exponent).toNat
    let padded := zeros (places + 1 - digits.length) ++ digits
    padded.take (padded.length - places) ++ '.' :: padded.drop (padded.length - places)

/-- Writes an integer with a sign in front unless it is negative. -/
def signedInteger (number : Int) : List Char :=
  (if number < 0 then '-' else '+') :: Nat.toDigits 10 number.natAbs

/-- Puts the point after the first digit, if there are more. -/
def pointAfterFirst : List Char → List Char
  | first :: second :: rest => first :: '.' :: second :: rest
  | digits => digits

/-- The range of leading exponents that the export writes without exponent. -/
def exportedPositionally (leading : Int) : Bool :=
  decide (-5 ≤ leading) && decide (leading < 16)

/-- The export's text of a finite number: the fewest digits that read back, always with a fraction or
an exponent. -/
def exportText (negative : Bool) (magnitude : Magnitude) : List Char :=
  if magnitude.significand = 0 then
    signText negative ++ ['0', '.', '0']
  else
    let decimal := shortest magnitude
    let digits := Nat.toDigits 10 decimal.coefficient
    let leading := decimal.exponent + digits.length - 1
    signText negative ++
      if exportedPositionally leading then
        positional decimal ++ if 0 ≤ decimal.exponent then ['.', '0'] else []
      else
        pointAfterFirst digits ++ 'e' :: signedInteger leading

/-- The text of a number in a table cell: the fewest digits that read back, never an exponent. -/
def cellText : Float → List Char := fun number =>
  match parts number with
  | .notANumber => "NaN".toList
  | .infinite negative => signText negative ++ "inf".toList
  | .finite negative magnitude =>
    signText negative ++
      if magnitude.significand = 0 then ['0'] else positional (shortest magnitude)

/-- The nearest decimal with a number of places, ties to the even last digit. -/
def roundToPlaces (places : Nat) (magnitude : Magnitude) : Scaled :=
  ⟨roundDiv (magnitude.numerator * Nat.pow 10 places) magnitude.denominator, -(places : Int)⟩

def fixedText (places : Nat) (number : Float) : List Char :=
  match parts number with
  | .notANumber => "NaN".toList
  | .infinite negative => signText negative ++ "inf".toList
  | .finite negative magnitude =>
    signText negative ++ positional (roundToPlaces places magnitude)

/-- The nearest decimal with one leading digit and a number of places after it, ties to the even last
digit. -/
def roundToDigits (places : Nat) (magnitude : Magnitude) : Scaled :=
  let leading := leadingExponent magnitude.numerator magnitude.denominator
  let exponent := leading - places
  let coefficient := roundDiv (magnitude.numerator * Nat.pow 10 (-exponent).toNat)
    (magnitude.denominator * Nat.pow 10 exponent.toNat)
  if coefficient < Nat.pow 10 (places + 1) then
    ⟨coefficient, exponent⟩
  else
    ⟨coefficient / 10, exponent + 1⟩

/-- The text of a number in scientific notation with a number of places. -/
def scientificText (places : Nat) (number : Float) : List Char :=
  match parts number with
  | .notANumber => "NaN".toList
  | .infinite negative => signText negative ++ "inf".toList
  | .finite negative magnitude =>
    signText negative ++
      if magnitude.significand = 0 then
        pointAfterFirst (zeros (places + 1)) ++ ['e', '0']
      else
        let decimal := roundToDigits places magnitude
        let leading := decimal.exponent + places
        pointAfterFirst (Nat.toDigits 10 decimal.coefficient) ++
          'e' :: (signText (decide (leading < 0)) ++ Nat.toDigits 10 leading.natAbs)

end Decimal
end ThroughputCharts

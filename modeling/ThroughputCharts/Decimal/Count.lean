/-!
# Positive counts in decimal

Thread counts and problem sizes are written as plain decimal digits.  Reading is exact: a count is
accepted just when its unbounded value is positive and fits in 64 bits, whatever number of leading
zeros it has.
-/

namespace ThroughputCharts
namespace Decimal

def isDigits (text : List Char) : Bool :=
  !text.isEmpty && text.all Char.isDigit

def value (digits : List Char) : Nat :=
  Nat.ofDigitChars 10 digits 0

/-- The decimal digits of a number, without leading zeros. -/
def digits (number : Nat) : List Char :=
  Nat.toDigits 10 number

/-- Reads a 64-bit natural number in decimal digits. -/
def readWord? (text : List Char) : Option UInt64 :=
  if isDigits text && decide (value text < UInt64.size) then
    some (value text).toUInt64
  else
    none

/-- Reads a positive 64-bit count; signs, blanks and zero are refused. -/
def readCount? (text : List Char) : Option UInt64 :=
  (readWord? text).filter (0 < ·)

@[simp]
theorem value_digits (number : Nat) : value (digits number) = number :=
  Nat.ofDigitChars_ten_toDigits

theorem isDigits_digits (number : Nat) : isDigits (digits number) = true := by
  have nonempty : digits number ≠ [] :=
    List.ne_nil_of_length_pos Nat.length_toDigits_pos
  have allDigits : ∀ digit ∈ digits number, digit.isDigit = true :=
    fun _ member => Nat.isDigit_of_mem_toDigits (by decide) (by decide) member
  simp [isDigits, nonempty, List.all_eq_true.2 allDigits]

theorem readWord?_digits (number : UInt64) :
    readWord? (digits number.toNat) = some number := by
  simp [readWord?, isDigits_digits, number.toNat_lt_size]

end Decimal
end ThroughputCharts

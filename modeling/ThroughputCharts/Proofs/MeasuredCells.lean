import ThroughputCharts.Proofs.NearestEven
import ThroughputCharts.Proofs.NumberText
import ThroughputCharts.Proofs.NumeralGrammar
import ThroughputCharts.Proofs.TableReading

/-!
# Measurements in the cells of a table

A cell holds a measurement exactly when it is a numeral between blanks that rounds to a finite
number, and this rounding is the measurement.  So every measurement that a table gives is finite.
-/

namespace ThroughputCharts

open Binary64

namespace Decimal.Numeral

variable {numeral : Numeral} {number : Float}

theorem toRat_nonneg (numeral : Numeral) : 0 ≤ numeral.toRat := by
  rw [toRat]
  positivity

/-- The digits behind the point count as tenths, hundredths and so on. -/
theorem toRat_eq_of_digits {whole fraction : List Char} {exponent : Int}
    (coefficient : numeral.coefficient = value (whole ++ fraction))
    (places : numeral.exponent = exponent - fraction.length) :
    numeral.toRat = (value whole + value fraction / 10 ^ fraction.length) * 10 ^ exponent := by
  have shift : (10 : ℚ) ^ fraction.length ≠ 0 := by positivity
  rw [toRat, coefficient, places, value_append, zpow_sub₀ (by norm_num), zpow_natCast]
  push_cast
  field_simp

/-- A numeral is read as its rounding, behind its sign, when that is finite. -/
theorem toFloat_eq_iff :
    numeral.toFloat = number ∧ number.isFinite = true ↔
      RoundsToEven (withSign numeral.negative numeral.toRat) number ∧
        HasSign number numeral.negative := by
  have denominatorPositive : 0 < Nat.pow 10 (-numeral.exponent).toNat := Nat.pow_pos (by decide)
  rw [toFloat_eq_nearest, nearest_eq_iff denominatorPositive, ← toRat_eq_div]
  constructor
  · rintro ⟨magnitude, isParts, attracts⟩
    have rounds := (roundsToEven_withSign_iff isParts numeral.toRat_nonneg).mpr attracts
    exact ⟨rounds, magnitude, isParts⟩
  · rintro ⟨rounds, magnitude, isParts⟩
    exact ⟨magnitude, isParts, (roundsToEven_withSign_iff isParts numeral.toRat_nonneg).mp rounds⟩

end Decimal.Numeral

namespace Measurement

/-- Between blanks, a cell is a numeral that denotes the magnitude behind the sign. -/
def HoldsNumeral (cell : String) (negative : Bool) (magnitude : ℚ) : Prop :=
  ∃ front text back whole fraction exponent,
    cell.toList = front ++ (text ++ back) ∧ (∀ char ∈ front, Text.isBlank char = true) ∧
    (∀ char ∈ back, Text.isBlank char = true) ∧
    Decimal.IsNumeral text negative whole fraction exponent ∧
    magnitude =
      (Decimal.value whole + Decimal.value fraction / 10 ^ fraction.length) * 10 ^ exponent

section Cells

variable {cell : String} {negative : Bool} {magnitude : ℚ} {number : Float}

/-- The numeral in a cell is what is left between the blanks. -/
theorem holdsNumeral_iff :
    HoldsNumeral cell negative magnitude ↔ ∃ numeral,
      Decimal.readNumeral? (Text.trim cell.toList) = some numeral ∧
        numeral.negative = negative ∧ numeral.toRat = magnitude := by
  constructor
  · rintro ⟨front, text, back, whole, fraction, exponent, split, blankFront, blankBack, isNumeral,
      rfl⟩
    obtain ⟨nonempty, noBlanks⟩ := isNumeral.isBlank_eq_false
    rw [split, Text.trim_append blankFront blankBack nonempty noBlanks]
    exact ⟨⟨negative, Decimal.value (whole ++ fraction), exponent - fraction.length⟩,
      Decimal.readNumeral?_eq_some_iff.mpr ⟨whole, fraction, exponent, isNumeral, rfl, rfl⟩, rfl,
      Decimal.Numeral.toRat_eq_of_digits rfl rfl⟩
  · rintro ⟨numeral, accepted, rfl, rfl⟩
    obtain ⟨whole, fraction, exponent, isNumeral, coefficient, places⟩ :=
      Decimal.readNumeral?_eq_some_iff.mp accepted
    obtain ⟨front, back, split, blankFront, blankBack⟩ := Text.exists_eq_trim cell.toList
    exact ⟨front, _, back, whole, fraction, exponent, split, blankFront, blankBack, isNumeral,
      Decimal.Numeral.toRat_eq_of_digits coefficient places⟩

theorem HoldsNumeral.nonneg (holds : HoldsNumeral cell negative magnitude) : 0 ≤ magnitude := by
  obtain ⟨numeral, -, -, rfl⟩ := holdsNumeral_iff.mp holds
  exact numeral.toRat_nonneg

theorem read?_eq_some_iff :
    read? cell = some number ↔ ∃ negative magnitude, HoldsNumeral cell negative magnitude ∧
      RoundsToEven (withSign negative magnitude) number ∧ HasSign number negative := by
  rw [read?, Option.filter_eq_some_iff, Option.map_eq_some_iff]
  constructor
  · rintro ⟨⟨numeral, accepted, isNumber⟩, finite⟩
    have rounds := Decimal.Numeral.toFloat_eq_iff.mp ⟨isNumber, finite⟩
    exact ⟨_, _, holdsNumeral_iff.mpr ⟨numeral, accepted, rfl, rfl⟩, rounds⟩
  · rintro ⟨negative, magnitude, holds, rounds⟩
    obtain ⟨numeral, accepted, rfl, rfl⟩ := holdsNumeral_iff.mp holds
    obtain ⟨isNumber, finite⟩ := Decimal.Numeral.toFloat_eq_iff.mpr rounds
    exact ⟨⟨numeral, accepted, isNumber⟩, finite⟩

/-- A cell gives no measurement just when every numeral it holds is past the end of the range. -/
theorem read?_eq_none_iff :
    read? cell = none ↔
      ∀ negative magnitude, HoldsNumeral cell negative magnitude → rangeEnd ≤ magnitude := by
  rw [Option.eq_none_iff_forall_ne_some]
  constructor
  · intro missing negative magnitude holds
    by_contra inRange
    obtain ⟨number, rounds⟩ :=
      (exists_roundsToEven_iff negative holds.nonneg).mpr (not_le.mp inRange)
    exact missing number (read?_eq_some_iff.mpr ⟨negative, magnitude, holds, rounds⟩)
  · intro past number found
    obtain ⟨negative, magnitude, holds, rounds⟩ := read?_eq_some_iff.mp found
    exact (past negative magnitude holds).not_gt
      ((exists_roundsToEven_iff negative holds.nonneg).mp ⟨number, rounds⟩)

theorem HoldsNumeral.exists_isDigit (holds : HoldsNumeral cell negative magnitude) :
    ∃ char ∈ cell.toList, char.isDigit = true := by
  obtain ⟨front, text, back, whole, fraction, exponent, split, -, -, isNumeral, -⟩ := holds
  obtain ⟨digit, member, isDigit⟩ := isNumeral.exists_isDigit
  rw [split]
  exact ⟨digit, List.mem_append_right _ (List.mem_append_left _ member), isDigit⟩

/-- Neither an empty cell nor the name of an infinity or of a NaN has a digit. -/
theorem read?_eq_none_of_digitless (digitless : ∀ char ∈ cell.toList, char.isDigit = false) :
    read? cell = none := by
  rw [read?_eq_none_iff]
  intro negative magnitude holds
  obtain ⟨digit, member, isDigit⟩ := holds.exists_isDigit
  rw [digitless digit member] at isDigit
  contradiction

theorem isFinite_of_read? (found : read? cell = some number) : number.isFinite = true :=
  (Option.filter_eq_some_iff.mp found).2

end Cells

/-- The measurement in a record is that of a cell. -/
theorem isFinite_of_isRecord {family : Family} {nameIndex valueIndex : Nat} {row : Csv.Row}
    {record : Record} (isRecord : Table.IsRecord family nameIndex valueIndex row record) :
    ∀ number, record.value = some number → number.isFinite = true := by
  intro number found
  obtain ⟨cells, -, -, isValue, -⟩ := isRecord
  rw [isValue] at found
  obtain ⟨cell, -, found⟩ := Option.bind_eq_some_iff.mp found
  exact isFinite_of_read? found

theorem isFinite_of_read {family : Family} {source : String} {bytes : List UInt8}
    {records : List Record} (isRead : Table.read family source bytes = .ok records) :
    ∀ record ∈ records, ∀ number, record.value = some number → number.isFinite = true := by
  obtain ⟨nameIndex, valueIndex, areRecords⟩ := Table.exists_isRecord_of_read isRead
  exact ((List.forall₂_and_left _ _).mp
    (areRecords.flip.imp fun _ _ isRecord => ⟨isFinite_of_isRecord isRecord, isRecord⟩)).1

/-- A cell is read as the number to which the numeral in it rounds, ties to even and with its sign,
and gives no measurement when it holds no numeral, so always without a digit, or one past the end of
the range.  No record has a measurement that is not finite. -/
theorem read?_rounds_numerals :
    (∀ cell number, read? cell = some number ↔
      ∃ negative magnitude, HoldsNumeral cell negative magnitude ∧
        RoundsToEven (withSign negative magnitude) number ∧ HasSign number negative) ∧
    (∀ cell, read? cell = none ↔
      ∀ negative magnitude, HoldsNumeral cell negative magnitude → rangeEnd ≤ magnitude) ∧
    (∀ cell, (∀ char ∈ cell.toList, char.isDigit = false) → read? cell = none) ∧
    ∀ family source bytes records, Table.read family source bytes = .ok records →
      ∀ record ∈ records, ∀ number, record.value = some number → number.isFinite = true :=
  ⟨fun _ _ => read?_eq_some_iff, fun _ => read?_eq_none_iff,
    fun _ => read?_eq_none_of_digitless, fun _ _ _ _ => isFinite_of_read⟩

/-- A list table with a negative zero between blanks, an infinity, and a numeral that overflows. -/
def bordersTable : List UInt8 :=
  Text.toUtf8 "ops,name\n\t-.0e+5 ,A\n-Infinity,B\n1.7976931348623159e308,C"

def bordersRecords : List Record :=
  [⟨"A", some (Float.ofBits 0x8000000000000000), .operationsPerSecond⟩,
    ⟨"B", none, .operationsPerSecond⟩, ⟨"C", none, .operationsPerSecond⟩]

theorem read?_bordersTable :
    (∃ negative magnitude, HoldsNumeral "\t-.0e+5 " negative magnitude ∧
      RoundsToEven (withSign negative magnitude) (Float.ofBits 0x8000000000000000) ∧
        HasSign (Float.ofBits 0x8000000000000000) negative) ∧
    (∀ negative magnitude, HoldsNumeral "1.7976931348623159e308" negative magnitude →
      rangeEnd ≤ magnitude) ∧
    read? "-Infinity" = none ∧
    Table.read .list "results.csv" bordersTable = .ok bordersRecords ∧
    ∀ record ∈ bordersRecords, ∀ number, record.value = some number → number.isFinite = true := by
  obtain ⟨reads, missing, digitless, finite⟩ := read?_rounds_numerals
  have isRead : Table.read .list "results.csv" bordersTable = .ok bordersRecords := by
    decide +kernel
  exact ⟨(reads _ _).mp (by decide +kernel), (missing _).mp (by decide +kernel),
    digitless _ (by simp), isRead, finite _ _ _ _ isRead⟩

end Measurement
end ThroughputCharts

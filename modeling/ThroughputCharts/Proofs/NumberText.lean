import ThroughputCharts.Decimal.Layout
import ThroughputCharts.Measurement
import ThroughputCharts.Proofs.NumeralGrammar
import ThroughputCharts.Proofs.ShortestDecimal

/-!
# Numbers read back from their texts

A numeral is read as the binary64 number nearest to its value, however large or small it is.  The
digits that are written for a finite number lie in its rounding interval, so the number comes back
with all its bits.
-/

namespace ThroughputCharts

namespace Decimal

open Binary64

theorem two_pow_le_underflow : 2 ^ 1075 ≤ 10 ^ 330 := by decide +kernel

theorem two_pow_le_overflow : 2 ^ 1024 ≤ 10 ^ 310 := by decide +kernel

namespace Numeral

/-- The value of a numeral without its sign. -/
def toRat (numeral : Numeral) : ℚ :=
  numeral.coefficient * 10 ^ numeral.exponent

theorem toRat_eq_div (numeral : Numeral) :
    numeral.toRat = (numeral.coefficient * Nat.pow 10 numeral.exponent.toNat : Nat) /
      (Nat.pow 10 (-numeral.exponent).toNat : Nat) := by
  rw [toRat, zpow_eq_div (by norm_num)]
  push_cast [Nat.pow_eq]
  ring

theorem toRat_lt (numeral : Numeral) :
    numeral.toRat < 10 ^ (digitCount numeral.coefficient + numeral.exponent) := by
  have bound : (numeral.coefficient : ℚ) < 10 ^ (digitCount numeral.coefficient : Int) := by
    rw [zpow_natCast]
    exact_mod_cast lt_pow_digitCount numeral.coefficient
  rw [zpow_add₀ (by norm_num)]
  exact mul_lt_mul_of_pos_right bound (by positivity)

theorem le_toRat {numeral : Numeral} (positive : 0 < numeral.coefficient) :
    10 ^ (digitCount numeral.coefficient + numeral.exponent - 1) ≤ numeral.toRat := by
  have digitsPositive : 0 < digitCount numeral.coefficient := Nat.length_toDigits_pos
  have bound : (10 : ℚ) ^ ((digitCount numeral.coefficient - 1 : Nat) : Int) ≤
      numeral.coefficient := by
    rw [zpow_natCast]
    exact_mod_cast pow_digitCount_le positive
  have split : (digitCount numeral.coefficient + numeral.exponent - 1 : Int) =
      (digitCount numeral.coefficient - 1 : Nat) + numeral.exponent := by
    omega
  rw [split, zpow_add₀ (by norm_num)]
  exact mul_le_mul_of_nonneg_right bound (by positivity)

theorem nearest_congr {negative : Bool} {numerator denominator other otherDenominator : Nat}
    (same : nearestPattern numerator denominator = nearestPattern other otherDenominator) :
    nearest negative numerator denominator = nearest negative other otherDenominator := by
  rw [nearest, nearest, same]

/-- Settling numerals outside the range by their magnitude makes no difference. -/
theorem toFloat_eq_nearest (numeral : Numeral) :
    numeral.toFloat = nearest numeral.negative
      (numeral.coefficient * Nat.pow 10 numeral.exponent.toNat)
      (Nat.pow 10 (-numeral.exponent).toNat) := by
  have denominatorPositive : 0 < Nat.pow 10 (-numeral.exponent).toNat := Nat.pow_pos (by decide)
  have value := numeral.toRat_eq_div
  unfold toFloat
  dsimp only
  split
  next tiny =>
    have isZero : nearestPattern (numeral.coefficient * Nat.pow 10 numeral.exponent.toNat)
        (Nat.pow 10 (-numeral.exponent).toNat) = 0 := by
      rcases tiny with isZero | underflows
      · simp [isZero, nearestPattern]
      · apply nearestPattern_eq_zero denominatorPositive
        rw [← value]
        calc numeral.toRat
            ≤ 10 ^ (digitCount numeral.coefficient + numeral.exponent) := numeral.toRat_lt.le
          _ ≤ 10 ^ underflowExponent := zpow_le_zpow_right₀ (by norm_num) underflows.le
          _ ≤ 2 ^ (leastExponent - 1) := by
              rw [show underflowExponent = -(330 : Nat) from rfl,
                show leastExponent - 1 = -(1075 : Nat) from rfl, zpow_neg, zpow_neg, zpow_natCast,
                zpow_natCast, inv_le_inv₀ (by positivity) (by positivity)]
              exact_mod_cast two_pow_le_underflow
    exact nearest_congr isZero.symm
  next notTiny =>
    split
    next overflows =>
      push Not at notTiny
      have coefficientPositive := Nat.pos_of_ne_zero notTiny.1
      have isInfinite : nearestPattern (numeral.coefficient * Nat.pow 10 numeral.exponent.toNat)
          (Nat.pow 10 (-numeral.exponent).toNat) = infinityPattern := by
        apply nearestPattern_eq_infinityPattern denominatorPositive
        rw [← value]
        calc (2 : ℚ) ^ (1024 : Int)
            ≤ 10 ^ overflowExponent := by
              rw [show overflowExponent = (310 : Nat) from rfl, zpow_natCast,
                show (1024 : Int) = (1024 : Nat) from rfl, zpow_natCast]
              exact_mod_cast two_pow_le_overflow
          _ ≤ 10 ^ (digitCount numeral.coefficient + numeral.exponent - 1) :=
              zpow_le_zpow_right₀ (by norm_num) (by omega)
          _ ≤ numeral.toRat := le_toRat coefficientPositive
      -- A variable in place of the exponent keeps the power from being evaluated.
      obtain ⟨bits, isBits⟩ : ∃ bits, bits = 1024 := ⟨_, rfl⟩
      have powerIsInfinite : nearestPattern (Nat.pow 2 bits) 1 = infinityPattern := by
        apply nearestPattern_eq_infinityPattern one_pos
        rw [Nat.pow_eq, Nat.cast_pow, Nat.cast_two, Nat.cast_one, div_one, ← zpow_natCast, isBits]
        exact le_rfl
      rw [← isBits]
      exact nearest_congr (powerIsInfinite.trans isInfinite.symm)
    next => rfl

variable {numeral : Numeral} {number : Float} {negative : Bool} {magnitude : Magnitude}

/-- A numeral from the rounding interval of a finite number is read as that number. -/
theorem toFloat_eq_of_attracts (finite : parts number = .finite negative magnitude)
    (sign : numeral.negative = negative) (attracts : magnitude.Attracts numeral.toRat) :
    numeral.toFloat = number := by
  rw [toFloat_eq_nearest, sign]
  rw [toRat_eq_div] at attracts
  exact nearest_eq_of_attracts finite (Nat.pow_pos (by decide)) attracts

end Numeral

section Texts

theorem value_append (first second : List Char) :
    value (first ++ second) = 10 ^ second.length * value first + value second := by
  rw [value, Nat.ofDigitChars_append, Nat.ofDigitChars_eq_ofDigitChars_zero, value, value]

theorem value_append_zeros (text : List Char) (count : Nat) :
    value (text ++ zeros count) = value text * 10 ^ count := by
  rw [value, Nat.ofDigitChars_append, zeros, Nat.ofDigitChars_replicate_zero, value, Nat.mul_comm]

theorem value_zeros_append (count : Nat) (text : List Char) :
    value (zeros count ++ text) = value text := by
  rw [value_append, ← List.nil_append (zeros count), value_append_zeros]
  simp [value]

theorem isDigit_of_mem_digits {number : Nat} {char : Char} (member : char ∈ Nat.toDigits 10 number) :
    char.isDigit = true :=
  Nat.isDigit_of_mem_toDigits (by decide) (by decide) member

theorem isDigit_of_mem_zeros {count : Nat} {char : Char} (member : char ∈ zeros count) :
    char.isDigit = true := by
  rw [List.eq_of_mem_replicate member]
  rfl

theorem isSign_signText (negative : Bool) : IsSign (signText negative) negative := by
  cases negative
  · exact .absent
  · exact .minus

/-- Digits after the sign are the whole part, and what comes next is the fraction or the exponent. -/
theorem readNumeral?_append {whole rest : List Char} (negative : Bool) (nonempty : whole ≠ [])
    (digits : ∀ char ∈ whole, char.isDigit = true) (ends : rest.takeWhile Char.isDigit = []) :
    readNumeral? (signText negative ++ (whole ++ rest)) =
      (readExponent? (splitFraction rest).2).map fun exponent =>
        ⟨negative, value (whole ++ (splitFraction rest).1),
          exponent - (splitFraction rest).1.length⟩ := by
  have unsigned : ∀ char ∈ (whole ++ rest).head?, char ≠ '-' ∧ char ≠ '+' := by
    obtain ⟨first, whole, rfl⟩ := List.exists_cons_of_ne_nil nonempty
    intro char isFirst
    obtain rfl := Option.some.inj isFirst
    have digit := digits first List.mem_cons_self
    exact ⟨ne_of_isDigit digit rfl, ne_of_isDigit digit rfl⟩
  have wholePart : (whole ++ rest).takeWhile Char.isDigit = whole := by
    rw [List.takeWhile_append_of_pos digits, ends, List.append_nil]
  have restPart : (whole ++ rest).dropWhile Char.isDigit = rest := by
    have parts := List.takeWhile_append_dropWhile (p := Char.isDigit) (l := whole ++ rest)
    rw [wholePart] at parts
    exact List.append_cancel_left parts
  rw [readNumeral?, (isSign_signText negative).splitSign_append unsigned]
  simp only [wholePart, restPart, List.isEmpty_eq_false_iff.mpr nonempty, Bool.false_and,
    Bool.false_eq_true, if_false]

theorem readNumeral?_digits {whole : List Char} (negative : Bool) (nonempty : whole ≠ [])
    (digits : ∀ char ∈ whole, char.isDigit = true) :
    readNumeral? (signText negative ++ whole) = some ⟨negative, value whole, 0⟩ := by
  have read := @readNumeral?_append whole [] negative nonempty digits rfl
  rw [List.append_nil] at read
  rw [read]
  simp [splitFraction, readExponent?]

theorem readNumeral?_point {whole fraction : List Char} (negative : Bool) (nonempty : whole ≠ [])
    (wholeDigits : ∀ char ∈ whole, char.isDigit = true)
    (fractionDigits : ∀ char ∈ fraction, char.isDigit = true) :
    readNumeral? (signText negative ++ (whole ++ '.' :: fraction)) =
      some ⟨negative, value (whole ++ fraction), -fraction.length⟩ := by
  rw [readNumeral?_append negative nonempty wholeDigits (by rfl), splitFraction]
  rw [List.takeWhile_eq_self_iff.mpr fractionDigits, List.dropWhile_eq_nil_iff.mpr fractionDigits]
  simp [readExponent?]

/-- A point has digits on both sides: a single zero or the first digits in front of it, and a digit for
each place behind it. -/
theorem exists_positional_eq_point {decimal : Scaled} (fractional : decimal.exponent < 0) :
    ∃ whole fraction, positional decimal = whole ++ '.' :: fraction ∧
      (whole = ['0'] ∨ whole ≠ [] ∧ whole <+: Nat.toDigits 10 decimal.coefficient) ∧
      (∀ char ∈ whole ++ fraction, char.isDigit = true) ∧
      value (whole ++ fraction) = decimal.coefficient ∧
      -(fraction.length : Int) = decimal.exponent := by
  rw [positional, if_neg (Int.not_le.mpr fractional)]
  extract_lets places padded
  have length : padded.length =
      max (places + 1) (Nat.toDigits 10 decimal.coefficient).length := by
    simp only [padded, List.length_append, zeros, List.length_replicate]
    omega
  refine ⟨padded.take (padded.length - places), padded.drop (padded.length - places), rfl, ?_, ?_,
    ?_, ?_⟩
  · rcases Nat.lt_or_ge places (Nat.toDigits 10 decimal.coefficient).length with long | short
    · have unpadded : padded = Nat.toDigits 10 decimal.coefficient := by
        simp only [padded, Nat.sub_eq_zero_of_le long, zeros, List.replicate_zero, List.nil_append]
      refine .inr ⟨?_, unpadded ▸ List.take_prefix _ _⟩
      apply List.ne_nil_of_length_pos
      rw [List.length_take]
      omega
    · left
      have one : padded.length - places = 1 := by omega
      have zeroFirst : padded =
          '0' :: (zeros (places - (Nat.toDigits 10 decimal.coefficient).length) ++
            Nat.toDigits 10 decimal.coefficient) := by
        simp only [padded, zeros, Nat.succ_sub short, List.replicate_succ, List.cons_append]
      rw [one, zeroFirst, List.take_succ_cons, List.take_zero]
  · rw [List.take_append_drop, List.forall_mem_append]
    exact ⟨fun _ member => isDigit_of_mem_zeros member, fun _ member => isDigit_of_mem_digits member⟩
  · rw [List.take_append_drop, value_zeros_append]
    exact Nat.ofDigitChars_ten_toDigits
  · rw [List.length_drop]
    omega

/-- The digits of a decimal read as its value, wherever the point stands. -/
theorem readNumeral?_positional (negative : Bool) (decimal : Scaled) :
    ∃ numeral, readNumeral? (signText negative ++ positional decimal) = some numeral ∧
      numeral.negative = negative ∧ numeral.toRat = decimal.toRat := by
  rcases lt_or_ge decimal.exponent 0 with fractional | whole
  · obtain ⟨whole, fraction, isPoint, first, digits, coefficient, exponent⟩ :=
      exists_positional_eq_point fractional
    rw [List.forall_mem_append] at digits
    have nonempty : whole ≠ [] := by
      rcases first with rfl | ⟨nonempty, -⟩
      · exact List.cons_ne_nil _ _
      · exact nonempty
    rw [isPoint]
    refine ⟨_, readNumeral?_point negative nonempty digits.1 digits.2, rfl, ?_⟩
    rw [Numeral.toRat, coefficient, exponent, Scaled.toRat]
  · rw [positional, if_pos whole]
    have digits : ∀ char ∈ Nat.toDigits 10 decimal.coefficient ++ zeros decimal.exponent.toNat,
        char.isDigit = true := by
      rw [List.forall_mem_append]
      exact ⟨fun _ member => isDigit_of_mem_digits member,
        fun _ member => isDigit_of_mem_zeros member⟩
    have nonempty : Nat.toDigits 10 decimal.coefficient ++ zeros decimal.exponent.toNat ≠ [] :=
      List.append_ne_nil_of_left_ne_nil Nat.toDigits_ne_nil _
    refine ⟨_, readNumeral?_digits negative nonempty digits, rfl, ?_⟩
    have coefficient : value (Nat.toDigits 10 decimal.coefficient) = decimal.coefficient :=
      Nat.ofDigitChars_ten_toDigits
    rw [Numeral.toRat, value_append_zeros, coefficient, Scaled.toRat]
    conv_rhs => rw [← Int.toNat_of_nonneg whole]
    push_cast
    rw [zpow_natCast, mul_one]

theorem readNumeral?_zero (negative : Bool) :
    readNumeral? (signText negative ++ ['0']) = some ⟨negative, 0, 0⟩ := by
  cases negative <;> rfl

/-- Whether a character occurs in a number that is written without exponent. -/
def isNumberChar (char : Char) : Bool :=
  char.isDigit || char == '.' || char == '-'

theorem isBlank_of_isNumberChar {char : Char} (inNumber : isNumberChar char = true) :
    Text.isBlank char = false := by
  simp only [isNumberChar, Bool.or_eq_true, beq_iff_eq] at inNumber
  rcases inNumber with (isDigit | rfl) | rfl
  · exact isBlank_of_isDigit isDigit
  · rfl
  · rfl

theorem isNumberChar_of_mem_signText {negative : Bool} {char : Char}
    (member : char ∈ signText negative) : isNumberChar char = true := by
  cases negative with
  | false => contradiction
  | true =>
      obtain rfl := List.mem_singleton.mp member
      rfl

theorem isNumberChar_of_mem_positional {decimal : Scaled} {char : Char}
    (member : char ∈ positional decimal) : isNumberChar char = true := by
  have digits {char : Char} (isDigit : char.isDigit = true) : isNumberChar char = true := by
    simp [isNumberChar, isDigit]
  rw [positional] at member
  extract_lets places padded at member
  split at member
  next =>
    rcases List.mem_append.mp member with inDigits | inZeros
    · exact digits (isDigit_of_mem_digits inDigits)
    · exact digits (isDigit_of_mem_zeros inZeros)
  next =>
    have inPadded {char : Char} (member : char ∈ padded) : isNumberChar char = true := by
      rcases List.mem_append.mp member with inZeros | inDigits
      · exact digits (isDigit_of_mem_zeros inZeros)
      · exact digits (isDigit_of_mem_digits inDigits)
    rcases List.mem_append.mp member with inWhole | afterWhole
    · exact inPadded (List.mem_of_mem_take inWhole)
    rcases List.mem_cons.mp afterWhole with rfl | inFraction
    · rfl
    · exact inPadded (List.mem_of_mem_drop inFraction)

/-- Without places the digits are those of a whole number. -/
theorem fixedText_zero {number : Float} {negative : Bool} {magnitude : Magnitude}
    (isParts : parts number = .finite negative magnitude) :
    fixedText 0 number = signText negative ++
      Nat.toDigits 10 (roundDiv magnitude.numerator magnitude.denominator) := by
  simp [fixedText, isParts, roundToPlaces, positional, zeros]

theorem trim_signText_append {text : List Char} (negative : Bool)
    (inNumber : ∀ char ∈ text, isNumberChar char = true) :
    Text.trim (signText negative ++ text) = signText negative ++ text := by
  apply Text.trim_eq_self
  rw [List.forall_mem_append]
  exact ⟨fun char member => isBlank_of_isNumberChar (isNumberChar_of_mem_signText member),
    fun char member => isBlank_of_isNumberChar (inNumber char member)⟩

/-- The text of a finite number has no blanks, and its value is in the rounding interval. -/
theorem readNumeral?_cellText {number : Float} {negative : Bool} {magnitude : Magnitude}
    (finite : parts number = .finite negative magnitude) :
    ∃ numeral, readNumeral? (Text.trim (cellText number)) = some numeral ∧
      numeral.negative = negative ∧ magnitude.Attracts numeral.toRat := by
  have canonical := canonical_of_parts finite
  rw [cellText, finite]
  dsimp only
  split
  next isZero =>
    rw [trim_signText_append negative (List.forall_mem_singleton.mpr rfl)]
    refine ⟨_, readNumeral?_zero negative, rfl, ?_⟩
    have value : Numeral.toRat ⟨negative, 0, 0⟩ = magnitude.toRat := by
      rw [Numeral.toRat, Magnitude.toRat, isZero, Nat.cast_zero, zero_mul, zero_mul]
    rw [value]
    exact magnitude.attracts_toRat
  next notZero =>
    obtain ⟨numeral, read, sign, value⟩ := readNumeral?_positional negative (shortest magnitude)
    rw [trim_signText_append negative fun char member => isNumberChar_of_mem_positional member]
    refine ⟨numeral, read, sign, ?_⟩
    rw [value]
    exact attracts_shortest canonical (Nat.pos_of_ne_zero notZero)

end Texts

end Decimal

namespace Measurement

open Decimal Binary64

/-- A finite number is read back from its cell with all its bits, and any other number is missing. -/
theorem read?_cellText (number : Float) :
    read? (String.ofList (cellText number)) = if number.isFinite then some number else none := by
  rw [read?, String.toList_ofList]
  split
  next isFinite =>
    obtain ⟨negative, magnitude, finite⟩ := isFinite_iff.mp isFinite
    obtain ⟨numeral, read, sign, attracts⟩ := readNumeral?_cellText finite
    rw [read, Option.map_some, Numeral.toFloat_eq_of_attracts finite sign attracts,
      Option.filter_some, if_pos isFinite]
  next notFinite =>
    rw [isFinite_iff] at notFinite
    rw [cellText]
    cases found : parts number with
    | notANumber =>
        have refused : readNumeral? (Text.trim "NaN".toList) = none := by decide
        rw [refused, Option.map_none, Option.filter_none]
    | infinite negative =>
        have refused : readNumeral? (Text.trim (signText negative ++ "inf".toList)) = none := by
          cases negative <;> decide
        rw [refused, Option.map_none, Option.filter_none]
    | finite negative magnitude => exact absurd ⟨negative, magnitude, found⟩ notFinite

end Measurement

end ThroughputCharts

import ThroughputCharts.Proofs.LabelReading

/-!
# Throughput labels in scientific notation

The digits of scientific notation are rounded to a fixed number, and read back as what they were rounded
to.  Two of them are enough for a number that is hardly off a decimal of at most two digits.
-/

namespace ThroughputCharts

open Binary64

theorem Binary64.Magnitude.numerator_pos {magnitude : Magnitude}
    (positive : 0 < magnitude.significand) : 0 < magnitude.numerator :=
  Nat.mul_pos positive (Nat.two_pow_pos _)

namespace Decimal

section Digits

variable {numerator denominator places : Nat} {magnitude : Magnitude}

/-- A quotient is rounded to as many places as its leading digit asks for. -/
theorem roundDiv_leading_bounds (numeratorPositive : 0 < numerator)
    (denominatorPositive : 0 < denominator) {exponent : ℤ}
    (isExponent : exponent = leadingExponent numerator denominator - places) :
    10 ^ places ≤ roundDiv (numerator * Nat.pow 10 (-exponent).toNat)
        (denominator * Nat.pow 10 exponent.toNat) ∧
      roundDiv (numerator * Nat.pow 10 (-exponent).toNat)
        (denominator * Nat.pow 10 exponent.toNat) ≤ 10 ^ (places + 1) := by
  obtain ⟨low, high⟩ := leadingExponent_spec numeratorPositive denominatorPositive
  have scaledPositive : 0 < denominator * Nat.pow 10 exponent.toNat :=
    Nat.mul_pos denominatorPositive (Nat.pow_pos (by decide))
  have within := @within_roundDiv (numerator * Nat.pow 10 (-exponent).toNat) _ scaledPositive
  rw [ratio_eq] at within
  generalize roundDiv _ _ = rounded at *
  have isLeading : leadingExponent numerator denominator = exponent + places := by omega
  have unit : (0 : ℚ) < 10 ^ exponent := by positivity
  rw [isLeading, zpow_add₀ (by norm_num), zpow_natCast, mul_comm, ← le_div_iff₀ unit] at low
  rw [isLeading, add_assoc, zpow_add₀ (by norm_num), mul_comm, ← div_lt_iff₀ unit] at high
  obtain ⟨below, above, -⟩ := within
  constructor
  · have less : ((10 ^ places : Nat) : ℚ) < (rounded + 1 : Nat) := by
      push_cast
      linarith
    exact Nat.lt_succ_iff.mp (by exact_mod_cast less)
  · have less : (rounded : ℚ) < (10 ^ (places + 1) + 1 : Nat) := by
      have power : (10 : ℚ) ^ ((places : ℤ) + 1) = 10 ^ (places + 1) := by
        exact_mod_cast zpow_natCast (10 : ℚ) (places + 1)
      push_cast
      linarith
    exact Nat.lt_succ_iff.mp (by exact_mod_cast less)

/-- One digit stands in front of the places. -/
theorem length_toDigits_roundToDigits (positive : 0 < magnitude.significand) :
    (Nat.toDigits 10 (roundToDigits places magnitude).coefficient).length = places + 1 := by
  have bounds := @roundDiv_leading_bounds _ _ places (Magnitude.numerator_pos positive)
    magnitude.denominator_pos _ rfl
  have digits {coefficient : Nat} (low : 10 ^ places ≤ coefficient)
      (high : coefficient < 10 ^ (places + 1)) :
      (Nat.toDigits 10 coefficient).length = places + 1 := by
    have atMost := (Nat.length_toDigits_le_iff (by decide) places.succ_pos).mpr high
    have below := lt_pow_digitCount coefficient
    have powers : 10 ^ places < 10 ^ digitCount coefficient := low.trans_lt below
    have atLeast := (Nat.pow_lt_pow_iff_right (by decide)).mp powers
    rw [digitCount] at atLeast
    omega
  unfold roundToDigits
  extract_lets leading exponent coefficient
  change 10 ^ places ≤ coefficient ∧ coefficient ≤ 10 ^ (places + 1) at bounds
  split
  next less => exact digits bounds.1 less
  next notLess =>
    have isNext : coefficient = 10 ^ places * 10 := by
      rw [← pow_succ]
      exact le_antisymm bounds.2 (not_lt.mp notLess)
    apply digits
    · rw [isNext, Nat.mul_div_cancel _ (by decide)]
    · rw [isNext, Nat.mul_div_cancel _ (by decide)]
      exact Nat.pow_lt_pow_succ (by decide)

/-- A number that is hardly off a decimal of at most two digits is hardly off a whole number of units of
its second digit. -/
theorem exists_units_of_near {number : ℚ} {count : Nat} {place exponent : ℤ}
    (low : 10 ^ (place + 1) ≤ number) (high : number < 10 ^ (place + 2)) (few : count ≤ 99)
    (near : |number - count * 10 ^ exponent| ≤ count * 10 ^ exponent / 2 ^ 40) :
    ∃ units : Nat, units ≤ 100 ∧ (count : ℚ) * 10 ^ exponent = units * 10 ^ place ∧
      |number / 10 ^ place - units| ≤ 1 / 4 := by
  have castFew : (count : ℚ) ≤ 99 := by exact_mod_cast few
  have unit : (0 : ℚ) < 10 ^ place := by positivity
  have hundred (power : ℤ) : (10 : ℚ) ^ (power + 2) = 10 ^ power * 100 :=
    zpow_add₀ (by norm_num) power 2
  obtain ⟨below, above⟩ := abs_le.mp near
  -- The decimal has no digits behind the two.
  obtain ⟨shift, rfl⟩ : ∃ shift : Nat, exponent = place + shift := by
    have wanted : (0 : ℚ) < 10 ^ exponent := by positivity
    have scaled := mul_le_mul_of_nonneg_right castFew wanted.le
    have powers : (10 : ℚ) ^ (place + 1) < 10 ^ (exponent + 2) := by
      rw [hundred]
      linarith
    rw [zpow_lt_zpow_iff_right₀ (by norm_num)] at powers
    exact ⟨(exponent - place).toNat, by omega⟩
  have isDecimal : (count : ℚ) * 10 ^ (place + shift) = (count * 10 ^ shift : Nat) * 10 ^ place := by
    rw [zpow_add₀ (by norm_num), zpow_natCast]
    push_cast
    ring
  rw [isDecimal] at below above ⊢
  generalize count * 10 ^ shift = units at *
  rw [hundred, mul_comm, ← div_lt_iff₀ unit] at high
  have isNumber : number = number / 10 ^ place * 10 ^ place := (div_mul_cancel₀ _ unit.ne').symm
  generalize number / 10 ^ place = quotient at *
  rw [isNumber] at below above
  have quotientLow : units - units / 2 ^ 40 ≤ quotient := by
    apply le_of_mul_le_mul_right _ unit
    linarith
  have quotientHigh : quotient ≤ units + units / 2 ^ 40 := by
    apply le_of_mul_le_mul_right _ unit
    linarith
  have less : (units : ℚ) < (101 : Nat) := by
    push_cast
    linarith
  have atMost : units ≤ 100 := Nat.lt_succ_iff.mp (by exact_mod_cast less)
  have castAtMost : (units : ℚ) ≤ 100 := by exact_mod_cast atMost
  exact ⟨units, atMost, rfl, abs_le.mpr ⟨by linarith, by linarith⟩⟩

/-- Two digits give back a decimal of at most two digits that the number is hardly off. -/
theorem toRat_roundToDigits_of_near {count : Nat} {exponent : ℤ}
    (positive : 0 < magnitude.significand) (few : count ≤ 99)
    (near : |magnitude.toRat - count * 10 ^ exponent| ≤ count * 10 ^ exponent / 2 ^ 40) :
    (roundToDigits 1 magnitude).toRat = count * 10 ^ exponent := by
  have denominatorPositive := magnitude.denominator_pos
  obtain ⟨low, high⟩ := leadingExponent_spec (Magnitude.numerator_pos positive) denominatorPositive
  rw [← magnitude.toRat_eq_div] at low high
  unfold roundToDigits
  extract_lets leading place coefficient
  have isLeading : leading = place + 1 := (sub_add_cancel leading 1).symm
  change 10 ^ leading ≤ _ at low
  change _ < 10 ^ (leading + 1) at high
  rw [isLeading] at low
  rw [isLeading, add_assoc] at high
  obtain ⟨units, atMost, isDecimal, unitsNear⟩ := exists_units_of_near low high few near
  obtain ⟨below, above⟩ := abs_le.mp unitsNear
  have scaledPositive : 0 < magnitude.denominator * Nat.pow 10 place.toNat :=
    Nat.mul_pos denominatorPositive (Nat.pow_pos (by decide))
  have isCoefficient : coefficient = units := by
    apply roundDiv_eq_of_within scaledPositive
    rw [ratio_eq, ← magnitude.toRat_eq_div]
    exact ⟨by linarith, by linarith, fun _ => ⟨by linarith, by linarith⟩⟩
  rw [isCoefficient, isDecimal]
  split
  next => rfl
  next notLess =>
    obtain rfl : units = 100 := le_antisymm atMost (not_lt.mp notLess)
    rw [Scaled.toRat, zpow_add_one₀ (by norm_num)]
    norm_num
    ring

end Digits

section Texts

variable {number : Float} {negative : Bool} {magnitude : Magnitude} {places : Nat}

/-- An exponent is written with a sign only if it is negative. -/
theorem isExponent_written (exponent : ℤ) :
    IsExponent ('e' :: (signText (decide (exponent < 0)) ++ Nat.toDigits 10 exponent.natAbs))
      exponent := by
  have written := IsExponent.written (.inl rfl) (isSign_signText (decide (exponent < 0)))
    (isDigits_digits exponent.natAbs)
  have isExponent : (if decide (exponent < 0) = true then -(exponent.natAbs : ℤ) else exponent.natAbs) =
      exponent := by
    simp only [decide_eq_true_eq]
    split <;> omega
  rw [value_digits, isExponent] at written
  exact written

theorem isSignificand_pointAfterFirst {first : Char} {rest : List Char}
    (digits : ∀ char ∈ first :: rest, char.isDigit = true) :
    IsSignificand (pointAfterFirst (first :: rest)) [first] rest := by
  refine ⟨?_, digits, by simp⟩
  cases rest with
  | nil => exact .inl ⟨rfl, rfl⟩
  | cons second rest => exact .inr rfl

/-- Scientific notation reads as the decimal whose digits it writes. -/
theorem readNumeral?_scientificText (isParts : parts number = .finite negative magnitude)
    (positive : 0 < magnitude.significand) :
    readNumeral? (scientificText places number) =
      some ⟨negative, (roundToDigits places magnitude).coefficient,
        (roundToDigits places magnitude).exponent⟩ := by
  have length := @length_toDigits_roundToDigits places _ positive
  simp only [scientificText, isParts, if_neg positive.ne']
  generalize roundToDigits places magnitude = decimal at *
  have isValue : value (Nat.toDigits 10 decimal.coefficient) = decimal.coefficient :=
    value_digits decimal.coefficient
  have digits : ∀ char ∈ Nat.toDigits 10 decimal.coefficient, char.isDigit = true :=
    fun _ member => isDigit_of_mem_digits member
  generalize Nat.toDigits 10 decimal.coefficient = text at *
  cases text with
  | nil => exact absurd length (Nat.succ_ne_zero places).symm
  | cons first rest =>
      refine readNumeral?_eq_some_iff.mpr ⟨[first], rest, decimal.exponent + places,
        ⟨signText negative, _, _, rfl, isSign_signText negative, isSignificand_pointAfterFirst digits,
          isExponent_written _⟩, isValue.symm, ?_⟩
      have isLength : rest.length = places := Nat.succ.inj length
      rw [isLength, add_sub_cancel_right]

end Texts

end Decimal

namespace Axis

open Decimal

variable {number : Float} {exact : ℚ} {count : Nat} {exponent : ℤ}

/-- Reads the number that a label in scientific notation shows. -/
def readScientific? (label : String) : Option ℚ :=
  (readNumeral? label.toList).map Numeral.signedValue

theorem readScientific?_zero : readScientific? (scientificLabel 0.0) = some 0 := by
  have isZero : scientificLabel 0.0 = "0" := by decide +kernel
  rw [isZero]
  decide +kernel

/-- A number that is hardly off a decimal of at most two digits shows this decimal. -/
theorem readScientific?_scientificLabel (denotes : Denotes number exact) (positive : 1 ≤ count)
    (few : count ≤ 99) (near : |exact - count * 10 ^ exponent| ≤ count * 10 ^ exponent / 2 ^ 40) :
    readScientific? (scientificLabel number) = some ((count : ℚ) * 10 ^ exponent) := by
  have castPositive : (1 : ℚ) ≤ count := by exact_mod_cast positive
  have wanted : (0 : ℚ) < count * 10 ^ exponent := by positivity
  have exactPositive : 0 < exact := by linarith [(abs_le.mp near).1]
  obtain ⟨magnitude, isParts, isValue⟩ := denotes.exists_parts exactPositive
  have significandPositive : 0 < magnitude.significand := by
    by_contra isZero
    rw [Magnitude.toRat, Nat.eq_zero_of_not_pos isZero, Nat.cast_zero, zero_mul] at isValue
    exact exactPositive.ne isValue
  have notZero := denotes.beq_eq_false_of_gt denotes_zero exactPositive
  rw [← isValue] at near
  have isDecimal := toRat_roundToDigits_of_near significandPositive few near
  rw [readScientific?, scientificLabel, notZero, if_neg Bool.false_ne_true, String.toList_ofList,
    readNumeral?_scientificText isParts significandPositive, Option.map_some, Numeral.signedValue,
    withSign, if_neg Bool.false_ne_true, ← isDecimal]
  rfl

end Axis
end ThroughputCharts

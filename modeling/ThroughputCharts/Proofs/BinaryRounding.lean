import Mathlib
import ThroughputCharts.Binary64.Nearest
import ThroughputCharts.Decimal.Shortest

/-!
# Rounding to binary64

The numbers that are rounded to a finite magnitude form an interval around it, which includes its
ends just when the significand is even.  Rounding any fraction from that interval gives the bit
pattern of the magnitude.

The lemmas about packed bits are part of Batteries and come only with the whole of Mathlib.
-/

namespace ThroughputCharts

theorem zpow_eq_div {base : ℚ} (nonzero : base ≠ 0) (exponent : Int) :
    base ^ exponent = base ^ exponent.toNat / base ^ (-exponent).toNat := by
  rw [← zpow_natCast, ← zpow_natCast, ← zpow_sub₀ nonzero, Int.toNat_sub_toNat_neg]

/-- A number lies between two ends, which count only when the interval is closed. -/
def Within (closed : Prop) (low number high : ℚ) : Prop :=
  low ≤ number ∧ number ≤ high ∧ (¬ closed → low < number ∧ number < high)

theorem within_mul_iff {closed : Prop} {low number high factor : ℚ} (positive : 0 < factor) :
    Within closed (low * factor) (number * factor) (high * factor) ↔
      Within closed low number high := by
  simp only [Within, mul_le_mul_iff_left₀ positive, mul_lt_mul_iff_left₀ positive]

theorem Within.mono {closed : Prop} {low number high lower higher : ℚ}
    (within : Within closed low number high) (below : lower ≤ low) (above : high ≤ higher) :
    Within closed lower number higher :=
  ⟨below.trans within.1, within.2.1.trans above, fun isOpen =>
    ⟨below.trans_lt (within.2.2 isOpen).1, (within.2.2 isOpen).2.trans_le above⟩⟩

namespace Decimal

theorem roundDiv_eq_of_bounds {numerator denominator whole : Nat} (positive : 0 < denominator)
    (low : 2 * (whole * denominator) ≤ 2 * numerator + denominator)
    (high : 2 * numerator ≤ 2 * (whole * denominator) + denominator)
    (strict : ¬ whole % 2 = 0 → 2 * (whole * denominator) < 2 * numerator + denominator ∧
      2 * numerator < 2 * (whole * denominator) + denominator) :
    roundDiv numerator denominator = whole := by
  have divided := Nat.div_add_mod numerator denominator
  have remainderSmall := Nat.mod_lt numerator positive
  rw [Nat.mul_comm] at divided
  -- Only the quotient and its successor are that near.
  have neighbours : whole = numerator / denominator ∨ whole = numerator / denominator + 1 := by
    by_contra! apart
    rcases Nat.lt_or_ge whole (numerator / denominator) with below | above
    · have := Nat.mul_le_mul_right denominator (Nat.succ_le_of_lt below)
      rw [Nat.succ_mul] at this
      omega
    · have beyond : numerator / denominator + 2 ≤ whole := by omega
      have := Nat.mul_le_mul_right denominator beyond
      rw [Nat.add_mul] at this
      omega
  unfold roundDiv
  dsimp only
  rcases neighbours with rfl | rfl
  · split
    · rfl
    split
    · omega
    · by_contra odd
      have := (strict (by omega)).2
      omega
  · rw [Nat.add_mul] at low high strict
    split
    · omega
    split
    · rfl
    · by_contra odd
      have := (strict (by omega)).1
      omega

/-- A quotient is at most half a unit away from a whole number, and exactly half a unit only from an
even one. -/
theorem within_half_iff {numerator denominator whole : Nat} (positive : 0 < denominator) :
    Within (whole % 2 = 0) (whole - 1 / 2) (numerator / denominator) (whole + 1 / 2) ↔
      2 * (whole * denominator) ≤ 2 * numerator + denominator ∧
        2 * numerator ≤ 2 * (whole * denominator) + denominator ∧
        (¬ whole % 2 = 0 → 2 * (whole * denominator) < 2 * numerator + denominator ∧
          2 * numerator < 2 * (whole * denominator) + denominator) := by
  have castPositive : (0 : ℚ) < 2 * denominator := by
    have : (0 : ℚ) < denominator := by exact_mod_cast positive
    linarith
  have numeratorEq : (numerator / denominator : ℚ) * (2 * denominator) = 2 * numerator := by
    field_simp
  have lowEq : ((whole : ℚ) - 1 / 2) * (2 * denominator) =
      2 * (whole * denominator) - denominator := by
    ring
  have highEq : ((whole : ℚ) + 1 / 2) * (2 * denominator) =
      2 * (whole * denominator) + denominator := by
    ring
  rw [← within_mul_iff castPositive, numeratorEq, Within, lowEq, highEq, sub_le_iff_le_add,
    sub_lt_iff_lt_add]
  norm_cast

/-- A quotient is rounded to a whole number from which it is at most half a unit away, and exactly
half a unit only if that number is even. -/
theorem roundDiv_eq_of_within {numerator denominator whole : Nat} (positive : 0 < denominator)
    (within : Within (whole % 2 = 0) (whole - 1 / 2) (numerator / denominator) (whole + 1 / 2)) :
    roundDiv numerator denominator = whole := by
  obtain ⟨low, high, strict⟩ := (within_half_iff positive).mp within
  exact roundDiv_eq_of_bounds positive low high strict

theorem within_roundDiv {numerator denominator : Nat} (positive : 0 < denominator) :
    Within (roundDiv numerator denominator % 2 = 0) (roundDiv numerator denominator - 1 / 2)
      (numerator / denominator) (roundDiv numerator denominator + 1 / 2) := by
  obtain ⟨high, low⟩ := roundDiv_within_half numerator denominator positive
  refine (within_half_iff positive).mpr ⟨low, high, fun odd => ?_⟩
  have divided := Nat.div_add_mod numerator denominator
  have remainderSmall := Nat.mod_lt numerator positive
  rw [Nat.mul_comm] at divided
  unfold roundDiv at odd ⊢
  dsimp only at odd ⊢
  split at odd
  case isTrue below =>
    rw [if_pos below]
    omega
  case isFalse notBelow =>
    rw [if_neg notBelow]
    split at odd
    case isTrue above =>
      rw [if_pos above, Nat.add_mul]
      omega
    case isFalse =>
      -- Exactly in the middle, the even neighbour is taken.
      omega

theorem roundDiv_eq_or (numerator denominator : Nat) :
    roundDiv numerator denominator = numerator / denominator ∨
      roundDiv numerator denominator = numerator / denominator + 1 := by
  unfold roundDiv
  dsimp only
  split
  · exact .inl rfl
  split
  · exact .inr rfl
  · rcases Nat.mod_two_eq_zero_or_one (numerator / denominator) with even | odd
    · exact .inl (by rw [even, Nat.add_zero])
    · exact .inr (by rw [odd])

end Decimal

namespace Binary64

namespace Magnitude

/-- The significand has 53 bits, or fewer of them at the least exponent. -/
structure Canonical (magnitude : Magnitude) : Prop where
  significand_lt : magnitude.significand < 2 ^ 53
  least_le : leastExponent ≤ magnitude.exponent
  exponent_le : magnitude.exponent ≤ 971
  normal : leastExponent < magnitude.exponent → 2 ^ 52 ≤ magnitude.significand

/-- The bits of the positive number. -/
def pattern (magnitude : Magnitude) : Nat :=
  (magnitude.exponent - leastExponent).toNat * 2 ^ 52 + magnitude.significand

def toRat (magnitude : Magnitude) : ℚ :=
  magnitude.significand * 2 ^ magnitude.exponent

theorem toRat_eq_div (magnitude : Magnitude) :
    magnitude.toRat = magnitude.numerator / magnitude.denominator := by
  rw [toRat, zpow_eq_div two_ne_zero, numerator, denominator]
  push_cast [Nat.pow_eq]
  ring

theorem pattern_lt {magnitude : Magnitude} (canonical : magnitude.Canonical) :
    magnitude.pattern < infinityPattern := by
  have significand := canonical.significand_lt
  have exponent := canonical.exponent_le
  simp only [pattern, infinityPattern, specialField, fractionBits, leastExponent, Nat.pow_eq] at *
  omega

end Magnitude

section Parts

variable {number : Float} {negative : Bool} {magnitude : Magnitude}

theorem canonical_of_partsOfBits {bits : UInt64}
    (finite : partsOfBits bits = .finite negative magnitude) :
    magnitude.Canonical ∧ bits.toNat = (if negative then 2 ^ 63 else 0) + magnitude.pattern := by
  have bounded := bits.toNat_lt
  have sign : (if decide (2 ^ 63 ≤ bits.toNat) = true then 2 ^ 63 else 0) =
      bits.toNat / 2 ^ 63 * 2 ^ 63 := by
    simp only [decide_eq_true_eq]
    split <;> omega
  simp only [partsOfBits] at finite
  split at finite
  next => split at finite <;> contradiction
  next notSpecial =>
    simp only [fractionBits, specialField, Nat.pow_eq] at notSpecial
    split at finite
    next subnormal =>
      simp only [fractionBits, Nat.pow_eq] at subnormal
      obtain ⟨rfl, rfl⟩ := Parts.finite.inj finite
      refine ⟨⟨?_, le_rfl, (by decide : leastExponent ≤ 971), (absurd · (lt_irrefl _))⟩, ?_⟩
      · simp only [fractionBits, Nat.pow_eq]
        omega
      · simp only [Nat.pow_eq, fractionBits, Magnitude.pattern, leastExponent, sign]
        omega
    next normal =>
      simp only [fractionBits, Nat.pow_eq] at normal
      obtain ⟨rfl, rfl⟩ := Parts.finite.inj finite
      refine ⟨⟨?_, ?_, ?_, fun _ => ?_⟩, ?_⟩
      · simp only [fractionBits, Nat.pow_eq]
        omega
      · simp only [fractionBits, Nat.pow_eq, leastExponent]
        omega
      · simp only [fractionBits, Nat.pow_eq, leastExponent]
        omega
      · simp [fractionBits, Nat.pow_eq]
      · simp only [Nat.pow_eq, fractionBits, Magnitude.pattern, leastExponent, sign]
        omega

theorem canonical_of_parts (finite : parts number = .finite negative magnitude) :
    magnitude.Canonical :=
  (canonical_of_partsOfBits finite).1

/-- The sign and the pattern of a magnitude make up the number. -/
theorem ofBits_pattern (finite : parts number = .finite negative magnitude) :
    Float.ofBits
        (if negative then Nat.pow 2 63 + magnitude.pattern else magnitude.pattern).toUInt64 =
      number := by
  have bits : (if negative then Nat.pow 2 63 + magnitude.pattern else magnitude.pattern) =
      number.toBits.toNat := by
    rw [(canonical_of_partsOfBits finite).2]
    split <;> simp
  rw [bits, Nat.toUInt64_eq, UInt64.ofNat_toNat, Float.ofBits_toBits]

theorem toNat_unpackExponent (bits : BitVec 64) :
    (@Float.Model.UnpackedFloat.unpackExponent .binary64 bits).toNat =
      bits.toNat / 2 ^ 52 % 2048 := by
  rw [Float.Model.UnpackedFloat.unpackExponent_def]
  simp [BitVec.extractLsb'_toNat, Nat.shiftRight_eq_div_pow]

theorem isFinite_unpack (bits : BitVec 64) :
    (Float.Model.UnpackedFloat.unpack .binary64 bits).isFinite = true ↔
      @Float.Model.UnpackedFloat.unpackExponent .binary64 bits ≠ -1#11 := by
  unfold Float.Model.UnpackedFloat.unpack
  dsimp only
  split
  next isSpecial =>
    refine iff_of_false ?_ (not_not_intro isSpecial)
    split <;> exact Bool.false_ne_true
  next notSpecial =>
    refine iff_of_true ?_ notSpecial
    split
    · split <;> rfl
    · rfl

/-- The exponent field of a number that is not finite has all its bits set. -/
theorem isFinite_iff_field :
    number.isFinite = true ↔
      number.toBits.toNat / Nat.pow 2 fractionBits % 2048 ≠ specialField := by
  have unpacked : number.isFinite =
      (Float.Model.UnpackedFloat.unpack .binary64 number.toBits.toBitVec).isFinite := rfl
  rw [unpacked, isFinite_unpack, Ne, ← BitVec.toNat_inj, toNat_unpackExponent]
  rfl

theorem isFinite_iff :
    number.isFinite = true ↔ ∃ negative magnitude, parts number = .finite negative magnitude := by
  rw [isFinite_iff_field]
  simp only [parts, partsOfBits]
  constructor
  · intro notSpecial
    rw [if_neg notSpecial]
    split <;> exact ⟨_, _, rfl⟩
  · rintro ⟨negative, magnitude, finite⟩ special
    rw [if_pos special] at finite
    split at finite <;> contradiction

end Parts

/-- The exponent of the last of 53 places of a number, or the least one. -/
structure IsUnitExponent (exponent : Int) (number : ℚ) : Prop where
  least_le : leastExponent ≤ exponent
  lt : number < 2 ^ (53 + exponent)
  le : exponent = leastExponent ∨ 2 ^ (52 + exponent) ≤ number

section Exponents

variable {numerator denominator : Nat} {exponent other : Int} {number : ℚ}

theorem IsUnitExponent.le_of_isUnitExponent (isUnit : IsUnitExponent exponent number)
    (isOther : IsUnitExponent other number) : exponent ≤ other := by
  rcases isUnit.le with isLeast | atLeast
  · rw [isLeast]
    exact isOther.least_le
  · have powers := (zpow_lt_zpow_iff_right₀ (one_lt_two (α := ℚ))).mp (atLeast.trans_lt isOther.lt)
    omega

theorem IsUnitExponent.unique (isUnit : IsUnitExponent exponent number)
    (isOther : IsUnitExponent other number) : exponent = other :=
  (isUnit.le_of_isUnitExponent isOther).antisymm (isOther.le_of_isUnitExponent isUnit)

theorem two_pow_log2_le_cast {count : Nat} (positive : 0 < count) :
    (2 : ℚ) ^ (count.log2 : Int) ≤ count := by
  rw [zpow_natCast]
  exact_mod_cast Nat.log2_self_le positive.ne'

theorem cast_lt_two_pow_log2 (count : Nat) : (count : ℚ) < 2 ^ (count.log2 + 1 : Int) := by
  rw [← Nat.cast_succ, zpow_natCast]
  exact_mod_cast Nat.lt_log2_self

/-- A fraction counted in units of a power of two. -/
theorem units_eq (exponent : Int) :
    ((numerator * Nat.pow 2 (-exponent).toNat : Nat) : ℚ) /
        (denominator * Nat.pow 2 exponent.toNat : Nat) =
      numerator / denominator / 2 ^ exponent := by
  rw [zpow_eq_div two_ne_zero]
  push_cast [Nat.pow_eq]
  field_simp

theorem isUnitExponent_unitExponent (numeratorPositive : 0 < numerator)
    (denominatorPositive : 0 < denominator) :
    IsUnitExponent (unitExponent numerator denominator) (numerator / denominator) := by
  have castPositive : (0 : ℚ) < denominator := by exact_mod_cast denominatorPositive
  -- The two logarithms determine the quotient up to a factor of two.
  have low : (2 : ℚ) ^ ((numerator.log2 : Int) - denominator.log2 - 1) < numerator / denominator := by
    rw [lt_div_iff₀ castPositive]
    calc (2 : ℚ) ^ ((numerator.log2 : Int) - denominator.log2 - 1) * denominator
        < 2 ^ ((numerator.log2 : Int) - denominator.log2 - 1) * 2 ^ (denominator.log2 + 1 : Int) :=
          mul_lt_mul_of_pos_left (cast_lt_two_pow_log2 denominator) (by positivity)
      _ = 2 ^ (numerator.log2 : Int) := by
          rw [← zpow_add₀ two_ne_zero]
          congr 1
          ring
      _ ≤ numerator := two_pow_log2_le_cast numeratorPositive
  have high : (numerator / denominator : ℚ) < 2 ^ ((numerator.log2 : Int) - denominator.log2 + 1) := by
    rw [div_lt_iff₀ castPositive]
    calc (numerator : ℚ)
        < 2 ^ (numerator.log2 + 1 : Int) := cast_lt_two_pow_log2 numerator
      _ = 2 ^ ((numerator.log2 : Int) - denominator.log2 + 1) * 2 ^ (denominator.log2 : Int) := by
          rw [← zpow_add₀ two_ne_zero]
          congr 1
          ring
      _ ≤ 2 ^ ((numerator.log2 : Int) - denominator.log2 + 1) * denominator :=
          mul_le_mul_of_nonneg_left (two_pow_log2_le_cast denominatorPositive) (by positivity)
  unfold unitExponent
  extract_lets estimate units
  have counted : units < Nat.pow 2 (fractionBits + 1) ↔
      (numerator / denominator : ℚ) < 2 ^ (53 + estimate) := by
    have scaledPositive : 0 < denominator * Nat.pow 2 estimate.toNat :=
      Nat.mul_pos denominatorPositive (Nat.two_pow_pos _)
    have castScaled : (0 : ℚ) < (denominator * Nat.pow 2 estimate.toNat : Nat) := by
      exact_mod_cast scaledPositive
    rw [Nat.div_lt_iff_lt_mul scaledPositive, ← Nat.cast_lt (α := ℚ),
      Nat.cast_mul (Nat.pow 2 (fractionBits + 1)), ← div_lt_iff₀ castScaled, units_eq,
      div_lt_iff₀ (by positivity), zpow_add₀ two_ne_zero]
    norm_num [fractionBits]
  have least : (2 : ℚ) ^ (52 + estimate) < numerator / denominator := by
    convert low using 2
    ring
  have most : (numerator / denominator : ℚ) < 2 ^ (53 + (estimate + 1)) := by
    convert high using 2
    ring
  set exponent := if units < Nat.pow 2 (fractionBits + 1) then estimate else estimate + 1
    with exponent_eq
  have bounds : (2 : ℚ) ^ (52 + exponent) ≤ numerator / denominator ∧
      (numerator / denominator : ℚ) < 2 ^ (53 + exponent) := by
    rw [exponent_eq]
    split
    next fits => exact ⟨least.le, counted.mp fits⟩
    next overflows =>
      have atLeast := not_lt.mp (mt counted.mpr overflows)
      refine ⟨?_, most⟩
      rwa [show 52 + (estimate + 1) = 53 + estimate by ring]
  refine ⟨le_max_left _ _, ?_, ?_⟩
  · refine bounds.2.trans_le (zpow_le_zpow_right₀ one_le_two ?_)
    omega
  · rcases le_total exponent leastExponent with small | large
    · exact .inl (max_eq_left small)
    · right
      rw [max_eq_right large]
      exact bounds.1

theorem roundToUnit_eq_of_within {whole : Nat} (positive : 0 < denominator)
    (within : Within (whole % 2 = 0) (whole - 1 / 2) (numerator / denominator / 2 ^ exponent)
      (whole + 1 / 2)) :
    roundToUnit numerator denominator exponent = whole := by
  have scaledPositive : 0 < denominator * Nat.pow 2 exponent.toNat :=
    Nat.mul_pos positive (Nat.two_pow_pos _)
  rw [← units_eq] at within
  exact Decimal.roundDiv_eq_of_within scaledPositive within

theorem le_roundToUnit (positive : 0 < denominator)
    (atLeast : (2 : ℚ) ^ (52 + exponent) ≤ numerator / denominator) :
    2 ^ 52 ≤ roundToUnit numerator denominator exponent := by
  have scaledPositive : 0 < denominator * Nat.pow 2 exponent.toNat :=
    Nat.mul_pos positive (Nat.two_pow_pos _)
  have castScaled : (0 : ℚ) < (denominator * Nat.pow 2 exponent.toNat : Nat) := by
    exact_mod_cast scaledPositive
  have quotient : 2 ^ 52 ≤ numerator * Nat.pow 2 (-exponent).toNat /
      (denominator * Nat.pow 2 exponent.toNat) := by
    rw [Nat.le_div_iff_mul_le scaledPositive, ← Nat.cast_le (α := ℚ), Nat.cast_mul (2 ^ 52),
      ← le_div_iff₀ castScaled, units_eq, le_div_iff₀ (by positivity)]
    rw [zpow_add₀ two_ne_zero] at atLeast
    exact_mod_cast atLeast
  have rounded := Decimal.roundDiv_eq_or (numerator * Nat.pow 2 (-exponent).toNat)
    (denominator * Nat.pow 2 exponent.toNat)
  rw [roundToUnit]
  omega

end Exponents

/-- The numbers that are rounded to a magnitude.  They reach half a gap to either side, and the gap
below the least significand of an exponent is half the gap above it. -/
def Magnitude.Attracts (magnitude : Magnitude) (number : ℚ) : Prop :=
  Within (magnitude.significand % 2 = 0)
    (magnitude.significand - (if Decimal.isLeastOfExponent magnitude then 1 else 2) / 4)
    (number / 2 ^ magnitude.exponent) (magnitude.significand + 1 / 2)

section Attraction

variable {magnitude : Magnitude} {numerator denominator : Nat}

theorem Magnitude.attracts_toRat (magnitude : Magnitude) : magnitude.Attracts magnitude.toRat := by
  have units : magnitude.toRat / 2 ^ magnitude.exponent = magnitude.significand := by
    rw [toRat, mul_div_assoc, div_self (by positivity), mul_one]
  have below : (0 : ℚ) < (if Decimal.isLeastOfExponent magnitude then 1 else 2) / 4 := by
    split <;> norm_num
  rw [Attracts, units]
  refine ⟨?_, ?_, fun _ => ⟨?_, ?_⟩⟩ <;> linarith

theorem Magnitude.Attracts.within_half {number : ℚ} (attracts : magnitude.Attracts number) :
    Within (magnitude.significand % 2 = 0) (magnitude.significand - 1 / 2)
      (number / 2 ^ magnitude.exponent) (magnitude.significand + 1 / 2) := by
  refine attracts.mono ?_ le_rfl
  split <;> linarith

/-- Only the least significand attracts numbers below its exponent, where the places are half as
wide. -/
theorem Magnitude.Attracts.below {number : ℚ} (attracts : magnitude.Attracts number)
    (normal : 2 ^ 52 ≤ magnitude.significand) (notLeast : leastExponent < magnitude.exponent)
    (below : number < 2 ^ (52 + magnitude.exponent)) :
    magnitude.significand = 2 ^ 52 ∧ 2 ^ 53 - 1 / 2 ≤ number / 2 ^ (magnitude.exponent - 1) ∧
      number / 2 ^ (magnitude.exponent - 1) < 2 ^ 53 := by
  have belowUnits : number / 2 ^ magnitude.exponent < 2 ^ 52 := by
    rwa [zpow_add₀ two_ne_zero, ← div_lt_iff₀ (by positivity)] at below
  have isLeast : magnitude.significand = 2 ^ 52 := by
    have half := attracts.within_half.1
    have small : (magnitude.significand : ℚ) < 2 ^ 52 + 1 := by linarith
    have : magnitude.significand < 2 ^ 52 + 1 := by exact_mod_cast small
    omega
  have quarter : (2 : ℚ) ^ 52 - 1 / 4 ≤ number / 2 ^ magnitude.exponent := by
    have atLeast := attracts.1
    norm_num [Decimal.isLeastOfExponent, isLeast, notLeast, fractionBits] at atLeast ⊢
    exact atLeast
  have halved : number / 2 ^ (magnitude.exponent - 1) = 2 * (number / 2 ^ magnitude.exponent) := by
    rw [zpow_sub₀ two_ne_zero]
    field_simp
  rw [halved]
  refine ⟨isLeast, ?_, ?_⟩
  · norm_num at quarter ⊢
    linarith
  · norm_num at belowUnits ⊢
    linarith

theorem Magnitude.Attracts.pattern_eq_zero (canonical : magnitude.Canonical)
    (attracts : magnitude.Attracts 0) : magnitude.pattern = 0 := by
  have half := attracts.within_half.1
  rw [zero_div] at half
  have small : (magnitude.significand : ℚ) < 1 := by linarith
  have isZero : magnitude.significand = 0 := Nat.lt_one_iff.mp (by exact_mod_cast small)
  have notNormal : ¬ leastExponent < magnitude.exponent := by
    intro normal
    have := canonical.normal normal
    omega
  rw [Magnitude.pattern, isZero, Int.toNat_eq_zero.mpr (by omega), Nat.zero_mul]

/-- Every fraction from the interval of a magnitude is rounded to its pattern. -/
theorem nearestPattern_eq_pattern (canonical : magnitude.Canonical)
    (denominatorPositive : 0 < denominator)
    (attracts : magnitude.Attracts (numerator / denominator)) :
    nearestPattern numerator denominator = magnitude.pattern := by
  obtain rfl | numeratorPositive := Nat.eq_zero_or_pos numerator
  · rw [Nat.cast_zero, zero_div] at attracts
    rw [attracts.pattern_eq_zero canonical, nearestPattern, if_pos rfl]
  have isUnit := isUnitExponent_unitExponent numeratorPositive denominatorPositive
  have finite := magnitude.pattern_lt canonical
  rw [nearestPattern, if_neg numeratorPositive.ne']
  dsimp only
  by_cases normal : magnitude.exponent = leastExponent ∨
      (2 : ℚ) ^ (52 + magnitude.exponent) ≤ numerator / denominator
  · have lt : (numerator / denominator : ℚ) < 2 ^ (53 + magnitude.exponent) := by
      have atMost := attracts.within_half.2.1
      have significandBound : (magnitude.significand : ℚ) + 1 ≤ 2 ^ 53 := by
        exact_mod_cast canonical.significand_lt
      rw [zpow_add₀ two_ne_zero, ← div_lt_iff₀ (by positivity)]
      norm_num at significandBound ⊢
      linarith
    rw [isUnit.unique ⟨canonical.least_le, lt, normal⟩,
      roundToUnit_eq_of_within denominatorPositive attracts.within_half]
    exact Nat.min_eq_right finite.le
  · push Not at normal
    have notLeast : leastExponent < magnitude.exponent :=
      lt_of_le_of_ne canonical.least_le (Ne.symm normal.1)
    obtain ⟨isLeast, atLeast, lt⟩ := attracts.below (canonical.normal notLeast) notLeast normal.2
    have isUnitBelow : IsUnitExponent (magnitude.exponent - 1) (numerator / denominator) := by
      have halfPositive : (0 : ℚ) < 2 ^ (magnitude.exponent - 1) := by positivity
      refine ⟨by omega, ?_, .inr ?_⟩
      · rw [zpow_add₀ two_ne_zero, ← div_lt_iff₀ halfPositive]
        exact lt
      · rw [zpow_add₀ two_ne_zero, ← le_div_iff₀ halfPositive]
        norm_num at atLeast ⊢
        linarith
    have rounded : roundToUnit numerator denominator (magnitude.exponent - 1) = 2 ^ 53 := by
      apply roundToUnit_eq_of_within denominatorPositive
      push_cast
      exact ⟨atLeast, lt.le.trans (by norm_num), fun isOpen => absurd (by decide) isOpen⟩
    -- The carry makes up for the lower exponent.
    have carried : (magnitude.exponent - 1 - leastExponent).toNat * Nat.pow 2 fractionBits + 2 ^ 53 =
        magnitude.pattern := by
      rw [Magnitude.pattern, isLeast]
      simp only [fractionBits, leastExponent, Nat.pow_eq] at notLeast ⊢
      omega
    rw [isUnit.unique isUnitBelow, rounded, carried]
    exact Nat.min_eq_right finite.le

theorem nearestPattern_eq_zero (positive : 0 < denominator)
    (small : (numerator / denominator : ℚ) ≤ 2 ^ (leastExponent - 1)) :
    nearestPattern numerator denominator = 0 := by
  have attracts : Magnitude.Attracts ⟨0, leastExponent⟩ (numerator / denominator) := by
    have unitPositive : (0 : ℚ) < 2 ^ leastExponent := by positivity
    refine ⟨?_, ?_, fun isOpen => absurd rfl isOpen⟩
    · calc ((0 : Nat) : ℚ) - (if Decimal.isLeastOfExponent ⟨0, leastExponent⟩ then 1 else 2) / 4
          ≤ 0 := by split <;> norm_num
        _ ≤ numerator / denominator / 2 ^ leastExponent := by positivity
    · rw [div_le_iff₀ unitPositive]
      rw [zpow_sub₀ two_ne_zero] at small
      linarith
  have canonical : Magnitude.Canonical ⟨0, leastExponent⟩ :=
    ⟨by decide, le_rfl, (by decide : leastExponent ≤ 971), (absurd · (lt_irrefl _))⟩
  rw [nearestPattern_eq_pattern canonical positive attracts]
  rfl

theorem nearestPattern_eq_infinityPattern (positive : 0 < denominator)
    (large : (2 : ℚ) ^ (1024 : Int) ≤ numerator / denominator) :
    nearestPattern numerator denominator = infinityPattern := by
  have castPositive : (0 : ℚ) < denominator := by exact_mod_cast positive
  have numeratorPositive : 0 < numerator := by
    have valuePositive : (0 : ℚ) < numerator / denominator := lt_of_lt_of_le (by positivity) large
    exact_mod_cast (div_pos_iff_of_pos_right castPositive).mp valuePositive
  have isUnit := isUnitExponent_unitExponent numeratorPositive positive
  have exponentLarge : 971 < unitExponent numerator denominator := by
    have powers := (zpow_lt_zpow_iff_right₀ (one_lt_two (α := ℚ))).mp (large.trans_lt isUnit.lt)
    omega
  have atLeast : (2 : ℚ) ^ (52 + unitExponent numerator denominator) ≤ numerator / denominator := by
    refine isUnit.le.resolve_left fun isLeast => ?_
    rw [isLeast] at exponentLarge
    exact absurd exponentLarge (by decide)
  have roundedLarge := le_roundToUnit positive atLeast
  rw [nearestPattern, if_neg numeratorPositive.ne']
  simp only [infinityPattern, specialField, fractionBits, leastExponent, Nat.pow_eq]
  omega

variable {negative : Bool} {number : Float}

/-- Every fraction from the interval of a finite number is rounded to that number. -/
theorem nearest_eq_of_attracts (finite : parts number = .finite negative magnitude)
    (positive : 0 < denominator) (attracts : magnitude.Attracts (numerator / denominator)) :
    nearest negative numerator denominator = number := by
  rw [nearest, nearestPattern_eq_pattern (canonical_of_parts finite) positive attracts]
  exact ofBits_pattern finite

end Attraction



end Binary64
end ThroughputCharts

import ThroughputCharts.Proofs.BinaryRounding

/-!
# Shortest decimals are rounded back

Seventeen digits put a decimal into the rounding interval of every number, so the search for the
shortest one always ends in that interval.
-/

namespace ThroughputCharts
namespace Decimal

open Binary64

section Digits

variable {numerator denominator : Nat}

theorem lt_pow_digitCount (number : Nat) : number < 10 ^ digitCount number :=
  (Nat.length_toDigits_le_iff (by decide) Nat.length_toDigits_pos).mp le_rfl

theorem pow_digitCount_le {number : Nat} (positive : 0 < number) :
    10 ^ (digitCount number - 1) ≤ number := by
  obtain single | several := Nat.eq_zero_or_pos (digitCount number - 1)
  · rw [single]
    exact positive
  · by_contra! below
    have fewer := (Nat.length_toDigits_le_iff (by decide) several).mpr below
    have : 0 < digitCount number := Nat.length_toDigits_pos
    rw [← digitCount] at fewer
    omega

/-- A fraction has its leading digit at the leading exponent. -/
theorem leadingExponent_spec (numeratorPositive : 0 < numerator)
    (denominatorPositive : 0 < denominator) :
    (10 : ℚ) ^ leadingExponent numerator denominator ≤ numerator / denominator ∧
      (numerator / denominator : ℚ) < 10 ^ (leadingExponent numerator denominator + 1) := by
  have castPositive : (0 : ℚ) < denominator := by exact_mod_cast denominatorPositive
  rw [le_div_iff₀ castPositive, div_lt_iff₀ castPositive, leadingExponent]
  split
  next atLeastOne =>
    have quotientPositive := Nat.div_pos atLeastOne denominatorPositive
    have digitsPositive : 0 < digitCount (numerator / denominator) := Nat.length_toDigits_pos
    have low := (Nat.le_div_iff_mul_le denominatorPositive).mp (pow_digitCount_le quotientPositive)
    have high := (Nat.div_lt_iff_lt_mul denominatorPositive).mp
      (lt_pow_digitCount (numerator / denominator))
    rw [sub_add_cancel, ← Nat.cast_pred digitsPositive, zpow_natCast, zpow_natCast]
    exact ⟨by exact_mod_cast low, by exact_mod_cast high⟩
  next belowOne =>
    have quotientPositive : 0 < (denominator - 1) / numerator :=
      Nat.div_pos (by omega) numeratorPositive
    have digitsPositive : 0 < digitCount ((denominator - 1) / numerator) := Nat.length_toDigits_pos
    have low := (Nat.div_lt_iff_lt_mul numeratorPositive).mp
      (lt_pow_digitCount ((denominator - 1) / numerator))
    have high := (Nat.le_div_iff_mul_le numeratorPositive).mp (pow_digitCount_le quotientPositive)
    have lowNat : denominator ≤ 10 ^ digitCount ((denominator - 1) / numerator) * numerator := by
      omega
    have highNat :
        10 ^ (digitCount ((denominator - 1) / numerator) - 1) * numerator < denominator := by
      omega
    generalize digitCount ((denominator - 1) / numerator) = count at *
    have next : -(count : Int) + 1 = -((count - 1 : Nat) : Int) := by omega
    rw [next, zpow_neg, zpow_neg, zpow_natCast, zpow_natCast,
      inv_mul_le_iff₀ (by positivity), lt_inv_mul_iff₀ (by positivity)]
    exact ⟨by exact_mod_cast lowNat, by exact_mod_cast highNat⟩

end Digits

/-- The value of a decimal. -/
def Scaled.toRat (decimal : Scaled) : ℚ :=
  decimal.coefficient * 10 ^ decimal.exponent

theorem toRat_dropTrailingZeros (fuel : Nat) (decimal : Scaled) :
    (dropTrailingZeros fuel decimal).toRat = decimal.toRat := by
  induction fuel generalizing decimal with
  | zero => rfl
  | succ fuel induction =>
      rw [dropTrailingZeros]
      split
      next divisible =>
        have whole : (decimal.coefficient : ℚ) = (decimal.coefficient / 10 : Nat) * 10 := by
          exact_mod_cast (Nat.div_mul_cancel (Nat.dvd_of_mod_eq_zero divisible)).symm
        rw [induction, Scaled.toRat, Scaled.toRat, whole, zpow_add_one₀ (by norm_num)]
        ring
      next => rfl

namespace Grid

theorem contains_iff (grid : Grid) (point : Nat) :
    grid.contains point = true ↔
      Within (grid.closed = true) (grid.low : ℚ) (4 * grid.step * point : Nat) grid.high := by
  rw [contains, Within]
  cases grid.closed
  · simp only [Bool.false_eq_true, if_false, Bool.and_eq_true, decide_eq_true_eq, not_false_eq_true,
      forall_const, Nat.cast_le, Nat.cast_lt]
    constructor
    · exact fun inside => ⟨inside.1.le, inside.2.le, inside⟩
    · exact fun inside => inside.2.2
  · simp only [if_true, Bool.and_eq_true, decide_eq_true_eq, not_true_eq_false, false_implies,
      and_true, Nat.cast_le]

theorem contains_of_nearest? {grid : Grid} {point : Nat} (found : grid.nearest? = some point) :
    grid.contains point = true := by
  simp only [nearest?] at found
  split at found
  next below above =>
    obtain rfl := Option.some.inj found
    rcases roundDiv_eq_or grid.center (4 * grid.step) with isBelow | isAbove
    · rw [isBelow]
      exact below
    · rw [isAbove]
      exact above
  next below _ =>
    obtain rfl := Option.some.inj found
    exact below
  next _ above =>
    obtain rfl := Option.some.inj found
    exact above
  next => contradiction

theorem position_of_not_contains {grid : Grid} {point : Nat}
    (outside : grid.contains point = false) :
    4 * grid.step * point ≤ grid.low ∨ grid.high ≤ 4 * grid.step * point := by
  simp only [contains] at outside
  split at outside <;>
    simp only [Bool.and_eq_false_iff, decide_eq_false_iff_not] at outside <;>
    omega

/-- An interval that is wider than a step has a grid point in it. -/
theorem exists_nearest? {grid : Grid} (positive : 0 < grid.step) (low : grid.low ≤ grid.center)
    (high : grid.center < grid.high) (wide : grid.low + 4 * grid.step < grid.high) :
    ∃ point, grid.nearest? = some point := by
  have divided := Nat.div_add_mod grid.center (4 * grid.step)
  have remainderSmall := Nat.mod_lt grid.center (by omega : 0 < 4 * grid.step)
  simp only [nearest?]
  split
  next => exact ⟨_, rfl⟩
  next => exact ⟨_, rfl⟩
  next => exact ⟨_, rfl⟩
  next below above =>
    have outsideBelow := position_of_not_contains below
    have outsideAbove := position_of_not_contains above
    rw [Nat.mul_add_one] at outsideAbove
    omega

end Grid

section Shortest

variable {magnitude : Magnitude}

/-- One unit of the significand, in the same parts as the steps of the grid. -/
def gridUnit (magnitude : Magnitude) (exponent : Int) : Nat :=
  Nat.pow 2 magnitude.exponent.toNat * Nat.pow 10 (-exponent).toNat

theorem low_grid (magnitude : Magnitude) (exponent : Int) :
    (grid magnitude exponent).low =
      (4 * magnitude.significand - if isLeastOfExponent magnitude then 1 else 2) *
        gridUnit magnitude exponent := rfl

theorem high_grid (magnitude : Magnitude) (exponent : Int) :
    (grid magnitude exponent).high =
      (4 * magnitude.significand + 2) * gridUnit magnitude exponent := rfl

theorem gridUnit_pos (magnitude : Magnitude) (exponent : Int) : 0 < gridUnit magnitude exponent :=
  Nat.mul_pos (Nat.two_pow_pos _) (Nat.pow_pos (by decide))

theorem step_grid_pos (magnitude : Magnitude) (exponent : Int) :
    0 < (grid magnitude exponent).step :=
  Nat.mul_pos magnitude.denominator_pos (Nat.pow_pos (by decide))

theorem units_mul_gridUnit (magnitude : Magnitude) (exponent : Int) (number : ℚ) :
    number * 10 ^ exponent / 2 ^ magnitude.exponent * gridUnit magnitude exponent =
      number * (grid magnitude exponent).step := by
  rw [zpow_eq_div two_ne_zero, zpow_eq_div (by norm_num : (10 : ℚ) ≠ 0)]
  simp only [gridUnit, grid, Magnitude.denominator, Nat.pow_eq]
  push_cast
  field_simp

/-- The grid points in the interval are those that the magnitude attracts. -/
theorem contains_grid_iff (positive : 0 < magnitude.significand) (exponent : Int) (point : Nat) :
    (grid magnitude exponent).contains point = true ↔
      magnitude.Attracts (Scaled.toRat ⟨point, exponent⟩) := by
  have unitPositive : (0 : ℚ) < gridUnit magnitude exponent := by
    exact_mod_cast gridUnit_pos magnitude exponent
  have closed : ((grid magnitude exponent).closed = true) = (magnitude.significand % 2 = 0) := by
    simp [grid]
  have low : ((grid magnitude exponent).low : ℚ) =
      (magnitude.significand - (if isLeastOfExponent magnitude then 1 else 2) / 4) *
        (4 * gridUnit magnitude exponent) := by
    have fits : (if isLeastOfExponent magnitude then 1 else 2) ≤ 4 * magnitude.significand := by
      split <;> omega
    rw [low_grid, Nat.cast_mul, Nat.cast_sub fits]
    push_cast
    ring
  have high : ((grid magnitude exponent).high : ℚ) =
      (magnitude.significand + 1 / 2) * (4 * gridUnit magnitude exponent) := by
    rw [high_grid]
    push_cast
    ring
  have position : ((4 * (grid magnitude exponent).step * point : Nat) : ℚ) =
      Scaled.toRat ⟨point, exponent⟩ / 2 ^ magnitude.exponent * (4 * gridUnit magnitude exponent) := by
    have scaled := units_mul_gridUnit magnitude exponent point
    rw [Scaled.toRat]
    push_cast
    linarith
  rw [Grid.contains_iff, closed, low, high, position, within_mul_iff (by positivity),
    Magnitude.Attracts]

/-- Seventeen digits are enough for a decimal in the interval. -/
theorem exists_nearest?_grid (canonical : magnitude.Canonical)
    (positive : 0 < magnitude.significand) :
    ∃ point, (grid magnitude
      (leadingExponent magnitude.numerator magnitude.denominator - 16)).nearest? = some point := by
  set exponent := leadingExponent magnitude.numerator magnitude.denominator - 16 with exponent_eq
  have numeratorPositive : 0 < magnitude.numerator := Nat.mul_pos positive (Nat.two_pow_pos _)
  have leading := (leadingExponent_spec numeratorPositive magnitude.denominator_pos).1
  -- The number is at least `10 ^ 16` steps from zero, and its significand is less than that.
  have steps : 10 ^ 16 * (grid magnitude exponent).step ≤
      magnitude.significand * gridUnit magnitude exponent := by
    have unitPositive : (0 : ℚ) < gridUnit magnitude exponent := by
      exact_mod_cast gridUnit_pos magnitude exponent
    have split : (10 : ℚ) ^ leadingExponent magnitude.numerator magnitude.denominator =
        10 ^ 16 * 10 ^ exponent := by
      rw [exponent_eq, zpow_sub₀ (by norm_num)]
      norm_num
      field_simp
    rw [← magnitude.toRat_eq_div, Magnitude.toRat, split, ← div_le_iff₀ (by positivity),
      ← mul_le_mul_iff_left₀ unitPositive, units_mul_gridUnit] at leading
    exact_mod_cast leading
  have unitPositive := gridUnit_pos magnitude exponent
  have stepPositive := step_grid_pos magnitude exponent
  have low : (grid magnitude exponent).low ≤ (grid magnitude exponent).center :=
    Nat.mul_le_mul_right _ (Nat.sub_le _ _)
  have high : (grid magnitude exponent).center < (grid magnitude exponent).high :=
    Nat.mul_lt_mul_of_pos_right (by omega) unitPositive
  refine Grid.exists_nearest? stepPositive low high ?_
  rw [low_grid, high_grid, Nat.add_mul, Nat.sub_mul]
  split
  next isLeast =>
    have significand : magnitude.significand = 2 ^ 52 := by
      simp only [isLeastOfExponent, fractionBits, Nat.pow_eq, Bool.and_eq_true, beq_iff_eq] at isLeast
      exact isLeast.1
    rw [significand] at steps ⊢
    omega
  next =>
    have bounded := Nat.mul_le_mul_right (gridUnit magnitude exponent) canonical.significand_lt.le
    have wide : 4 * magnitude.significand * gridUnit magnitude exponent ≥
        4 * gridUnit magnitude exponent := by
      exact Nat.mul_le_mul_right _ (by omega)
    omega

theorem attracts_shortest (canonical : magnitude.Canonical)
    (positive : 0 < magnitude.significand) :
    magnitude.Attracts (shortest magnitude).toRat := by
  obtain ⟨point, found⟩ := exists_nearest?_grid canonical positive
  rw [shortest, toRat_dropTrailingZeros]
  dsimp only
  generalize search : List.findSome? _ _ = result
  cases result with
  | none =>
      have missing := List.findSome?_eq_none_iff.mp search 16 (by decide)
      simp [found] at missing
  | some decimal =>
      obtain ⟨digits, -, atDigits⟩ := List.exists_of_findSome?_eq_some search
      obtain ⟨point, nearest, rfl⟩ := Option.map_eq_some_iff.mp atDigits
      exact (contains_grid_iff positive _ point).mp (Grid.contains_of_nearest? nearest)

end Shortest

end Decimal
end ThroughputCharts

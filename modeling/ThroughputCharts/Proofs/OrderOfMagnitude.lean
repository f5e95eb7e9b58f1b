import ThroughputCharts.Binary64.Logarithm
import ThroughputCharts.Proofs.FloatWhole
import ThroughputCharts.Proofs.ShortestDecimal

/-!
# The order of magnitude of a number

The computed order of magnitude is the exponent of the leading digit, unless the number is so near a
power of ten that the rounding of its logarithm matters.
-/

namespace ThroughputCharts
namespace Binary64

open Decimal

variable {number : Float} {exact : ℚ}

theorem Denotes.exists_parts (denotes : Denotes number exact) (positive : 0 < exact) :
    ∃ magnitude, parts number = .finite false magnitude ∧ magnitude.toRat = exact := by
  obtain ⟨negative, magnitude, isParts⟩ := isFinite_iff.mp denotes.finite
  have isValue := denotes.value_eq
  simp only [value, isParts] at isValue
  have nonneg : 0 ≤ magnitude.toRat := by
    rw [Magnitude.toRat]
    positivity
  cases negative with
  | false => exact ⟨magnitude, isParts, isValue⟩
  | true =>
      simp only [if_true] at isValue
      linarith

/-- There is one number only for each positive whole value. -/
theorem Denotes.eq_ofNat {count : Nat} (denotes : Denotes number ((count : ℤ) : ℚ))
    (positive : 0 < count) (small : count < 2 ^ 53) : number = Float.ofNat count := by
  have isNearest {other : Float} (denotes : Denotes other ((count : ℤ) : ℚ)) :
      nearest false count 1 = other := by
    obtain ⟨magnitude, isParts, isValue⟩ := denotes.exists_parts (by exact_mod_cast positive)
    have attracts := magnitude.attracts_toRat
    rw [isValue, Int.cast_natCast, ← div_one (count : ℚ), ← Nat.cast_one] at attracts
    exact nearest_eq_of_attracts isParts one_pos attracts
  exact (isNearest denotes).symm.trans (isNearest (denotes_ofNat small))

section Nearness

variable {power : ℤ} {numerator denominator ratio base : Nat}

theorem isNear_eq_false (positive : 0 < base)
    (apart : (base : ℚ) * (1 / 10000) ≤ |(ratio : ℚ) - base|) : isNear ratio base = false := by
  rw [isNear, decide_eq_false_iff_not, not_le]
  have castPositive : (0 : ℚ) < base := by exact_mod_cast positive
  have distance : |(ratio : ℚ) - base| = (((ratio : ℤ) - base).natAbs : ℚ) := by
    rw [Nat.cast_natAbs]
    push_cast
    rfl
  have cast : (base : ℚ) < ((ratio : ℤ) - base).natAbs * (2 ^ 40 : Nat) := by
    rw [← distance]
    push_cast
    linarith
  exact_mod_cast cast

theorem ratio_eq (numerator denominator : Nat) (power : ℤ) :
    ((numerator * Nat.pow 10 (-power).toNat : Nat) : ℚ) /
        (denominator * Nat.pow 10 power.toNat : Nat) = numerator / denominator / 10 ^ power := by
  rw [zpow_eq_div (by norm_num : (10 : ℚ) ≠ 0)]
  push_cast [Nat.pow_eq]
  field_simp

/-- A fraction that is away from a power of ten is not near it. -/
theorem isNear_power_eq_false (positive : 0 < denominator)
    (apart : (10 : ℚ) ^ power * (1 / 10000) ≤ |(numerator / denominator : ℚ) - 10 ^ power|) :
    isNear (numerator * Nat.pow 10 (-power).toNat) (denominator * Nat.pow 10 power.toNat) =
      false := by
  have basePositive : 0 < denominator * Nat.pow 10 power.toNat :=
    Nat.mul_pos positive (Nat.pow_pos (by decide))
  have castPositive : (0 : ℚ) < (denominator * Nat.pow 10 power.toNat : Nat) := by
    exact_mod_cast basePositive
  have unit : (0 : ℚ) < 10 ^ power := by positivity
  have ratio := ratio_eq numerator denominator power
  rw [div_eq_div_iff castPositive.ne' unit.ne'] at ratio
  apply isNear_eq_false basePositive
  generalize ((numerator * Nat.pow 10 (-power).toNat : Nat) : ℚ) = scaled at *
  generalize ((denominator * Nat.pow 10 power.toNat : Nat) : ℚ) = base at *
  have scaledDistance : |scaled - base| * 10 ^ power =
      |(numerator / denominator : ℚ) - 10 ^ power| * base := by
    rw [← abs_of_pos unit, ← abs_mul, ← abs_of_pos castPositive, ← abs_mul, abs_of_pos castPositive,
      abs_of_pos unit, sub_mul, sub_mul, ratio, mul_comm base]
  apply le_of_mul_le_mul_right _ unit
  rw [scaledDistance]
  calc base * (1 / 10000) * 10 ^ power = 10 ^ power * (1 / 10000) * base := by ring
    _ ≤ |(numerator / denominator : ℚ) - 10 ^ power| * base :=
      mul_le_mul_of_nonneg_right apart castPositive.le

end Nearness

/-- Between two powers of ten the scale is the lower one. -/
theorem scale_eq {power : ℤ} (denotes : Denotes number exact)
    (low : 10 ^ power * (1 + 1 / 10000) ≤ exact)
    (high : exact ≤ 10 ^ (power + 1) * (1 - 1 / 10000)) : scale number = powerOfTen power := by
  have unit : (0 : ℚ) < 10 ^ power := by positivity
  have next : (10 : ℚ) ^ (power + 1) = 10 ^ power * 10 := zpow_add_one₀ (by norm_num) power
  have positive : 0 < exact := by linarith
  obtain ⟨magnitude, isParts, isValue⟩ := denotes.exists_parts positive
  rw [magnitude.toRat_eq_div] at isValue
  have numeratorPositive : 0 < magnitude.numerator := by
    apply Nat.pos_of_ne_zero
    intro isZero
    rw [isZero, Nat.cast_zero, zero_div] at isValue
    linarith
  obtain ⟨leadingLow, leadingHigh⟩ :=
    leadingExponent_spec numeratorPositive magnitude.denominator_pos
  rw [isValue] at leadingLow leadingHigh
  have isLeading : leadingExponent magnitude.numerator magnitude.denominator = power := by
    have below : (10 : ℚ) ^ leadingExponent magnitude.numerator magnitude.denominator <
        10 ^ (power + 1) := by linarith
    have above : (10 : ℚ) ^ power <
        10 ^ (leadingExponent magnitude.numerator magnitude.denominator + 1) := by linarith
    have := (zpow_lt_zpow_iff_right₀ (by norm_num)).mp below
    have := (zpow_lt_zpow_iff_right₀ (by norm_num)).mp above
    omega
  have apartLow : (10 : ℚ) ^ power * (1 / 10000) ≤
      |(magnitude.numerator / magnitude.denominator : ℚ) - 10 ^ power| := by
    rw [isValue, abs_of_pos (by linarith)]
    linarith
  have apartHigh : (10 : ℚ) ^ (power + 1) * (1 / 10000) ≤
      |(magnitude.numerator / magnitude.denominator : ℚ) - 10 ^ (power + 1)| := by
    rw [isValue, abs_of_neg (by linarith)]
    linarith
  simp only [scale, isParts, orderOfFraction, isLeading,
    isNear_power_eq_false magnitude.denominator_pos apartLow,
    isNear_power_eq_false magnitude.denominator_pos apartHigh, Bool.false_eq_true, if_false]

section Bounds

variable {power : ℤ} {numerator denominator : Nat}

theorem near_power_of_isNear (positive : 0 < denominator)
    (near : isNear (numerator * Nat.pow 10 (-power).toNat) (denominator * Nat.pow 10 power.toNat) =
      true) :
    10 ^ power * (1 - 1 / 2 ^ 40) ≤ (numerator / denominator : ℚ) ∧
      (numerator / denominator : ℚ) ≤ 10 ^ power * (1 + 1 / 2 ^ 40) := by
  have basePositive : (0 : ℚ) < (denominator * Nat.pow 10 power.toNat : Nat) := by
    exact_mod_cast Nat.mul_pos positive (Nat.pow_pos (by decide))
  have unit : (0 : ℚ) < 10 ^ power := by positivity
  have ratio := ratio_eq numerator denominator power
  rw [div_eq_div_iff basePositive.ne' unit.ne'] at ratio
  rw [isNear, decide_eq_true_iff] at near
  have castNear : |((numerator * Nat.pow 10 (-power).toNat : Nat) : ℚ) -
      (denominator * Nat.pow 10 power.toNat : Nat)| * 2 ^ 40 ≤
      (denominator * Nat.pow 10 power.toNat : Nat) := by
    rw [← Int.cast_natCast, ← Int.cast_natCast (denominator * _), ← Int.cast_sub, ← Int.cast_abs,
      Int.abs_eq_natAbs]
    exact_mod_cast near
  generalize ((numerator * Nat.pow 10 (-power).toNat : Nat) : ℚ) = scaled at *
  generalize ((denominator * Nat.pow 10 power.toNat : Nat) : ℚ) = base at *
  rw [← le_div_iff₀ (by positivity)] at castNear
  obtain ⟨low, high⟩ := abs_le.mp castNear
  constructor
  · apply le_of_mul_le_mul_right _ basePositive
    rw [← ratio]
    calc 10 ^ power * (1 - 1 / 2 ^ 40) * base = (base - base / 2 ^ 40) * 10 ^ power := by ring
      _ ≤ scaled * 10 ^ power := mul_le_mul_of_nonneg_right (by linarith) unit.le
  · apply le_of_mul_le_mul_right _ basePositive
    rw [← ratio]
    calc scaled * 10 ^ power ≤ (base + base / 2 ^ 40) * 10 ^ power :=
          mul_le_mul_of_nonneg_right (by linarith) unit.le
      _ = 10 ^ power * (1 + 1 / 2 ^ 40) * base := by ring

theorem orderBeside_cases (power : ℤ) (ratio base : Nat) :
    orderBeside power ratio base = power ∨ orderBeside power ratio base = power - 1 := by
  unfold orderBeside
  split
  · exact .inl rfl
  · exact .inr rfl

theorem orderOfFraction_bounds (numeratorPositive : 0 < numerator)
    (denominatorPositive : 0 < denominator) :
    10 ^ orderOfFraction numerator denominator * (1 - 1 / 2 ^ 40) ≤ (numerator / denominator : ℚ) ∧
      (numerator / denominator : ℚ) ≤
        10 ^ (orderOfFraction numerator denominator + 1) * (1 + 1 / 2 ^ 40) := by
  obtain ⟨low, high⟩ := leadingExponent_spec numeratorPositive denominatorPositive
  have next (power : ℤ) : (10 : ℚ) ^ (power + 1) = 10 ^ power * 10 :=
    zpow_add_one₀ (by norm_num) power
  have positive (power : ℤ) : (0 : ℚ) < 10 ^ power := by positivity
  unfold orderOfFraction
  extract_lets leading ratio base
  change 10 ^ leading ≤ (numerator / denominator : ℚ) at low
  change (numerator / denominator : ℚ) < 10 ^ (leading + 1) at high
  have leadingPositive := positive leading
  rw [next] at high
  split
  next near =>
    have bounds := near_power_of_isNear denominatorPositive near
    rcases orderBeside_cases leading (ratio leading) (base leading) with isSame | isLess
    · rw [isSame, next]
      constructor <;> linarith
    · have before := next (leading - 1)
      rw [sub_add_cancel] at before
      have beforePositive := positive (leading - 1)
      rw [isLess, sub_add_cancel]
      exact ⟨by linarith, bounds.2⟩
  next =>
    split
    next near =>
      have bounds := near_power_of_isNear denominatorPositive near
      rcases orderBeside_cases (leading + 1) (ratio (leading + 1)) (base (leading + 1)) with
        isSame | isLess
      · rw [isSame, next (leading + 1), next]
        rw [next] at bounds
        constructor <;> linarith
      · rw [isLess, add_sub_cancel_right, next]
        rw [next] at bounds
        constructor <;> linarith
    next =>
      rw [next]
      constructor <;> linarith

/-- A number is scaled by a power of ten, which is that of its leading digit but for what rounding
explains. -/
structure HasScale (number : Float) (exact : ℚ) (power : ℤ) : Prop where
  scale_eq : scale number = powerOfTen power
  low : 10 ^ power * (1 - 1 / 2 ^ 40) ≤ exact
  high : exact ≤ 10 ^ (power + 1) * (1 + 1 / 2 ^ 40)

theorem Denotes.exists_hasScale (denotes : Denotes number exact) (positive : 0 < exact) :
    ∃ power, HasScale number exact power := by
  obtain ⟨magnitude, isParts, isValue⟩ := denotes.exists_parts positive
  rw [magnitude.toRat_eq_div] at isValue
  have numeratorPositive : 0 < magnitude.numerator := by
    apply Nat.pos_of_ne_zero
    intro isZero
    rw [isZero, Nat.cast_zero, zero_div] at isValue
    linarith
  obtain ⟨low, high⟩ := orderOfFraction_bounds numeratorPositive magnitude.denominator_pos
  rw [isValue] at low high
  exact ⟨_, by rw [scale, isParts], low, high⟩

end Bounds

end Binary64
end ThroughputCharts

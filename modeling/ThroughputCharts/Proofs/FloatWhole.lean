import ThroughputCharts.Binary64.Integral
import ThroughputCharts.Proofs.FloatRounding

/-!
# Whole numbers in binary64

Whole numbers of up to 53 places are held exactly, and so are their sums and differences.  Rounding a
finite number to a whole one, down or to the nearest, makes no error beyond that.
-/

namespace ThroughputCharts
namespace Binary64

open Float.Model

/-- A finite number with the given value. -/
structure Denotes (number : Float) (exact : ℚ) : Prop where
  finite : number.isFinite = true
  value_eq : value number = exact

/-- Finite numbers with the given whole values, one by one. -/
def DenoteEach (numbers : List Float) (wholes : List ℤ) : Prop :=
  List.Forall₂ (fun number (whole : ℤ) => Denotes number whole) numbers wholes

section Comparing

open UnpackedFloat

variable {number other third : Float} {first second : ℚ}

theorem isLE_iff_swap_ne (order : Ordering) : order.isLE = true ↔ order.swap ≠ .lt := by
  cases order <;> decide

theorem compare_swap (unpacked otherUnpacked : UnpackedFloat) :
    UnpackedFloat.compare otherUnpacked unpacked =
      (UnpackedFloat.compare unpacked otherUnpacked).map Ordering.swap := by
  rcases unpacked with (_ | _) | _ | (_ | _) | ⟨_ | _, _, _, _⟩ <;>
    rcases otherUnpacked with (_ | _) | _ | (_ | _) | ⟨_ | _, _, _, _⟩ <;>
    simp only [UnpackedFloat.compare, Option.map_some, Option.map_none, Ordering.swap_then,
      ← Std.OrientedOrd.eq_swap] <;> rfl

theorem le_iff_compare : number ≤ other ↔
    (UnpackedFloat.compare number.toModel.unpack other.toModel.unpack).any (·.isLE) = true := by
  have unfolded : (number ≤ other) =
    (decide (UnpackedFloat.le number.toModel.unpack other.toModel.unpack = true) = true) := rfl
  rw [unfolded, decide_eq_true_iff, UnpackedFloat.le]

/-- Finite numbers can be compared. -/
theorem exists_compare_eq_some (finite : number.isFinite = true)
    (otherFinite : other.isFinite = true) :
    ∃ order, UnpackedFloat.compare number.toModel.unpack other.toModel.unpack = some order := by
  rcases unpack_cases finite with
    ⟨-, sign, unpacked⟩ | ⟨sign, mantissa, exponent, positive, -, -, unpacked⟩ <;>
  rcases unpack_cases otherFinite with
    ⟨-, otherSign, otherUnpacked⟩ |
    ⟨otherSign, otherMantissa, otherExponent, otherPositive, -, -, otherUnpacked⟩ <;>
  rw [unpacked, otherUnpacked] <;> cases sign <;> cases otherSign <;> exact ⟨_, rfl⟩

theorem le_iff_not_lt (finite : number.isFinite = true) (otherFinite : other.isFinite = true) :
    number ≤ other ↔ ¬ other < number := by
  obtain ⟨order, compared⟩ := exists_compare_eq_some finite otherFinite
  rw [le_iff_compare, lt_iff_compare, compare_swap number.toModel.unpack, compared,
    Option.map_some, Option.any_some, isLE_iff_swap_ne, Ne, Option.some.injEq]

protected theorem le_of_lt (less : number < other) : number ≤ other := by
  rw [le_iff_compare, lt_iff_compare.mp less]
  rfl

protected theorem not_lt_of_le (le : number ≤ other) : ¬ other < number := by
  obtain ⟨order, compared, isLE⟩ := (Option.any_eq_true _ _).mp (le_iff_compare.mp le)
  rw [lt_iff_compare, compare_swap number.toModel.unpack, compared, Option.map_some,
    Option.some.injEq]
  exact (isLE_iff_swap_ne order).mp isLE

/-- A number that is not finite but not below a finite one is the positive infinity, which is above
every finite number. -/
theorem lt_of_le_of_isFinite_eq_false (finite : number.isFinite = true)
    (otherFinite : other.isFinite = true) (notFinite : third.isFinite = false)
    (le : other ≤ third) : number < third := by
  have unfolded : third.isFinite = third.toModel.unpack.isFinite := rfl
  rw [unfolded] at notFinite
  rw [le_iff_compare] at le
  rw [lt_iff_compare]
  cases isThird : third.toModel.unpack with
  | infinity sign =>
      cases sign with
      | positive =>
          rcases unpack_cases finite with ⟨-, sign, unpacked⟩ | ⟨sign, _, _, _, -, -, unpacked⟩ <;>
            rw [unpacked] <;> cases sign <;> rfl
      | negative =>
          rw [isThird] at le
          rcases unpack_cases otherFinite with
            ⟨-, sign, unpacked⟩ | ⟨sign, _, _, _, -, -, unpacked⟩ <;>
            rw [unpacked] at le <;> cases sign <;> contradiction
  | notANumber =>
      rw [isThird] at le
      rcases unpack_cases otherFinite with
        ⟨-, sign, unpacked⟩ | ⟨sign, _, _, _, -, -, unpacked⟩ <;>
        rw [unpacked] at le <;> contradiction
  | zero sign =>
      rw [isThird] at notFinite
      contradiction
  | finite sign mantissa exponent positive =>
      rw [isThird] at notFinite
      contradiction

protected theorem lt_of_lt_of_le (finite : number.isFinite = true) (otherFinite : other.isFinite = true)
    (less : number < other) (le : other ≤ third) : number < third := by
  cases thirdFinite : third.isFinite with
  | true =>
      rw [le_iff_not_lt otherFinite thirdFinite, lt_iff_value_lt thirdFinite otherFinite, not_lt] at le
      rw [lt_iff_value_lt finite otherFinite] at less
      exact (lt_iff_value_lt finite thirdFinite).mpr (less.trans_le le)
  | false => exact lt_of_le_of_isFinite_eq_false finite otherFinite thirdFinite le

theorem Denotes.lt_iff (denotes : Denotes number first) (otherDenotes : Denotes other second) :
    number < other ↔ first < second := by
  rw [lt_iff_value_lt denotes.finite otherDenotes.finite, denotes.value_eq, otherDenotes.value_eq]

theorem Denotes.le_iff (denotes : Denotes number first) (otherDenotes : Denotes other second) :
    number ≤ other ↔ first ≤ second := by
  rw [le_iff_not_lt denotes.finite otherDenotes.finite, otherDenotes.lt_iff denotes, not_lt]

theorem Denotes.beq_eq_false (denotes : Denotes number first) (otherDenotes : Denotes other second)
    (less : first < second) : (number == other) = false := by
  have below := lt_iff_compare.mp ((denotes.lt_iff otherDenotes).mpr less)
  have unfolded : (number == other) =
    UnpackedFloat.beq number.toModel.unpack other.toModel.unpack := rfl
  rw [unfolded, UnpackedFloat.beq, below]
  rfl

theorem Denotes.beq_eq_false_of_gt (denotes : Denotes number first)
    (otherDenotes : Denotes other second) (greater : second < first) : (number == other) = false := by
  have below := lt_iff_compare.mp ((otherDenotes.lt_iff denotes).mpr greater)
  have unfolded : (number == other) =
    UnpackedFloat.beq number.toModel.unpack other.toModel.unpack := rfl
  rw [unfolded, UnpackedFloat.beq, compare_swap other.toModel.unpack, below]
  rfl

end Comparing

section Operations

variable {number other result : Float} {first second exact : ℚ}

theorem abs_lt_rangeEnd (small : |exact| ≤ 2 ^ 100) : |exact| < rangeEnd := by
  have place : (2 : ℚ) ^ 100 ≤ 2 ^ (971 : ℤ) := by
    rw [← zpow_natCast]
    exact zpow_le_zpow_right₀ one_le_two (by decide)
  have positive : (0 : ℚ) < 2 ^ (971 : ℤ) := by positivity
  calc |exact| ≤ 2 ^ (971 : ℤ) := small.trans place
    _ < rangeEnd := by
      rw [rangeEnd_eq]
      exact lt_mul_of_one_lt_left positive (by norm_num)

theorem RoundsTo.denotes (rounds : RoundsTo exact result) (representable : Representable exact) :
    Denotes result exact :=
  ⟨rounds.finite, rounds.value_eq representable⟩

theorem RoundsTo.denotes_value (rounds : RoundsTo exact result) : Denotes result (value result) :=
  ⟨rounds.finite, rfl⟩

theorem Denotes.representable (denotes : Denotes number first) : Representable first :=
  denotes.value_eq ▸ representable_value denotes.finite

theorem Denotes.add (denotes : Denotes number first) (otherDenotes : Denotes other second)
    (small : |first + second| ≤ 2 ^ 100) : RoundsTo (first + second) (number + other) := by
  rw [← denotes.value_eq, ← otherDenotes.value_eq] at small ⊢
  exact roundsTo_add denotes.finite otherDenotes.finite (abs_lt_rangeEnd small)

theorem Denotes.sub (denotes : Denotes number first) (otherDenotes : Denotes other second)
    (small : |first - second| ≤ 2 ^ 100) : RoundsTo (first - second) (number - other) := by
  rw [← denotes.value_eq, ← otherDenotes.value_eq] at small ⊢
  exact roundsTo_sub denotes.finite otherDenotes.finite (abs_lt_rangeEnd small)

theorem Denotes.mul (denotes : Denotes number first) (otherDenotes : Denotes other second)
    (small : |first * second| ≤ 2 ^ 100) : RoundsTo (first * second) (number * other) := by
  rw [← denotes.value_eq, ← otherDenotes.value_eq] at small ⊢
  exact roundsTo_mul denotes.finite otherDenotes.finite (abs_lt_rangeEnd small)

theorem Denotes.div (denotes : Denotes number first) (otherDenotes : Denotes other second)
    (nonzero : second ≠ 0) (small : |first / second| ≤ 2 ^ 100) :
    RoundsTo (first / second) (number / other) := by
  rw [← denotes.value_eq, ← otherDenotes.value_eq] at small ⊢
  rw [← otherDenotes.value_eq] at nonzero
  exact roundsTo_div denotes.finite otherDenotes.finite nonzero (abs_lt_rangeEnd small)

theorem Denotes.neg (denotes : Denotes number first) : Denotes (-number) (-first) := by
  obtain ⟨finite, isValue⟩ := value_neg denotes.finite
  exact ⟨finite, by rw [isValue, denotes.value_eq]⟩

theorem Denotes.abs (denotes : Denotes number first) : Denotes number.abs |first| := by
  obtain ⟨finite, isValue⟩ := value_abs denotes.finite
  exact ⟨finite, by rw [isValue, denotes.value_eq]⟩

theorem denotes_of_parts {magnitude : Magnitude} (isParts : parts number = .finite false magnitude) :
    Denotes number magnitude.toRat :=
  ⟨isFinite_iff.mpr ⟨_, _, isParts⟩, by simp [value, isParts]⟩

end Operations

section Whole

variable {number other : Float} {first second : ℤ}

theorem abs_intCast_le (bound : |first| ≤ 2 ^ 53) : |(first : ℚ)| ≤ 2 ^ 100 := by
  have castBound : |(first : ℚ)| ≤ 2 ^ 53 := by exact_mod_cast bound
  linarith

theorem Denotes.add_whole (denotes : Denotes number first) (otherDenotes : Denotes other second)
    (bound : |first + second| ≤ 2 ^ 53) : Denotes (number + other) ((first + second : ℤ) : ℚ) := by
  have small := abs_intCast_le bound
  rw [Int.cast_add] at small
  have rounds := denotes.add otherDenotes small
  rw [← Int.cast_add] at rounds
  exact rounds.denotes (representable_intCast bound)

theorem Denotes.sub_whole (denotes : Denotes number first) (otherDenotes : Denotes other second)
    (bound : |first - second| ≤ 2 ^ 53) : Denotes (number - other) ((first - second : ℤ) : ℚ) := by
  have small := abs_intCast_le bound
  rw [Int.cast_sub] at small
  have rounds := denotes.sub otherDenotes small
  rw [← Int.cast_sub] at rounds
  exact rounds.denotes (representable_intCast bound)

theorem Denotes.mul_whole (denotes : Denotes number first) (otherDenotes : Denotes other second)
    (bound : |first * second| ≤ 2 ^ 53) : Denotes (number * other) ((first * second : ℤ) : ℚ) := by
  have small := abs_intCast_le bound
  rw [Int.cast_mul] at small
  have rounds := denotes.mul otherDenotes small
  rw [← Int.cast_mul] at rounds
  exact rounds.denotes (representable_intCast bound)

theorem denotes_toFloat {count : UInt64} (small : count.toNat ≤ 2 ^ 53) :
    Denotes count.toFloat ((count.toNat : ℤ) : ℚ) := by
  have bound : |(count.toNat : ℤ)| ≤ 2 ^ 53 := by
    rw [Nat.abs_cast]
    exact_mod_cast small
  have inRange : |((count.toNat : ℤ) : ℚ) * 2 ^ (0 : ℤ)| < rangeEnd := by
    rw [zpow_zero, mul_one]
    exact abs_lt_rangeEnd (abs_intCast_le bound)
  have isResult : count.toFloat.toModel =
      Float.Model.pack (UnpackedFloat.normalize .binary64 (count.toNat : ℤ) 0 .positive) := rfl
  have rounds := roundsTo_normalize inRange isResult
  rw [zpow_zero, mul_one] at rounds
  exact rounds.denotes (representable_intCast bound)

theorem denotes_ofNat {count : Nat} (small : count < 2 ^ 53) :
    Denotes (Float.ofNat count) ((count : ℤ) : ℚ) := by
  have one : Denotes (Float.ofBits 0x3FF0000000000000) ((1 : ℤ) : ℚ) := by
    have isParts : parts (Float.ofBits 0x3FF0000000000000) = .finite false ⟨2 ^ 52, -52⟩ := by
      decide
    convert denotes_of_parts isParts using 1
    norm_num [Magnitude.toRat]
  have converted : count.toUInt64.toNat = count :=
    UInt64.toNat_ofNat_of_lt (small.trans (by decide))
  have counted : Denotes count.toUInt64.toFloat ((count.toUInt64.toNat : ℤ) : ℚ) := by
    apply denotes_toFloat
    rw [converted]
    exact small.le
  rw [converted] at counted
  have unfolded : Float.ofNat count = Float.ofScientific count false 0 := rfl
  rw [unfolded, Float.ofScientific, dif_pos ⟨small, by decide⟩]
  have bound : |(count : ℤ) * 1| ≤ 2 ^ 53 := by
    rw [mul_one, Nat.abs_cast]
    exact_mod_cast small.le
  have product := counted.mul_whole one bound
  rwa [mul_one] at product

theorem denotes_literal (count : Nat) (isCount : number = Float.ofNat count)
    (small : count < 2 ^ 53) : Denotes number ((count : ℤ) : ℚ) :=
  isCount ▸ denotes_ofNat small

theorem denotes_zero : Denotes 0.0 0 := by
  have isParts : parts 0.0 = .finite false ⟨0, -1074⟩ := by decide
  convert denotes_of_parts isParts using 1
  norm_num [Magnitude.toRat]

theorem denotes_one : Denotes 1.0 ((1 : ℤ) : ℚ) :=
  denotes_literal 1 (by decide) (by decide)

theorem parts_neg {negative : Bool} {magnitude : Magnitude}
    (isParts : parts number = .finite negative magnitude) :
    parts (-number) = .finite (!negative) magnitude := by
  have signs : -signOf negative = signOf (!negative) := by
    cases negative <;> rfl
  apply parts_of_unpack (canonical_of_parts isParts)
  rw [unpack_neg (isFinite_iff.mpr ⟨_, _, isParts⟩), unpack_of_parts isParts, ← signs]
  split <;> rfl

/-- A whole number of up to 53 places, with a sign. -/
def signed (negative : Bool) (whole : Nat) : ℤ :=
  if negative then -whole else whole

theorem denotes_nearest (negative : Bool) {whole : Nat} (small : whole < 2 ^ 53) :
    Denotes (nearest negative whole 1) (signed negative whole : ℤ) := by
  have held := denotes_ofNat small
  obtain ⟨own, magnitude, isParts⟩ := isFinite_iff.mp held.finite
  have nonneg : 0 ≤ magnitude.toRat := by
    rw [Magnitude.toRat]
    positivity
  have isValue : magnitude.toRat = ((whole : ℚ) / (1 : Nat)) := by
    have wholeNonneg : (0 : ℚ) ≤ whole := by positivity
    have := held.value_eq
    simp only [value, isParts, Int.cast_natCast] at this
    rw [Nat.cast_one, div_one]
    split at this <;> linarith
  have attracts := magnitude.attracts_toRat
  rw [isValue] at attracts
  -- The number or its negative has the sign that is asked for.
  obtain ⟨number, numberParts⟩ : ∃ number, parts number = .finite negative magnitude := by
    by_cases same : own = negative
    · exact ⟨_, same ▸ isParts⟩
    · refine ⟨_, (parts_neg isParts).trans ?_⟩
      rw [Bool.eq_not_of_ne (Ne.symm same)]
  rw [nearest_eq_of_attracts numberParts one_pos attracts]
  refine ⟨isFinite_iff.mpr ⟨_, _, numberParts⟩, ?_⟩
  simp only [value, numberParts, isValue, signed, Nat.cast_one, div_one]
  split <;> simp

end Whole

section Rounding

variable {number : Float} {exact : ℚ}

/-- A number is whole and stays as it is, or it is a fraction of which a whole number is chosen. -/
theorem roundWhole_cases (denotes : Denotes number exact) (choose : Bool → Nat → Nat → Nat) :
    (∃ whole : ℤ, exact = whole ∧ roundWhole choose number = number) ∨
      ∃ (negative : Bool) (significand units : Nat), 0 < units ∧ significand < 2 ^ 53 ∧
        exact = (if negative then -1 else 1) * (significand / units : ℚ) ∧
        roundWhole choose number = nearest negative (choose negative significand units) 1 := by
  obtain ⟨negative, magnitude, isParts⟩ := isFinite_iff.mp denotes.finite
  have isValue := denotes.value_eq
  simp only [value, isParts] at isValue
  simp only [roundWhole, isParts]
  by_cases whole : 0 ≤ magnitude.exponent
  · left
    rw [if_pos whole]
    have isInt : magnitude.toRat = ((magnitude.significand * 2 ^ magnitude.exponent.toNat : ℤ) : ℚ) := by
      rw [Magnitude.toRat]
      push_cast
      rw [← zpow_natCast, Int.toNat_of_nonneg whole]
    rw [isInt] at isValue
    split at isValue
    · exact ⟨-(magnitude.significand * 2 ^ magnitude.exponent.toNat), by rw [← isValue]; simp, rfl⟩
    · exact ⟨magnitude.significand * 2 ^ magnitude.exponent.toNat, isValue.symm, rfl⟩
  · right
    rw [if_neg whole]
    refine ⟨negative, magnitude.significand, magnitude.denominator, magnitude.denominator_pos,
      (canonical_of_parts isParts).significand_lt, ?_, rfl⟩
    have numerator : magnitude.numerator = magnitude.significand := by
      rw [Magnitude.numerator, Int.toNat_eq_zero.mpr (by omega)]
      exact Nat.mul_one _
    rw [← isValue, magnitude.toRat_eq_div, numerator]
    split <;> simp

/-- A number is rounded down. -/
theorem denotes_floor (denotes : Denotes number exact) : Denotes (floor number) (⌊exact⌋ : ℤ) := by
  rcases roundWhole_cases denotes _ with
    ⟨whole, isWhole, same⟩ | ⟨negative, significand, units, positive, bound, isFraction, chosen⟩
  · rw [floor, same, isWhole, Int.floor_intCast, ← isWhole]
    exact denotes
  · have castPositive : (0 : ℚ) < units := by exact_mod_cast positive
    rw [floor, chosen]
    cases negative with
    | false =>
        simp only [Bool.false_eq_true, if_false, one_mul] at isFraction ⊢
        have low : significand / units * units ≤ significand := Nat.div_mul_le_self _ _
        have high : significand < (significand / units + 1) * units := by
          rw [Nat.add_mul, Nat.one_mul]
          exact Nat.lt_div_mul_add positive
        have small : significand / units < 2 ^ 53 := (Nat.div_le_self _ _).trans_lt bound
        generalize significand / units = whole at low high small ⊢
        have isFloor : ⌊exact⌋ = signed false whole := by
          rw [isFraction, Int.floor_eq_iff, le_div_iff₀ castPositive, div_lt_iff₀ castPositive]
          simp only [signed, Bool.false_eq_true, if_false, Int.cast_natCast]
          exact ⟨by exact_mod_cast low, by exact_mod_cast high⟩
        rw [isFloor]
        exact denotes_nearest false small
    | true =>
        simp only [if_true, neg_mul, one_mul] at isFraction ⊢
        have low : significand ≤ (significand + units - 1) / units * units := by
          have := Nat.lt_div_mul_add (a := significand + units - 1) positive
          omega
        have high : (significand + units - 1) / units * units < significand + units := by
          have := Nat.div_mul_le_self (significand + units - 1) units
          omega
        have small : (significand + units - 1) / units < 2 ^ 53 := by
          rw [Nat.div_lt_iff_lt_mul positive]
          have := Nat.mul_le_mul_right units (Nat.succ_le_of_lt bound)
          omega
        generalize (significand + units - 1) / units = whole at low high small ⊢
        have castLow : (significand : ℚ) ≤ whole * units := by exact_mod_cast low
        have castHigh : (whole * units : ℚ) < significand + units := by exact_mod_cast high
        have isFloor : ⌊exact⌋ = signed true whole := by
          rw [isFraction, Int.floor_eq_iff, le_neg, neg_lt, div_le_iff₀ castPositive,
            lt_div_iff₀ castPositive]
          simp only [signed, if_true, Int.cast_neg, Int.cast_natCast]
          constructor <;> linarith
        rw [isFloor]
        exact denotes_nearest true small

/-- A number is rounded to a nearest whole one. -/
theorem exists_denotes_round (denotes : Denotes number exact) :
    ∃ whole : ℤ, Denotes (Binary64.round number) whole ∧ |whole - exact| ≤ 1 / 2 := by
  rcases roundWhole_cases denotes _ with
    ⟨whole, isWhole, same⟩ | ⟨negative, significand, units, positive, bound, isFraction, chosen⟩
  · refine ⟨whole, ?_, by rw [isWhole, sub_self, abs_zero]; norm_num⟩
    rw [Binary64.round, same, ← isWhole]
    exact denotes
  · have castPositive : (0 : ℚ) < units := by exact_mod_cast positive
    have low : (2 * significand + units) / (2 * units) * (2 * units) ≤ 2 * significand + units :=
      Nat.div_mul_le_self _ _
    have high : 2 * significand + units <
        (2 * significand + units) / (2 * units) * (2 * units) + 2 * units :=
      Nat.lt_div_mul_add (by omega)
    have small : (2 * significand + units) / (2 * units) < 2 ^ 53 := by
      rw [Nat.div_lt_iff_lt_mul (by omega)]
      have := Nat.mul_le_mul_right units (Nat.succ_le_of_lt bound)
      have := Nat.mul_le_mul_left (2 ^ 53 - 1) positive
      omega
    refine ⟨signed negative ((2 * significand + units) / (2 * units)), ?_, ?_⟩
    · rw [Binary64.round, chosen]
      exact denotes_nearest negative small
    · generalize (2 * significand + units) / (2 * units) = whole at low high
      have castLow : (whole * (2 * units) : ℚ) ≤ 2 * significand + units := by exact_mod_cast low
      have castHigh : (2 * significand + units : ℚ) < whole * (2 * units) + 2 * units := by
        exact_mod_cast high
      have near : |(whole : ℚ) - significand / units| ≤ 1 / 2 := by
        have scaled : (significand / units : ℚ) * units = significand :=
          div_mul_cancel₀ _ castPositive.ne'
        rw [abs_le]
        constructor
        · by_contra below
          have := mul_lt_mul_of_pos_right (not_le.mp below) castPositive
          linarith
        · by_contra above
          have := mul_lt_mul_of_pos_right (not_le.mp above) castPositive
          linarith
      rw [isFraction, signed]
      cases negative with
      | false => simpa using near
      | true =>
          rw [if_pos rfl, if_pos rfl, ← abs_neg]
          convert near using 2
          push_cast
          ring

/-- A number that is not negative is cut to the whole part, if that fits. -/
theorem toNat_toUInt64 (denotes : Denotes number exact) (nonneg : 0 ≤ exact)
    (small : exact < 2 ^ 64) : (number.toUInt64.toNat : ℤ) = ⌊exact⌋ := by
  have unfolded : number.toUInt64 =
    UInt64.ofNatClamp (UnpackedFloat.toInt 0 (UInt64.size - 1) number.toModel.unpack).toNat := rfl
  rw [unfolded]
  rcases unpack_cases denotes.finite with
    ⟨isZero, sign, unpacked⟩ | ⟨sign, mantissa, exponent, positive, -, isValue, unpacked⟩
  · rw [unpacked, ← denotes.value_eq, isZero, Int.floor_zero]
    rfl
  · rw [denotes.value_eq] at isValue
    have castPositive : (0 : ℚ) < mantissa := by exact_mod_cast positive
    have unitPositive : (0 : ℚ) < 2 ^ exponent := by positivity
    cases sign with
    | negative =>
        have := mul_pos castPositive unitPositive
        simp only [UnpackedFloat.Sign.apply, Int.cast_neg, Int.cast_natCast] at isValue
        linarith
    | positive =>
        simp only [UnpackedFloat.Sign.apply, Int.cast_natCast] at isValue
        obtain ⟨cut, isCut⟩ : ∃ cut, cut = (UnpackedFloat.ExtendedMantissa.ofMantissaAndAccuracy
            (mantissa <<< (exponent - 0).toNat) .exact >>>
              (0 - (exponent - (exponent - 0).toNat)).toNat).mantissa := ⟨_, rfl⟩
        have located := (locates_exact (mantissa <<< (exponent - 0).toNat)).shiftRight
          (0 - (exponent - (exponent - 0).toNat)).toNat
        have shifted : ((mantissa <<< (exponent - 0).toNat : Nat) : ℚ) /
            2 ^ (0 - (exponent - (exponent - 0).toNat)).toNat = exact := by
          rw [isValue, div_eq_mul_inv, ← zpow_natCast, ← zpow_neg]
          have opposite : -((0 - (exponent - (exponent - 0).toNat)).toNat : ℤ) =
              exponent - (exponent - 0).toNat := by omega
          rw [opposite, cast_shiftLeft_mul_zpow]
        rw [shifted] at located
        have low := located.le
        have high := located.lt
        rw [← isCut] at low high
        have isFloor : ⌊exact⌋ = cut := Int.floor_eq_iff.mpr ⟨by exact_mod_cast low, by exact_mod_cast high⟩
        have fits : cut < UInt64.size := by
          have : (cut : ℚ) < 2 ^ 64 := low.trans_lt small
          exact_mod_cast this
        have isInt : UnpackedFloat.toInt 0 (UInt64.size - 1) number.toModel.unpack = (cut : ℤ) := by
          rw [unpacked, isCut]
          rfl
        rw [isInt, isFloor, Int.toNat_natCast, UInt64.toNat_ofNatClamp_of_lt fits]

end Rounding

end Binary64
end ThroughputCharts

import ThroughputCharts.Proofs.FloatWhole

/-!
# Ties to even

A finite magnitude attracts exactly the numbers to which nothing that can be held is nearer, where
an equally near one is only left aside for an even significand.  Every number in the range is
attracted by some magnitude, and all beyond it become infinity.
-/

namespace ThroughputCharts

/-- Of two numbers the greater one is at least as near just from the middle on. -/
theorem abs_sub_le_of_lt_iff {first second number : ℚ} (less : first < second) :
    |second - number| ≤ |first - number| ↔ first + second ≤ 2 * number := by
  rw [← sq_le_sq]
  constructor
  · intro squares
    nlinarith
  · intro beyond
    nlinarith

theorem abs_sub_le_of_gt_iff {first second number : ℚ} (less : first < second) :
    |first - number| ≤ |second - number| ↔ 2 * number ≤ first + second := by
  rw [← sq_le_sq]
  constructor
  · intro squares
    nlinarith
  · intro before
    nlinarith

/-- Only the middle is equally near to two numbers. -/
theorem abs_sub_eq_iff {first second number : ℚ} (different : first ≠ second) :
    |first - number| = |second - number| ↔ first + second = 2 * number := by
  rw [abs_eq_abs]
  constructor
  · rintro (same | opposite)
    · exact absurd (sub_left_inj.mp same) different
    · linarith
  · intro middle
    right
    linarith

namespace Binary64

/-- The number is finite, and its significand is even. -/
def HasEvenSignificand (number : Float) : Prop :=
  ∃ negative magnitude, parts number = .finite negative magnitude ∧ magnitude.significand % 2 = 0

/-- The number is finite, and its sign is the given one, also where it is zero. -/
def HasSign (number : Float) (negative : Bool) : Prop :=
  ∃ magnitude, parts number = .finite negative magnitude

/-- A result is the rounding of a number, and an equally near one is left aside only when the
significand of the result is even. -/
structure RoundsToEven (exact : ℚ) (result : Float) : Prop extends RoundsTo exact result where
  even : ∀ other, Representable other → other ≠ value result →
    |other - exact| = |value result - exact| → HasEvenSignificand result

namespace Magnitude

/-- The gap above a magnitude. -/
def unit (magnitude : Magnitude) : ℚ :=
  2 ^ magnitude.exponent

/-- The gap below a magnitude, which is smaller for the least significand of an exponent. -/
def gapBelow (magnitude : Magnitude) : ℚ :=
  (if Decimal.isLeastOfExponent magnitude then 1 else 2) / 2 * magnitude.unit

end Magnitude

section Neighbours

variable {magnitude : Magnitude} {other number : ℚ}

theorem Magnitude.unit_pos (magnitude : Magnitude) : 0 < magnitude.unit :=
  zpow_pos two_pos magnitude.exponent

theorem Magnitude.gapBelow_pos (magnitude : Magnitude) : 0 < magnitude.gapBelow := by
  have positive := magnitude.unit_pos
  unfold gapBelow
  split <;> linarith

/-- A magnitude attracts what is at most half a gap away from it. -/
theorem Magnitude.attracts_iff :
    magnitude.Attracts number ↔
      Within (magnitude.significand % 2 = 0) (magnitude.toRat - magnitude.gapBelow / 2) number
        (magnitude.toRat + magnitude.unit / 2) := by
  have positive := magnitude.unit_pos
  have low : magnitude.toRat - magnitude.gapBelow / 2 = (magnitude.significand -
      (if Decimal.isLeastOfExponent magnitude then 1 else 2) / 4) * magnitude.unit := by
    rw [toRat, gapBelow, unit]
    ring
  have high : magnitude.toRat + magnitude.unit / 2 =
      (magnitude.significand + 1 / 2) * magnitude.unit := by
    rw [toRat, unit]
    ring
  have middle : number = number / magnitude.unit * magnitude.unit :=
    (div_mul_cancel₀ number positive.ne').symm
  rw [Attracts, ← within_mul_iff positive, low, high, ← unit, ← middle]

theorem isLeastOfExponent_iff : Decimal.isLeastOfExponent magnitude = true ↔
    magnitude.significand = 2 ^ 52 ∧ leastExponent < magnitude.exponent := by
  simp [Decimal.isLeastOfExponent, fractionBits]

theorem Magnitude.onGrid_toRat (magnitude : Magnitude) :
    OnGrid magnitude.exponent magnitude.toRat :=
  ⟨magnitude.significand, by rw [toRat, Int.cast_natCast]⟩

theorem Representable.onGrid_least (representable : Representable number) :
    OnGrid leastExponent number := by
  obtain ⟨significand, exponent, -, least, rfl⟩ := representable
  exact OnGrid.refine ⟨significand, rfl⟩ least

/-- Above the least number of its exponent, everything is on the grid of a magnitude. -/
theorem Representable.onGrid_of_le (representable : Representable other)
    (atLeast : magnitude.exponent = leastExponent ∨ 2 ^ (52 + magnitude.exponent) ≤ other) :
    OnGrid magnitude.exponent other := by
  rcases atLeast with isLeast | large
  · rw [isLeast]
    exact representable.onGrid_least
  · exact representable.onGrid (large.trans (le_abs_self other))

theorem Magnitude.Canonical.eq_or_pow_le (canonical : magnitude.Canonical) :
    magnitude.exponent = leastExponent ∨ 2 ^ (52 + magnitude.exponent) ≤ magnitude.toRat := by
  rcases canonical.least_le.eq_or_lt with isLeast | notLeast
  · exact .inl isLeast.symm
  · right
    have normal : (2 : ℚ) ^ 52 ≤ magnitude.significand := by
      exact_mod_cast canonical.normal notLeast
    rw [zpow_add₀ two_ne_zero]
    exact mul_le_mul_of_nonneg_right normal (by positivity)

theorem Magnitude.Canonical.unit_le_sub (canonical : magnitude.Canonical)
    (representable : Representable other) (above : magnitude.toRat < other) :
    magnitude.unit ≤ other - magnitude.toRat := by
  have atLeast := canonical.eq_or_pow_le.imp_right fun large => large.trans above.le
  exact magnitude.onGrid_toRat.unit_le (representable.onGrid_of_le atLeast) above

theorem Magnitude.gapBelow_of_least (isLeast : Decimal.isLeastOfExponent magnitude = true) :
    magnitude.gapBelow = 2 ^ (magnitude.exponent - 1) := by
  rw [gapBelow, if_pos isLeast, unit, zpow_sub_one₀ two_ne_zero]
  ring

theorem Magnitude.gapBelow_of_not_least (notLeast : ¬ Decimal.isLeastOfExponent magnitude = true) :
    magnitude.gapBelow = 2 ^ magnitude.exponent := by
  rw [gapBelow, if_neg notLeast, unit]
  ring

/-- Below the least number of an exponent, what can be held is half as far apart. -/
theorem Magnitude.gapBelow_le_sub_of_least
    (isLeast : Decimal.isLeastOfExponent magnitude = true) (representable : Representable other)
    (below : other < magnitude.toRat) : magnitude.gapBelow ≤ magnitude.toRat - other := by
  rw [gapBelow_of_least isLeast]
  rcases le_or_gt (2 ^ (52 + (magnitude.exponent - 1))) other with near | far
  · have otherOnGrid := representable.onGrid (near.trans (le_abs_self other))
    exact otherOnGrid.unit_le (magnitude.onGrid_toRat.refine (by omega)) below
  · have double : magnitude.toRat = 2 ^ (52 + (magnitude.exponent - 1)) * 2 := by
      rw [toRat, (isLeastOfExponent_iff.mp isLeast).1, ← zpow_add_one₀ two_ne_zero,
        show 52 + (magnitude.exponent - 1) + 1 = 52 + magnitude.exponent by ring,
        zpow_add₀ two_ne_zero]
      norm_num
    have finer : (2 : ℚ) ^ (magnitude.exponent - 1) ≤ 2 ^ (52 + (magnitude.exponent - 1)) :=
      zpow_le_zpow_right₀ one_le_two (by omega)
    linarith

theorem Magnitude.Canonical.gapBelow_le_sub (canonical : magnitude.Canonical)
    (representable : Representable other) (below : other < magnitude.toRat) :
    magnitude.gapBelow ≤ magnitude.toRat - other := by
  by_cases isLeast : Decimal.isLeastOfExponent magnitude = true
  · exact gapBelow_le_sub_of_least isLeast representable below
  rw [gapBelow_of_not_least isLeast]
  rcases canonical.least_le.eq_or_lt with subnormal | normal
  · have otherOnGrid := representable.onGrid_of_le (.inl subnormal.symm)
    exact otherOnGrid.unit_le magnitude.onGrid_toRat below
  · rcases le_or_gt (2 ^ (52 + magnitude.exponent)) other with near | far
    · have otherOnGrid := representable.onGrid_of_le (.inr near)
      exact otherOnGrid.unit_le magnitude.onGrid_toRat below
    · -- The least number of the exponent is in between, since the magnitude is a later one.
      have later : 2 ^ 52 + 1 ≤ magnitude.significand := by
        have atLeast := canonical.normal normal
        have notFirst : magnitude.significand ≠ 2 ^ 52 :=
          fun first => isLeast (isLeastOfExponent_iff.mpr ⟨first, normal⟩)
        omega
      have castLater : (2 : ℚ) ^ 52 + 1 ≤ magnitude.significand := by exact_mod_cast later
      have scaled := mul_le_mul_of_nonneg_right castLater magnitude.unit_pos.le
      rw [zpow_add₀ two_ne_zero] at far
      rw [unit, add_mul, one_mul] at scaled
      rw [toRat]
      linarith

theorem Magnitude.Canonical.representable_above (canonical : magnitude.Canonical) :
    Representable (magnitude.toRat + magnitude.unit) := by
  have bound : |(magnitude.significand + 1 : ℤ)| ≤ 2 ^ 53 := by
    have := canonical.significand_lt
    rw [abs_of_nonneg (by positivity)]
    omega
  convert representable_of_abs_le bound canonical.least_le using 1
  rw [toRat, unit]
  push_cast
  ring

theorem Magnitude.Canonical.representable_below (canonical : magnitude.Canonical)
    (positive : 0 < magnitude.significand) :
    Representable (magnitude.toRat - magnitude.gapBelow) := by
  have places := canonical.significand_lt
  by_cases isLeast : Decimal.isLeastOfExponent magnitude = true
  · obtain ⟨first, normal⟩ := isLeastOfExponent_iff.mp isLeast
    have bound : |(2 ^ 53 - 1 : ℤ)| ≤ 2 ^ 53 := by norm_num
    have finer : leastExponent ≤ magnitude.exponent - 1 := by omega
    convert representable_of_abs_le bound finer using 1
    rw [toRat, gapBelow_of_least isLeast, first, zpow_sub_one₀ two_ne_zero]
    push_cast
    ring
  · have bound : |(magnitude.significand - 1 : ℤ)| ≤ 2 ^ 53 := by
      rw [abs_of_nonneg (by omega)]
      omega
    convert representable_of_abs_le bound canonical.least_le using 1
    rw [toRat, gapBelow_of_not_least isLeast]
    push_cast
    ring

/-- Nothing is nearer to an attracted number. -/
theorem Magnitude.Canonical.nearest_of_attracts (canonical : magnitude.Canonical)
    (attracts : magnitude.Attracts number) (representable : Representable other) :
    |magnitude.toRat - number| ≤ |other - number| := by
  obtain ⟨low, high, -⟩ := attracts_iff.mp attracts
  rcases lt_trichotomy other magnitude.toRat with below | rfl | above
  · have gap := canonical.gapBelow_le_sub representable below
    rw [abs_sub_le_of_lt_iff below]
    linarith
  · exact le_rfl
  · have gap := canonical.unit_le_sub representable above
    rw [abs_sub_le_of_gt_iff above]
    linarith

/-- Something else is equally near to an attracted number only for an even significand. -/
theorem Magnitude.Canonical.even_of_tie (canonical : magnitude.Canonical)
    (attracts : magnitude.Attracts number) (representable : Representable other)
    (different : other ≠ magnitude.toRat)
    (tie : |other - number| = |magnitude.toRat - number|) : magnitude.significand % 2 = 0 := by
  obtain ⟨-, -, strict⟩ := attracts_iff.mp attracts
  rw [abs_sub_eq_iff different] at tie
  by_contra odd
  obtain ⟨low, high⟩ := strict odd
  rcases different.lt_or_gt with below | above
  · have gap := canonical.gapBelow_le_sub representable below
    linarith
  · have gap := canonical.unit_le_sub representable above
    linarith

/-- The neighbour above leaves a number to the magnitude up to the middle. -/
theorem Magnitude.Canonical.le_middle_above (canonical : magnitude.Canonical)
    (nearest : ∀ other, Representable other → |magnitude.toRat - number| ≤ |other - number|) :
    number ≤ magnitude.toRat + magnitude.unit / 2 := by
  have above : magnitude.toRat < magnitude.toRat + magnitude.unit :=
    lt_add_of_pos_right _ magnitude.unit_pos
  have next := nearest _ canonical.representable_above
  rw [abs_sub_le_of_gt_iff above] at next
  linarith

/-- The neighbour below leaves a number to the magnitude down to the middle. -/
theorem Magnitude.Canonical.middle_below_le (canonical : magnitude.Canonical)
    (nonneg : 0 ≤ number)
    (nearest : ∀ other, Representable other → |magnitude.toRat - number| ≤ |other - number|) :
    magnitude.toRat - magnitude.gapBelow / 2 ≤ number := by
  have gapPositive := magnitude.gapBelow_pos
  rcases Nat.eq_zero_or_pos magnitude.significand with isZero | positive
  · have zero : magnitude.toRat = 0 := by rw [toRat, isZero, Nat.cast_zero, zero_mul]
    linarith
  · have below : magnitude.toRat - magnitude.gapBelow < magnitude.toRat :=
      sub_lt_self _ gapPositive
    have previous := nearest _ (canonical.representable_below positive)
    rw [abs_sub_le_of_lt_iff below] at previous
    linarith

/-- A magnitude attracts the numbers to which nothing is nearer, and with an even significand also
those to which something is equally near. -/
theorem Magnitude.Canonical.attracts_iff_nearest (canonical : magnitude.Canonical)
    (nonneg : 0 ≤ number) :
    magnitude.Attracts number ↔
      (∀ other, Representable other → |magnitude.toRat - number| ≤ |other - number|) ∧
        ∀ other, Representable other → other ≠ magnitude.toRat →
          |other - number| = |magnitude.toRat - number| → magnitude.significand % 2 = 0 := by
  constructor
  · intro attracts
    exact ⟨fun _ => canonical.nearest_of_attracts attracts,
      fun _ => canonical.even_of_tie attracts⟩
  · rintro ⟨nearest, even⟩
    -- In the middle to a neighbour, that one would be equally near.
    have noTie {other : ℚ} (odd : ¬ magnitude.significand % 2 = 0)
        (representable : Representable other) (different : other ≠ magnitude.toRat) :
        other + magnitude.toRat ≠ 2 * number := by
      rw [Ne, ← abs_sub_eq_iff different]
      exact fun tie => odd (even _ representable different tie)
    refine attracts_iff.mpr ⟨canonical.middle_below_le nonneg nearest,
      canonical.le_middle_above nearest, fun odd => ⟨?_, ?_⟩⟩
    · refine lt_of_le_of_ne (canonical.middle_below_le nonneg nearest) fun isMiddle => ?_
      have positive : 0 < magnitude.significand := Nat.pos_of_ne_zero fun zero => odd (by rw [zero])
      have different := (sub_lt_self magnitude.toRat magnitude.gapBelow_pos).ne
      exact noTie odd (canonical.representable_below positive) different (by linarith)
    · refine lt_of_le_of_ne (canonical.le_middle_above nearest) fun isMiddle => ?_
      have different := (lt_add_of_pos_right magnitude.toRat magnitude.unit_pos).ne'
      exact noTie odd canonical.representable_above different (by linarith)

end Neighbours

section Existence

variable {numerator denominator : Nat} {magnitude : Magnitude} {number : ℚ}

theorem rangeEnd_lt : rangeEnd < 2 ^ (1024 : Int) :=
  sub_lt_self _ (by positivity)

theorem pow_lt_rangeEnd : (2 : ℚ) ^ (52 + 971 : Int) < rangeEnd := by
  rw [rangeEnd_eq, zpow_add₀ two_ne_zero]
  exact mul_lt_mul_of_pos_right (by norm_num) (by positivity)

theorem IsUnitExponent.exponent_le {exponent : Int} (isUnit : IsUnitExponent exponent number)
    (inRange : number < rangeEnd) : exponent ≤ 971 := by
  rcases isUnit.le with isLeast | large
  · rw [isLeast]
    decide
  · have powers := (large.trans_lt inRange).trans rangeEnd_lt
    have exponents := (zpow_lt_zpow_iff_right₀ (one_lt_two (α := ℚ))).mp powers
    omega

theorem IsUnitExponent.pow_le_units {exponent : Int} (isUnit : IsUnitExponent exponent number)
    (normal : leastExponent < exponent) : 2 ^ 52 ≤ number / 2 ^ exponent := by
  have large := isUnit.le.resolve_left normal.ne'
  rwa [zpow_add₀ two_ne_zero, ← le_div_iff₀ (by positivity)] at large

theorem within_roundToUnit (positive : 0 < denominator) (exponent : Int) :
    Within (roundToUnit numerator denominator exponent % 2 = 0)
      (roundToUnit numerator denominator exponent - 1 / 2) (numerator / denominator / 2 ^ exponent)
      (roundToUnit numerator denominator exponent + 1 / 2) := by
  have scaledPositive : 0 < denominator * Nat.pow 2 exponent.toNat :=
    Nat.mul_pos positive (Nat.two_pow_pos _)
  rw [← units_eq]
  exact Decimal.within_roundDiv scaledPositive

section Rounded

variable {exponent : Int} {whole : Nat}

/-- A number rounded to 53 places is attracted by these places. -/
theorem attracts_of_within (isUnit : IsUnitExponent exponent number)
    (within : Within (whole % 2 = 0) (whole - 1 / 2) (number / 2 ^ exponent) (whole + 1 / 2)) :
    Magnitude.Attracts ⟨whole, exponent⟩ number := by
  rw [Magnitude.Attracts]
  dsimp only
  split
  case isTrue isLeast =>
    obtain ⟨first, normal⟩ := isLeastOfExponent_iff.mp isLeast
    simp only at first normal
    have atLeast := isUnit.pow_le_units normal
    rw [first] at within ⊢
    push_cast at within ⊢
    exact ⟨by linarith, within.2.1, fun odd => absurd (by decide) odd⟩
  case isFalse =>
    convert within using 2
    norm_num

/-- A carry into a further place makes the number attracted by the least significand above it. -/
theorem attracts_of_carry (least : leastExponent ≤ exponent)
    (within : Within (2 ^ 53 % 2 = 0) ((2 ^ 53 : Nat) - 1 / 2) (number / 2 ^ exponent)
      ((2 ^ 53 : Nat) + 1 / 2)) :
    Magnitude.Attracts ⟨2 ^ 52, exponent + 1⟩ number := by
  have isLeast : Decimal.isLeastOfExponent ⟨2 ^ 52, exponent + 1⟩ = true :=
    isLeastOfExponent_iff.mpr ⟨rfl, Int.lt_add_one_of_le least⟩
  have halved : number / 2 ^ (exponent + 1) = number / 2 ^ exponent / 2 := by
    rw [zpow_add_one₀ two_ne_zero, div_div]
  rw [Magnitude.Attracts, if_pos isLeast]
  dsimp only
  rw [halved]
  obtain ⟨low, high, -⟩ := within
  push_cast at low high ⊢
  exact ⟨by linarith, by linarith, fun odd => absurd (by decide) odd⟩

theorem exists_attracts_of_within (isUnit : IsUnitExponent exponent number)
    (inRange : number < rangeEnd)
    (within : Within (whole % 2 = 0) (whole - 1 / 2) (number / 2 ^ exponent) (whole + 1 / 2)) :
    ∃ magnitude : Magnitude, magnitude.Canonical ∧ magnitude.Attracts number := by
  have greatest := isUnit.exponent_le inRange
  have units := isUnit.units_lt
  have bound : whole ≤ 2 ^ 53 := by
    have low := within.1
    push_cast at units
    have : (whole : ℚ) < 2 ^ 53 + 1 := by linarith
    exact Nat.lt_succ_iff.mp (by exact_mod_cast this)
  rcases bound.lt_or_eq with fits | rfl
  · refine ⟨⟨whole, exponent⟩, ⟨fits, isUnit.least_le, greatest, fun normal => ?_⟩,
      attracts_of_within isUnit within⟩
    have atLeast := isUnit.pow_le_units normal
    have high := within.2.1
    have : (2 : ℚ) ^ 52 < whole + 1 := by linarith
    exact Nat.lt_succ_iff.mp (by exact_mod_cast this)
  · refine ⟨⟨2 ^ 52, exponent + 1⟩, ⟨by norm_num, ?_, ?_, fun _ => le_rfl⟩,
      attracts_of_carry isUnit.least_le within⟩
    · exact isUnit.least_le.trans (Int.le_add_one le_rfl)
    · -- From the greatest exponent, the carry would leave the range.
      refine Int.add_one_le_of_lt (lt_of_le_of_ne greatest ?_)
      rintro rfl
      have unitPositive : (0 : ℚ) < 2 ^ (971 : Int) := by positivity
      have places : ((2 ^ 53 : Nat) : ℚ) = 2 ^ 53 := by norm_num
      rw [rangeEnd_eq, ← div_lt_iff₀ unitPositive, ← places] at inRange
      exact absurd within.1 (not_le.mpr inRange)

end Rounded

/-- Some magnitude attracts any fraction below the end of the range. -/
theorem exists_attracts (positive : 0 < denominator)
    (inRange : (numerator / denominator : ℚ) < rangeEnd) :
    ∃ magnitude : Magnitude, magnitude.Canonical ∧
      magnitude.Attracts (numerator / denominator) := by
  rcases Nat.eq_zero_or_pos numerator with rfl | numeratorPositive
  · refine ⟨⟨0, leastExponent⟩, ⟨by decide, le_rfl, by decide, fun normal => ?_⟩, ?_⟩
    · exact absurd normal (lt_irrefl _)
    · have attracts := Magnitude.attracts_toRat ⟨0, leastExponent⟩
      rw [Magnitude.toRat, Nat.cast_zero, zero_mul] at attracts
      rwa [Nat.cast_zero, zero_div]
  · exact exists_attracts_of_within (isUnitExponent_unitExponent numeratorPositive positive) inRange
      (within_roundToUnit positive _)

/-- Nothing from the end of the range on is attracted. -/
theorem Magnitude.Canonical.lt_rangeEnd_of_attracts (canonical : magnitude.Canonical)
    (attracts : magnitude.Attracts number) : number < rangeEnd := by
  obtain ⟨-, high, strict⟩ := Magnitude.attracts_iff.mp attracts
  have unitPositive := magnitude.unit_pos
  have end_eq : magnitude.toRat + magnitude.unit / 2 =
      (magnitude.significand + 1 / 2) * magnitude.unit := by
    rw [toRat, unit]
    ring
  have greatestUnit : (2 ^ 53 - 1 / 2) * magnitude.unit ≤ rangeEnd := by
    rw [rangeEnd_eq]
    exact mul_le_mul_of_nonneg_left (zpow_le_zpow_right₀ one_le_two canonical.exponent_le)
      (by norm_num)
  rw [end_eq] at high strict
  have places := canonical.significand_lt
  rcases (Nat.le_sub_one_of_lt places).eq_or_lt with greatest | less
  · -- The greatest significand is odd, so the end of its interval does not belong to it.
    have below := (strict (by rw [greatest]; decide)).2
    have sum : (magnitude.significand : ℚ) + 1 / 2 = 2 ^ 53 - 1 / 2 := by
      rw [greatest]
      norm_num
    rw [sum] at below
    exact below.trans_le greatestUnit
  · have castLess : (magnitude.significand : ℚ) + 1 / 2 < 2 ^ 53 - 1 / 2 := by
      have : (magnitude.significand : ℚ) + 2 ≤ 2 ^ 53 := by
        exact_mod_cast (by omega : magnitude.significand + 2 ≤ 2 ^ 53)
      linarith
    exact (high.trans_lt (mul_lt_mul_of_pos_right castLess unitPositive)).trans_le greatestUnit

theorem nearestPattern_of_rangeEnd_le (positive : 0 < denominator)
    (large : rangeEnd ≤ (numerator / denominator : ℚ)) :
    nearestPattern numerator denominator = infinityPattern := by
  rcases le_or_gt ((2 : ℚ) ^ (1024 : Int)) (numerator / denominator) with past | short
  · exact nearestPattern_eq_infinityPattern positive past
  have numeratorPositive : 0 < numerator := by
    have castPositive : (0 : ℚ) < denominator := by exact_mod_cast positive
    have valuePositive : (0 : ℚ) < numerator / denominator := rangeEnd_pos.trans_le large
    exact_mod_cast (div_pos_iff_of_pos_right castPositive).mp valuePositive
  have isUnit : IsUnitExponent 971 ((numerator : ℚ) / denominator) :=
    ⟨by decide, short, .inr (pow_lt_rangeEnd.le.trans large)⟩
  have rounded : roundToUnit numerator denominator 971 = 2 ^ 53 := by
    have unitPositive : (0 : ℚ) < 2 ^ (971 : Int) := by positivity
    apply roundToUnit_eq_of_within positive
    have places : ((2 ^ 53 : Nat) : ℚ) = 2 ^ 53 := by norm_num
    rw [rangeEnd_eq, ← le_div_iff₀ unitPositive, ← places] at large
    exact ⟨large, isUnit.units_lt.le.trans (by norm_num), fun odd => absurd (by decide) odd⟩
  rw [nearestPattern, if_neg numeratorPositive.ne']
  dsimp only
  rw [(isUnitExponent_unitExponent numeratorPositive positive).unique isUnit, rounded]
  rfl

/-- Every canonical magnitude is that of some number, with either sign. -/
theorem Magnitude.Canonical.exists_parts (canonical : magnitude.Canonical) (negative : Bool) :
    ∃ number, parts number = .finite negative magnitude := by
  by_cases isZero : magnitude.significand = 0
  · refine ⟨.ofModel (Float.Model.pack (.zero (signOf negative))), parts_of_unpack canonical ?_⟩
    rw [dif_pos isZero]
    exact unpack_pack_zero _
  · refine ⟨.ofModel (Float.Model.pack (.finite (signOf negative) magnitude.significand
      magnitude.exponent (Nat.pos_of_ne_zero isZero))), parts_of_unpack canonical ?_⟩
    rw [dif_neg isZero]
    exact unpack_pack_canonical canonical

theorem isFinite_ofBits_infinity (negative : Bool) :
    (Float.ofBits (if negative then Nat.pow 2 63 + infinityPattern
      else infinityPattern).toUInt64).isFinite = false := by
  cases negative <;> decide

/-- A fraction is rounded to a finite number just when the magnitude of that attracts it. -/
theorem nearest_eq_iff (positive : 0 < denominator) {negative : Bool} {result : Float} :
    nearest negative numerator denominator = result ∧ result.isFinite = true ↔
      ∃ magnitude, parts result = .finite negative magnitude ∧
        magnitude.Attracts (numerator / denominator) := by
  constructor
  · rintro ⟨rfl, finite⟩
    rcases lt_or_ge (numerator / denominator : ℚ) rangeEnd with inRange | large
    · obtain ⟨magnitude, canonical, attracts⟩ := exists_attracts positive inRange
      obtain ⟨number, isParts⟩ := canonical.exists_parts negative
      rw [nearest_eq_of_attracts isParts positive attracts]
      exact ⟨magnitude, isParts, attracts⟩
    · rw [nearest, nearestPattern_of_rangeEnd_le positive large,
        isFinite_ofBits_infinity] at finite
      contradiction
  · rintro ⟨magnitude, isParts, attracts⟩
    exact ⟨nearest_eq_of_attracts isParts positive attracts, isFinite_iff.mpr ⟨_, _, isParts⟩⟩

end Existence

/-- A number behind a sign. -/
def withSign (negative : Bool) (number : ℚ) : ℚ :=
  if negative then -number else number

section Signs

variable {negative : Bool} {magnitude : Magnitude} {exact : ℚ} {result : Float}

theorem withSign_withSign (negative : Bool) (number : ℚ) :
    withSign negative (withSign negative number) = number := by
  cases negative
  · rfl
  · exact neg_neg number

theorem withSign_injective {first second : ℚ}
    (same : withSign negative first = withSign negative second) : first = second := by
  rw [← withSign_withSign negative first, same, withSign_withSign]

/-- Two numbers behind the same sign are as far apart as without it. -/
theorem abs_withSign_sub (negative : Bool) (first second : ℚ) :
    |withSign negative first - withSign negative second| = |first - second| := by
  cases negative
  · rfl
  · rw [withSign, withSign, if_pos rfl, if_pos rfl, neg_sub_neg, abs_sub_comm]

theorem Representable.withSign {number : ℚ} (representable : Representable number)
    (negative : Bool) : Representable (withSign negative number) := by
  cases negative
  · exact representable
  · exact representable.neg

/-- What can be held can be held behind either sign. -/
theorem forall_representable_iff {property : ℚ → Prop} (negative : Bool) :
    (∀ other, Representable other → property other) ↔
      ∀ other, Representable other → property (withSign negative other) := by
  constructor
  · intro holds other representable
    exact holds _ (representable.withSign negative)
  · intro holds other representable
    rw [← withSign_withSign negative other]
    exact holds _ (representable.withSign negative)

theorem value_of_parts (isParts : parts result = .finite negative magnitude) :
    value result = withSign negative magnitude.toRat := by
  rw [value, isParts]
  rfl

theorem hasEvenSignificand_iff (isParts : parts result = .finite negative magnitude) :
    HasEvenSignificand result ↔ magnitude.significand % 2 = 0 := by
  simp [HasEvenSignificand, isParts]

/-- A number is rounded to a result of its sign just when the magnitude of that attracts it. -/
theorem roundsToEven_withSign_iff (isParts : parts result = .finite negative magnitude)
    (nonneg : 0 ≤ exact) :
    RoundsToEven (withSign negative exact) result ↔ magnitude.Attracts exact := by
  have isValue := value_of_parts isParts
  rw [(canonical_of_parts isParts).attracts_iff_nearest nonneg]
  constructor
  · rintro ⟨⟨-, nearest⟩, even⟩
    rw [forall_representable_iff negative] at nearest even
    simp only [isValue, abs_withSign_sub, hasEvenSignificand_iff isParts] at nearest even
    exact ⟨nearest, fun other representable different =>
      even other representable fun same => different (withSign_injective same)⟩
  · rintro ⟨nearest, even⟩
    refine ⟨⟨isFinite_iff.mpr ⟨_, _, isParts⟩, ?_⟩, ?_⟩
    · rw [forall_representable_iff negative]
      simpa only [isValue, abs_withSign_sub] using nearest
    · rw [forall_representable_iff negative]
      simp only [isValue, abs_withSign_sub, hasEvenSignificand_iff isParts]
      exact fun other representable different =>
        even other representable fun same => different (by rw [same])

/-- A number has a finite rounding behind a sign just when it is below the end of the range. -/
theorem exists_roundsToEven_iff (negative : Bool) (nonneg : 0 ≤ exact) :
    (∃ result, RoundsToEven (withSign negative exact) result ∧ HasSign result negative) ↔
      exact < rangeEnd := by
  constructor
  · rintro ⟨result, rounds, magnitude, isParts⟩
    rw [roundsToEven_withSign_iff isParts nonneg] at rounds
    exact (canonical_of_parts isParts).lt_rangeEnd_of_attracts rounds
  · intro inRange
    have fraction : exact = (exact.num.toNat : ℚ) / exact.den := by
      conv_lhs => rw [← Rat.num_div_den exact, ← Int.toNat_of_nonneg (Rat.num_nonneg.mpr nonneg)]
      rfl
    rw [fraction] at inRange
    obtain ⟨magnitude, canonical, attracts⟩ := exists_attracts exact.den_pos inRange
    obtain ⟨result, isParts⟩ := canonical.exists_parts negative
    rw [← fraction] at attracts
    exact ⟨result, (roundsToEven_withSign_iff isParts nonneg).mpr attracts, magnitude, isParts⟩

end Signs

end Binary64
end ThroughputCharts

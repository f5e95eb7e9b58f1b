import ThroughputCharts.Axis.Ticks
import ThroughputCharts.Proofs.FloatWhole

/-!
# Multiples of a tick step

The first and the last multiple of a step in a range come from a remainder in binary64.  For any whole
step they are in the range up to a small error, and for a power of two they are exact as long as the
ends of the range are on a grid that the remainder fits on.
-/

namespace ThroughputCharts

namespace Binary64

section Grids

variable {exponent : ℤ} {number : ℚ}

/-- What is on a grid can be held with a place of the grid. -/
theorem Representable.exists_significand (representable : Representable number)
    (onGrid : OnGrid exponent number) :
    ∃ significand own : ℤ, |significand| < 2 ^ 53 ∧ exponent ≤ own ∧
      number = significand * 2 ^ own := by
  obtain ⟨significand, own, bound, -, rfl⟩ := representable
  rcases le_or_gt exponent own with coarse | fine
  · exact ⟨significand, own, bound, coarse, rfl⟩
  · obtain ⟨count, isCount⟩ := onGrid
    refine ⟨count, exponent, ?_, le_rfl, isCount⟩
    have castBound : |(significand : ℚ)| < 2 ^ 53 := by exact_mod_cast bound
    have positive : (0 : ℚ) < 2 ^ exponent := by positivity
    have ownPositive : (0 : ℚ) < 2 ^ own := by positivity
    have less : |(count : ℚ)| * 2 ^ exponent < 2 ^ 53 * 2 ^ exponent := by
      calc |(count : ℚ)| * 2 ^ exponent = |(significand : ℚ)| * 2 ^ own := by
            rw [← abs_of_pos positive, ← abs_mul, ← isCount, abs_mul, abs_of_pos ownPositive]
        _ < 2 ^ 53 * 2 ^ own := mul_lt_mul_of_pos_right castBound ownPositive
        _ ≤ 2 ^ 53 * 2 ^ exponent :=
          mul_le_mul_of_nonneg_left (zpow_le_zpow_right₀ one_le_two fine.le) (by positivity)
    have := lt_of_mul_lt_mul_right less positive.le
    exact_mod_cast this

/-- Division by a power of two is exact far from the least exponent. -/
theorem Representable.div_zpow {place : ℤ} (representable : Representable number)
    (onGrid : OnGrid exponent number) (least : leastExponent ≤ exponent - place) :
    Representable (number / 2 ^ place) := by
  obtain ⟨significand, own, bound, coarse, rfl⟩ := representable.exists_significand onGrid
  refine ⟨significand, own - place, bound, by omega, ?_⟩
  rw [zpow_sub₀ two_ne_zero, mul_div_assoc]

/-- Numbers of moderate size are rounded with a small error. -/
theorem RoundsTo.abs_sub_le_small {result : Float} (rounds : RoundsTo number result)
    (small : |number| ≤ 2 ^ 42) : |value result - number| ≤ 1 / 4096 := by
  have bound : |number| ≤ 2 ^ (53 + (-11) : ℤ) := small.trans (by norm_num)
  have near := rounds.abs_sub_le (by decide) bound
  norm_num at near ⊢
  exact near

end Grids

/-- A result of moderate size: it is rounded, and hardly off. -/
structure RoundsNear (number : ℚ) (result : Float) : Prop where
  rounds : RoundsTo number result
  low : number - 1 / 4096 ≤ value result
  high : value result ≤ number + 1 / 4096

section Moderate

variable {number other result : Float} {first second exact : ℚ}

theorem RoundsTo.near (rounds : RoundsTo exact result) (small : |exact| ≤ 2 ^ 42) :
    RoundsNear exact result := by
  obtain ⟨low, high⟩ := abs_le.mp (rounds.abs_sub_le_small small)
  exact ⟨rounds, by linarith, by linarith⟩

theorem abs_le_of_moderate (small : |exact| ≤ 2 ^ 42) : |exact| ≤ 2 ^ 100 :=
  small.trans (by norm_num)

theorem Denotes.add_near (denotes : Denotes number first) (otherDenotes : Denotes other second)
    (small : |first + second| ≤ 2 ^ 42) : RoundsNear (first + second) (number + other) :=
  (denotes.add otherDenotes (abs_le_of_moderate small)).near small

theorem Denotes.sub_near (denotes : Denotes number first) (otherDenotes : Denotes other second)
    (small : |first - second| ≤ 2 ^ 42) : RoundsNear (first - second) (number - other) :=
  (denotes.sub otherDenotes (abs_le_of_moderate small)).near small

theorem Denotes.mul_near (denotes : Denotes number first) (otherDenotes : Denotes other second)
    (small : |first * second| ≤ 2 ^ 42) : RoundsNear (first * second) (number * other) :=
  (denotes.mul otherDenotes (abs_le_of_moderate small)).near small

theorem Denotes.div_near (denotes : Denotes number first) (otherDenotes : Denotes other second)
    (nonzero : second ≠ 0) (small : |first / second| ≤ 2 ^ 42) :
    RoundsNear (first / second) (number / other) :=
  (denotes.div otherDenotes nonzero (abs_le_of_moderate small)).near small

end Moderate

end Binary64

namespace Axis

open Binary64

theorem denotes_tolerance : Denotes tolerance (2 ^ (-52 : ℤ)) := by
  have isParts : parts tolerance = .finite false ⟨2 ^ 52, -104⟩ := by decide
  convert denotes_of_parts isParts using 1
  norm_num [Magnitude.toRat]

section Approximate

variable {number divisor : Float} {exact : ℚ} {whole : ℤ}

/-- The remainder by a whole number is hardly outside the range of remainders. -/
theorem exists_denotes_remainder (denotes : Denotes number exact) (isWhole : Denotes divisor whole)
    (small : |exact| ≤ 2 ^ 41) (positive : 0 < whole) (bound : whole ≤ 50) :
    ∃ rest : ℚ, Denotes (remainder number divisor) rest ∧ -(1 / 64) ≤ rest ∧
      rest ≤ whole + 1 / 64 := by
  have castPositive : (1 : ℚ) ≤ whole := by exact_mod_cast positive
  have castBound : (whole : ℚ) ≤ 50 := by exact_mod_cast bound
  obtain ⟨above, below⟩ := abs_le.mp small
  have scaled : exact / whole * whole = exact := div_mul_cancel₀ _ (by linarith)
  have quotientBound : |exact / whole| ≤ 2 ^ 41 := by
    rw [abs_div, abs_of_pos (by linarith : (0 : ℚ) < whole)]
    exact (div_le_self (abs_nonneg _) castPositive).trans small
  obtain ⟨quotient, nearAbove, nearBelow⟩ :=
    denotes.div_near isWhole (by linarith) (quotientBound.trans (by norm_num))
  have floored := denotes_floor quotient.denotes_value
  obtain ⟨low, high⟩ := Int.floor_eq_iff.mp (Eq.refl ⌊value (number / divisor)⌋)
  generalize ⌊value (number / divisor)⌋ = count at floored low high
  obtain ⟨quotientAbove, quotientBelow⟩ := abs_le.mp quotientBound
  have counts : |count| ≤ 2 ^ 42 := by
    have castAbove : (-2 ^ 42 : ℚ) ≤ count := by linarith
    have castBelow : (count : ℚ) ≤ 2 ^ 42 := by linarith
    exact abs_le.mpr ⟨by exact_mod_cast castAbove, by exact_mod_cast castBelow⟩
  have productBound : |count * whole| ≤ 2 ^ 53 := by
    rw [abs_mul, abs_of_pos positive]
    calc |count| * whole ≤ 2 ^ 42 * 50 := mul_le_mul counts bound positive.le (by norm_num)
      _ ≤ 2 ^ 53 := by norm_num
  have product := floored.mul_whole isWhole productBound
  -- The floored quotient is off by little, so the exact difference is nearly a remainder.
  have restLow : -(1 / 80) ≤ exact - (count * whole : ℤ) := by
    push_cast
    nlinarith
  have restHigh : exact - (count * whole : ℤ) ≤ whole + 1 / 80 := by
    push_cast
    nlinarith
  have restBound : |exact - (count * whole : ℤ)| ≤ 2 ^ 42 :=
    abs_le.mpr ⟨by linarith, by linarith⟩
  obtain ⟨difference, differenceLow, differenceHigh⟩ := denotes.sub_near product restBound
  unfold remainder
  dsimp only
  split
  · exact ⟨0, denotes_zero, by norm_num, by linarith⟩
  · exact ⟨_, difference.denotes_value, by linarith, by linarith⟩

/-- The first multiple of a whole step is hardly before the range. -/
theorem exists_denotes_firstMultiple (denotes : Denotes number exact) (isWhole : Denotes divisor whole)
    (small : |exact| ≤ 2 ^ 41) (positive : 0 < whole) (bound : whole ≤ 50) :
    ∃ first : ℚ, Denotes (firstMultiple number divisor) first ∧ exact - 1 / 32 ≤ first ∧
      first ≤ exact + 100 := by
  have castPositive : (1 : ℚ) ≤ whole := by exact_mod_cast positive
  have castBound : (whole : ℚ) ≤ 50 := by exact_mod_cast bound
  obtain ⟨above, below⟩ := abs_le.mp small
  obtain ⟨rest, isRest, restLow, restHigh⟩ :=
    exists_denotes_remainder denotes isWhole small positive bound
  have leftBound : |exact - rest| ≤ 2 ^ 42 := abs_le.mpr ⟨by linarith, by linarith⟩
  obtain ⟨left, leftLow, leftHigh⟩ := denotes.sub_near isRest leftBound
  unfold firstMultiple
  dsimp only
  split
  next before =>
    have sumBound : |value (number - remainder number divisor) + whole| ≤ 2 ^ 42 :=
      abs_le.mpr ⟨by linarith, by linarith⟩
    obtain ⟨sum, sumLow, sumHigh⟩ := left.denotes_value.add_near isWhole sumBound
    have isBefore := (left.denotes_value.lt_iff denotes).mp before
    exact ⟨_, sum.denotes_value, by linarith, by linarith⟩
  next notBefore =>
    have isNotBefore := mt (left.denotes_value.lt_iff denotes).mpr notBefore
    exact ⟨_, left.denotes_value, by linarith, by linarith⟩

/-- The last multiple of a whole step is hardly behind the range. -/
theorem exists_denotes_lastMultiple (denotes : Denotes number exact) (isWhole : Denotes divisor whole)
    (small : |exact| ≤ 2 ^ 41) (positive : 0 < whole) (bound : whole ≤ 50) :
    ∃ last : ℚ, Denotes (lastMultiple number divisor) last ∧ last ≤ exact + 1 / 32 ∧
      exact - 100 ≤ last := by
  have castPositive : (1 : ℚ) ≤ whole := by exact_mod_cast positive
  have castBound : (whole : ℚ) ≤ 50 := by exact_mod_cast bound
  obtain ⟨above, below⟩ := abs_le.mp small
  obtain ⟨rest, isRest, restLow, restHigh⟩ :=
    exists_denotes_remainder denotes isWhole small positive bound
  have lastBound : |exact - rest| ≤ 2 ^ 42 := abs_le.mpr ⟨by linarith, by linarith⟩
  obtain ⟨last, lastLow, lastHigh⟩ := denotes.sub_near isRest lastBound
  exact ⟨_, last.denotes_value, by linarith, by linarith⟩

end Approximate

section Exact

variable {number step : Float} {exact : ℚ} {place : ℤ}

/-- What makes multiples of a power of two exact: a grid on which remainders fit, and a remainder that
is not mistaken for the whole step. -/
structure IsAligned (place : ℤ) (exact : ℚ) : Prop where
  onGrid : OnGrid (place - 53) exact
  small : |exact| ≤ 2 ^ 41
  apart : exact - ⌊exact / 2 ^ place⌋ * 2 ^ place + 2 ^ (-52 : ℤ) ≤ 2 ^ place

theorem floor_bounds (exact : ℚ) (place : ℤ) :
    0 ≤ exact - ⌊exact / 2 ^ place⌋ * 2 ^ place ∧
      exact - ⌊exact / 2 ^ place⌋ * 2 ^ place < 2 ^ place := by
  have positive : (0 : ℚ) < 2 ^ place := by positivity
  obtain ⟨low, high⟩ := Int.floor_eq_iff.mp (Eq.refl ⌊exact / 2 ^ place⌋)
  rw [le_div_iff₀ positive] at low
  rw [div_lt_iff₀ positive, add_mul, one_mul] at high
  constructor <;> linarith

/-- On a grid as coarse as the tolerance nothing is mistaken for the step. -/
theorem isAligned_of_onGrid (onGrid : OnGrid (-52) exact) (small : |exact| ≤ 2 ^ 41)
    (low : -1 ≤ place) (high : place ≤ 1) : IsAligned place exact := by
  have stepOnGrid (count : ℤ) : OnGrid (-52) ((count : ℚ) * 2 ^ place) :=
    OnGrid.refine ⟨count, rfl⟩ (by omega)
  have oneOnGrid := stepOnGrid 1
  rw [Int.cast_one, one_mul] at oneOnGrid
  have apart := (onGrid.sub (stepOnGrid _)).unit_le oneOnGrid (floor_bounds exact place).2
  exact ⟨onGrid.refine (by omega), small, by linarith⟩

/-- Between two multiples of the step only the end of the interval is near the next one. -/
theorem isAligned_of_between (count : ℤ) (onGrid : OnGrid (place - 53) exact)
    (small : |exact| ≤ 2 ^ 41) (low : count * 2 ^ place ≤ exact)
    (high : exact + 2 ^ (-52 : ℤ) ≤ (count + 1) * 2 ^ place) : IsAligned place exact := by
  have positive : (0 : ℚ) < 2 ^ place := by positivity
  have tolerance : (0 : ℚ) < 2 ^ (-52 : ℤ) := by positivity
  have isFloor : ⌊exact / 2 ^ place⌋ = count := by
    rw [Int.floor_eq_iff, le_div_iff₀ positive, div_lt_iff₀ positive]
    exact ⟨low, by linarith⟩
  refine ⟨onGrid, small, ?_⟩
  rw [isFloor]
  linarith

theorem abs_floor_le (small : |exact| ≤ 2 ^ 41) (low : -1 ≤ place) :
    |⌊exact / 2 ^ place⌋| ≤ 2 ^ 43 := by
  have positive : (0 : ℚ) < 2 ^ place := by positivity
  have half : (1 / 2 : ℚ) ≤ 2 ^ place := by
    calc (1 / 2 : ℚ) = 2 ^ (-1 : ℤ) := by norm_num
      _ ≤ 2 ^ place := zpow_le_zpow_right₀ one_le_two low
  have quotient : |exact / 2 ^ place| ≤ 2 ^ 42 := by
    rw [abs_div, abs_of_pos positive, div_le_iff₀ positive]
    linarith
  obtain ⟨above, below⟩ := abs_le.mp quotient
  obtain ⟨floorLow, floorHigh⟩ := Int.floor_eq_iff.mp (Eq.refl ⌊exact / 2 ^ place⌋)
  have castAbove : (-2 ^ 43 : ℚ) ≤ ⌊exact / 2 ^ place⌋ := by linarith
  have castBelow : (⌊exact / 2 ^ place⌋ : ℚ) ≤ 2 ^ 43 := by linarith
  exact abs_le.mpr ⟨by exact_mod_cast castAbove, by exact_mod_cast castBelow⟩

/-- Multiples of a power of two are held. -/
theorem representable_multiple {count : ℤ} (bound : |count| ≤ 2 ^ 53) (low : -1 ≤ place) :
    Representable (count * 2 ^ place) :=
  representable_of_abs_le bound (low.trans' (by decide))

theorem abs_multiple_le {count : ℤ} (bound : |count| ≤ 2 ^ 53) (high : place ≤ 1) :
    |(count : ℚ) * 2 ^ place| ≤ 2 ^ 100 := by
  have castBound : |(count : ℚ)| ≤ 2 ^ 53 := by exact_mod_cast bound
  have power : (2 : ℚ) ^ place ≤ 2 ^ (1 : ℤ) := zpow_le_zpow_right₀ one_le_two high
  calc |(count : ℚ) * 2 ^ place| = |(count : ℚ)| * 2 ^ place := by
        rw [abs_mul, abs_of_pos (by positivity : (0 : ℚ) < 2 ^ place)]
    _ ≤ 2 ^ 53 * 2 ^ (1 : ℤ) := mul_le_mul castBound power (by positivity) (by norm_num)
    _ ≤ 2 ^ 100 := by norm_num

/-- The remainder by a power of two is exact. -/
theorem denotes_remainder (denotes : Denotes number exact) (isPower : Denotes step (2 ^ place))
    (aligned : IsAligned place exact) (low : -1 ≤ place) (high : place ≤ 1) :
    Denotes (remainder number step) (exact - ⌊exact / 2 ^ place⌋ * 2 ^ place) := by
  obtain ⟨onGrid, small, apart⟩ := aligned
  have positive : (0 : ℚ) < 2 ^ place := by positivity
  have counts := abs_floor_le small low
  obtain ⟨restLow, restHigh⟩ := floor_bounds exact place
  have power : (2 : ℚ) ^ place ≤ 2 := by
    calc (2 : ℚ) ^ place ≤ 2 ^ (1 : ℤ) := zpow_le_zpow_right₀ one_le_two high
      _ = 2 := zpow_one 2
  have least : leastExponent ≤ place - 53 := by
    simp only [leastExponent]
    omega
  have quotientBound : |exact / 2 ^ place| ≤ 2 ^ 100 := by
    obtain ⟨floorLow, floorHigh⟩ := Int.floor_eq_iff.mp (Eq.refl ⌊exact / 2 ^ place⌋)
    obtain ⟨countLow, countHigh⟩ := abs_le.mp counts
    have castLow : (-2 ^ 43 : ℚ) ≤ ⌊exact / 2 ^ place⌋ := by exact_mod_cast countLow
    have castHigh : (⌊exact / 2 ^ place⌋ : ℚ) ≤ 2 ^ 43 := by exact_mod_cast countHigh
    exact abs_le.mpr ⟨by linarith, by linarith⟩
  have quotient := (denotes.div isPower positive.ne' quotientBound).denotes
    (denotes.representable.div_zpow onGrid (by simp only [leastExponent]; omega))
  have floored := denotes_floor quotient
  have wide : |⌊exact / 2 ^ place⌋| ≤ 2 ^ 53 := counts.trans (by norm_num)
  have product := (floored.mul isPower (abs_multiple_le wide high)).denotes
    (representable_multiple wide low)
  have placeOnGrid (count : ℤ) : OnGrid (place - 53) ((count : ℚ) * 2 ^ place) :=
    OnGrid.refine ⟨count, rfl⟩ (by omega)
  have restOnGrid := onGrid.sub (placeOnGrid ⌊exact / 2 ^ place⌋)
  have span : (2 : ℚ) ^ (53 + (place - 53)) = 2 ^ place := by
    congr 1
    ring
  have rest := (denotes.sub product (by rw [abs_of_nonneg restLow]; linarith)).denotes
    (restOnGrid.representable least (by rw [span, abs_of_nonneg restLow]; exact restHigh.le))
  generalize exact - ⌊exact / 2 ^ place⌋ * 2 ^ place = remaining at *
  have stepOnGrid := placeOnGrid 1
  rw [Int.cast_one, one_mul] at stepOnGrid
  have gapSize : |remaining - 2 ^ place| = 2 ^ place - remaining := by
    rw [abs_sub_comm, abs_of_nonneg (by linarith)]
  have gap := (rest.sub isPower (by rw [gapSize]; linarith)).denotes
    ((restOnGrid.sub stepOnGrid).representable least (by rw [span, gapSize]; linarith))
  have notNear : ¬ (number - floor (number / step) * step - step).abs < tolerance := by
    rw [gap.abs.lt_iff denotes_tolerance, gapSize]
    linarith
  unfold remainder
  dsimp only
  rw [if_neg notNear]
  exact rest

/-- Without the remainder a multiple of the power is left. -/
theorem denotes_sub_remainder (denotes : Denotes number exact) (isPower : Denotes step (2 ^ place))
    (aligned : IsAligned place exact) (low : -1 ≤ place) (high : place ≤ 1) :
    Denotes (number - remainder number step) (⌊exact / 2 ^ place⌋ * 2 ^ place) := by
  have rest := denotes_remainder denotes isPower aligned low high
  have wide : |⌊exact / 2 ^ place⌋| ≤ 2 ^ 53 := (abs_floor_le aligned.small low).trans (by norm_num)
  have isLeft : exact - (exact - ⌊exact / 2 ^ place⌋ * 2 ^ place) =
      ⌊exact / 2 ^ place⌋ * 2 ^ place := by ring
  have difference := denotes.sub rest (by rw [isLeft]; exact abs_multiple_le wide high)
  rw [isLeft] at difference
  exact difference.denotes (representable_multiple wide low)

/-- The first multiple of a power of two from the start of a range on is exact. -/
theorem exists_denotes_firstMultiple_pow (denotes : Denotes number exact)
    (isPower : Denotes step (2 ^ place)) (aligned : IsAligned place exact) (low : -1 ≤ place)
    (high : place ≤ 1) :
    ∃ count : ℤ, Denotes (firstMultiple number step) (count * 2 ^ place) ∧
      exact ≤ count * 2 ^ place ∧ count * 2 ^ place < exact + 2 ^ place := by
  have left := denotes_sub_remainder denotes isPower aligned low high
  have counts := abs_floor_le aligned.small low
  obtain ⟨restLow, restHigh⟩ := floor_bounds exact place
  generalize ⌊exact / 2 ^ place⌋ = count at *
  unfold firstMultiple
  dsimp only
  split
  next before =>
    have isBefore := (left.lt_iff denotes).mp before
    have wide : |count + 1| ≤ 2 ^ 53 := by
      rw [abs_le] at counts ⊢
      constructor <;> omega
    have isNext : (count : ℚ) * 2 ^ place + 2 ^ place = (count + 1 : ℤ) * 2 ^ place := by
      push_cast
      ring
    have sum := left.add isPower (by rw [isNext]; exact abs_multiple_le wide high)
    rw [isNext] at sum
    refine ⟨count + 1, sum.denotes (representable_multiple wide low), ?_, ?_⟩ <;> linarith
  next notBefore =>
    have isNotBefore := mt (left.lt_iff denotes).mpr notBefore
    have positive : (0 : ℚ) < 2 ^ place := by positivity
    exact ⟨count, left, by linarith, by linarith⟩

/-- The last multiple of a power of two up to the end of a range is exact. -/
theorem exists_denotes_lastMultiple_pow (denotes : Denotes number exact)
    (isPower : Denotes step (2 ^ place)) (aligned : IsAligned place exact) (low : -1 ≤ place)
    (high : place ≤ 1) :
    ∃ count : ℤ, Denotes (lastMultiple number step) (count * 2 ^ place) ∧
      count * 2 ^ place ≤ exact ∧ exact < count * 2 ^ place + 2 ^ place := by
  obtain ⟨restLow, restHigh⟩ := floor_bounds exact place
  exact ⟨_, denotes_sub_remainder denotes isPower aligned low high, by linarith, by linarith⟩

end Exact

end Axis
end ThroughputCharts

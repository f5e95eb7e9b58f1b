import ThroughputCharts.Proofs.RelativeError
import ThroughputCharts.Proofs.TickSpacing

/-!
# Multiples of a step from zero on

A throughput axis starts at zero, which is the first multiple of any step.  The last one is found with a
small error, and without any if the step is a multiple of a half and the axis reaches to one at least.
Thus it is known, up to that error, when a step gives more ticks than a throughput axis asks for.
-/

namespace ThroughputCharts

open Binary64

namespace Binary64

section Zero

variable {number : Float} {exact : ℚ}

/-- A positive number has the parts of a positive sign. -/
theorem Denotes.exists_unpack (denotes : Denotes number exact) (positive : 0 < exact) :
    ∃ mantissa exponent mantissaPositive,
      number.toModel.unpack = .finite .positive mantissa exponent mantissaPositive := by
  obtain ⟨magnitude, isParts, isValue⟩ := denotes.exists_parts positive
  have unpacked := unpack_of_parts isParts
  have notZero : magnitude.significand ≠ 0 := by
    intro isZero
    rw [Magnitude.toRat, isZero, Nat.cast_zero, zero_mul] at isValue
    exact positive.ne isValue
  rw [dif_neg notZero] at unpacked
  exact ⟨_, _, _, unpacked⟩

theorem unpack_zero : (0.0 : Float).toModel.unpack = .zero .positive := by
  have isParts : parts 0.0 = .finite false ⟨0, -1074⟩ := by decide
  exact (unpack_of_parts isParts).trans (dif_pos rfl)

theorem zero_div_of_pos (denotes : Denotes number exact) (positive : 0 < exact) :
    0.0 / number = 0.0 := by
  obtain ⟨mantissa, exponent, mantissaPositive, unpacked⟩ := denotes.exists_unpack positive
  have quotient : (0.0 / number).toModel = Float.Model.pack (Float.Model.UnpackedFloat.div .binary64
      (0.0 : Float).toModel.unpack number.toModel.unpack) := rfl
  rw [unpacked, unpack_zero] at quotient
  exact congrArg (fun model => ({ toModel := model } : Float)) quotient

theorem zero_mul_of_pos (denotes : Denotes number exact) (positive : 0 < exact) :
    0.0 * number = 0.0 := by
  obtain ⟨mantissa, exponent, mantissaPositive, unpacked⟩ := denotes.exists_unpack positive
  have product : (0.0 * number).toModel = Float.Model.pack (Float.Model.UnpackedFloat.mul .binary64
      (0.0 : Float).toModel.unpack number.toModel.unpack) := rfl
  rw [unpacked, unpack_zero] at product
  exact congrArg (fun model => ({ toModel := model } : Float)) product

theorem denotes_add_zero (denotes : Denotes number exact) : Denotes (number + 0.0) exact := by
  have inRange : |value number + value 0.0| < rangeEnd := by
    rw [denotes_zero.value_eq, add_zero]
    exact abs_value_lt_rangeEnd denotes.finite
  have rounds := roundsTo_add denotes.finite denotes_zero.finite inRange
  rw [denotes_zero.value_eq, add_zero, denotes.value_eq] at rounds
  exact rounds.denotes denotes.representable

theorem denotes_zero_add (denotes : Denotes number exact) : Denotes (0.0 + number) exact := by
  have inRange : |value 0.0 + value number| < rangeEnd := by
    rw [denotes_zero.value_eq, zero_add]
    exact abs_value_lt_rangeEnd denotes.finite
  have rounds := roundsTo_add denotes_zero.finite denotes.finite inRange
  rw [denotes_zero.value_eq, zero_add, denotes.value_eq] at rounds
  exact rounds.denotes denotes.representable

theorem denotes_sub_zero (denotes : Denotes number exact) : Denotes (number - 0.0) exact := by
  have inRange : |value number - value 0.0| < rangeEnd := by
    rw [denotes_zero.value_eq, sub_zero]
    exact abs_value_lt_rangeEnd denotes.finite
  have rounds := roundsTo_sub denotes.finite denotes_zero.finite inRange
  rw [denotes_zero.value_eq, sub_zero, denotes.value_eq] at rounds
  exact rounds.denotes denotes.representable

theorem denotes_zero_sub (denotes : Denotes number exact) : Denotes (0.0 - number) (-exact) := by
  have inRange : |value 0.0 - value number| < rangeEnd := by
    rw [denotes_zero.value_eq, zero_sub, abs_neg]
    exact abs_value_lt_rangeEnd denotes.finite
  have rounds := roundsTo_sub denotes_zero.finite denotes.finite inRange
  rw [denotes_zero.value_eq, zero_sub, denotes.value_eq] at rounds
  exact rounds.denotes denotes.representable.neg

theorem denotes_unit : Denotes 1.0 (1 : ℚ) := by
  have denotes := denotes_one
  rwa [Int.cast_one] at denotes

end Zero

theorem OnGrid.intCast_mul {exponent : ℤ} {number : ℚ} (onGrid : OnGrid exponent number)
    (factor : ℤ) : OnGrid exponent (factor * number) := by
  obtain ⟨count, rfl⟩ := onGrid
  exact ⟨factor * count, by push_cast; ring⟩

/-- Numbers of moderate size are far from both ends of the range. -/
theorem central_of_moderate {number : ℚ} (low : 1 / 2 ^ 100 ≤ number) (high : number ≤ 2 ^ 100) :
    Central number := by
  constructor
  · calc (2 : ℚ) ^ (-1000 : ℤ) ≤ 2 ^ (-100 : ℤ) := zpow_le_zpow_right₀ one_le_two (by decide)
      _ = 1 / 2 ^ 100 := by
          rw [zpow_neg, one_div]
          rfl
      _ ≤ number := low
  · calc number ≤ 2 ^ 100 := high
      _ = 2 ^ (100 : ℤ) := rfl
      _ ≤ 2 ^ (1010 : ℤ) := zpow_le_zpow_right₀ one_le_two (by decide)

end Binary64

namespace Axis

theorem remainder_zero {step : Float} {unit : ℚ} (isStep : Denotes step unit) (positive : 0 < unit) :
    remainder 0.0 step = 0.0 := by
  have floored : floor 0.0 = 0.0 := by decide +kernel
  have rest : (0.0 - 0.0 : Float) = 0.0 := by decide
  unfold remainder
  rw [zero_div_of_pos isStep positive, floored, zero_mul_of_pos isStep positive, rest]
  dsimp only
  split <;> rfl

/-- Zero is the first multiple of every step. -/
theorem firstMultiple_zero {step : Float} {unit : ℚ} (isStep : Denotes step unit)
    (positive : 0 < unit) : firstMultiple 0.0 step = 0.0 := by
  have rest : (0.0 - 0.0 : Float) = 0.0 := by decide
  have notBefore : ¬ (0.0 : Float) < 0.0 := by decide
  unfold firstMultiple
  rw [remainder_zero isStep positive, rest]
  exact if_neg notBefore

/-- Zero is a multiple of every grain. -/
theorem floor_zero_mul {grain : Float} {unit : ℚ} (isGrain : Denotes grain unit)
    (positive : 0 < unit) : floor (0.0 / grain) * grain = 0.0 := by
  have floored : floor 0.0 = 0.0 := by decide +kernel
  rw [zero_div_of_pos isGrain positive, floored, zero_mul_of_pos isGrain positive]

theorem denotes_tolerance_div : Denotes tolerance (1 / 2 ^ 52) := by
  have power : (2 : ℚ) ^ (-52 : ℤ) = 1 / 2 ^ 52 := by
    rw [zpow_neg, one_div]
    rfl
  rw [← power]
  exact denotes_tolerance

/-- A range from zero on counts as a single number just if it is shorter than the tolerance. -/
theorem abs_zero_sub_lt_tolerance_iff {stop : Float} {top : ℚ} (denotes : Denotes stop top)
    (positive : 0 < top) : (0.0 - stop).abs < tolerance ↔ top < 1 / 2 ^ 52 := by
  rw [(denotes_zero_sub denotes).abs.lt_iff denotes_tolerance_div, abs_neg, abs_of_pos positive]

/-- The end of a throughput axis is at least the tolerance of the ticks, and far from the end of the
range. -/
structure IsThroughputEnd (stop : Float) (top : ℚ) : Prop where
  denotes : Denotes stop top
  low : 1 / 2 ^ 52 ≤ top
  high : top ≤ 2 ^ (1000 : ℤ)

section Ends

variable {stop step : Float} {top unit exact : ℚ} {errors : Nat}

theorem IsThroughputEnd.pos (isEnd : IsThroughputEnd stop top) : 0 < top :=
  isEnd.low.trans_lt' (by norm_num)

/-- What is not much less or more than the end of the axis is far from the ends of the range. -/
theorem IsThroughputEnd.central (isEnd : IsThroughputEnd stop top) (low : top ≤ exact * 2 ^ 20)
    (high : exact ≤ top * 2 ^ 10) : Central exact := by
  have atLeast := isEnd.low
  constructor
  · exact (central_of_moderate le_rfl (by norm_num)).low.trans (by linarith)
  · calc exact ≤ top * 2 ^ 10 := high
      _ ≤ 2 ^ (1000 : ℤ) * 2 ^ (10 : ℤ) := mul_le_mul_of_nonneg_right isEnd.high (by norm_num)
      _ = 2 ^ (1010 : ℤ) := by
          rw [← zpow_add₀ two_ne_zero]
          rfl

theorem IsThroughputEnd.approximates (isEnd : IsThroughputEnd stop top) : Approximates 0 top stop := by
  have positive := isEnd.pos
  exact isEnd.denotes.approximates (isEnd.central (by linarith) (by linarith))

/-- The remainder is hardly outside the range of remainders. -/
theorem exists_denotes_remainder_near (isEnd : IsThroughputEnd stop top)
    (isStep : Approximates errors unit step) (few : errors ≤ 100) (low : 3 / 2 * unit ≤ top)
    (high : top ≤ 100 * unit) :
    ∃ rest, Denotes (remainder stop step) rest ∧ -(top / 2 ^ 40) ≤ rest ∧
      rest ≤ unit + top / 2 ^ 40 := by
  have positive := isStep.central.pos
  have quotientLow : 3 / 2 ≤ top / unit := (le_div_iff₀ positive).mpr low
  have quotientHigh : top / unit ≤ 100 := (div_le_iff₀ positive).mpr high
  have quotient := isEnd.approximates.div isStep
    (central_of_moderate (by linarith) (by linarith)) (by omega)
  obtain ⟨quotientBelow, quotientAbove⟩ :=
    abs_le.mp (quotient.near.abs_sub_le (by linarith) (by omega))
  have floored := denotes_floor quotient.denotes_value
  obtain ⟨countLow, countHigh⟩ := Int.floor_eq_iff.mp (Eq.refl ⌊value (stop / step)⌋)
  generalize ⌊value (stop / step)⌋ = count at floored countLow countHigh
  have isTop : top = top / unit * unit := (div_mul_cancel₀ _ positive.ne').symm
  generalize top / unit = wanted at *
  have countPositive : (1 : ℚ) ≤ count := by
    have above : (0 : ℚ) < count := by linarith
    exact_mod_cast (by exact_mod_cast above : 0 < count)
  -- The multiple that is taken away is at most the end, and less than it by a step at most.
  have multipleHigh : count * unit ≤ top + top / 2 ^ 42 := by
    rw [isTop]
    nlinarith
  have multipleLow : top - top / 2 ^ 42 - unit ≤ count * unit := by
    rw [isTop]
    nlinarith
  have product := (floored.approximates (central_of_moderate (by linarith) (by linarith))).mul isStep
    (isEnd.central (by nlinarith) (by linarith)) (by omega)
  obtain ⟨productBelow, productAbove⟩ :=
    abs_le.mp (product.near.abs_sub_le product.central.pos.le (by omega))
  generalize (count : ℚ) * unit = multiple at *
  have size : |top - value (floor (stop / step) * step)| ≤ top :=
    abs_le.mpr ⟨by linarith, by linarith⟩
  have rounds := roundsTo_sub isEnd.denotes.finite product.finite (by
    rw [isEnd.denotes.value_eq]
    exact size.trans_lt (isEnd.denotes.value_eq ▸ (le_abs_self _).trans_lt
      (abs_value_lt_rangeEnd isEnd.denotes.finite)))
  rw [isEnd.denotes.value_eq] at rounds
  obtain ⟨restBelow, restAbove⟩ := abs_le.mp (rounds.abs_sub_le_div
    (isEnd.approximates.central.least_le (by linarith [isEnd.pos])) size)
  unfold remainder
  dsimp only
  split
  · exact ⟨0, denotes_zero, by linarith [isEnd.pos], by linarith [isEnd.pos]⟩
  · exact ⟨_, rounds.denotes_value, by linarith, by linarith⟩

/-- The last multiple of a step is hardly behind the end of the axis, and hardly more than a step
before it. -/
theorem exists_denotes_lastMultiple_near (isEnd : IsThroughputEnd stop top)
    (isStep : Approximates errors unit step) (few : errors ≤ 100) (low : 3 / 2 * unit ≤ top)
    (high : top ≤ 100 * unit) :
    ∃ last, Denotes (lastMultiple stop step) last ∧ top - unit - top / 2 ^ 38 ≤ last ∧
      last ≤ top + top / 2 ^ 38 := by
  have positive := isStep.central.pos
  obtain ⟨rest, isRest, restLow, restHigh⟩ :=
    exists_denotes_remainder_near isEnd isStep few low high
  have size : |top - rest| ≤ top * 2 := abs_le.mpr ⟨by linarith, by linarith⟩
  have rounds := roundsTo_sub isEnd.denotes.finite isRest.finite (by
    rw [isEnd.denotes.value_eq, isRest.value_eq, ← abs_abs]
    exact isEnd.approximates.central.abs_lt_rangeEnd (abs_nonneg _) size)
  rw [isEnd.denotes.value_eq, isRest.value_eq] at rounds
  obtain ⟨below, above⟩ := abs_le.mp (rounds.abs_sub_le_div
    (isEnd.approximates.central.least_le (by linarith [isEnd.pos])) size)
  exact ⟨_, rounds.denotes_value, by linarith, by linarith⟩

end Ends

section Exact

variable {stop step : Float} {top unit : ℚ} {count : Nat}

/-- The numbers between which multiples of halves are exact. -/
structure IsExactStep (stop step : Float) (top unit : ℚ) : Prop where
  isEnd : IsThroughputEnd stop top
  one_le : 1 ≤ top
  small : top ≤ 2 ^ 30
  isStep : Denotes step unit
  onGrid : OnGrid (-1) unit
  pos : 0 < unit
  few : top ≤ 100 * unit
  le_double : unit ≤ 2 * top

theorem IsExactStep.representable_mul (isExact : IsExactStep stop step top unit)
    (below : count ≤ 101) : Representable (count * unit) := by
  have castBelow : (count : ℚ) ≤ 101 := by exact_mod_cast below
  obtain ⟨-, -, small, -, onGrid, positive, -, double⟩ := isExact
  have multiple := onGrid.intCast_mul count
  rw [Int.cast_natCast] at multiple
  apply multiple.representable (by decide)
  rw [abs_of_nonneg (by positivity)]
  have places : (2 : ℚ) ^ (53 + -1 : ℤ) = 2 ^ 52 := rfl
  rw [places]
  nlinarith

/-- What is left over after whole steps can be held, and is not mistaken for a step. -/
theorem IsExactStep.rest (isExact : IsExactStep stop step top unit) (below : count * unit ≤ top)
    (above : top < (count + 1 : Nat) * unit) :
    Representable (top - count * unit) ∧ 1 / 2 ^ 52 ≤ unit - (top - count * unit) := by
  obtain ⟨isEnd, one, small, -, onGrid, positive, -, -⟩ := isExact
  have topPositive := isEnd.pos
  obtain ⟨place, low, high⟩ := exists_mem_Ico_zpow topPositive (one_lt_two (α := ℚ))
  have nonneg : 0 ≤ place := by
    have powers : (2 : ℚ) ^ (0 : ℤ) < 2 ^ (place + 1) := by
      rw [zpow_zero]
      exact one.trans_lt high
    rw [zpow_lt_zpow_iff_right₀ (one_lt_two (α := ℚ))] at powers
    omega
  have bounded : place ≤ 30 := by
    have powers : (2 : ℚ) ^ place ≤ 2 ^ (30 : ℤ) := low.trans small
    rwa [zpow_le_zpow_iff_right₀ (one_lt_two (α := ℚ))] at powers
  have start : (2 : ℚ) ^ (52 + (place - 52)) = 2 ^ place := by
    congr 1
    ring
  have topOnGrid : OnGrid (place - 52) top := by
    apply isEnd.denotes.representable.onGrid
    rwa [start, abs_of_pos topPositive]
  have multipleOnGrid (factor : ℤ) : OnGrid (place - 52) (factor * unit) :=
    (onGrid.intCast_mul factor).refine (by omega)
  have restOnGrid := topOnGrid.sub (multipleOnGrid count)
  rw [Int.cast_natCast] at restOnGrid
  have multipleNonneg : (0 : ℚ) ≤ count * unit := by positivity
  have places : (2 : ℚ) ^ (53 + (place - 52)) = 2 ^ (place + 1) := by
    congr 1
    ring
  constructor
  · apply restOnGrid.representable
    · simp only [leastExponent]
      omega
    · rw [places, abs_of_nonneg (by linarith)]
      linarith
  · have fine := restOnGrid.refine (by omega : (-52 : ℤ) ≤ place - 52)
    have unitOnGrid : OnGrid (-52) unit := onGrid.refine (by decide)
    push_cast at above
    have gap := fine.unit_le unitOnGrid (by linarith)
    rw [zpow_neg, ← one_div] at gap
    exact gap

theorem IsExactStep.count_le (isExact : IsExactStep stop step top unit)
    (below : count * unit ≤ top) : count ≤ 100 := by
  have castBound : (count : ℚ) ≤ 100 := by
    by_contra many
    nlinarith [isExact.few, isExact.pos, not_le.mp many]
  exact_mod_cast castBound

/-- The quotient is rounded, but does not reach the next whole number. -/
theorem IsExactStep.denotes_floor_quotient (isExact : IsExactStep stop step top unit)
    (below : count * unit ≤ top) (above : top < (count + 1 : Nat) * unit) :
    Denotes (floor (stop / step)) count := by
  have positive := isExact.pos
  have topPositive := isExact.isEnd.pos
  have countBound := isExact.count_le below
  have size : |top / unit| ≤ 2 ^ 100 := by
    rw [abs_of_pos (by positivity), div_le_iff₀ positive]
    linarith [isExact.few]
  have quotient := isExact.isEnd.denotes.div isExact.isStep positive.ne' size
  have held : Representable ((count : ℤ) : ℚ) :=
    representable_intCast (abs_le.mpr ⟨by omega, by omega⟩)
  rw [Int.cast_natCast] at held
  have atLeast := quotient.le_value held ((le_div_iff₀ positive).mpr below)
  have short := quotient.quotient_lt isExact.isEnd.denotes.representable
    (isExact.representable_mul (by omega)) positive (by omega) (by omega) above
  have isFloor : ⌊value (stop / step)⌋ = (count : ℤ) := by
    rw [Int.floor_eq_iff]
    push_cast at short ⊢
    exact ⟨atLeast, short⟩
  have floored := denotes_floor quotient.denotes_value
  rwa [isFloor, Int.cast_natCast] at floored

/-- The remainder by a multiple of a half is exact. -/
theorem IsExactStep.denotes_remainder (isExact : IsExactStep stop step top unit)
    (below : count * unit ≤ top) (above : top < (count + 1 : Nat) * unit) :
    Denotes (remainder stop step) (top - count * unit) := by
  obtain ⟨restHeld, gap⟩ := isExact.rest below above
  have topPositive := isExact.isEnd.pos
  have positive := isExact.pos
  have small := isExact.small
  have countBound := isExact.count_le below
  have multipleNonneg : (0 : ℚ) ≤ count * unit := by positivity
  have multipleSize : |(count : ℚ) * unit| ≤ 2 ^ 100 := by
    rw [abs_of_nonneg multipleNonneg]
    linarith
  have restSize : |top - count * unit| ≤ 2 ^ 100 := by
    rw [abs_of_nonneg (by linarith)]
    linarith
  have product := ((isExact.denotes_floor_quotient below above).mul isExact.isStep
    multipleSize).denotes (isExact.representable_mul (by omega))
  have rest := (isExact.isEnd.denotes.sub product restSize).denotes restHeld
  have notNear : ¬ (stop - floor (stop / step) * step - step).abs < tolerance := by
    have gapSize : |top - count * unit - unit| ≤ 2 ^ 100 := by
      rw [abs_sub_comm, abs_of_nonneg (by linarith)]
      linarith [isExact.le_double]
    have difference := rest.sub isExact.isStep gapSize
    have far := difference.value_le denotes_tolerance_div.representable.neg (by linarith)
    rw [difference.denotes_value.abs.lt_iff denotes_tolerance_div, not_lt]
    linarith [neg_le_abs (value (stop - floor (stop / step) * step - step))]
  unfold remainder
  dsimp only
  rw [if_neg notNear]
  exact rest

/-- The last multiple of a multiple of a half is exact. -/
theorem IsExactStep.denotes_lastMultiple (isExact : IsExactStep stop step top unit)
    (below : count * unit ≤ top) (above : top < (count + 1 : Nat) * unit) :
    Denotes (lastMultiple stop step) (count * unit) := by
  have rest := isExact.denotes_remainder below above
  have countBound := isExact.count_le below
  have positive := isExact.pos
  have isLeft : top - (top - count * unit) = count * unit := by ring
  have size : |top - (top - count * unit)| ≤ 2 ^ 100 := by
    rw [isLeft, abs_of_nonneg (by positivity)]
    linarith [isExact.small]
  have difference := isExact.isEnd.denotes.sub rest size
  rw [isLeft] at difference
  exact difference.denotes (isExact.representable_mul (by omega))

end Exact

section Counting

variable {stop step division last : Float} {top unit lastExact : ℚ} {errors parts : Nat}

/-- A step that is divided into parts, a few of which reach over the axis. -/
structure IsDivided (stop step division : Float) (top unit : ℚ) (errors parts : Nat) : Prop where
  isEnd : IsThroughputEnd stop top
  isStep : Approximates errors (unit * parts) step
  isDivision : Denotes division (parts : ℤ)
  few : errors ≤ 90
  one_le : 1 ≤ parts
  le_ten : parts ≤ 10
  low : 3 / 2 * unit ≤ top
  high : top ≤ 100 * unit

theorem IsDivided.cast_bounds (isDivided : IsDivided stop step division top unit errors parts) :
    (1 : ℚ) ≤ parts ∧ (parts : ℚ) ≤ 10 :=
  ⟨by exact_mod_cast isDivided.one_le, by exact_mod_cast isDivided.le_ten⟩

theorem IsDivided.unit_pos (isDivided : IsDivided stop step division top unit errors parts) :
    0 < unit := by
  have positive := isDivided.isEnd.pos
  linarith [isDivided.high]

theorem IsDivided.division_approximates
    (isDivided : IsDivided stop step division top unit errors parts) :
    Approximates 0 parts division := by
  obtain ⟨low, high⟩ := isDivided.cast_bounds
  have isDivision := isDivided.isDivision
  rw [Int.cast_natCast] at isDivision
  exact isDivision.approximates (central_of_moderate (by linarith) (by linarith))

/-- A part of the step is known almost as well as the step. -/
theorem IsDivided.part_approximates
    (isDivided : IsDivided stop step division top unit errors parts) :
    Approximates (errors + 2) unit (step / division) := by
  obtain ⟨low, high⟩ := isDivided.cast_bounds
  have isPart : unit * parts / parts = unit := mul_div_cancel_right₀ _ (by linarith)
  have positive := isDivided.unit_pos
  have central : Central (unit * parts / parts) := by
    rw [isPart]
    exact isDivided.isEnd.central (by linarith [isDivided.high]) (by linarith [isDivided.low])
  have part := isDivided.isStep.div isDivided.division_approximates central
    (by linarith [isDivided.few])
  rw [isPart] at part
  exact part

/-- The number of ticks is computed with an error that does not matter to it. -/
theorem IsDivided.exists_denotes_count
    (isDivided : IsDivided stop step division top unit errors parts)
    (isLast : Denotes last lastExact) (lastLow : unit / 4 ≤ lastExact)
    (lastHigh : lastExact ≤ 101 * unit) :
    ∃ count : ℤ, Denotes (Binary64.round (1.0 + (last - 0.0) / step * division)) count ∧
      |count - (1 + lastExact / unit)| ≤ 51 / 100 := by
  obtain ⟨low, high⟩ := isDivided.cast_bounds
  have positive := isDivided.unit_pos
  have few := isDivided.few
  have lastPositive : 0 < lastExact := by linarith
  have wholePositive : 0 < unit * parts := by positivity
  have quotientLow : 1 / 40 ≤ lastExact / (unit * parts) := by
    rw [le_div_iff₀ wholePositive]
    nlinarith
  have quotientHigh : lastExact / (unit * parts) ≤ 101 := by
    rw [div_le_iff₀ wholePositive]
    nlinarith
  have isRatio : lastExact / (unit * parts) * parts = lastExact / unit := by
    field_simp
  have ratioLow : 1 / 4 ≤ lastExact / unit := by
    rw [le_div_iff₀ positive]
    linarith
  have ratioHigh : lastExact / unit ≤ 101 := by
    rw [div_le_iff₀ positive]
    linarith
  have lastCentral : Central lastExact := isDivided.isEnd.central
    (by linarith [isDivided.high]) (by linarith [isDivided.low])
  have quotient := (isLast.approximates lastCentral).div isDivided.isStep
    (central_of_moderate (by linarith) (by linarith)) (by omega)
  have ratio := quotient.mul isDivided.division_approximates
    (central_of_moderate (by rw [isRatio]; linarith) (by rw [isRatio]; linarith)) (by omega)
  rw [isRatio] at ratio
  have sum := ((denotes_unit.approximates (central_of_moderate (by norm_num) (by norm_num))).mono
    (Nat.zero_le _)).add ratio (central_of_moderate (by linarith) (by linarith)) (by omega)
  obtain ⟨below, above⟩ := abs_le.mp (sum.near.abs_sub_le (by linarith) (by omega))
  obtain ⟨count, isCount, near⟩ := exists_denotes_round sum.denotes_value
  obtain ⟨nearBelow, nearAbove⟩ := abs_le.mp near
  rw [(denotes_sub_zero isLast).unique isLast lastPositive]
  exact ⟨count, isCount, abs_le.mpr ⟨by linarith, by linarith⟩⟩

theorem IsDivided.tooMany_iff (isDivided : IsDivided stop step division top unit errors parts)
    {count : ℤ} (isCount : Denotes (Binary64.round
      (1.0 + (lastMultiple stop (step / division) - 0.0) / step * division)) count) :
    tooMany 0.0 stop 8 step division = true ↔ 8 < count := by
  apply Axis.tooMany_iff (by decide)
  rw [firstMultiple_zero isDivided.part_approximates.denotes_value
    (isDivided.part_approximates.value_pos (by linarith [isDivided.few]))]
  exact isCount

/-- Parts give too many ticks only if more than seven of them fit on the axis, and they do if more than
eight and a half fit. -/
theorem IsDivided.tooMany_near (isDivided : IsDivided stop step division top unit errors parts) :
    (tooMany 0.0 stop 8 step division = true → 37 / 5 * unit ≤ top) ∧
      (tooMany 0.0 stop 8 step division = false → top ≤ 43 / 5 * unit) := by
  have positive := isDivided.unit_pos
  have few := isDivided.few
  obtain ⟨lastExact, isLast, lastLow, lastHigh⟩ := exists_denotes_lastMultiple_near isDivided.isEnd
    isDivided.part_approximates (by omega) isDivided.low isDivided.high
  obtain ⟨count, isCount, near⟩ := isDivided.exists_denotes_count isLast
    (by linarith [isDivided.low, isDivided.high]) (by linarith [isDivided.high])
  obtain ⟨below, above⟩ := abs_le.mp near
  have isRatio : lastExact = lastExact / unit * unit := (div_mul_cancel₀ _ positive.ne').symm
  have decided := isDivided.tooMany_iff isCount
  constructor
  case left =>
    intro many
    have castMany : (9 : ℚ) ≤ count := by exact_mod_cast decided.mp many
    have bound : 749 / 100 ≤ lastExact / unit := by linarith
    rw [le_div_iff₀ positive] at bound
    linarith [isDivided.high]
  case right =>
    intro fits
    have notMany : ¬ 8 < count := fun many => by
      rw [decided.mpr many] at fits
      contradiction
    have castFits : (count : ℚ) ≤ 8 := by exact_mod_cast not_lt.mp notMany
    have bound : lastExact / unit ≤ 751 / 100 := by linarith
    rw [div_le_iff₀ positive] at bound
    linarith [isDivided.high]

/-- Exact parts give too many ticks just if at least eight of them fit on the axis. -/
theorem IsDivided.tooMany_iff_of_isExactStep
    (isDivided : IsDivided stop step division top unit errors parts)
    (isExact : IsExactStep stop (step / division) top unit) :
    tooMany 0.0 stop 8 step division = true ↔ 8 * unit ≤ top := by
  have positive := isDivided.unit_pos
  have nonneg : 0 ≤ top / unit := div_nonneg isDivided.isEnd.pos.le positive.le
  obtain ⟨fits, isFloor⟩ : ∃ fits, fits = ⌊top / unit⌋₊ := ⟨_, rfl⟩
  obtain ⟨below, above⟩ := (Nat.floor_eq_iff nonneg).mp isFloor.symm
  rw [le_div_iff₀ positive] at below
  rw [div_lt_iff₀ positive] at above
  have castFits : (1 : ℚ) ≤ fits := by
    have several : (0 : ℚ) < fits := by nlinarith [isDivided.low]
    exact_mod_cast (by exact_mod_cast several : 0 < fits)
  have isLast := isExact.denotes_lastMultiple below (by push_cast; exact above)
  obtain ⟨count, isCount, near⟩ := isDivided.exists_denotes_count isLast
    (by nlinarith) (by linarith [isDivided.high])
  rw [mul_div_cancel_right₀ _ positive.ne'] at near
  obtain ⟨nearBelow, nearAbove⟩ := abs_le.mp near
  have isWhole : count = 1 + fits := by
    have low : ((fits : ℤ) : ℚ) < count := by
      push_cast
      linarith
    have high : (count : ℚ) < (fits + 2 : ℤ) := by
      push_cast
      linarith
    rw [Int.cast_lt] at low high
    omega
  rw [isDivided.tooMany_iff isCount, isWhole]
  constructor
  case mp =>
    intro many
    have castMany : (8 : ℚ) ≤ fits := by exact_mod_cast (by omega : 8 ≤ fits)
    nlinarith
  case mpr =>
    intro reaches
    have castMany : (8 : ℚ) < fits + 1 := by
      by_contra short
      nlinarith [not_lt.mp short]
    have many : 8 < fits + 1 := by exact_mod_cast castMany
    omega

end Counting

end Axis
end ThroughputCharts

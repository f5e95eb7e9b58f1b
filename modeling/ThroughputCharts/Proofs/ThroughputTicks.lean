import ThroughputCharts.Proofs.ThroughputSpacing
import ThroughputCharts.Proofs.TickPositions

/-!
# The ticks of a throughput axis

The ticks of a throughput axis are the sums of one step after the other from zero on.  The loop that adds
them up ends after a few of them, so that the errors of the sums stay small, and it goes on for each sum
that is not behind the last multiple of the step.
-/

namespace ThroughputCharts
namespace Axis

open Binary64

/-- The sum of a number of steps, one after the other. -/
def tickAt (step : Float) : Nat → Float
  | 0 => 0.0
  | index + 1 => tickAt step index + step

theorem tickAt_one {step : Float} {exact : ℚ} (denotes : Denotes step exact) (positive : 0 < exact) :
    tickAt step 1 = step :=
  (denotes_zero_add denotes).unique denotes positive

/-- The last multiple of the step on a throughput axis. -/
def lastTick (stop : Float) : Float :=
  lastMultiple stop (throughputSpacing stop).step

/-- The loop goes on for the tick at an index. -/
def GoesOn (stop : Float) (index : Nat) : Prop :=
  -tolerance ≤ lastTick stop - tickAt (throughputSpacing stop).step index - 0.0

section Comparing

variable {last tick : Float} {lastExact exact : ℚ}

/-- The loop goes on up to the last multiple, and not past it by more than the tolerance. -/
theorem goesOn_bounds (isLast : Denotes last lastExact) (isTick : Denotes tick exact)
    (inRange : |lastExact - exact| < rangeEnd) :
    (-tolerance ≤ last - tick - 0.0 → exact < lastExact + 1025 / 1024 / 2 ^ 52) ∧
      (exact ≤ lastExact → -tolerance ≤ last - tick - 0.0) := by
  have difference := roundsTo_sub isLast.finite isTick.finite
    (by rwa [isLast.value_eq, isTick.value_eq])
  rw [isLast.value_eq, isTick.value_eq] at difference
  rw [denotes_tolerance_div.neg.le_iff (denotes_sub_zero difference.denotes_value)]
  constructor
  case left =>
    intro goesOn
    by_contra past
    have held : Representable (-(1025 / 1024 / 2 ^ 52)) :=
      ⟨-1025, -62, by norm_num, by decide, by norm_num⟩
    have far := difference.value_le held (by linarith [not_lt.mp past])
    linarith
  case right =>
    intro reached
    have far := difference.le_value denotes_zero.representable (sub_nonneg.mpr reached)
    linarith

end Comparing

section Ticks

variable {stop : Float} {top : ℚ} {place : ℤ} {parts index : Nat} {spacing : Spacing}

theorem IsThroughputStep.unit_bounds (isStep : IsThroughputStep top place parts spacing) :
    0 < (10 : ℚ) ^ place / parts ∧ (10 : ℚ) ^ place / parts ≤ 10 ^ place ∧
      10 ^ place ≤ 5 * ((10 : ℚ) ^ place / parts) := by
  have unit : (0 : ℚ) < 10 ^ place := by positivity
  rcases isStep.isParts with rfl | rfl | rfl <;> push_cast <;> refine ⟨?_, ?_, ?_⟩ <;> linarith

/-- The sums of the first few steps are known up to a few errors. -/
theorem IsThroughputStep.tickAt_approximates (isStep : IsThroughputStep top place parts spacing)
    (isEnd : IsThroughputEnd stop top) (positive : 1 ≤ index) (few : index ≤ 20) :
    Approximates (20 + index) (index * ((10 : ℚ) ^ place / parts)) (tickAt spacing.step index) := by
  obtain ⟨unitPositive, -, -⟩ := isStep.unit_bounds
  have low := isStep.low
  have high := isStep.high
  have central {count : Nat} (positive : 1 ≤ count) (few : count ≤ 20) :
      Central (count * ((10 : ℚ) ^ place / parts)) := by
    have castPositive : (1 : ℚ) ≤ count := by exact_mod_cast positive
    have castFew : (count : ℚ) ≤ 20 := by exact_mod_cast few
    exact isEnd.central (by nlinarith) (by nlinarith)
  induction index, positive using Nat.le_induction with
  | base =>
      have first := isStep.isStep
      rw [tickAt_one first.denotes_value (first.value_pos (by decide)), Nat.cast_one, one_mul]
      exact first.mono (by decide)
  | succ index positive induction =>
      have sum := (induction (by omega)).add (isStep.isStep.mono (Nat.le_add_right 20 index))
      have isNext : (index : ℚ) * (10 ^ place / parts) + 10 ^ place / parts =
          (index + 1 : Nat) * (10 ^ place / parts) := by
        push_cast
        ring
      rw [isNext] at sum
      exact sum (central (by omega) few) (by omega)

/-- Every sum of a few steps is finite, and hardly off the multiple of the exact step. -/
theorem IsThroughputStep.tickAt_near (isStep : IsThroughputStep top place parts spacing)
    (isEnd : IsThroughputEnd stop top) (few : index ≤ 20) :
    (tickAt spacing.step index).isFinite = true ∧
      |value (tickAt spacing.step index) - index * ((10 : ℚ) ^ place / parts)| ≤
        index * ((10 : ℚ) ^ place / parts) / 2 ^ 42 := by
  obtain ⟨unitPositive, -, -⟩ := isStep.unit_bounds
  rcases Nat.eq_zero_or_pos index with rfl | positive
  · rw [tickAt, denotes_zero.value_eq]
    exact ⟨denotes_zero.finite, by norm_num⟩
  · have tick := isStep.tickAt_approximates isEnd positive few
    exact ⟨tick.finite, tick.near.abs_sub_le (by positivity) (by omega)⟩

/-- The sums ascend. -/
theorem IsThroughputStep.tickAt_lt {other : Nat} (isStep : IsThroughputStep top place parts spacing)
    (isEnd : IsThroughputEnd stop top) (less : index < other) (few : other ≤ 20) :
    value (tickAt spacing.step index) < value (tickAt spacing.step other) := by
  obtain ⟨unitPositive, -, -⟩ := isStep.unit_bounds
  obtain ⟨-, near⟩ := isStep.tickAt_near isEnd (less.le.trans few)
  obtain ⟨-, otherNear⟩ := isStep.tickAt_near isEnd few
  have castLess : (index : ℚ) + 1 ≤ other := by exact_mod_cast less
  have castFew : (other : ℚ) ≤ 20 := by exact_mod_cast few
  have apart := mul_le_mul_of_nonneg_right castLess unitPositive.le
  have bound := mul_le_mul_of_nonneg_right castFew unitPositive.le
  linarith [(abs_le.mp near).2, (abs_le.mp otherNear).1]

theorem IsThroughputStep.value_tickAt_nonneg (isStep : IsThroughputStep top place parts spacing)
    (isEnd : IsThroughputEnd stop top) (few : index ≤ 20) : 0 ≤ value (tickAt spacing.step index) := by
  obtain ⟨unitPositive, -, -⟩ := isStep.unit_bounds
  have nonneg : 0 ≤ index * ((10 : ℚ) ^ place / parts) := by positivity
  linarith [(abs_le.mp (isStep.tickAt_near isEnd few).2).1]

/-- The last multiple of the step is hardly behind the end of the axis. -/
theorem IsThroughputStep.exists_denotes_lastTick
    (isStep : IsThroughputStep top place parts (throughputSpacing stop))
    (isEnd : IsThroughputEnd stop top) :
    ∃ last, Denotes (lastTick stop) last ∧
      top - 10 ^ place / parts - top / 2 ^ 38 ≤ last ∧ last ≤ top + top / 2 ^ 38 := by
  obtain ⟨unitPositive, -, -⟩ := isStep.unit_bounds
  exact exists_denotes_lastMultiple_near isEnd isStep.isStep (by decide) (by linarith [isStep.low])
    (by linarith [isStep.high])

theorem IsThroughputStep.goesOn_bounds
    (isStep : IsThroughputStep top place parts (throughputSpacing stop))
    (isEnd : IsThroughputEnd stop top) (few : index ≤ 20) {last : ℚ}
    (isLast : Denotes (lastTick stop) last) :
    (GoesOn stop index → value (tickAt (throughputSpacing stop).step index) <
        last + 1025 / 1024 / 2 ^ 52) ∧
      (value (tickAt (throughputSpacing stop).step index) ≤ last → GoesOn stop index) := by
  obtain ⟨unitPositive, -, -⟩ := isStep.unit_bounds
  obtain ⟨other, isOther, low, high⟩ := isStep.exists_denotes_lastTick isEnd
  obtain rfl : last = other := isLast.value_eq.symm.trans isOther.value_eq
  obtain ⟨finite, near⟩ := isStep.tickAt_near isEnd few
  obtain ⟨below, above⟩ := abs_le.mp near
  have nonneg := isStep.value_tickAt_nonneg isEnd few
  have castFew : (index : ℚ) ≤ 20 := by exact_mod_cast few
  have sumHigh : index * ((10 : ℚ) ^ place / parts) ≤ 20 * (10 ^ place / parts) :=
    mul_le_mul_of_nonneg_right castFew unitPositive.le
  have topPositive := isEnd.pos
  apply Axis.goesOn_bounds isLast ⟨finite, rfl⟩
  rw [← abs_abs]
  have central := isEnd.central (by linarith : top ≤ top * 16 * 2 ^ 20) (by linarith)
  exact central.abs_lt_rangeEnd (abs_nonneg _)
    (abs_le.mpr ⟨by linarith [isStep.low, isStep.high], by linarith [isStep.low, isStep.high]⟩)

/-- The loop ends after seventeen steps at the latest. -/
theorem IsThroughputStep.le_of_goesOn
    (isStep : IsThroughputStep top place parts (throughputSpacing stop))
    (isEnd : IsThroughputEnd stop top) (few : index ≤ 20) (goesOn : GoesOn stop index) :
    index ≤ 17 := by
  obtain ⟨unitPositive, -, -⟩ := isStep.unit_bounds
  obtain ⟨last, isLast, -, high⟩ := isStep.exists_denotes_lastTick isEnd
  have short := (isStep.goesOn_bounds isEnd few isLast).1 goesOn
  obtain ⟨below, -⟩ := abs_le.mp (isStep.tickAt_near isEnd few).2
  have axisHigh := isStep.high
  have least := isEnd.low
  by_contra many
  have castMany : (18 : ℚ) ≤ index := by exact_mod_cast (by omega : 18 ≤ index)
  have sumLow : 18 * ((10 : ℚ) ^ place / parts) ≤ index * (10 ^ place / parts) :=
    mul_le_mul_of_nonneg_right castMany unitPositive.le
  linarith

/-- The grain of the axis does not matter to its ticks. -/
theorem IsThroughputStep.aligned_tickAt (isStep : IsThroughputStep top place parts spacing)
    (isEnd : IsThroughputEnd stop top) (few : index ≤ 20) :
    aligned spacing.grain (tickAt spacing.step index) = tickAt spacing.step index := by
  apply if_neg
  obtain ⟨unitPositive, unitLow, unitHigh⟩ := isStep.unit_bounds
  have before : (10 : ℚ) ^ (place - 1) = 10 ^ place / 10 := zpow_sub_one₀ (by norm_num) place
  have isGrain := isStep.isGrain
  rw [before] at isGrain
  obtain ⟨grainLow, grainHigh⟩ := isGrain.near.half_le isGrain.central.pos.le (by decide)
  rcases Nat.eq_zero_or_pos index with rfl | positive
  · have rounded : Binary64.round 0.0 = 0.0 := by decide +kernel
    have notBelow : ¬ (0.0 : Float) < 0.0 := by decide
    rwa [tickAt, zero_div_of_pos isGrain.denotes_value (by linarith), rounded,
      zero_mul_of_pos isGrain.denotes_value (by linarith)]
  · have castPositive : (1 : ℚ) ≤ index := by exact_mod_cast positive
    have castFew : (index : ℚ) ≤ 20 := by exact_mod_cast few
    have tick := isStep.tickAt_approximates isEnd positive few
    have power : (0 : ℚ) < 10 ^ place / 10 := isGrain.central.pos
    have quotientLow : 1 ≤ index * ((10 : ℚ) ^ place / parts) / (10 ^ place / 10) := by
      rw [le_div_iff₀ power]
      nlinarith
    have quotientHigh : index * ((10 : ℚ) ^ place / parts) / (10 ^ place / 10) ≤ 200 := by
      rw [div_le_iff₀ power]
      nlinarith
    have quotient := tick.div isGrain (central_of_moderate (by linarith) (by linarith)) (by omega)
    obtain ⟨low, high⟩ := quotient.near.half_le (by linarith) (by omega)
    obtain ⟨count, isCount, near⟩ := exists_denotes_round quotient.denotes_value
    obtain ⟨below, above⟩ := abs_le.mp near
    have nonneg : (0 : ℚ) ≤ count := by linarith
    have product : 0 ≤ count * value spacing.grain := mul_nonneg nonneg (by linarith)
    have bound : count * value spacing.grain ≤ top * 2 ^ 10 * 2 := by
      have scaled := mul_le_mul (by linarith : (count : ℚ) ≤ 401) grainHigh (by linarith)
        (by norm_num)
      linarith [isStep.low]
    have topPositive := isEnd.pos
    have rounds := roundsTo_mul isCount.finite isGrain.finite (by
      rw [isCount.value_eq]
      exact (isEnd.central (by linarith) le_rfl).abs_lt_rangeEnd product bound)
    rw [isCount.value_eq] at rounds
    rw [rounds.denotes_value.lt_iff denotes_zero, not_lt]
    exact rounds.le_value denotes_zero.representable product

theorem IsThroughputStep.tickAt_add_zero (isStep : IsThroughputStep top place parts spacing)
    (isEnd : IsThroughputEnd stop top) (few : index ≤ 20) :
    tickAt spacing.step index + 0.0 = tickAt spacing.step index := by
  rcases Nat.eq_zero_or_pos index with rfl | positive
  · have sum : (0.0 + 0.0 : Float) = 0.0 := by decide
    exact sum
  · have tick := isStep.tickAt_approximates isEnd positive few
    exact (denotes_add_zero tick.denotes_value).unique tick.denotes_value (tick.value_pos (by omega))

end Ticks

section Loop

variable {stop : Float} {top : ℚ} {place : ℤ} {parts : Nat}

/-- The loop gives the ticks one after the other, up to the first for which it does not go on. -/
theorem IsThroughputStep.exists_positions_eq
    (isStep : IsThroughputStep top place parts (throughputSpacing stop))
    (isEnd : IsThroughputEnd stop top) (fuel : Nat) : ∀ index ≤ 18, 18 < fuel + index → ∃ count,
      positions 0.0 (lastTick stop) (throughputSpacing stop) fuel
          (tickAt (throughputSpacing stop).step index) =
        some ((List.range' index count).map (tickAt (throughputSpacing stop).step)) ∧
      (∀ other, index ≤ other → other < index + count → other ≤ 17 ∧ GoesOn stop other) ∧
      ¬ GoesOn stop (index + count) := by
  induction fuel with
  | zero =>
      intro index few enough
      omega
  | succ fuel induction =>
      intro index few enough
      by_cases goesOn : GoesOn stop index
      · have bound := isStep.le_of_goesOn isEnd (by omega) goesOn
        obtain ⟨count, rest, before, ends⟩ := induction (index + 1) (by omega) (by omega)
        refine ⟨count + 1, ?_, fun other low high => ?_, ?_⟩
        · rw [GoesOn] at goesOn
          rw [positions, if_pos goesOn]
          simp only [isStep.aligned_tickAt isEnd (by omega : index ≤ 20),
            isStep.tickAt_add_zero isEnd (by omega : index ≤ 20)]
          rw [List.range'_succ, List.map_cons, ← Option.map_some, ← rest]
          rfl
        · rcases low.eq_or_lt with rfl | above
          · exact ⟨bound, goesOn⟩
          · exact before other above (by omega)
        · rw [← add_assoc, add_right_comm]
          exact ends
      · refine ⟨0, ?_, fun other low high => by omega, goesOn⟩
        rw [GoesOn] at goesOn
        rw [positions, if_neg goesOn]
        rfl

/-- The ticks of a throughput axis are the first sums of steps; each of them is one that the loop goes on
for, and each sum up to which it goes on is one of them. -/
structure IsTickCount (stop : Float) (count : Nat) : Prop where
  ticks_eq : ticks 0.0 stop 8 =
    some ((List.range count).map (tickAt (throughputSpacing stop).step))
  goesOn : ∀ index < count, index ≤ 17 ∧ GoesOn stop index
  lt_of_goesOn : ∀ index, (∀ other ≤ index, GoesOn stop other) → index < count

theorem IsThroughputEnd.exists_isTickCount (isEnd : IsThroughputEnd stop top) :
    ∃ count, IsTickCount stop count := by
  obtain ⟨place, parts, isStep⟩ := isEnd.exists_isThroughputStep
  obtain ⟨count, isPositions, before, ends⟩ :=
    isStep.exists_positions_eq isEnd numberCount 0 (by decide)
      (by rw [numberCount_eq, Nat.pow_eq]; decide)
  have first := firstMultiple_zero isStep.isStep.denotes_value (isStep.isStep.value_pos (by decide))
  have base := floor_zero_mul isStep.isGrain.denotes_value (isStep.isGrain.value_pos (by decide))
  have offset : (0.0 - 0.0 : Float) = 0.0 := by decide
  have unfolded : ticks 0.0 stop 8 =
      positions 0.0 (lastTick stop) (throughputSpacing stop) numberCount 0.0 := by
    have apart := mt (abs_zero_sub_lt_tolerance_iff isEnd.denotes isEnd.pos).mp
      (not_lt.mpr isEnd.low)
    simp only [ticks, if_neg apart, isEnd.spacing_eq, Option.bind_eq_bind, Option.bind_some, first,
      base, offset, lastTick]
  refine ⟨count, ?_, fun index less => before index (Nat.zero_le _) (by omega), ?_⟩
  · rw [unfolded, List.range_eq_range', ← isPositions]
    rfl
  · intro index goesOn
    by_contra past
    rw [zero_add] at ends
    exact ends (goesOn count (by omega))

end Loop

section Whole

variable {stop : Float} {top : ℚ} {exponent unit index count : Nat} {spacing : Spacing}

theorem IsWholeStep.unit_pos (isWhole : IsWholeStep top exponent unit spacing) : 0 < unit := by
  have power : 0 < 10 ^ exponent := Nat.pow_pos (by decide)
  rcases isWhole.least with ⟨isUnit, -⟩ | ⟨isUnit, -⟩ | ⟨isUnit, -⟩ <;> omega

theorem IsWholeStep.unit_le (isWhole : IsWholeStep top exponent unit spacing) : unit ≤ 1000000 := by
  have power : 10 ^ exponent ≤ 10 ^ 6 := Nat.pow_le_pow_right (by decide) isWhole.small
  rcases isWhole.least with ⟨isUnit, -⟩ | ⟨isUnit, -⟩ | ⟨isUnit, -⟩ <;> omega

/-- At least three whole steps fit on the axis. -/
theorem IsWholeStep.three_mul_le (isWhole : IsWholeStep top exponent unit spacing) :
    3 * (unit : ℚ) ≤ top := by
  have positive : (0 : ℚ) < unit := by exact_mod_cast isWhole.unit_pos
  have cast {parts : Nat} (isUnit : unit * parts = 10 ^ exponent) :
      (unit : ℚ) * parts = 10 ^ exponent := by exact_mod_cast isUnit
  rcases isWhole.least with ⟨isUnit, low⟩ | ⟨isUnit, low⟩ | ⟨isUnit, low⟩
  · have castUnit := @cast 1 (by omega)
    push_cast at castUnit
    linarith
  · have castUnit := cast isUnit
    push_cast at castUnit
    linarith
  · have castUnit := cast isUnit
    push_cast at castUnit
    linarith

/-- The sums of whole steps are exact. -/
theorem IsWholeStep.denotes_tickAt (isWhole : IsWholeStep top exponent unit spacing)
    (few : index ≤ 20) : Denotes (tickAt spacing.step index) ((index * unit : Nat) : ℤ) := by
  have small := isWhole.unit_le
  induction index with
  | zero =>
      rw [zero_mul, tickAt]
      exact_mod_cast denotes_zero
  | succ index induction =>
      have bound : index * unit ≤ 20 * unit := Nat.mul_le_mul_right unit (by omega)
      have sum := (induction (by omega)).add_whole isWhole.isStep (abs_le.mpr ⟨by omega, by omega⟩)
      rwa [← Nat.cast_add, ← Nat.succ_mul] at sum

/-- A whole step is searched for and summed up without error. -/
theorem IsWholeStep.isExactStep (isWhole : IsWholeStep top exponent unit spacing)
    (isEnd : IsThroughputEnd stop top) : IsExactStep stop spacing.step top unit := by
  have positive : (1 : ℚ) ≤ unit := by exact_mod_cast isWhole.unit_pos
  have small : (unit : ℚ) ≤ 1000000 := by exact_mod_cast isWhole.unit_le
  have fits := isWhole.fits
  have low := isWhole.three_mul_le
  have isStep := isWhole.isStep
  rw [Int.cast_natCast] at isStep
  exact ⟨isEnd, by linarith, by linarith, isStep, onGrid_natCast unit, by linarith, by linarith,
    by linarith⟩

/-- The last multiple of a whole step is exact. -/
theorem IsWholeStep.exists_denotes_lastTick
    (isWhole : IsWholeStep top exponent unit (throughputSpacing stop))
    (isEnd : IsThroughputEnd stop top) :
    ∃ fits : Nat, Denotes (lastTick stop) ((fits * unit : Nat) : ℤ) ∧ fits < 8 ∧
      (fits : ℚ) * unit ≤ top ∧ top < (fits + 1) * unit := by
  have positive : (0 : ℚ) < unit := by exact_mod_cast isWhole.unit_pos
  have topPositive := isEnd.pos
  obtain ⟨fits, isFloor⟩ : ∃ fits, fits = ⌊top / unit⌋₊ := ⟨_, rfl⟩
  obtain ⟨below, above⟩ := (Nat.floor_eq_iff (by positivity)).mp isFloor.symm
  rw [le_div_iff₀ positive] at below
  rw [div_lt_iff₀ positive] at above
  have castFew : (fits : ℚ) < 8 :=
    lt_of_mul_lt_mul_right (below.trans_lt isWhole.fits) positive.le
  have isLast := (isWhole.isExactStep isEnd).denotes_lastMultiple below (by push_cast; exact above)
  have castLast : (fits : ℚ) * unit = ((fits * unit : Nat) : ℤ) := by push_cast; ring
  rw [castLast] at isLast
  exact ⟨fits, isLast, by exact_mod_cast castFew, below, above⟩

/-- The loop goes on up to the last multiple of a whole step. -/
theorem IsWholeStep.goesOn_iff {fits : Nat}
    (isWhole : IsWholeStep top exponent unit (throughputSpacing stop))
    (isLast : Denotes (lastTick stop) ((fits * unit : Nat) : ℤ)) (fitsFew : fits < 8)
    (few : index ≤ 20) : GoesOn stop index ↔ index ≤ fits := by
  have small := isWhole.unit_le
  have lastBound : fits * unit ≤ 8 * unit := Nat.mul_le_mul_right unit fitsFew.le
  have tickBound : index * unit ≤ 20 * unit := Nat.mul_le_mul_right unit few
  have inRange : |(((fits * unit : Nat) : ℤ) : ℚ) - ((index * unit : Nat) : ℤ)| < rangeEnd := by
    rw [← Int.cast_sub]
    exact abs_lt_rangeEnd (abs_intCast_le (abs_le.mpr ⟨by omega, by omega⟩))
  obtain ⟨short, reached⟩ := Axis.goesOn_bounds isLast (isWhole.denotes_tickAt few) inRange
  constructor
  case mp =>
    intro isOn
    have less : (((index * unit : Nat) : ℤ) : ℚ) < ((fits * unit + 1 : Nat) : ℤ) := by
      have tickShort := short isOn
      push_cast at tickShort ⊢
      linarith
    have atMost : index * unit ≤ fits * unit := Nat.lt_succ_iff.mp (by exact_mod_cast less)
    exact Nat.le_of_mul_le_mul_right atMost isWhole.unit_pos
  case mpr =>
    intro atMost
    exact reached (by exact_mod_cast Nat.mul_le_mul_right unit atMost)

/-- Whole ticks are the multiples of the step up to the end of the axis. -/
theorem IsWholeStep.lt_count_iff (isWhole : IsWholeStep top exponent unit (throughputSpacing stop))
    (isEnd : IsThroughputEnd stop top) (isCount : IsTickCount stop count) :
    index < count ↔ ((index * unit : Nat) : ℚ) ≤ top := by
  have positive : (0 : ℚ) < unit := by exact_mod_cast isWhole.unit_pos
  obtain ⟨fits, isLast, few, below, above⟩ := isWhole.exists_denotes_lastTick isEnd
  rw [Nat.cast_mul]
  constructor
  case mp =>
    intro isTick
    obtain ⟨indexFew, isOn⟩ := isCount.goesOn index isTick
    have atMost := (isWhole.goesOn_iff isLast few (by omega)).mp isOn
    have castAtMost : (index : ℚ) ≤ fits := by exact_mod_cast atMost
    exact (mul_le_mul_of_nonneg_right castAtMost positive.le).trans below
  case mpr =>
    intro within
    have castLess : (index : ℚ) < (fits + 1 : Nat) := by
      push_cast
      exact lt_of_mul_lt_mul_right (within.trans_lt above) positive.le
    have atMost : index ≤ fits := Nat.lt_succ_iff.mp (by exact_mod_cast castLess)
    exact isCount.lt_of_goesOn index
      fun other before => (isWhole.goesOn_iff isLast few (by omega)).mpr (by omega)

end Whole

end Axis
end ThroughputCharts

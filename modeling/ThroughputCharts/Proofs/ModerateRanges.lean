import ThroughputCharts.Proofs.EndlessLoops
import ThroughputCharts.Proofs.StepSearch
import ThroughputCharts.Proofs.ThroughputMultiples

/-!
# Axes of moderate ranges have ticks

On an axis of at least one in length, with ends of up to forty-two binary places, multiples of a step
are computed with an error that is a small part of the length.  A step of a sixtieth of the length gives
too many ticks, so that the search for a step ends.  The loop over the ticks goes on by the step each
time, which is not lost by rounding, and ends behind the last multiple.
-/

namespace ThroughputCharts

namespace Axis

open Binary64

section Multiples

variable {number divisor : Float} {exact unit : ℚ}

/-- What is added to a step to bound the errors of its multiples. -/
def slack (unit : ℚ) : ℚ := (unit + 1) / 16

/-- A multiple below a number is hardly above it, and less than a unit below it. -/
theorem between_floor_mul (denotes : Denotes number exact) (isUnit : Denotes divisor unit)
    (small : |exact| ≤ 2 ^ 46) (low : 1 / 2 ^ 20 ≤ unit) (high : unit ≤ 2 ^ 48) :
    Between (exact - unit - slack unit / 2) (exact + slack unit / 2)
      (floor (number / divisor) * divisor) := by
  obtain ⟨below, above⟩ := abs_le.mp small
  have positive : 0 < unit := by linarith
  have nonzero := positive.ne'
  have scaled : exact / unit * unit = exact := div_mul_cancel₀ _ nonzero
  have quotientBound : |exact / unit| ≤ 2 ^ 46 / unit := by
    rw [abs_div, abs_of_pos positive]
    exact div_le_div_of_nonneg_right small positive.le
  have quotientSmall : 2 ^ 46 / unit ≤ 2 ^ 66 := by
    rw [div_le_iff₀ positive]
    linarith
  have quotient := denotes.div isUnit nonzero (quotientBound.trans (by linarith))
  have bound : |exact / unit| ≤ 2 ^ 46 / unit + 1 := by linarith
  obtain ⟨quotientLow, quotientHigh⟩ := quotient.bounds
    (by linarith [div_nonneg (by norm_num : (0 : ℚ) ≤ 2 ^ 46) positive.le]) bound
  have floored := denotes_floor quotient.denotes_value
  obtain ⟨countLow, countHigh⟩ := Int.floor_eq_iff.mp (Eq.refl ⌊value (number / divisor)⌋)
  generalize ⌊value (number / divisor)⌋ = count at floored countLow countHigh
  -- The error of the quotient, as a part of the number that is divided.
  have share : (2 ^ 46 / unit + 1) / 2 ^ 53 * unit = (2 ^ 46 + unit) / 2 ^ 53 := by
    rw [div_mul_eq_mul_div, add_mul, div_mul_cancel₀ _ nonzero, one_mul]
  have productHigh : count * unit ≤ exact + (2 ^ 46 + unit) / 2 ^ 53 := by
    rw [← share]
    calc count * unit ≤ (exact / unit + (2 ^ 46 / unit + 1) / 2 ^ 53) * unit :=
          mul_le_mul_of_nonneg_right (by linarith) positive.le
      _ = exact + (2 ^ 46 / unit + 1) / 2 ^ 53 * unit := by rw [add_mul, scaled]
  have productLow : exact - (2 ^ 46 + unit) / 2 ^ 53 - unit ≤ count * unit := by
    rw [← share]
    calc exact - (2 ^ 46 / unit + 1) / 2 ^ 53 * unit - unit
        = (exact / unit - (2 ^ 46 / unit + 1) / 2 ^ 53 - 1) * unit := by
          rw [sub_mul, sub_mul, scaled, one_mul]
      _ ≤ count * unit := mul_le_mul_of_nonneg_right (by linarith) positive.le
  have productBound : |count * unit| ≤ 2 ^ 47 + 2 * unit :=
    abs_le.mpr ⟨by linarith, by linarith⟩
  have product := floored.mul isUnit (productBound.trans (by linarith))
  obtain ⟨resultLow, resultHigh⟩ := product.bounds (by linarith) productBound
  unfold slack
  exact ⟨product.finite, by linarith, by linarith⟩

theorem between_remainder (denotes : Denotes number exact) (isUnit : Denotes divisor unit)
    (small : |exact| ≤ 2 ^ 46) (low : 1 / 2 ^ 20 ≤ unit) (high : unit ≤ 2 ^ 48) :
    Between (-slack unit) (unit + slack unit) (remainder number divisor) := by
  have multiple := between_floor_mul denotes isUnit small low high
  have multipleLow := multiple.low_le
  have multipleHigh := multiple.le_high
  unfold slack at multipleLow multipleHigh ⊢
  unfold remainder
  have restBound : |exact - value (floor (number / divisor) * divisor)| ≤ 2 * unit + 1 :=
    abs_le.mpr ⟨by linarith, by linarith⟩
  have rest := denotes.sub multiple.denotes (restBound.trans (by linarith))
  obtain ⟨restLow, restHigh⟩ := rest.bounds (by linarith) restBound
  dsimp only
  split
  · exact ⟨denotes_zero.finite, by rw [denotes_zero.value_eq]; linarith,
      by rw [denotes_zero.value_eq]; linarith⟩
  · exact ⟨rest.finite, by linarith, by linarith⟩

/-- The multiples next to an end of the axis are hardly more than a step away from it. -/
theorem between_firstMultiple (denotes : Denotes number exact) (isUnit : Denotes divisor unit)
    (small : |exact| ≤ 2 ^ 46) (low : 1 / 2 ^ 20 ≤ unit) (high : unit ≤ 2 ^ 48) :
    Between (exact - unit - 2 * slack unit) (exact + unit + 2 * slack unit)
      (firstMultiple number divisor) := by
  obtain ⟨below, above⟩ := abs_le.mp small
  have rest := between_remainder denotes isUnit small low high
  have restLow := rest.low_le
  have restHigh := rest.le_high
  unfold slack at restLow restHigh ⊢
  have leftBound : |exact - value (remainder number divisor)| ≤ 2 ^ 46 + 2 * unit + 1 :=
    abs_le.mpr ⟨by linarith, by linarith⟩
  have left := denotes.sub rest.denotes (leftBound.trans (by linarith))
  obtain ⟨leftLow, leftHigh⟩ := left.bounds (by linarith) leftBound
  unfold firstMultiple
  dsimp only
  split
  next less =>
    have isLess := (left.denotes_value.lt_iff denotes).mp less
    have nextBound : |value (number - remainder number divisor) + unit| ≤ 2 ^ 46 + 4 * unit + 2 :=
      abs_le.mpr ⟨by linarith, by linarith⟩
    have next := left.denotes_value.add isUnit (nextBound.trans (by linarith))
    obtain ⟨nextLow, nextHigh⟩ := next.bounds (by linarith) nextBound
    exact ⟨next.finite, by linarith, by linarith⟩
  next => exact ⟨left.finite, by linarith, by linarith⟩

theorem between_lastMultiple (denotes : Denotes number exact) (isUnit : Denotes divisor unit)
    (small : |exact| ≤ 2 ^ 46) (low : 1 / 2 ^ 20 ≤ unit) (high : unit ≤ 2 ^ 48) :
    Between (exact - unit - 2 * slack unit) (exact + 2 * slack unit)
      (lastMultiple number divisor) := by
  obtain ⟨below, above⟩ := abs_le.mp small
  have rest := between_remainder denotes isUnit small low high
  have restLow := rest.low_le
  have restHigh := rest.le_high
  unfold slack at restLow restHigh ⊢
  have lastBound : |exact - value (remainder number divisor)| ≤ 2 ^ 46 + 2 * unit + 1 :=
    abs_le.mpr ⟨by linarith, by linarith⟩
  have last := denotes.sub rest.denotes (lastBound.trans (by linarith))
  obtain ⟨lastLow, lastHigh⟩ := last.bounds (by linarith) lastBound
  unfold lastMultiple
  exact ⟨last.finite, by linarith, by linarith⟩

end Multiples

/-- An axis of at least one in length whose ends are of moderate size; its length is computed up to a
small error. -/
structure IsModerate (start stop : Float) (length : ℚ) : Prop where
  isStart : Between (-2 ^ 40) (2 ^ 41) start
  isStop : Between (-2 ^ 40) (2 ^ 41) stop
  isLength : Denotes (stop - start) length
  long : 1 ≤ length
  low : length * (99 / 100) ≤ value stop - value start
  high : value stop - value start ≤ length * (101 / 100)

namespace IsModerate

variable {start stop step : Float} {length : ℚ} {limit : Nat} {found : Spacing}

theorem small (range : IsModerate start stop length) :
    |value start| ≤ 2 ^ 46 ∧ |value stop| ≤ 2 ^ 46 ∧ length ≤ 2 ^ 42 := by
  have startLow := range.isStart.low_le
  have startHigh := range.isStart.le_high
  have stopLow := range.isStop.low_le
  have stopHigh := range.isStop.le_high
  have low := range.low
  exact ⟨abs_le.mpr ⟨by linarith, by linarith⟩, abs_le.mpr ⟨by linarith, by linarith⟩,
    by linarith⟩

/-- The ticks at tenths of a step are too many if a sixtieth of the axis is not less than the step. -/
theorem tooMany_tenths (range : IsModerate start stop length)
    (isStep : Between (length / 12 ^ 4) (length / 60) step) (few : limit ≤ 128) :
    tooMany start stop limit step 10.0 = true := by
  obtain ⟨startSmall, stopSmall, short⟩ := range.small
  have long := range.long
  have part := isStep.div denotes_ten (by decide) le_rfl (by linarith)
  have partLow := part.low_le
  have partHigh := part.le_high
  push_cast at partLow partHigh
  have first := between_firstMultiple range.isStart.denotes part.denotes startSmall (by linarith)
    (by linarith)
  have last := between_lastMultiple range.isStop.denotes part.denotes stopSmall (by linarith)
    (by linarith)
  have firstLow := first.low_le
  have firstHigh := first.le_high
  have lastLow := last.low_le
  have lastHigh := last.le_high
  unfold slack at firstLow firstHigh lastLow lastHigh
  have stepLow := isStep.low_le
  have stepHigh := isStep.le_high
  have stepPositive : 0 < value step := by linarith
  have low := range.low
  have high := range.high
  apply tooMany_tenths_of_ratio _ few
  generalize firstMultiple start (step / 10.0) = firstTick at *
  generalize lastMultiple stop (step / 10.0) = lastTick at *
  have distanceBound : |value lastTick - value firstTick| ≤ 2 * length :=
    abs_le.mpr ⟨by linarith, by linarith⟩
  have distance := last.denotes.sub first.denotes (distanceBound.trans (by linarith))
  obtain ⟨distanceLow, distanceHigh⟩ := distance.bounds (by linarith) distanceBound
  have ratioLow : ((16 : ℤ) : ℚ) ≤ value (lastTick - firstTick) / value step := by
    rw [le_div_iff₀ stepPositive]
    push_cast
    linarith
  have ratioHigh : value (lastTick - firstTick) / value step ≤ ((2 ^ 40 : ℤ) : ℚ) := by
    rw [div_le_iff₀ stepPositive]
    push_cast
    linarith
  have ratioBound : |value (lastTick - firstTick) / value step| ≤ 2 ^ 100 := by
    push_cast at ratioLow ratioHigh
    exact abs_le.mpr ⟨by linarith, by linarith⟩
  have ratio := distance.denotes_value.div isStep.denotes stepPositive.ne' ratioBound
  exact ratio.between ratioLow ratioHigh (by norm_num) (by norm_num)

/-- The search for a step ends, and its step is comparable to the length of the axis. -/
theorem exists_spacing (range : IsModerate start stop length) (few : limit ≤ 128) :
    ∃ found, spacing start stop limit = some found ∧ IsComparable length found := by
  obtain ⟨-, -, short⟩ := range.small
  have long := range.long
  obtain ⟨power, hasScale⟩ := range.isLength.exists_hasScale (by linarith)
  have low := hasScale.low
  have high := hasScale.high
  rw [zpow_add_one₀ (by norm_num)] at high
  have unit : (0 : ℚ) < 10 ^ power := by positivity
  have isPower := approximates_powerOfTen
    (central_of_moderate (by linarith : 1 / 2 ^ 100 ≤ (10 : ℚ) ^ power) (by linarith))
  obtain ⟨finite, ⟨powerLow, powerHigh⟩, -⟩ := isPower
  push_cast at powerLow powerHigh
  have inRange : 10 ^ power * 11 < rangeEnd :=
    (le_abs_self _).trans_lt (abs_lt_rangeEnd (abs_le.mpr ⟨by linarith, by linarith⟩))
  have isLevel : IsLevel length 0 (coarse (stop - start) limit) :=
    isLevel_coarse hasScale ⟨finite, by linarith, by linarith⟩ long fun _ => inRange
  exact exists_spacing_isComparable isLevel long fun _ isStep => range.tooMany_tenths isStep few

section Ticks

variable {base offset next : Float}

/-- A position is its offset, or hardly more than a grain behind it. -/
theorem between_aligned (long : 1 ≤ length)
    (isGrain : Between (length / 2 ^ 18) (12 * length) found.grain)
    (isOffset : Between (-14 * length) (60 * length) offset) (short : length ≤ 2 ^ 42) :
    Between (value offset) (80 * length) (aligned found.grain offset) := by
  have grainLow := isGrain.low_le
  have grainHigh := isGrain.le_high
  have offsetLow := isOffset.low_le
  have offsetHigh := isOffset.le_high
  unfold aligned
  split
  · have sumBound : |value offset + value found.grain| ≤ 80 * length :=
      abs_le.mpr ⟨by linarith, by linarith⟩
    have sum := isOffset.denotes.add isGrain.denotes (sumBound.trans (by linarith))
    obtain ⟨-, sumHigh⟩ := sum.bounds (by linarith) sumBound
    exact ⟨sum.finite, sum.le_value isOffset.denotes.representable (by linarith), by linarith⟩
  · exact ⟨isOffset.finite, le_rfl, by linarith⟩

/-- Where the loop over the ticks goes on, the offset is not far behind the last multiple. -/
theorem between_offset_of_goesOn (range : IsModerate start stop length)
    (isStep : Between (length / 2 ^ 18) (12 * length) found.step)
    (isBase : Between (value start - 28 * length) (value start + 28 * length) base)
    (isOffset : Between (-14 * length) (100 * length) offset)
    (goesOn : -tolerance ≤ lastMultiple stop found.step - offset - base) :
    Between (-14 * length) (60 * length) offset := by
  obtain ⟨startSmall, stopSmall, short⟩ := range.small
  have long := range.long
  have rangeHigh := range.high
  obtain ⟨startLow, startHigh⟩ := abs_le.mp startSmall
  obtain ⟨stopLow, stopHigh⟩ := abs_le.mp stopSmall
  have stepLow := isStep.low_le
  have stepHigh := isStep.le_high
  have baseLow := isBase.low_le
  have baseHigh := isBase.le_high
  have offsetLow := isOffset.low_le
  have offsetHigh := isOffset.le_high
  have last := between_lastMultiple range.isStop.denotes isStep.denotes stopSmall (by linarith)
    (by linarith)
  have lastLow := last.low_le
  have lastHigh := last.le_high
  unfold slack at lastLow lastHigh
  generalize lastMultiple stop found.step = lastTick at *
  have beforeBound : |value lastTick - value offset| ≤ 2 ^ 47 + 200 * length :=
    abs_le.mpr ⟨by linarith, by linarith⟩
  have before := last.denotes.sub isOffset.denotes (beforeBound.trans (by linarith))
  obtain ⟨beforeLow, beforeHigh⟩ := before.bounds (by linarith) beforeBound
  have restBound : |value (lastTick - offset) - value base| ≤ 2 ^ 48 + 300 * length :=
    abs_le.mpr ⟨by linarith, by linarith⟩
  have rest := before.denotes_value.sub isBase.denotes (restBound.trans (by linarith))
  obtain ⟨-, restHigh⟩ := rest.bounds (by linarith) restBound
  have reached := (denotes_tolerance_div.neg.le_iff rest.denotes_value).mp goesOn
  exact ⟨isOffset.finite, offsetLow, by linarith⟩

/-- The loop over the ticks goes on with a greater offset, which stays within bounds. -/
theorem advanced_increases (range : IsModerate start stop length)
    (isComparable : IsComparable length found)
    (isBase : Between (value start - 28 * length) (value start + 28 * length) base)
    (isOffset : Between (-14 * length) (100 * length) offset)
    (isNext : advanced base (lastMultiple stop found.step) found offset = some next) :
    Between (-14 * length) (100 * length) next ∧ value offset < value next := by
  obtain ⟨isStep, isGrain⟩ := isComparable
  obtain ⟨-, -, short⟩ := range.small
  have long := range.long
  unfold advanced at isNext
  split at isNext
  next goesOn =>
    obtain rfl := Option.some.inj isNext
    have near := between_offset_of_goesOn range isStep isBase isOffset goesOn
    have isAligned := between_aligned long isGrain near short
    have offsetLow := near.low_le
    have alignedLow := isAligned.low_le
    have alignedHigh := isAligned.le_high
    have stepLow := isStep.low_le
    have stepHigh := isStep.le_high
    have nextBound : |value (aligned found.grain offset) + value found.step| ≤ 100 * length :=
      abs_le.mpr ⟨by linarith, by linarith⟩
    have next := isAligned.denotes.add isStep.denotes (nextBound.trans (by linarith))
    obtain ⟨nextLow, nextHigh⟩ := next.bounds (by linarith) nextBound
    exact ⟨⟨next.finite, by linarith, by linarith⟩, by linarith⟩
  next => exact nomatch isNext

/-- An axis of a moderate range has ticks. -/
theorem ticks_ne_none (range : IsModerate start stop length) (few : limit ≤ 128) :
    ticks start stop limit ≠ none := by
  intro isNone
  obtain ⟨-, endless | ⟨found, base, isFound, rfl, endless⟩⟩ := ticks_eq_none_iff.mp isNone
  · obtain ⟨found, isFound, -⟩ := range.exists_spacing few
    rw [← spacing_eq_none_iff, isFound] at endless
    contradiction
  · obtain ⟨_, isSpacing, isComparable⟩ := range.exists_spacing few
    obtain rfl := Option.some.inj (isFound.symm.trans isSpacing)
    obtain ⟨startSmall, -, short⟩ := range.small
    obtain ⟨startLow, startHigh⟩ := abs_le.mp startSmall
    have long := range.long
    have stepLow := isComparable.step.low_le
    have stepHigh := isComparable.step.le_high
    have grainLow := isComparable.grain.low_le
    have grainHigh := isComparable.grain.le_high
    have first := between_firstMultiple range.isStart.denotes isComparable.step.denotes startSmall
      (by linarith) (by linarith)
    have firstLow := first.low_le
    have firstHigh := first.le_high
    unfold slack at firstLow firstHigh
    have startMost := range.isStart.le_high
    have startLeast := range.isStart.low_le
    have isBase := between_floor_mul first.denotes isComparable.grain.denotes
      (abs_le.mpr ⟨by linarith, by linarith⟩) (by linarith) (by linarith)
    have baseLow := isBase.low_le
    have baseHigh := isBase.le_high
    unfold slack at baseLow baseHigh
    have offsetBound : |value (firstMultiple start found.step) -
        value (floor (firstMultiple start found.step / found.grain) * found.grain)| ≤ 13 * length :=
      abs_le.mpr ⟨by linarith, by linarith⟩
    have offset := first.denotes.sub isBase.denotes (offsetBound.trans (by linarith))
    obtain ⟨offsetLow, offsetHigh⟩ := offset.bounds (by linarith) offsetBound
    obtain ⟨offsetLeast, offsetMost⟩ := abs_le.mp offsetBound
    refine not_endless_of_increases value (Between (-14 * length) (100 * length))
      ⟨offset.finite, by linarith, by linarith⟩ (fun _ _ isOffset isNext => ?_) endless
    exact range.advanced_increases isComparable ⟨isBase.finite, by linarith, by linarith⟩ isOffset
      isNext

end Ticks

end IsModerate

end Axis
end ThroughputCharts

import ThroughputCharts.Proofs.EndlessLoops
import ThroughputCharts.Proofs.Overflow
import ThroughputCharts.Proofs.StepSearch

/-!
# Axes to the end of the range have ticks

On an axis from zero to a number near the end of the range the last multiple of a step can be infinite.
Even so small steps give too many ticks, and the loop over the ticks ends as soon as its offset is
infinite.  On an axis that is infinite itself the search for a step never ends.
-/

namespace ThroughputCharts
namespace Axis

open Binary64

section Powers

variable {first second factor count low high : Nat}

/-- Powers of whole numbers can be compared as whole numbers. -/
theorem pow_mul_lt_pow {base other : Nat} (less : base ^ first * factor < other ^ second) :
    (base : ℚ) ^ (first : ℤ) * factor < (other : ℚ) ^ (second : ℤ) := by
  rw [zpow_natCast, zpow_natCast]
  exact_mod_cast less

theorem pow_mul_lt_sub {power : ℤ} (few : power ≤ count)
    (fits : 10 ^ count * factor + 2 ^ low < 2 ^ high) :
    (10 : ℚ) ^ power * factor < 2 ^ (high : ℤ) - 2 ^ (low : ℤ) := by
  have most : (10 : ℚ) ^ power ≤ 10 ^ count := by
    rw [← zpow_natCast]
    exact zpow_le_zpow_right₀ (by norm_num) few
  have castFits : (10 : ℚ) ^ count * factor + 2 ^ low < 2 ^ high := by exact_mod_cast fits
  have scaled := mul_le_mul_of_nonneg_right most (Nat.cast_nonneg (α := ℚ) factor)
  rw [zpow_natCast, zpow_natCast]
  linarith

/-- Powers of ten are in the range as far as whole numbers show it. -/
theorem pow_mul_lt_rangeEnd {power : ℤ} (few : power ≤ count)
    (fits : 10 ^ count * factor + 2 ^ 970 < 2 ^ 1024) : (10 : ℚ) ^ power * factor < rangeEnd :=
  @pow_mul_lt_sub factor count 970 1024 power few fits

end Powers

/-- The end of an axis that is beyond moderate size. -/
structure IsVast (stop : Float) (top : ℚ) : Prop where
  denotes : Denotes stop top
  low : 2 ^ (1000 : ℤ) ≤ top

namespace IsVast

variable {stop step part : Float} {top : ℚ} {found : Spacing}

theorem bounds (vast : IsVast stop top) :
    1 ≤ top ∧ |top| < rangeEnd ∧ rangeEnd ≤ top * 2 ^ 24 := by
  have powers : (2 : ℚ) ^ (1024 : ℤ) = 2 ^ (1000 : ℤ) * 2 ^ 24 := by
    rw [← zpow_natCast, ← zpow_add₀ two_ne_zero]
    rfl
  have inRange := abs_value_lt_rangeEnd vast.denotes.finite
  rw [vast.denotes.value_eq] at inRange
  refine ⟨(one_le_zpow₀ one_le_two (by decide)).trans vast.low, inRange, ?_⟩
  calc rangeEnd ≤ 2 ^ (1024 : ℤ) := sub_le_self _ (by positivity)
    _ = 2 ^ (1000 : ℤ) * 2 ^ 24 := powers
    _ ≤ top * 2 ^ 24 := mul_le_mul_of_nonneg_right vast.low (by norm_num)

/-- Where the multiple below the end is infinite, so is the last multiple. -/
theorem lastMultiple_eq_infinite (vast : IsVast stop top) {unit : ℚ} (isUnit : Denotes part unit)
    (isInfinite : floor (stop / part) * part = infinite) : lastMultiple stop part = infinite := by
  have isRest : stop - floor (stop / part) * part = -infinite := by
    rw [isInfinite]
    exact sub_infinite vast.denotes
  have notSmall : ¬ (-infinite).abs < tolerance := by decide
  have isRemainder : remainder stop part = -infinite := by
    unfold remainder
    dsimp only
    rw [isRest, neg_infinite_sub isUnit, if_neg notSmall]
  rw [lastMultiple, isRemainder]
  exact sub_neg_infinite vast.denotes

/-- The end less a number that is hardly negative is infinite or not far before the end. -/
theorem sub_cases (vast : IsVast stop top) {rest : Float}
    (isRest : Between (-top) (top / 4) rest) :
    stop - rest = infinite ∨ Between (top / 2) rangeEnd (stop - rest) := by
  obtain ⟨long, inRange, -⟩ := vast.bounds
  have restLow := isRest.low_le
  have restHigh := isRest.le_high
  rcases lt_or_ge (top - value rest) rangeEnd with fits | past
  · right
    have bound : |top - value rest| ≤ 2 * top := abs_le.mpr ⟨by linarith, by linarith⟩
    have rounds := roundsTo_sub vast.denotes.finite isRest.finite
      (by rw [vast.denotes.value_eq, abs_of_nonneg (by linarith)]; exact fits)
    rw [vast.denotes.value_eq] at rounds
    obtain ⟨low, -⟩ := rounds.bounds (by linarith) bound
    exact ⟨rounds.finite, by linarith,
      (le_abs_self _).trans (abs_value_lt_rangeEnd rounds.finite).le⟩
  · left
    have same : stop - rest = stop + -rest :=
      eq_of_toModel (toModel_sub vast.denotes.finite isRest.finite)
    have less := (le_abs_self top).trans_lt inRange
    rw [same]
    exact add_eq_infinite vast.denotes isRest.denotes.neg (by linarith) (by linarith) (by linarith)

/-- The last multiple of a small step is infinite or not far before the end. -/
theorem lastMultiple_cases (vast : IsVast stop top)
    (isPart : Between (top / 12 ^ 5) (top / 500) part) :
    lastMultiple stop part = infinite ∨
      Between (top / 2) rangeEnd (lastMultiple stop part) := by
  obtain ⟨long, inRange, -⟩ := vast.bounds
  have partLow := isPart.low_le
  have partHigh := isPart.le_high
  have positive : 0 < value part := by linarith
  have scaled : top / value part * value part = top := div_mul_cancel₀ _ positive.ne'
  have ratioLow : 500 ≤ top / value part := by
    rw [le_div_iff₀ positive]
    linarith
  have ratioHigh : top / value part ≤ 12 ^ 5 := by
    rw [div_le_iff₀ positive]
    linarith
  have ratioBound : |top / value part| ≤ 12 ^ 5 := abs_le.mpr ⟨by linarith, ratioHigh⟩
  have quotient := vast.denotes.div isPart.denotes positive.ne' (ratioBound.trans (by norm_num))
  obtain ⟨quotientLow, quotientHigh⟩ := quotient.bounds (by norm_num) ratioBound
  have floored := denotes_floor quotient.denotes_value
  obtain ⟨countLow, countHigh⟩ := Int.floor_eq_iff.mp (Eq.refl ⌊value (stop / part)⌋)
  generalize ⌊value (stop / part)⌋ = count at floored countLow countHigh
  have productLow : top * (9 / 10) ≤ count * value part := by
    have scaledLow := mul_le_mul_of_nonneg_right
      (by linarith : top / value part - 2 ≤ count) positive.le
    rw [sub_mul, scaled] at scaledLow
    linarith
  have productHigh : count * value part ≤ top * (11 / 10) := by
    have scaledHigh := mul_le_mul_of_nonneg_right
      (by linarith : count ≤ top / value part + 1) positive.le
    rw [add_mul, scaled] at scaledHigh
    linarith
  have countPositive : (0 : ℚ) < count := by linarith
  rcases mul_cases floored isPart.denotes countPositive positive with isInfinite | product
  · exact .inl (vast.lastMultiple_eq_infinite isPart.denotes isInfinite)
  · have bound : |count * value part| ≤ 2 * top := abs_le.mpr ⟨by linarith, by linarith⟩
    obtain ⟨multipleLow, multipleHigh⟩ := product.bounds (by linarith) bound
    have restBound : |top - value (floor (stop / part) * part)| ≤ top / 5 :=
      abs_le.mpr ⟨by linarith, by linarith⟩
    have rest := roundsTo_sub vast.denotes.finite product.finite
      (by rw [vast.denotes.value_eq]; exact restBound.trans_lt (by linarith [le_abs_self top]))
    rw [vast.denotes.value_eq] at rest
    have restWithin : |top - value (floor (stop / part) * part)| ≤ top :=
      restBound.trans (by linarith)
    obtain ⟨restLow, restHigh⟩ := rest.bounds long restWithin
    obtain ⟨restLeast, restMost⟩ := abs_le.mp restBound
    apply vast.sub_cases
    unfold remainder
    dsimp only
    split
    · exact ⟨denotes_zero.finite, by rw [denotes_zero.value_eq]; linarith,
        by rw [denotes_zero.value_eq]; linarith⟩
    · exact ⟨rest.finite, by linarith, by linarith⟩

/-- The ticks at tenths of a small step are too many. -/
theorem tooMany_tenths (vast : IsVast stop top)
    (isStep : Between (top / 12 ^ 4) (top / 60) step) : tooMany 0.0 stop 8 step 10.0 = true := by
  obtain ⟨long, inRange, rangeHigh⟩ := vast.bounds
  have stepLow := isStep.low_le
  have stepHigh := isStep.le_high
  have positive : 0 < value step := by linarith
  have part := isStep.div denotes_ten (by decide) le_rfl (by linarith)
  have isPart : Between (top / 12 ^ 5) (top / 500) (step / 10.0) :=
    part.mono (by push_cast; linarith) (by push_cast; linarith)
  have partPositive : 0 < value (step / 10.0) := by linarith [isPart.low_le]
  have first := firstMultiple_zero isPart.denotes partPositive
  rcases vast.lastMultiple_cases isPart with isInfinite | isLast
  · have distance : infinite - 0.0 = infinite := by decide
    have tenfold : infinite * 10.0 = infinite := by decide
    have sum : 1.0 + infinite = infinite := by decide
    have rounded : Binary64.round infinite = infinite := by decide +kernel
    unfold tooMany
    dsimp only
    rw [isInfinite, first, distance, infinite_div isStep.denotes positive, tenfold, sum, rounded]
    decide
  · have lastLow := isLast.low_le
    have lastHigh := isLast.le_high
    apply tooMany_tenths_of_ratio _ (by decide)
    rw [first]
    generalize lastMultiple stop (step / 10.0) = last at *
    have distance := denotes_sub_zero isLast.denotes
    have ratioLow : ((16 : ℤ) : ℚ) ≤ value last / value step := by
      rw [le_div_iff₀ positive]
      push_cast
      linarith
    have ratioHigh : value last / value step ≤ ((2 ^ 40 : ℤ) : ℚ) := by
      rw [div_le_iff₀ positive]
      push_cast
      linarith
    have ratioBound : |value last / value step| ≤ 2 ^ 100 := by
      push_cast at ratioLow ratioHigh
      exact abs_le.mpr ⟨by linarith, by linarith⟩
    exact (distance.div isStep.denotes positive.ne' ratioBound).between ratioLow ratioHigh
      (by norm_num) (by norm_num)

theorem mul_two_lt (vast : IsVast stop top) : top * 2 < 10 ^ ((309 : Nat) : ℤ) := by
  obtain ⟨-, inRange, -⟩ := vast.bounds
  calc top * 2 ≤ rangeEnd * (2 : Nat) :=
        mul_le_mul_of_nonneg_right ((le_abs_self top).trans inRange.le) (by norm_num)
    _ ≤ 2 ^ ((1024 : Nat) : ℤ) * (2 : Nat) :=
        mul_le_mul_of_nonneg_right (sub_le_self _ (by positivity)) (by norm_num)
    _ < 10 ^ ((309 : Nat) : ℤ) := pow_mul_lt_pow (by decide +kernel)

/-- The power of ten that scales the end of the axis is near the greatest ones. -/
theorem exists_power (vast : IsVast stop top) :
    ∃ power, HasScale stop top power ∧ 300 ≤ power ∧ power ≤ 308 := by
  obtain ⟨long, inRange, -⟩ := vast.bounds
  obtain ⟨power, hasScale⟩ := vast.denotes.exists_hasScale (by linarith)
  refine ⟨power, hasScale, ?_, ?_⟩
  · by_contra few
    have high := hasScale.high
    have most : (10 : ℚ) ^ (power + 1) ≤ 10 ^ ((300 : Nat) : ℤ) :=
      zpow_le_zpow_right₀ (by norm_num) (by omega)
    have unit : (0 : ℚ) < 10 ^ (power + 1) := by positivity
    have shorter : top < top := by
      calc top ≤ 10 ^ (power + 1) * (2 : Nat) := by push_cast; linarith
        _ ≤ 10 ^ ((300 : Nat) : ℤ) * (2 : Nat) := mul_le_mul_of_nonneg_right most (by norm_num)
        _ < 2 ^ ((1000 : Nat) : ℤ) := pow_mul_lt_pow (by decide +kernel)
        _ ≤ top := vast.low
    exact shorter.false
  · by_contra many
    have low := hasScale.low
    have most : (10 : ℚ) ^ ((309 : Nat) : ℤ) ≤ 10 ^ power :=
      zpow_le_zpow_right₀ (by norm_num) (by omega)
    have unit : (0 : ℚ) < 10 ^ power := by positivity
    linarith [vast.mul_two_lt]

/-- If the axis holds eight of the power of ten, the power is not the greatest one. -/
theorem pow_mul_lt_of_reaches (vast : IsVast stop top) {power : ℤ}
    (isPower : Between (10 ^ power * (1 - 1 / 2 ^ 40)) (10 ^ power * (1 + 1 / 2 ^ 40))
      (powerOfTen power)) (high : top ≤ 10 ^ power * 11) (few : power ≤ 308)
    (reaches : Float.ofNat 8 < 1.0 + floor (stop / powerOfTen power)) :
    10 ^ power * 11 < rangeEnd := by
  obtain ⟨long, inRange, -⟩ := vast.bounds
  have powerLow := isPower.low_le
  have powerHigh := isPower.le_high
  have unit : (0 : ℚ) < 10 ^ power := by linarith
  have positive : 0 < value (powerOfTen power) := by linarith
  have ratioNonneg : 0 ≤ top / value (powerOfTen power) := div_nonneg (by linarith) positive.le
  have ratioHigh : top / value (powerOfTen power) ≤ 12 := by
    rw [div_le_iff₀ positive]
    linarith
  have ratioBound : |top / value (powerOfTen power)| ≤ 12 := abs_le.mpr ⟨by linarith, ratioHigh⟩
  have quotient := vast.denotes.div isPower.denotes positive.ne' (ratioBound.trans (by norm_num))
  obtain ⟨quotientLow, quotientHigh⟩ := quotient.bounds (by norm_num) ratioBound
  have floored := denotes_floor quotient.denotes_value
  have floorLow : -2 ≤ ⌊value (stop / powerOfTen power)⌋ :=
    Int.le_floor.mpr (by push_cast; linarith)
  have floorHigh : ⌊value (stop / powerOfTen power)⌋ ≤ 13 :=
    Int.floor_le_iff.mpr (by push_cast; linarith)
  have sum := denotes_one.add_whole floored (abs_le.mpr ⟨by omega, by omega⟩)
  rw [(denotes_ofNat (by decide)).lt_iff sum, Int.cast_lt] at reaches
  have many : ((8 : ℤ) : ℚ) ≤ value (stop / powerOfTen power) := Int.le_floor.mp (by omega)
  push_cast at many
  have multiple : 7 * value (powerOfTen power) ≤ top := by
    rw [← le_div_iff₀ positive]
    linarith
  have less : power ≤ 307 := by
    by_contra greatest
    have next : (10 : ℚ) ^ ((309 : Nat) : ℤ) = 10 ^ power * 10 := by
      rw [← zpow_add_one₀ (by norm_num)]
      congr 1
      omega
    linarith [vast.mul_two_lt]
  exact pow_mul_lt_rangeEnd less (by decide +kernel)

/-- The search for a step ends, and its step is comparable to the length of the axis. -/
theorem exists_spacing (vast : IsVast stop top) :
    ∃ found, spacing 0.0 stop 8 = some found ∧ IsComparable top found := by
  obtain ⟨long, inRange, rangeHigh⟩ := vast.bounds
  have length : stop - 0.0 = stop :=
    (denotes_sub_zero vast.denotes).unique vast.denotes (by linarith)
  obtain ⟨power, hasScale, many, few⟩ := vast.exists_power
  have low := hasScale.low
  have high := hasScale.high
  have unit : (1 : ℚ) ≤ 10 ^ power := one_le_zpow₀ (by norm_num) (by omega)
  rw [zpow_add_one₀ (by norm_num)] at high
  have regular : power ∉ raisedExponents := by
    simp only [raisedExponents, List.mem_cons, List.not_mem_nil, or_false]
    omega
  have fits : (10 : ℚ) ^ power * (1 : Nat) < rangeEnd := pow_mul_lt_rangeEnd few (by decide +kernel)
  rw [Nat.cast_one, mul_one] at fits
  have rounds := roundsTo_powerOfTen regular fits
  have within : |(10 : ℚ) ^ power| ≤ 10 ^ power := (abs_of_nonneg (by linarith)).le
  obtain ⟨powerLow, powerHigh⟩ := rounds.bounds unit within
  have isPower : Between (10 ^ power * (1 - 1 / 2 ^ 40)) (10 ^ power * (1 + 1 / 2 ^ 40))
      (powerOfTen power) := ⟨rounds.finite, by linarith, by linarith⟩
  rw [← length] at hasScale
  have isLevel : IsLevel top 0 (coarse (stop - 0.0) 8) :=
    isLevel_coarse hasScale isPower long fun reaches => by
      rw [length] at reaches
      exact vast.pow_mul_lt_of_reaches isPower (by linarith) few reaches
  exact exists_spacing_isComparable isLevel long fun _ isStep => vast.tooMany_tenths isStep

section Ticks

variable {offset next : Float} {grain last : Float}

/-- The size of a number for the loop over the ticks, above all others if it is infinite. -/
def extent (number : Float) : ℚ :=
  if number.isFinite then value number else rangeEnd

/-- The loop does not go on from infinity. -/
theorem advanced_infinite (last : Float) (spacing : Spacing) :
    advanced 0.0 last spacing infinite = none := by
  apply if_neg
  rcases sub_infinite_cases last with isNaN | isBelow
  · rw [isNaN]
    decide
  · rw [isBelow]
    decide

/-- A position is its offset or more. -/
theorem aligned_cases (isOffset : Denotes offset (value offset)) (nonneg : 0 ≤ value offset)
    (isGrain : Denotes grain (value grain)) (positive : 0 < value grain) :
    aligned grain offset = infinite ∨
      (aligned grain offset).isFinite = true ∧ value offset ≤ value (aligned grain offset) := by
  unfold aligned
  split
  · refine (add_cases isOffset isGrain nonneg positive).imp_right fun rounds => ?_
    exact ⟨rounds.finite, rounds.le_value isOffset.representable (by linarith)⟩
  · exact .inr ⟨isOffset.finite, le_rfl⟩

/-- Offsets that are infinite, or neither negative nor infinite. -/
def IsOffset (offset : Float) : Prop :=
  offset = infinite ∨ offset.isFinite = true ∧ 0 ≤ value offset

/-- The loop goes on with a greater offset. -/
theorem advanced_increases (vast : IsVast stop top) (isComparable : IsComparable top found)
    (isOffset : IsOffset offset) (isNext : advanced 0.0 last found offset = some next) :
    IsOffset next ∧ extent offset < extent next := by
  obtain ⟨long, inRange, rangeHigh⟩ := vast.bounds
  obtain ⟨isStep, isGrain⟩ := isComparable
  have stepLow := isStep.low_le
  have grainLow := isGrain.low_le
  rcases isOffset with rfl | ⟨finite, nonneg⟩
  · rw [advanced_infinite] at isNext
    contradiction
  · unfold advanced at isNext
    split at isNext
    next goesOn =>
      obtain rfl := Option.some.inj isNext
      have offsetHigh := (le_abs_self _).trans_lt (abs_value_lt_rangeEnd finite)
      have atInfinity : extent offset < extent infinite := by
        rw [extent, if_pos finite, extent, isFinite_infinite]
        exact offsetHigh
      rcases aligned_cases ⟨finite, rfl⟩ nonneg isGrain.denotes (by linarith) with
        isInfinite | ⟨alignedFinite, behind⟩
      · rw [isInfinite, infinite_add isStep.denotes]
        exact ⟨.inl rfl, atInfinity⟩
      · have isAligned : Denotes (aligned found.grain offset) _ := ⟨alignedFinite, rfl⟩
        rcases add_cases isAligned isStep.denotes (by linarith) (by linarith) with
          isInfinite | rounds
        · rw [isInfinite]
          exact ⟨.inl rfl, atInfinity⟩
        · have alignedHigh := (le_abs_self _).trans_lt (abs_value_lt_rangeEnd alignedFinite)
          have stepHigh := (le_abs_self _).trans_lt (abs_value_lt_rangeEnd isStep.finite)
          have bound : |value (aligned found.grain offset) + value found.step| ≤ top * 2 ^ 25 :=
            abs_le.mpr ⟨by linarith, by linarith⟩
          obtain ⟨low, -⟩ := rounds.bounds (by linarith) bound
          refine ⟨.inr ⟨rounds.finite, by linarith⟩, ?_⟩
          rw [extent, if_pos finite, extent, if_pos rounds.finite]
          linarith
    next => exact nomatch isNext

/-- An axis to the end of the range has ticks. -/
theorem ticks_ne_none (vast : IsVast stop top) : ticks 0.0 stop 8 ≠ none := by
  intro isNone
  obtain ⟨-, endless | ⟨found, base, isFound, rfl, endless⟩⟩ := ticks_eq_none_iff.mp isNone
  · obtain ⟨found, isFound, -⟩ := vast.exists_spacing
    rw [← spacing_eq_none_iff, isFound] at endless
    contradiction
  · obtain ⟨_, isSpacing, isComparable⟩ := vast.exists_spacing
    obtain rfl := Option.some.inj (isFound.symm.trans isSpacing)
    obtain ⟨long, -, -⟩ := vast.bounds
    have stepLow := isComparable.step.low_le
    have first := firstMultiple_zero isComparable.step.denotes (by linarith)
    have base := floor_zero_mul isComparable.grain.denotes (by linarith [isComparable.grain.low_le])
    have offset : (0.0 - 0.0 : Float) = 0.0 := by decide
    rw [first, base, offset] at endless
    exact not_endless_of_increases extent IsOffset
      (.inr ⟨denotes_zero.finite, denotes_zero.value_eq.ge⟩)
      (fun _ _ isOffset isNext => vast.advanced_increases isComparable isOffset isNext) endless

end Ticks

end IsVast

end Axis
end ThroughputCharts

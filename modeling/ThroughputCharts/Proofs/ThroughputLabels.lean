import ThroughputCharts.Proofs.FiniteMeans
import ThroughputCharts.Proofs.ScientificLabels
import ThroughputCharts.Proofs.ThreadLabels
import ThroughputCharts.Proofs.ThroughputTicks

/-!
# The labels of a throughput axis

In scientific notation the ticks of a throughput axis always have different labels.  Whole units,
thousands and tenths of millions tell them apart just where the step is not finer than the unit that is
shown: not below four, and not everywhere from 1200 up to 4000, where steps of 200 and 500 are shown in
thousands.
-/

namespace ThroughputCharts

open Binary64

namespace Axis

open Chart Decimal

section Ticks

variable {stop position other : Float} {top exact : ℚ} {count index : Nat} {extent : Extent}
  {label : Float → String}

/-- Positions up to the end of a throughput axis are on its pixels. -/
theorem IsThroughputEnd.isVisible (isEnd : IsThroughputEnd stop top)
    (narrow : extent.length < 2 ^ 32) (isPosition : Denotes position exact) (nonneg : 0 ≤ exact)
    (atMost : exact ≤ top) : Axis.isVisible 0.0 stop extent position = true := by
  have apart := denotes_zero.beq_eq_false isEnd.denotes isEnd.pos
  have positive := isEnd.pos
  have shareLow : 0 ≤ exact / top := by positivity
  have shareHigh : exact / top ≤ 1 := (div_le_one positive).mpr atMost
  have share := (denotes_sub_zero isPosition).div (denotes_sub_zero isEnd.denotes) positive.ne'
    (abs_le.mpr ⟨by linarith, by linarith⟩ : |exact / top| ≤ 2 ^ 100)
  have valueHigh := share.value_le denotes_unit.representable shareHigh
  exact isVisible_of_share apart narrow share.denotes_value
    (share.le_value denotes_zero.representable shareLow) (by linarith)

/-- The visible ticks of a throughput axis that has any. -/
def shownTicks (stop : Float) (extent : Extent) : List Float :=
  (visibleTicks (0.0, stop) throughputTickLimit extent).getD []

/-- The labels of the visible ticks of a throughput axis. -/
def tickLabels (label : Float → String) (stop : Float) (extent : Extent) : List String :=
  (shownTicks stop extent).map label

theorem IsTickCount.visibleTicks_eq (isCount : IsTickCount stop count) :
    visibleTicks (0.0, stop) throughputTickLimit extent =
      some (((List.range count).map (tickAt (throughputSpacing stop).step)).filter
        (Axis.isVisible 0.0 stop extent)) := by
  have isTicks : ticks 0.0 stop throughputTickLimit = _ := isCount.ticks_eq
  rw [visibleTicks, isTicks, Option.map_some]

theorem IsTickCount.shownTicks_eq (isCount : IsTickCount stop count) :
    shownTicks stop extent =
      ((List.range count).map (tickAt (throughputSpacing stop).step)).filter
        (Axis.isVisible 0.0 stop extent) := by
  rw [shownTicks, isCount.visibleTicks_eq, Option.getD_some]

theorem IsThroughputEnd.visibleTicks_eq (isEnd : IsThroughputEnd stop top) :
    visibleTicks (0.0, stop) throughputTickLimit extent = some (shownTicks stop extent) := by
  obtain ⟨count, isCount⟩ := isEnd.exists_isTickCount
  rw [isCount.visibleTicks_eq, isCount.shownTicks_eq]

/-- The visible ticks have different labels if all of them have. -/
theorem IsTickCount.nodup_labels (isCount : IsTickCount stop count)
    (distinct : ∀ first second, first < second → second < count →
      label (tickAt (throughputSpacing stop).step first) ≠
        label (tickAt (throughputSpacing stop).step second)) :
    (tickLabels label stop extent).Nodup := by
  have all : (((List.range count).map (tickAt (throughputSpacing stop).step)).map label).Nodup := by
    rw [List.map_map]
    refine List.Nodup.map_on (fun first firstMember second secondMember same => ?_) List.nodup_range
    rw [List.mem_range] at firstMember secondMember
    rcases lt_trichotomy first second with less | equal | greater
    · exact absurd same (distinct first second less secondMember)
    · exact equal
    · exact absurd same.symm (distinct second first greater firstMember)
  rw [tickLabels, isCount.shownTicks_eq]
  exact all.sublist (List.filter_sublist.map label)

theorem IsTickCount.mem_shownTicks (isCount : IsTickCount stop count) (isTick : index < count)
    (visible : Axis.isVisible 0.0 stop extent (tickAt (throughputSpacing stop).step index) = true) :
    tickAt (throughputSpacing stop).step index ∈ shownTicks stop extent := by
  rw [isCount.shownTicks_eq]
  exact List.mem_filter.mpr ⟨List.mem_map_of_mem (List.mem_range.mpr isTick), visible⟩

/-- Two visible ticks with one label. -/
theorem not_nodup_labels (member : position ∈ shownTicks stop extent)
    (otherMember : other ∈ shownTicks stop extent)
    (less : value position < value other) (same : label position = label other) :
    ¬ (tickLabels label stop extent).Nodup := by
  intro distinct
  rw [List.inj_on_of_nodup_map distinct member otherMember same] at less
  exact lt_irrefl _ less

/-- The ticks of a throughput axis ascend. -/
theorem IsThroughputEnd.pairwise_shownTicks (isEnd : IsThroughputEnd stop top) :
    (shownTicks stop extent).Pairwise (· < ·) := by
  obtain ⟨place, parts, isStep⟩ := isEnd.exists_isThroughputStep
  obtain ⟨count, isCount⟩ := isEnd.exists_isTickCount
  rw [isCount.shownTicks_eq]
  apply List.Pairwise.filter
  rw [List.pairwise_map]
  refine List.Pairwise.imp_of_mem (fun {first second} _ member less => ?_) List.pairwise_lt_range
  obtain ⟨few, -⟩ := isCount.goesOn second (List.mem_range.mp member)
  have finite := (isStep.tickAt_near isEnd (by omega : first ≤ 20)).1
  have otherFinite := (isStep.tickAt_near isEnd (by omega : second ≤ 20)).1
  exact (lt_iff_value_lt finite otherFinite).mpr (isStep.tickAt_lt isEnd less (by omega))

end Ticks

section Shown

variable {number : Float} {shown exact : ℚ} {whole : Nat}

/-- Whole units below a thousand and whole thousands are shown as they are. -/
def IsPlain (whole : Nat) : Prop :=
  whole < 1000 ∨ 1000 ∣ whole

theorem Shows.eq_of_isPlain (shows : Shows number shown) (denotes : Denotes number (whole : ℤ))
    (small : whole < 1000000) (plain : IsPlain whole) : shown = whole := by
  have isValue := denotes.value_eq
  have exactly {other wanted : ℤ} (nearest : NearestEven other (wanted : ℤ)) : other = wanted :=
    le_antisymm (nearest.le (nearestEven_intCast wanted) le_rfl)
      ((nearestEven_intCast wanted).le nearest le_rfl)
  cases shows with
  | units below nearest =>
      rw [isValue] at nearest
      rw [exactly nearest, Int.cast_natCast]
  | thousands above below nearest =>
      rw [isValue, Int.cast_natCast] at above
      have many : 1000 ≤ whole := by exact_mod_cast above
      obtain ⟨thousands, rfl⟩ := plain.resolve_left (not_lt.mpr many)
      have isQuotient : (((1000 * thousands : Nat) : ℤ) : ℚ) / ((1000 : ℤ) : ℚ) = (thousands : ℤ) := by
        push_cast
        rw [mul_div_cancel_left₀ _ (by norm_num)]
      have bound : |(thousands : ℤ)| ≤ 2 ^ 53 := abs_le.mpr ⟨by omega, by omega⟩
      have quotient := denotes.div denotes_thousand (by norm_num)
        (by rw [isQuotient]; exact abs_intCast_le bound)
      rw [isQuotient] at quotient
      rw [quotient.value_eq (representable_intCast bound)] at nearest
      rw [exactly nearest]
      push_cast
      ring
  | millions above =>
      rw [isValue, Int.cast_natCast] at above
      have many : 1000000 ≤ whole := by exact_mod_cast above
      omega

/-- What a label shows is half a tenth of a million off at most, up to the error of the division. -/
theorem Shows.abs_sub_le (shows : Shows number shown) (finite : number.isFinite = true)
    (nonneg : 0 ≤ value number) : |shown - value number| ≤ 50000 + value number / 2 ^ 40 := by
  have quotientNear {divisor : Float} {whole : ℤ} (isUnit : Denotes divisor whole)
      (positive : 1 ≤ whole) (above : whole ≤ value number) :
      |value (number / divisor) * whole - value number| ≤ value number / 2 ^ 53 := by
    have castPositive : (1 : ℚ) ≤ whole := by exact_mod_cast positive
    have unit : (0 : ℚ) < whole := by linarith
    have large : (2 : ℚ) ^ (-1022 : ℤ) ≤ value number / whole :=
      (zpow_le_one_of_nonpos₀ one_le_two (by decide)).trans ((one_le_div unit).mpr above)
    have near := (roundsTo_div_unit finite isUnit positive).abs_sub_le_div large
      (abs_of_nonneg (by positivity)).le
    calc |value (number / divisor) * whole - value number|
        = |(value (number / divisor) - value number / whole) * whole| := by
          rw [sub_mul, div_mul_cancel₀ _ unit.ne']
      _ = |value (number / divisor) - value number / whole| * whole := by rw [abs_mul, abs_of_pos unit]
      _ ≤ value number / whole / 2 ^ 53 * whole := mul_le_mul_of_nonneg_right near unit.le
      _ = value number / 2 ^ 53 := by field_simp
  cases shows with
  | units below nearest =>
      have near := nearest.abs_sub_le
      linarith
  | thousands above below nearest =>
      have near := abs_le.mp nearest.abs_sub_le
      have division := abs_le.mp (quotientNear denotes_thousand (by decide) (by push_cast; linarith))
      push_cast at division
      exact abs_le.mpr ⟨by linarith, by linarith⟩
  | millions above nearest =>
      have near := abs_le.mp nearest.abs_sub_le
      have division := abs_le.mp (quotientNear denotes_million (by decide) (by push_cast; linarith))
      push_cast at division
      exact abs_le.mpr ⟨by linarith, by linarith⟩

/-- Labels that show different numbers are different. -/
theorem throughputLabel_ne {other : Float} {otherShown : ℚ}
    (read : readLabel? (throughputLabel number) = some shown)
    (otherRead : readLabel? (throughputLabel other) = some otherShown) (different : shown ≠ otherShown) :
    throughputLabel number ≠ throughputLabel other := by
  intro same
  rw [same, otherRead] at read
  exact different (Option.some.inj read).symm

/-- Up to a half, zero is shown. -/
theorem throughputLabel_of_le_half (denotes : Denotes number exact) (positive : 0 < exact)
    (small : exact ≤ 1 / 2) : throughputLabel number = "0" := by
  obtain ⟨magnitude, isParts, isValue⟩ := denotes.exists_parts positive
  rw [magnitude.toRat_eq_div] at isValue
  have isRounded : roundDiv magnitude.numerator magnitude.denominator = 0 := by
    apply roundDiv_eq_of_within magnitude.denominator_pos
    rw [isValue, Nat.cast_zero]
    exact ⟨by linarith, by linarith, fun odd => absurd rfl odd⟩
  have notMillion : ¬ million ≤ number := by
    rw [million_le_iff denotes.finite, denotes.value_eq]
    linarith
  have notThousand : ¬ thousand ≤ number := by
    rw [thousand_le_iff denotes.finite, denotes.value_eq]
    linarith
  rw [throughputLabel, if_neg notMillion, if_neg notThousand, fixedText_zero isParts, isRounded]
  rfl

end Shown

section Whole

variable {top : ℚ} {exponent unit : Nat} {spacing : Spacing}

/-- The power of ten that a whole step is a part of is comparable to the end of the axis. -/
theorem IsWholeStep.power_bounds (isWhole : IsWholeStep top exponent unit spacing) :
    top < 8 * 10 ^ exponent ∧ 4 * 10 ^ exponent ≤ 5 * top := by
  have positive : (0 : ℚ) < unit := by exact_mod_cast isWhole.unit_pos
  have fits := isWhole.fits
  rcases isWhole.least with ⟨isUnit, low⟩ | ⟨isUnit, low⟩ | ⟨isUnit, low⟩
  · rw [isUnit] at fits
    push_cast at fits
    exact ⟨fits, by linarith⟩
  · have castUnit : (unit : ℚ) * 2 = 10 ^ exponent := by exact_mod_cast isUnit
    exact ⟨by linarith, by linarith⟩
  · have castUnit : (unit : ℚ) * 5 = 10 ^ exponent := by exact_mod_cast isUnit
    exact ⟨by linarith, by linarith⟩

theorem IsWholeStep.exponent_eq (isWhole : IsWholeStep top exponent unit spacing) (low : 1000 ≤ top)
    (high : top < 4000) : exponent = 3 := by
  obtain ⟨below, above⟩ := isWhole.power_bounds
  have less : (10 : ℚ) ^ exponent < 10 ^ 4 := by linarith
  have greater : (10 : ℚ) ^ 2 < 10 ^ exponent := by linarith
  have := (pow_lt_pow_iff_right₀ (by norm_num)).mp less
  have := (pow_lt_pow_iff_right₀ (by norm_num)).mp greater
  omega

/-- From a thousand up to 1600 the ticks are 200 apart. -/
theorem IsWholeStep.unit_eq_twoHundred (isWhole : IsWholeStep top exponent unit spacing)
    (low : 1000 ≤ top) (high : top < 1600) : unit = 200 := by
  obtain rfl := isWhole.exponent_eq low (by linarith)
  rcases isWhole.least with ⟨-, least⟩ | ⟨-, least⟩ | ⟨isUnit, -⟩
  · linarith
  · linarith
  · omega

/-- From 1600 up to four thousand the ticks are 500 apart. -/
theorem IsWholeStep.unit_eq_fiveHundred (isWhole : IsWholeStep top exponent unit spacing)
    (low : 1600 ≤ top) (high : top < 4000) : unit = 500 := by
  obtain rfl := isWhole.exponent_eq (by linarith) high
  rcases isWhole.least with ⟨-, least⟩ | ⟨isUnit, -⟩ | ⟨isUnit, -⟩
  · linarith
  · omega
  · have fits := isWhole.fits
    have isFifth : unit = 200 := by omega
    rw [isFifth] at fits
    push_cast at fits
    linarith

/-- From four thousand on the ticks are whole thousands apart. -/
theorem IsWholeStep.thousand_dvd_unit (isWhole : IsWholeStep top exponent unit spacing)
    (low : 4000 ≤ top) : 1000 ∣ unit := by
  obtain ⟨below, -⟩ := isWhole.power_bounds
  have greater : (10 : ℚ) ^ 2 < 10 ^ exponent := by linarith
  have several := (pow_lt_pow_iff_right₀ (by norm_num)).mp greater
  have castLarge : ((500 : Nat) : ℚ) < unit := by
    push_cast
    linarith [isWhole.fits]
  have large : 500 < unit := by exact_mod_cast castLarge
  obtain ⟨more, rfl⟩ : ∃ more, exponent = 3 + more := ⟨exponent - 3, by omega⟩
  have power : 10 ^ (3 + more) = 1000 * 10 ^ more := pow_add 10 3 more
  rcases Nat.eq_zero_or_pos more with rfl | positive
  · rcases isWhole.least with ⟨isUnit, -⟩ | ⟨isUnit, -⟩ | ⟨isUnit, -⟩ <;> omega
  · obtain ⟨rest, rfl⟩ : ∃ rest, more = rest + 1 := ⟨more - 1, by omega⟩
    rw [pow_succ] at power
    rcases isWhole.least with ⟨isUnit, -⟩ | ⟨isUnit, -⟩ | ⟨isUnit, -⟩ <;> omega

end Whole

section Distinct

variable {stop : Float} {top : ℚ} {exponent unit : Nat} {extent : Extent}

/-- Ticks at numbers that are shown as they are have different labels. -/
theorem IsWholeStep.nodup_labels (isWhole : IsWholeStep top exponent unit (throughputSpacing stop))
    (isEnd : IsThroughputEnd stop top) (small : top < 1000000)
    (plain : ∀ index : Nat, ((index * unit : Nat) : ℚ) ≤ top → IsPlain (index * unit)) :
    (tickLabels throughputLabel stop extent).Nodup := by
  obtain ⟨count, isCount⟩ := isEnd.exists_isTickCount
  have read {index : Nat} (isTick : index < count) :
      readLabel? (throughputLabel (tickAt (throughputSpacing stop).step index)) =
        some ((index * unit : Nat) : ℚ) := by
    have within := (isWhole.lt_count_iff isEnd isCount).mp isTick
    obtain ⟨few, -⟩ := isCount.goesOn index isTick
    have denotes := isWhole.denotes_tickAt (by omega : index ≤ 20)
    have below : ((index * unit : Nat) : ℚ) < (1000000 : Nat) := by
      push_cast at within ⊢
      linarith
    obtain ⟨shown, read, shows⟩ := exists_readLabel?_throughputLabel denotes.finite
    rw [read, shows.eq_of_isPlain denotes (by exact_mod_cast below) (plain index within)]
  refine isCount.nodup_labels fun first second less isTick => ?_
  have different := Nat.mul_lt_mul_of_pos_right less isWhole.unit_pos
  exact throughputLabel_ne (read (less.trans isTick)) (read isTick)
    (by exact_mod_cast different.ne)

/-- From four up to 1200 the ticks are whole numbers below a thousand, or a thousand itself. -/
theorem IsThroughputEnd.nodup_labels_of_few (isEnd : IsThroughputEnd stop top) (low : 4 ≤ top)
    (high : top < 1200) :
    (tickLabels throughputLabel stop extent).Nodup := by
  obtain ⟨exponent, unit, isWhole⟩ := isEnd.exists_isWholeStep low (by linarith)
  refine isWhole.nodup_labels isEnd (by linarith) fun index within => ?_
  rcases lt_or_ge (index * unit) 1000 with few | many
  · exact .inl few
  · have castMany : ((1000 : Nat) : ℚ) ≤ (index * unit : Nat) := by exact_mod_cast many
    push_cast at castMany within
    obtain rfl := isWhole.unit_eq_twoHundred (by linarith) (by linarith)
    have castBelow : ((index * 200 : Nat) : ℚ) < (1200 : Nat) := by
      push_cast at within ⊢
      linarith
    have below : index * 200 < 1200 := by exact_mod_cast castBelow
    obtain rfl : index = 5 := by omega
    exact .inr (by decide)

/-- From four thousand up to a million the ticks are whole thousands. -/
theorem IsThroughputEnd.nodup_labels_of_thousands (isEnd : IsThroughputEnd stop top)
    (low : 4000 ≤ top) (high : top < 1000000) :
    (tickLabels throughputLabel stop extent).Nodup := by
  obtain ⟨exponent, unit, isWhole⟩ := isEnd.exists_isWholeStep (by linarith) high
  have divides := isWhole.thousand_dvd_unit low
  exact isWhole.nodup_labels isEnd high fun index _ => .inr (divides.mul_left index)

/-- From a million on a step is more than what two labels can be off together. -/
theorem IsThroughputEnd.nodup_labels_of_large (isEnd : IsThroughputEnd stop top)
    (large : 1000000 ≤ top) :
    (tickLabels throughputLabel stop extent).Nodup := by
  obtain ⟨place, parts, isStep⟩ := isEnd.exists_isThroughputStep
  obtain ⟨count, isCount⟩ := isEnd.exists_isTickCount
  have high := isStep.high
  refine isCount.nodup_labels fun first second less isTick => ?_
  obtain ⟨few, -⟩ := isCount.goesOn second isTick
  obtain ⟨finite, near⟩ := isStep.tickAt_near isEnd (by omega : first ≤ 20)
  obtain ⟨secondFinite, secondNear⟩ := isStep.tickAt_near isEnd (by omega : second ≤ 20)
  obtain ⟨shown, read, shows⟩ := exists_readLabel?_throughputLabel finite
  obtain ⟨secondShown, secondRead, secondShows⟩ := exists_readLabel?_throughputLabel secondFinite
  have shownNear := shows.abs_sub_le finite (isStep.value_tickAt_nonneg isEnd (by omega))
  have secondShownNear :=
    secondShows.abs_sub_le secondFinite (isStep.value_tickAt_nonneg isEnd (by omega))
  have castLess : (first : ℚ) + 1 ≤ second := by exact_mod_cast less
  have castFew : (second : ℚ) ≤ 20 := by exact_mod_cast (by omega : second ≤ 20)
  -- Both labels together are off by hardly more than 100000, and a step is longer than 116000.
  have unitPositive := isStep.unit_bounds.1
  have apart := mul_le_mul_of_nonneg_right castLess unitPositive.le
  have bound := mul_le_mul_of_nonneg_right castFew unitPositive.le
  rw [abs_le] at near secondNear shownNear secondShownNear
  refine throughputLabel_ne read secondRead (ne_of_lt ?_)
  linarith

/-- From 1600 up to two thousand the ticks are 0, 500, 1000 and 1500. -/
theorem IsThroughputEnd.nodup_labels_of_fiveHundred (isEnd : IsThroughputEnd stop top)
    (low : 1600 ≤ top) (high : top < 2000) :
    (tickLabels throughputLabel stop extent).Nodup := by
  obtain ⟨exponent, unit, isWhole⟩ := isEnd.exists_isWholeStep (by linarith) (by linarith)
  obtain ⟨count, isCount⟩ := isEnd.exists_isTickCount
  obtain rfl := isWhole.unit_eq_fiveHundred low (by linarith)
  have isStep : (throughputSpacing stop).step = 500.0 :=
    isWhole.isStep.unique (denotes_literal 500 (by decide) (by decide)) (by norm_num)
  have distinct : ((List.range 4).map fun index => throughputLabel (tickAt 500.0 index)).Nodup := by
    decide +kernel
  refine isCount.nodup_labels fun first second less isTick => ?_
  have within := (isWhole.lt_count_iff isEnd isCount).mp isTick
  have few : second < 4 := by
    have castFew : ((second * 500 : Nat) : ℚ) < (2000 : Nat) := by
      push_cast at within ⊢
      linarith
    have below : second * 500 < 2000 := by exact_mod_cast castFew
    omega
  rw [isStep]
  intro same
  have equal := List.inj_on_of_nodup_map distinct (List.mem_range.mpr (less.trans few))
    (List.mem_range.mpr few) same
  omega

/-- Two ticks of a whole step with one label. -/
theorem IsWholeStep.not_nodup_labels {step : Float} {first second : Nat}
    (isWhole : IsWholeStep top exponent unit (throughputSpacing stop))
    (isEnd : IsThroughputEnd stop top) (narrow : extent.length < 2 ^ 32)
    (isStep : Denotes step (unit : ℤ)) (less : first < second) (few : second ≤ 20)
    (within : ((second * unit : Nat) : ℚ) ≤ top)
    (same : throughputLabel (tickAt step first) = throughputLabel (tickAt step second)) :
    ¬ (tickLabels throughputLabel stop extent).Nodup := by
  obtain ⟨count, isCount⟩ := isEnd.exists_isTickCount
  have positive : (0 : ℚ) < (unit : ℤ) := by exact_mod_cast isWhole.unit_pos
  obtain rfl := isStep.unique isWhole.isStep positive
  have order := Nat.mul_lt_mul_of_pos_right less isWhole.unit_pos
  have member {index : Nat} (few : index ≤ 20) (within : ((index * unit : Nat) : ℚ) ≤ top) :
      tickAt (throughputSpacing stop).step index ∈ shownTicks stop extent :=
    isCount.mem_shownTicks ((isWhole.lt_count_iff isEnd isCount).mpr within)
      (isEnd.isVisible narrow (isWhole.denotes_tickAt few) (by positivity) (by exact_mod_cast within))
  have castOrder : ((first * unit : Nat) : ℚ) < (second * unit : Nat) := by exact_mod_cast order
  refine Axis.not_nodup_labels (member (by omega) (by linarith)) (member few within) ?_ same
  rw [(isWhole.denotes_tickAt (by omega : first ≤ 20)).value_eq, (isWhole.denotes_tickAt few).value_eq]
  exact_mod_cast order

/-- From 1200 up to 1600 the ticks at 1000 and 1200 are both shown as a thousand. -/
theorem IsThroughputEnd.not_nodup_labels_of_twoHundred (isEnd : IsThroughputEnd stop top)
    (narrow : extent.length < 2 ^ 32) (low : 1200 ≤ top) (high : top < 1600) :
    ¬ (tickLabels throughputLabel stop extent).Nodup := by
  obtain ⟨exponent, unit, isWhole⟩ := isEnd.exists_isWholeStep (by linarith) (by linarith)
  obtain rfl := isWhole.unit_eq_twoHundred (by linarith) high
  have isStep : Denotes 200.0 ((200 : Nat) : ℤ) := denotes_literal 200 (by decide) (by decide)
  exact isWhole.not_nodup_labels isEnd narrow isStep (by decide : 5 < 6) (by decide)
    (by push_cast; linarith) (by decide +kernel)

/-- From two thousand up to four thousand the ticks at 1500 and 2000 are both shown as two thousand. -/
theorem IsThroughputEnd.not_nodup_labels_of_fiveHundred (isEnd : IsThroughputEnd stop top)
    (narrow : extent.length < 2 ^ 32) (low : 2000 ≤ top) (high : top < 4000) :
    ¬ (tickLabels throughputLabel stop extent).Nodup := by
  obtain ⟨exponent, unit, isWhole⟩ := isEnd.exists_isWholeStep (by linarith) (by linarith)
  obtain rfl := isWhole.unit_eq_fiveHundred (by linarith) high
  have isStep : Denotes 500.0 ((500 : Nat) : ℤ) := denotes_literal 500 (by decide) (by decide)
  exact isWhole.not_nodup_labels isEnd narrow isStep (by decide : 3 < 4) (by decide)
    (by push_cast; linarith) (by decide +kernel)

/-- Below four the first two ticks are both shown as zero. -/
theorem IsThroughputEnd.not_nodup_labels_of_small (isEnd : IsThroughputEnd stop top)
    (narrow : extent.length < 2 ^ 32) (high : top < 4) :
    ¬ (tickLabels throughputLabel stop extent).Nodup := by
  obtain ⟨place, parts, isStep⟩ := isEnd.exists_isThroughputStep
  obtain ⟨count, isCount⟩ := isEnd.exists_isTickCount
  obtain ⟨unitPositive, -, -⟩ := isStep.unit_bounds
  obtain ⟨last, isLast, lastLow, -⟩ := isStep.exists_denotes_lastTick isEnd
  have axisLow := isStep.low
  have axisHigh := isStep.high
  have stepPositive := isStep.isStep.value_pos (by decide)
  have isStepTick : tickAt (throughputSpacing stop).step 1 = (throughputSpacing stop).step :=
    tickAt_one isStep.isStep.denotes_value stepPositive
  have near := (abs_le.mp (isStep.isStep.near.abs_sub_le unitPositive.le (by decide))).2
  have goesOn : ∀ index ≤ 1, GoesOn stop index := by
    intro index atMost
    apply (isStep.goesOn_bounds isEnd (by omega) isLast).2
    rcases Nat.le_one_iff_eq_zero_or_eq_one.mp atMost with rfl | rfl
    · rw [tickAt, denotes_zero.value_eq]
      linarith
    · rw [isStepTick]
      linarith
  have isTick : 1 < count := isCount.lt_of_goesOn 1 goesOn
  have zeroMember := isCount.mem_shownTicks (by omega : 0 < count)
    (isEnd.isVisible narrow denotes_zero le_rfl isEnd.pos.le)
  have stepMember := isCount.mem_shownTicks isTick (by
    rw [isStepTick]
    exact isEnd.isVisible narrow isStep.isStep.denotes_value stepPositive.le (by linarith))
  have zeroLabel : throughputLabel 0.0 = "0" := by decide +kernel
  have stepLabel := throughputLabel_of_le_half isStep.isStep.denotes_value stepPositive
    (isEnd.step_le_half high)
  rw [isStepTick] at stepMember
  refine Axis.not_nodup_labels zeroMember stepMember ?_ (zeroLabel.trans stepLabel.symm)
  rw [tickAt, denotes_zero.value_eq]
  exact stepPositive

/-- The ends of a throughput axis for which whole units, thousands and tenths of millions tell its ticks
apart.  Below the tolerance of the ticks there is only one. -/
def TellsTicksApart (top : ℚ) : Prop :=
  top < 1 / 2 ^ 52 ∨ 4 ≤ top ∧ top < 1200 ∨ 1600 ≤ top ∧ top < 2000 ∨ 4000 ≤ top

theorem IsThroughputEnd.nodup_throughputLabels_iff (isEnd : IsThroughputEnd stop top)
    (narrow : extent.length < 2 ^ 32) :
    (tickLabels throughputLabel stop extent).Nodup ↔ TellsTicksApart top := by
  have least := isEnd.low
  rcases lt_or_ge top 4 with small | several
  · refine iff_of_false (isEnd.not_nodup_labels_of_small narrow small) ?_
    rintro (_ | ⟨_, _⟩ | ⟨_, _⟩ | _) <;> linarith
  rcases lt_or_ge top 1200 with few | many
  · exact iff_of_true (isEnd.nodup_labels_of_few several few) (.inr (.inl ⟨several, few⟩))
  rcases lt_or_ge top 1600 with low | high
  · refine iff_of_false (isEnd.not_nodup_labels_of_twoHundred narrow many low) ?_
    rintro (_ | ⟨_, _⟩ | ⟨_, _⟩ | _) <;> linarith
  rcases lt_or_ge top 2000 with lower | higher
  · exact iff_of_true (isEnd.nodup_labels_of_fiveHundred high lower)
      (.inr (.inr (.inl ⟨high, lower⟩)))
  rcases lt_or_ge top 4000 with hundreds | thousands
  · refine iff_of_false (isEnd.not_nodup_labels_of_fiveHundred narrow higher hundreds) ?_
    rintro (_ | ⟨_, _⟩ | ⟨_, _⟩ | _) <;> linarith
  rcases lt_or_ge top 1000000 with notLarge | large
  · exact iff_of_true (isEnd.nodup_labels_of_thousands thousands notLarge)
      (.inr (.inr (.inr thousands)))
  · exact iff_of_true (isEnd.nodup_labels_of_large large) (.inr (.inr (.inr thousands)))

end Distinct

section Scientific

variable {stop : Float} {top : ℚ} {place : ℤ} {parts : Nat} {spacing : Spacing} {extent : Extent}

/-- A step has a single digit. -/
theorem IsThroughputStep.exists_digit (isStep : IsThroughputStep top place parts spacing) :
    ∃ (digit : Nat) (exponent : ℤ), 1 ≤ digit ∧ digit ≤ 5 ∧
      (10 : ℚ) ^ place / parts = digit * 10 ^ exponent := by
  have before : (10 : ℚ) ^ place = 10 ^ (place - 1) * 10 := by
    rw [← zpow_add_one₀ (by norm_num), sub_add_cancel]
  rcases isStep.isParts with rfl | rfl | rfl
  · exact ⟨1, place, le_rfl, by decide, by push_cast; ring⟩
  · exact ⟨5, place - 1, by decide, le_rfl, by rw [before]; push_cast; ring⟩
  · exact ⟨2, place - 1, by decide, by decide, by rw [before]; push_cast; ring⟩

/-- In scientific notation every tick shows the multiple of the exact step that it stands for. -/
theorem IsThroughputStep.readScientific?_tickAt (isStep : IsThroughputStep top place parts spacing)
    (isEnd : IsThroughputEnd stop top) {index : Nat} (few : index ≤ 17) :
    readScientific? (scientificLabel (tickAt spacing.step index)) =
      some (index * ((10 : ℚ) ^ place / parts)) := by
  rcases Nat.eq_zero_or_pos index with rfl | positive
  · rw [tickAt, readScientific?_zero, Nat.cast_zero, zero_mul]
  · obtain ⟨finite, near⟩ := isStep.tickAt_near isEnd (by omega : index ≤ 20)
    obtain ⟨digit, exponent, digitPositive, digitFew, isUnit⟩ := isStep.exists_digit
    have denotes : Denotes (tickAt spacing.step index) (value (tickAt spacing.step index)) :=
      ⟨finite, rfl⟩
    have isMultiple : (index : ℚ) * (10 ^ place / parts) = (index * digit : Nat) * 10 ^ exponent := by
      rw [isUnit]
      push_cast
      ring
    rw [isMultiple] at near ⊢
    have bound : index * digit ≤ 17 * 5 := Nat.mul_le_mul few digitFew
    have decimalNonneg : (0 : ℚ) ≤ (index * digit : Nat) * 10 ^ exponent := by positivity
    exact readScientific?_scientificLabel denotes (Nat.mul_pos positive digitPositive) (by omega)
      (near.trans (by linarith))

theorem IsThroughputEnd.nodup_scientificLabels (isEnd : IsThroughputEnd stop top) :
    (tickLabels scientificLabel stop extent).Nodup := by
  obtain ⟨place, parts, isStep⟩ := isEnd.exists_isThroughputStep
  obtain ⟨count, isCount⟩ := isEnd.exists_isTickCount
  refine isCount.nodup_labels fun first second less isTick same => ?_
  obtain ⟨few, -⟩ := isCount.goesOn second isTick
  have read := isStep.readScientific?_tickAt isEnd (by omega : first ≤ 17)
  rw [same, isStep.readScientific?_tickAt isEnd few, Option.some.injEq,
    mul_left_inj' isStep.unit_bounds.1.ne'] at read
  exact less.ne' (by exact_mod_cast read)

end Scientific

end Axis

namespace Chart

variable {panel : Panel} {frame : Frame}

theorem denotes_headroom : ∃ factor, Denotes 1.1 factor ∧ 1 ≤ factor ∧ factor ≤ 2 := by
  have isParts : parts 1.1 = .finite false ⟨4953959590107546, -52⟩ := by decide +kernel
  refine ⟨_, denotes_of_parts isParts, ?_, ?_⟩ <;> norm_num [Magnitude.toRat]

/-- The end of a throughput axis is positive, and far from the end of the range if the means are. -/
theorem exists_denotes_throughputEnd {bound : ℚ} (boundPositive : 0 < bound)
    (small : 4 * bound ≤ 2 ^ (1000 : ℤ))
    (inRange : ∀ mean ∈ panel.means, mean.isFinite = true ∧ value mean ≤ bound) :
    ∃ top, Denotes (throughputEnd panel) top ∧ 0 < top ∧ top ≤ 2 ^ (1000 : ℤ) := by
  obtain ⟨greatestFinite, bounded⟩ := foldl_greater_of_isFinite denotes_zero.finite
    fun mean member => (inRange mean member).1
  have atMost : value (panel.means.foldl greater 0.0) < 2 * bound := by
    rw [bounded, denotes_zero.value_eq]
    exact ⟨by linarith, fun mean member => by linarith [(inRange mean member).2]⟩
  have order := lt_iff_value_lt denotes_zero.finite greatestFinite
  have unfolded : throughputEnd panel =
      if 0.0 < panel.means.foldl greater 0.0 then panel.means.foldl greater 0.0 * 1.1 else 1.0 := rfl
  rw [denotes_zero.value_eq] at order
  rw [unfolded]
  have power : Representable (2 ^ (1000 : ℤ)) := by
    have held := @representable_of_abs_le 1 1000 (by decide) (by decide)
    rwa [Int.cast_one, one_mul] at held
  have limit : (2 : ℚ) ^ (1000 : ℤ) < rangeEnd :=
    (zpow_le_zpow_right₀ one_le_two (by decide)).trans_lt pow_lt_rangeEnd
  have one : (1 : ℚ) ≤ 2 ^ (1000 : ℤ) := one_le_zpow₀ one_le_two (by decide)
  generalize (2 : ℚ) ^ (1000 : ℤ) = most at *
  generalize panel.means.foldl greater 0.0 = greatest at *
  split
  next positive =>
    have greatestPositive := order.mp positive
    obtain ⟨factor, isFactor, factorLow, factorHigh⟩ := denotes_headroom
    have productLow : value greatest ≤ value greatest * factor :=
      le_mul_of_one_le_right greatestPositive.le factorLow
    have productHigh : value greatest * factor ≤ most := by nlinarith
    have rounds := roundsTo_mul greatestFinite isFactor.finite (by
      rw [isFactor.value_eq, abs_of_pos (by linarith)]
      exact productHigh.trans_lt limit)
    rw [isFactor.value_eq] at rounds
    exact ⟨_, rounds.denotes_value,
      greatestPositive.trans_le (rounds.le_value (representable_value greatestFinite) productLow),
      rounds.value_le power productHigh⟩
  next => exact ⟨1, denotes_unit, one_pos, one⟩

/-- An axis that is shorter than the tolerance of the ticks has at most one, at zero. -/
theorem visibleTicks_of_short {stop : Float} {top : ℚ} (extent : Axis.Extent)
    (denotes : Denotes stop top) (positive : 0 < top) (short : top < 1 / 2 ^ 52) :
    ∃ found, visibleTicks (0.0, stop) throughputTickLimit extent = some found ∧
      found.Sublist [0.0] := by
  have near := (Axis.abs_zero_sub_lt_tolerance_iff denotes positive).mpr short
  rw [visibleTicks, Axis.ticks, if_pos near]
  exact ⟨_, rfl, List.filter_sublist⟩

theorem map_position_labelled (label : Float → String) (found : List Float) :
    (found.map fun position => (⟨position, label position⟩ : Tick)).map Tick.position = found :=
  (List.map_map ..).trans (List.map_id _)

/-- The ticks of a throughput axis ascend.  In scientific notation all of them have different labels,
and in the other style they have just where its units tell them apart. -/
theorem throughputLabels_ofPanel (frame : Frame) (panel : Panel) (narrow : frame.height < 2 ^ 32)
    (inRange : ∀ mean ∈ panel.means, mean.isFinite = true ∧ value mean ≤ 10 ^ 300) :
    ∃ ticks, throughputTicksOf frame panel = some ticks ∧
      (ticks.map Tick.position).Pairwise (· < ·) ∧
      ((ticks.map Tick.label).Nodup ↔
        panel.style.scientific = true ∨
          Axis.TellsTicksApart (value (throughputRangeOf panel).2)) := by
  have small : (4 : ℚ) * 10 ^ 300 ≤ 2 ^ (1000 : ℤ) := by
    have powers : 4 * 10 ^ 300 ≤ 2 ^ 1000 := by decide +kernel
    exact_mod_cast powers
  obtain ⟨top, denotes, positive, high⟩ :=
    exists_denotes_throughputEnd (by positivity) small inRange
  have isTop : value (throughputRangeOf panel).2 = top := denotes.value_eq
  rw [isTop]
  rcases lt_or_ge top (1 / 2 ^ 52) with short | long
  · obtain ⟨found, isVisible, single⟩ :=
      visibleTicks_of_short ⟨frame.top, frame.height⟩ denotes positive short
    refine ⟨_, labelledTicks_eq isVisible, ?_, ?_⟩
    · rw [map_position_labelled]
      exact (List.pairwise_singleton _ _).sublist single
    · rw [map_label_labelled]
      exact iff_of_true ((List.nodup_singleton _).sublist (single.map _)) (.inr (.inl short))
  · have isEnd : Axis.IsThroughputEnd (throughputEnd panel) top := ⟨denotes, long, high⟩
    refine ⟨_, labelledTicks_eq isEnd.visibleTicks_eq, ?_, ?_⟩
    · rw [map_position_labelled]
      exact isEnd.pairwise_shownTicks
    · rw [map_label_labelled, throughputLabelOf]
      cases isScientific : panel.style.scientific with
      | true => exact iff_of_true isEnd.nodup_scientificLabels (.inl rfl)
      | false =>
          simp only [Bool.false_eq_true, if_false, false_or]
          exact isEnd.nodup_throughputLabels_iff narrow

/-- A variant measured once. -/
def lonePanel (mean : Float) : Panel where
  title := "BalancedWorkload - Balanced Workload (Size=100)"
  series := [⟨"LazyList", .purple, [(1, mean)]⟩]
  style := Figure.listStyle

/-- The frame of a panel that has its figure for itself. -/
def loneFrame : Frame :=
  Frame.inside 0 0 800 400

theorem means_lonePanel {count : Nat} (small : count < 2 ^ 53) :
    ∀ mean ∈ (lonePanel (Float.ofNat count)).means,
      mean.isFinite = true ∧ 0 ≤ value mean ∧ value mean ≤ 10 ^ 300 := by
  have denotes := denotes_ofNat small
  have power : 2 ^ 53 ≤ 10 ^ 300 := by decide +kernel
  have castSmall : (count : ℚ) ≤ (10 ^ 300 : Nat) := by exact_mod_cast small.le.trans power
  intro mean member
  obtain rfl := List.mem_singleton.mp member
  rw [denotes.value_eq, Int.cast_natCast]
  exact ⟨denotes.finite, by positivity, by exact_mod_cast castSmall⟩

/-- Tens of thousands are told apart. -/
theorem throughputLabels_lonePanel :
    (loneFrame.height < 2 ^ 32 ∧ ∀ mean ∈ (lonePanel 45000.0).means,
      mean.isFinite = true ∧ value mean ≤ 10 ^ 300) ∧
    ∃ ticks, throughputTicksOf loneFrame (lonePanel 45000.0) = some ticks ∧
      (ticks.map Tick.position).Pairwise (· < ·) ∧ (ticks.map Tick.label).Nodup := by
  have narrow : loneFrame.height < 2 ^ 32 := by decide
  have isMean : (45000.0 : Float) = Float.ofNat 45000 := by decide
  have inRange : ∀ mean ∈ (lonePanel 45000.0).means, mean.isFinite = true ∧ value mean ≤ 10 ^ 300 := by
    rw [isMean]
    intro mean member
    obtain ⟨finite, -, high⟩ := means_lonePanel (by decide) mean member
    exact ⟨finite, high⟩
  have large : 4000 ≤ value (throughputRangeOf (lonePanel 45000.0)).2 := by
    have finite : (throughputRangeOf (lonePanel 45000.0)).2.isFinite = true := by decide +kernel
    have reached : 4000.0 ≤ (throughputRangeOf (lonePanel 45000.0)).2 := by decide +kernel
    have isLimit : Denotes 4000.0 ((4000 : Nat) : ℤ) := denotes_literal 4000 (by decide) (by decide)
    have bound := (isLimit.le_iff ⟨finite, rfl⟩).mp reached
    norm_num at bound
    exact bound
  obtain ⟨ticks, isTicks, ascending, labels⟩ :=
    throughputLabels_ofPanel loneFrame (lonePanel 45000.0) narrow inRange
  exact ⟨⟨narrow, inRange⟩, ticks, isTicks, ascending,
    labels.mpr (.inr (.inr (.inr (.inr large))))⟩

/-- From a thousand on, ticks that are 200 apart are shown as one thousand. -/
theorem lonePanel_repeats_labels :
    (∀ mean ∈ (lonePanel 1300.0).means, mean.isFinite = true ∧ 0 ≤ value mean ∧
      value mean ≤ 10 ^ 300) ∧
    ∃ ticks, throughputTicksOf loneFrame (lonePanel 1300.0) = some ticks ∧
      (ticks.map Tick.position).Pairwise (· < ·) ∧
      ticks.map Tick.label = ["0", "200", "400", "600", "800", "1K", "1K", "1K"] ∧
      ¬ (ticks.map Tick.label).Nodup := by
  have isMean : (1300.0 : Float) = Float.ofNat 1300 := by decide
  have drawn : ∃ ticks ∈ throughputTicksOf loneFrame (lonePanel 1300.0),
      (ticks.map Tick.position).Pairwise (· < ·) ∧
      ticks.map Tick.label = ["0", "200", "400", "600", "800", "1K", "1K", "1K"] := by
    decide +kernel
  obtain ⟨ticks, isTicks, ascending, labels⟩ := drawn
  refine ⟨isMean ▸ means_lonePanel (by decide), ticks, isTicks, ascending, labels, ?_⟩
  rw [labels]
  decide

end Chart
end ThroughputCharts

import ThroughputCharts.Chart
import ThroughputCharts.Proofs.TickMultiples

/-!
# The range of a thread axis

A thread axis goes beyond the measured counts by a margin that depends on their span alone: a half up
to a span of ten, less than one below a span of twenty, and at least one from there on.  Counts of up
to forty binary places leave room for the margin, so that the ends of the range are where they should
be up to a small error, and on a fine grid.
-/

namespace ThroughputCharts

open Binary64

namespace Chart

/-- A twentieth as it is held. -/
def twentieth : ℚ := 7205759403792794 * 2 ^ (-57 : ℤ)

theorem denotes_twentieth : Denotes 0.05 twentieth := by
  have isParts : parts 0.05 = .finite false ⟨7205759403792794, -57⟩ := by decide
  exact denotes_of_parts isParts

theorem denotes_half : Denotes 0.5 (1 / 2) := by
  have isParts : parts 0.5 = .finite false ⟨2 ^ 52, -53⟩ := by decide
  convert denotes_of_parts isParts using 1
  norm_num [Magnitude.toRat]

/-- What is beside thread counts of a given span. -/
structure IsMargin (span : Nat) (margin : ℚ) : Prop where
  representable : Representable margin
  half_le : 1 / 2 ≤ margin
  eq_half : span ≤ 10 → margin = 1 / 2
  near : 10 ≤ span → |margin - span / 20| ≤ 1 / 1000
  one_le : 20 ≤ span → 1 ≤ margin

section Margin

variable {least greatest : Float} {first span : Nat} {margin : ℚ}

theorem greater_of_lt {number other : Float} {exact bound : ℚ} (denotes : Denotes number exact)
    (otherDenotes : Denotes other bound) (less : exact < bound) : greater number other = other := by
  rw [greater, isNaN_of_isFinite denotes.finite, if_neg Bool.false_ne_true,
    if_pos ((denotes.lt_iff otherDenotes).mpr less)]

theorem greater_of_le {number other : Float} {exact bound : ℚ} (denotes : Denotes number exact)
    (otherDenotes : Denotes other bound) (atLeast : bound ≤ exact) :
    greater number other = number := by
  rw [greater, isNaN_of_isFinite denotes.finite, if_neg Bool.false_ne_true,
    if_neg (mt (denotes.lt_iff otherDenotes).mp (not_lt.mpr atLeast))]

theorem representable_half : Representable (1 / 2) :=
  denotes_half.representable

/-- A twentieth of a span under ten is less than a half. -/
theorem isMargin_half (small : span < 10) : IsMargin span (1 / 2) where
  representable := representable_half
  half_le := le_rfl
  eq_half _ := rfl
  near large := absurd large (by omega)
  one_le large := absurd large (by omega)

/-- A twentieth of a span from ten on is at least a half. -/
theorem isMargin_of_roundsTo {result : Float} (rounds : RoundsTo (span * twentieth) result)
    (large : 10 ≤ span) (small : span ≤ 127) : IsMargin span (value result) := by
  have castLarge : (10 : ℚ) ≤ span := by exact_mod_cast large
  have castSmall : (span : ℚ) ≤ 127 := by exact_mod_cast small
  have low : 10 * twentieth = 1 / 2 + 1 / 2 * 2 ^ (-54 : ℤ) := by norm_num [twentieth]
  have high : twentieth ≤ 1 / 20 + 1 / 10 ^ 9 := by norm_num [twentieth]
  have least : (1 / 20 : ℚ) ≤ twentieth := by norm_num [twentieth]
  have positive : (0 : ℚ) < 1 / 2 * 2 ^ (-54 : ℤ) := by positivity
  refine ⟨representable_value rounds.finite, ?_, fun atMost => ?_, fun _ => ?_, fun atLeast => ?_⟩
  · exact rounds.le_value representable_half (by nlinarith)
  · obtain rfl : span = 10 := by omega
    rw [Nat.cast_ofNat, low] at rounds
    exact rounds.value_eq_of_near representable_half (by norm_num) (by linarith) le_rfl
  · have bound : |(span : ℚ) * twentieth| ≤ 2 ^ 42 := by
      rw [abs_of_nonneg (by nlinarith)]
      nlinarith
    have near := abs_le.mp (rounds.abs_sub_le_small bound)
    exact abs_le.mpr ⟨by nlinarith, by nlinarith⟩
  · have castAtLeast : (20 : ℚ) ≤ span := by exact_mod_cast atLeast
    have one : Representable (1 : ℤ) := representable_intCast (by norm_num)
    rw [Int.cast_one] at one
    exact rounds.le_value one (by nlinarith)

theorem exists_denotes_threadMargin (isLeast : Denotes least ((first : ℤ) : ℚ))
    (isGreatest : Denotes greatest (((first + span : Nat) : ℤ) : ℚ)) (small : span ≤ 127) :
    ∃ margin, Denotes (threadMargin least greatest) margin ∧ IsMargin span margin := by
  have castSmall : (span : ℚ) ≤ 127 := by exact_mod_cast small
  have isSpan : ((first + span : Nat) : ℤ) - first = (span : ℤ) := by omega
  have bound : |(span : ℤ)| ≤ 2 ^ 53 := by
    rw [Nat.abs_cast]
    omega
  have difference := isGreatest.sub_whole isLeast (by rwa [isSpan])
  rw [isSpan, Int.cast_natCast] at difference
  have high : twentieth ≤ 1 / 20 + 1 / 10 ^ 9 := by norm_num [twentieth]
  have least : (0 : ℚ) ≤ twentieth := by norm_num [twentieth]
  have productBound : |(span : ℚ) * twentieth| ≤ 2 ^ 100 := by
    rw [abs_of_nonneg (by positivity)]
    nlinarith
  have product := difference.mul denotes_twentieth productBound
  unfold threadMargin
  rcases Nat.lt_or_ge span 10 with under | atLeast
  · have castUnder : (span : ℚ) ≤ 9 := by
      have : span ≤ 9 := by omega
      exact_mod_cast this
    have place : Representable ((15 : ℤ) * 2 ^ (-5 : ℤ)) :=
      representable_of_abs_le (by norm_num) (by decide)
    norm_num at place
    have below := product.value_le place (by nlinarith)
    rw [greater_of_lt product.denotes_value denotes_half (by linarith)]
    exact ⟨_, denotes_half, isMargin_half under⟩
  · have isMargin := isMargin_of_roundsTo product atLeast small
    rw [greater_of_le product.denotes_value denotes_half isMargin.half_le]
    exact ⟨_, product.denotes_value, isMargin⟩

theorem IsMargin.le (isMargin : IsMargin span margin) (small : span ≤ 127) : margin ≤ 7 := by
  have castSmall : (span : ℚ) ≤ 127 := by exact_mod_cast small
  rcases Nat.le_total span 10 with few | many
  · rw [isMargin.eq_half few]
    norm_num
  · linarith [(abs_le.mp (isMargin.near many)).2]

end Margin

/-- The ends of a thread axis in binary64: the least count less a margin, and the greatest one with the
margin added. -/
structure IsThreadRange (first span : Nat) (margin : ℚ) (start stop : Float) : Prop where
  first_lt : first < 2 ^ 40
  span_le : span ≤ 127
  isMargin : IsMargin span margin
  start : RoundsTo (first - margin) start
  stop : RoundsTo (first + span + margin) stop

namespace IsThreadRange

variable {first span : Nat} {margin : ℚ} {start stop : Float}

theorem bounds (range : IsThreadRange first span margin start stop) :
    (0 : ℚ) ≤ first ∧ (first : ℚ) ≤ 2 ^ 40 ∧ (0 : ℚ) ≤ span ∧ (span : ℚ) ≤ 127 ∧ 1 / 2 ≤ margin ∧
      margin ≤ 7 := by
  have castFirst : (first : ℚ) ≤ 2 ^ 40 := by exact_mod_cast range.first_lt.le
  have castSpan : (span : ℚ) ≤ 127 := by exact_mod_cast range.span_le
  exact ⟨by positivity, castFirst, by positivity, castSpan, range.isMargin.half_le,
    range.isMargin.le range.span_le⟩

theorem start_near (range : IsThreadRange first span margin start stop) :
    |value start - (first - margin)| ≤ 1 / 4096 := by
  obtain ⟨firstLow, firstHigh, -, -, marginLow, marginHigh⟩ := range.bounds
  exact range.start.abs_sub_le_small (abs_le.mpr ⟨by linarith, by linarith⟩)

theorem stop_near (range : IsThreadRange first span margin start stop) :
    |value stop - (first + span + margin)| ≤ 1 / 4096 := by
  obtain ⟨firstLow, firstHigh, spanLow, spanHigh, marginLow, marginHigh⟩ := range.bounds
  exact range.stop.abs_sub_le_small (abs_le.mpr ⟨by linarith, by linarith⟩)

/-- Halves in the range of the counts are held. -/
theorem representable_halves {count : ℤ} (small : |count| ≤ 2 ^ 42) : Representable (count / 2) := by
  have held : Representable (count * 2 ^ (-1 : ℤ)) :=
    representable_of_abs_le (small.trans (by norm_num)) (by decide)
  rwa [zpow_neg_one, ← div_eq_mul_inv] at held

theorem start_le (range : IsThreadRange first span margin start stop) :
    value start ≤ (2 * first - 1 : ℤ) / 2 := by
  have small := range.first_lt
  apply range.start.value_le (representable_halves (abs_le.mpr ⟨by omega, by omega⟩))
  push_cast
  linarith [range.isMargin.half_le]

theorem le_stop (range : IsThreadRange first span margin start stop) :
    ((2 * (first + span) + 1 : ℤ) / 2 : ℚ) ≤ value stop := by
  have small := range.first_lt
  have short := range.span_le
  apply range.stop.le_value (representable_halves (abs_le.mpr ⟨by omega, by omega⟩))
  push_cast
  linarith [range.isMargin.half_le]

/-- From a span of twenty on the whole number before the least count is in the range. -/
theorem start_le_pred (range : IsThreadRange first span margin start stop) (wide : 20 ≤ span) :
    value start ≤ (first - 1 : ℤ) := by
  have small := range.first_lt
  apply range.start.value_le (representable_intCast (abs_le.mpr ⟨by omega, by omega⟩))
  push_cast
  linarith [range.isMargin.one_le wide]

/-- From a span of twenty on the whole number behind the greatest count is in the range. -/
theorem succ_le_stop (range : IsThreadRange first span margin start stop) (wide : 20 ≤ span) :
    (first + span + 1 : ℤ) ≤ value stop := by
  have small := range.first_lt
  have short := range.span_le
  apply range.stop.le_value (representable_intCast (abs_le.mpr ⟨by omega, by omega⟩))
  push_cast
  linarith [range.isMargin.one_le wide]

theorem start_eq (range : IsThreadRange first span margin start stop) (narrow : span ≤ 10) :
    value start = (2 * first - 1 : ℤ) / 2 := by
  have small := range.first_lt
  have isHalf : (first : ℚ) - margin = (2 * first - 1 : ℤ) / 2 := by
    rw [range.isMargin.eq_half narrow]
    push_cast
    ring
  rw [← isHalf]
  apply range.start.value_eq
  rw [isHalf]
  exact representable_halves (abs_le.mpr ⟨by omega, by omega⟩)

theorem stop_eq (range : IsThreadRange first span margin start stop) (narrow : span ≤ 10) :
    value stop = (2 * (first + span) + 1 : ℤ) / 2 := by
  have small := range.first_lt
  have isHalf : (first : ℚ) + span + margin = (2 * (first + span) + 1 : ℤ) / 2 := by
    rw [range.isMargin.eq_half narrow]
    push_cast
    ring
  rw [← isHalf]
  apply range.stop.value_eq
  rw [isHalf]
  exact representable_halves (abs_le.mpr ⟨by omega, by omega⟩)

theorem onGrid (range : IsThreadRange first span margin start stop) {exponent : ℤ}
    (coarse : 2 ^ (52 + exponent) ≤ margin) (low : -53 ≤ exponent) (high : exponent ≤ 0) :
    OnGrid exponent (value start) ∧ OnGrid exponent (value stop) := by
  have least : leastExponent ≤ exponent := low.trans' (by decide)
  have marginOnGrid : OnGrid exponent margin :=
    range.isMargin.representable.onGrid (coarse.trans (le_abs_self margin))
  have firstOnGrid : OnGrid exponent (first : ℚ) := onGrid_intCast high first
  have spanOnGrid : OnGrid exponent (span : ℚ) := onGrid_intCast high span
  exact ⟨range.start.onGrid (firstOnGrid.sub marginOnGrid) least,
    range.stop.onGrid ((firstOnGrid.add spanOnGrid).add marginOnGrid) least⟩

theorem onGrid_narrow (range : IsThreadRange first span margin start stop) :
    OnGrid (-53) (value start) ∧ OnGrid (-53) (value stop) := by
  have half : (2 : ℚ) ^ (52 + (-53) : ℤ) = 1 / 2 := by norm_num
  exact range.onGrid (half.trans_le range.isMargin.half_le) le_rfl (by decide)

theorem onGrid_wide (range : IsThreadRange first span margin start stop) (wide : 20 ≤ span) :
    OnGrid (-52) (value start) ∧ OnGrid (-52) (value stop) := by
  have one : (2 : ℚ) ^ (52 + (-52) : ℤ) = 1 := by norm_num
  exact range.onGrid (one.trans_le (range.isMargin.one_le wide)) (by decide) (by decide)

theorem small_ends (range : IsThreadRange first span margin start stop) :
    |value start| ≤ 2 ^ 41 ∧ |value stop| ≤ 2 ^ 41 := by
  obtain ⟨firstLow, firstHigh, spanLow, spanHigh, marginLow, marginHigh⟩ := range.bounds
  obtain ⟨startLow, startHigh⟩ := abs_le.mp range.start_near
  obtain ⟨stopLow, stopHigh⟩ := abs_le.mp range.stop_near
  exact ⟨abs_le.mpr ⟨by linarith, by linarith⟩, abs_le.mpr ⟨by linarith, by linarith⟩⟩

/-- The counts themselves are in the range. -/
theorem contains_count (range : IsThreadRange first span margin start stop) {count : ℤ}
    (low : (first : ℤ) ≤ count) (high : count ≤ first + span) :
    value start ≤ count ∧ count ≤ value stop := by
  have castLow : (first : ℚ) ≤ count := by exact_mod_cast low
  have castHigh : (count : ℚ) ≤ first + span := by exact_mod_cast high
  have startLe := range.start_le
  have leStop := range.le_stop
  push_cast at startLe leStop
  constructor <;> linarith

/-- Whole numbers in the range are small enough to be held. -/
theorem abs_whole_le (range : IsThreadRange first span margin start stop) {whole : ℤ}
    (low : value start ≤ whole) (high : whole ≤ value stop) : |whole| ≤ 2 ^ 53 := by
  obtain ⟨startSmall, stopSmall⟩ := range.small_ends
  have castLow : ((-2 ^ 41 : ℤ) : ℚ) ≤ whole := by
    push_cast
    linarith [(abs_le.mp startSmall).1]
  have castHigh : (whole : ℚ) ≤ (2 ^ 41 : ℤ) := by
    push_cast
    linarith [(abs_le.mp stopSmall).2]
  rw [Int.cast_le] at castLow castHigh
  exact abs_le.mpr ⟨by omega, by omega⟩

/-- Below a span of twenty the margin is less than one. -/
theorem margin_lt (range : IsThreadRange first span margin start stop) (narrow : span < 20) :
    margin ≤ 24 / 25 := by
  have castNarrow : (span : ℚ) ≤ 19 := by
    have : span ≤ 19 := by omega
    exact_mod_cast this
  rcases Nat.le_total span 10 with few | many
  · rw [range.isMargin.eq_half few]
    norm_num
  · linarith [(abs_le.mp (range.isMargin.near many)).2]

/-- Below a span of twenty the whole numbers behind the start are those from the least count on. -/
theorem start_le_whole_iff (range : IsThreadRange first span margin start stop)
    (narrow : span < 20) (count : ℤ) : value start ≤ count ↔ (first : ℤ) ≤ count := by
  obtain ⟨startLow, startHigh⟩ := abs_le.mp range.start_near
  have atMost := range.margin_lt narrow
  have atLeast := range.isMargin.half_le
  constructor
  case mp =>
    intro above
    have less : (first : ℚ) < count + 1 := by linarith
    have castLess : (first : ℤ) < count + 1 := by exact_mod_cast less
    omega
  case mpr =>
    intro above
    have castAbove : (first : ℚ) ≤ count := by exact_mod_cast above
    linarith

/-- Below a span of twenty the whole numbers before the end are those up to the greatest count. -/
theorem whole_le_stop_iff (range : IsThreadRange first span margin start stop)
    (narrow : span < 20) (count : ℤ) : count ≤ value stop ↔ count ≤ (first + span : ℤ) := by
  obtain ⟨stopLow, stopHigh⟩ := abs_le.mp range.stop_near
  have atMost := range.margin_lt narrow
  have atLeast := range.isMargin.half_le
  constructor
  case mp =>
    intro below
    have less : (count : ℚ) < first + span + 1 := by linarith
    have castLess : count < (first + span + 1 : ℤ) := by exact_mod_cast less
    omega
  case mpr =>
    intro below
    have castBelow : (count : ℚ) ≤ first + span := by exact_mod_cast below
    linarith

/-- Multiples of one and of two are exact from a span of twenty on. -/
theorem isAligned_wide (range : IsThreadRange first span margin start stop) (wide : 20 ≤ span)
    {place : ℤ} (low : -1 ≤ place) (high : place ≤ 1) :
    Axis.IsAligned place (value start) ∧ Axis.IsAligned place (value stop) := by
  obtain ⟨startOnGrid, stopOnGrid⟩ := range.onGrid_wide wide
  obtain ⟨startSmall, stopSmall⟩ := range.small_ends
  exact ⟨Axis.isAligned_of_onGrid startOnGrid startSmall low high,
    Axis.isAligned_of_onGrid stopOnGrid stopSmall low high⟩

/-- Multiples of one are exact below a span of twenty. -/
theorem isAligned_narrow (range : IsThreadRange first span margin start stop) (narrow : span < 20) :
    Axis.IsAligned 0 (value start) ∧ Axis.IsAligned 0 (value stop) := by
  obtain ⟨startOnGrid, stopOnGrid⟩ := range.onGrid_narrow
  obtain ⟨startSmall, stopSmall⟩ := range.small_ends
  obtain ⟨startLow, startHigh⟩ := abs_le.mp range.start_near
  obtain ⟨stopLow, stopHigh⟩ := abs_le.mp range.stop_near
  have atMost := range.margin_lt narrow
  have atLeast := range.isMargin.half_le
  constructor
  · apply Axis.isAligned_of_between (first - 1) startOnGrid startSmall <;> push_cast <;>
      norm_num <;> linarith
  · apply Axis.isAligned_of_between (first + span) stopOnGrid stopSmall <;> push_cast <;>
      norm_num <;> linarith

/-- Multiples of a half are exact below a span of twenty. -/
theorem isAligned_halves (range : IsThreadRange first span margin start stop) (narrow : span < 20) :
    Axis.IsAligned (-1) (value start) ∧ Axis.IsAligned (-1) (value stop) := by
  obtain ⟨startOnGrid, stopOnGrid⟩ := range.onGrid_narrow
  obtain ⟨startSmall, stopSmall⟩ := range.small_ends
  obtain ⟨startLow, startHigh⟩ := abs_le.mp range.start_near
  obtain ⟨stopLow, stopHigh⟩ := abs_le.mp range.stop_near
  have atMost := range.margin_lt narrow
  have stopAtLeast := range.le_stop
  push_cast at stopAtLeast
  constructor
  · rcases Nat.lt_or_ge 10 span with many | few
    · have castMany : (11 : ℚ) ≤ span := by exact_mod_cast many
      have beyond := (abs_le.mp (range.isMargin.near many.le)).1
      apply Axis.isAligned_of_between (2 * first - 2) (startOnGrid.refine (by decide))
        startSmall <;> push_cast <;> norm_num <;> linarith
    · have isStart := range.start_eq few
      push_cast at isStart
      apply Axis.isAligned_of_between (2 * first - 1) (startOnGrid.refine (by decide))
        startSmall <;> push_cast <;> norm_num <;> linarith
  · apply Axis.isAligned_of_between (2 * (first + span) + 1)
      (stopOnGrid.refine (by decide)) stopSmall <;> push_cast <;> norm_num <;> linarith

end IsThreadRange

end Chart
end ThroughputCharts

import ThroughputCharts.Drawing
import ThroughputCharts.Proofs.FiniteMeans
import ThroughputCharts.Proofs.ModerateRanges
import ThroughputCharts.Proofs.ThreadLabels
import ThroughputCharts.Proofs.ThroughputTicks
import ThroughputCharts.Proofs.VastRanges

/-!
# Axes that are never worked out

The ticks of a throughput axis are found just if its end is finite, however near it is to zero or to the
end of the range.  Those of a thread axis are found for all counts of up to forty binary places.  So a
figure of such counts is drawn just if the range of each of its panels is finite.
-/

namespace ThroughputCharts

open Binary64 Float.Model

namespace Axis

/-- The search for a step stays at infinity on an axis that is infinite. -/
theorem ticks_infinite : ticks 0.0 infinite 8 = none := by
  have long : ¬ (0.0 - infinite).abs < tolerance := by decide
  have length : infinite - 0.0 = infinite := by decide
  have isScale : scale infinite = infinite := rfl
  have fits : ¬ Float.ofNat 8 < 1.0 + floor (infinite / infinite) := by decide +kernel
  have start : (coarse (infinite - 0.0) 8).step = infinite := by
    simp only [coarse, length, isScale, if_neg fits]
  have half : tooMany 0.0 infinite 8 infinite 2.0 = false := by decide +kernel
  have fifth : tooMany 0.0 infinite 8 infinite 5.0 = false := by decide +kernel
  have tenth : tooMany 0.0 infinite 8 infinite 10.0 = false := by decide +kernel
  have quotient : infinite / 10.0 = infinite := by decide
  have stays : refined 0.0 infinite 8 infinite = some infinite := by
    simp only [refined, divide, half, fifth, tenth, Bool.false_eq_true, if_false, quotient]
  refine ticks_eq_none_iff.mpr ⟨long, .inl ?_⟩
  rw [start]
  apply endless_of_repeats Nat.zero_lt_one (by rw [stateAfter])
  rw [stateAfter, stays, Option.bind_some, stateAfter]

/-- The ticks of an axis from zero on are found if its end is finite. -/
theorem ticks_zero_ne_none {stop : Float} {top : ℚ} (denotes : Denotes stop top)
    (positive : 0 < top) : ticks 0.0 stop 8 ≠ none := by
  rcases lt_or_ge top (1 / 2 ^ 52) with short | long
  · have near := (abs_zero_sub_lt_tolerance_iff denotes positive).mpr short
    rw [ticks, if_pos near]
    exact Option.some_ne_none _
  · rcases le_or_gt top (2 ^ (1000 : ℤ)) with inside | vast
    · obtain ⟨count, isCount⟩ := IsThroughputEnd.exists_isTickCount ⟨denotes, long, inside⟩
      rw [isCount.ticks_eq]
      exact Option.some_ne_none _
    · exact IsVast.ticks_ne_none ⟨denotes, vast.le⟩

end Axis

namespace Chart

section ThroughputAxis

variable {first second : Float}

/-- Positive infinity or a finite number that is not negative. -/
inductive IsGreatest (number : Float) : Prop
  | finite (isFinite : number.isFinite = true) (nonneg : 0 ≤ value number)
  | infinite (unpacked : number.toModel.unpack = .infinity .positive)

/-- What is above some number without being finite is positive infinity. -/
theorem unpack_of_lt (less : first < second) (notFinite : second.isFinite = false) :
    second.toModel.unpack = .infinity .positive := by
  have below := lt_iff_compare.mp less
  have unfolded : second.isFinite = second.toModel.unpack.isFinite := rfl
  rw [unfolded] at notFinite
  -- Nothing is below negative infinity, and nothing is comparable to what is no number.
  rcases isSecond : second.toModel.unpack with (_ | _) | _ | _ | _ <;>
    rw [isSecond] at below notFinite
  case infinity.negative | notANumber =>
    rcases isFirst : first.toModel.unpack with (_ | _) | _ | _ | _ <;>
      rw [isFirst] at below <;> simp [UnpackedFloat.compare] at below
  case zero | finite => contradiction

theorem IsGreatest.of_lt (isGreatest : IsGreatest first) (less : first < second) :
    IsGreatest second := by
  cases isGreatest with
  | infinite unpacked =>
      have below := lt_iff_compare.mp less
      rw [unpacked] at below
      rcases isSecond : second.toModel.unpack with (_ | _) | _ | _ | _ <;> rw [isSecond] at below <;>
        simp [UnpackedFloat.compare] at below
  | finite isFinite nonneg =>
      cases secondFinite : second.isFinite with
      | true =>
          have above := (lt_iff_value_lt isFinite secondFinite).mp less
          exact .finite secondFinite (nonneg.trans above.le)
      | false => exact .infinite (unpack_of_lt less secondFinite)

theorem IsGreatest.greater (isGreatest : IsGreatest first) (second : Float) :
    IsGreatest (greater first second) := by
  have isNumber : first.isNaN = false := by
    cases isGreatest with
    | finite isFinite => exact isNaN_of_isFinite isFinite
    | infinite unpacked =>
        have unfolded : first.isNaN = first.toModel.unpack.isNaN := rfl
        rw [unfolded, unpacked]
        rfl
  rw [Chart.greater, isNumber, if_neg Bool.false_ne_true]
  split
  next less => exact isGreatest.of_lt less
  next => exact isGreatest

theorem isGreatest_foldl {start : Float} (isGreatest : IsGreatest start) (numbers : List Float) :
    IsGreatest (numbers.foldl greater start) := by
  induction numbers generalizing start with
  | nil => exact isGreatest
  | cons number numbers induction => exact induction (isGreatest.greater number)

/-- The end of a throughput axis is positive, and infinite where it is not finite. -/
theorem throughputEnd_cases (panel : Panel) :
    throughputEnd panel = infinite ∨ ∃ top, Denotes (throughputEnd panel) top ∧ 0 < top := by
  have unfolded : throughputEnd panel =
      if 0.0 < panel.means.foldl greater 0.0 then panel.means.foldl greater 0.0 * 1.1
      else 1.0 := rfl
  have isGreatest := isGreatest_foldl
    (.finite denotes_zero.finite denotes_zero.value_eq.ge) panel.means
  rw [unfolded]
  generalize panel.means.foldl greater 0.0 = greatest at *
  split
  next less =>
    have isFactor : ∃ factor : ℚ, Denotes 1.1 factor ∧ 1 ≤ factor := by
      have isParts : parts 1.1 = .finite false ⟨4953959590107546, -52⟩ := by decide +kernel
      exact ⟨_, denotes_of_parts isParts, by norm_num [Magnitude.toRat]⟩
    obtain ⟨factor, isFactor, atLeast⟩ := isFactor
    cases isGreatest with
    | infinite unpacked =>
        have isProduct : (greatest * 1.1).toModel = Float.Model.pack
            (Float.Model.UnpackedFloat.mul .binary64 greatest.toModel.unpack
              (1.1 : Float).toModel.unpack) := rfl
        rw [unpacked] at isProduct
        exact .inl (eq_of_toModel isProduct)
    | finite isFinite nonneg =>
        have isGreatest : Denotes greatest (value greatest) := ⟨isFinite, rfl⟩
        have positive := (denotes_zero.lt_iff isGreatest).mp less
        have more := le_mul_of_one_le_right nonneg atLeast
        refine (mul_cases isGreatest isFactor positive (by linarith)).imp_right fun rounds => ?_
        exact ⟨_, rounds.denotes_value,
          positive.trans_le (rounds.le_value isGreatest.representable more)⟩
  next => exact .inr ⟨1, denotes_unit, one_pos⟩

theorem ticksOf_eq_none_iff {label : Float → String} {range : Float × Float} {limit : Nat}
    {extent : Axis.Extent} :
    labelledTicks label range limit extent = none ↔ Axis.ticks range.1 range.2 limit = none := by
  rw [labelledTicks, Option.map_eq_none_iff, visibleTicks, Option.map_eq_none_iff]

/-- The ticks of a throughput axis are never found just if its end is infinite. -/
theorem throughputTicksOf_eq_none_iff (frame : Frame) (panel : Panel) :
    throughputTicksOf frame panel = none ↔ (throughputEnd panel).isFinite = false := by
  rw [throughputTicksOf, ticksOf_eq_none_iff]
  change Axis.ticks 0.0 (throughputEnd panel) 8 = none ↔ _
  rcases throughputEnd_cases panel with isInfinite | ⟨top, denotes, positive⟩
  · rw [isInfinite]
    exact iff_of_true Axis.ticks_infinite isFinite_infinite
  · rw [denotes.finite]
    exact iff_of_false (Axis.ticks_zero_ne_none denotes positive) (by decide)

end ThroughputAxis

section ThreadAxis

variable {least greatest : Float} {first last : Nat}

/-- The margin of a thread axis is at least a half. -/
theorem between_threadMargin (isLeast : Denotes least ((first : ℤ) : ℚ))
    (isGreatest : Denotes greatest ((last : ℤ) : ℚ)) (ordered : first ≤ last)
    (small : last < 2 ^ 40) : Between (1 / 2) (2 ^ 37) (threadMargin least greatest) := by
  have difference := isGreatest.sub_whole isLeast (abs_le.mpr ⟨by omega, by omega⟩)
  have spanNonneg : (0 : ℚ) ≤ (last - first : ℤ) := by
    have nonneg : (0 : ℤ) ≤ last - first := by omega
    exact_mod_cast nonneg
  have spanHigh : ((last - first : ℤ) : ℚ) ≤ 2 ^ 40 := by
    have bound : (last - first : ℤ) ≤ 2 ^ 40 := by omega
    exact_mod_cast bound
  have nonneg : (0 : ℚ) ≤ twentieth := by norm_num [twentieth]
  have small : twentieth ≤ 1 / 16 := by norm_num [twentieth]
  have productNonneg := mul_nonneg spanNonneg nonneg
  have productHigh : ((last - first : ℤ) : ℚ) * twentieth ≤ ((2 ^ 37 : ℤ) : ℚ) := by
    push_cast at spanHigh ⊢
    nlinarith
  have product := difference.mul denotes_twentieth
    (abs_le.mpr ⟨by linarith, productHigh.trans (by norm_num)⟩)
  have most := product.value_le (representable_intCast (by norm_num)) productHigh
  push_cast at most
  unfold threadMargin
  rcases lt_or_ge (value ((greatest - least) * 0.05)) (1 / 2) with less | more
  · rw [greater_of_lt product.denotes_value denotes_half less]
    exact ⟨denotes_half.finite, denotes_half.value_eq.ge, by rw [denotes_half.value_eq]; norm_num⟩
  · rw [greater_of_le product.denotes_value denotes_half more]
    exact ⟨product.finite, more, most⟩

/-- The range of a thread axis is moderate. -/
theorem exists_isModerate {panel : Panel}
    (small : ∀ count ∈ measuredThreads panel, count.toNat < 2 ^ 40) :
    ∃ length, Axis.IsModerate (threadRangeOf panel).1 (threadRangeOf panel).2 length := by
  have ascending := pairwise_measuredThreads panel
  obtain ⟨isLeast, isGreatest⟩ := denotes_threadExtent ascending small
  have lastSmall := greatest_lt small
  rw [← least_add_threadSpan ascending] at lastSmall
  have isMargin := between_threadMargin isLeast isGreatest (Nat.le_add_right _ _) lastSmall
  have isRange : threadRangeOf panel =
      ((threadExtent (measuredThreads panel)).1 - threadMargin
          (threadExtent (measuredThreads panel)).1 (threadExtent (measuredThreads panel)).2,
        (threadExtent (measuredThreads panel)).2 + threadMargin
          (threadExtent (measuredThreads panel)).1 (threadExtent (measuredThreads panel)).2) := rfl
  rw [isRange]
  generalize (threadExtent (measuredThreads panel)).1 = least at *
  generalize (threadExtent (measuredThreads panel)).2 = greatest at *
  generalize ((measuredThreads panel).head?.getD 1).toNat = first at *
  generalize threadSpan (measuredThreads panel) = span at *
  have marginLow := isMargin.low_le
  have marginHigh := isMargin.le_high
  have firstNonneg : (0 : ℚ) ≤ first := by positivity
  have spanNonneg : (0 : ℚ) ≤ span := by positivity
  have lastHigh : (first + span : ℚ) ≤ 2 ^ 40 := by exact_mod_cast lastSmall.le
  push_cast at isLeast isGreatest
  have start := isLeast.sub isMargin.denotes (abs_le.mpr ⟨by linarith, by linarith⟩)
  have stop := isGreatest.add isMargin.denotes (abs_le.mpr ⟨by linarith, by linarith⟩)
  have isStart : Between (-2 ^ 40 : ℤ) (2 ^ 41 : ℤ) (least - threadMargin least greatest) :=
    start.between (by push_cast; linarith) (by push_cast; linarith) (by norm_num) (by norm_num)
  have isStop : Between (-2 ^ 40 : ℤ) (2 ^ 41 : ℤ) (greatest + threadMargin least greatest) :=
    stop.between (by push_cast; linarith) (by push_cast; linarith) (by norm_num) (by norm_num)
  -- The halves beside the counts are held, so that the ends are beyond them.
  have startHigh := start.value_le (IsThreadRange.representable_halves
      (abs_le.mpr ⟨by omega, by omega⟩ : |(2 * first - 1 : ℤ)| ≤ 2 ^ 42))
    (by push_cast; linarith)
  have stopLow := stop.le_value (IsThreadRange.representable_halves
      (abs_le.mpr ⟨by omega, by omega⟩ : |(2 * (first + span) + 1 : ℤ)| ≤ 2 ^ 42))
    (by push_cast; linarith)
  push_cast at startHigh stopLow isStart isStop
  have startLeast := isStart.low_le
  have stopMost := isStop.le_high
  have longer : 1 ≤ value (greatest + threadMargin least greatest) -
      value (least - threadMargin least greatest) := by linarith
  have bound : |value (greatest + threadMargin least greatest) -
      value (least - threadMargin least greatest)| ≤ 2 ^ 42 :=
    abs_le.mpr ⟨by linarith, by linarith⟩
  have length := stop.denotes_value.sub start.denotes_value (bound.trans (by norm_num))
  have long := length.le_value denotes_unit.representable longer
  obtain ⟨low, high⟩ := length.bounds longer (abs_of_nonneg (by linarith)).le
  exact ⟨_, isStart, isStop, length.denotes_value, long, by linarith, by linarith⟩

/-- The ticks of a thread axis are found. -/
theorem threadTicksOf_ne_none (frame : Frame) {panel : Panel}
    (small : ∀ count ∈ measuredThreads panel, count.toNat < 2 ^ 40) :
    threadTicksOf frame panel ≠ none := by
  obtain ⟨length, isModerate⟩ := exists_isModerate small
  rw [threadTicksOf_eq, Ne, ticksOf_eq_none_iff]
  apply isModerate.ticks_ne_none
  unfold threadLabelCount
  split
  · exact min_le_left _ _
  · decide

end ThreadAxis

end Chart

/-- A loop behind the ticks of a panel never ends. -/
def Panel.Unending (panel : Panel) : Prop :=
  Axis.NeverTicks (Chart.threadRangeOf panel).1 (Chart.threadRangeOf panel).2
      (Chart.threadLabelCount panel.style (Chart.threadExtent (Chart.measuredThreads panel)).1
        (Chart.threadExtent (Chart.measuredThreads panel)).2) ∨
    Axis.NeverTicks (Chart.throughputRangeOf panel).1 (Chart.throughputRangeOf panel).2
      Chart.throughputTickLimit

/-- A loop behind the ticks of some panel of a figure never ends. -/
def Figure.Unending (figure : Figure) : Prop :=
  ∃ panel ∈ figure.panels, panel.Unending

namespace Chart

variable (frame : Frame) {panel : Panel}

theorem unending_iff_ticksOf :
    panel.Unending ↔ threadTicksOf frame panel = none ∨ throughputTicksOf frame panel = none := by
  rw [threadTicksOf_eq, throughputTicksOf, ticksOf_eq_none_iff, ticksOf_eq_none_iff,
    Axis.ticks_eq_none_iff, Axis.ticks_eq_none_iff]
  rfl

/-- A panel of counts of moderate size is unending just if its throughput axis is infinite. -/
theorem unending_iff (small : ∀ count ∈ measuredThreads panel, count.toNat < 2 ^ 40) :
    panel.Unending ↔ (throughputEnd panel).isFinite = false := by
  rw [unending_iff_ticksOf ⟨0, 0, 0, 0⟩, throughputTicksOf_eq_none_iff]
  exact or_iff_right (threadTicksOf_ne_none _ small)

/-- The axis of a finite mean is infinite where a tenth above it is out of range. -/
example : Panel.Unending ⟨"", [⟨"LazyList", .purple, [(1, 1.7e308)]⟩], Figure.listStyle⟩ := by
  refine (unending_iff ?_).mpr (by decide +kernel)
  simp [measuredThreads]

/-- There is no chart of a panel just if a loop behind its ticks never ends. -/
theorem ofPanel_eq_none_iff : ofPanel frame panel = none ↔ panel.Unending := by
  rw [unending_iff_ticksOf frame, ofPanel]
  cases threadTicksOf frame panel <;> cases throughputTicksOf frame panel <;> simp

end Chart

namespace Drawing

theorem mapM_eq_none_iff {Item Result : Type} {make : Item → Option Result} {items : List Item} :
    items.mapM make = none ↔ ∃ item ∈ items, make item = none := by
  induction items with
  | nil => simp
  | cons item items induction =>
      rw [List.mapM_cons, List.exists_mem_cons_iff, ← induction]
      cases make item <;> cases items.mapM make <;> simp

/-- There is no drawing of a figure just if a loop behind the ticks of a panel never ends. -/
theorem ofFigure_eq_none_iff {figure : Figure} : ofFigure figure = none ↔ figure.Unending := by
  have isNone : ofFigure figure = none ↔ ∃ item ∈ figure.panels.zipIdx, item.1.Unending := by
    simp only [ofFigure, Option.bind_eq_bind, Option.bind_eq_none_iff, reduceCtorEq, imp_false]
    rw [← Option.eq_none_iff_forall_ne_some, mapM_eq_none_iff]
    simp only [Chart.ofPanel_eq_none_iff]
  rw [isNone]
  constructor
  · rintro ⟨item, member, unending⟩
    exact ⟨item.1, List.fst_mem_of_mem_zipIdx member, unending⟩
  · rintro ⟨panel, member, unending⟩
    obtain ⟨index, isIndex⟩ := List.mem_iff_getElem?.mp member
    exact ⟨(panel, index), List.mem_zipIdx_iff_getElem?.mpr isIndex, unending⟩

end Drawing
end ThroughputCharts

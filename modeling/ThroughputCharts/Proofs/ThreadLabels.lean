import ThroughputCharts.Proofs.KeyOrder
import ThroughputCharts.Proofs.TickPositions

/-!
# The labels of a thread axis

An axis that is labelled at measured thread counts has all of its ticks on its pixels.  Below a span of
twenty every measured count is the position of a tick and has a label; from there on only even counts
have one.
-/

namespace ThroughputCharts

open Binary64

namespace Axis

open Chart

section Visible

variable {first span left width : Nat} {margin number exact : ℚ}
  {start stop position result : Float}

theorem denotes_thousandth : ∃ thousandth : ℚ, Denotes 0.001 thousandth ∧ 0 ≤ thousandth ∧
    thousandth ≤ 1 / 500 := by
  have isParts : parts 0.001 = .finite false ⟨4611686018427388, -62⟩ := by decide
  refine ⟨_, denotes_of_parts isParts, ?_, ?_⟩ <;> norm_num [Magnitude.toRat]

/-- Numbers of the size of a thread range are rounded with an error that does not reach a pixel. -/
theorem abs_sub_le_fine (rounds : RoundsTo number result) (small : |number| ≤ 256) :
    |value result - number| ≤ 1 / 2 ^ 46 := by
  have bound : |number| ≤ 2 ^ (53 + (-45) : ℤ) := small.trans (by norm_num)
  have near := rounds.abs_sub_le (by decide) bound
  norm_num at near ⊢
  exact near

/-- The share of a range before a position is hardly more than all of it. -/
theorem exists_denotes_share (range : IsThreadRange first span margin start stop)
    (isPosition : Denotes position exact) (low : value start ≤ exact) (high : exact ≤ value stop) :
    ∃ share, Denotes ((position - start) / (stop - start)) share ∧ 0 ≤ share ∧
      share ≤ 1 + 1 / 2 ^ 44 := by
  have startLe := range.start_le
  have leStop := range.le_stop
  push_cast at startLe leStop
  obtain ⟨-, -, spanLow, spanHigh, marginLow, marginHigh⟩ := range.bounds
  obtain ⟨startLow, startHigh⟩ := abs_le.mp range.start_near
  obtain ⟨stopLow, stopHigh⟩ := abs_le.mp range.stop_near
  have none : Representable 0 := denotes_zero.representable
  have one : Representable 1 := by
    rw [← Int.cast_one]
    exact denotes_one.representable
  have wholeBound : |value stop - value start| ≤ 256 := abs_le.mpr ⟨by linarith, by linarith⟩
  have partBound : |exact - value start| ≤ 256 := abs_le.mpr ⟨by linarith, by linarith⟩
  have length := range.stop.denotes_value.sub range.start.denotes_value
    (wholeBound.trans (by norm_num))
  have before := isPosition.sub range.start.denotes_value (partBound.trans (by norm_num))
  have lengthLow := length.le_value one (by linarith)
  have lengthNear := (abs_le.mp (abs_sub_le_fine length wholeBound)).1
  have beforeLow := before.le_value none (by linarith)
  have beforeNear := (abs_le.mp (abs_sub_le_fine before partBound)).2
  have shareLow : 0 ≤ value (position - start) / value (stop - start) :=
    div_nonneg beforeLow (by linarith)
  have shareHigh : value (position - start) / value (stop - start) ≤ 1 + 1 / 2 ^ 45 := by
    rw [div_le_iff₀ (by linarith)]
    linarith
  have shareBound : |value (position - start) / value (stop - start)| ≤ 256 :=
    abs_le.mpr ⟨by linarith, by linarith⟩
  have share := before.denotes_value.div length.denotes_value (by linarith)
    (shareBound.trans (by norm_num))
  have shareNear := (abs_le.mp (abs_sub_le_fine share shareBound)).2
  exact ⟨_, share.denotes_value, share.le_value none shareLow, by linarith⟩

/-- Positions in an axis whose share is computed as hardly more than all of it are on its pixels. -/
theorem isVisible_of_share {share : ℚ} (apart : (start == stop) = false) (narrow : width < 2 ^ 32)
    (isShare : Denotes ((position - start) / (stop - start)) share) (shareLow : 0 ≤ share)
    (shareHigh : share ≤ 1 + 1 / 2 ^ 44) : isVisible start stop ⟨left, width⟩ position = true := by
  have none : Representable 0 := denotes_zero.representable
  obtain ⟨thousandth, isThousandth, thousandthLow, thousandthHigh⟩ := denotes_thousandth
  have isWidth : Denotes (Float.ofNat width) ((width : ℤ) : ℚ) := denotes_ofNat (by omega)
  have castWidth : (width : ℚ) ≤ 2 ^ 32 := by exact_mod_cast narrow.le
  have widthNonneg : (0 : ℚ) ≤ (width : ℤ) := by positivity
  have productLow : 0 ≤ ((width : ℤ) : ℚ) * share := mul_nonneg widthNonneg shareLow
  have productHigh : ((width : ℤ) : ℚ) * share ≤ (width : ℤ) + 1 / 2 ^ 12 := by
    push_cast
    nlinarith
  have productBound : |((width : ℤ) : ℚ) * share| ≤ 2 ^ 42 :=
    abs_le.mpr ⟨by linarith, by push_cast at productHigh ⊢; linarith⟩
  obtain ⟨product, -, pixelsHigh⟩ := isWidth.mul_near isShare productBound
  have pixelsLow := product.le_value none productLow
  generalize isPixels : Float.ofNat width * ((position - start) / (stop - start)) = pixels at *
  have sumBound : |value pixels + thousandth| ≤ 2 ^ 42 :=
    abs_le.mpr ⟨by linarith, by push_cast at *; linarith⟩
  obtain ⟨sum, -, sumHigh⟩ := product.denotes_value.add_near isThousandth sumBound
  have sumLow := sum.le_value none (by linarith)
  have isPixel := denotes_floor sum.denotes_value
  have pixelLow : 0 ≤ ⌊value (pixels + 0.001)⌋ := Int.floor_nonneg.mpr sumLow
  have pixelHigh : ⌊value (pixels + 0.001)⌋ ≤ width :=
    Int.floor_le_iff.mpr (by push_cast at *; linarith)
  simp only [isVisible, pixel, apart, Bool.false_eq_true, if_false, isPixels, Bool.and_eq_true,
    decide_eq_true_iff]
  rw [denotes_zero.le_iff isPixel, isPixel.le_iff isWidth]
  exact ⟨by exact_mod_cast pixelLow, by exact_mod_cast pixelHigh⟩

/-- Positions inside the range of a thread axis are on its pixels. -/
theorem isVisible_of_between (range : IsThreadRange first span margin start stop)
    (narrow : width < 2 ^ 32) (isPosition : Denotes position exact) (low : value start ≤ exact)
    (high : exact ≤ value stop) : isVisible start stop ⟨left, width⟩ position = true := by
  have startLe := range.start_le
  have leStop := range.le_stop
  push_cast at startLe leStop
  obtain ⟨-, -, spanLow, -, -, -⟩ := range.bounds
  have apart : (start == stop) = false :=
    range.start.denotes_value.beq_eq_false range.stop.denotes_value (by linarith)
  obtain ⟨share, isShare, shareLow, shareHigh⟩ := exists_denotes_share range isPosition low high
  exact isVisible_of_share apart narrow isShare shareLow shareHigh

end Visible

section Labels

variable {measured : List UInt64} {position : Float} {whole : ℤ}

/-- The label at a whole number: its digits if it is a measured count. -/
def wholeLabel (measured : List UInt64) (whole : ℤ) : String :=
  if whole ∈ measured.map (fun count => (count.toNat : ℤ)) then Nat.repr whole.toNat else ""

theorem denotes_wholeTolerance : ∃ tolerance : ℚ, Denotes wholeTolerance tolerance ∧
    0 < tolerance := by
  have isParts : parts wholeTolerance = .finite false ⟨4722366482869645, -72⟩ := by decide
  exact ⟨_, denotes_of_parts isParts, by norm_num [Magnitude.toRat]⟩

/-- Rounding leaves whole numbers alone. -/
theorem denotes_round_whole (isPosition : Denotes position whole) :
    Denotes (Binary64.round position) whole := by
  obtain ⟨rounded, isRounded, near⟩ := exists_denotes_round isPosition
  obtain ⟨low, high⟩ := abs_le.mp near
  have castLow : (whole : ℚ) < (rounded + 1 : ℤ) := by
    push_cast
    linarith
  have castHigh : (rounded : ℚ) < (whole + 1 : ℤ) := by
    push_cast
    linarith
  rw [Int.cast_lt] at castLow castHigh
  obtain rfl : rounded = whole := by omega
  exact isRounded

theorem threadLabel_eq (isPosition : Denotes position whole) (small : |whole| ≤ 2 ^ 53) :
    threadLabel measured true position = wholeLabel measured whole := by
  have isRounded := denotes_round_whole isPosition
  have difference := isPosition.sub_whole isRounded (by rw [sub_self]; norm_num)
  rw [sub_self, Int.cast_zero] at difference
  have distance := difference.abs
  rw [abs_zero] at distance
  obtain ⟨wide, isWide, positive⟩ := denotes_wholeTolerance
  have notApart : ¬ wholeTolerance < (position - Binary64.round position).abs := by
    rw [isWide.lt_iff distance]
    exact not_lt.mpr positive.le
  have mem_iff : whole ∈ measured.map (fun count => (count.toNat : ℤ)) ↔
      ∃ count ∈ measured, (count.toNat : ℤ) = whole := List.mem_map
  unfold threadLabel wholeLabel
  dsimp only
  rcases lt_or_ge whole 0 with negative | nonneg
  · have isNegative : Binary64.round position < 0.0 :=
      (isRounded.lt_iff denotes_zero).mpr (by exact_mod_cast negative)
    have notMeasured : ¬ whole ∈ measured.map (fun count => (count.toNat : ℤ)) := by
      rw [mem_iff]
      rintro ⟨count, -, isCount⟩
      omega
    rw [if_neg notMeasured, if_pos (by simp [isNegative])]
  · have notNegative : ¬ Binary64.round position < 0.0 :=
      mt (isRounded.lt_iff denotes_zero).mp (not_lt.mpr (by exact_mod_cast nonneg))
    have isThreads : ((Binary64.round position).toUInt64.toNat : ℤ) = whole := by
      have castSmall : (whole : ℚ) ≤ 2 ^ 53 := by exact_mod_cast (abs_le.mp small).2
      rw [toNat_toUInt64 isRounded (by exact_mod_cast nonneg) (by linarith), Int.floor_intCast]
    generalize (Binary64.round position).toUInt64 = threads at isThreads ⊢
    have contains_iff : measured.contains threads = true ↔
        whole ∈ measured.map (fun count => (count.toNat : ℤ)) := by
      rw [List.contains_iff_mem, mem_iff]
      constructor
      case mp => exact fun member => ⟨threads, member, isThreads⟩
      case mpr =>
        rintro ⟨count, member, isCount⟩
        obtain rfl : count = threads := UInt64.toNat_inj.mp (by omega)
        exact member
    rw [if_neg (by simp [notApart, notNegative]), ← isThreads, Int.toNat_natCast, isThreads]
    by_cases member : whole ∈ measured.map (fun count => (count.toNat : ℤ))
    · rw [if_pos member, contains_iff.mpr member]
      rfl
    · rw [if_neg member, Bool.eq_false_iff.mpr (mt contains_iff.mp member)]
      rfl

theorem wholeLabel_ne_empty_iff :
    wholeLabel measured whole ≠ "" ↔ whole ∈ measured.map (fun count => (count.toNat : ℤ)) := by
  unfold wholeLabel
  split
  next member => simp [member, Nat.repr_ne_empty]
  next absent => simp [absent]

/-- The labels at ascending whole numbers are those of the counts among them. -/
theorem filter_wholeLabel {wholes : List ℤ} (ascending : wholes.Pairwise (· < ·))
    (measuredAscending : measured.Pairwise (· < ·)) :
    (wholes.map (wholeLabel measured)).filter (fun label => label ≠ "") =
      (measured.filter fun count => (count.toNat : ℤ) ∈ wholes).map fun count =>
        Nat.repr count.toNat := by
  have shared : wholes.filter (fun whole => whole ∈ measured.map fun count => (count.toNat : ℤ)) =
      (measured.filter fun count => (count.toNat : ℤ) ∈ wholes).map fun count =>
        (count.toNat : ℤ) := by
    apply (ascending.filter _).eq_of_mem_iff
    · rw [List.pairwise_map]
      exact (measuredAscending.filter _).imp fun less => by exact_mod_cast less
    · intro whole
      simp only [List.mem_filter, List.mem_map, decide_eq_true_iff]
      constructor
      case mp =>
        rintro ⟨member, count, isMeasured, rfl⟩
        exact ⟨count, ⟨isMeasured, member⟩, rfl⟩
      case mpr =>
        rintro ⟨count, ⟨isMeasured, member⟩, rfl⟩
        exact ⟨member, count, isMeasured, rfl⟩
  calc (wholes.map (wholeLabel measured)).filter (fun label => label ≠ "")
      = (wholes.filter fun whole =>
          whole ∈ measured.map fun count => (count.toNat : ℤ)).map (wholeLabel measured) := by
        rw [List.filter_map]
        congr 2
        funext whole
        simp only [Function.comp_apply, wholeLabel_ne_empty_iff]
    _ = (wholes.filter fun whole =>
          whole ∈ measured.map fun count => (count.toNat : ℤ)).map fun whole =>
            Nat.repr whole.toNat := by
        apply List.map_congr_left
        intro whole member
        have isMeasured := of_decide_eq_true (List.mem_filter.mp member).2
        rw [wholeLabel, if_pos isMeasured]
    _ = (measured.filter fun count => (count.toNat : ℤ) ∈ wholes).map fun count =>
          Nat.repr count.toNat := by
        rw [shared, List.map_map]
        rfl

theorem map_threadLabel {positions : List Float} {wholes : List ℤ}
    (denote : DenoteEach positions wholes)
    (small : ∀ whole ∈ wholes, |whole| ≤ 2 ^ 53) :
    positions.map (threadLabel measured true) = wholes.map (wholeLabel measured) := by
  induction denote with
  | nil => rfl
  | cons denotes rest ih =>
      rw [List.map_cons, List.map_cons, threadLabel_eq denotes (small _ List.mem_cons_self),
        ih fun whole member => small whole (List.mem_cons_of_mem _ member)]

theorem exists_whole_of_mem {positions : List Float} {wholes : List ℤ}
    (denote : DenoteEach positions wholes)
    (member : position ∈ positions) : ∃ whole ∈ wholes, Denotes position whole := by
  induction denote with
  | nil => contradiction
  | cons denotes rest ih =>
      rcases List.mem_cons.mp member with rfl | isRest
      · exact ⟨_, List.mem_cons_self, denotes⟩
      · obtain ⟨whole, isWhole, wholeDenotes⟩ := ih isRest
        exact ⟨whole, List.mem_cons_of_mem _ isWhole, wholeDenotes⟩

end Labels

end Axis

namespace Chart

/-- The measured counts are in ascending order and distinct. -/
theorem pairwise_measuredThreads (panel : Panel) : (measuredThreads panel).Pairwise (· < ·) := by
  have sorted : ((panel.series.flatMap fun series => series.points.map Prod.fst).mergeSort
      fun first second => decide (first ≤ second)).Pairwise
        fun first second => decide (first ≤ second) = true := by
    apply List.pairwise_mergeSort
    · intro first second third low high
      rw [decide_eq_true_iff] at low high ⊢
      exact UInt64.le_trans low high
    · intro first second
      rw [Bool.or_eq_true, decide_eq_true_iff, decide_eq_true_iff]
      exact UInt64.le_total first second
  exact (pairwise_eraseDups sorted).imp fun ⟨order, different⟩ =>
    UInt64.lt_of_le_of_ne (decide_eq_true_iff.mp order) different

section Extent

variable {measured : List UInt64} {count : UInt64} {panel : Panel} {frame : Frame}

/-- The distance of the measured counts from the least to the greatest. -/
def threadSpan (measured : List UInt64) : Nat :=
  (measured.getLast?.getD 1).toNat - (measured.head?.getD 1).toNat

theorem least_le_of_mem (ascending : measured.Pairwise (· < ·)) (member : count ∈ measured) :
    (measured.head?.getD 1).toNat ≤ count.toNat := by
  cases measured with
  | nil => contradiction
  | cons least rest =>
      rw [List.pairwise_cons] at ascending
      rw [List.head?_cons, Option.getD_some]
      rcases List.mem_cons.mp member with rfl | isRest
      · exact le_rfl
      · exact (UInt64.lt_iff_toNat_lt.mp (ascending.1 count isRest)).le

theorem le_greatest_of_mem (ascending : measured.Pairwise (· < ·)) (member : count ∈ measured) :
    count.toNat ≤ (measured.getLast?.getD 1).toNat := by
  rcases List.eq_nil_or_concat' measured with rfl | ⟨others, greatest, rfl⟩
  · contradiction
  · rw [List.pairwise_append] at ascending
    rw [List.getLast?_concat, Option.getD_some]
    rcases List.mem_append.mp member with isOther | isGreatest
    · have less := ascending.2.2 count isOther greatest (List.mem_singleton_self greatest)
      exact (UInt64.lt_iff_toNat_lt.mp less).le
    · rw [List.mem_singleton.mp isGreatest]

theorem least_add_threadSpan (ascending : measured.Pairwise (· < ·)) :
    (measured.head?.getD 1).toNat + threadSpan measured = (measured.getLast?.getD 1).toNat := by
  apply Nat.add_sub_cancel'
  cases measured with
  | nil => exact le_rfl
  | cons least rest => exact le_greatest_of_mem ascending List.mem_cons_self

theorem least_lt (small : ∀ count ∈ measured, count.toNat < 2 ^ 40) :
    (measured.head?.getD 1).toNat < 2 ^ 40 := by
  cases measured with
  | nil => decide
  | cons least rest => exact small least List.mem_cons_self

theorem greatest_lt (small : ∀ count ∈ measured, count.toNat < 2 ^ 40) :
    (measured.getLast?.getD 1).toNat < 2 ^ 40 := by
  rcases List.eq_nil_or_concat' measured with rfl | ⟨others, greatest, rfl⟩
  · decide
  · rw [List.getLast?_concat, Option.getD_some]
    exact small greatest (List.mem_append_right _ List.mem_cons_self)

/-- The ends of the measured counts are held exactly. -/
theorem denotes_threadExtent (ascending : measured.Pairwise (· < ·))
    (small : ∀ count ∈ measured, count.toNat < 2 ^ 40) :
    Denotes (threadExtent measured).1 (((measured.head?.getD 1).toNat : ℤ) : ℚ) ∧
      Denotes (threadExtent measured).2
        ((((measured.head?.getD 1).toNat + threadSpan measured : Nat) : ℤ) : ℚ) := by
  rw [least_add_threadSpan ascending]
  exact ⟨denotes_toFloat ((least_lt small).le.trans (by norm_num)),
    denotes_toFloat ((greatest_lt small).le.trans (by norm_num))⟩

theorem exists_isThreadRange (small : ∀ count ∈ measuredThreads panel, count.toNat < 2 ^ 40)
    (short : threadSpan (measuredThreads panel) ≤ 127) :
    ∃ margin, IsThreadRange ((measuredThreads panel).head?.getD 1).toNat
      (threadSpan (measuredThreads panel)) margin (threadRangeOf panel).1 (threadRangeOf panel).2 := by
  obtain ⟨isLeast, isGreatest⟩ :=
    denotes_threadExtent (pairwise_measuredThreads panel) small
  have bound := least_lt small
  have isRange : threadRangeOf panel =
      ((threadExtent (measuredThreads panel)).1 - threadMargin
          (threadExtent (measuredThreads panel)).1 (threadExtent (measuredThreads panel)).2,
        (threadExtent (measuredThreads panel)).2 + threadMargin
          (threadExtent (measuredThreads panel)).1 (threadExtent (measuredThreads panel)).2) := rfl
  rw [isRange]
  obtain ⟨margin, isThreadMargin, isMargin⟩ := exists_denotes_threadMargin isLeast isGreatest short
  have marginLow := isMargin.half_le
  have marginHigh := isMargin.le short
  generalize ((measuredThreads panel).head?.getD 1).toNat = first at *
  generalize threadSpan (measuredThreads panel) = span at *
  have castFirst : (first : ℚ) ≤ 2 ^ 40 := by exact_mod_cast bound.le
  have castSpan : (span : ℚ) ≤ 127 := by exact_mod_cast short
  have firstNonneg : (0 : ℚ) ≤ first := by positivity
  have spanNonneg : (0 : ℚ) ≤ span := by positivity
  push_cast at isLeast isGreatest
  exact ⟨margin, bound, short, isMargin,
    isLeast.sub isThreadMargin (abs_le.mpr ⟨by linarith, by linarith⟩),
    isGreatest.add isThreadMargin (abs_le.mpr ⟨by linarith, by linarith⟩)⟩

/-- As many labels are asked for as the span has whole numbers. -/
theorem threadLabelCount_eq {style : PanelStyle} (atThreads : style.ticksAtThreads = true)
    (ascending : measured.Pairwise (· < ·)) (small : ∀ count ∈ measured, count.toNat < 2 ^ 40)
    (short : threadSpan measured ≤ 127) :
    threadLabelCount style (threadExtent measured).1 (threadExtent measured).2 =
      max 2 (threadSpan measured + 1) := by
  obtain ⟨isLeast, isGreatest⟩ := denotes_threadExtent ascending small
  generalize (measured.head?.getD 1).toNat = first at *
  generalize threadSpan measured = span at *
  have isSpan : ((first + span : Nat) : ℤ) - first = span := by omega
  have difference := isGreatest.sub_whole isLeast (by rw [isSpan]; exact abs_le.mpr ⟨by omega, by omega⟩)
  rw [isSpan] at difference
  have castSpan : ((span : ℤ) : ℚ) ≤ 127 := by exact_mod_cast short
  have isCount := toNat_toUInt64 difference (by positivity) (by linarith)
  rw [Int.floor_intCast, Int.natCast_inj] at isCount
  rw [threadLabelCount, if_pos atThreads, isCount]
  omega

/-- All ticks of a thread axis that is labelled at measured counts are on its pixels. -/
theorem visibleTicks_eq {first span width limit : Nat} {margin : ℚ} {ends : Float × Float}
    {found : List Float} {wholes : List ℤ} (left : Nat)
    (range : IsThreadRange first span margin ends.1 ends.2)
    (narrow : width < 2 ^ 32) (isTicks : Axis.ticks ends.1 ends.2 limit = some found)
    (denote : DenoteEach found wholes)
    (between : ∀ whole ∈ wholes, value ends.1 ≤ whole ∧ whole ≤ value ends.2) :
    visibleTicks ends limit ⟨left, width⟩ = some found := by
  rw [visibleTicks, isTicks, Option.map_some, Option.some_inj]
  apply List.filter_eq_self.mpr
  intro position member
  obtain ⟨whole, isWhole, denotes⟩ := Axis.exists_whole_of_mem denote member
  obtain ⟨low, high⟩ := between whole isWhole
  exact Axis.isVisible_of_between range narrow denotes low high

/-- The labels of ticks that are not empty. -/
def shownLabels (ticks : List Tick) : List String :=
  (ticks.map Tick.label).filter fun label => label ≠ ""

/-- Where an axis has visible ticks they have the labels of their positions. -/
theorem labelledTicks_eq {label : Float → String} {range : Float × Float} {limit : Nat}
    {extent : Axis.Extent} {found : List Float}
    (isVisible : visibleTicks range limit extent = some found) :
    labelledTicks label range limit extent =
      some (found.map fun position => ⟨position, label position⟩) := by
  rw [labelledTicks, isVisible, Option.map_some]

theorem map_label_labelled (label : Float → String) (found : List Float) :
    (found.map fun position => (⟨position, label position⟩ : Tick)).map Tick.label =
      found.map label :=
  List.map_map ..

/-- The ticks of a thread axis in terms of the range and the number of labels of the panel. -/
theorem threadTicksOf_eq (frame : Frame) (panel : Panel) :
    threadTicksOf frame panel =
      labelledTicks (Axis.threadLabel (measuredThreads panel) panel.style.ticksAtThreads)
        (threadRangeOf panel)
        (threadLabelCount panel.style (threadExtent (measuredThreads panel)).1
          (threadExtent (measuredThreads panel)).2)
        ⟨frame.left, frame.width⟩ :=
  rfl

/-- A panel that is labelled at measured counts has a label for each of them below a span of twenty,
and for the even ones among them from there on. -/
theorem threadLabels_ofPanel (frame : Frame) (panel : Panel)
    (atThreads : panel.style.ticksAtThreads = true) (narrow : frame.width < 2 ^ 32)
    (small : ∀ count ∈ measuredThreads panel, count.toNat < 2 ^ 40)
    (short : threadSpan (measuredThreads panel) ≤ 127) :
    (threadTicksOf frame panel).map shownLabels =
      some (((measuredThreads panel).filter fun count =>
        threadSpan (measuredThreads panel) < 20 ∨ Even count.toNat).map fun count =>
          Nat.repr count.toNat) := by
  have measuredAscending := pairwise_measuredThreads panel
  obtain ⟨margin, range⟩ := exists_isThreadRange small short
  obtain ⟨found, wholes, isTicks, denote, ascending, mem_iff⟩ := Axis.exists_ticks_denote range
  have between : ∀ whole ∈ wholes,
      value (threadRangeOf panel).1 ≤ whole ∧ whole ≤ value (threadRangeOf panel).2 :=
    fun whole member => ((mem_iff whole).mp member).1
  have wholesSmall : ∀ whole ∈ wholes, |whole| ≤ 2 ^ 53 := by
    intro whole member
    obtain ⟨low, high⟩ := between whole member
    exact range.abs_whole_le low high
  have isVisible := visibleTicks_eq frame.left range narrow isTicks denote between
  rw [← threadLabelCount_eq atThreads measuredAscending small short] at isVisible
  rw [threadTicksOf_eq, atThreads, labelledTicks_eq isVisible, Option.map_some, shownLabels,
    map_label_labelled, Axis.map_threadLabel denote wholesSmall,
    Axis.filter_wholeLabel ascending measuredAscending, Option.some_inj]
  congr 1
  apply List.filter_congr
  intro count member
  have low := least_le_of_mem measuredAscending member
  have high := le_greatest_of_mem measuredAscending member
  rw [← least_add_threadSpan measuredAscending] at high
  have inRange : value (threadRangeOf panel).1 ≤ (count.toNat : ℤ) ∧
      (count.toNat : ℤ) ≤ value (threadRangeOf panel).2 :=
    range.contains_count (by exact_mod_cast low) (by exact_mod_cast high)
  rw [decide_eq_decide, mem_iff, Int.even_coe_nat]
  simp only [inRange, true_and]

/-- A variant measured at powers of two of up to 32 threads. -/
def doublingPanel : Panel where
  title := "Operations Count: 10000"
  series := [⟨"BoundedQueue", .pureBlue,
    [(1, 1500000.0), (2, 2500000.0), (4, 4000000.0), (8, 6000000.0), (16, 7500000.0),
      (32, 8000000.0)]⟩]
  style := Figure.queueStyle

/-- The frame of the first panel of a queue figure. -/
def doublingFrame : Frame :=
  Frame.inside 0 Frame.figureTitleHeight 600 614

theorem measuredThreads_doublingPanel :
    measuredThreads doublingPanel = [1, 2, 4, 8, 16, 32] := by
  rw [measuredThreads, List.mergeSort_of_pairwise (by decide)]
  decide

theorem threadLabels_doublingPanel :
    (doublingPanel.style.ticksAtThreads = true ∧ doublingFrame.width < 2 ^ 32 ∧
      (∀ count ∈ measuredThreads doublingPanel, count.toNat < 2 ^ 40) ∧
      threadSpan (measuredThreads doublingPanel) ≤ 127) ∧
    (threadTicksOf doublingFrame doublingPanel).map shownLabels =
      some ["2", "4", "8", "16", "32"] := by
  have atThreads : doublingPanel.style.ticksAtThreads = true := rfl
  have narrow : doublingFrame.width < 2 ^ 32 := by decide
  have small : ∀ count ∈ measuredThreads doublingPanel, count.toNat < 2 ^ 40 := by
    simp [measuredThreads_doublingPanel]
  have short : threadSpan (measuredThreads doublingPanel) ≤ 127 := by
    rw [measuredThreads_doublingPanel]
    decide
  refine ⟨⟨atThreads, narrow, small, short⟩, ?_⟩
  rw [threadLabels_ofPanel doublingFrame doublingPanel atThreads narrow small short,
    measuredThreads_doublingPanel]
  decide

/-- A measured count can go without a label on a panel that asks for all of them. -/
theorem doublingPanel_unlabelled :
    (doublingPanel.style.ticksAtThreads = true ∧
      (∀ count ∈ measuredThreads doublingPanel, 0 < count) ∧
      threadSpan (measuredThreads doublingPanel) ≤ 127) ∧
    ∃ labels, (threadTicksOf doublingFrame doublingPanel).map shownLabels = some labels ∧
      labels ≠ (measuredThreads doublingPanel).map fun count => Nat.repr count.toNat := by
  have positive : ∀ count ∈ measuredThreads doublingPanel, 0 < count := by
    simp [measuredThreads_doublingPanel]
  have short : threadSpan (measuredThreads doublingPanel) ≤ 127 := by
    rw [measuredThreads_doublingPanel]
    decide
  refine ⟨⟨rfl, positive, short⟩, ["2", "4", "8", "16", "32"], ?_, ?_⟩
  · simp only [threadTicksOf, threadRangeOf, measuredThreads_doublingPanel]
    decide +kernel
  · rw [measuredThreads_doublingPanel]
    decide

end Extent

end Chart
end ThroughputCharts

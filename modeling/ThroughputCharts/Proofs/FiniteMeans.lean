import ThroughputCharts.Chart
import ThroughputCharts.Proofs.ExportRoundTrip
import ThroughputCharts.Proofs.FloatWhole
import ThroughputCharts.Proofs.PlottedMarkers

/-!
# Means that are finite

The mean of finite values is finite just when no sum on the way to it leaves the range of binary64.
Otherwise the export has a null in its place.  The throughput axis of a panel multiplies the greatest
mean once more, so that it can have an infinite end even if all means are finite.
-/

namespace ThroughputCharts

open Binary64

namespace Group

/-- Every number can be added to the total of those before it without leaving the range: the exact sum
of the two is less than what is rounded to infinity. -/
def TotalsInRange (total : Float) : List Float → Prop
  | [] => True
  | number :: rest => |value total + value number| < rangeEnd ∧ TotalsInRange (total + number) rest

theorem isFinite_foldl_add_eq_false {total : Float} (notFinite : total.isFinite = false)
    (numbers : List Float) : (numbers.foldl (· + ·) total).isFinite = false := by
  induction numbers generalizing total with
  | nil => exact notFinite
  | cons number numbers induction => exact induction (isFinite_add_eq_false notFinite)

theorem isFinite_foldl_add_iff {total : Float} (isFinite : total.isFinite = true)
    {numbers : List Float} (finite : ∀ number ∈ numbers, number.isFinite = true) :
    (numbers.foldl (· + ·) total).isFinite = true ↔ TotalsInRange total numbers := by
  induction numbers generalizing total with
  | nil => exact iff_of_true isFinite trivial
  | cons number numbers induction =>
      rw [List.forall_mem_cons] at finite
      rw [List.foldl_cons, TotalsInRange, ← isFinite_add_iff isFinite finite.1]
      cases added : (total + number).isFinite with
      | true => rw [induction added finite.2, and_iff_right rfl]
      | false =>
          rw [isFinite_foldl_add_eq_false added]
          exact iff_of_false Bool.false_ne_true fun both => Bool.false_ne_true both.1

end Group

namespace Aggregation

theorem finite_recordValues {family : Family} {records : List Record}
    (finite : ∀ record ∈ records, ∀ number ∈ record.value, number.isFinite = true) (key : Key) :
    ∀ number ∈ recordValues family records key, number.isFinite = true := by
  intro number member
  obtain ⟨record, reported, hasValue⟩ := List.mem_filterMap.mp member
  exact finite record (List.mem_of_mem_filter reported) number hasValue

/-- The mean of finite values is finite just when none of their sums leaves the range. -/
theorem throughput_isFinite_iff {settings : Settings} {records : List Record} {table : List Point}
    (finite : ∀ record ∈ records, ∀ number ∈ record.value, number.isFinite = true)
    (aggregated : (ofRecords settings records).2 = .ok table) {point : Point}
    (member : point ∈ table) :
    point.throughput.isFinite = true ↔
      Group.TotalsInRange 0.0 (recordValues settings.family records point.key) := by
  obtain ⟨measured, shape⟩ := (mem_iff_of_ofRecords aggregated).mp member
  have nonempty := List.length_pos_iff.mpr (recordValues_ne_nil_iff.mpr measured)
  rw [← Group.isFinite_foldl_add_iff (by decide +kernel) (finite_recordValues finite point.key),
    shape, recordMean, isFinite_div_ofNat_iff nonempty]

end Aggregation

namespace Export

open Json

theorem throughput_document (point : Point) :
    (document (pointJson point)).member? "throughput" = some (realDocument point.throughput) := by
  simp [pointJson, document, memberDocuments, Document.member?, List.lookup]

theorem itemDocuments_eq_map (items : List Json) : itemDocuments items = items.map document := by
  induction items with
  | nil => rfl
  | cons item items induction => rw [itemDocuments, induction, List.map_cons]

/-- A number is written as null just when it is not finite. -/
theorem realDocument_eq_null_iff {number : Float} :
    realDocument number = .null ↔ ¬ number.isFinite = true := by
  constructor
  · intro isNull isFinite
    obtain ⟨numeral, isNumber, -⟩ := realDocument_of_isFinite isFinite
    rw [isNumber] at isNull
    contradiction
  · intro notFinite
    rw [isFinite_iff] at notFinite
    rw [realDocument, realText]
    split
    next negative magnitude finite => exact absurd ⟨negative, magnitude, finite⟩ notFinite
    next => rfl

end Export

/-- The means that a panel plots, series by series. -/
def Panel.means (panel : Panel) : List Float :=
  panel.series.flatMap fun series => series.points.map Prod.snd

namespace Chart

theorem greater_of_isFinite {first second : Float} (finite : first.isFinite = true)
    (secondFinite : second.isFinite = true) :
    (greater first second).isFinite = true ∧
      value (greater first second) = max (value first) (value second) := by
  have order := lt_iff_value_lt finite secondFinite
  rw [greater, isNaN_of_isFinite finite, if_neg Bool.false_ne_true]
  split
  next less => exact ⟨secondFinite, (max_eq_right (order.mp less).le).symm⟩
  next notLess => exact ⟨finite, (max_eq_left (not_lt.mp (mt order.mpr notLess))).symm⟩

theorem foldl_greater_of_isFinite {start : Float} (isFinite : start.isFinite = true)
    {numbers : List Float} (finite : ∀ number ∈ numbers, number.isFinite = true) :
    (numbers.foldl greater start).isFinite = true ∧
      ∀ bound, value (numbers.foldl greater start) < bound ↔
        value start < bound ∧ ∀ number ∈ numbers, value number < bound := by
  induction numbers generalizing start with
  | nil => exact ⟨isFinite, fun bound => by simp⟩
  | cons number numbers induction =>
      rw [List.forall_mem_cons] at finite
      obtain ⟨greaterFinite, greatest⟩ := greater_of_isFinite isFinite finite.1
      obtain ⟨foldFinite, bounded⟩ := induction greaterFinite finite.2
      refine ⟨foldFinite, fun bound => ?_⟩
      rw [List.foldl_cons, bounded, greatest, max_lt_iff, List.forall_mem_cons, and_assoc]

theorem value_pos_of_parts {number : Float} {magnitude : Magnitude}
    (isParts : parts number = .finite false magnitude) (positive : 0 < magnitude.significand) :
    0 < value number := by
  simp only [value, isParts, Magnitude.toRat, Bool.false_eq_true, if_false]
  positivity

/-- The throughput axis of finite means has a finite end just when each mean can be raised by the
headroom of the axis without leaving the range. -/
theorem throughputEnd_isFinite_iff {panel : Panel}
    (finite : ∀ mean ∈ panel.means, mean.isFinite = true) :
    (throughputEnd panel).isFinite = true ↔
      ∀ mean ∈ panel.means, value mean * value 1.1 < rangeEnd := by
  have factorFinite : (1.1 : Float).isFinite = true := by decide +kernel
  have factor : 0 < value 1.1 := by
    have isParts : parts 1.1 = .finite false ⟨4953959590107546, -52⟩ := by decide +kernel
    exact value_pos_of_parts isParts (by decide)
  obtain ⟨greatestFinite, bounded⟩ := foldl_greater_of_isFinite denotes_zero.finite finite
  have positive := lt_iff_value_lt denotes_zero.finite greatestFinite
  have inRange := isFinite_mul_iff greatestFinite factorFinite
  have unfolded : throughputEnd panel =
      if 0.0 < panel.means.foldl greater 0.0 then panel.means.foldl greater 0.0 * 1.1 else 1.0 := rfl
  simp only [← lt_div_iff₀ factor]
  have all := bounded (rangeEnd / value 1.1)
  rw [denotes_zero.value_eq, and_iff_right (div_pos rangeEnd_pos factor)] at all
  rw [← all, unfolded, lt_div_iff₀ factor]
  rw [denotes_zero.value_eq] at positive
  split
  next isPositive =>
    rw [inRange, abs_of_pos (mul_pos (positive.mp isPositive) factor)]
  next notPositive =>
    have nonpos := not_lt.mp (mt positive.mpr notPositive)
    exact iff_of_true denotes_one.finite
      ((mul_nonpos_of_nonpos_of_nonneg nonpos factor.le).trans_lt rangeEnd_pos)

end Chart

namespace Figure

theorem exists_slice_of_mem_panels {settings : Settings} {table : List Point} {figure : Figure}
    {panel : Panel} (figureMember : figure ∈ all settings table) (member : panel ∈ figure.panels) :
    ∃ slice, panel.series = Series.project settings table slice := by
  unfold all at figureMember
  cases family : settings.family with
  | list =>
      rw [family] at figureMember
      obtain ⟨size, -, rfl⟩ := List.mem_map.mp figureMember
      obtain ⟨entry, -, rfl⟩ := List.mem_map.mp member
      exact ⟨_, rfl⟩
  | queue =>
      rw [family] at figureMember
      obtain rfl := List.mem_singleton.mp figureMember
      obtain ⟨size, -, rfl⟩ := List.mem_map.mp member
      exact ⟨_, rfl⟩

/-- A panel plots means of the table only. -/
theorem exists_point_of_mem_means {settings : Settings} {table : List Point} {figure : Figure}
    {panel : Panel} (figureMember : figure ∈ all settings table) (member : panel ∈ figure.panels)
    {mean : Float} (plotted : mean ∈ panel.means) :
    ∃ point ∈ table, point.throughput = mean := by
  obtain ⟨slice, projected⟩ := exists_slice_of_mem_panels figureMember member
  obtain ⟨series, seriesMember, isMean⟩ := List.mem_flatMap.mp plotted
  obtain ⟨⟨threads, _⟩, marker, rfl⟩ := List.mem_map.mp isMean
  rw [projected] at seriesMember
  obtain ⟨color, -, shape⟩ := Series.mem_project_iff.mp seriesMember
  rw [shape] at marker
  obtain ⟨point, pointMember, -, isThroughput⟩ := Series.mem_select_iff.mp marker
  exact ⟨point, pointMember, isThroughput⟩

end Figure

namespace Aggregation

/-- The values of a configuration can be added in the order of the table without leaving the range. -/
def SumsInRange (family : Family) (records : List Record) (key : Key) : Prop :=
  Group.TotalsInRange 0.0 (recordValues family records key)

/-- Results are finite just as far as the arithmetic stays in the range of binary64. -/
structure FiniteInRange (settings : Settings) (records : List Record) (table : List Point) :
    Prop where
  throughput : ∀ point ∈ table,
    point.throughput.isFinite = true ↔ SumsInRange settings.family records point.key
  /-- The points that have no throughput in the export are those whose sums leave the range. -/
  nulls : ∃ items, Json.read? (Export.text table) = some (.array items) ∧
    List.Forall₂ (fun point item => item.member? "throughput" = some .null ↔
      ¬ SumsInRange settings.family records point.key) table items
  /-- With finite means, the axis of a panel has a finite end unless the headroom above its greatest
  mean leaves the range. -/
  axes : (∀ point ∈ table, SumsInRange settings.family records point.key) →
    ∀ figure ∈ Figure.all settings table, ∀ panel ∈ figure.panels,
      (Chart.throughputRangeOf panel).2.isFinite = true ↔
        ∀ mean ∈ panel.means, value mean * value 1.1 < rangeEnd

theorem finiteInRange_of_ofRecords {settings : Settings} {records : List Record}
    {table : List Point}
    (finite : ∀ record ∈ records, ∀ number ∈ record.value, number.isFinite = true)
    (aggregated : (ofRecords settings records).2 = .ok table) :
    FiniteInRange settings records table := by
  have throughput : ∀ point ∈ table,
      point.throughput.isFinite = true ↔ SumsInRange settings.family records point.key := by
    intro point member
    exact throughput_isFinite_iff finite aggregated member
  constructor
  · exact throughput
  · refine ⟨_, Json.read?_text _, ?_⟩
    rw [Export.itemDocuments_eq_map, List.map_map, List.forall₂_map_right_iff, List.forall₂_same]
    intro point member
    rw [Function.comp_apply, Export.throughput_document, Option.some_inj,
      Export.realDocument_eq_null_iff, throughput point member]
  · intro inRange figure figureMember panel member
    apply Chart.throughputEnd_isFinite_iff
    intro mean plotted
    obtain ⟨point, pointMember, rfl⟩ := Figure.exists_point_of_mem_means figureMember member plotted
    exact (throughput point pointMember).mpr (inRange point pointMember)

/-- Two trials of one configuration near the greatest number, and a trial of another one. -/
def overflowingRecords : List Record :=
  [⟨"BM_ReadHeavyWorkload<LazyList>/1/100", some 1.7e308, .operationsPerSecond⟩,
    ⟨"BM_ReadHeavyWorkload<LazyList>/1/100", some 1.7e308, .operationsPerSecond⟩,
    ⟨"BM_ReadHeavyWorkload<LazyList>/2/100", some 5.0, .operationsPerSecond⟩]

/-- The points of those records. -/
def overflowingPoints : List Point :=
  [⟨⟨"LazyList", some .readHeavy, 1, .elements 100⟩, Float.ofBits 0x7FF0000000000000, 2⟩,
    ⟨⟨"LazyList", some .readHeavy, 2, .elements 100⟩, 5.0, 1⟩]

/-- Finite values do not always have a finite mean. -/
theorem overflowingRecords_infinite :
    (∀ record ∈ overflowingRecords, ∀ number ∈ record.value, number.isFinite = true) ∧
      (ofRecords Settings.list overflowingRecords).2 = .ok overflowingPoints ∧
      ∃ point ∈ overflowingPoints, point.throughput.isFinite = false := by
  decide +kernel

theorem finiteInRange_overflowingRecords :
    ((∀ record ∈ overflowingRecords, ∀ number ∈ record.value, number.isFinite = true) ∧
      (ofRecords Settings.list overflowingRecords).2 = .ok overflowingPoints) ∧
        FiniteInRange Settings.list overflowingRecords overflowingPoints := by
  have finite : ∀ record ∈ overflowingRecords, ∀ number ∈ record.value,
      number.isFinite = true := by decide +kernel
  have aggregated : (ofRecords Settings.list overflowingRecords).2 = .ok overflowingPoints := by
    decide +kernel
  exact ⟨⟨finite, aggregated⟩, finiteInRange_of_ofRecords finite aggregated⟩

end Aggregation

end ThroughputCharts

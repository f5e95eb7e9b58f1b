import ThroughputCharts.Proofs.InputFailures
import ThroughputCharts.Proofs.PlottedMarkers
import ThroughputCharts.Proofs.SampleRecords
import ThroughputCharts.Proofs.SampleTrials
import ThroughputCharts.Proofs.UnconfiguredVariants

/-!
# The report of a sample

A sample passes through the whole pipeline: its table is read, its names are decoded, its trials are
merged by configuration, and each configuration with a successful trial is plotted once.
-/

namespace ThroughputCharts

namespace Figure

/-- A point whose slice and variant have a place on the figures is a marker of some series. -/
theorem exists_marker_of_mem {settings : Settings} {table : List Point} {point : Point}
    (member : point ∈ table)
    (charted : ⟨point.key.workload, point.key.size⟩ ∈ (slices settings).flatten)
    (plotted : point.key.variant ∈ settings.palette.map Prod.fst) :
    ∃ slice panel series, (slice, panel) ∈ slicedPanels settings (all settings table) ∧
      series ∈ panel.series ∧ slice.keyAt series.variant point.key.threads = point.key ∧
      (point.key.threads, point.throughput) ∈ series.points := by
  let slice : Slice := ⟨point.key.workload, point.key.size⟩
  obtain ⟨⟨_, color⟩, entry, rfl⟩ := List.mem_map.mp plotted
  obtain ⟨panel, isPanel⟩ := exists_slicedPanel_of_mem_slices charted table
  refine ⟨slice, panel, ⟨_, color, Series.select table slice point.key.variant⟩, isPanel, ?_, rfl,
    Series.mem_select_iff.mpr ⟨point, member, rfl, rfl⟩⟩
  rw [series_of_slicedPanels isPanel]
  exact Series.mem_project_iff.mpr ⟨color, entry, rfl⟩

end Figure

namespace Sample

/-- The number of successful trials that were drawn for a configuration. -/
def successes (request : Request) (power : Power) (key : Key) : Nat :=
  (drawn request power).countP fun (asked, row) => asked = key && row.throughput.isSome

/-- What a report has to make of a sample. -/
structure ReportsSample (request : Request) (power : Power) (events : List Event)
    (table : List Point) : Prop where
  keys_nodup : (table.map Point.key).Nodup
  measured : ∀ key, (∃ point ∈ table, point.key = key) ↔
    request.AsksFor key ∧ 0 < successes request power key
  trials : ∀ point ∈ table, point.trials = successes request power point.key
  configured : ∀ variant, .variantUnconfigured variant ∉ events
  plottedOnce : ∀ point ∈ table,
    (Figure.markedKeys (Settings.standard request.family)
      (Figure.all (Settings.standard request.family) table)).count point.key = 1
  plotted : ∀ point ∈ table, ∃ slice panel series,
    (slice, panel) ∈ Figure.slicedPanels (Settings.standard request.family)
      (Figure.all (Settings.standard request.family) table) ∧
    series ∈ panel.series ∧ slice.keyAt series.variant point.key.threads = point.key ∧
    (point.key.threads, point.throughput) ∈ series.points

section Pipeline

variable {request : Request} {power : Power}

theorem family_standard (family : Family) : (Settings.standard family).family = family := by
  cases family <;> rfl

theorem decode_of_mem_drawn (threadsPositive : ∀ threads ∈ request.threadCounts, 1 ≤ threads)
    {key : Key} {row : Row} (member : (key, row) ∈ drawn request power) :
    request.family.decode row.name = .ok key := by
  have asked := asksFor_of_mem_drawn member
  rw [name_of_mem_drawn member]
  exact decode_caseName asked (threadsPositive key.threads asked.threads)

theorem length_recordValues (threadsPositive : ∀ threads ∈ request.threadCounts, 1 ≤ threads)
    (finite : ∀ row ∈ rows request power, row.throughput.all Float.isFinite = true) (key : Key) :
    (Aggregation.recordValues request.family
      ((rows request power).map (recordOf request.family)) key).length =
        successes request power key := by
  -- Both sides count rows, so they are compared one row at a time.
  rw [Aggregation.recordValues, List.length_filterMap_eq_countP, List.countP_filter,
    ← map_snd_drawn, List.map_map, List.countP_map, successes]
  apply List.countP_congr
  rintro ⟨asked, row⟩ member
  have decoded := decode_of_mem_drawn threadsPositive member
  have isTrial := SummaryName.not_isSummary_of_decode decoded
  have reported : Aggregation.reports request.family key (recordOf request.family row) = true ↔
      asked = key := by
    rw [Aggregation.reports_iff, recordOf, isTrial, decoded, Except.ok.injEq]
    exact and_iff_right rfl
  have valued : (recordOf request.family row).value.isSome = row.throughput.isSome := by
    have rowFinite := finite row (List.of_mem_zip member).2
    rw [recordOf]
    cases throughput : row.throughput with
    | none => rfl
    | some number =>
        rw [throughput, Option.all_some] at rowFinite
        rw [Option.filter_some, if_pos rowFinite]
  simp only [Function.comp_apply, Bool.and_eq_true, decide_eq_true_eq, reported, valued]
  exact and_comm

theorem asksFor_of_successes {key : Key} (succeeded : 0 < successes request power key) :
    request.AsksFor key := by
  obtain ⟨⟨asked, row⟩, isDrawn, drawnFor⟩ := List.countP_pos_iff.mp succeeded
  simp only [Bool.and_eq_true, decide_eq_true_eq] at drawnFor
  rw [← drawnFor.1]
  exact asksFor_of_mem_drawn isDrawn

theorem measured_iff_successes (threadsPositive : ∀ threads ∈ request.threadCounts, 1 ≤ threads)
    (finite : ∀ row ∈ rows request power, row.throughput.all Float.isFinite = true) {key : Key} :
    Aggregation.Measured request.family ((rows request power).map (recordOf request.family)) key ↔
      0 < successes request power key := by
  rw [← Aggregation.recordValues_ne_nil_iff, ← length_recordValues threadsPositive finite,
    List.length_pos_iff]

theorem aggregated_text (power : Power)
    (threadsPositive : ∀ threads ∈ request.threadCounts, 1 ≤ threads) :
    ∃ table, (Aggregation.ofRecords (Settings.standard request.family)
      ((rows request power).map (recordOf request.family))).2 = .ok table := by
  rw [Report.exists_ofRecords_eq_ok_iff, List.forall_mem_map, family_standard]
  intro row member isTrial
  rw [← map_snd_drawn] at member
  obtain ⟨⟨key, row⟩, isDrawn, rfl⟩ := List.mem_map.mp member
  exact ⟨key, decode_of_mem_drawn threadsPositive isDrawn⟩

/-- A requested configuration has a place on the figures of its family. -/
theorem mem_slices_of_asksFor {key : Key} (asked : request.AsksFor key) :
    ⟨key.workload, key.size⟩ ∈ (Figure.slices (Settings.standard request.family)).flatten := by
  have isSize := asked.size
  cases family : request.family with
  | list =>
      rw [family] at isSize
      obtain ⟨hasWorkload, isElements, -⟩ := asked.of_list family
      obtain ⟨workload, isSome⟩ := Option.isSome_iff_exists.mp hasWorkload
      have charted : (workload, workload.description) ∈ Settings.list.workloads :=
        List.mem_map_of_mem (Workload.mem_all workload)
      rw [isSome, isElements]
      exact List.mem_flatten.mpr ⟨_, List.mem_map_of_mem isSize, List.mem_map_of_mem charted⟩
  | queue =>
      rw [family] at isSize
      obtain ⟨noWorkload, isOperations, -⟩ := asked.of_queue family
      rw [noWorkload, isOperations]
      exact List.mem_flatten.mpr ⟨_, List.mem_singleton_self _, List.mem_map_of_mem isSize⟩

/-- A sample of positive thread counts is read, decoded and aggregated without a failure, and its
report shows every configuration with a successful trial and nothing else. -/
theorem report_of_text (request : Request) (power : Power) (source : String)
    (threadsPositive : ∀ threads ∈ request.threadCounts, 1 ≤ threads)
    (finite : ∀ row ∈ rows request power, row.throughput.all Float.isFinite = true) :
    ∃ records events table,
      Table.read request.family source (Text.toUtf8 (text request power)) = .ok records ∧
      Aggregation.ofRecords (Settings.standard request.family) records = (events, .ok table) ∧
      ReportsSample request power events table := by
  obtain ⟨table, aggregated⟩ := aggregated_text power threadsPositive
  refine ⟨_, _, table, read_text request power source, Prod.ext rfl aggregated, ?_⟩
  have row {point : Point} (member : point ∈ table) :
      0 < successes request power point.key ∧ point.trials = successes request power point.key := by
    obtain ⟨measured, shape⟩ := (Aggregation.mem_iff_of_ofRecords aggregated).mp member
    rw [family_standard] at measured shape
    rw [← length_recordValues threadsPositive finite]
    exact ⟨List.length_pos_iff.mpr (Aggregation.recordValues_ne_nil_iff.mpr measured),
      congrArg Point.trials shape⟩
  have asked {point : Point} (member : point ∈ table) : request.AsksFor point.key :=
    asksFor_of_successes (row member).1
  constructor
  case keys_nodup =>
    exact List.pairwise_map.mpr
      ((Aggregation.ascending_of_ofRecords aggregated).imp Key.Precedes.ne)
  case measured =>
    intro key
    constructor
    · rintro ⟨point, member, rfl⟩
      exact ⟨asked member, (row member).1⟩
    · rintro ⟨-, succeeded⟩
      have measured : Aggregation.Measured (Settings.standard request.family).family
          ((rows request power).map (recordOf request.family)) key := by
        rw [family_standard]
        exact (measured_iff_successes threadsPositive finite).mpr succeeded
      obtain ⟨point, member, isKey, -⟩ := Aggregation.exists_point_of_measured aggregated measured
      exact ⟨point, member, isKey⟩
  case trials => exact fun point member => (row member).2
  case configured =>
    intro variant reported
    obtain ⟨⟨point, member, rfl⟩, noColor⟩ :=
      (Aggregation.variantUnconfigured_mem_iff aggregated).mp reported
    obtain ⟨entry, isEntry, isVariant⟩ := List.mem_map.mp (asked member).variant
    have differs := List.lookup_eq_none_iff.mp noColor entry isEntry
    simp [isVariant] at differs
  case plottedOnce =>
    intro point member
    obtain ⟨measured, -⟩ := (Aggregation.mem_iff_of_ofRecords aggregated).mp member
    exact List.count_eq_one_of_mem
      (Figure.markedKeys_nodup (Settings.distinct_standard _)
        (Aggregation.ascending_of_ofRecords aggregated))
      (Figure.mem_markedKeys_of_measured aggregated (mem_slices_of_asksFor (asked member))
        (asked member).variant measured)
  case plotted =>
    intro point member
    exact Figure.exists_marker_of_mem member (mem_slices_of_asksFor (asked member))
      (asked member).variant

end Pipeline

/-- A small request that repeats a thread count and lets about half of the trials fail. -/
def halfFailing : Request where
  family := .queue
  trials := 1
  threadCounts := [1, 1]
  failureRate := 0.5
  seed := 42

/-- The power of one thread, which is all that the request needs. -/
def powerOfOne : Power := fun _ _ => 1.0

theorem report_of_halfFailing :
    ((∀ threads ∈ halfFailing.threadCounts, 1 ≤ threads) ∧
      ∀ row ∈ rows halfFailing powerOfOne, row.throughput.all Float.isFinite = true) ∧
    ∃ records events table,
      Table.read halfFailing.family "queue_benchmark.csv"
        (Text.toUtf8 (text halfFailing powerOfOne)) = .ok records ∧
      Aggregation.ofRecords (Settings.standard halfFailing.family) records = (events, .ok table) ∧
      ReportsSample halfFailing powerOfOne events table := by
  have threadsPositive : ∀ threads ∈ halfFailing.threadCounts, 1 ≤ threads :=
    List.forall_mem_cons.mpr ⟨by decide, List.forall_mem_singleton.mpr (by decide)⟩
  have finite : ∀ row ∈ rows halfFailing powerOfOne,
      row.throughput.all Float.isFinite = true := by
    decide +kernel
  exact ⟨⟨threadsPositive, finite⟩,
    report_of_text halfFailing powerOfOne "queue_benchmark.csv" threadsPositive finite⟩

end Sample
end ThroughputCharts

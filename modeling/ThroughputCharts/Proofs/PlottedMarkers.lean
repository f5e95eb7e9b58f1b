import Mathlib.Data.List.Nodup
import ThroughputCharts.Figure
import ThroughputCharts.Proofs.RecordValues

/-!
# Markers on the charts of a report

Each panel shows its own slice of the points, and in it each series its own variant.  When no entry
of the settings is repeated, every measured configuration that has a place on the charts is therefore
marked once, at its mean, and the markers of a series ascend by thread count.
-/

namespace ThroughputCharts

namespace Settings

/-- No variant, workload or size is configured twice. -/
structure Distinct (settings : Settings) : Prop where
  variants : (settings.palette.map Prod.fst).Nodup
  workloads : (settings.workloads.map Prod.fst).Nodup
  sizes : (settings.sizes.map ProblemSize.count).Nodup

theorem distinct_standard (family : Family) : (standard family).Distinct := by
  cases family <;> constructor <;> decide

end Settings

/-- The configuration of a variant in a slice at a thread count. -/
def Slice.keyAt (slice : Slice) (variant : String) (threads : UInt64) : Key :=
  ⟨variant, slice.workload, threads, slice.size⟩

theorem Slice.eq_keyAt_iff {slice : Slice} {variant : String} {key : Key} :
    key.variant = variant ∧ key.workload = slice.workload ∧ key.size = slice.size ↔
      key = slice.keyAt variant key.threads := by
  cases key
  simp [keyAt]

namespace Series

/-- The configurations that a series of a slice marks. -/
def keys (slice : Slice) (series : Series) : List Key :=
  series.points.map fun (threads, _) => slice.keyAt series.variant threads

/-- The points of a variant in a slice, in input order. -/
def shown (points : List Point) (slice : Slice) (variant : String) : List (UInt64 × Float) :=
  (points.filter fun point => point.key.variant = variant ∧
    point.key.workload = slice.workload ∧ point.key.size = slice.size).map
      fun point => (point.key.threads, point.throughput)

/-- The order in which the markers of a series are sorted. -/
def threadsLe (first second : UInt64 × Float) : Bool :=
  decide (first.1 ≤ second.1)

section Selection

variable {table : List Point} {slice : Slice} {variant : String}

theorem select_eq_mergeSort (table : List Point) (slice : Slice) (variant : String) :
    select table slice variant = (shown table slice variant).mergeSort threadsLe := by
  have sameFilter : (fun point : Point => point.key.variant == variant && slice.contains point.key) =
      fun point => decide (point.key.variant = variant ∧
        point.key.workload = slice.workload ∧ point.key.size = slice.size) := by
    funext point
    simp [Slice.contains, Bool.beq_eq_decide_eq]
  rw [select, sameFilter]
  rfl

theorem mem_shown_iff {threads : UInt64} {mean : Float} :
    (threads, mean) ∈ shown table slice variant ↔
      ∃ point ∈ table, point.key = slice.keyAt variant threads ∧ point.throughput = mean := by
  simp only [shown, List.mem_map, List.mem_filter, decide_eq_true_eq, Slice.eq_keyAt_iff,
    Prod.mk.injEq]
  constructor
  · rintro ⟨point, ⟨member, inSlice⟩, rfl, rfl⟩
    exact ⟨point, member, inSlice, rfl⟩
  · rintro ⟨point, member, isKey, rfl⟩
    have sameThreads : point.key.threads = threads := by rw [isKey, Slice.keyAt]
    exact ⟨point, ⟨member, by rw [sameThreads, isKey]⟩, sameThreads, rfl⟩

/-- Points that ascend by key show the markers of a series in the order of their thread counts. -/
theorem shown_ascending
    (ascending : table.Pairwise fun first second => first.key.Precedes second.key) :
    (shown table slice variant).Pairwise fun first second => first.1 < second.1 := by
  apply List.pairwise_map.mpr
  refine List.Pairwise.imp_of_mem ?_ (ascending.filter _)
  intro first second firstMember secondMember before
  simp only [List.mem_filter, decide_eq_true_eq, Slice.eq_keyAt_iff] at firstMember secondMember
  apply before.threads_lt <;>
    rw [firstMember.2, secondMember.2, Slice.keyAt, Slice.keyAt]

/-- Points that ascend by key are selected as they are. -/
theorem select_eq_shown
    (ascending : table.Pairwise fun first second => first.key.Precedes second.key) :
    select table slice variant = shown table slice variant := by
  rw [select_eq_mergeSort, List.mergeSort_of_pairwise]
  exact (shown_ascending ascending).imp fun less => decide_eq_true (UInt64.le_of_lt less)

theorem select_ascending
    (ascending : table.Pairwise fun first second => first.key.Precedes second.key) :
    (select table slice variant).Pairwise fun first second => first.1 < second.1 := by
  rw [select_eq_shown ascending]
  exact shown_ascending ascending

theorem mem_select_iff {threads : UInt64} {mean : Float} :
    (threads, mean) ∈ select table slice variant ↔
      ∃ point ∈ table, point.key = slice.keyAt variant threads ∧ point.throughput = mean := by
  rw [select_eq_mergeSort, List.mem_mergeSort, mem_shown_iff]

end Selection

theorem mem_project_iff {settings : Settings} {table : List Point} {slice : Slice}
    {series : Series} :
    series ∈ project settings table slice ↔
      ∃ color, (series.variant, color) ∈ settings.palette ∧
        series = ⟨series.variant, color, select table slice series.variant⟩ := by
  simp only [project, List.mem_map, Prod.exists]
  constructor
  · rintro ⟨variant, color, member, rfl⟩
    exact ⟨color, member, rfl⟩
  · rintro ⟨color, member, shape⟩
    exact ⟨series.variant, color, member, shape.symm⟩

theorem mem_keys_iff {slice : Slice} {series : Series} {key : Key} :
    key ∈ series.keys slice ↔
      key = slice.keyAt series.variant key.threads ∧
        key.threads ∈ series.points.map Prod.fst := by
  simp only [keys, List.mem_map]
  constructor
  · rintro ⟨marker, member, rfl⟩
    exact ⟨rfl, marker, member, rfl⟩
  · rintro ⟨isKey, marker, member, sameThreads⟩
    exact ⟨marker, member, by rw [isKey, sameThreads]⟩

end Series

namespace Figure

/-- The slices of the panels, figure by figure. -/
def slices (settings : Settings) : List (List Slice) :=
  match settings.family with
  | .list => settings.sizes.map fun size =>
      settings.workloads.map fun entry => ⟨some entry.1, .elements size.count⟩
  | .queue => [settings.sizes.map fun size => ⟨none, .operations size.count⟩]

/-- The panels of all figures, each with its slice. -/
def slicedPanels (settings : Settings) (figures : List Figure) : List (Slice × Panel) :=
  ((slices settings).zip figures).flatMap fun (row, figure) => row.zip figure.panels

/-- The configurations of all markers on the figures. -/
def markedKeys (settings : Settings) (figures : List Figure) : List Key :=
  (slicedPanels settings figures).flatMap fun (slice, panel) =>
    panel.series.flatMap (Series.keys slice)

@[simp]
theorem ofListSize_panels (settings : Settings) (points : List Point) (size : UInt64) :
    (ofListSize settings points size).panels =
      settings.workloads.map (listPanel settings points size) := rfl

@[simp]
theorem ofQueueSizes_panels (settings : Settings) (points : List Point) :
    (ofQueueSizes settings points).panels =
      settings.sizes.map fun size => queuePanel settings points size.count := rfl

theorem panelCounts_all (settings : Settings) (points : List Point) :
    (all settings points).map (fun figure => figure.panels.length) =
      (slices settings).map List.length := by
  unfold all slices
  cases settings.family <;> simp [Function.comp_def]

/-- The panel of a slice shows the projection of the points to it. -/
theorem slicedPanels_all (settings : Settings) (points : List Point) :
    (slicedPanels settings (all settings points)).map (fun (slice, panel) => (slice, panel.series)) =
      (slices settings).flatten.map fun slice => (slice, Series.project settings points slice) := by
  unfold slicedPanels all slices
  cases settings.family with
  | list =>
      dsimp only
      rw [List.zip_map', List.flatMap_map, List.map_flatMap, List.map_flatten, List.map_map,
        List.flatMap_def]
      congr 1
      apply List.map_congr_left
      intro size _
      simp only [Function.comp_apply]
      rw [ofListSize_panels, List.zip_map', List.map_map, List.map_map]
      rfl
  | queue =>
      dsimp only
      rw [List.zip_cons_cons, List.zip_nil_right, List.flatMap_singleton, List.flatten_singleton]
      dsimp only
      rw [ofQueueSizes_panels, List.zip_map', List.map_map, List.map_map]
      rfl

theorem slices_nodup {settings : Settings} (distinct : settings.Distinct) :
    (slices settings).flatten.Nodup := by
  have sizes := List.pairwise_map.mp distinct.sizes
  have workloads := List.pairwise_map.mp distinct.workloads
  unfold slices
  cases settings.family with
  | list =>
      rw [← List.flatMap_def, List.nodup_flatMap]
      constructor
      · intro size _
        apply List.pairwise_map.mpr
        refine workloads.imp ?_
        intro first second different same
        rw [Slice.mk.injEq, Option.some.injEq] at same
        exact different same.1
      · refine sizes.imp ?_
        intro first second different slice inFirst inSecond
        obtain ⟨firstEntry, -, rfl⟩ := List.mem_map.mp inFirst
        obtain ⟨secondEntry, -, same⟩ := List.mem_map.mp inSecond
        rw [Slice.mk.injEq, ProblemSize.elements.injEq] at same
        exact different same.2.symm
  | queue =>
      rw [List.flatten_singleton]
      apply List.pairwise_map.mpr
      refine sizes.imp ?_
      intro first second different same
      rw [Slice.mk.injEq, ProblemSize.operations.injEq] at same
      exact different same.2

/-- What is read off the panels of all figures is read off the projections to their slices. -/
theorem flatMap_slicedPanels_all {Item : Type} (readPanel : Slice → List Series → List Item)
    (settings : Settings) (points : List Point) :
    (slicedPanels settings (all settings points)).flatMap
        (fun (slice, panel) => readPanel slice panel.series) =
      (slices settings).flatten.flatMap fun slice =>
        readPanel slice (Series.project settings points slice) := by
  calc
    (slicedPanels settings (all settings points)).flatMap
        (fun (slice, panel) => readPanel slice panel.series) =
        ((slicedPanels settings (all settings points)).map
          fun (slice, panel) => (slice, panel.series)).flatMap
            fun (slice, series) => readPanel slice series := by
      rw [List.flatMap_map]
    _ = (slices settings).flatten.flatMap fun slice =>
          readPanel slice (Series.project settings points slice) := by
      rw [slicedPanels_all, List.flatMap_map]

theorem markedKeys_all (settings : Settings) (points : List Point) :
    markedKeys settings (all settings points) =
      (slices settings).flatten.flatMap fun slice =>
        (Series.project settings points slice).flatMap (Series.keys slice) :=
  flatMap_slicedPanels_all (fun slice series => series.flatMap (Series.keys slice)) settings points

/-- No two markers on the figures belong to one configuration. -/
theorem markedKeys_nodup {settings : Settings} (distinct : settings.Distinct) {table : List Point}
    (ascending : table.Pairwise fun first second => first.key.Precedes second.key) :
    (markedKeys settings (all settings table)).Nodup := by
  rw [markedKeys_all, List.nodup_flatMap]
  constructor
  · intro slice _
    rw [List.nodup_flatMap]
    constructor
    · intro series member
      obtain ⟨color, -, shape⟩ := Series.mem_project_iff.mp member
      rw [shape]
      apply List.pairwise_map.mpr
      refine (Series.select_ascending ascending).imp ?_
      intro first second less same
      exact UInt64.ne_of_lt less (congrArg Key.threads same)
    · apply List.pairwise_map.mpr
      refine (List.pairwise_map.mp distinct.variants).imp ?_
      intro first second different key inFirst inSecond
      have firstKey := (Series.mem_keys_iff.mp inFirst).1
      have secondKey := (Series.mem_keys_iff.mp inSecond).1
      exact different (congrArg Key.variant (firstKey.symm.trans secondKey))
  · refine (slices_nodup distinct).imp ?_
    intro first second different key inFirst inSecond
    obtain ⟨_, -, inFirstSeries⟩ := List.mem_flatMap.mp inFirst
    obtain ⟨_, -, inSecondSeries⟩ := List.mem_flatMap.mp inSecond
    have same := (Series.mem_keys_iff.mp inFirstSeries).1.symm.trans
      (Series.mem_keys_iff.mp inSecondSeries).1
    simp only [Slice.keyAt, Key.mk.injEq] at same
    apply different
    cases first
    cases second
    rw [Slice.mk.injEq]
    exact ⟨same.2.1, same.2.2.2⟩

/-- What the figures of a report have to show of its records. -/
structure ShowsRecords (settings : Settings) (records : List Record)
    (figures : List Figure) : Prop where
  panelCounts : figures.map (fun figure => figure.panels.length) =
    (slices settings).map List.length
  variants : ∀ slice panel, (slice, panel) ∈ slicedPanels settings figures →
    panel.series.map Series.variant = settings.palette.map Prod.fst
  ascending : ∀ slice panel, (slice, panel) ∈ slicedPanels settings figures →
    ∀ series ∈ panel.series, series.points.Pairwise fun first second => first.1 < second.1
  marked : ∀ slice panel, (slice, panel) ∈ slicedPanels settings figures →
    ∀ series ∈ panel.series, ∀ threads, threads ∈ series.points.map Prod.fst ↔
      Aggregation.Measured settings.family records (slice.keyAt series.variant threads)
  averaged : ∀ slice panel, (slice, panel) ∈ slicedPanels settings figures →
    ∀ series ∈ panel.series, ∀ threads mean, (threads, mean) ∈ series.points →
      mean = Aggregation.recordMean settings.family records (slice.keyAt series.variant threads)
  markedOnce : ∀ slice ∈ (slices settings).flatten, ∀ variant ∈ settings.palette.map Prod.fst,
    ∀ threads, Aggregation.Measured settings.family records (slice.keyAt variant threads) →
      (markedKeys settings figures).count (slice.keyAt variant threads) = 1

theorem series_of_slicedPanels {settings : Settings} {table : List Point} {slice : Slice}
    {panel : Panel} (member : (slice, panel) ∈ slicedPanels settings (all settings table)) :
    panel.series = Series.project settings table slice := by
  have mapped := List.mem_map_of_mem (f := fun (slice, panel) => (slice, panel.series)) member
  rw [slicedPanels_all] at mapped
  obtain ⟨found, -, same⟩ := List.mem_map.mp mapped
  rw [Prod.mk.injEq] at same
  obtain ⟨rfl, isProjection⟩ := same
  exact isProjection.symm

theorem exists_slicedPanel_of_mem_slices {settings : Settings} {slice : Slice}
    (charted : slice ∈ (slices settings).flatten) (table : List Point) :
    ∃ panel, (slice, panel) ∈ slicedPanels settings (all settings table) := by
  have projected := List.mem_map_of_mem
    (f := fun slice => (slice, Series.project settings table slice)) charted
  rw [← slicedPanels_all] at projected
  obtain ⟨⟨_, panel⟩, isPanel, same⟩ := List.mem_map.mp projected
  rw [Prod.mk.injEq] at same
  obtain ⟨rfl, -⟩ := same
  exact ⟨panel, isPanel⟩

section Report

variable {settings : Settings} {records : List Record} {table : List Point}

/-- A series marks the means of the measured configurations of its variant and slice. -/
theorem mem_select_of_ofRecords
    (aggregated : (Aggregation.ofRecords settings records).2 = .ok table) {slice : Slice}
    {variant : String} {threads : UInt64} {mean : Float} :
    (threads, mean) ∈ Series.select table slice variant ↔
      Aggregation.Measured settings.family records (slice.keyAt variant threads) ∧
        mean = Aggregation.recordMean settings.family records (slice.keyAt variant threads) := by
  rw [Series.mem_select_iff]
  constructor
  · rintro ⟨point, member, isKey, rfl⟩
    obtain ⟨measured, shape⟩ := (Aggregation.mem_iff_of_ofRecords aggregated).mp member
    rw [← isKey]
    exact ⟨measured, congrArg Point.throughput shape⟩
  · rintro ⟨measured, rfl⟩
    exact Aggregation.exists_point_of_measured aggregated measured

theorem mem_threads_select_of_ofRecords
    (aggregated : (Aggregation.ofRecords settings records).2 = .ok table) {slice : Slice}
    {variant : String} {threads : UInt64} :
    threads ∈ (Series.select table slice variant).map Prod.fst ↔
      Aggregation.Measured settings.family records (slice.keyAt variant threads) := by
  constructor
  · intro member
    obtain ⟨⟨_, mean⟩, isMarker, rfl⟩ := List.mem_map.mp member
    exact ((mem_select_of_ofRecords aggregated).mp isMarker).1
  · intro measured
    exact List.mem_map.mpr
      ⟨_, (mem_select_of_ofRecords aggregated).mpr ⟨measured, rfl⟩, rfl⟩

theorem mem_markedKeys_of_measured
    (aggregated : (Aggregation.ofRecords settings records).2 = .ok table) {slice : Slice}
    (charted : slice ∈ (slices settings).flatten) {variant : String}
    (plotted : variant ∈ settings.palette.map Prod.fst) {threads : UInt64}
    (measured : Aggregation.Measured settings.family records (slice.keyAt variant threads)) :
    slice.keyAt variant threads ∈ markedKeys settings (all settings table) := by
  obtain ⟨⟨variant, color⟩, entry, rfl⟩ := List.mem_map.mp plotted
  let series : Series := ⟨variant, color, Series.select table slice variant⟩
  have isSeries : series ∈ Series.project settings table slice :=
    Series.mem_project_iff.mpr ⟨color, entry, rfl⟩
  have isKey : slice.keyAt variant threads ∈ series.keys slice :=
    Series.mem_keys_iff.mpr ⟨rfl, (mem_threads_select_of_ofRecords aggregated).mpr measured⟩
  rw [markedKeys_all]
  exact List.mem_flatMap.mpr ⟨slice, charted, List.mem_flatMap.mpr ⟨series, isSeries, isKey⟩⟩

end Report

/-- The figures of a report show its records: a series has a marker just for the thread counts that
were measured, each at the mean of its values, and no configuration is marked twice. -/
theorem showsRecords_all (settings : Settings) (distinct : settings.Distinct)
    (records : List Record) (table : List Point)
    (aggregated : (Aggregation.ofRecords settings records).2 = .ok table) :
    ShowsRecords settings records (all settings table) where
  panelCounts := panelCounts_all settings table
  variants slice panel member := by
    rw [series_of_slicedPanels member, Series.project, List.map_map]
    rfl
  ascending slice panel member series inPanel := by
    rw [series_of_slicedPanels member] at inPanel
    obtain ⟨color, -, shape⟩ := Series.mem_project_iff.mp inPanel
    rw [shape]
    exact Series.select_ascending (Aggregation.ascending_of_ofRecords aggregated)
  marked slice panel member series inPanel threads := by
    rw [series_of_slicedPanels member] at inPanel
    obtain ⟨color, -, shape⟩ := Series.mem_project_iff.mp inPanel
    rw [congrArg Series.points shape]
    exact mem_threads_select_of_ofRecords aggregated
  averaged slice panel member series inPanel threads mean isMarker := by
    rw [series_of_slicedPanels member] at inPanel
    obtain ⟨color, -, shape⟩ := Series.mem_project_iff.mp inPanel
    rw [congrArg Series.points shape] at isMarker
    exact ((mem_select_of_ofRecords aggregated).mp isMarker).2
  markedOnce slice charted variant plotted threads measured :=
    List.count_eq_one_of_mem
      (markedKeys_nodup distinct (Aggregation.ascending_of_ofRecords aggregated))
      (mem_markedKeys_of_measured aggregated charted plotted measured)

/-- A table with repeated trials out of order, a failed trial, a summary and a variant that is not
plotted. -/
def mixedRecords : List Record :=
  [⟨"BM_ReadHeavyWorkload<LazyList<int>>/8/1000", some 900000.0, .operationsPerSecond⟩,
    ⟨"BM_BalancedWorkload<SkipList>/8/1000", some 1.0, .operationsPerSecond⟩,
    ⟨"BM_ReadHeavyWorkload<LazyList<int>>/4/1000", some 500000.0, .operationsPerSecond⟩,
    ⟨"BM_ReadHeavyWorkload<LazyList<int>>/8/1000", none, .operationsPerSecond⟩,
    ⟨"BM_ReadHeavyWorkload<LazyList<int>>/8/1000", some 700000.0, .operationsPerSecond⟩,
    ⟨"BM_ReadHeavyWorkload<LazyList<int>>/8/1000_mean", some 800000.0, .operationsPerSecond⟩]

/-- The points of that table. -/
def mixedPoints : List Point :=
  [⟨⟨"LazyList", some .readHeavy, 4, .elements 1000⟩, 500000.0, 1⟩,
    ⟨⟨"LazyList", some .readHeavy, 8, .elements 1000⟩, 800000.0, 2⟩,
    ⟨⟨"SkipList", some .balanced, 8, .elements 1000⟩, 1.0, 1⟩]

theorem showsRecords_mixedRecords :
    (Settings.list.Distinct ∧
      (Aggregation.ofRecords Settings.list mixedRecords).2 = .ok mixedPoints) ∧
        ShowsRecords Settings.list mixedRecords (all Settings.list mixedPoints) := by
  have distinct : Settings.list.Distinct := Settings.distinct_standard .list
  have aggregated : (Aggregation.ofRecords Settings.list mixedRecords).2 = .ok mixedPoints := by
    decide +kernel
  exact ⟨⟨distinct, aggregated⟩, showsRecords_all _ distinct _ _ aggregated⟩

end Figure

end ThroughputCharts

import Mathlib.Data.List.Perm.Basic
import Mathlib.Data.List.ProdSigma
import ThroughputCharts.Proofs.PlottedMarkers

/-!
# How often a point is marked

The settings of a report may repeat a size, a workload or a variant, and then a point is marked once
for each way to reach its place.  Counted with this multiplicity the markers of all figures are the
points of the table, each one as often as its configuration has places and no other.
-/

namespace ThroughputCharts

namespace Settings

/-- The number of places that the figures have for a configuration.  A list configuration takes a size,
a workload and a variant, and a queue configuration a size and a variant; it does not matter what the
configured sizes count. -/
def placeCount (settings : Settings) (key : Key) : Nat :=
  match settings.family, key.workload, key.size with
  | .list, some workload, .elements count =>
    settings.sizes.countP (fun size => size.count = count) *
      settings.workloads.countP (fun entry => entry.1 = workload) *
      settings.palette.countP (fun entry => entry.1 = key.variant)
  | .queue, none, .operations count =>
    settings.sizes.countP (fun size => size.count = count) *
      settings.palette.countP (fun entry => entry.1 = key.variant)
  | _, _, _ => 0

end Settings

/-- A point as it is marked: its configuration at its throughput. -/
def Point.marker (point : Point) : Key × Float :=
  (point.key, point.throughput)

/-- The markers of a series in a slice. -/
def Series.markers (slice : Slice) (series : Series) : List (Key × Float) :=
  series.points.map fun (threads, throughput) => (slice.keyAt series.variant threads, throughput)

namespace Figure

/-- The markers of all panels of the figures. -/
def markers (settings : Settings) (figures : List Figure) : List (Key × Float) :=
  (slicedPanels settings figures).flatMap fun (slice, panel) =>
    panel.series.flatMap (Series.markers slice)

/-- What figures have to show of the points: each point in all places of its configuration, no other
marker, and a panel without markers only where there is nothing to show. -/
structure ShowsPoints (settings : Settings) (points : List Point) (figures : List Figure) :
    Prop where
  panelCounts : figures.map (fun figure => figure.panels.length) =
    (slices settings).map List.length
  marked : (markers settings figures).Perm
    (points.flatMap fun point => List.replicate (settings.placeCount point.key) point.marker)
  isEmpty_iff : ∀ slice panel, (slice, panel) ∈ slicedPanels settings figures →
    (panel.isEmpty = true ↔ ∀ point ∈ points, point.key.workload = slice.workload →
      point.key.size = slice.size → point.key.variant ∉ settings.palette.map Prod.fst)

section Counting

variable {First Second Image : Type}

theorem flatMap_product (image : First × Second → List Image) (first : List First)
    (second : List Second) :
    (first ×ˢ second).flatMap image =
      first.flatMap fun item => second.flatMap fun other => image (item, other) := by
  induction first with
  | nil => rfl
  | cons item first induction =>
      rw [List.product_cons, List.flatMap_append, induction, List.flatMap_map, List.flatMap_cons]

theorem countP_product (isFirst : First → Bool) (isSecond : Second → Bool) (first : List First)
    (second : List Second) :
    (first ×ˢ second).countP (fun pair => isFirst pair.1 && isSecond pair.2) =
      first.countP isFirst * second.countP isSecond := by
  induction first with
  | nil => simp
  | cons item first induction =>
      rw [List.product_cons, List.countP_append, List.countP_map, induction, List.countP_cons,
        Nat.add_mul, Nat.add_comm]
      congr 1
      by_cases holds : isFirst item = true <;> simp [Function.comp_def, holds]

theorem flatMap_ite_singleton (selects : First → Bool) (image : Image) (first : List First) :
    (first.flatMap fun item => if selects item then [image] else []) =
      List.replicate (first.countP selects) image := by
  induction first with
  | nil => rfl
  | cons item first induction =>
      rw [List.flatMap_cons, induction, List.countP_cons]
      by_cases holds : selects item = true <;> simp [holds, List.replicate_succ]

/-- When every item of one list selects from another, each item there is selected as often as there
are items that select it. -/
theorem flatMap_filter_perm (selects : First → Second → Bool) (image : Second → Image)
    (first : List First) (second : List Second) :
    (first.flatMap fun item => (second.filter (selects item)).map image).Perm
      (second.flatMap fun other =>
        List.replicate (first.countP fun item => selects item other) (image other)) := by
  induction second with
  | nil => simp
  | cons other second induction =>
      have split : (first.flatMap fun item => ((other :: second).filter (selects item)).map image) =
          first.flatMap fun item => (if selects item other then [image other] else []) ++
            (second.filter (selects item)).map image := by
        congr 1
        funext item
        by_cases selected : selects item other = true <;> simp [selected]
      rw [split, List.flatMap_cons, ← flatMap_ite_singleton]
      exact (List.flatMap_append_perm first _ _).symm.trans (induction.append_left _)

end Counting

section Places

/-- The places of the figures: the slice of a panel with the variant of a series, where repeated
entries of the settings repeat theirs. -/
def places (settings : Settings) : List (Slice × String) :=
  (slices settings).flatten ×ˢ settings.palette.map Prod.fst

/-- Whether a place is one for a configuration. -/
def takes (place : Slice × String) (key : Key) : Bool :=
  (key.workload = place.1.workload ∧ key.size = place.1.size) && key.variant = place.2

variable (settings : Settings)

theorem flatten_slices_of_list (family : settings.family = .list) :
    (slices settings).flatten = (settings.sizes ×ˢ settings.workloads).map fun pair =>
      ⟨some pair.2.1, .elements pair.1.count⟩ := by
  simp only [slices, family, ← List.flatMap_def]
  simp only [List.map_eq_flatMap, flatMap_product]

theorem flatten_slices_of_queue (family : settings.family = .queue) :
    (slices settings).flatten = settings.sizes.map fun size => ⟨none, .operations size.count⟩ := by
  simp only [slices, family, List.flatten_singleton]

theorem countP_slices (key : Key) :
    ((slices settings).flatten.countP fun slice =>
        key.workload = slice.workload ∧ key.size = slice.size) *
      settings.palette.countP (fun entry => entry.1 = key.variant) = settings.placeCount key := by
  obtain ⟨variant, workload, threads, size⟩ := key
  cases family : settings.family with
  | list =>
      rw [flatten_slices_of_list settings family, List.countP_map, Settings.placeCount, family]
      rcases workload with _ | workload <;> rcases size with count | count
      case some.elements =>
        congr 1
        rw [← countP_product]
        congr 1
        funext pair
        simp [eq_comm, Bool.and_comm]
      all_goals simp [Function.comp_def]
  | queue =>
      rw [flatten_slices_of_queue settings family, List.countP_map, Settings.placeCount, family]
      rcases workload with _ | workload <;> rcases size with count | count
      case none.operations =>
        congr 2
        funext size
        simp [eq_comm]
      all_goals simp [Function.comp_def]

theorem countP_places (key : Key) :
    (places settings).countP (fun place => takes place key) = settings.placeCount key := by
  unfold places takes
  rw [countP_product (fun slice : Slice => key.workload = slice.workload ∧ key.size = slice.size)
    (fun variant => key.variant = variant), List.countP_map, ← countP_slices]
  congr 2
  funext entry
  simp [eq_comm]

end Places

section Marking

variable (settings : Settings) (points : List Point)

theorem markers_all :
    markers settings (all settings points) =
      (places settings).flatMap fun (slice, variant) =>
        (Series.select points slice variant).map fun (threads, throughput) =>
          (slice.keyAt variant threads, throughput) := by
  rw [markers, flatMap_slicedPanels_all fun slice series => series.flatMap (Series.markers slice),
    places, flatMap_product]
  simp only [List.flatMap_map, Series.project, Series.markers]

/-- A series marks the points that its place takes. -/
theorem map_select_perm (slice : Slice) (variant : String) :
    ((Series.select points slice variant).map fun (threads, throughput) =>
      (slice.keyAt variant threads, throughput)).Perm
        ((points.filter fun point => takes (slice, variant) point.key).map Point.marker) := by
  rw [Series.select_eq_mergeSort]
  refine ((List.mergeSort_perm _ _).map _).trans (.of_eq ?_)
  have sameFilter : (fun point : Point => takes (slice, variant) point.key) =
      fun point => decide (point.key.variant = variant ∧
        point.key.workload = slice.workload ∧ point.key.size = slice.size) := by
    funext point
    simp only [takes, Bool.decide_and]
    exact Bool.and_comm _ _
  rw [Series.shown, sameFilter, List.map_map]
  apply List.map_congr_left
  intro point member
  have isKey := Slice.eq_keyAt_iff.mp (of_decide_eq_true (List.mem_filter.mp member).2)
  exact Prod.ext isKey.symm rfl

/-- The markers are the points, each as often as its configuration has places. -/
theorem markers_all_perm :
    (markers settings (all settings points)).Perm
      (points.flatMap fun point =>
        List.replicate (settings.placeCount point.key) point.marker) := by
  rw [markers_all]
  simp only [← countP_places]
  exact (List.Perm.flatMap_left _ fun place _ => map_select_perm points place.1 place.2).trans
    (flatMap_filter_perm (fun place point => takes place point.key) Point.marker _ points)

theorem select_eq_nil_iff (slice : Slice) (variant : String) :
    Series.select points slice variant = [] ↔ ∀ point ∈ points,
      point.key.workload = slice.workload → point.key.size = slice.size →
        point.key.variant ≠ variant := by
  rw [Series.select_eq_mergeSort, ← List.length_eq_zero_iff, List.length_mergeSort,
    List.length_eq_zero_iff, Series.shown, List.map_eq_nil_iff, List.filter_eq_nil_iff]
  refine forall₂_congr fun point _ => ?_
  rw [decide_eq_true_eq]
  tauto

theorem isEmpty_iff_of_mem_slicedPanels {slice : Slice} {panel : Panel}
    (member : (slice, panel) ∈ slicedPanels settings (all settings points)) :
    panel.isEmpty = true ↔ ∀ point ∈ points, point.key.workload = slice.workload →
      point.key.size = slice.size → point.key.variant ∉ settings.palette.map Prod.fst := by
  rw [Panel.isEmpty, series_of_slicedPanels member, Series.project, List.all_map,
    List.all_eq_true]
  simp only [Function.comp_apply, Series.isEmpty, List.isEmpty_iff, select_eq_nil_iff]
  constructor
  · intro empty point isPoint workload size plotted
    obtain ⟨entry, isEntry, isVariant⟩ := List.mem_map.mp plotted
    exact empty entry isEntry point isPoint workload size isVariant.symm
  · intro absent entry isEntry point isPoint workload size isVariant
    exact absent point isPoint workload size (isVariant ▸ List.mem_map_of_mem isEntry)

end Marking

/-- Under any settings, repeated entries or not, the figures show each point in all places of its
configuration. -/
theorem showsPoints_all (settings : Settings) (points : List Point) :
    ShowsPoints settings points (all settings points) where
  panelCounts := panelCounts_all settings points
  marked := markers_all_perm settings points
  isEmpty_iff _ _ := isEmpty_iff_of_mem_slicedPanels settings points

/-- A size that is configured for both kinds gives a list configuration two places. -/
example : { Settings.list with sizes := [.elements 100, .operations 100] }.placeCount
    ⟨"LazyList", some .balanced, 4, .elements 100⟩ = 2 := by
  decide

end Figure
end ThroughputCharts

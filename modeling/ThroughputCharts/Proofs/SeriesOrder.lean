import ThroughputCharts.Proofs.Grouping
import ThroughputCharts.Proofs.PlottedMarkers

/-!
# The order of the markers in a series

A series is a stable sort by thread count of the points of its variant in its slice: it holds each of
them, and those of one thread count stay as they came.  The points of an aggregation ascend by key, so
that there is nothing left to sort in them.
-/

namespace ThroughputCharts
namespace Series

/-- The markers of one thread count. -/
def markersAt (threads : UInt64) (markers : List (UInt64 × Float)) : List (UInt64 × Float) :=
  markers.filter fun marker => marker.1 = threads

/-- What the series of a slice have to be: one for each entry of the palette, with every point of its
variant in the slice, ascending by thread count and otherwise in input order. -/
structure IsProjection (settings : Settings) (points : List Point) (slice : Slice)
    (projection : List Series) : Prop where
  entries : projection.map (fun series => (series.variant, series.color)) = settings.palette
  selected : ∀ series ∈ projection, series.points.Perm (shown points slice series.variant)
  ascending : ∀ series ∈ projection,
    series.points.Pairwise fun first second => first.1 ≤ second.1
  stable : ∀ series ∈ projection, ∀ threads,
    markersAt threads series.points = markersAt threads (shown points slice series.variant)

section Markers

variable {markers others : List (UInt64 × Float)}

theorem mem_markersAt_iff {threads : UInt64} {marker : UInt64 × Float} :
    marker ∈ markersAt threads markers ↔ marker ∈ markers ∧ marker.1 = threads := by
  rw [markersAt, List.mem_filter, decide_eq_true_eq]

theorem markersAt_cons (threads : UInt64) (marker : UInt64 × Float) :
    markersAt threads (marker :: markers) =
      if marker.1 = threads then marker :: markersAt threads markers
      else markersAt threads markers := by
  simp only [markersAt, List.filter_cons, decide_eq_true_eq]

theorem markersAt_markersAt (threads : UInt64) :
    markersAt threads (markersAt threads markers) = markersAt threads markers :=
  List.filter_eq_self.mpr fun _ member => decide_eq_true (mem_markersAt_iff.mp member).2

theorem mem_iff_of_markersAt_eq
    (same : ∀ threads, markersAt threads markers = markersAt threads others)
    (marker : UInt64 × Float) : marker ∈ markers ↔ marker ∈ others := by
  have member (list : List (UInt64 × Float)) : marker ∈ markersAt marker.1 list ↔ marker ∈ list := by
    rw [mem_markersAt_iff, and_iff_left rfl]
  rw [← member markers, same, member others]

/-- Markers that ascend by thread count are determined by those of each thread count. -/
theorem eq_of_markersAt_eq
    (ascending : markers.Pairwise fun first second => first.1 ≤ second.1)
    (othersAscending : others.Pairwise fun first second => first.1 ≤ second.1)
    (same : ∀ threads, markersAt threads markers = markersAt threads others) :
    markers = others := by
  induction markers generalizing others with
  | nil =>
      symm
      apply List.eq_nil_iff_forall_not_mem.mpr
      intro marker member
      exact List.not_mem_nil ((mem_iff_of_markersAt_eq same marker).mpr member)
  | cons marker rest induction =>
      have mem_iff := mem_iff_of_markersAt_eq same
      have isMember : marker ∈ others := (mem_iff marker).mp List.mem_cons_self
      obtain ⟨other, othersRest, rfl⟩ := List.exists_cons_of_ne_nil (List.ne_nil_of_mem isMember)
      obtain ⟨least, restAscending⟩ := List.pairwise_cons.mp ascending
      obtain ⟨otherLeast, othersRestAscending⟩ := List.pairwise_cons.mp othersAscending
      have sameThreads : other.1 = marker.1 := by
        apply UInt64.le_antisymm
        · rcases List.mem_cons.mp isMember with rfl | later
          · exact UInt64.le_refl _
          · exact otherLeast marker later
        · rcases List.mem_cons.mp ((mem_iff other).mpr List.mem_cons_self) with rfl | later
          · exact UInt64.le_refl _
          · exact least other later
      -- Both heads are the first marker of the least thread count.
      have atLeast := same marker.1
      rw [markersAt_cons, markersAt_cons, if_pos rfl, if_pos sameThreads, List.cons.injEq] at atLeast
      obtain ⟨rfl, sameRest⟩ := atLeast
      congr 1
      apply induction restAscending othersRestAscending
      intro threads
      have atThreads := same threads
      rw [markersAt_cons, markersAt_cons] at atThreads
      by_cases isLeast : marker.1 = threads
      · rw [← isLeast, sameRest]
      · rwa [if_neg isLeast, if_neg isLeast] at atThreads

end Markers

section Sorting

theorem threadsLe_trans (first second third : UInt64 × Float) (le : threadsLe first second = true)
    (leThird : threadsLe second third = true) : threadsLe first third = true :=
  decide_eq_true (UInt64.le_trans (of_decide_eq_true le) (of_decide_eq_true leThird))

theorem threadsLe_total (first second : UInt64 × Float) :
    (threadsLe first second || threadsLe second first) = true := by
  simpa [threadsLe] using UInt64.le_total first.1 second.1

variable (markers : List (UInt64 × Float))

theorem mergeSort_ascending :
    (markers.mergeSort threadsLe).Pairwise fun first second => first.1 ≤ second.1 :=
  (List.pairwise_mergeSort threadsLe_trans threadsLe_total markers).imp of_decide_eq_true

/-- Sorting by thread count leaves the markers of each thread count as they are. -/
theorem markersAt_mergeSort (threads : UInt64) :
    markersAt threads (markers.mergeSort threadsLe) = markersAt threads markers := by
  have sorted : (markersAt threads markers).Pairwise fun first second =>
      threadsLe first second = true := by
    apply List.pairwise_of_forall_mem_list
    intro first firstMember second secondMember
    apply decide_eq_true
    rw [(mem_markersAt_iff.mp firstMember).2, (mem_markersAt_iff.mp secondMember).2]
    exact UInt64.le_refl threads
  have kept : (markersAt threads markers).Sublist (markers.mergeSort threadsLe) :=
    List.sublist_mergeSort threadsLe_trans threadsLe_total sorted List.filter_sublist
  have keptThere : (markersAt threads markers).Sublist
      (markersAt threads (markers.mergeSort threadsLe)) := by
    rw [← markersAt_markersAt]
    exact kept.filter _
  -- A permutation has as many markers of a thread count, so that none can have been put between.
  have sameLength := ((List.mergeSort_perm markers threadsLe).filter
    fun marker => marker.1 = threads).length_eq
  exact (keptThere.eq_of_length sameLength.symm).symm

end Sorting

variable {settings : Settings} {points : List Point} {slice : Slice} {projection : List Series}

theorem isProjection_project (settings : Settings) (points : List Point) (slice : Slice) :
    IsProjection settings points slice (project settings points slice) := by
  have sorted {series : Series} (member : series ∈ project settings points slice) :
      series.points = (shown points slice series.variant).mergeSort threadsLe := by
    obtain ⟨color, -, shape⟩ := mem_project_iff.mp member
    rw [← select_eq_mergeSort, congrArg Series.points shape]
  constructor
  case entries =>
    rw [project, List.map_map]
    exact List.map_id' _
  case selected =>
    intro series member
    rw [sorted member]
    exact List.mergeSort_perm _ _
  case ascending =>
    intro series member
    rw [sorted member]
    exact mergeSort_ascending _
  case stable =>
    intro series member threads
    rw [sorted member]
    exact markersAt_mergeSort _ threads

theorem IsProjection.eq_project (isProjection : IsProjection settings points slice projection) :
    projection = project settings points slice := by
  have isSelected {series : Series} (member : series ∈ projection) :
      select points slice series.variant = series.points := by
    rw [select_eq_mergeSort]
    apply eq_of_markersAt_eq (mergeSort_ascending _) (isProjection.ascending series member)
    intro threads
    rw [markersAt_mergeSort, isProjection.stable series member]
  calc
    projection = projection.map id := (List.map_id projection).symm
    _ = (projection.map fun series => (series.variant, series.color)).map fun entry =>
          ⟨entry.1, entry.2, select points slice entry.1⟩ := by
      rw [List.map_map]
      apply List.map_congr_left
      intro series member
      simp only [id_eq, Function.comp_apply, isSelected member]
    _ = project settings points slice := by
      rw [isProjection.entries]
      rfl

/-- Projection is the one stable sort by thread count of the points of each variant in the slice, and
it leaves the points of an aggregation as they are, strictly ascending by thread count. -/
theorem eq_project_iff_isProjection (settings : Settings) (points : List Point) (slice : Slice) :
    (∀ projection, projection = project settings points slice ↔
      IsProjection settings points slice projection) ∧
    ∀ trials, ∀ series ∈ project settings (Aggregation.points trials) slice,
      series.points = shown (Aggregation.points trials) slice series.variant ∧
        series.points.Pairwise fun first second => first.1 < second.1 := by
  constructor
  · intro projection
    constructor
    · rintro rfl
      exact isProjection_project settings points slice
    · exact IsProjection.eq_project
  · intro trials series member
    have ascending := Aggregation.points_ascending trials
    obtain ⟨color, -, shape⟩ := mem_project_iff.mp member
    rw [congrArg Series.points shape]
    exact ⟨select_eq_shown ascending, select_ascending ascending⟩

end Series
end ThroughputCharts

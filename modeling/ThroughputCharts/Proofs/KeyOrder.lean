import Mathlib.Data.List.Sort
import ThroughputCharts.Key
import ThroughputCharts.Proofs.Utf8Order

/-!
# The order of configurations

`Key.Precedes` spells out, dimension by dimension, when one configuration comes before another.  It
is the strict order that comparison of keys decides, and that comparison is a lawful linear order.
-/

namespace ThroughputCharts

namespace Workload

instance : Std.TransOrd Workload :=
  inferInstanceAs (Std.TransCmp (compareOn rank))

instance : Std.LawfulEqOrd Workload where
  eq_of_compare {first second} equal := by
    cases first <;> cases second <;> first | rfl | exact absurd equal (by decide)

end Workload

namespace ProblemSize

/-- Elements come before operations, and sizes of one kind by their number. -/
def Precedes : ProblemSize → ProblemSize → Prop
  | .elements first, .elements second => first < second
  | .elements _, .operations _ => True
  | .operations _, .elements _ => False
  | .operations first, .operations second => first < second

instance : Std.TransOrd ProblemSize :=
  inferInstanceAs (Std.TransCmp (compareLex (compareOn kindRank) (compareOn count)))

instance : Std.LawfulEqOrd ProblemSize where
  eq_of_compare {first second} equal := by
    have parts := compareLex_eq_eq.mp equal
    cases first <;> cases second
    case elements.elements first second =>
      exact congrArg elements (Std.LawfulEqOrd.eq_of_compare parts.2)
    case operations.operations first second =>
      exact congrArg operations (Std.LawfulEqOrd.eq_of_compare parts.2)
    case elements.operations => exact absurd (Nat.compare_eq_eq.mp parts.1) (by simp [kindRank])
    case operations.elements => exact absurd (Nat.compare_eq_eq.mp parts.1) (by simp [kindRank])

end ProblemSize

namespace Key

/-- No workload comes first, then the workloads in display order. -/
def workloadRank : Option Workload → Nat
  | none => 0
  | some workload => workload.rank + 1

/-- One configuration comes before another: the variants differ in the order of their UTF-8 bytes,
or else the workloads, or else the thread counts, or else the sizes. -/
def Precedes (first second : Key) : Prop :=
  Text.toUtf8 first.variant < Text.toUtf8 second.variant ∨
    first.variant = second.variant ∧
      (workloadRank first.workload < workloadRank second.workload ∨
        first.workload = second.workload ∧
          (first.threads < second.threads ∨
            first.threads = second.threads ∧ first.size.Precedes second.size))

end Key

private theorem compareLex_eq_lt {α : Type} {outer inner : α → α → Ordering} {first second : α} :
    compareLex outer inner first second = .lt ↔
      outer first second = .lt ∨ outer first second = .eq ∧ inner first second = .lt :=
  Ordering.then_eq_lt

private theorem compare_count_eq_lt {first second : UInt64} :
    compare first second = .lt ↔ first < second :=
  compareOfLessAndEq_eq_lt

theorem ProblemSize.compare_eq_lt_iff {first second : ProblemSize} :
    compare first second = .lt ↔ first.Precedes second := by
  change compareLex _ _ first second = .lt ↔ _
  rw [compareLex_eq_lt]
  cases first <;> cases second <;>
    simp [compareOn, kindRank, count, Precedes, compare_count_eq_lt, Nat.compare_eq_lt]

theorem ProblemSize.Precedes.irrefl (size : ProblemSize) : ¬ size.Precedes size := by
  rw [← compare_eq_lt_iff]
  simp

namespace Key

private theorem compare_variant_eq_lt {first second : String} :
    compare first second = .lt ↔ Text.toUtf8 first < Text.toUtf8 second := by
  rw [Text.toUtf8_lt_iff]
  exact compareOfLessAndEq_eq_lt

private theorem compare_workload_eq_lt {first second : Option Workload} :
    compare first second = .lt ↔ workloadRank first < workloadRank second := by
  rcases first with _ | _ | _ | _ <;> rcases second with _ | _ | _ | _ <;> decide

instance : Std.TransOrd Key :=
  inferInstanceAs <| Std.TransCmp <| compareLex (compareOn variant) <|
    compareLex (compareOn workload) <| compareLex (compareOn threads) (compareOn size)

instance : Std.LawfulEqOrd Key where
  eq_of_compare {first second} equal := by
    obtain ⟨variant, equal⟩ := compareLex_eq_eq.mp equal
    obtain ⟨workload, equal⟩ := compareLex_eq_eq.mp equal
    obtain ⟨threads, size⟩ := compareLex_eq_eq.mp equal
    cases first
    cases second
    simp only [mk.injEq]
    exact ⟨Std.LawfulEqOrd.eq_of_compare variant, Std.LawfulEqOrd.eq_of_compare workload,
      Std.LawfulEqOrd.eq_of_compare threads, Std.LawfulEqOrd.eq_of_compare size⟩

/-- Comparison of keys decides `Key.Precedes`. -/
theorem compare_eq_lt_iff {first second : Key} :
    compare first second = .lt ↔ first.Precedes second := by
  change compareLex _ _ first second = .lt ↔ _
  simp only [compareLex_eq_lt, compareOn, Precedes, compare_variant_eq_lt, compare_workload_eq_lt,
    compare_count_eq_lt, ProblemSize.compare_eq_lt_iff, Std.LawfulEqOrd.compare_eq_iff_eq]

theorem Precedes.irrefl (key : Key) : ¬ key.Precedes key := by
  rw [← compare_eq_lt_iff]
  simp

theorem Precedes.trans {first second third : Key} (before : first.Precedes second)
    (after : second.Precedes third) : first.Precedes third := by
  rw [← compare_eq_lt_iff] at before after ⊢
  exact Std.TransCmp.lt_trans before after

theorem Precedes.asymm {first second : Key} (before : first.Precedes second) :
    ¬ second.Precedes first :=
  fun after => irrefl first (before.trans after)

theorem Precedes.ne {first second : Key} (before : first.Precedes second) : first ≠ second := by
  rintro rfl
  exact irrefl first before

/-- Rows that ascend by key are determined by which of them there are. -/
theorem eq_of_mem_iff_of_ascending {Row : Type} {keyOf : Row → Key} {first second : List Row}
    (firstAscending : first.Pairwise fun before after => (keyOf before).Precedes (keyOf after))
    (secondAscending : second.Pairwise fun before after => (keyOf before).Precedes (keyOf after))
    (same : ∀ row, row ∈ first ↔ row ∈ second) : first = second := by
  have : Std.Irrefl fun before after : Row => (keyOf before).Precedes (keyOf after) :=
    ⟨fun row => Precedes.irrefl (keyOf row)⟩
  have : Std.Antisymm fun before after : Row => (keyOf before).Precedes (keyOf after) :=
    ⟨fun _ _ before after => absurd after before.asymm⟩
  exact List.Pairwise.eq_of_mem_iff firstAscending secondAscending fun row => same row

/-- Keys that differ only in their thread counts are ordered by them. -/
theorem Precedes.threads_lt {first second : Key} (before : first.Precedes second)
    (variant : first.variant = second.variant) (workload : first.workload = second.workload)
    (size : first.size = second.size) : first.threads < second.threads := by
  rcases before with less | ⟨-, less | ⟨-, less | ⟨-, sizeBefore⟩⟩⟩
  · exact absurd (variant ▸ less) (List.lt_irrefl _)
  · exact absurd (workload ▸ less) (Nat.lt_irrefl _)
  · exact less
  · exact absurd (size ▸ sizeBefore) (ProblemSize.Precedes.irrefl _)

end Key

/-- Deleting repetitions from a list keeps its order and makes its entries distinct. -/
theorem pairwise_eraseDups {Entry : Type} [BEq Entry] [LawfulBEq Entry]
    {order : Entry → Entry → Prop} {entries : List Entry} (ordered : entries.Pairwise order) :
    entries.eraseDups.Pairwise fun first second => order first second ∧ first ≠ second := by
  match entries with
  | [] => exact .nil
  | entry :: rest =>
      rw [List.pairwise_cons] at ordered
      rw [List.eraseDups_cons, List.pairwise_cons]
      refine ⟨fun other member => ?_, pairwise_eraseDups (ordered.2.filter _)⟩
      obtain ⟨isRest, different⟩ := List.mem_filter.mp (List.mem_eraseDups.mp member)
      refine ⟨ordered.1 other isRest, ?_⟩
      rintro rfl
      simp at different
termination_by entries.length
decreasing_by exact Nat.lt_succ_of_le (List.length_filter_le _ _)

end ThroughputCharts

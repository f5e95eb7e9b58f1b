import Mathlib.Algebra.Field.Rat
import Mathlib.Data.List.Perm.Basic
import ThroughputCharts.Binary64.Parts
import ThroughputCharts.Proofs.RecordValues

/-!
# The order of trials

Trials of different configurations can be interleaved in any way without changing anything.  The order
of trials of one configuration matters, but only through the rounding of their sum: an exact sum does
not depend on it, and neither do the configurations, their order and their numbers of trials.
-/

namespace ThroughputCharts

/-- A number of exact arithmetic, in which infinities of opposite signs add up to no number. -/
inductive ExactNumber
  | rational (value : Rat)
  | infinite (negative : Bool)
  | undefined
  deriving DecidableEq

namespace ExactNumber

def add : ExactNumber → ExactNumber → ExactNumber
  | rational first, rational second => rational (first + second)
  | infinite first, infinite second => if first = second then infinite first else undefined
  | infinite negative, rational _ | rational _, infinite negative => infinite negative
  | undefined, _ | _, undefined => undefined

def divide : ExactNumber → Nat → ExactNumber
  | rational value, count => rational (value / count)
  | number, _ => number

/-- The value of a binary64 number. -/
def ofFloat (number : Float) : ExactNumber :=
  match Binary64.parts number with
  | .finite negative magnitude =>
    rational ((if negative then -1 else 1) * magnitude.numerator / magnitude.denominator)
  | .infinite negative => infinite negative
  | .notANumber => undefined

/-- The mean of values whose sum is not rounded. -/
def mean (values : List Float) : ExactNumber :=
  ((values.map ofFloat).foldl add (rational 0)).divide values.length

instance : RightCommutative add where
  right_comm first second third := by
    rcases first with first | (_ | _) | _ <;> rcases second with second | (_ | _) | _ <;>
      rcases third with third | (_ | _) | _ <;>
      first
      | rfl
      | exact congrArg rational (add_right_comm first second third)

/-- The exact mean does not depend on the order of the values. -/
theorem mean_eq_of_perm {first second : List Float} (permutation : first.Perm second) :
    mean first = mean second := by
  rw [mean, mean, permutation.length_eq, (permutation.map ofFloat).foldl_eq]

end ExactNumber

namespace Aggregation

/-- The rows of a table of points with exact means of the given values in place of rounded ones. -/
def exactRows (values : Key → List Float) (table : List Point) : List (Key × Nat × ExactNumber) :=
  table.map fun point => (point.key, point.trials, ExactNumber.mean (values point.key))

/-- The trials of a configuration, in input order. -/
def trialsOf (trials : List Trial) (key : Key) : List Trial :=
  trials.filter fun trial => trial.key = key

section Interleaving

variable {first second : List Trial}

theorem mem_keys_iff_trialsOf_ne_nil {trials : List Trial} {key : Key} :
    key ∈ trials.map Trial.key ↔ trialsOf trials key ≠ [] := by
  simp [trialsOf]

theorem missingOf_eq_countP_trialsOf (trials : List Trial) (key : Key) :
    missingOf trials key = (trialsOf trials key).countP fun trial => trial.value.isNone := by
  rw [trialsOf, List.countP_filter, missingOf]
  apply List.countP_congr
  intro trial _
  simp only [Bool.and_eq_true, decide_eq_true_eq, and_comm]

/-- The groups are determined by the trials of each configuration. -/
theorem groups_eq_of_trialsOf_eq (same : ∀ key, trialsOf first key = trialsOf second key) :
    groups first = groups second := by
  apply Key.eq_of_mem_iff_of_ascending (groups_ascending first) (groups_ascending second)
  intro group
  have sameValues : valuesOf first group.key = valuesOf second group.key :=
    congrArg (List.filterMap Trial.value) (same group.key)
  rw [mem_groups_iff, mem_groups_iff, mem_keys_iff_trialsOf_ne_nil, mem_keys_iff_trialsOf_ne_nil,
    missingOf_eq_countP_trialsOf, missingOf_eq_countP_trialsOf, same, sameValues]

/-- Lists with the same trials of each configuration are interleavings of them. -/
theorem perm_of_trialsOf_eq (same : ∀ key, trialsOf first key = trialsOf second key) :
    first.Perm second := by
  rw [List.perm_iff_count]
  intro trial
  have countOf (trials : List Trial) : (trialsOf trials trial.key).count trial = trials.count trial :=
    List.count_filter (by simp)
  rw [← countOf first, ← countOf second, same]

theorem valuesOf_perm (permutation : first.Perm second) (key : Key) :
    (valuesOf first key).Perm (valuesOf second key) :=
  (permutation.filter _).filterMap _

theorem mem_exactRows_points_iff {trials : List Trial} {key : Key} {count : Nat}
    {mean : ExactNumber} :
    (key, count, mean) ∈ exactRows (valuesOf trials) (points trials) ↔
      valuesOf trials key ≠ [] ∧ count = (valuesOf trials key).length ∧
        mean = ExactNumber.mean (valuesOf trials key) := by
  simp only [exactRows, List.mem_map, Prod.mk.injEq]
  constructor
  · rintro ⟨point, member, rfl, rfl, rfl⟩
    obtain ⟨hasValue, shape⟩ := mem_points_iff.mp member
    exact ⟨hasValue, congrArg Point.trials shape, rfl⟩
  · rintro ⟨hasValue, rfl, rfl⟩
    let point : Point := ⟨key, Group.mean (valuesOf trials key), (valuesOf trials key).length⟩
    exact ⟨point, mem_points_iff.mpr ⟨hasValue, rfl⟩, rfl, rfl, rfl⟩

/-- Reordering trials keeps every row, exact means included. -/
theorem exactRows_points_eq_of_perm (permutation : first.Perm second) :
    exactRows (valuesOf first) (points first) = exactRows (valuesOf second) (points second) := by
  have ascending (trials : List Trial) : (exactRows (valuesOf trials) (points trials)).Pairwise
      fun first second => first.1.Precedes second.1 :=
    List.pairwise_map.mpr (points_ascending trials)
  -- Rows ascend strictly by key, so their order is settled once their members agree.
  apply Key.eq_of_mem_iff_of_ascending (ascending first) (ascending second)
  rintro ⟨key, count, mean⟩
  have sameValues := valuesOf_perm permutation key
  rw [mem_exactRows_points_iff, mem_exactRows_points_iff, sameValues.length_eq,
    ExactNumber.mean_eq_of_perm sameValues, Ne, Ne, ← List.length_eq_zero_iff, sameValues.length_eq,
    List.length_eq_zero_iff]

end Interleaving

section Records

variable {records shuffled : List Record}

/-- Reordered records decode to reordered trials. -/
theorem exists_decodeAll_of_perm {family : Family} (permutation : records.Perm shuffled)
    {trials : List Trial} (decoded : decodeAll family records = .ok trials) :
    ∃ others, decodeAll family shuffled = .ok others ∧ trials.Perm others := by
  induction permutation generalizing trials with
  | nil => exact ⟨trials, decoded, .refl trials⟩
  | @cons record records shuffled _ induction =>
      obtain ⟨key, rest, name, restDecoded, rfl⟩ := decodeAll_cons_eq_ok_iff.mp decoded
      obtain ⟨others, othersDecoded, permutation⟩ := induction restDecoded
      exact ⟨⟨key, record.value⟩ :: others,
        decodeAll_cons_eq_ok_iff.mpr ⟨key, others, name, othersDecoded, rfl⟩, permutation.cons _⟩
  | @swap first second records =>
      obtain ⟨secondKey, behind, secondName, behindDecoded, rfl⟩ :=
        decodeAll_cons_eq_ok_iff.mp decoded
      obtain ⟨firstKey, rest, firstName, restDecoded, rfl⟩ :=
        decodeAll_cons_eq_ok_iff.mp behindDecoded
      refine ⟨⟨firstKey, first.value⟩ :: ⟨secondKey, second.value⟩ :: rest, ?_, .swap ..⟩
      have secondDecoded := decodeAll_cons_eq_ok_iff.mpr
        ⟨secondKey, rest, secondName, restDecoded, rfl⟩
      exact decodeAll_cons_eq_ok_iff.mpr ⟨firstKey, _, firstName, secondDecoded, rfl⟩
  | trans _ _ firstInduction secondInduction =>
      obtain ⟨middle, middleDecoded, toMiddle⟩ := firstInduction decoded
      obtain ⟨others, othersDecoded, fromMiddle⟩ := secondInduction middleDecoded
      exact ⟨others, othersDecoded, toMiddle.trans fromMiddle⟩

theorem exists_ofRecords_of_perm {settings : Settings} (permutation : records.Perm shuffled)
    {table : List Point} (aggregated : (ofRecords settings records).2 = .ok table) :
    ∃ other, (ofRecords settings shuffled).2 = .ok other ∧
      exactRows (recordValues settings.family records) table =
        exactRows (recordValues settings.family shuffled) other := by
  obtain ⟨trials, decoded, rfl⟩ := ofRecords_eq_ok_iff.mp aggregated
  obtain ⟨others, othersDecoded, reordered⟩ :=
    exists_decodeAll_of_perm (permutation.filter _) decoded
  refine ⟨points others, ofRecords_eq_ok_iff.mpr ⟨others, othersDecoded, rfl⟩, ?_⟩
  have recordsValues : recordValues settings.family records = valuesOf trials :=
    funext fun key => (valuesOf_eq_recordValues decoded key).symm
  have shuffledValues : recordValues settings.family shuffled = valuesOf others :=
    funext fun key => (valuesOf_eq_recordValues othersDecoded key).symm
  rw [recordsValues, shuffledValues]
  exact exactRows_points_eq_of_perm reordered

end Records

/-- How trials of different configurations are interleaved has no effect at all, and any reordering
keeps the configurations, their order, their numbers of trials and the exact means.  Reordered records
are refused or aggregated alike. -/
theorem points_of_reordered :
    (∀ first second : List Trial,
      ((∀ key, trialsOf first key = trialsOf second key) →
        points first = points second ∧ excludedCount first = excludedCount second ∧
          droppedKeys first = droppedKeys second ∧ events first = events second) ∧
      (first.Perm second →
        exactRows (valuesOf first) (points first) =
          exactRows (valuesOf second) (points second))) ∧
    ∀ (settings : Settings) (records shuffled : List Record), records.Perm shuffled →
      ((∃ table, (ofRecords settings records).2 = .ok table) ↔
        ∃ table, (ofRecords settings shuffled).2 = .ok table) ∧
      ∀ table other, (ofRecords settings records).2 = .ok table →
        (ofRecords settings shuffled).2 = .ok other →
          exactRows (recordValues settings.family records) table =
            exactRows (recordValues settings.family shuffled) other := by
  refine ⟨?trials, ?records⟩
  case trials =>
    intro first second
    refine ⟨?_, exactRows_points_eq_of_perm⟩
    intro same
    have sameGroups := groups_eq_of_trialsOf_eq same
    have samePoints : points first = points second := by rw [points, points, sameGroups]
    have sameExcluded : excludedCount first = excludedCount second := by
      rw [excludedCount, excludedCount, sameGroups]
    have sameDropped : droppedKeys first = droppedKeys second := by
      rw [droppedKeys, droppedKeys, sameGroups]
    refine ⟨samePoints, sameExcluded, sameDropped, ?_⟩
    rw [events, events, samePoints, sameExcluded, sameDropped,
      (perm_of_trialsOf_eq same).length_eq]
  case records =>
    intro settings records shuffled permutation
    constructor
    · constructor
      · rintro ⟨table, aggregated⟩
        obtain ⟨other, otherAggregated, -⟩ := exists_ofRecords_of_perm permutation aggregated
        exact ⟨other, otherAggregated⟩
      · rintro ⟨table, aggregated⟩
        obtain ⟨other, otherAggregated, -⟩ := exists_ofRecords_of_perm permutation.symm aggregated
        exact ⟨other, otherAggregated⟩
    · intro table other aggregated otherAggregated
      obtain ⟨found, foundAggregated, sameRows⟩ := exists_ofRecords_of_perm permutation aggregated
      rw [otherAggregated] at foundAggregated
      rw [sameRows, Except.ok.inj foundAggregated]

/-- Trials of two configurations in turn; one of them failed. -/
def alternatingTrials : List Trial :=
  let lazy : Key := ⟨"LazyList", some .balanced, 4, .elements 100⟩
  let fine : Key := ⟨"FineList", some .balanced, 4, .elements 100⟩
  [⟨lazy, some 0.1⟩, ⟨fine, some 7.0⟩, ⟨lazy, some 0.2⟩, ⟨fine, none⟩, ⟨lazy, some 0.3⟩]

/-- The same trials, one configuration after the other. -/
def adjacentTrials : List Trial :=
  trialsOf alternatingTrials ⟨"LazyList", some .balanced, 4, .elements 100⟩ ++
    trialsOf alternatingTrials ⟨"FineList", some .balanced, 4, .elements 100⟩

def alternatingRecords : List Record :=
  alternatingTrials.map fun trial =>
    ⟨ListName.encode .balanced trial.key.variant 4 100, trial.value, .operationsPerSecond⟩

theorem points_of_alternatingTrials :
    ((∀ key, trialsOf alternatingTrials key = trialsOf adjacentTrials key) ∧
      events alternatingTrials = events adjacentTrials) ∧
    alternatingTrials.Perm adjacentTrials.reverse ∧
      exactRows (valuesOf alternatingTrials) (points alternatingTrials) =
        exactRows (valuesOf adjacentTrials.reverse) (points adjacentTrials.reverse) ∧
    (alternatingRecords.Perm alternatingRecords.reverse ∧
      (ofRecords Settings.list alternatingRecords).2 = .ok (points alternatingTrials)) ∧
        ∃ table, (ofRecords Settings.list alternatingRecords.reverse).2 = .ok table := by
  have same : ∀ key, trialsOf alternatingTrials key = trialsOf adjacentTrials key := by
    intro key
    by_cases isLazy : ⟨"LazyList", some .balanced, 4, .elements 100⟩ = key
    · subst isLazy
      decide +kernel
    · by_cases isFine : ⟨"FineList", some .balanced, 4, .elements 100⟩ = key
      · subst isFine
        decide +kernel
      · simp [trialsOf, adjacentTrials, alternatingTrials, isLazy, isFine]
  have reordered : alternatingTrials.Perm adjacentTrials.reverse := by decide +kernel
  have reversed : alternatingRecords.Perm alternatingRecords.reverse :=
    (List.reverse_perm _).symm
  have aggregated :
      (ofRecords Settings.list alternatingRecords).2 = .ok (points alternatingTrials) :=
    toOption_eq_some_iff.mp (by decide +kernel)
  exact ⟨⟨same, ((points_of_reordered.1 _ _).1 same).2.2.2⟩, reordered,
    (points_of_reordered.1 _ _).2 reordered, ⟨reversed, aggregated⟩,
    (points_of_reordered.2 _ _ _ reversed).1.mp ⟨_, aggregated⟩⟩

/-- Rounding makes the order of trials of one configuration matter. -/
example : points alternatingTrials ≠ points adjacentTrials.reverse := by decide +kernel

end Aggregation
end ThroughputCharts

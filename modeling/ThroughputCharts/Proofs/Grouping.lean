import Mathlib.Data.List.Sort
import ThroughputCharts.Aggregation
import ThroughputCharts.Proofs.KeyOrder

/-!
# Grouping trials by configuration

Trials are put one by one into groups that stay strictly ascending by key.  Looking a key up in the
groups therefore gives exactly the trials of that key in input order, and the points are the means
of the groups that have a value.
-/

namespace ThroughputCharts

namespace Aggregation

/-- The numeric values of the trials of a configuration, in input order. -/
def valuesOf (trials : List Trial) (key : Key) : List Float :=
  (trials.filter fun trial => trial.key = key).filterMap Trial.value

/-- The number of trials of a configuration that have no value. -/
def missingOf (trials : List Trial) (key : Key) : Nat :=
  trials.countP fun trial => trial.key = key && trial.value.isNone

/-- Groups whose keys strictly ascend. -/
def Ascending (groups : List Group) : Prop :=
  groups.Pairwise fun first second => first.key.Precedes second.key

/-- The group of a key, which is empty when no group has that key. -/
def groupAt (groups : List Group) (key : Key) : Group :=
  (groups.find? fun group => group.key = key).getD (Group.empty key)

end Aggregation

namespace Group

@[simp]
theorem cons_key (value : Option Float) (group : Group) : (group.cons value).key = group.key := by
  cases value <;> rfl

end Group

namespace Aggregation

theorem groupAt_cons (group : Group) (rest : List Group) (key : Key) :
    groupAt (group :: rest) key = if group.key = key then group else groupAt rest key := by
  by_cases found : group.key = key <;> simp [groupAt, found]

theorem groupAt_of_notMem {groups : List Group} {key : Key}
    (absent : key ∉ groups.map Group.key) : groupAt groups key = Group.empty key := by
  have notFound : groups.find? (fun group => group.key = key) = none := by
    simpa [List.find?_eq_none] using absent
  simp [groupAt, notFound]

theorem groupAt_of_mem {groups : List Group} (ascending : Ascending groups) {group : Group}
    (member : group ∈ groups) : groupAt groups group.key = group := by
  induction groups with
  | nil => simp at member
  | cons first rest induction =>
      obtain ⟨firstBefore, restAscending⟩ := List.pairwise_cons.mp ascending
      rw [groupAt_cons]
      rcases List.mem_cons.mp member with rfl | later
      · simp
      · rw [if_neg (firstBefore group later).ne]
        exact induction restAscending later

/-- Putting a trial into the groups adds its key and no other. -/
theorem mem_keys_insert (trial : Trial) (groups : List Group) (key : Key) :
    key ∈ (insert trial groups).map Group.key ↔
      key = trial.key ∨ key ∈ groups.map Group.key := by
  induction groups with
  | nil => simp [insert, Group.empty]
  | cons group rest induction =>
      simp only [insert]
      split
      next => simp [Group.empty]
      next equal =>
          have same : trial.key = group.key := Std.LawfulEqOrd.eq_of_compare equal
          simp [same]
      next => simp only [List.map_cons, List.mem_cons, induction, or_left_comm]

theorem ascending_insert (trial : Trial) {groups : List Group} (ascending : Ascending groups) :
    Ascending (insert trial groups) := by
  induction groups with
  | nil => exact List.pairwise_singleton _ _
  | cons group rest induction =>
      obtain ⟨groupBefore, restAscending⟩ := List.pairwise_cons.mp ascending
      simp only [insert]
      split
      next less =>
          have before : trial.key.Precedes group.key := Key.compare_eq_lt_iff.mp less
          refine List.pairwise_cons.mpr ⟨?_, ascending⟩
          intro other member
          rcases List.mem_cons.mp member with rfl | later
          · simpa [Group.empty] using before
          · simpa [Group.empty] using before.trans (groupBefore other later)
      next =>
          refine List.pairwise_cons.mpr ⟨?_, restAscending⟩
          simpa using groupBefore
      next greater =>
          have after : group.key.Precedes trial.key :=
            Key.compare_eq_lt_iff.mp (Std.OrientedCmp.lt_of_gt greater)
          refine List.pairwise_cons.mpr ⟨?_, induction restAscending⟩
          intro other member
          have otherKey := List.mem_map_of_mem (f := Group.key) member
          rcases (mem_keys_insert trial rest other.key).mp otherKey with isNew | isOld
          · exact isNew ▸ after
          · obtain ⟨old, oldMember, sameKey⟩ := List.mem_map.mp isOld
            exact sameKey ▸ groupBefore old oldMember

/-- Putting a trial into the groups changes the group of its key only, where its value comes
first. -/
theorem groupAt_insert (trial : Trial) {groups : List Group} (ascending : Ascending groups)
    (key : Key) :
    groupAt (insert trial groups) key =
      if trial.key = key then (groupAt groups key).cons trial.value else groupAt groups key := by
  induction groups with
  | nil =>
      by_cases same : trial.key = key <;> simp [insert, groupAt, Group.empty, same]
  | cons group rest induction =>
      obtain ⟨groupBefore, restAscending⟩ := List.pairwise_cons.mp ascending
      simp only [insert]
      split
      next less =>
          have before : trial.key.Precedes group.key := Key.compare_eq_lt_iff.mp less
          rw [groupAt_cons, Group.cons_key]
          by_cases same : trial.key = key
          · -- The key stands before all groups, so none of them has it.
            have absent : key ∉ (group :: rest).map Group.key := by
              rw [← same, List.map_cons, List.mem_cons, not_or]
              refine ⟨before.ne, ?_⟩
              intro later
              obtain ⟨other, member, sameKey⟩ := List.mem_map.mp later
              exact (before.trans (groupBefore other member)).ne sameKey.symm
            simp [Group.empty, same, groupAt_of_notMem absent]
          · simp [Group.empty, same]
      next equal =>
          have same : trial.key = group.key := Std.LawfulEqOrd.eq_of_compare equal
          rw [groupAt_cons, groupAt_cons, Group.cons_key, same]
          split <;> rfl
      next greater =>
          have after : group.key.Precedes trial.key :=
            Key.compare_eq_lt_iff.mp (Std.OrientedCmp.lt_of_gt greater)
          rw [groupAt_cons, groupAt_cons, induction restAscending]
          by_cases found : group.key = key
          · have other : trial.key ≠ key := found ▸ after.ne.symm
            simp [found, other]
          · simp [found]

theorem groups_ascending (trials : List Trial) : Ascending (groups trials) := by
  induction trials with
  | nil => exact List.Pairwise.nil
  | cons trial trials induction => exact ascending_insert trial induction

theorem mem_keys_groups (trials : List Trial) (key : Key) :
    key ∈ (groups trials).map Group.key ↔ key ∈ trials.map Trial.key := by
  induction trials with
  | nil => simp [groups]
  | cons trial trials induction =>
      change key ∈ (insert trial (groups trials)).map Group.key ↔ _
      rw [mem_keys_insert, induction, List.map_cons, List.mem_cons]

/-- The group of a key holds the values of its trials in input order and counts the rest. -/
theorem groupAt_groups (trials : List Trial) (key : Key) :
    groupAt (groups trials) key = ⟨key, valuesOf trials key, missingOf trials key⟩ := by
  induction trials with
  | nil => rfl
  | cons trial trials induction =>
      change groupAt (insert trial (groups trials)) key = _
      rw [groupAt_insert trial (groups_ascending trials), induction]
      by_cases same : trial.key = key
      · cases value : trial.value <;>
          simp [Group.cons, valuesOf, missingOf, same, value]
      · simp [valuesOf, missingOf, same]

theorem mem_groups_iff {trials : List Trial} {group : Group} :
    group ∈ groups trials ↔
      group.key ∈ trials.map Trial.key ∧
        group = ⟨group.key, valuesOf trials group.key, missingOf trials group.key⟩ := by
  rw [← groupAt_groups, ← mem_keys_groups]
  constructor
  · intro member
    exact ⟨List.mem_map_of_mem member,
      (groupAt_of_mem (groups_ascending trials) member).symm⟩
  · rintro ⟨hasKey, isGroupAt⟩
    obtain ⟨other, member, sameKey⟩ := List.mem_map.mp hasKey
    rw [isGroupAt, ← sameKey, groupAt_of_mem (groups_ascending trials) member]
    exact member

theorem mem_valuesOf {trials : List Trial} {key : Key} {value : Float} :
    value ∈ valuesOf trials key ↔ ⟨key, some value⟩ ∈ trials := by
  simp only [valuesOf, List.mem_filterMap, List.mem_filter, decide_eq_true_eq]
  constructor
  · rintro ⟨trial, ⟨member, rfl⟩, hasValue⟩
    cases trial
    simpa [← hasValue] using member
  · intro member
    exact ⟨_, ⟨member, rfl⟩, rfl⟩

/-- A configuration has a value exactly when one of its trials is numeric. -/
theorem valuesOf_ne_nil_iff {trials : List Trial} {key : Key} :
    valuesOf trials key ≠ [] ↔ ∃ trial ∈ trials, trial.key = key ∧ trial.value.isSome := by
  constructor
  · intro hasValue
    obtain ⟨value, member⟩ := List.exists_mem_of_ne_nil _ hasValue
    exact ⟨_, mem_valuesOf.mp member, rfl, rfl⟩
  · rintro ⟨⟨_, value⟩, member, rfl, numeric⟩
    obtain ⟨value, rfl⟩ := Option.isSome_iff_exists.mp numeric
    exact List.ne_nil_of_mem (mem_valuesOf.mpr member)

theorem length_valuesOf (trials : List Trial) (key : Key) :
    (valuesOf trials key).length =
      trials.countP fun trial => trial.key = key && trial.value.isSome := by
  induction trials with
  | nil => rfl
  | cons trial trials induction =>
      by_cases same : trial.key = key
      · cases value : trial.value <;> simp_all [valuesOf]
      · simp_all [valuesOf]

/-- The points are the means of the configurations that have a value. -/
theorem mem_points_iff {trials : List Trial} {point : Point} :
    point ∈ points trials ↔
      valuesOf trials point.key ≠ [] ∧
        point = ⟨point.key, Group.mean (valuesOf trials point.key),
          (valuesOf trials point.key).length⟩ := by
  simp only [points, List.mem_filterMap]
  constructor
  · rintro ⟨group, member, isPoint⟩
    obtain ⟨-, shape⟩ := mem_groups_iff.mp member
    rw [shape] at isPoint
    by_cases noValue : valuesOf trials group.key = []
    · simp [Group.point?, noValue] at isPoint
    · simp only [Group.point?, List.isEmpty_iff, noValue, if_false, Option.some.injEq] at isPoint
      subst isPoint
      exact ⟨noValue, rfl⟩
  · rintro ⟨hasValue, shape⟩
    obtain ⟨trial, member, sameKey, -⟩ := valuesOf_ne_nil_iff.mp hasValue
    let group : Group := ⟨point.key, valuesOf trials point.key, missingOf trials point.key⟩
    have groupMember : group ∈ groups trials :=
      mem_groups_iff.mpr ⟨List.mem_map.mpr ⟨trial, member, sameKey⟩, rfl⟩
    refine ⟨group, groupMember, ?_⟩
    rw [shape]
    simp [Group.point?, group, hasValue]

theorem points_ascending (trials : List Trial) :
    (points trials).Pairwise fun first second => first.key.Precedes second.key := by
  refine List.Pairwise.filterMap _ ?_ (groups_ascending trials)
  intro first second before firstPoint isFirst secondPoint isSecond
  have keyOfPoint {group : Group} {point : Point} (isPoint : group.point? = some point) :
      point.key = group.key := by
    simp only [Group.point?] at isPoint
    split at isPoint
    · simp at isPoint
    · simp [← Option.some.inj isPoint]
  rw [keyOfPoint isFirst, keyOfPoint isSecond]
  exact before

/-- What a table of means has to be: the keys ascend, they are those with a numeric trial, and every
row counts the numeric trials of its key and averages their values in input order. -/
structure IsMeanTable (trials : List Trial) (table : List Point) : Prop where
  ascending : table.Pairwise fun first second => first.key.Precedes second.key
  hasKey : ∀ key, (∃ point ∈ table, point.key = key) ↔
    ∃ trial ∈ trials, trial.key = key ∧ trial.value.isSome
  counts : ∀ point ∈ table, point.trials =
    trials.countP fun trial => trial.key = point.key && trial.value.isSome
  averages : ∀ point ∈ table, point.throughput =
    (valuesOf trials point.key).foldl (· + ·) 0.0 / Float.ofNat point.trials

theorem isMeanTable_points (trials : List Trial) : IsMeanTable trials (points trials) where
  ascending := points_ascending trials
  hasKey key := by
    rw [← valuesOf_ne_nil_iff]
    constructor
    · rintro ⟨point, member, rfl⟩
      exact (mem_points_iff.mp member).1
    · intro hasValue
      let point : Point := ⟨key, Group.mean (valuesOf trials key), (valuesOf trials key).length⟩
      have member : point ∈ points trials := mem_points_iff.mpr ⟨hasValue, rfl⟩
      exact ⟨point, member, rfl⟩
  counts point member := by
    rw [(mem_points_iff.mp member).2, ← length_valuesOf]
  averages point member := by
    rw [(mem_points_iff.mp member).2]
    rfl

/-- The rows of a table of means are determined by the trials. -/
theorem IsMeanTable.mem_iff {trials : List Trial} {table : List Point}
    (isTable : IsMeanTable trials table) {point : Point} :
    point ∈ table ↔ point ∈ points trials := by
  have row {other : Point} (member : other ∈ table) : other ∈ points trials := by
    have hasValue := valuesOf_ne_nil_iff.mpr ((isTable.hasKey other.key).mp ⟨other, member, rfl⟩)
    refine mem_points_iff.mpr ⟨hasValue, ?_⟩
    have counted := isTable.counts other member
    rw [← length_valuesOf] at counted
    have averaged := isTable.averages other member
    rw [counted] at averaged
    cases other
    simp_all [Group.mean, Group.total]
  constructor
  · exact row
  · intro member
    obtain ⟨hasValue, shape⟩ := mem_points_iff.mp member
    obtain ⟨other, otherMember, sameKey⟩ :=
      (isTable.hasKey point.key).mpr (valuesOf_ne_nil_iff.mp hasValue)
    have otherShape := (mem_points_iff.mp (row otherMember)).2
    rw [sameKey, ← shape] at otherShape
    exact otherShape ▸ otherMember

/-- Aggregation is the one table of means: any table that meets the reference is the one computed,
and no configuration has two rows in it. -/
theorem eq_points_iff_isMeanTable (trials : List Trial) :
    (∀ table, table = points trials ↔ IsMeanTable trials table) ∧
      ((points trials).map Point.key).Nodup := by
  constructor
  · intro table
    constructor
    · rintro rfl
      exact isMeanTable_points trials
    · intro isTable
      have : Std.Irrefl fun first second : Point => first.key.Precedes second.key :=
        ⟨fun point => Key.Precedes.irrefl point.key⟩
      have : Std.Antisymm fun first second : Point => first.key.Precedes second.key :=
        ⟨fun _ _ before after => absurd after before.asymm⟩
      exact List.Pairwise.eq_of_mem_iff isTable.ascending (points_ascending trials)
        fun _ => isTable.mem_iff
  · exact List.pairwise_map.mpr ((points_ascending trials).imp Key.Precedes.ne)

end Aggregation

end ThroughputCharts

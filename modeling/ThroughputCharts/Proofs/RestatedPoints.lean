import ThroughputCharts.Proofs.FloatWhole
import ThroughputCharts.Proofs.ListNameRoundTrip
import ThroughputCharts.Proofs.NameKinds
import ThroughputCharts.Proofs.TrialOrder

/-!
# Points stated as trials

A point of a list table can be stated as a trial of its own, under the name that its configuration is
written with.  No such name is refused or taken for a summary, and no two of them stand for the same
configuration, so the trials of all points are aggregated to the same table again.  Each mean is then
added to zero and divided by one, which keeps its value.
-/

namespace ThroughputCharts

namespace Binary64

open Float.Model UnpackedFloat

/-- The numbers that are not finite: both infinities, and the one that is not a number. -/
def specials : List Float :=
  [Float.ofBits 0x7FF0000000000000, Float.ofBits 0xFFF0000000000000,
    Float.ofBits 0x7FF8000000000000]

section OneTrial

variable {number : Float}

theorem mem_specials_of_isFinite_eq_false (notFinite : number.isFinite = false) :
    number ∈ specials := by
  have field : number.toBits.toNat / 2 ^ 52 % 2048 = 2047 := by
    by_contra notSpecial
    rw [isFinite_iff_field.mpr notSpecial] at notFinite
    contradiction
  rw [← Float.ofBits_toBits number]
  by_cases fraction : number.toBits.toNat % 2 ^ 52 = 0
  · have word : number.toBits.toNat < 2 ^ 64 := number.toBits.toNat_lt_size
    have infinite : number.toBits.toNat = 2047 * 2 ^ 52 ∨
        number.toBits.toNat = 2 ^ 63 + 2047 * 2 ^ 52 := by omega
    rcases infinite with positive | negative
    · have bits : number.toBits = 0x7FF0000000000000 := UInt64.toNat_inj.mp positive
      simp [bits, specials]
    · have bits : number.toBits = 0xFFF0000000000000 := UInt64.toNat_inj.mp negative
      simp [bits, specials]
  · -- Only one pattern of what is not a number is ever held.
    have isPacked : number.toBits.toBitVec = packedNaN .binary64 := by
      apply number.toModel.valid.eq_packedNaN
      · exact (unpackExponent_eq_iff _).mpr field
      · intro isZero
        rw [← BitVec.toNat_inj, toNat_unpackMantissa] at isZero
        exact fraction isZero
    have bits : number.toBits = 0x7FF8000000000000 := UInt64.toBitVec_inj.mp isPacked
    simp [bits, specials]

/-- Adding a finite number to zero and dividing it by one makes no error. -/
theorem denotes_zero_add_div_one (finite : number.isFinite = true) :
    Denotes ((0.0 + number) / 1.0) (value number) := by
  have inRange : |value number| < rangeEnd := abs_value_lt_rangeEnd finite
  have sum : Denotes (0.0 + number) (value number) := by
    have rounds := roundsTo_add denotes_zero.finite finite
    rw [denotes_zero.value_eq, zero_add] at rounds
    exact (rounds inRange).denotes (representable_value finite)
  have rounds := roundsTo_div sum.finite denotes_one.finite
  rw [denotes_one.value_eq, Int.cast_one, div_one, sum.value_eq] at rounds
  exact (rounds one_ne_zero inRange).denotes (representable_value finite)

end OneTrial

end Binary64

namespace ExactNumber

open Binary64

theorem ofFloat_of_isFinite {number : Float} (finite : number.isFinite = true) :
    ofFloat number = rational (value number) := by
  obtain ⟨negative, magnitude, isParts⟩ := isFinite_iff.mp finite
  simp only [ofFloat, value, isParts, Magnitude.toRat_eq_div]
  cases negative
  · simp
  · simp [neg_div]

/-- The mean of one value is that value, infinities and what is not a number included. -/
theorem ofFloat_zero_add_div_one (number : Float) :
    ofFloat ((0.0 + number) / 1.0) = ofFloat number := by
  cases finite : number.isFinite with
  | true =>
      have mean := denotes_zero_add_div_one finite
      rw [ofFloat_of_isFinite finite, ofFloat_of_isFinite mean.finite, mean.value_eq]
  | false =>
      have special : ∀ other ∈ specials, ofFloat ((0.0 + other) / 1.0) = ofFloat other := by
        decide +kernel
      exact special number (mem_specials_of_isFinite_eq_false finite)

end ExactNumber

namespace Point

/-- A record states a point as a trial of a list benchmark: it has the name that the configuration is
written with, and the mean as its value. -/
structure StatedBy (point : Point) (record : Record) : Prop where
  name : ListName.encodeKey? point.key = some record.name
  value : record.value = some point.throughput

/-- The trial that a point is stated as. -/
def trial (point : Point) : Trial := ⟨point.key, some point.throughput⟩

/-- The group that the trial of a point makes. -/
def group (point : Point) : Group := ⟨point.key, [point.throughput], 0⟩

/-- The point of a configuration whose only trial is the mean of another point. -/
def ofOneTrial (point : Point) : Point :=
  ⟨point.key, (0.0 + point.throughput) / 1.0, 1⟩

theorem point?_group (point : Point) : point.group.point? = some point.ofOneTrial := by
  have one : Float.ofNat 1 = 1.0 := by decide
  rw [ofOneTrial, ← one]
  rfl

theorem StatedBy.decode {point : Point} {record : Record} (stated : point.StatedBy record)
    {name : String} (accepted : ListName.decode name = .ok point.key) :
    ListName.decode record.name = .ok point.key := by
  obtain ⟨written, isWritten, rereads⟩ := ListName.exists_encodeKey?_of_decode accepted
  rw [stated.name] at isWritten
  rwa [Option.some.inj isWritten]

end Point

namespace Aggregation

section Distinct

variable {trials shuffled : List Trial}

/-- Trials of distinct configurations can be put in any order. -/
theorem trialsOf_eq_of_perm (distinct : (trials.map Trial.key).Nodup)
    (permutation : shuffled.Perm trials) (key : Key) :
    trialsOf shuffled key = trialsOf trials key := by
  have reordered : (trialsOf shuffled key).Perm (trialsOf trials key) := permutation.filter _
  have atMostOne : (trialsOf trials key).length ≤ 1 := by
    have counted := List.nodup_iff_count_le_one.mp distinct key
    rwa [List.count, List.countP_map, List.countP_eq_length_filter] at counted
  cases found : trialsOf trials key with
  | nil =>
      rw [found] at reordered
      exact reordered.eq_nil
  | cons trial rest =>
      rw [found, List.length_cons] at atMostOne
      have single : rest = [] := List.length_eq_zero_iff.mp (by omega)
      rw [found, single] at reordered
      rw [single, reordered.eq_singleton]

/-- Ascending trials of distinct configurations are groups of their own. -/
theorem groups_of_ascending
    (ascending : trials.Pairwise fun first second => first.key.Precedes second.key) :
    groups trials = trials.map fun trial => (Group.empty trial.key).cons trial.value := by
  induction trials with
  | nil => rfl
  | cons trial trials induction =>
      rw [List.pairwise_cons] at ascending
      have inserted : groups (trial :: trials) = insert trial (groups trials) := rfl
      rw [inserted, induction ascending.2, List.map_cons]
      cases trials with
      | nil => rfl
      | cons next trials =>
          have before : compare trial.key next.key = .lt :=
            Key.compare_eq_lt_iff.mpr (ascending.1 next List.mem_cons_self)
          rw [List.map_cons, insert, Group.cons_key]
          simp only [Group.empty, before]

end Distinct

section Restated

variable {table : List Point} {restated shuffled : List Record} {trials : List Trial}
  {settings : Settings}

/-- Records that are all decoded have no summary among them. -/
theorem trialRecords_of_decodeAll {family : Family} {records : List Record}
    (decoded : decodeAll family records = .ok trials) : trialRecords records = records := by
  rw [trialRecords, List.filter_eq_self]
  intro record member
  obtain ⟨key, accepted⟩ := exists_decodeAll_eq_ok_iff.mp ⟨trials, decoded⟩ record member
  rw [SummaryName.not_isSummary_of_decode accepted, Bool.not_false]

theorem exists_stated (named : ∀ point ∈ table, ∃ name, ListName.decode name = .ok point.key) :
    ∃ restated, List.Forall₂ Point.StatedBy table restated := by
  induction table with
  | nil => exact ⟨[], .nil⟩
  | cons point table induction =>
      rw [List.forall_mem_cons] at named
      obtain ⟨name, accepted⟩ := named.1
      obtain ⟨written, isWritten, -⟩ := ListName.exists_encodeKey?_of_decode accepted
      obtain ⟨restated, stated⟩ := induction named.2
      exact ⟨⟨written, some point.throughput, .operationsPerSecond⟩ :: restated,
        .cons ⟨isWritten, rfl⟩ stated⟩

theorem decodeAll_stated (named : ∀ point ∈ table, ∃ name, ListName.decode name = .ok point.key)
    (stated : List.Forall₂ Point.StatedBy table restated) :
    decodeAll .list restated = .ok (table.map Point.trial) := by
  induction stated with
  | nil => rfl
  | @cons point record table restated statedBy _ induction =>
      rw [List.forall_mem_cons] at named
      obtain ⟨name, accepted⟩ := named.1
      have rest := induction named.2
      have shape : (point :: table).map Point.trial =
          ⟨point.key, record.value⟩ :: table.map Point.trial := by
        rw [statedBy.value]
        rfl
      exact decodeAll_cons_eq_ok_iff.mpr
        ⟨point.key, table.map Point.trial, statedBy.decode accepted, rest, shape⟩

theorem groups_stated (ascending : table.Pairwise fun first second => first.key.Precedes second.key)
    (permutation : trials.Perm (table.map Point.trial)) :
    groups trials = table.map Point.group := by
  have distinct : ((table.map Point.trial).map Trial.key).Nodup := by
    rw [List.map_map]
    exact List.pairwise_map.mpr (ascending.imp Key.Precedes.ne)
  have sorted : (table.map Point.trial).Pairwise fun first second =>
      first.key.Precedes second.key := List.pairwise_map.mpr ascending
  calc groups trials
      = groups (table.map Point.trial) :=
        groups_eq_of_trialsOf_eq (trialsOf_eq_of_perm distinct permutation)
    _ = (table.map Point.trial).map fun trial => (Group.empty trial.key).cons trial.value :=
        groups_of_ascending sorted
    _ = table.map Point.group := List.map_map

theorem points_stated (grouped : groups trials = table.map Point.group) :
    points trials = table.map Point.ofOneTrial := by
  rw [points, grouped, List.filterMap_map]
  simp only [Function.comp_def, Point.point?_group, List.filterMap_eq_map']

/-- Nothing is left out of the means of stated points. -/
theorem events_stated (grouped : groups trials = table.map Point.group)
    (all : trials.length = table.length) :
    events trials = [.trialsAggregated table.length table.length 0] := by
  have noneMissing (points : List Point) :
      (points.map Point.group).foldr (fun group total => group.missing + total) 0 = 0 := by
    induction points with
    | nil => rfl
    | cons point points induction => simpa [Point.group] using induction
  have excluded : excludedCount trials = 0 := by
    rw [excludedCount, grouped, noneMissing]
  have dropped : droppedKeys trials = [] := by
    rw [droppedKeys, grouped]
    simp [Point.group]
  rw [events, excluded, dropped, points_stated grouped, all]
  simp

theorem unconfiguredVariants_ofOneTrial (settings : Settings) (table : List Point) :
    unconfiguredVariants settings (table.map Point.ofOneTrial) =
      unconfiguredVariants settings table := by
  rw [unconfiguredVariants, List.map_map]
  rfl

theorem ofRecords_stated (isList : settings.family = .list)
    (ascending : table.Pairwise fun first second => first.key.Precedes second.key)
    (named : ∀ point ∈ table, ∃ name, ListName.decode name = .ok point.key)
    (stated : List.Forall₂ Point.StatedBy table restated) (permutation : shuffled.Perm restated) :
    ofRecords settings shuffled =
      (.trialsAggregated table.length table.length 0 ::
        (unconfiguredVariants settings table).map .variantUnconfigured,
        .ok (table.map Point.ofOneTrial)) := by
  obtain ⟨trials, decoded, reordered⟩ :=
    exists_decodeAll_of_perm permutation.symm (decodeAll_stated named stated)
  have noSummary : trialRecords shuffled = shuffled := trialRecords_of_decodeAll decoded
  have grouped := groups_stated ascending reordered.symm
  have all : trials.length = table.length := by
    rw [← reordered.length_eq, List.length_map]
  have skipped : skippedEvents shuffled = [] := by simp [skippedEvents, noSummary]
  rw [ofRecords, isList, noSummary, decoded]
  simp only [skipped, events_stated grouped all, points_stated grouped,
    unconfiguredVariants_ofOneTrial, List.nil_append, List.singleton_append]

end Restated

/-- Aggregating the points of a list table again changes no more than their numbers of trials.  Every
point can be stated as a trial, and stated in any order the points give the same configurations in the
same order, without a row that is skipped or left out. -/
theorem ofRecords_restated_points {settings : Settings} (isList : settings.family = .list)
    {records : List Record} {table : List Point}
    (aggregated : (ofRecords settings records).2 = .ok table) :
    (∃ restated, List.Forall₂ Point.StatedBy table restated) ∧
    (∀ restated shuffled, List.Forall₂ Point.StatedBy table restated → shuffled.Perm restated →
      ofRecords settings shuffled =
        (.trialsAggregated table.length table.length 0 ::
          (unconfiguredVariants settings table).map .variantUnconfigured,
          .ok (table.map fun point => ⟨point.key, (0.0 + point.throughput) / 1.0, 1⟩))) ∧
    ∀ point ∈ table,
      ExactNumber.ofFloat ((0.0 + point.throughput) / 1.0) =
        ExactNumber.ofFloat point.throughput := by
  have named : ∀ point ∈ table, ∃ name, ListName.decode name = .ok point.key := by
    intro point member
    obtain ⟨⟨record, -, -, accepted, -⟩, -⟩ := (mem_iff_of_ofRecords aggregated).mp member
    rw [isList] at accepted
    exact ⟨record.name, accepted⟩
  have ascending := ascending_of_ofRecords aggregated
  refine ⟨exists_stated named, ?_, fun point _ => ExactNumber.ofFloat_zero_add_div_one _⟩
  intro restated shuffled stated permutation
  exact ofRecords_stated isList ascending named stated permutation

/-- A table with a variant that has no color, trials whose mean is rounded to negative zero, trials
whose sum leaves the range, a summary, and a configuration without a value. -/
def unevenRecords : List Record :=
  [⟨"BM_BalancedWorkload<LazyList<int>>/2/100", some (Float.ofBits 0x8000000000000001),
      .operationsPerSecond⟩,
    ⟨ListName.windingName, some 7.0, .operationsPerSecond⟩,
    ⟨"BM_BalancedWorkload<LazyList>/02/100", some 0.0, .operationsPerSecond⟩,
    ⟨"BM_BalancedWorkload<LazyList>/2/100_mean", some 9.0, .operationsPerSecond⟩,
    ⟨"BM_BalancedWorkload<FineList<int>>/2/100", none, .operationsPerSecond⟩,
    ⟨"BM_BalancedWorkload<LazyList<int>>/4/100", some 1.7e308, .operationsPerSecond⟩,
    ⟨"BM_BalancedWorkload<LazyList<int>>/4/100", some 1.7e308, .operationsPerSecond⟩]

/-- The points of that table. -/
def unevenPoints : List Point :=
  [⟨⟨"LazyList", some .balanced, 2, .elements 100⟩, Float.ofBits 0x8000000000000000, 2⟩,
    ⟨⟨"LazyList", some .balanced, 4, .elements 100⟩, Float.ofBits 0x7FF0000000000000, 2⟩,
    ⟨ListName.windingKey, 7.0, 1⟩]

/-- The points of the table that states them. -/
def restatedUnevenPoints : List Point :=
  [⟨⟨"LazyList", some .balanced, 2, .elements 100⟩, 0.0, 1⟩,
    ⟨⟨"LazyList", some .balanced, 4, .elements 100⟩, Float.ofBits 0x7FF0000000000000, 1⟩,
    ⟨ListName.windingKey, 7.0, 1⟩]

/-- Negative zero is added to zero, which takes its sign and nothing else. -/
theorem ofRecords_restated_unevenPoints :
    (ofRecords Settings.list unevenRecords).2 = .ok unevenPoints ∧
      ∃ restated, List.Forall₂ Point.StatedBy unevenPoints restated ∧
        ofRecords Settings.list restated.reverse =
          ([.trialsAggregated 3 3 0, .variantUnconfigured "Über_list,2"],
            .ok restatedUnevenPoints) := by
  have aggregated : (ofRecords Settings.list unevenRecords).2 = .ok unevenPoints :=
    toOption_eq_some_iff.mp (by decide +kernel)
  have unconfigured : unconfiguredVariants Settings.list unevenPoints = ["Über_list,2"] := by
    decide +kernel
  have means : unevenPoints.map Point.ofOneTrial = restatedUnevenPoints := by decide +kernel
  obtain ⟨⟨restated, stated⟩, again, -⟩ := ofRecords_restated_points rfl aggregated
  refine ⟨aggregated, restated, stated, ?_⟩
  rw [← means, again restated restated.reverse stated (List.reverse_perm restated), unconfigured]
  rfl

end Aggregation

end ThroughputCharts

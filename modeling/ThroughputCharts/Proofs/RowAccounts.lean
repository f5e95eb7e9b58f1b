import Mathlib.Algebra.Ring.Nat
import Mathlib.Data.List.Dedup
import ThroughputCharts.Proofs.RecordValues

/-!
# What becomes of every row

Every row of a table is a summary that is skipped, a trial that counts in a mean, or a trial without a
value.  Every configuration that is decoded has a point or is dropped.  The log gives these numbers,
whose sums are kept by each trial that is put into the groups.
-/

namespace ThroughputCharts

namespace Aggregation

/-- The number of rows that are summaries of trials. -/
def summaryCount (records : List Record) : Nat :=
  records.countP fun record => SummaryName.isSummary record.name

/-- The number of rows that are trials without a value. -/
def missingCount (records : List Record) : Nat :=
  records.countP fun record => !SummaryName.isSummary record.name && record.value.isNone

/-- The configurations of the rows that are trials, as often as they are measured. -/
def decodedKeys (family : Family) (records : List Record) : List Key :=
  (trialRecords records).filterMap fun record => (family.decode record.name).toOption

/-- The event of a count that is reported unless it is zero. -/
def notice (count : Nat) (event : Nat → Event) : List Event :=
  if 0 < count then [event count] else []

/-- What a table of points, the configurations without a point and the log tell about the rows. -/
structure AccountsFor (family : Family) (records : List Record) (table : List Point)
    (dropped : List Key) (log : List Event) : Prop where
  rows : records.length =
    summaryCount records + (table.map Point.trials).sum + missingCount records
  keys : (decodedKeys family records).dedup.length = table.length + dropped.length
  dropped_ascending : dropped.Pairwise Key.Precedes
  mem_dropped : ∀ key, key ∈ dropped ↔ key ∈ decodedKeys family records ∧
    ∀ record ∈ records, reports family key record = true → record.value = none
  logged : ∃ unconfigured : List String, log =
    notice (summaryCount records) .summariesSkipped ++
      notice (missingCount records) .trialsExcluded ++
      dropped.map .configurationDropped ++
      [.trialsAggregated (records.length - summaryCount records) table.length dropped.length] ++
      unconfigured.map .variantUnconfigured

section Groups

variable {weight : Group → Nat} {counts : Option Float → Bool}

/-- A number of a group to which some values add one grows by that with every trial. -/
theorem sum_insert (fresh : ∀ key, weight (Group.empty key) = 0)
    (grows : ∀ value group,
      weight (Group.cons value group) = weight group + if counts value then 1 else 0)
    (trial : Trial) (groups : List Group) :
    ((insert trial groups).map weight).sum =
      (groups.map weight).sum + if counts trial.value then 1 else 0 := by
  induction groups with
  | nil => simp [insert, fresh, grows]
  | cons group rest induction =>
      simp only [insert]
      split
      next =>
        simp only [List.map_cons, List.sum_cons, grows, fresh]
        omega
      next =>
        simp only [List.map_cons, List.sum_cons, grows]
        omega
      next =>
        simp only [List.map_cons, List.sum_cons, induction]
        omega

theorem sum_groups (fresh : ∀ key, weight (Group.empty key) = 0)
    (grows : ∀ value group,
      weight (Group.cons value group) = weight group + if counts value then 1 else 0)
    (trials : List Trial) :
    ((groups trials).map weight).sum = trials.countP fun trial => counts trial.value := by
  induction trials with
  | nil => rfl
  | cons trial trials induction =>
      have inserted : groups (trial :: trials) = insert trial (groups trials) := rfl
      rw [inserted, sum_insert fresh grows, induction, List.countP_cons]

end Groups

section Trials

variable (trials : List Trial)

/-- The trials that are left out are those without a value. -/
theorem excludedCount_eq_countP :
    excludedCount trials = trials.countP fun trial => trial.value.isNone := by
  have summed : excludedCount trials = ((groups trials).map Group.missing).sum := by
    rw [excludedCount, List.sum, List.foldr_map]
  rw [summed]
  apply sum_groups (fun _ => rfl)
  intro value group
  cases value <;> rfl

/-- The trials behind the points are those with a value. -/
theorem sum_trials_points :
    ((points trials).map Point.trials).sum = trials.countP fun trial => trial.value.isSome := by
  have summed : ((points trials).map Point.trials).sum =
      ((groups trials).map fun group => group.values.length).sum := by
    rw [points]
    induction groups trials with
    | nil => rfl
    | cons group rest induction =>
        by_cases noValue : group.values = []
        · simpa [Group.point?, noValue] using induction
        · simpa [Group.point?, noValue] using induction
  rw [summed]
  apply sum_groups (fun _ => rfl)
  intro value group
  cases value <;> rfl

theorem nodup_keys_groups : ((groups trials).map Group.key).Nodup :=
  List.pairwise_map.mpr ((groups_ascending trials).imp Key.Precedes.ne)

/-- There is one group for each configuration. -/
theorem length_groups : (groups trials).length = (trials.map Trial.key).dedup.length := by
  rw [← List.length_map Group.key]
  apply List.Perm.length_eq
  rw [List.perm_ext_iff_of_nodup (nodup_keys_groups trials) (List.nodup_dedup _)]
  intro key
  rw [mem_keys_groups, List.mem_dedup]

/-- A group makes a point, or its configuration is dropped. -/
theorem length_points_add_length_droppedKeys :
    (points trials).length + (droppedKeys trials).length = (groups trials).length := by
  rw [points, droppedKeys, List.length_map]
  induction groups trials with
  | nil => rfl
  | cons group rest induction =>
      by_cases noValue : group.values = []
      · simp [Group.point?, noValue]
        omega
      · simp [Group.point?, noValue]
        omega

theorem droppedKeys_ascending : (droppedKeys trials).Pairwise Key.Precedes :=
  List.pairwise_map.mpr ((groups_ascending trials).filter _)

theorem mem_droppedKeys_iff {key : Key} :
    key ∈ droppedKeys trials ↔ key ∈ trials.map Trial.key ∧ valuesOf trials key = [] := by
  simp only [droppedKeys, List.mem_map (f := Group.key), List.mem_filter, mem_groups_iff,
    List.isEmpty_iff]
  constructor
  · rintro ⟨group, ⟨⟨hasKey, shape⟩, noValue⟩, rfl⟩
    exact ⟨hasKey, (congrArg Group.values shape).symm.trans noValue⟩
  · rintro ⟨hasKey, noValue⟩
    exact ⟨⟨key, valuesOf trials key, missingOf trials key⟩, ⟨⟨hasKey, rfl⟩, noValue⟩, rfl⟩

end Trials

section Records

variable {family : Family} {records : List Record} {trials : List Trial}

theorem values_of_decodeAll (decoded : decodeAll family records = .ok trials) :
    trials.map Trial.value = records.map Record.value := by
  induction records generalizing trials with
  | nil =>
      cases decoded
      rfl
  | cons record records induction =>
      obtain ⟨key, others, name, rest, rfl⟩ := decodeAll_cons_eq_ok_iff.mp decoded
      rw [List.map_cons, List.map_cons, induction rest]

theorem keys_of_decodeAll (decoded : decodeAll family records = .ok trials) :
    trials.map Trial.key =
      records.filterMap fun record => (family.decode record.name).toOption := by
  induction records generalizing trials with
  | nil =>
      cases decoded
      rfl
  | cons record records induction =>
      obtain ⟨key, others, name, rest, rfl⟩ := decodeAll_cons_eq_ok_iff.mp decoded
      rw [List.map_cons, List.filterMap_cons, toOption_eq_some_iff.mpr name, induction rest]

theorem countP_value_of_decodeAll (decoded : decodeAll family records = .ok trials)
    (counts : Option Float → Bool) :
    (trials.countP fun trial => counts trial.value) =
      records.countP fun record => counts record.value := by
  have counted := congrArg (List.countP counts) (values_of_decodeAll decoded)
  rwa [List.countP_map, List.countP_map] at counted

theorem length_trialRecords_add_summaryCount (records : List Record) :
    (trialRecords records).length + summaryCount records = records.length := by
  have split := List.length_eq_countP_add_countP (l := records)
    fun record => SummaryName.isSummary record.name
  have others : (trialRecords records).length =
      records.countP fun record => decide ¬ SummaryName.isSummary record.name = true := by
    rw [trialRecords, ← List.countP_eq_length_filter]
    simp only [Bool.not_eq_true, Bool.decide_eq_false]
  rw [others, split, summaryCount, Nat.add_comm]

theorem countP_isNone_trialRecords (records : List Record) :
    ((trialRecords records).countP fun record => record.value.isNone) = missingCount records := by
  rw [trialRecords, List.countP_filter, missingCount]
  apply List.countP_congr
  intro record _
  rw [Bool.and_comm]

theorem skippedEvents_eq_notice (records : List Record) :
    skippedEvents records = notice (summaryCount records) .summariesSkipped := by
  have total := length_trialRecords_add_summaryCount records
  have skipped : records.length - (trialRecords records).length = summaryCount records := by omega
  rw [skippedEvents, skipped]
  rfl

theorem rows_of_decodeAll (decoded : decodeAll family (trialRecords records) = .ok trials) :
    records.length =
      summaryCount records + ((points trials).map Point.trials).sum + missingCount records := by
  have total := length_trialRecords_add_summaryCount records
  have split := List.length_eq_countP_add_countP (l := trialRecords records)
    fun record => record.value.isSome
  simp only [Bool.not_eq_true, Option.isSome_eq_false_iff, Bool.decide_eq_true] at split
  rw [countP_isNone_trialRecords] at split
  rw [sum_trials_points, countP_value_of_decodeAll decoded Option.isSome]
  omega

theorem mem_droppedKeys_of_decodeAll
    (decoded : decodeAll family (trialRecords records) = .ok trials) {key : Key} :
    key ∈ droppedKeys trials ↔ key ∈ decodedKeys family records ∧
      ∀ record ∈ records, reports family key record = true → record.value = none := by
  rw [mem_droppedKeys_iff, keys_of_decodeAll decoded, valuesOf_eq_recordValues decoded, decodedKeys,
    recordValues, List.filterMap_eq_nil_iff]
  simp only [List.mem_filter, and_imp]

end Records

/-- The points of a table and the log of their making account for every row and every configuration,
and when a name is refused, no more than the summaries has been reported. -/
theorem ofRecords_accountsFor (settings : Settings) (records : List Record) :
    (∀ table, (ofRecords settings records).2 = .ok table →
      ∃ dropped, AccountsFor settings.family records table dropped (ofRecords settings records).1) ∧
    ∀ error, (ofRecords settings records).2 = .error error →
      (ofRecords settings records).1 = notice (summaryCount records) .summariesSkipped := by
  rw [ofRecords, ← skippedEvents_eq_notice]
  cases decoded : decodeAll settings.family (trialRecords records) with
  | error error => exact ⟨nofun, fun _ _ => rfl⟩
  | ok trials =>
      refine ⟨?_, nofun⟩
      rintro _ ⟨⟩
      refine ⟨droppedKeys trials, ?_⟩
      constructor
      case rows => exact rows_of_decodeAll decoded
      case keys =>
        rw [length_points_add_length_droppedKeys, length_groups, keys_of_decodeAll decoded,
          decodedKeys]
      case dropped_ascending => exact droppedKeys_ascending trials
      case mem_dropped => exact fun key => mem_droppedKeys_of_decodeAll decoded
      case logged =>
        have missing : excludedCount trials = missingCount records := by
          rw [excludedCount_eq_countP, countP_value_of_decodeAll decoded Option.isNone,
            countP_isNone_trialRecords]
        have total : trials.length = records.length - summaryCount records := by
          have sameLength := congrArg List.length (values_of_decodeAll decoded)
          have split := length_trialRecords_add_summaryCount records
          rw [List.length_map, List.length_map] at sameLength
          omega
        refine ⟨unconfiguredVariants settings (points trials), ?_⟩
        simp only [events, missing, total, skippedEvents_eq_notice, List.append_assoc]
        rfl

/-- A table with a summary, with a configuration of which one trial failed, with one of which every
trial failed, and with one that has no color. -/
def partlyFailedRecords : List Record :=
  [⟨"BM_ReadHeavyWorkload<LazyList<int>>/8/100", some 3.0, .operationsPerSecond⟩,
    ⟨"BM_ReadHeavyWorkload<FineList<int>>/8/100", none, .operationsPerSecond⟩,
    ⟨"BM_ReadHeavyWorkload<LazyList<int>>/8/100", none, .operationsPerSecond⟩,
    ⟨"BM_ReadHeavyWorkload<LazyList<int>>/8/100_mean", some 3.0, .operationsPerSecond⟩,
    ⟨"BM_ReadHeavyWorkload<FineList<int>>/8/100", none, .operationsPerSecond⟩,
    ⟨"BM_BalancedWorkload<SkipList>/2/100", some 1.0, .operationsPerSecond⟩]

/-- The points of that table. -/
def partlyFailedPoints : List Point :=
  [⟨⟨"LazyList", some .readHeavy, 8, .elements 100⟩, 3.0, 1⟩,
    ⟨⟨"SkipList", some .balanced, 2, .elements 100⟩, 1.0, 1⟩]

/-- The queue family refuses the first of those names. -/
theorem accountsFor_partlyFailedRecords :
    ((ofRecords Settings.list partlyFailedRecords).2 = .ok partlyFailedPoints ∧
      ∃ dropped, AccountsFor .list partlyFailedRecords partlyFailedPoints dropped
        (ofRecords Settings.list partlyFailedRecords).1) ∧
    ∃ error, (ofRecords Settings.queue partlyFailedRecords).2 = .error error ∧
      (ofRecords Settings.queue partlyFailedRecords).1 = [.summariesSkipped 1] := by
  have aggregated : (ofRecords Settings.list partlyFailedRecords).2 = .ok partlyFailedPoints :=
    toOption_eq_some_iff.mp (by decide +kernel)
  refine ⟨⟨aggregated, (ofRecords_accountsFor _ _).1 _ aggregated⟩, ?_⟩
  cases refused : (ofRecords Settings.queue partlyFailedRecords).2 with
  | ok table =>
      have isNone : (ofRecords Settings.queue partlyFailedRecords).2.toOption = none := by
        decide +kernel
      rw [refused] at isNone
      contradiction
  | error error =>
      refine ⟨error, rfl, ?_⟩
      rw [(ofRecords_accountsFor _ _).2 error refused]
      decide +kernel

end Aggregation

end ThroughputCharts

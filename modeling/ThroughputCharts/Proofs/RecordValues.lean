import ThroughputCharts.Proofs.Grouping
import ThroughputCharts.Proofs.Results

/-!
# Records of a configuration

Summaries are left out and every other name is decoded, one record after the other.  So the trials of
a configuration are the records that report it, and their values stand in the order of the table.
-/

namespace ThroughputCharts
namespace Aggregation

/-- Whether a record is a trial of a configuration, and not a summary of trials. -/
def reports (family : Family) (key : Key) (record : Record) : Bool :=
  !SummaryName.isSummary record.name && decide ((family.decode record.name).toOption = some key)

/-- The values that records report for a configuration, in the order of the table. -/
def recordValues (family : Family) (records : List Record) (key : Key) : List Float :=
  (records.filter (reports family key)).filterMap Record.value

/-- The mean of those values; they are added from left to right, starting at zero. -/
def recordMean (family : Family) (records : List Record) (key : Key) : Float :=
  (recordValues family records key).foldl (· + ·) 0.0 /
    Float.ofNat (recordValues family records key).length

/-- A configuration is measured when the name of some record that is no summary decodes to it, and
that record has a value. -/
def Measured (family : Family) (records : List Record) (key : Key) : Prop :=
  ∃ record ∈ records, SummaryName.isSummary record.name = false ∧
    family.decode record.name = .ok key ∧ record.value.isSome = true

theorem reports_iff {family : Family} {key : Key} {record : Record} :
    reports family key record = true ↔
      SummaryName.isSummary record.name = false ∧ family.decode record.name = .ok key := by
  simp [reports, toOption_eq_some_iff]

theorem recordValues_ne_nil_iff {family : Family} {records : List Record} {key : Key} :
    recordValues family records key ≠ [] ↔ Measured family records key := by
  simp only [recordValues, Measured, ne_eq, List.filterMap_eq_nil_iff, List.mem_filter, reports_iff,
    not_forall, and_imp, exists_prop, Option.isSome_iff_ne_none]

theorem decodeAll_cons_eq_ok_iff {family : Family} {record : Record} {records : List Record}
    {trials : List Trial} :
    decodeAll family (record :: records) = .ok trials ↔
      ∃ key others, family.decode record.name = .ok key ∧ decodeAll family records = .ok others ∧
        trials = ⟨key, record.value⟩ :: others := by
  simp only [decodeAll, List.mapM_cons, bind_eq_ok_iff, trialOfRecord]
  constructor
  · rintro ⟨trial, decoded, others, rest, joined⟩
    cases name : family.decode record.name with
    | error error => simp [name, Except.map] at decoded
    | ok key =>
        simp only [name, Except.map, Except.ok.injEq] at decoded
        cases joined
        exact ⟨key, others, rfl, rest, by rw [decoded]⟩
  · rintro ⟨key, others, decoded, rest, rfl⟩
    exact ⟨⟨key, record.value⟩, by simp [decoded, Except.map], others, rest, rfl⟩

/-- All records are decoded when each of their names can be. -/
theorem exists_decodeAll_eq_ok_iff {family : Family} {records : List Record} :
    (∃ trials, decodeAll family records = .ok trials) ↔
      ∀ record ∈ records, ∃ key, family.decode record.name = .ok key := by
  induction records with
  | nil => exact ⟨nofun, fun _ => ⟨[], rfl⟩⟩
  | cons record records induction =>
      simp only [decodeAll_cons_eq_ok_iff, List.forall_mem_cons, ← induction]
      constructor
      · rintro ⟨_, key, others, decoded, rest, rfl⟩
        exact ⟨⟨key, decoded⟩, others, rest⟩
      · rintro ⟨⟨key, decoded⟩, others, rest⟩
        exact ⟨_, key, others, decoded, rest, rfl⟩

/-- The values of the decoded trials of a configuration are those of the records decoded to it. -/
theorem valuesOf_of_decodeAll {family : Family} {records : List Record} {trials : List Trial}
    (decoded : decodeAll family records = .ok trials) (key : Key) :
    valuesOf trials key =
      (records.filter fun record => (family.decode record.name).toOption = some key).filterMap
        Record.value := by
  induction records generalizing trials with
  | nil =>
      cases decoded
      rfl
  | cons record records induction =>
      obtain ⟨found, others, name, rest, rfl⟩ := decodeAll_cons_eq_ok_iff.mp decoded
      have later := induction rest
      by_cases same : found = key
      · cases value : record.value <;>
          simp_all [valuesOf, toOption_eq_some_iff]
      · simp_all [valuesOf, toOption_eq_some_iff]

/-- A table is aggregated to the points of its trials, which are all decoded first. -/
theorem snd_ofRecords (settings : Settings) (records : List Record) :
    (ofRecords settings records).2 =
      (decodeAll settings.family (trialRecords records)).map points := by
  unfold ofRecords
  cases decodeAll settings.family (trialRecords records) <;> rfl

theorem ofRecords_eq_ok_iff {settings : Settings} {records : List Record} {table : List Point} :
    (ofRecords settings records).2 = .ok table ↔
      ∃ trials, decodeAll settings.family (trialRecords records) = .ok trials ∧
        table = points trials := by
  rw [snd_ofRecords, map_eq_ok_iff]
  simp only [eq_comm]

theorem valuesOf_eq_recordValues {family : Family} {records : List Record} {trials : List Trial}
    (decoded : decodeAll family (trialRecords records) = .ok trials) (key : Key) :
    valuesOf trials key = recordValues family records key := by
  rw [valuesOf_of_decodeAll decoded, trialRecords, List.filter_filter, recordValues]
  congr 1
  apply List.filter_congr
  intro record _
  exact Bool.and_comm _ _

/-- A table of points holds the means of the measured configurations. -/
theorem mem_iff_of_ofRecords {settings : Settings} {records : List Record} {table : List Point}
    (aggregated : (ofRecords settings records).2 = .ok table) {point : Point} :
    point ∈ table ↔
      Measured settings.family records point.key ∧
        point = ⟨point.key, recordMean settings.family records point.key,
          (recordValues settings.family records point.key).length⟩ := by
  obtain ⟨trials, decoded, rfl⟩ := ofRecords_eq_ok_iff.mp aggregated
  rw [mem_points_iff, valuesOf_eq_recordValues decoded, recordValues_ne_nil_iff]
  rfl

theorem exists_point_of_measured {settings : Settings} {records : List Record} {table : List Point}
    (aggregated : (ofRecords settings records).2 = .ok table) {key : Key}
    (measured : Measured settings.family records key) :
    ∃ point ∈ table, point.key = key ∧
      point.throughput = recordMean settings.family records key := by
  let point : Point := ⟨key, recordMean settings.family records key,
    (recordValues settings.family records key).length⟩
  exact ⟨point, (mem_iff_of_ofRecords aggregated).mpr ⟨measured, rfl⟩, rfl, rfl⟩

theorem ascending_of_ofRecords {settings : Settings} {records : List Record} {table : List Point}
    (aggregated : (ofRecords settings records).2 = .ok table) :
    table.Pairwise fun first second => first.key.Precedes second.key := by
  obtain ⟨trials, -, rfl⟩ := ofRecords_eq_ok_iff.mp aggregated
  exact points_ascending trials

end Aggregation
end ThroughputCharts

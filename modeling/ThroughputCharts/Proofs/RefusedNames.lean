import ThroughputCharts.Proofs.CheckOrder
import ThroughputCharts.Proofs.RecordValues

/-!
# The earliest refused name

Summaries are left out before any name is decoded, so only the name of a trial can be refused.  The
error of a table is that of its earliest refused trial, and summaries can be put in or taken out
anywhere without an effect on that error or on the points.
-/

namespace ThroughputCharts

namespace Aggregation

/-- A record is a trial, and its family refuses its name with an error. -/
structure Refuses (family : Family) (record : Record) (error : NameError) : Prop where
  trial : SummaryName.isSummary record.name = false
  refused : family.decode record.name = .error error

/-- The error of the earliest refused trial of a table. -/
def FirstRefusal (family : Family) (records : List Record) (error : NameError) : Prop :=
  ∃ before record after, records = before ++ record :: after ∧ Refuses family record error ∧
    ∀ earlier ∈ before, ∀ other, ¬ Refuses family earlier other

/-- The second table is the first one with summaries put in, at any places and of any values. -/
inductive AddsSummaries : List Record → List Record → Prop
  | nil : AddsSummaries [] []
  | keep (record : Record) {shorter longer : List Record} :
      AddsSummaries shorter longer → AddsSummaries (record :: shorter) (record :: longer)
  | add {record : Record} {shorter longer : List Record} :
      SummaryName.isSummary record.name = true → AddsSummaries shorter longer →
        AddsSummaries shorter (record :: longer)

theorem trialRecords_cons (record : Record) (records : List Record) :
    trialRecords (record :: records) =
      if SummaryName.isSummary record.name then trialRecords records
      else record :: trialRecords records := by
  cases summary : SummaryName.isSummary record.name <;> simp [trialRecords, summary]

section Refusals

variable {family : Family} {record : Record} {records : List Record} {error : NameError}

theorem firstRefusal_iff :
    FirstRefusal family records error ↔ FirstOutcome (Refuses family) records error :=
  Iff.rfl

/-- Decoding the trials of a table fails with the error of the earliest refused one. -/
theorem decodeAll_trialRecords_eq_error_iff :
    decodeAll family (trialRecords records) = .error error ↔ FirstRefusal family records error := by
  induction records with
  | nil => exact iff_of_false nofun not_firstOutcome_nil
  | cons record records induction =>
      rw [firstRefusal_iff, firstOutcome_cons, ← firstRefusal_iff, ← induction]
      cases summary : SummaryName.isSummary record.name with
      | true =>
          -- A summary is left out, and it is no refused trial whatever its name.
          have notRefused (other : NameError) : ¬ Refuses family record other := by
            intro refuses
            rw [refuses.trial] at summary
            contradiction
          simp [trialRecords_cons, summary, notRefused]
      | false =>
          have refuses (other : NameError) :
              Refuses family record other ↔ family.decode record.name = .error other :=
            ⟨Refuses.refused, Refuses.mk summary⟩
          simp only [trialRecords_cons, summary, Bool.false_eq_true, if_false, refuses, decodeAll,
            List.mapM_cons, bind_eq_error_iff, trialOfRecord]
          cases family.decode record.name <;> simp [Except.map, pure, Except.pure]

end Refusals

theorem AddsSummaries.trialRecords_eq {shorter longer : List Record}
    (adds : AddsSummaries shorter longer) : trialRecords longer = trialRecords shorter := by
  induction adds with
  | nil => rfl
  | keep record _ induction => rw [trialRecords_cons, trialRecords_cons, induction]
  | add summary _ induction => rw [trialRecords_cons, if_pos summary, induction]

/-- A table fails exactly when one of its trials is refused, and then with the error of the earliest
one; summaries put in or taken out change neither the points nor the error. -/
theorem ofRecords_fails_at_first_refusal (settings : Settings) (records : List Record) :
    ((∃ error, (ofRecords settings records).2 = .error error) ↔
      ∃ record ∈ records, ∃ error, Refuses settings.family record error) ∧
    (∀ error, (ofRecords settings records).2 = .error error ↔
      FirstRefusal settings.family records error) ∧
    ∀ longer, AddsSummaries records longer →
      (ofRecords settings longer).2 = (ofRecords settings records).2 := by
  have firstError (error : NameError) : (ofRecords settings records).2 = .error error ↔
      FirstRefusal settings.family records error := by
    rw [snd_ofRecords, map_eq_error_iff, decodeAll_trialRecords_eq_error_iff]
  refine ⟨?_, firstError, ?_⟩
  · simp only [firstError]
    exact exists_firstOutcome_iff
  · intro longer adds
    rw [snd_ofRecords, snd_ofRecords, adds.trialRecords_eq]

/-- A trial between two refused ones; the family knows no workload of the first. -/
def refusedRecords : List Record :=
  [⟨"BM_SortedWorkload<LazyList>/2/100", some 1.0, .operationsPerSecond⟩,
    ⟨"BM_BalancedWorkload<LazyList>/2/100", some 2.0, .operationsPerSecond⟩,
    ⟨"BM_BalancedWorkload<>/2/100", some 3.0, .operationsPerSecond⟩]

/-- The same table behind a summary whose name is as malformed. -/
def summarizedRecords : List Record :=
  ⟨"Workload_mean", none, .operationsPerSecond⟩ :: refusedRecords

theorem summarizedRecords_fail_at_first_refusal :
    (∃ error, (ofRecords Settings.list refusedRecords).2 = .error error) ∧
    AddsSummaries refusedRecords summarizedRecords ∧
      (ofRecords Settings.list summarizedRecords).2 =
        .error ⟨"BM_SortedWorkload<LazyList>/2/100", .unknownWorkload "SortedWorkload"⟩ := by
  let error : NameError :=
    ⟨"BM_SortedWorkload<LazyList>/2/100", .unknownWorkload "SortedWorkload"⟩
  have adds : AddsSummaries refusedRecords summarizedRecords :=
    .add (by decide +kernel) (.keep _ (.keep _ (.keep _ .nil)))
  have refuses : Refuses .list ⟨"BM_SortedWorkload<LazyList>/2/100", some 1.0, .operationsPerSecond⟩
      error := by
    constructor <;> decide +kernel
  have isFirst : FirstRefusal .list refusedRecords error :=
    ⟨[], _, _, rfl, refuses, List.forall_mem_nil _⟩
  have fails := ofRecords_fails_at_first_refusal Settings.list refusedRecords
  refine ⟨fails.1.mpr ⟨_, List.mem_cons_self, error, refuses⟩, adds, ?_⟩
  rw [fails.2.2 summarizedRecords adds]
  exact (fails.2.1 error).mpr isFirst

end Aggregation

end ThroughputCharts

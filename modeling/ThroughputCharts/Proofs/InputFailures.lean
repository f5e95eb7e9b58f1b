import Mathlib.Data.List.Nodup
import ThroughputCharts.Proofs.RecordValues
import ThroughputCharts.Report

/-!
# Runs that fail on their input

A run has two parts: the input is read and decoded as a whole, and then a plan of steps is carried
out.  No step fails with a failure of the first part, and the first part has no effect.  So a run
that fails on its input leaves no trace, and a trace shows that the whole input was good.
-/

namespace ThroughputCharts

namespace Failure

/-- Whether a failure is one of opening, reading or decoding the input. -/
def concernsInput : Failure → Bool
  | opening .. | reading .. | table .. | decoding .. => true
  | creatingFolder .. | writing .. | drawing .. | creating .. => false

/-- The text of a failure quotes a path as it was given, in its first line already. -/
structure Quotes (failure : Failure) (path : String) : Prop where
  headline : path.toList <:+: failure.headline.toList
  message : path.toList <:+: failure.message.toList

theorem infix_append_self (front path : String) : path.toList <:+: (front ++ path).toList := by
  rw [String.toList_append]
  exact (List.suffix_append _ _).isInfix

theorem infix_append_right {path text : String} (inside : path.toList <:+: text.toList)
    (more : String) : path.toList <:+: (text ++ more).toList := by
  rw [String.toList_append]
  exact inside.trans (List.prefix_append _ _).isInfix

theorem Quotes.of_headline {failure : Failure} {path : String}
    (quoted : path.toList <:+: failure.headline.toList) : failure.Quotes path := by
  refine ⟨quoted, ?_⟩
  unfold Failure.message
  split
  · exact infix_append_right (infix_append_right quoted _) _
  · exact quoted

theorem quotes_table (error : Table.Error) : (table error).Quotes error.source := by
  apply Quotes.of_headline
  unfold headline Table.Error.headline
  dsimp only
  split
  · exact infix_append_self _ _
  · exact infix_append_self _ _
  · exact infix_append_right (infix_append_right (infix_append_right (infix_append_self _ _) _) _) _
  · apply infix_append_right
    apply infix_append_right
    apply infix_append_right
    apply infix_append_right
    apply infix_append_right
    exact infix_append_self _ _

end Failure

namespace Report

/-- Every row of the input is read, and every name in it that is not a summary's is decoded. -/
structure Loaded (settings : Settings) (input : String) (directory : Directory)
    (records : List Record) : Prop where
  read : ∃ bytes, inputBytes directory input = .ok bytes ∧
    Table.read settings.family input bytes = .ok records
  decoded : ∀ record ∈ records, SummaryName.isSummary record.name = false →
    ∃ key, settings.family.decode record.name = .ok key

section Steps

variable {step : Step} {steps : List Step} {outcome : Outcome Unit} {failure : Failure}

/-- A step can only fail on what it creates or writes. -/
theorem concernsInput_of_perform (going : outcome.result = some (.ok ()))
    (failed : (perform step outcome).result = some (.error failure)) :
    failure.concernsInput = false := by
  cases step with
  | print text => simp [perform, going] at failed
  | log event => simp [perform, going] at failed
  | createFolders purpose path =>
      simp only [perform] at failed
      split at failed
      · simp [going] at failed
      · rw [← Except.error.inj (Option.some.inj failed)]
        rfl
  | writeExport path text =>
      simp only [perform] at failed
      split at failed
      · simp [going] at failed
      · rw [← Except.error.inj (Option.some.inj failed)]
        rfl
  | draw path figure =>
      simp only [perform] at failed
      split at failed
      · contradiction
      · split at failed
        · simp [going] at failed
        · rw [← Except.error.inj (Option.some.inj failed)]
          rfl

theorem concernsInput_of_performAll (going : outcome.result = some (.ok ()))
    (failed : (performAll steps outcome).result = some (.error failure)) :
    failure.concernsInput = false := by
  induction steps generalizing outcome with
  | nil =>
      rw [performAll, going] at failed
      cases failed
  | cons step steps induction =>
      simp only [performAll] at failed
      split at failed
      next done => exact induction done failed
      next => exact concernsInput_of_perform going failed

/-- A step adds to what was printed. -/
theorem printed_prefix_perform (step : Step) (outcome : Outcome Unit) :
    outcome.printed.toList <+: (perform step outcome).printed.toList := by
  cases step with
  | print text =>
      rw [perform, String.toList_append]
      exact List.prefix_append _ _
  | log event => exact List.prefix_rfl
  | createFolders purpose path =>
      simp only [perform]
      split <;> exact List.prefix_rfl
  | writeExport path text =>
      simp only [perform]
      split <;> exact List.prefix_rfl
  | draw path figure =>
      simp only [perform]
      split
      · exact List.prefix_rfl
      · split <;> exact List.prefix_rfl

theorem printed_prefix_performAll (steps : List Step) (outcome : Outcome Unit) :
    outcome.printed.toList <+: (performAll steps outcome).printed.toList := by
  induction steps generalizing outcome with
  | nil => exact List.prefix_rfl
  | cons step steps induction =>
      simp only [performAll]
      split
      · exact (printed_prefix_perform step outcome).trans (induction _)
      · exact printed_prefix_perform step outcome

end Steps

section Input

variable {settings : Settings} {input : String} {directory : Directory}

theorem source_of_read {family : Family} {source : String} {bytes : List UInt8}
    {error : Table.Error} (failed : Table.read family source bytes = .error error) :
    error.source = source := by
  unfold Table.read at failed
  cases rows : Table.readRows family bytes (Csv.rows bytes) with
  | ok records =>
      rw [rows] at failed
      cases failed
  | error fault =>
      rw [rows] at failed
      cases failed
      rfl

theorem of_inputBytes_eq_error {failure : Failure}
    (failed : inputBytes directory input = .error failure) :
    failure.concernsInput = true ∧ failure.Quotes input := by
  unfold inputBytes at failed
  split at failed
  next => cases failed
  next => cases failed
  next fault _ =>
    cases failed
    cases fault <;> exact ⟨rfl, .of_headline (Failure.infix_append_self _ input)⟩

theorem of_pointsOf_eq_error {bytes : List UInt8} {failure : Failure}
    (failed : (pointsOf settings input bytes).2 = .error failure) :
    failure.concernsInput = true ∧ failure.Quotes input := by
  unfold pointsOf at failed
  split at failed
  next error unread =>
    cases failed
    refine ⟨rfl, ?_⟩
    rw [← source_of_read unread]
    exact Failure.quotes_table error
  next records read =>
    dsimp only at failed
    cases aggregated : (Aggregation.ofRecords settings records).2 with
    | ok points =>
        rw [aggregated] at failed
        cases failed
    | error error =>
        rw [aggregated] at failed
        cases failed
        exact ⟨rfl, .of_headline (Failure.infix_append_self _ input)⟩

/-- Records have points when every name that is no summary's is decoded. -/
theorem exists_ofRecords_eq_ok_iff {records : List Record} :
    (∃ points, (Aggregation.ofRecords settings records).2 = .ok points) ↔
      ∀ record ∈ records, SummaryName.isSummary record.name = false →
        ∃ key, settings.family.decode record.name = .ok key := by
  have decodes : (∃ points, (Aggregation.ofRecords settings records).2 = .ok points) ↔
      ∃ trials, Aggregation.decodeAll settings.family (Aggregation.trialRecords records) =
        .ok trials := by
    simp only [Aggregation.ofRecords_eq_ok_iff]
    constructor
    · rintro ⟨_, trials, decoded, -⟩
      exact ⟨trials, decoded⟩
    · rintro ⟨trials, decoded⟩
      exact ⟨_, trials, decoded, rfl⟩
  rw [decodes, Aggregation.exists_decodeAll_eq_ok_iff]
  simp only [Aggregation.trialRecords, List.mem_filter, Bool.not_eq_true', and_imp]

/-- An input has points when it is read and decoded as a whole. -/
theorem exists_pointsOf_eq_ok_iff {bytes : List UInt8} :
    (∃ points, (pointsOf settings input bytes).2 = .ok points) ↔
      ∃ records, Table.read settings.family input bytes = .ok records ∧
        ∀ record ∈ records, SummaryName.isSummary record.name = false →
          ∃ key, settings.family.decode record.name = .ok key := by
  unfold pointsOf
  cases read : Table.read settings.family input bytes with
  | error error => simp
  | ok records =>
      simp only [mapError_eq_ok_iff, exists_ofRecords_eq_ok_iff, Except.ok.injEq, exists_eq_left']

end Input

section Run

variable {settings : Settings} {paths : ReportPaths} {directory : Directory}

/-- An input that is not good as a whole ends the run before any step. -/
theorem run_of_not_loaded (blocked : ¬ ∃ records, Loaded settings paths.input directory records) :
    ∃ failure events, failure.concernsInput = true ∧ failure.Quotes paths.input ∧
      run settings paths directory =
        { directory, printed := "", events, result := some (.error failure) } := by
  cases opened : inputBytes directory paths.input with
  | error failure =>
      obtain ⟨concerns, quotes⟩ := of_inputBytes_eq_error opened
      refine ⟨failure, [], concerns, quotes, ?_⟩
      simp only [run, opened]
  | ok bytes =>
      cases found : pointsOf settings paths.input bytes with
      | mk events points =>
          cases points with
          | error failure =>
              obtain ⟨concerns, quotes⟩ := of_pointsOf_eq_error (congrArg Prod.snd found)
              refine ⟨failure, events, concerns, quotes, ?_⟩
              simp only [run, opened, found]
          | ok points =>
              have decodes := exists_pointsOf_eq_ok_iff.mp ⟨points, congrArg Prod.snd found⟩
              obtain ⟨records, read, decoded⟩ := decodes
              exact absurd ⟨records, ⟨bytes, opened, read⟩, decoded⟩ blocked

/-- A good input lets the run carry out its plan from the directory as it is. -/
theorem run_of_loaded (loaded : ∃ records, Loaded settings paths.input directory records) :
    ∃ events points, ∃ outcome : Outcome Unit,
      outcome = performAll (plan settings paths points)
        { directory, printed := "", events, result := some (.ok ()) } ∧
      run settings paths directory =
        outcome.map fun _ => (Figure.all settings points).map (figurePath paths) := by
  obtain ⟨records, ⟨bytes, opened, read⟩, decoded⟩ := loaded
  obtain ⟨points, found⟩ := exists_pointsOf_eq_ok_iff.mpr ⟨records, read, decoded⟩
  refine ⟨(pointsOf settings paths.input bytes).1, points, _, rfl, ?_⟩
  have whole : pointsOf settings paths.input bytes =
      ((pointsOf settings paths.input bytes).1, .ok points) := by
    rw [← found]
  simp only [run, opened]
  rw [whole]

theorem concernsInput_of_run_loaded
    (loaded : ∃ records, Loaded settings paths.input directory records) {failure : Failure}
    (failed : (run settings paths directory).result = some (.error failure)) :
    failure.concernsInput = false := by
  obtain ⟨events, points, outcome, performed, ran⟩ := run_of_loaded loaded
  rw [ran, Outcome.result_map, Option.map_eq_some_iff] at failed
  obtain ⟨ending, ended, isError⟩ := failed
  rw [map_eq_error_iff.mp isError, performed] at ended
  exact concernsInput_of_performAll rfl ended

/-- The summary is printed first, so a run with a good input prints something. -/
theorem printed_run_of_loaded
    (loaded : ∃ records, Loaded settings paths.input directory records) :
    (run settings paths directory).printed ≠ "" := by
  obtain ⟨events, points, outcome, performed, ran⟩ := run_of_loaded loaded
  -- Later steps only add to what is printed, so the summary stays at its front.
  obtain ⟨others, summaryFirst⟩ :
      ∃ others, plan settings paths points = .print (Summary.text points) :: others := ⟨_, rfl⟩
  have nonempty : (Summary.text points).toList ≠ [] := by
    simp [Summary.text, Summary.heading, Summary.line]
  generalize Summary.text points = summary at summaryFirst nonempty
  have summaryPrinted : summary.toList <+: outcome.printed.toList := by
    rw [performed, summaryFirst, performAll]
    simp only [perform, String.empty_append]
    exact printed_prefix_performAll others
      { directory, printed := summary, events, result := some (.ok ()) }
  rw [ran, Outcome.printed_map]
  intro isEmpty
  rw [isEmpty] at summaryPrinted
  exact nonempty (List.prefix_nil.mp summaryPrinted)

end Run

/-- A run whose input cannot be opened, read or decoded as a whole fails with the path of the input in
its text, changes nothing and prints nothing; and whatever changes or is printed shows that every row
was read and every name decoded. -/
theorem run_leaves_no_trace (settings : Settings) (paths : ReportPaths) (directory : Directory) :
    (∀ failure, (run settings paths directory).result = some (.error failure) →
      failure.concernsInput = true →
        (run settings paths directory).directory = directory ∧
          (run settings paths directory).printed = "" ∧ failure.Quotes paths.input) ∧
    ((∃ failure, (run settings paths directory).result = some (.error failure) ∧
        failure.concernsInput = true) ↔
      ¬ ∃ records, Loaded settings paths.input directory records) ∧
    ((run settings paths directory).directory ≠ directory ∨
        (run settings paths directory).printed ≠ "" ↔
      ∃ records, Loaded settings paths.input directory records) := by
  by_cases loaded : ∃ records, Loaded settings paths.input directory records
  · have late {failure : Failure}
        (failed : (run settings paths directory).result = some (.error failure)) :
        ¬ failure.concernsInput = true := by
      rw [concernsInput_of_run_loaded loaded failed]
      decide
    refine ⟨?_, ?_, ?_⟩
    · intro failure failed concerns
      exact absurd concerns (late failed)
    · constructor
      · rintro ⟨failure, failed, concerns⟩
        exact absurd concerns (late failed)
      · intro blocked
        exact absurd loaded blocked
    · exact ⟨fun _ => loaded, fun _ => .inr (printed_run_of_loaded loaded)⟩
  · obtain ⟨failure, events, concerns, quotes, ran⟩ := run_of_not_loaded loaded
    rw [ran]
    refine ⟨?_, ?_, ?_⟩
    · intro other failed _
      rw [← Except.error.inj (Option.some.inj failed)]
      exact ⟨rfl, rfl, quotes⟩
    · exact ⟨fun _ => loaded, fun _ => ⟨failure, rfl, concerns⟩⟩
    · constructor
      · rintro (changed | printed)
        · exact (changed rfl).elim
        · exact (printed rfl).elim
      · intro found
        exact absurd found loaded

/-- A directory with a table whose second name has no workload that is known. -/
def brokenInput : Directory :=
  .ofFiles [("results.csv", .bytes (Text.toUtf8
    "name,ops\nBM_BalancedWorkload<LazyList>/2/100,5\nBM_Oops<LazyList>/2/100,7\n"))]

def exportingPaths : ReportPaths := ⟨"results.csv", "charts", some "charts/points.json"⟩

def oopsFailure : Failure :=
  .decoding "results.csv" ⟨"BM_Oops<LazyList>/2/100", .unknownWorkload "Oops"⟩

theorem run_leaves_no_trace_brokenInput :
    ((run Settings.list exportingPaths brokenInput).result = some (.error oopsFailure) ∧
      oopsFailure.concernsInput = true) ∧
    (run Settings.list exportingPaths brokenInput).directory = brokenInput ∧
      (run Settings.list exportingPaths brokenInput).printed = "" ∧
        oopsFailure.Quotes exportingPaths.input := by
  have failed :
      (run Settings.list exportingPaths brokenInput).result = some (.error oopsFailure) := by
    decide +kernel
  exact ⟨⟨failed, rfl⟩, (run_leaves_no_trace _ _ _).1 oopsFailure failed rfl⟩

end Report
end ThroughputCharts

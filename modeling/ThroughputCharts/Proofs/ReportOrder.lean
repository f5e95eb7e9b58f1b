import ThroughputCharts.Proofs.FileSteps
import ThroughputCharts.Proofs.UnendingAxes

/-!
# The order of a report

A report with a good input carries out one fixed sequence of file steps: those of the export, if there
is one, and then those of every figure.  A line is printed for each file right after it was written.
The report stays for ever at a figure whose ticks are never found, and only there.
-/

namespace ThroughputCharts
namespace Report

open Directory FileStep

def exportFileSteps (points : List Point) : Option String → List FileStep
  | none => []
  | some path =>
    ((Path.folderOf? path).toList.map (.createFolders .pointsExport)) ++
      [.write .pointsExport path (some (.bytes (Text.toUtf8 (Export.text points))))]

/-- The content of the file of a figure. -/
def figureContent (figure : Figure) : Option Content :=
  (Drawing.ofFigure figure).map .drawing

def figureFileSteps (paths : ReportPaths) (figure : Figure) : List FileStep :=
  [.createFolders .charts paths.output,
    .write .charts (figurePath paths figure) (figureContent figure)]

def chartFileSteps (settings : Settings) (paths : ReportPaths) (points : List Point) :
    List FileStep :=
  (Figure.all settings points).flatMap (figureFileSteps paths)

/-- The file steps of a whole report. -/
def fileSteps (settings : Settings) (paths : ReportPaths) (points : List Point) : List FileStep :=
  exportFileSteps points paths.json ++ chartFileSteps settings paths points

/-- What a report has printed when it has completed some of its file steps. -/
def transcript (settings : Settings) (paths : ReportPaths) (points : List Point)
    (completed : List FileStep) : String :=
  let exports := (exportFileSteps points paths.json).length
  Summary.text points ++ generatedLines (completed.take exports) ++
    (if exports ≤ completed.length then
      "\nGenerating charts...\n" ++ generatedLines (completed.drop exports)
    else
      "") ++
    (if completed.length = (fileSteps settings paths points).length then
      "\nReport complete!\n"
    else
      "")

/-- The file step that a step carries out. -/
def fileStep? : Step → Option FileStep
  | .print _ | .log _ => none
  | .createFolders purpose path => some (.createFolders purpose path)
  | .writeExport path text => some (.write .pointsExport path (some (.bytes (Text.toUtf8 text))))
  | .draw path figure => some (.write .charts path (figureContent figure))

/-- Steps carry out file steps and print the line of each one right after it, and besides that they
only log. -/
inductive Announces : List Step → List FileStep → Prop
  | nil : Announces [] []
  | log {event : Event} {steps : List Step} {fileSteps : List FileStep}
      (rest : Announces steps fileSteps) : Announces (.log event :: steps) fileSteps
  | silent {step : Step} {fileStep : FileStep} {steps : List Step} {fileSteps : List FileStep}
      (carries : fileStep? step = some fileStep) (noLine : fileStep.generatedLine = "")
      (rest : Announces steps fileSteps) : Announces (step :: steps) (fileStep :: fileSteps)
  | announced {step : Step} {fileStep : FileStep} {steps : List Step} {fileSteps : List FileStep}
      (carries : fileStep? step = some fileStep) (rest : Announces steps fileSteps) :
      Announces (step :: .print fileStep.generatedLine :: steps) (fileStep :: fileSteps)

namespace Announces

theorem append {front back : List Step} {first second : List FileStep}
    (announcesFirst : Announces front first) (announcesSecond : Announces back second) :
    Announces (front ++ back) (first ++ second) := by
  induction announcesFirst with
  | nil => exact announcesSecond
  | log _ induction => exact .log induction
  | silent carries noLine _ induction => exact .silent carries noLine induction
  | announced carries _ induction => exact .announced carries induction

theorem exportSteps (points : List Point) (json : Option String) :
    Announces (exportSteps points json) (exportFileSteps points json) := by
  cases json with
  | none => exact .nil
  | some path =>
      refine append ?_ (@announced _ (.write .pointsExport path _) _ _ rfl .nil)
      cases Path.folderOf? path with
      | none => exact .nil
      | some folder => exact .silent rfl rfl .nil

theorem figureSteps (paths : ReportPaths) (figure : Figure) :
    Announces (figureSteps paths figure) (figureFileSteps paths figure) := by
  refine @append _ _ [] _ ?_ (.silent rfl rfl ?_)
  · split
    · exact .log .nil
    · exact .nil
  · exact @announced _ (.write .charts (figurePath paths figure) _) _ _ rfl .nil

theorem flatMap_figureSteps (paths : ReportPaths) (figures : List Figure) :
    Announces (figures.flatMap (Report.figureSteps paths))
      (figures.flatMap (figureFileSteps paths)) := by
  induction figures with
  | nil => exact .nil
  | cons figure figures induction => exact (figureSteps paths figure).append induction

end Announces

section Performing

variable {steps front back : List Step} {fileSteps : List FileStep} {outcome : Outcome Unit}

theorem performAll_cons_of_ok {step : Step}
    (done : (perform step outcome).result = some (.ok ())) :
    performAll (step :: steps) outcome = performAll steps (perform step outcome) := by
  rw [performAll, done]

theorem performAll_cons_of_ne_ok {step : Step}
    (stopped : (perform step outcome).result ≠ some (.ok ())) :
    performAll (step :: steps) outcome = perform step outcome := by
  rw [performAll]
  split
  next done => exact absurd done stopped
  next => rfl

theorem performAll_append_of_ok (done : (performAll front outcome).result = some (.ok ())) :
    performAll (front ++ back) outcome = performAll back (performAll front outcome) := by
  induction front generalizing outcome with
  | nil => rfl
  | cons step front induction =>
      by_cases first : (perform step outcome).result = some (.ok ())
      · rw [performAll_cons_of_ok first] at done ⊢
        rw [List.cons_append, performAll_cons_of_ok first, induction done]
      · rw [performAll_cons_of_ne_ok first] at done
        contradiction

theorem performAll_append_of_ne_ok (going : outcome.result = some (.ok ()))
    (stopped : (performAll front outcome).result ≠ some (.ok ())) :
    performAll (front ++ back) outcome = performAll front outcome := by
  induction front generalizing outcome with
  | nil => contradiction
  | cons step front induction =>
      by_cases first : (perform step outcome).result = some (.ok ())
      · rw [performAll_cons_of_ok first] at stopped ⊢
        rw [List.cons_append, performAll_cons_of_ok first, induction first stopped]
      · rw [List.cons_append, performAll_cons_of_ne_ok first, performAll_cons_of_ne_ok first]

theorem performAll_print (text : String) (going : outcome.result = some (.ok ())) :
    performAll (.print text :: steps) outcome =
      performAll steps { outcome with printed := outcome.printed ++ text } :=
  performAll_cons_of_ok going

section FileStep

variable {step : Step} {fileStep : FileStep} {directory : Directory}

theorem perform_of_succeeds (carries : fileStep? step = some fileStep)
    (succeeds : fileStep.effect outcome.directory = some (directory, none)) :
    perform step outcome = { outcome with directory } := by
  cases step with
  | print | log => contradiction
  | createFolders purpose path =>
      obtain rfl := Option.some.inj carries
      have created : outcome.directory.createAll path = (directory, none) :=
        Option.some.inj succeeds
      simp only [perform, created]
  | writeExport path text =>
      obtain rfl := Option.some.inj carries
      obtain ⟨written, isWritten, wrote⟩ := write_of_succeeds succeeds
      obtain rfl := Option.some.inj isWritten
      simp only [perform, wrote]
  | draw path figure =>
      obtain rfl := Option.some.inj carries
      obtain ⟨written, isWritten, wrote⟩ := write_of_succeeds succeeds
      obtain ⟨drawing, isDrawing, rfl⟩ := Option.map_eq_some_iff.mp isWritten
      simp only [perform, isDrawing, wrote]

theorem perform_of_fails {fault : Directory.Fault} (carries : fileStep? step = some fileStep)
    (fails : fileStep.effect outcome.directory = some (directory, some fault)) :
    perform step outcome =
      { outcome with directory, result := some (.error (fileStep.failure fault)) } := by
  cases step with
  | print | log => contradiction
  | createFolders purpose path =>
      obtain rfl := Option.some.inj carries
      have created : outcome.directory.createAll path = (directory, some fault) :=
        Option.some.inj fails
      simp only [perform, created, FileStep.failure]
  | writeExport path text =>
      obtain rfl := Option.some.inj carries
      obtain ⟨written, isWritten, wrote, rfl⟩ := write_of_fails fails
      obtain rfl := Option.some.inj isWritten
      simp only [perform, wrote, FileStep.failure]
  | draw path figure =>
      obtain rfl := Option.some.inj carries
      obtain ⟨written, isWritten, wrote, rfl⟩ := write_of_fails fails
      obtain ⟨drawing, isDrawing, rfl⟩ := Option.map_eq_some_iff.mp isWritten
      simp only [perform, isDrawing, wrote, FileStep.failure]

theorem perform_of_unending (carries : fileStep? step = some fileStep)
    (never : fileStep.effect outcome.directory = none) :
    perform step outcome = { outcome with result := none } := by
  obtain ⟨purpose, path, rfl⟩ := effect_eq_none_iff.mp never
  cases step with
  | print | log | createFolders | writeExport => simp [fileStep?] at carries
  | draw path figure =>
      have undrawn : figureContent figure = none :=
        (FileStep.write.inj (Option.some.inj carries)).2.2
      simp only [perform, Option.map_eq_none_iff.mp undrawn]

end FileStep

/-- Between two outcomes file steps were carried out and the lines of the completed ones printed. -/
def CarryOut (fileSteps completed : List FileStep) (before after : Outcome Unit) : Prop :=
  CarriedOut fileSteps before.directory completed after.directory after.result ∧
    after.printed = before.printed ++ generatedLines completed

theorem CarryOut.of_fails {step : Step} {fileStep : FileStep} {directory : Directory}
    {fault : Directory.Fault} (carries : fileStep? step = some fileStep)
    (fails : fileStep.effect outcome.directory = some (directory, some fault)) :
    CarryOut (fileStep :: fileSteps) [] outcome (performAll (step :: steps) outcome) := by
  have performed := perform_of_fails carries fails
  have stopped : (perform step outcome).result ≠ some (.ok ()) := by simp [performed]
  rw [performAll_cons_of_ne_ok stopped, performed]
  exact ⟨.stopped fails, String.append_empty.symm⟩

theorem CarryOut.of_unending {step : Step} {fileStep : FileStep}
    (carries : fileStep? step = some fileStep)
    (never : fileStep.effect outcome.directory = none) :
    CarryOut (fileStep :: fileSteps) [] outcome (performAll (step :: steps) outcome) := by
  have performed := perform_of_unending carries never
  have stopped : (perform step outcome).result ≠ some (.ok ()) := by simp [performed]
  rw [performAll_cons_of_ne_ok stopped, performed]
  exact ⟨.unending never, String.append_empty.symm⟩

theorem Announces.carryOut (announces : Announces steps fileSteps)
    (going : outcome.result = some (.ok ())) :
    ∃ completed, CarryOut fileSteps completed outcome (performAll steps outcome) := by
  induction announces generalizing outcome with
  | nil =>
      refine ⟨[], ?_, String.append_empty.symm⟩
      rw [performAll, going]
      exact .done
  | @log event _ _ rest induction =>
      have done : (perform (.log event) outcome).result = some (.ok ()) := going
      rw [performAll_cons_of_ok done]
      exact induction done
  | @silent step fileStep _ _ carries noLine rest induction =>
      rcases effected : fileStep.effect outcome.directory with _ | ⟨directory, _ | fault⟩
      · exact ⟨[], .of_unending carries effected⟩
      · have performed := perform_of_succeeds carries effected
        rw [performAll_cons_of_ok (performed ▸ going), performed]
        obtain ⟨completed, carriedOut, printed⟩ := @induction { outcome with directory } going
        refine ⟨_, .step effected carriedOut, printed.trans ?_⟩
        rw [generatedLines, noLine, String.empty_append]
      · exact ⟨[], .of_fails carries effected⟩
  | @announced step fileStep _ _ carries rest induction =>
      rcases effected : fileStep.effect outcome.directory with _ | ⟨directory, _ | fault⟩
      · exact ⟨[], .of_unending carries effected⟩
      · have performed := perform_of_succeeds carries effected
        rw [performAll_cons_of_ok (performed ▸ going), performed]
        rw [performAll_print _ (by exact going)]
        obtain ⟨completed, carriedOut, printed⟩ := @induction
          { outcome with directory, printed := outcome.printed ++ fileStep.generatedLine } going
        refine ⟨_, .step effected carriedOut, printed.trans ?_⟩
        exact String.append_assoc
      · exact ⟨[], .of_fails carries effected⟩

end Performing

/-- A report carries out its file steps from the front. -/
structure RunsInOrder (settings : Settings) (paths : ReportPaths) (points : List Point)
    (before : Directory) (completed : List FileStep) (outcome : Outcome (List String)) : Prop where
  /-- The completed steps are the first ones. -/
  isPrefix : completed <+: fileSteps settings paths points
  /-- Each step finds the directory as the one before it left it. -/
  carriedOut : CarriedOut (fileSteps settings paths points) before completed outcome.directory
    (outcome.result.map (Except.map fun _ => ()))
  /-- All steps are completed just if the report succeeds. -/
  succeeds : (∃ written, outcome.result = some (.ok written)) ↔
    completed = fileSteps settings paths points
  /-- A report that is complete gives the path of every figure. -/
  returns : ∀ written, outcome.result = some (.ok written) →
    written = (Figure.all settings points).map (figurePath paths)
  /-- A report that fails has the failure of the step after the completed ones, and leaves what that
  step leaves.  When it is a step of the export, no chart was written. -/
  fails : ∀ failure, outcome.result = some (.error failure) →
    ∃ step later reached fault,
      fileSteps settings paths points = completed ++ step :: later ∧
      CarriedOut completed before completed reached (some (.ok ())) ∧
      step.effect reached = some (outcome.directory, some fault) ∧
      failure = step.failure fault ∧
      (step.purpose = .pointsExport → ∀ done ∈ completed, done.purpose = .pointsExport)
  /-- A report without a result is at the file of a figure whose ticks are never found, and leaves what
  the steps before it leave. -/
  unending : outcome.result = none →
    ∃ figure ∈ Figure.all settings points, figure.Unending ∧ ∃ later,
      fileSteps settings paths points =
        completed ++ .write .charts (figurePath paths figure) none :: later ∧
      CarriedOut completed before completed outcome.directory (some (.ok ()))
  /-- A report that is complete has found the ticks of every figure. -/
  finds : (∃ written, outcome.result = some (.ok written)) →
    ∀ figure ∈ Figure.all settings points, ¬figure.Unending
  /-- Where all thread counts are moderate and all throughput axes are finite, a report succeeds or
  fails. -/
  ends : (∀ figure ∈ Figure.all settings points, ∀ panel ∈ figure.panels,
      (∀ count ∈ Chart.measuredThreads panel, count.toNat < 2 ^ 40) ∧
        (Chart.throughputEnd panel).isFinite = true) →
    outcome.result ≠ none
  /-- Besides the fixed lines, a line is printed for each completed file in order. -/
  printed : outcome.printed = transcript settings paths points completed
  /-- Every place holds what was last written to it, or else what it held before. -/
  files : ∀ place, outcome.directory.files.lookup place =
    (lastWritten? place completed).or (before.files.lookup place)
  /-- Where no completed step writes, files are as they were. -/
  untouched : ∀ place, (∀ step ∈ completed, step.written? place = none) →
    outcome.directory.files.lookup place = before.files.lookup place
  /-- The path of every completed file leads to what was last written to its place. -/
  reads : ∀ purpose path content, .write purpose path content ∈ completed →
    ∃ last, lastWritten? (destination (Path.ofText path)) completed = some last ∧
      outcome.directory.read path = .ok last
  /-- A path that led to a file still does, and to the same content when nothing was written there. -/
  keeps : ∀ path content, before.read path = .ok content →
    outcome.directory.read path =
      .ok ((lastWritten? (destination (Path.ofText path)) completed).getD content)
  /-- Folders stay, and the new ones are on the way to a path whose folders a started step creates. -/
  folders : before.folders ⊆ outcome.directory.folders ∧
    ∀ place ∈ outcome.directory.folders, place ∈ before.folders ∨
      ∃ purpose path, .createFolders purpose path ∈
          (fileSteps settings paths points).take (completed.length + 1) ∧
        OnWayTo (Path.ofText path) place

section Run

variable {settings : Settings} {paths : ReportPaths} {points : List Point} {before : Directory}
  {completed : List FileStep}

theorem purpose_of_mem_exportFileSteps {step : FileStep}
    (isStep : step ∈ exportFileSteps points paths.json) : step.purpose = .pointsExport := by
  cases json : paths.json with
  | none => simp [exportFileSteps, json] at isStep
  | some path =>
      simp only [exportFileSteps, json, List.mem_append, List.mem_map, List.mem_singleton] at isStep
      rcases isStep with ⟨folder, _, rfl⟩ | rfl
      · rfl
      · rfl

theorem purpose_of_mem_chartFileSteps {step : FileStep}
    (isStep : step ∈ chartFileSteps settings paths points) : step.purpose = .charts := by
  obtain ⟨figure, _, isStep⟩ := List.mem_flatMap.mp isStep
  simp only [figureFileSteps, List.mem_cons, List.not_mem_nil, or_false] at isStep
  rcases isStep with rfl | rfl
  · rfl
  · rfl

/-- Before a step of the export there are only other steps of the export. -/
theorem purpose_of_mem_completed {step : FileStep} {later : List FileStep}
    (isSplit : fileSteps settings paths points = completed ++ step :: later)
    (isExport : step.purpose = .pointsExport) :
    ∀ done ∈ completed, done.purpose = .pointsExport := by
  rcases List.append_eq_append_iff.mp isSplit with ⟨rest, rfl, isRest⟩ | ⟨rest, isExports, _⟩
  · have isChart : step ∈ chartFileSteps settings paths points := by
      rw [isRest]
      simp
    rw [purpose_of_mem_chartFileSteps isChart] at isExport
    contradiction
  · intro done isDone
    apply purpose_of_mem_exportFileSteps
    rw [isExports]
    exact List.mem_append_left _ isDone

/-- Only the file of a figure whose ticks are never found has no content. -/
theorem exists_unending_of_mem {purpose : Purpose} {path : String}
    (isStep : .write purpose path none ∈ fileSteps settings paths points) :
    ∃ figure ∈ Figure.all settings points, figure.Unending ∧
      FileStep.write purpose path none = .write .charts (figurePath paths figure) none := by
  rcases List.mem_append.mp isStep with isExport | isChart
  · cases json : paths.json <;> simp [exportFileSteps, json] at isExport
  · obtain ⟨figure, isFigure, isStep⟩ := List.mem_flatMap.mp isChart
    simp only [figureFileSteps, List.mem_cons, reduceCtorEq, false_or, List.not_mem_nil,
      or_false] at isStep
    obtain ⟨rfl, rfl, undrawn⟩ := FileStep.write.inj isStep
    have unending := Drawing.ofFigure_eq_none_iff.mp (Option.map_eq_none_iff.mp undrawn.symm)
    exact ⟨figure, isFigure, unending, rfl⟩

theorem write_figure_mem_fileSteps {figure : Figure}
    (isFigure : figure ∈ Figure.all settings points) :
    .write .charts (figurePath paths figure) (figureContent figure) ∈
      fileSteps settings paths points := by
  refine List.mem_append_right _ (List.mem_flatMap.mpr ⟨figure, isFigure, ?_⟩)
  exact List.mem_cons_of_mem _ List.mem_cons_self

section Finding

variable {final : Directory} {result : Option (Except Failure Unit)}

/-- What keeps a report from ending is the file of a figure whose ticks are never found. -/
theorem exists_unending_of_carriedOut
    (carriedOut : CarriedOut (fileSteps settings paths points) before completed final none) :
    ∃ figure ∈ Figure.all settings points, figure.Unending ∧ ∃ later,
      fileSteps settings paths points =
        completed ++ .write .charts (figurePath paths figure) none :: later ∧
      CarriedOut completed before completed final (some (.ok ())) := by
  obtain ⟨purpose, path, later, isSplit, reached⟩ := carriedOut.of_unending
  have isStep : .write purpose path none ∈ fileSteps settings paths points := by
    rw [isSplit]
    simp
  obtain ⟨figure, isFigure, unending, isWrite⟩ := exists_unending_of_mem isStep
  exact ⟨figure, isFigure, unending, later, isWrite ▸ isSplit, reached⟩

/-- When all steps are completed, the ticks of every figure were found. -/
theorem not_unending_of_carriedOut (carriedOut : CarriedOut (fileSteps settings paths points) before
      (fileSteps settings paths points) final result) {figure : Figure}
    (isFigure : figure ∈ Figure.all settings points) : ¬figure.Unending := by
  intro unending
  refine carriedOut.content_ne_none_of_mem (write_figure_mem_fileSteps isFigure) ?_
  exact Option.map_eq_none_iff.mpr (Drawing.ofFigure_eq_none_iff.mpr unending)

end Finding

/-- While the export is not complete, there is the summary and the lines of its files. -/
theorem transcript_of_unfinishedExport (isPrefix : completed <+: exportFileSteps points paths.json)
    (unfinished : completed ≠ exportFileSteps points paths.json) :
    transcript settings paths points completed =
      Summary.text points ++ generatedLines completed := by
  have shorter : completed.length < (exportFileSteps points paths.json).length :=
    lt_of_le_of_ne isPrefix.length_le (mt isPrefix.eq_of_length unfinished)
  have notWhole : completed.length ≠ (fileSteps settings paths points).length := by
    rw [fileSteps, List.length_append]
    omega
  simp only [transcript, List.take_of_length_le shorter.le, if_neg (Nat.not_le.mpr shorter),
    if_neg notWhole, String.append_empty]

/-- After the export there is the heading of the charts, and the last line when all are complete. -/
theorem transcript_exportFileSteps_append (charts : List FileStep) :
    transcript settings paths points (exportFileSteps points paths.json ++ charts) =
      Summary.text points ++ generatedLines (exportFileSteps points paths.json) ++
        ("\nGenerating charts...\n" ++ generatedLines charts) ++
        (if charts.length = (chartFileSteps settings paths points).length then
          "\nReport complete!\n"
        else
          "") := by
  simp only [transcript, fileSteps, List.take_left, List.drop_left, List.length_append,
    Nat.le_add_right, if_true, Nat.add_left_cancel_iff]

/-- The steps that a plan ends with, after those of the export. -/
def chartSteps (settings : Settings) (paths : ReportPaths) (points : List Point) : List Step :=
  .print "\nGenerating charts...\n" ::
    ((Figure.all settings points).flatMap (figureSteps paths) ++ [.print "\nReport complete!\n"])

theorem plan_eq_cons (settings : Settings) (paths : ReportPaths) (points : List Point) :
    plan settings paths points = .print (Summary.text points) ::
      (exportSteps points paths.json ++ chartSteps settings paths points) := by
  simp only [plan, chartSteps, List.append_assoc, List.cons_append, List.nil_append]

theorem exists_carriedOut_chartSteps {start : Outcome Unit} (going : start.result = some (.ok ())) :
    ∃ charts,
      CarriedOut (chartFileSteps settings paths points) start.directory charts
        (performAll (chartSteps settings paths points) start).directory
        (performAll (chartSteps settings paths points) start).result ∧
      (performAll (chartSteps settings paths points) start).printed =
        start.printed ++ ("\nGenerating charts...\n" ++ generatedLines charts) ++
          (if charts.length = (chartFileSteps settings paths points).length then
            "\nReport complete!\n"
          else
            "") := by
  rw [chartSteps, performAll_print _ going]
  generalize isHeaded : ({ start with printed := start.printed ++ "\nGenerating charts...\n" } :
    Outcome Unit) = headed
  have headedGoing : headed.result = some (.ok ()) := isHeaded ▸ going
  have sameDirectory : headed.directory = start.directory := isHeaded ▸ rfl
  have heading : headed.printed = start.printed ++ "\nGenerating charts...\n" := isHeaded ▸ rfl
  obtain ⟨charts, carriedOut, printed⟩ :=
    (Announces.flatMap_figureSteps paths (Figure.all settings points)).carryOut headedGoing
  by_cases ended : (performAll ((Figure.all settings points).flatMap (figureSteps paths))
      headed).result = some (.ok ())
  · rw [performAll_append_of_ok ended, performAll_print _ ended]
    have whole : charts = chartFileSteps settings paths points := carriedOut.eq_ok_iff.mp ended
    refine ⟨charts, sameDirectory ▸ carriedOut, ?_⟩
    simp only [if_pos (congrArg List.length whole), performAll, printed, heading,
      String.append_assoc]
  · rw [performAll_append_of_ne_ok headedGoing ended]
    have notWhole : charts.length ≠ (chartFileSteps settings paths points).length :=
      fun whole => ended (carriedOut.eq_ok_iff.mpr (carriedOut.isPrefix.eq_of_length whole))
    refine ⟨charts, sameDirectory ▸ carriedOut, ?_⟩
    rw [printed, heading, if_neg notWhole, String.append_empty, String.append_assoc]

/-- The plan of a report carries out its file steps and prints the transcript of the completed
ones. -/
theorem exists_carriedOut_plan {start : Outcome Unit} (going : start.result = some (.ok ()))
    (unprinted : start.printed = "") :
    ∃ completed,
      CarriedOut (fileSteps settings paths points) start.directory completed
        (performAll (plan settings paths points) start).directory
        (performAll (plan settings paths points) start).result ∧
      (performAll (plan settings paths points) start).printed =
        transcript settings paths points completed := by
  rw [plan_eq_cons, performAll_print _ going]
  generalize isSummed : ({ start with printed := start.printed ++ Summary.text points } :
    Outcome Unit) = summed
  have summedGoing : summed.result = some (.ok ()) := isSummed ▸ going
  have sameDirectory : summed.directory = start.directory := isSummed ▸ rfl
  have summary : summed.printed = Summary.text points := by
    rw [← isSummed, unprinted, String.empty_append]
  obtain ⟨exports, carriedExports, printedExports⟩ :=
    (Announces.exportSteps points paths.json).carryOut summedGoing
  by_cases ended : (performAll (exportSteps points paths.json) summed).result = some (.ok ())
  · rw [performAll_append_of_ok ended]
    have whole : exports = exportFileSteps points paths.json := carriedExports.eq_ok_iff.mp ended
    obtain ⟨charts, carriedCharts, printedCharts⟩ := exists_carriedOut_chartSteps ended
    rw [ended] at carriedExports
    refine ⟨exports ++ charts, sameDirectory ▸ carriedExports.append carriedCharts, ?_⟩
    rw [printedCharts, printedExports, summary, whole, transcript_exportFileSteps_append]
  · rw [performAll_append_of_ne_ok summedGoing ended]
    refine ⟨exports, sameDirectory ▸ carriedExports.append_of_ne_ok ended _, ?_⟩
    rw [transcript_of_unfinishedExport carriedExports.isPrefix
      (mt carriedExports.eq_ok_iff.mpr ended), printedExports, summary]

theorem run_eq_performAll_plan {bytes : List UInt8}
    (opened : inputBytes before paths.input = .ok bytes)
    (decoded : (pointsOf settings paths.input bytes).2 = .ok points) :
    run settings paths before =
      (performAll (plan settings paths points)
        { directory := before, printed := "", events := (pointsOf settings paths.input bytes).1,
          result := some (.ok ()) }).map
        fun _ => (Figure.all settings points).map (figurePath paths) := by
  have whole : pointsOf settings paths.input bytes =
      ((pointsOf settings paths.input bytes).1, .ok points) := by
    rw [← decoded]
  simp only [run, opened]
  rw [whole]

end Run

def balancedTable : List UInt8 :=
  Text.toUtf8 "name,ops\nBM_BalancedWorkload<LazyList>/2/100,5\n"

/-- A directory in which a folder stands where the second chart goes. -/
def blockedCharts : Directory :=
  .ofFiles [("results.csv", .bytes balancedTable), ("charts/list_size_1000.svg/kept", .bytes [])]

/-- Paths that send the export to where the first chart goes. -/
def coincidingPaths : ReportPaths := ⟨"results.csv", "charts", some "charts/list_size_100.svg"⟩

def balancedPoint : Point := ⟨⟨"LazyList", some .balanced, 2, .elements 100⟩, 5, 1⟩

end Report
end ThroughputCharts

import ThroughputCharts.Proofs.FilePlaces
import ThroughputCharts.Report

/-!
# File steps in order

A report makes its artifacts one after the other: the folders of each one first, then its file.  The
steps stop at the first that fails, or at the first file whose content is never worked out, and every
place ends up with what was last written to it.
-/

namespace ThroughputCharts

open Directory

/-- A step of a report that changes the directory; the content of a file is missing if it is never
worked out. -/
inductive FileStep
  | createFolders (purpose : Purpose) (path : String)
  | write (purpose : Purpose) (path : String) (content : Option Content)

namespace FileStep

def purpose : FileStep → Purpose
  | createFolders purpose _ | write purpose _ _ => purpose

/-- The directory after a step, and the fault that it met; nothing if the step never ends. -/
def effect (directory : Directory) : FileStep → Option (Directory × Option Directory.Fault)
  | createFolders _ path => some (directory.createAll path)
  | write _ path content =>
    content.map fun content =>
      match directory.write path content with
      | .ok after => (after, none)
      | .error fault => (directory, some fault)

/-- The failure of a step that meets a fault. -/
def failure : FileStep → Directory.Fault → Failure
  | createFolders purpose _, fault => .creatingFolder purpose fault
  | write .pointsExport path _, fault => .writing path fault
  | write .charts _ _, fault => .drawing fault

/-- The content that a step writes to a place. -/
def written? (place : Place) : FileStep → Option Content
  | createFolders .. => none
  | write _ path content => if place = destination (Path.ofText path) then content else none

/-- The content that steps write last to a place. -/
def lastWritten? (place : Place) : List FileStep → Option Content
  | [] => none
  | step :: steps => (lastWritten? place steps).or (step.written? place)

/-- The line that reports the file written by a step. -/
def generatedLine : FileStep → String
  | createFolders .. => ""
  | write _ path _ => "Generated: " ++ path ++ "\n"

def generatedLines : List FileStep → String
  | [] => ""
  | step :: steps => step.generatedLine ++ generatedLines steps

/-- File steps are carried out from the front: the completed ones, and after them at most the one
that ends it all because it fails or never ends itself. -/
inductive CarriedOut :
    List FileStep → Directory → List FileStep → Directory → Option (Except Failure Unit) → Prop
  | done {directory : Directory} : CarriedOut [] directory [] directory (some (.ok ()))
  | step {step : FileStep} {steps completed : List FileStep} {before after final : Directory}
      {result : Option (Except Failure Unit)} (succeeds : step.effect before = some (after, none))
      (rest : CarriedOut steps after completed final result) :
      CarriedOut (step :: steps) before (step :: completed) final result
  | stopped {step : FileStep} {steps : List FileStep} {before after : Directory}
      {fault : Directory.Fault} (fails : step.effect before = some (after, some fault)) :
      CarriedOut (step :: steps) before [] after (some (.error (step.failure fault)))
  | unending {step : FileStep} {steps : List FileStep} {before : Directory}
      (never : step.effect before = none) : CarriedOut (step :: steps) before [] before none

section Steps

variable {step : FileStep} {before after : Directory} {fault? : Option Directory.Fault}

section Write

variable {purpose : Purpose} {path : String} {content : Option Content}

theorem write_of_succeeds
    (succeeds : (write purpose path content).effect before = some (after, none)) :
    ∃ written, content = some written ∧ before.write path written = .ok after := by
  obtain ⟨written, isWritten, wrote⟩ := Option.map_eq_some_iff.mp succeeds
  refine ⟨written, isWritten, ?_⟩
  split at wrote
  next done => rw [done, (Prod.mk.inj wrote).1]
  next => exact nomatch (Prod.mk.inj wrote).2

theorem write_of_fails {fault : Directory.Fault}
    (fails : (write purpose path content).effect before = some (after, some fault)) :
    ∃ written, content = some written ∧ before.write path written = .error fault ∧
      after = before := by
  obtain ⟨written, isWritten, wrote⟩ := Option.map_eq_some_iff.mp fails
  refine ⟨written, isWritten, ?_⟩
  split at wrote
  next => exact nomatch (Prod.mk.inj wrote).2
  next failed =>
    obtain ⟨rfl, isFault⟩ := Prod.mk.inj wrote
    exact ⟨by rw [failed, Option.some.inj isFault], rfl⟩

/-- Only the content of a file may never be worked out. -/
theorem effect_eq_none_iff :
    step.effect before = none ↔ ∃ purpose path, step = write purpose path none := by
  cases step with
  | createFolders => simp [effect]
  | write purpose path content => simp [effect]

end Write

/-- A step creates folders, writes a file, or fails to write one and leaves the directory as it is. -/
theorem effect_cases (effected : step.effect before = some (after, fault?)) :
    (∃ purpose path, step = createFolders purpose path ∧ Grows (Path.ofText path) before after) ∨
    (∃ purpose path content, step = write purpose path (some content) ∧ fault? = none ∧
      before.write path content = .ok after) ∨
    (fault? ≠ none ∧ after = before) := by
  cases step with
  | createFolders purpose path =>
      have grows := grows_createAll before path
      rw [Option.some.inj (show some (before.createAll path) = some (after, fault?) from effected)]
        at grows
      exact .inl ⟨purpose, path, rfl, grows⟩
  | write purpose path content =>
      cases fault? with
      | none =>
          obtain ⟨written, rfl, wrote⟩ := write_of_succeeds effected
          exact .inr (.inl ⟨purpose, path, written, rfl, rfl, wrote⟩)
      | some fault =>
          obtain ⟨_, _, _, same⟩ := write_of_fails effected
          exact .inr (.inr ⟨nofun, same⟩)

theorem lookup_of_succeeds (succeeds : step.effect before = some (after, none)) (place : Place) :
    after.files.lookup place = (step.written? place).or (before.files.lookup place) := by
  rcases effect_cases succeeds with ⟨_, _, rfl, grows⟩ | ⟨_, _, _, rfl, _, wrote⟩ |
    ⟨fails, _⟩
  · rw [grows.files]
    rfl
  · obtain ⟨-, rfl⟩ := write_eq_ok_iff.mp wrote
    rw [lookup_put, written?]
    split <;> rfl
  · contradiction

theorem files_of_fails {fault : Directory.Fault}
    (fails : step.effect before = some (after, some fault)) :
    after.files = before.files := by
  rcases effect_cases fails with ⟨_, _, _, grows⟩ | ⟨_, _, _, _, succeeds, _⟩ |
    ⟨_, rfl⟩
  · exact grows.files
  · contradiction
  · rfl

/-- A step adds folders on the way to the path that it creates folders for, and no others. -/
theorem folders_of_effect (effected : step.effect before = some (after, fault?)) :
    before.folders ⊆ after.folders ∧ ∀ place ∈ after.folders, place ∈ before.folders ∨
      ∃ purpose path, step = createFolders purpose path ∧ OnWayTo (Path.ofText path) place := by
  rcases effect_cases effected with ⟨purpose, path, rfl, grows⟩ | ⟨_, _, _, rfl, _, wrote⟩ |
    ⟨_, rfl⟩
  · refine ⟨grows.keeps, fun place member => (grows.fresh place member).imp_right fun fresh => ?_⟩
    exact ⟨purpose, path, rfl, fresh.1⟩
  · obtain ⟨-, rfl⟩ := write_eq_ok_iff.mp wrote
    exact ⟨List.Subset.refl _, fun _ => .inl⟩
  · exact ⟨List.Subset.refl _, fun _ => .inl⟩

/-- A file that can be read before a step can be read after it. -/
theorem read_of_effect {text : String} {content : Content}
    (effected : step.effect before = some (after, fault?))
    (isContent : before.read text = .ok content) :
    ∃ content, after.read text = .ok content := by
  rcases effect_cases effected with ⟨_, _, _, grows⟩ | ⟨_, _, _, _, _, wrote⟩ |
    ⟨_, rfl⟩
  · exact ⟨content, read_of_grows grows isContent⟩
  · exact ⟨_, read_of_write wrote isContent⟩
  · exact ⟨content, isContent⟩

end Steps

theorem lastWritten?_eq_none_iff {place : Place} {steps : List FileStep} :
    lastWritten? place steps = none ↔ ∀ step ∈ steps, step.written? place = none := by
  induction steps with
  | nil => simp [lastWritten?]
  | cons step steps induction => simp [lastWritten?, Option.or_eq_none_iff, induction, and_comm]

namespace CarriedOut

variable {steps completed : List FileStep} {before final : Directory}
  {result : Option (Except Failure Unit)}

theorem isPrefix (carriedOut : CarriedOut steps before completed final result) :
    completed <+: steps := by
  induction carriedOut with
  | done => exact List.prefix_rfl
  | step _ _ induction => exact List.cons_prefix_cons.mpr ⟨rfl, induction⟩
  | stopped | unending => exact List.nil_prefix

theorem eq_ok_iff (carriedOut : CarriedOut steps before completed final result) :
    result = some (.ok ()) ↔ completed = steps := by
  induction carriedOut with
  | done => simp
  | step _ _ induction => simp [induction]
  | stopped | unending => simp

theorem append {others more : List FileStep} {last : Directory}
    (first : CarriedOut steps before completed final (some (.ok ())))
    (second : CarriedOut others final more last result) :
    CarriedOut (steps ++ others) before (completed ++ more) last result := by
  generalize isOk : some (Except.ok ()) = ending at first
  induction first with
  | done => exact second
  | step succeeds _ induction => exact .step succeeds (induction second isOk)
  | stopped => exact nomatch Option.some.inj isOk
  | unending => contradiction

theorem append_of_ne_ok (unfinished : result ≠ some (.ok ()))
    (carriedOut : CarriedOut steps before completed final result) (others : List FileStep) :
    CarriedOut (steps ++ others) before completed final result := by
  induction carriedOut with
  | done => exact absurd rfl unfinished
  | step succeeds _ induction => exact .step succeeds (induction unfinished)
  | stopped fails => exact .stopped fails
  | unending never => exact .unending never

/-- What makes the steps fail is the fault of the step after the completed ones. -/
theorem of_failed {reason : Failure}
    (failed : CarriedOut steps before completed final (some (.error reason))) :
    ∃ step later reached fault, steps = completed ++ step :: later ∧
      CarriedOut completed before completed reached (some (.ok ())) ∧
        step.effect reached = some (final, some fault) ∧ reason = step.failure fault := by
  generalize isReason : some (Except.error reason) = ending at failed
  induction failed with
  | done => exact nomatch Option.some.inj isReason
  | unending => contradiction
  | step succeeds _ induction =>
      obtain ⟨step, later, reached, fault, rfl, carriedOut, fails, rfl⟩ := induction isReason
      exact ⟨step, later, reached, fault, rfl, .step succeeds carriedOut, fails, rfl⟩
  | stopped fails =>
      exact ⟨_, _, _, _, rfl, .done, fails, Except.error.inj (Option.some.inj isReason)⟩

/-- What keeps the steps from ending is a file after the completed ones whose content is never worked
out. -/
theorem of_unending (unending : CarriedOut steps before completed final none) :
    ∃ purpose path later, steps = completed ++ write purpose path none :: later ∧
      CarriedOut completed before completed final (some (.ok ())) := by
  generalize isNone : (none : Option (Except Failure Unit)) = ending at unending
  induction unending with
  | done | stopped => contradiction
  | step succeeds _ induction =>
      obtain ⟨purpose, path, later, rfl, carriedOut⟩ := induction isNone
      exact ⟨purpose, path, later, rfl, .step succeeds carriedOut⟩
  | unending never =>
      obtain ⟨purpose, path, rfl⟩ := effect_eq_none_iff.mp never
      exact ⟨purpose, path, _, rfl, .done⟩

/-- Every place holds what was last written to it, or else what it held before. -/
theorem lookup_eq (carriedOut : CarriedOut steps before completed final result) (place : Place) :
    final.files.lookup place = (lastWritten? place completed).or (before.files.lookup place) := by
  induction carriedOut with
  | done => rfl
  | step succeeds _ induction =>
      rw [induction, lookup_of_succeeds succeeds, lastWritten?, Option.or_assoc]
  | stopped fails =>
      rw [files_of_fails fails]
      rfl
  | unending => rfl

/-- Folders stay, and new ones are on the way to a path whose folders some step that was started
creates. -/
theorem folders (carriedOut : CarriedOut steps before completed final result) :
    before.folders ⊆ final.folders ∧ ∀ place ∈ final.folders, place ∈ before.folders ∨
      ∃ purpose path, createFolders purpose path ∈ steps.take (completed.length + 1) ∧
        OnWayTo (Path.ofText path) place := by
  induction carriedOut with
  | done => exact ⟨List.Subset.refl _, fun _ => .inl⟩
  | step succeeds _ induction =>
      obtain ⟨keeps, fresh⟩ := folders_of_effect succeeds
      refine ⟨List.Subset.trans keeps induction.1, fun place member => ?_⟩
      rcases induction.2 place member with kept | ⟨purpose, path, later, onWay⟩
      · refine (fresh place kept).imp_right ?_
        rintro ⟨purpose, path, rfl, onWay⟩
        exact ⟨purpose, path, List.mem_cons_self, onWay⟩
      · exact .inr ⟨purpose, path, List.mem_cons_of_mem _ later, onWay⟩
  | stopped fails =>
      obtain ⟨keeps, fresh⟩ := folders_of_effect fails
      refine ⟨keeps, fun place member => (fresh place member).imp_right ?_⟩
      rintro ⟨purpose, path, rfl, onWay⟩
      exact ⟨purpose, path, List.mem_cons_self, onWay⟩
  | unending => exact ⟨List.Subset.refl _, fun _ => .inl⟩

theorem exists_read (carriedOut : CarriedOut steps before completed final result) {text : String}
    {content : Content} (isContent : before.read text = .ok content) :
    ∃ content, final.read text = .ok content := by
  induction carriedOut generalizing content with
  | done => exact ⟨content, isContent⟩
  | step succeeds _ induction =>
      obtain ⟨after, isAfter⟩ := read_of_effect succeeds isContent
      exact induction isAfter
  | stopped fails => exact read_of_effect fails isContent
  | unending => exact ⟨content, isContent⟩

/-- A file that could be read holds what was last written to its place, or else what it held. -/
theorem read_eq (carriedOut : CarriedOut steps before completed final result) {text : String}
    {content : Content} (isContent : before.read text = .ok content) :
    final.read text =
      .ok ((lastWritten? (destination (Path.ofText text)) completed).getD content) := by
  obtain ⟨last, isLast⟩ := carriedOut.exists_read isContent
  have stands := (read_eq_ok_iff.mp isLast).2
  rw [carriedOut.lookup_eq, (read_eq_ok_iff.mp isContent).2] at stands
  rw [isLast]
  cases written : lastWritten? (destination (Path.ofText text)) completed <;>
    simp_all

/-- The content of every completed file was worked out. -/
theorem content_ne_none_of_mem (carriedOut : CarriedOut steps before completed final result)
    {purpose : Purpose} {path : String} {content : Option Content}
    (wrote : write purpose path content ∈ completed) : content ≠ none := by
  induction carriedOut with
  | done | stopped | unending => contradiction
  | step succeeds _ induction =>
      rcases List.mem_cons.mp wrote with rfl | later
      · obtain ⟨written, rfl, _⟩ := write_of_succeeds succeeds
        exact Option.some_ne_none written
      · exact induction later

/-- A path that was written can be read, and holds what was last written to its place. -/
theorem read_of_mem (carriedOut : CarriedOut steps before completed final result)
    {purpose : Purpose} {path : String} {content : Option Content}
    (wrote : write purpose path content ∈ completed) :
    ∃ last, lastWritten? (destination (Path.ofText path)) completed = some last ∧
      final.read path = .ok last := by
  induction carriedOut with
  | done | stopped | unending => contradiction
  | step succeeds rest induction =>
      rcases List.mem_cons.mp wrote with rfl | later
      · obtain ⟨written, rfl, done⟩ := write_of_succeeds succeeds
        refine ⟨_, ?_, rest.read_eq (read_written done)⟩
        rw [lastWritten?, written?, if_pos rfl, Option.or_some]
      · obtain ⟨last, isLast, reads⟩ := induction later
        exact ⟨last, by rw [lastWritten?, isLast, Option.some_or], reads⟩

end CarriedOut

end FileStep

end ThroughputCharts

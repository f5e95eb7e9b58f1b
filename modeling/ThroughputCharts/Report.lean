import ThroughputCharts.Directory.Basic
import ThroughputCharts.Export
import ThroughputCharts.Summary
import ThroughputCharts.Table

/-!
# Reports

A report reads a results table, prints its summary, writes the export if asked to, and then draws every
figure.  Nothing is written or printed before the whole table is read and every case name decoded.
What follows is a fixed plan of steps, carried out in order up to the first that fails.  A figure is
worked out before its file is written, and the run stays there if that never ends.
-/

namespace ThroughputCharts

structure ReportPaths where
  input : String
  output : String
  json : Option String
  deriving DecidableEq

inductive Purpose
  | pointsExport
  | charts
  deriving DecidableEq

inductive Failure
  | opening (path : String) (fault : Directory.Fault)
  | reading (path : String) (fault : Directory.Fault)
  | table (error : Table.Error)
  | decoding (input : String) (error : NameError)
  | creatingFolder (purpose : Purpose) (fault : Directory.Fault)
  | writing (path : String) (fault : Directory.Fault)
  | drawing (fault : Directory.Fault)
  | creating (path : String) (fault : Directory.Fault)
  deriving DecidableEq

namespace Failure

def headline : Failure → String
  | opening path _ => "Failed to open benchmark results " ++ path
  | reading path _ => "Failed to read header of " ++ path
  | table error => error.headline
  | decoding input _ => "Failed to decode " ++ input
  | creatingFolder .pointsExport _ => "Failed to create JSON output directory"
  | creatingFolder .charts _ => "Failed to create output directory"
  | writing path _ => "Failed to write " ++ path
  | drawing fault => "backend error: Drawing backend error: " ++ fault.message
  | creating path _ => "Failed to create " ++ path

/-- What made it fail, where the headline does not say it. -/
def cause? : Failure → Option String
  | opening _ fault | reading _ fault | creatingFolder _ fault | writing _ fault
  | creating _ fault => some fault.message
  | table error => error.cause?
  | decoding _ error => some error.message
  | drawing _ => none

/-- The failure with its cause on one line. -/
def message (failure : Failure) : String :=
  match failure.cause? with
  | some cause => failure.headline ++ ": " ++ cause
  | none => failure.headline

end Failure

/-- One step of a report after its table is read. -/
inductive Step
  | print (text : String)
  | log (event : Event)
  | createFolders (purpose : Purpose) (path : String)
  | writeExport (path : String) (text : String)
  | draw (path : String) (figure : Figure)

/-- What a run has done: the tree it leaves, what it printed and logged, and how it ended.  A run that
never ends has no result. -/
structure Outcome (α : Type) where
  directory : Directory
  printed : String
  events : List Event
  result : Option (Except Failure α)

/-- The outcome with what it returns changed. -/
def Outcome.map {α β : Type} (change : α → β) (outcome : Outcome α) : Outcome β :=
  { outcome with result := outcome.result.map (Except.map change) }

section Changed

variable {α β : Type} (change : α → β) (outcome : Outcome α)

@[simp]
theorem Outcome.directory_map : (outcome.map change).directory = outcome.directory := rfl

@[simp]
theorem Outcome.printed_map : (outcome.map change).printed = outcome.printed := rfl

@[simp]
theorem Outcome.result_map :
    (outcome.map change).result = outcome.result.map (Except.map change) := rfl

end Changed

namespace Report

def generatedLine (path : String) : Step :=
  .print ("Generated: " ++ path ++ "\n")

def exportSteps (points : List Point) : Option String → List Step
  | none => []
  | some path =>
    ((Path.folderOf? path).toList.map (.createFolders .pointsExport)) ++
      [.writeExport path (Export.text points), generatedLine path]

def figurePath (paths : ReportPaths) (figure : Figure) : String :=
  Path.join paths.output figure.fileName

def figureSteps (paths : ReportPaths) (figure : Figure) : List Step :=
  let path := figurePath paths figure
  (if 0 < figure.emptyPanelCount then
    [.log (.panelsEmpty figure.fileName figure.emptyPanelCount)]
  else
    []) ++
    [.createFolders .charts paths.output, .draw path figure, generatedLine path]

def plan (settings : Settings) (paths : ReportPaths) (points : List Point) : List Step :=
  [.print (Summary.text points)] ++ exportSteps points paths.json ++
    [.print "\nGenerating charts...\n"] ++
    (Figure.all settings points).flatMap (figureSteps paths) ++
    [.print "\nReport complete!\n"]

/-- The events of reading a table and the points in it. -/
def pointsOf (settings : Settings) (input : String) (bytes : List UInt8) :
    List Event × Except Failure (List Point) :=
  match Table.read settings.family input bytes with
  | .error error => ([], .error (.table error))
  | .ok records =>
    let (events, points) := Aggregation.ofRecords settings records
    ([.tableRead input records.length settings.family.throughputColumn,
        .resultsLoaded settings.family records.length input] ++ events,
      points.mapError (.decoding input))

/-- The failure to get the bytes of the input file; a directory is found out only when it is read. -/
def inputFailure (input : String) : Directory.Fault → Failure
  | .isDirectory => .reading input .isDirectory
  | fault => .opening input fault

def inputBytes (directory : Directory) (input : String) : Except Failure (List UInt8) :=
  match directory.read input with
  | .ok (.bytes bytes) => .ok bytes
  | .ok (.drawing _) => .ok []
  | .error fault => .error (inputFailure input fault)

def perform (step : Step) (outcome : Outcome Unit) : Outcome Unit :=
  match step with
  | .print text => { outcome with printed := outcome.printed ++ text }
  | .log event => { outcome with events := outcome.events ++ [event] }
  | .createFolders purpose path =>
    match outcome.directory.createAll path with
    | (directory, none) => { outcome with directory }
    | (directory, some fault) =>
      { outcome with directory, result := some (.error (.creatingFolder purpose fault)) }
  | .writeExport path text =>
    match outcome.directory.write path (.bytes (Text.toUtf8 text)) with
    | .ok directory => { outcome with directory }
    | .error fault => { outcome with result := some (.error (.writing path fault)) }
  | .draw path figure =>
    match Drawing.ofFigure figure with
    | none => { outcome with result := none }
    | some drawing =>
      match outcome.directory.write path (.drawing drawing) with
      | .ok directory => { outcome with directory }
      | .error fault => { outcome with result := some (.error (.drawing fault)) }

/-- Carries out steps in order up to the first that fails or never ends. -/
def performAll : List Step → Outcome Unit → Outcome Unit
  | [], outcome => outcome
  | step :: rest, outcome =>
    let next := perform step outcome
    match next.result with
    | some (.ok _) => performAll rest next
    | _ => next

/-- Runs a report and gives the paths of its figures. -/
def run (settings : Settings) (paths : ReportPaths) (directory : Directory) :
    Outcome (List String) :=
  match inputBytes directory paths.input with
  | .error failure => { directory, printed := "", events := [], result := some (.error failure) }
  | .ok bytes =>
    match pointsOf settings paths.input bytes with
    | (events, .error failure) =>
      { directory, printed := "", events, result := some (.error failure) }
    | (events, .ok points) =>
      let outcome := performAll (plan settings paths points)
        { directory, printed := "", events, result := some (.ok ()) }
      outcome.map fun _ => (Figure.all settings points).map (figurePath paths)

end Report

end ThroughputCharts

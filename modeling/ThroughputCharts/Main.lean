import ThroughputCharts.CommandLine
import ThroughputCharts.Drawing.Svg

/-!
# The program

The outer layer carries out commands on real files.  It decides nothing: arguments, plans of steps and
texts of failures come from the library.
-/

open ThroughputCharts

namespace ThroughputCharts.Program

/-- The fault behind an error of the operating system. -/
def faultOf : IO.Error → Directory.Fault
  | .alreadyExists .. => .alreadyExists
  | .inappropriateType .. => .isDirectory
  | .noSuchThing .. => .notDirectory
  | .invalidArgument .. => .nameTooLong
  | _ => .notFound

/-- Runs an action and turns its error into a failure. -/
def attempt (action : IO α) (failure : Directory.Fault → Failure) : IO (Except Failure α) := do
  match ← action.toBaseIO with
  | .ok value => return .ok value
  | .error error => return .error (failure (faultOf error))

def printEvent (verbose : Bool) (event : Event) : IO Unit := do
  if verbose || event.severity != .debug then
    let fields := event.fields.map fun (name, value) => " " ++ name ++ "=" ++ value
    IO.eprintln (event.severity.label ++ " " ++ event.message ++ String.join fields)

/-- Carries out a step.  One that never ends has no result; to find that out takes too long for it to be
seen. -/
def performStep (verbose : Bool) : Step → IO (Option (Except Failure Unit))
  | .print text => do
    IO.print text
    return some (.ok ())
  | .log event => do
    printEvent verbose event
    return some (.ok ())
  | .createFolders purpose path =>
    some <$> attempt (if path = "" then pure () else IO.FS.createDirAll path)
      (.creatingFolder purpose)
  | .writeExport path text => some <$> attempt (IO.FS.writeFile path text) (.writing path)
  | .draw path figure =>
    match Drawing.ofFigure figure with
    | none => return none
    | some drawing => some <$> attempt (IO.FS.writeFile path (Svg.image drawing)) .drawing

def performSteps (verbose : Bool) : List Step → IO (Option (Except Failure Unit))
  | [] => return some (.ok ())
  | step :: rest => do
    match ← performStep verbose step with
    | some (.ok _) => performSteps verbose rest
    | unfinished => return unfinished

def runReport (verbose : Bool) (family : Family) (paths : ReportPaths) :
    IO (Option (Except Failure Unit)) := do
  let settings := Settings.standard family
  match ← attempt (IO.FS.readBinFile paths.input) (Report.inputFailure paths.input) with
  | .error failure => return some (.error failure)
  | .ok bytes =>
    let (events, points) := Report.pointsOf settings paths.input bytes.data.toList
    for event in events do
      printEvent verbose event
    match points with
    | .error failure => return some (.error failure)
    | .ok points => performSteps verbose (Report.plan settings paths points)

def runSample (request : Sample.Request) (path : String) : IO (Except Failure Unit) := do
  match ← attempt (IO.FS.writeFile path (Sample.text request)) (.creating path) with
  | .error failure => return .error failure
  | .ok _ =>
    IO.print (CommandLine.createdLine request path)
    return .ok ()

def runInvocation (invocation : Invocation) : IO (Option (Except Failure Unit)) :=
  match invocation.command with
  | .report family paths => runReport invocation.verbose family paths
  | .sample request path => some <$> runSample request path
  | .help => do
    IO.print CommandLine.usage
    return some (.ok ())

end ThroughputCharts.Program

def main (arguments : List String) : IO UInt32 := do
  match CommandLine.parse arguments with
  | .error _ =>
    IO.eprint CommandLine.usage
    return CommandLine.misuseCode
  | .ok invocation =>
    let result ← Program.runInvocation invocation
    if let some (.error failure) := result then
      IO.eprint (CommandLine.failureText failure)
    return CommandLine.exitCode (result.getD (.ok ()))

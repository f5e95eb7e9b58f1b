import ThroughputCharts.Report
import ThroughputCharts.Sample

/-!
# The command line

The program either reports on a results table of a family or writes a sample table.  Options may be
written long or short, with their value attached or as the next argument.  Anything that the commands
do not know, a missing value and a repeated option are misuse.
-/

namespace ThroughputCharts

inductive CommandOption
  | verbose
  | help
  | input
  | output
  | json
  | family
  | trials
  | seed
  deriving DecidableEq

structure OptionForm where
  option : CommandOption
  long : String
  short : Option Char
  takesValue : Bool

inductive Misuse
  | unknownOption (text : String)
  | missingValue (option : CommandOption)
  | unexpectedValue (option : CommandOption)
  | repeatedOption (option : CommandOption)
  | invalidValue (option : CommandOption) (text : String)
  | missingOption (option : CommandOption)
  | unexpectedOperand (text : String)
  | unknownCommand (text : String)
  | missingCommand
  deriving DecidableEq

inductive Command
  | report (family : Family) (paths : ReportPaths)
  | sample (request : Sample.Request) (path : String)
  | help

/-- A command, and whether to report on it in detail. -/
structure Invocation where
  verbose : Bool
  command : Command

namespace CommandLine

def commonForms : List OptionForm :=
  [⟨.verbose, "verbose", some 'v', false⟩, ⟨.help, "help", some 'h', false⟩]

def reportForms : List OptionForm :=
  commonForms ++
    [⟨.input, "input", some 'i', true⟩, ⟨.output, "output", some 'o', true⟩,
      ⟨.json, "json", none, true⟩]

def sampleForms : List OptionForm :=
  commonForms ++
    [⟨.family, "family", some 'f', true⟩, ⟨.output, "output", some 'o', true⟩,
      ⟨.trials, "trials", some 't', true⟩, ⟨.seed, "seed", some 's', true⟩]

/-- An option as it was given; one that takes no value has the empty text. -/
abbrev Given := List (CommandOption × String)

/-- What an argument, looked at by itself, can be: options of which the last may still need its value,
the end of all options, or an operand. -/
inductive Argument
  | options (given : Given) (open? : Option CommandOption)
  | terminator
  | operand

def readShort (forms : List OptionForm) : List Char → Except Misuse Argument
  | [] => .ok (.options [] none)
  | char :: rest =>
    match forms.find? fun form => form.short == some char with
    | none => .error (.unknownOption (String.ofList ['-', char]))
    | some form =>
      if form.takesValue then
        match rest with
        | [] => .ok (.options [] (some form.option))
        | '=' :: value => .ok (.options [(form.option, String.ofList value)] none)
        | value => .ok (.options [(form.option, String.ofList value)] none)
      else
        (readShort forms rest).map fun
          | .options given open? => .options ((form.option, "") :: given) open?
          | argument => argument

def readLong (forms : List OptionForm) (text : List Char) : Except Misuse Argument :=
  let name := String.ofList (text.takeWhile (· ≠ '='))
  match forms.find? fun form => form.long == name with
  | none => .error (.unknownOption ("--" ++ name))
  | some form =>
    match text.dropWhile (· ≠ '='), form.takesValue with
    | [], true => .ok (.options [] (some form.option))
    | [], false => .ok (.options [(form.option, "")] none)
    | _ :: value, true => .ok (.options [(form.option, String.ofList value)] none)
    | _ :: _, false => .error (.unexpectedValue form.option)

/-- Reads an argument by itself; a single dash is an operand. -/
def readArgument (forms : List OptionForm) (text : String) : Except Misuse Argument :=
  match text.toList with
  | ['-', '-'] => .ok .terminator
  | '-' :: '-' :: name => readLong forms name
  | ['-'] => .ok .operand
  | '-' :: cluster => readShort forms cluster
  | _ => .ok .operand

/-- Whether an argument can be the value of the option before it. -/
def canBeValue (text : String) : Bool :=
  match text.toList with
  | '-' :: _ :: _ => false
  | _ => true

/-- The options in front of the first operand, the arguments from there on, and whether a terminator
stands between. -/
structure Scanned where
  given : Given
  operands : List String
  terminated : Bool

def Scanned.prepend (given : Given) (scanned : Scanned) : Scanned :=
  { scanned with given := given ++ scanned.given }

def scan (forms : List OptionForm) : List String → Except Misuse Scanned
  | [] => .ok ⟨[], [], false⟩
  | text :: rest =>
    match readArgument forms text with
    | .error misuse => .error misuse
    | .ok .terminator => .ok ⟨[], rest, true⟩
    | .ok .operand => .ok ⟨[], text :: rest, false⟩
    | .ok (.options given none) => (scan forms rest).map (.prepend given)
    | .ok (.options given (some option)) =>
      match rest with
      | value :: others =>
        if canBeValue value then
          (scan forms others).map (.prepend (given ++ [(option, value)]))
        else
          .error (.missingValue option)
      | [] => .error (.missingValue option)

def value? (given : Given) (option : CommandOption) : Except Misuse (Option String) :=
  match given.filter fun entry => entry.1 == option with
  | [] => .ok none
  | [(_, value)] => .ok (some value)
  | _ => .error (.repeatedOption option)

/-- The value of an option that names a file or directory. -/
def path? (given : Given) (option : CommandOption) : Except Misuse (Option String) := do
  match ← value? given option with
  | some "" => throw (.missingValue option)
  | value => return value

/-- The value of an option that is a number, with an optional plus. -/
def number? (given : Given) (option : CommandOption) : Except Misuse (Option UInt64) := do
  let some text ← value? given option | return none
  let digits := match text.toList with
    | '+' :: rest => rest
    | digits => digits
  match Decimal.readWord? digits with
  | some number => return some number
  | none => throw (.invalidValue option text)

def familyOfName? (name : String) : Option Family :=
  [Family.list, Family.queue].find? fun family => family.name == name

def reportCommand (family : Family) (given : Given) : Except Misuse Command := do
  let input ← path? given .input
  let output ← path? given .output
  let json ← path? given .json
  return .report family
    { input := input.getD family.defaultFile, output := output.getD ".", json }

def sampleCommand (given : Given) : Except Misuse Command := do
  let some name ← value? given .family | throw (.missingOption .family)
  let some family := familyOfName? name | throw (.invalidValue .family name)
  let output ← path? given .output
  let trials ← number? given .trials
  let seed ← number? given .seed
  let standard := Sample.Request.standard family
  return .sample
    { standard with
      trials := (trials.map UInt64.toNat).getD standard.trials
      seed := seed.getD standard.seed }
    (output.getD family.defaultFile)

def parseCommand (forms : List OptionForm) (finish : Given → Except Misuse Command)
    (arguments : List String) : Except Misuse Invocation := do
  let scanned ← scan forms arguments
  if let operand :: _ := scanned.operands then
    throw (.unexpectedOperand operand)
  let verbose ← value? scanned.given .verbose
  if scanned.given.any (·.1 == .help) then
    return ⟨verbose.isSome, .help⟩
  return ⟨verbose.isSome, ← finish scanned.given⟩

/-- Reads the arguments after the help command: at most one, the name of a command. -/
def parseHelp : List String → Except Misuse Invocation
  | [] => .ok ⟨false, .help⟩
  | name :: rest =>
    if !(["list", "queue", "sample", "help"].contains name) then
      .error (.unknownCommand name)
    else match rest with
      | [] => .ok ⟨false, .help⟩
      | operand :: _ => .error (.unexpectedOperand operand)

/-- Reads the arguments of the program: options, the name of a command, and its options. -/
def parse (arguments : List String) : Except Misuse Invocation := do
  let scanned ← scan commonForms arguments
  let verbose ← value? scanned.given .verbose
  if scanned.given.any (·.1 == .help) then
    return ⟨verbose.isSome, .help⟩
  match scanned.operands with
  | [] => throw .missingCommand
  | name :: rest =>
    if scanned.terminated then
      throw (.unexpectedOperand name)
    let invocation ← match name with
      | "list" => parseCommand reportForms (reportCommand .list) rest
      | "queue" => parseCommand reportForms (reportCommand .queue) rest
      | "sample" => parseCommand sampleForms sampleCommand rest
      | "help" => parseHelp rest
      | _ => .error (.unknownCommand name)
    return { invocation with verbose := verbose.isSome || invocation.verbose }

def usage : String :=
  "Usage: throughput-charts [--verbose] list [--input FILE] [--output FOLDER] [--json FILE]\n" ++
    "       throughput-charts [--verbose] queue [--input FILE] [--output FOLDER] [--json FILE]\n" ++
    "       throughput-charts sample --family list|queue [--output FILE] [--trials N] [--seed N]\n"

def createdLine (request : Sample.Request) (path : String) : String :=
  "Created: " ++ path ++ " (" ++ Nat.repr (Sample.rows request).length ++ " rows)\n"

def runSample (request : Sample.Request) (path : String) (directory : Directory) : Outcome Unit :=
  match directory.write path (.bytes (Text.toUtf8 (Sample.text request))) with
  | .error fault =>
    { directory, printed := "", events := [], result := some (.error (.creating path fault)) }
  | .ok directory =>
    { directory
      printed := createdLine request path
      events := []
      result := some (.ok ()) }

def runCommand (command : Command) (directory : Directory) : Outcome Unit :=
  match command with
  | .report family paths =>
    (Report.run (Settings.standard family) paths directory).map fun _ => ()
  | .sample request path => runSample request path directory
  | .help => { directory, printed := usage, events := [], result := some (.ok ()) }

def indentLines (text : String) : String :=
  String.ofList <| text.toList.flatMap fun char =>
    if char = '\n' then '\n' :: List.replicate 4 ' ' else [char]

def failureText (failure : Failure) : String :=
  "Error: " ++ failure.headline ++ "\n" ++
    match failure.cause? with
    | some cause => "\nCaused by:\n    " ++ indentLines cause ++ "\n"
    | none => ""

def exitCode (result : Except Failure Unit) : UInt32 :=
  match result with
  | .ok _ => 0
  | .error _ => 1

def misuseCode : UInt32 := 2

end CommandLine

end ThroughputCharts

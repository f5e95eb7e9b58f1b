import ThroughputCharts.CaseName.Summary
import ThroughputCharts.Event
import ThroughputCharts.Settings
import ThroughputCharts.Table

/-!
# Aggregation of trials

Trials of one configuration are merged into one point, the mean of their numeric throughputs.  The
sum starts at zero and adds the values in input order.  Groups are kept strictly ascending by key,
and every trial goes either into a mean or into the count of missing values.
-/

namespace ThroughputCharts

/-- A trial of a known configuration; a failed one has no value. -/
structure Trial where
  key : Key
  value : Option Float
  deriving DecidableEq

/-- The mean throughput of the numeric trials of a configuration. -/
structure Point where
  key : Key
  throughput : Float
  trials : Nat
  deriving DecidableEq

/-- The trials of one configuration: the numeric values in input order, and how many are missing. -/
structure Group where
  key : Key
  values : List Float
  missing : Nat
  deriving DecidableEq

namespace Group

def empty (key : Key) : Group := ⟨key, [], 0⟩

/-- Puts a value in front of the trials of a group. -/
def cons (value : Option Float) (group : Group) : Group :=
  match value with
  | some number => { group with values := number :: group.values }
  | none => { group with missing := group.missing + 1 }

/-- The sum of the values from left to right. -/
def total (values : List Float) : Float :=
  values.foldl (· + ·) 0.0

/-- The mean of the values of a group that has any. -/
def mean (values : List Float) : Float :=
  total values / Float.ofNat values.length

def point? (group : Group) : Option Point :=
  if group.values.isEmpty then
    none
  else
    some ⟨group.key, mean group.values, group.values.length⟩

end Group

namespace Aggregation

/-- Puts a trial in front of all others, where groups ascend by key. -/
def insert (trial : Trial) : List Group → List Group
  | [] => [(Group.empty trial.key).cons trial.value]
  | group :: rest =>
    match compare trial.key group.key with
    | .lt => (Group.empty trial.key).cons trial.value :: group :: rest
    | .eq => group.cons trial.value :: rest
    | .gt => group :: insert trial rest

def groups (trials : List Trial) : List Group :=
  trials.foldr insert []

/-- One point for each configuration with a numeric trial, ascending by key. -/
def points (trials : List Trial) : List Point :=
  (groups trials).filterMap Group.point?

/-- The configurations without a numeric trial, ascending. -/
def droppedKeys (trials : List Trial) : List Key :=
  ((groups trials).filter (·.values.isEmpty)).map Group.key

def excludedCount (trials : List Trial) : Nat :=
  (groups trials).foldr (fun group total => group.missing + total) 0

/-- What aggregation reports: the trials left out, the configurations dropped, and the totals. -/
def events (trials : List Trial) : List Event :=
  (if 0 < excludedCount trials then [.trialsExcluded (excludedCount trials)] else []) ++
    (droppedKeys trials).map .configurationDropped ++
    [.trialsAggregated trials.length (points trials).length (droppedKeys trials).length]

def trialOfRecord (family : Family) (record : Record) : Except NameError Trial :=
  (family.decode record.name).map fun key => ⟨key, record.value⟩

/-- Every trial, or the error of the first record whose name is malformed. -/
def decodeAll (family : Family) (records : List Record) : Except NameError (List Trial) :=
  records.mapM (trialOfRecord family)

/-- The records of trials, without the runner's summaries. -/
def trialRecords (records : List Record) : List Record :=
  records.filter fun record => !SummaryName.isSummary record.name

def skippedEvents (records : List Record) : List Event :=
  let skipped := records.length - (trialRecords records).length
  if 0 < skipped then [.summariesSkipped skipped] else []

/-- The variants of points that have no color, each once; points that ascend by key give them in
ascending order. -/
def unconfiguredVariants (settings : Settings) (points : List Point) : List String :=
  ((points.map (·.key.variant)).filter fun variant =>
    (settings.colorOf? variant).isNone).eraseDups

/-- The points of a table with the events of their making.  A malformed name fails the whole table
after the summaries have been skipped. -/
def ofRecords (settings : Settings) (records : List Record) :
    List Event × Except NameError (List Point) :=
  match decodeAll settings.family (trialRecords records) with
  | .error error => (skippedEvents records, .error error)
  | .ok trials =>
    (skippedEvents records ++ events trials ++
      (unconfiguredVariants settings (points trials)).map .variantUnconfigured,
      .ok (points trials))

end Aggregation

end ThroughputCharts

import ThroughputCharts.Family

/-!
# Log events

A run reports what it reads, skips and leaves out as a sequence of events, each with a severity, a
fixed message and named fields.
-/

namespace ThroughputCharts

inductive Severity
  | debug
  | info
  | warning
  deriving DecidableEq

def Severity.label : Severity → String
  | .debug => "DEBUG"
  | .info => "INFO"
  | .warning => "WARN"

/-- Something that a run reports. -/
inductive Event
  | tableRead (source : String) (rows : Nat) (column : String)
  | summariesSkipped (skipped : Nat)
  | trialsExcluded (excluded : Nat)
  | configurationDropped (key : Key)
  | trialsAggregated (trials points dropped : Nat)
  | variantUnconfigured (variant : String)
  | resultsLoaded (family : Family) (rows : Nat) (input : String)
  | panelsEmpty (file : String) (empty : Nat)
  deriving DecidableEq

namespace Event

def severity : Event → Severity
  | .tableRead .. | .trialsAggregated .. => .debug
  | .resultsLoaded .. | .panelsEmpty .. => .info
  | .summariesSkipped .. | .trialsExcluded .. | .configurationDropped .. | .variantUnconfigured .. =>
    .warning

def message : Event → String
  | .tableRead .. => "loaded benchmark rows"
  | .summariesSkipped .. => "skipped runner summary rows (mean/median/stddev/cv)"
  | .trialsExcluded .. => "trials without a numeric throughput left out of the mean"
  | .configurationDropped .. => "configuration has no numeric trials; dropped"
  | .trialsAggregated .. => "aggregated trials"
  | .variantUnconfigured .. => "variant has no configured color; not plotted"
  | .resultsLoaded .. => "loaded benchmark results"
  | .panelsEmpty .. => "figure has panels without data"

/-- The fields of the event, each name with its text. -/
def fields : Event → List (String × String)
  | .tableRead source rows column =>
    [("source", source), ("rows", Nat.repr rows), ("column", column)]
  | .summariesSkipped skipped => [("skipped", Nat.repr skipped)]
  | .trialsExcluded excluded => [("excluded", Nat.repr excluded)]
  | .configurationDropped key =>
    [("variant", key.variant), ("threads", Nat.repr key.threads.toNat), ("size", key.size.display)]
  | .trialsAggregated trials points dropped =>
    [("trials", Nat.repr trials), ("points", Nat.repr points), ("dropped", Nat.repr dropped)]
  | .variantUnconfigured variant => [("variant", variant)]
  | .resultsLoaded family rows input =>
    [("family", family.name), ("rows", Nat.repr rows), ("input", input)]
  | .panelsEmpty file empty => [("file", file), ("empty", Nat.repr empty)]

end Event

end ThroughputCharts

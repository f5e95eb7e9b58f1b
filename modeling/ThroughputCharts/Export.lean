import ThroughputCharts.Aggregation
import ThroughputCharts.Json.Value

/-!
# The JSON export

The export is an array of the points, each an object with the four dimensions of its key, its
throughput and its number of trials.
-/

namespace ThroughputCharts
namespace Export

def sizeJson (size : ProblemSize) : Json :=
  .object [("kind", .string size.kind), ("value", .natural size.count.toNat)]

def workloadJson : Option Workload → Json
  | some workload => .string workload.tag
  | none => .null

def pointJson (point : Point) : Json :=
  .object
    [("variant", .string point.key.variant),
      ("workload", workloadJson point.key.workload),
      ("thread_count", .natural point.key.threads.toNat),
      ("problem_size", sizeJson point.key.size),
      ("throughput", .real point.throughput),
      ("trials", .natural point.trials)]

def text (points : List Point) : String :=
  (Json.array (points.map pointJson)).text

end Export
end ThroughputCharts

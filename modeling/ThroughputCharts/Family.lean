import ThroughputCharts.CaseName.ListName
import ThroughputCharts.CaseName.QueueName

/-!
# Benchmark families

The list and the queue benchmarks write their results in tables of one shape, but name their cases
and their throughput column differently.
-/

namespace ThroughputCharts

/-- A family of benchmarks with its own layout of case names. -/
inductive Family
  | list
  | queue
  deriving DecidableEq

inductive ThroughputUnit
  | operationsPerSecond
  | itemsPerSecond
  deriving DecidableEq

def ThroughputUnit.label : ThroughputUnit → String
  | .operationsPerSecond => "ops/s"
  | .itemsPerSecond => "items/s"

namespace Family

def name : Family → String
  | .list => "list"
  | .queue => "queue"

def throughputColumn : Family → String
  | .list => "ops"
  | .queue => "items_per_second"

def unit : Family → ThroughputUnit
  | .list => .operationsPerSecond
  | .queue => .itemsPerSecond

/-- The results file read or written when none is named. -/
def defaultFile : Family → String
  | .list => "list_benchmark_result.csv"
  | .queue => "queue_benchmark.csv"

def decode : Family → String → Except NameError Key
  | .list => ListName.decode
  | .queue => QueueName.decode

end Family

end ThroughputCharts

import ThroughputCharts.Workload

/-!
# Configurations

A key holds the four dimensions of a benchmark configuration.  Keys are ordered by variant, then
workload (none first), then thread count, then problem size, where every number of elements comes
before every number of operations.
-/

namespace ThroughputCharts

/-- The size of a trial: the elements a list starts with, or the operations a queue runs. -/
inductive ProblemSize
  | elements (count : UInt64)
  | operations (count : UInt64)
  deriving DecidableEq

namespace ProblemSize

/-- The number behind the size, whatever it counts. -/
def count : ProblemSize → UInt64
  | .elements count => count
  | .operations count => count

/-- The word for what the size counts. -/
def kind : ProblemSize → String
  | .elements _ => "elements"
  | .operations _ => "operations"

/-- The size as tables and log events show it. -/
def display : ProblemSize → String
  | .elements count => "size=" ++ Nat.repr count.toNat
  | .operations count => "ops=" ++ Nat.repr count.toNat

def kindRank : ProblemSize → Nat
  | .elements _ => 0
  | .operations _ => 1

instance : Ord ProblemSize := ⟨compareLex (compareOn kindRank) (compareOn count)⟩

end ProblemSize

/-- The dimensions that tell one benchmark configuration from another. -/
structure Key where
  variant : String
  workload : Option Workload
  threads : UInt64
  size : ProblemSize
  deriving DecidableEq

namespace Key

instance : Ord Key :=
  ⟨compareLex (compareOn variant) <| compareLex (compareOn workload) <|
    compareLex (compareOn threads) (compareOn size)⟩

end Key

end ThroughputCharts

import ThroughputCharts.Aggregation

/-!
# Series

A panel shows one slice of the points: a workload, or none, and a problem size.  Each configured
variant has a series in it, with its points ordered by thread count.
-/

namespace ThroughputCharts

/-- The selection that makes up one panel. -/
structure Slice where
  workload : Option Workload
  size : ProblemSize
  deriving DecidableEq

def Slice.contains (slice : Slice) (key : Key) : Bool :=
  key.workload == slice.workload && key.size == slice.size

/-- Throughput against thread count for one variant. -/
structure Series where
  variant : String
  color : Color
  points : List (UInt64 × Float)
  deriving DecidableEq

namespace Series

def isEmpty (series : Series) : Bool :=
  series.points.isEmpty

/-- The points of a variant in a slice, ordered by thread count; points of equal thread count stay in
input order. -/
def select (points : List Point) (slice : Slice) (variant : String) : List (UInt64 × Float) :=
  ((points.filter fun point => point.key.variant == variant && slice.contains point.key).map
    fun point => (point.key.threads, point.throughput)).mergeSort
      fun first second => decide (first.1 ≤ second.1)

/-- One series for each entry of the palette, in its order. -/
def project (settings : Settings) (points : List Point) (slice : Slice) : List Series :=
  settings.palette.map fun (variant, color) =>
    { variant, color, points := select points slice variant }

end Series

end ThroughputCharts

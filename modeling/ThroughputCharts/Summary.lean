import ThroughputCharts.Aggregation
import ThroughputCharts.Decimal.Layout
import ThroughputCharts.Text.Columns

/-!
# The summary table

The summary lists the points for reading on a console: a heading, a header line, a rule, one line for
each point and an empty line at the end.
-/

namespace ThroughputCharts
namespace Summary

open Text

/-- A row of six cells; the first two are aligned on their left and the others on their right. -/
def row (variant workload size threads throughput trials : List Char) : List Char :=
  [' ', ' '] ++ padRight 24 variant ++ ' ' :: padRight 20 workload ++ ' ' :: padLeft 12 size ++
    ' ' :: padLeft 8 threads ++ ' ' :: padLeft 16 throughput ++ ' ' :: padLeft 7 trials

/-- A line of the summary with its end. -/
def line (content : List Char) : List Char := content ++ ['\n']

def doubleRule : List Char := line (List.replicate 80 '=')

def heading : List Char :=
  line [] ++ doubleRule ++ line "Aggregated Results".toList ++ doubleRule ++ line [] ++
    line (row "Variant".toList "Workload".toList "Size".toList "Threads".toList
      "Throughput".toList "Trials".toList) ++
    line ([' ', ' '] ++ List.replicate 92 '-')

/-- The row of a point, with its throughput rounded to a whole number. -/
def pointRow (point : Point) : List Char :=
  row point.key.variant.toList
    ((point.key.workload.map Workload.tag).getD "-").toList
    point.key.size.display.toList
    (Nat.toDigits 10 point.key.threads.toNat)
    (Decimal.fixedText 0 point.throughput)
    (Nat.toDigits 10 point.trials)

def text (points : List Point) : String :=
  String.ofList (heading ++ points.flatMap (fun point => line (pointRow point)) ++ line [])

end Summary
end ThroughputCharts

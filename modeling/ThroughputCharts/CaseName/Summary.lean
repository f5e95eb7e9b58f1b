import ThroughputCharts.Text.Split

/-!
# Summary rows

After repeated trials a benchmark runner adds rows for their mean, median, standard deviation and
coefficient of variation.  Such a row is told by the end of the last segment of its name.
-/

namespace ThroughputCharts
namespace SummaryName

def endings : List String := ["_mean", "_median", "_stddev", "_cv"]

/-- The text after the last slash of a name. -/
def lastSegment (name : String) : List Char :=
  ((Text.pieces '/' name.toList).getLast?).getD []

/-- Whether a name is that of a summary row rather than a trial. -/
def isSummary (name : String) : Bool :=
  endings.any fun ending => ending.toList.isSuffixOf (lastSegment name)

end SummaryName
end ThroughputCharts

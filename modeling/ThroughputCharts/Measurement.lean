import ThroughputCharts.Decimal.Numeral
import ThroughputCharts.Text.Blank

/-!
# Throughput cells

A throughput cell holds a measurement when it is a decimal numeral, blanks around it aside, whose
nearest binary64 number is finite.  Any other cell, such as the report of a failed run, is a missing
measurement.
-/

namespace ThroughputCharts
namespace Measurement

def read? (cell : String) : Option Float :=
  ((Decimal.readNumeral? (Text.trim cell.toList)).map Decimal.Numeral.toFloat).filter Float.isFinite

end Measurement
end ThroughputCharts

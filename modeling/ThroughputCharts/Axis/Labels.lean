import ThroughputCharts.Binary64.Integral
import ThroughputCharts.Decimal.Layout

/-!
# Tick labels

Thread ticks are labelled where they are whole numbers, and on request only where a thread count was
measured.  Throughput ticks are labelled either in scientific notation or in whole units, thousands
and millions.
-/

namespace ThroughputCharts
namespace Axis

/-- How far a thread tick may be from a whole number. -/
def wholeTolerance : Float := 0.000001

/-- The label of a thread tick; it is empty where the tick has none. -/
def threadLabel (measured : List UInt64) (onlyMeasured : Bool) (position : Float) : String :=
  let rounded := Binary64.round position
  if wholeTolerance < (position - rounded).abs || rounded < 0.0 then
    ""
  else
    let threads := rounded.toUInt64
    if onlyMeasured && !measured.contains threads then "" else Nat.repr threads.toNat

/-- The label of a throughput in scientific notation; zero is written alone. -/
def scientificLabel (throughput : Float) : String :=
  if throughput == 0.0 then "0" else String.ofList (Decimal.scientificText 1 throughput)

def million : Float := 1000000.0

def thousand : Float := 1000.0

/-- The label of a throughput in whole units, thousands or millions. -/
def throughputLabel (throughput : Float) : String :=
  String.ofList <|
    if million ≤ throughput then
      Decimal.fixedText 1 (throughput / million) ++ ['M']
    else if thousand ≤ throughput then
      Decimal.fixedText 0 (throughput / thousand) ++ ['K']
    else
      Decimal.fixedText 0 throughput

end Axis
end ThroughputCharts

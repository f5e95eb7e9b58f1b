import ThroughputCharts.Binary64.Integral
import ThroughputCharts.Csv.Text
import ThroughputCharts.Decimal.Layout
import ThroughputCharts.Random.Stream
import ThroughputCharts.Settings

/-!
# Sample tables

A sample table looks like the results of a benchmark run and serves to try a report.  It has a number
of trials for every reported size, plotted variant, thread count and workload; later variants gain
more from threads, and some trials fail.
-/

namespace ThroughputCharts
namespace Sample

structure Request where
  family : Family
  trials : Nat
  threadCounts : List UInt64
  failureRate : Float
  seed : UInt64

/-- The sample of a family that is generated unless asked otherwise. -/
def Request.standard (family : Family) : Request where
  family := family
  trials := 3
  threadCounts := [1, 2, 4, 8, 16]
  failureRate := 0.02
  seed := 42

/-- A generated trial; a failed one has no throughput. -/
structure Row where
  name : String
  iterations : Nat
  throughput : Option Float

/-- A way to raise a number to a power; unless another one is given, it is that of the system. -/
abbrev Power := Float → Float → Float

/-- A configuration by its case name, with the throughput that its trials scatter around. -/
structure Configuration where
  name : String
  expected : Float

/-- The queue that is benchmarked through an adapter type. -/
def wrappedQueue : String := "BoundedQueue"

def queueName (variant : String) (operations threads : UInt64) : String :=
  "BM_QueueThroughput<" ++ variant ++
    (if variant = wrappedQueue then QueueName.wrapperSuffix else "") ++ "<int>>/" ++
    Nat.repr operations.toNat ++ "/" ++ Nat.repr threads.toNat ++ "/" ++ QueueName.realTime

/-- The share of the throughput that a workload leaves. -/
def workloadShare : Workload → Float
  | .readHeavy => 1.0
  | .balanced => 0.7
  | .writeHeavy => 0.5

/-- The throughput of a list on one thread; longer lists take longer to walk. -/
def listThroughput (workload : Workload) (size : UInt64) : Float :=
  workloadShare workload * 500000000.0 / size.toFloat

/-- The throughput of a queue on one thread. -/
def queueThroughput : Float := 4000000.0

/-- The power of the thread count that the throughput of a variant grows with. -/
def growthExponent (index : Nat) : Float :=
  -0.4 + 0.25 * Float.ofNat index

def scaled (power : Power) (base : Float) (index : Nat) (threads : UInt64) : Float :=
  base * power threads.toFloat (growthExponent index)

def configurationsAt (power : Power) (family : Family) (size : UInt64) (variant : String)
    (index : Nat) (threads : UInt64) : List Configuration :=
  match family with
  | .list => Workload.all.map fun workload =>
      ⟨ListName.encode workload variant threads size,
        scaled power (listThroughput workload size) index threads⟩
  | .queue => [⟨queueName variant size threads, scaled power queueThroughput index threads⟩]

/-- Every configuration of a sample, in order of size, variant, thread count and workload. -/
def configurations (request : Request) (power : Power := Float.pow) : List Configuration :=
  let settings := Settings.standard request.family
  settings.sizes.flatMap fun size =>
    settings.palette.zipIdx.flatMap fun ((variant, _), index) =>
      request.threadCounts.flatMap fun threads =>
        configurationsAt power request.family size.count variant index threads

/-- The kinds of draws that a sample is made of, with whatever may come of them besides a result. -/
structure Draws (m : Type → Type) where
  chance : (probability : Float) → Random.Stream → m (Bool × Random.Stream)
  between : (low high : Float) → Random.Stream → m (Float × Random.Stream)
  below : (bound : UInt64) → Random.Stream → m (Nat × Random.Stream)

/-- Draws that have a result for every argument. -/
def Draws.total : Draws Id where
  chance := Random.Stream.chance
  between low high := Random.Stream.between low high Random.Stream.rejections
  below bound := Random.Stream.below bound Random.Stream.rejections

section Drawing

variable {m : Type → Type} [Monad m] (draws : Draws m)

/-- Whether a trial fails; without a failure rate nothing is drawn. -/
def drawFailure (rate : Float) (stream : Random.Stream) : m (Bool × Random.Stream) :=
  if 0.0 < rate then
    draws.chance (if rate < 1.0 then rate else 1.0) stream
  else
    return (false, stream)

/-- The throughput of a trial that succeeds: the expected one give or take a tenth, as a whole
number. -/
def drawThroughput (expected : Float) (stream : Random.Stream) : m (Float × Random.Stream) := do
  let (factor, rest) ← draws.between 0.9 1.1 stream
  return (Binary64.round (expected * factor), rest)

/-- The number of iterations of a trial, from 100 up to 9999. -/
def drawIterations (stream : Random.Stream) : m (Nat × Random.Stream) := do
  let (number, rest) ← draws.below 9900 stream
  return (100 + number, rest)

def drawOutcome (expected : Float) (failed : Bool) (stream : Random.Stream) :
    m (Option Float × Random.Stream) :=
  if failed then
    return (none, stream)
  else do
    let (throughput, stream) ← drawThroughput draws expected stream
    return (some throughput, stream)

def drawRow (rate : Float) (configuration : Configuration) (stream : Random.Stream) :
    m (Row × Random.Stream) := do
  let (failed, stream) ← drawFailure draws rate stream
  let (throughput, stream) ← drawOutcome draws configuration.expected failed stream
  let (iterations, stream) ← drawIterations draws stream
  return (⟨configuration.name, iterations, throughput⟩, stream)

/-- One trial of each configuration in a list, drawn one after the other. -/
def drawRows (rate : Float) : List Configuration → Random.Stream → m (List Row)
  | [], _ => return []
  | configuration :: rest, stream => do
    let (row, stream) ← drawRow draws rate configuration stream
    let rows ← drawRows rate rest stream
    return row :: rows

/-- The rows of a sample; the trials of a configuration are adjacent. -/
def drawSample (request : Request) (power : Power) : m (List Row) :=
  drawRows draws request.failureRate
    ((configurations request power).flatMap fun configuration =>
      List.replicate request.trials configuration)
    (Random.Stream.ofSeed request.seed)

end Drawing

/-- Every row of a sample. -/
def rows (request : Request) (power : Power := Float.pow) : List Row :=
  (drawSample Draws.total request power).run

def header (family : Family) : List (List Char) :=
  ["name", "iterations", family.throughputColumn, "error_occurred", "error_message"].map
    String.toList

def fields (row : Row) : List (List Char) :=
  let (value, failure, message) := match row.throughput with
    | some throughput => (Decimal.cellText throughput, "", "")
    | none => ([], "true", "benchmark run failed")
  [row.name.toList, Nat.toDigits 10 row.iterations, value, failure.toList, message.toList]

def text (request : Request) (power : Power := Float.pow) : String :=
  String.ofList <|
    (header request.family :: (rows request power).map fields).flatMap Csv.rowText

end Sample
end ThroughputCharts

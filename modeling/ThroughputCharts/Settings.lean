import ThroughputCharts.Family

/-!
# Report settings

The settings fix which variants are plotted and in which color, which workloads get a panel and which
problem sizes are reported.  They come from here and not from the data, so that a variant looks the
same in every report.
-/

namespace ThroughputCharts

structure Color where
  red : UInt8
  green : UInt8
  blue : UInt8
  deriving DecidableEq

namespace Color

def hexDigit (number : Nat) : Char :=
  (Nat.digitChar number).toUpper

/-- The color as a number sign and six hexadecimal digits. -/
def hex (color : Color) : String :=
  String.ofList <| '#' :: [color.red, color.green, color.blue].flatMap fun part =>
    [hexDigit (part.toNat / 16), hexDigit (part.toNat % 16)]

def pureBlue : Color := ⟨0, 0, 255⟩
def pureRed : Color := ⟨255, 0, 0⟩
def mediumGreen : Color := ⟨0, 128, 0⟩
def purple : Color := ⟨128, 0, 128⟩
def orange : Color := ⟨255, 165, 0⟩
def black : Color := ⟨0, 0, 0⟩

end Color

/-- What a report of a family shows.  The palette lists the plotted variants in legend order, and
`workloads` the panels of a list figure with their descriptions. -/
structure Settings where
  family : Family
  palette : List (String × Color)
  workloads : List (Workload × String)
  sizes : List ProblemSize
  deriving DecidableEq

namespace Settings

def list : Settings where
  family := .list
  palette :=
    [("CoarseList", .pureBlue), ("FineList", .pureRed), ("OptimisticList", .mediumGreen),
      ("LazyList", .purple), ("LockFreeList", .orange)]
  workloads := Workload.all.map fun workload => (workload, workload.description)
  sizes := [.elements 100, .elements 1000, .elements 10000]

def queue : Settings where
  family := .queue
  palette :=
    [("BoundedQueue", .pureBlue), ("LockFreeQueueRecycle", .mediumGreen),
      ("LockFreeQueue", .pureRed), ("UnboundedQueue", .purple)]
  workloads := []
  sizes := [.operations 10000, .operations 100000, .operations 1000000]

def standard : Family → Settings
  | .list => list
  | .queue => queue

def colorOf? (settings : Settings) (variant : String) : Option Color :=
  settings.palette.lookup variant

/-- The description of a workload: the first one configured, or else its own. -/
def describe (settings : Settings) (workload : Workload) : String :=
  (settings.workloads.lookup workload).getD workload.description

end Settings

end ThroughputCharts

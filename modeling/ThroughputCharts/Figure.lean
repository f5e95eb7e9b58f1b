import ThroughputCharts.Series

/-!
# Figures

The list family gets one figure for each problem size, with the workloads as panels below each other.
The queue family gets a single figure with the problem sizes as panels beside each other.  The size of
a figure in pixels is held in 32 bits.
-/

namespace ThroughputCharts

inductive Layout
  | stacked
  | sideBySide
  deriving DecidableEq

/-- How the axes of a panel are labelled.  With `ticksAtThreads` only measured thread counts get a
label. -/
structure PanelStyle where
  throughputTitle : String
  scientific : Bool
  ticksAtThreads : Bool
  deriving DecidableEq

structure Panel where
  title : String
  series : List Series
  style : PanelStyle
  deriving DecidableEq

def Panel.isEmpty (panel : Panel) : Bool :=
  panel.series.all Series.isEmpty

structure Figure where
  fileName : String
  title : Option String
  layout : Layout
  width : UInt32
  height : UInt32
  panels : List Panel
  deriving DecidableEq

namespace Figure

def emptyPanelCount (figure : Figure) : Nat :=
  figure.panels.countP Panel.isEmpty

def listStyle : PanelStyle where
  throughputTitle := "Operations per Second"
  scientific := false
  ticksAtThreads := false

def queueStyle : PanelStyle where
  throughputTitle := "Operations Per Second"
  scientific := true
  ticksAtThreads := true

def listPanel (settings : Settings) (points : List Point) (size : UInt64)
    (entry : Workload × String) : Panel where
  title := entry.1.tag ++ " - " ++ entry.2 ++ " (Size=" ++ Nat.repr size.toNat ++ ")"
  series := Series.project settings points ⟨some entry.1, .elements size⟩
  style := listStyle

def ofListSize (settings : Settings) (points : List Point) (size : UInt64) : Figure :=
  let panels := settings.workloads.map (listPanel settings points size)
  { fileName := "list_size_" ++ Nat.repr size.toNat ++ ".svg"
    title := none
    layout := .stacked
    width := 800
    height := 400 * (max 1 panels.length).toUInt32
    panels }

def queuePanel (settings : Settings) (points : List Point) (operations : UInt64) : Panel where
  title := "Operations Count: " ++ Nat.repr operations.toNat
  series := Series.project settings points ⟨none, .operations operations⟩
  style := queueStyle

def ofQueueSizes (settings : Settings) (points : List Point) : Figure :=
  let panels := settings.sizes.map fun size => queuePanel settings points size.count
  { fileName := "queue_performance_comparison.png"
    title := some "Queue Implementation Performance Comparison"
    layout := .sideBySide
    width := 600 * (max 1 panels.length).toUInt32
    height := 650
    panels }

/-- Every figure of a report.  Only the number of a configured size matters, not what it counts. -/
def all (settings : Settings) (points : List Point) : List Figure :=
  match settings.family with
  | .list => settings.sizes.map fun size => ofListSize settings points size.count
  | .queue => [ofQueueSizes settings points]

end Figure

end ThroughputCharts

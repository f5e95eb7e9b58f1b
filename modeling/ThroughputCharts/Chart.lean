import ThroughputCharts.Axis.Labels
import ThroughputCharts.Axis.Placement
import ThroughputCharts.Axis.Ticks
import ThroughputCharts.Frame

/-!
# Charts

A chart is a panel with its axes worked out: the range of each axis and its visible ticks.  The thread
axis leaves a margin on both sides of the measured counts, and the throughput axis goes from zero to a
tenth above the greatest mean.  There is no chart if the ticks of an axis are never found.
-/

namespace ThroughputCharts

/-- A tick with its label, which may be empty. -/
structure Tick where
  position : Float
  label : String

/-- A panel ready to be drawn; `series` holds only those with points. -/
structure Chart where
  frame : Frame
  title : String
  throughputTitle : String
  threadRange : Float × Float
  throughputRange : Float × Float
  threadTicks : List Tick
  throughputTicks : List Tick
  series : List Series

namespace Chart

def threadTitle : String := "Number of Threads"

/-- The labels asked for on a throughput axis. -/
def throughputTickLimit : Nat := 8

/-- The labels asked for on a thread axis that is labelled at any whole number. -/
def threadTickLimit : Nat := 10

/-- The greater of two numbers; what is not a number does not count. -/
def greater (first second : Float) : Float :=
  if first.isNaN then second
  else if first < second then second
  else first

/-- The thread counts of a panel, ascending and each once. -/
def measuredThreads (panel : Panel) : List UInt64 :=
  ((panel.series.flatMap fun series => series.points.map Prod.fst).mergeSort
    fun first second => decide (first ≤ second)).eraseDups

/-- The least and the greatest thread count, or one where there is none. -/
def threadExtent (measured : List UInt64) : Float × Float :=
  ((measured.head?.getD 1).toFloat, (measured.getLast?.getD 1).toFloat)

/-- The margin beside the measured thread counts: a twentieth of their span, but at least a half. -/
def threadMargin (least greatest : Float) : Float :=
  greater ((greatest - least) * 0.05) 0.5

/-- The end of the throughput axis of a panel. -/
def throughputEnd (panel : Panel) : Float :=
  let greatest := (panel.series.flatMap fun series => series.points.map Prod.snd).foldl greater 0.0
  if 0.0 < greatest then greatest * 1.1 else 1.0

/-- How many labels a thread axis asks for: one for each whole number of its span if only measured
thread counts are labelled, within bounds. -/
def threadLabelCount (style : PanelStyle) (least greatest : Float) : Nat :=
  if style.ticksAtThreads then
    min 128 (max 2 ((greatest - least).toUInt64.toNat + 1))
  else
    threadTickLimit

def threadRangeOf (panel : Panel) : Float × Float :=
  let (least, greatest) := threadExtent (measuredThreads panel)
  let margin := threadMargin least greatest
  (least - margin, greatest + margin)

def throughputRangeOf (panel : Panel) : Float × Float :=
  (0.0, throughputEnd panel)

/-- The ticks of an axis that are visible on it. -/
def visibleTicks (range : Float × Float) (limit : Nat) (extent : Axis.Extent) :
    Option (List Float) :=
  (Axis.ticks range.1 range.2 limit).map
    (List.filter (Axis.isVisible range.1 range.2 extent))

/-- The visible ticks of an axis with their labels. -/
def labelledTicks (label : Float → String) (range : Float × Float) (limit : Nat)
    (extent : Axis.Extent) : Option (List Tick) :=
  (visibleTicks range limit extent).map
    (List.map fun position => ⟨position, label position⟩)

def threadTicksOf (frame : Frame) (panel : Panel) : Option (List Tick) :=
  let measured := measuredThreads panel
  let (least, greatest) := threadExtent measured
  labelledTicks (Axis.threadLabel measured panel.style.ticksAtThreads) (threadRangeOf panel)
    (threadLabelCount panel.style least greatest) ⟨frame.left, frame.width⟩

/-- The label of a throughput tick in the style of a panel. -/
def throughputLabelOf (style : PanelStyle) : Float → String :=
  if style.scientific then Axis.scientificLabel else Axis.throughputLabel

def throughputTicksOf (frame : Frame) (panel : Panel) : Option (List Tick) :=
  labelledTicks (throughputLabelOf panel.style) (throughputRangeOf panel) throughputTickLimit
    ⟨frame.top, frame.height⟩

def ofPanel (frame : Frame) (panel : Panel) : Option Chart := do
  let threadTicks ← threadTicksOf frame panel
  let throughputTicks ← throughputTicksOf frame panel
  return {
    frame
    title := panel.title
    throughputTitle := panel.style.throughputTitle
    threadRange := threadRangeOf panel
    throughputRange := throughputRangeOf panel
    threadTicks
    throughputTicks
    series := panel.series.filter fun series => !series.isEmpty }

/-- The texts of a chart in drawing order: its titles, the labels of both axes and the legend. -/
def texts (chart : Chart) : List String :=
  [chart.title, chart.throughputTitle, threadTitle] ++ chart.throughputTicks.map Tick.label ++
    chart.threadTicks.map Tick.label ++ chart.series.map Series.variant

end Chart

end ThroughputCharts

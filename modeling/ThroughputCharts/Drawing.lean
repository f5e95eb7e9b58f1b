import ThroughputCharts.Chart

/-!
# Drawings

A drawing is a figure with all its charts worked out; there is none if one of them never is.  It can be
told apart by what is visible on it: the texts, the colored lines and the markers, each in drawing
order.
-/

namespace ThroughputCharts

/-- A visible line: its color, its width and its number of corners. -/
structure Stroke where
  color : Color
  width : Nat
  corners : Nat
  deriving DecidableEq

structure Drawing where
  width : UInt32
  height : UInt32
  title : Option String
  charts : List Chart

namespace Drawing

def ofFigure (figure : Figure) : Option Drawing := do
  let charts ← figure.panels.zipIdx.mapM fun (panel, index) =>
    Chart.ofPanel (Frame.ofFigure figure index) panel
  return { width := figure.width, height := figure.height, title := figure.title, charts }

def texts (drawing : Drawing) : List String :=
  (drawing.title.toList ++ drawing.charts.flatMap Chart.texts).filter (· ≠ "")

def lineWidth : Nat := 2

/-- The data lines of a chart, then the samples of its legend. -/
def chartStrokes (chart : Chart) : List Stroke :=
  chart.series.map (fun series => ⟨series.color, lineWidth, series.points.length⟩) ++
    chart.series.map fun series => ⟨series.color, lineWidth, 2⟩

/-- The lines that stand out from the axes, which are black. -/
def coloredStrokes (drawing : Drawing) : List Stroke :=
  (drawing.charts.flatMap chartStrokes).filter (·.color ≠ Color.black)

def markers (drawing : Drawing) : List Color :=
  drawing.charts.flatMap fun chart => chart.series.flatMap fun series =>
    List.replicate series.points.length series.color

/-- Equal neighbours counted together. -/
def runs : List Color → List (Color × Nat)
  | [] => []
  | color :: rest =>
    match runs rest with
    | (next, count) :: others =>
      if color = next then (next, count + 1) :: others else (color, 1) :: (next, count) :: others
    | [] => [(color, 1)]

end Drawing

end ThroughputCharts

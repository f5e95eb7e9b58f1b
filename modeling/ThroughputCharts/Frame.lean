import ThroughputCharts.Figure

/-!
# Frames

The panels of a figure share the image below its title evenly.  Each panel keeps room at its edges for
its title and for the labels of its axes; the points are drawn in the frame that is left.
-/

namespace ThroughputCharts

/-- The part of an image in which the points of a panel are drawn, in pixels: its left and upper edge
and the distances to the edges on the other side. -/
structure Frame where
  left : Nat
  top : Nat
  width : Nat
  height : Nat
  deriving DecidableEq

namespace Frame

def figureTitleHeight : Nat := 36

def panelTitleHeight : Nat := 26

/-- The space left free at every edge of a panel. -/
def margin : Nat := 15

def throughputLabelWidth : Nat := 80

def threadLabelHeight : Nat := 45

/-- The frame inside the part of an image that belongs to a panel. -/
def inside (left top width height : Nat) : Frame where
  left := left + margin + throughputLabelWidth
  top := top + margin + panelTitleHeight
  width := width - 2 * margin - throughputLabelWidth - 1
  height := height - 2 * margin - panelTitleHeight - threadLabelHeight - 1

/-- The frame of the panel at a position of a figure. -/
def ofFigure (figure : Figure) (index : Nat) : Frame :=
  let count := max 1 figure.panels.length
  let top := if figure.title.isSome then figureTitleHeight else 0
  let width := figure.width.toNat
  let height := figure.height.toNat - top
  match figure.layout with
  | .stacked => inside 0 (top + height / count * index) width (height / count)
  | .sideBySide => inside (width / count * index) top (width / count) height

end Frame

end ThroughputCharts

import ThroughputCharts.Drawing
import ThroughputCharts.Text.Xml

/-!
# Drawings as SVG

A drawing is written as one SVG image.  The points of each chart stand in its frame, with the titles and
the tick labels around it.
-/

namespace ThroughputCharts
namespace Svg

/-- A rectangle of the image, in pixels from its upper left corner. -/
structure Box where
  left : Float
  top : Float
  right : Float
  bottom : Float

/-- The distance between a value and the start of its range, as a share of the range. -/
def share (range : Float × Float) (value : Float) : Float :=
  (value - range.1) / (range.2 - range.1)

def Box.ofFrame (frame : Frame) : Box where
  left := Float.ofNat frame.left
  top := Float.ofNat frame.top
  right := Float.ofNat (frame.left + frame.width)
  bottom := Float.ofNat (frame.top + frame.height)

def Box.across (box : Box) (range : Float × Float) (value : Float) : Float :=
  box.left + share range value * (box.right - box.left)

def Box.upward (box : Box) (range : Float × Float) (value : Float) : Float :=
  box.bottom - share range value * (box.bottom - box.top)

def number (value : Float) : String :=
  String.ofList (Decimal.fixedText 1 value)

def property (name value : String) : String :=
  " " ++ name ++ "=\"" ++ value ++ "\""

def element (tag : String) (attributes : List (String × String)) : String :=
  "<" ++ tag ++ String.join (attributes.map fun (name, value) => property name value) ++ "/>\n"

def textAt (position : String) (anchor : String) (fontSize : Nat) (text : String) : String :=
  if text = "" then
    ""
  else
    "<text" ++ position ++ property "text-anchor" anchor ++ property "font-family" "sans-serif" ++
      property "font-size" (Nat.repr fontSize) ++ ">" ++ Text.escapeMarkup text ++ "</text>\n"

def textElement (x y : Float) : (anchor : String) → (fontSize : Nat) → (text : String) → String :=
  textAt (property "x" (number x) ++ property "y" (number y))

def upwardTextElement (x y : Float) :
    (anchor : String) → (fontSize : Nat) → (text : String) → String :=
  textAt (property "transform" ("translate(" ++ number x ++ "," ++ number y ++ ") rotate(-90)"))

def polyline (color : Color) (width : Nat) (corners : List (Float × Float)) : String :=
  element "polyline"
    [("fill", "none"), ("stroke", color.hex), ("stroke-width", Nat.repr width),
      ("points", " ".intercalate (corners.map fun (x, y) => number x ++ "," ++ number y))]

def circle (color : Color) (center : Float × Float) : String :=
  element "circle"
    [("cx", number center.1), ("cy", number center.2), ("r", "4"), ("fill", color.hex)]

def corners (chart : Chart) (box : Box) (series : Series) : List (Float × Float) :=
  series.points.map fun (threads, throughput) =>
    (box.across chart.threadRange threads.toFloat, box.upward chart.throughputRange throughput)

def seriesElements (chart : Chart) (box : Box) (series : Series) : String :=
  let corners := corners chart box series
  polyline series.color Drawing.lineWidth corners ++
    String.join (corners.map (circle series.color))

/-- The line of a series in the legend, counted from the top. -/
def legendElements (box : Box) (series : Series) (line : Nat) : String :=
  let y := box.top + 15.0 + 18.0 * Float.ofNat line
  polyline series.color Drawing.lineWidth [(box.left + 10.0, y), (box.left + 30.0, y)] ++
    textElement (box.left + 38.0) (y + 4.0) "start" 13 series.variant

def axisElements (chart : Chart) (box : Box) : String :=
  polyline .black 1 [(box.left, box.top), (box.left, box.bottom), (box.right, box.bottom)] ++
    String.join (chart.throughputTicks.map fun tick =>
      textElement (box.left - 6.0) (box.upward chart.throughputRange tick.position + 4.0) "end" 13
        tick.label) ++
    String.join (chart.threadTicks.map fun tick =>
      textElement (box.across chart.threadRange tick.position) (box.bottom + 18.0) "middle" 13
        tick.label)

def chartElements (chart : Chart) : String :=
  let box := Box.ofFrame chart.frame
  let middle := (box.left + box.right) / 2.0
  textElement middle (box.top - 9.0) "middle" 20 chart.title ++
    upwardTextElement (box.left - 64.0) ((box.top + box.bottom) / 2.0) "middle" 16
      chart.throughputTitle ++
    textElement middle (box.bottom + 40.0) "middle" 16 Chart.threadTitle ++
    axisElements chart box ++
    String.join (chart.series.map (seriesElements chart box)) ++
    String.join (chart.series.zipIdx.map fun (series, line) => legendElements box series line)

def image (drawing : Drawing) : String :=
  "<svg" ++ property "width" (Nat.repr drawing.width.toNat) ++
    property "height" (Nat.repr drawing.height.toNat) ++ ">\n" ++
    element "rect" [("width", "100%"), ("height", "100%"), ("fill", "#FFFFFF")] ++
    textElement (Float.ofNat drawing.width.toNat / 2.0) 32.0 "middle" 32 (drawing.title.getD "") ++
    String.join (drawing.charts.map chartElements) ++
    "</svg>\n"

end Svg
end ThroughputCharts

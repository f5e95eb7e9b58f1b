import ThroughputCharts.Binary64.Integral

/-!
# Tick placement

Ticks stand at whole pixels.  One that falls outside the pixels of its axis, as a tick beyond the end
of a range can by the tolerance of its computation, is not drawn.
-/

namespace ThroughputCharts
namespace Axis

open Binary64

/-- The pixels of an axis: the first one, counted from the edge of the image, and the distance to the
last one. -/
structure Extent where
  first : Nat
  length : Nat
  deriving DecidableEq

/-- The pixel of a position, counted from the first one of its axis.  A position less than a
thousandth short of a pixel reaches it. -/
def pixel (start stop : Float) (length : Nat) (position : Float) : Float :=
  floor (Float.ofNat length * ((position - start) / (stop - start)) + 0.001)

/-- Whether a tick is on the pixels of its axis.  The tick of a range of one number is half the length
of the axis away from the edge of the image. -/
def isVisible (start stop : Float) (extent : Extent) (position : Float) : Bool :=
  if start == stop then
    decide (extent.first ≤ extent.length / 2)
  else
    let pixel := pixel start stop extent.length position
    decide (0.0 ≤ pixel) && decide (pixel ≤ Float.ofNat extent.length)

end Axis
end ThroughputCharts

import ThroughputCharts.Binary64.Integral
import ThroughputCharts.Binary64.Logarithm

/-!
# Tick positions

The ticks of an axis are the multiples of a step inside its range.  The step is a power of ten divided
by one, two or five, the smallest that does not give more ticks than asked for.

Neither the search for the step nor the loop over the ticks has a bound of its own.  Both go from one
number to the next, so that a run through as many numbers as there are has met one of them twice and
goes on for ever.  An axis on which that happens has no ticks.
-/

namespace ThroughputCharts
namespace Axis

open Binary64

/-- The gap between one and the next binary64 number, below which differences count as none. -/
def tolerance : Float := nearest false 1 (Nat.pow 2 52)

/-- The remainder of a floored division; one within the tolerance of the divisor counts as zero. -/
def remainder (number divisor : Float) : Float :=
  let rest := number - floor (number / divisor) * divisor
  if (rest - divisor).abs < tolerance then 0.0 else rest

def firstMultiple (start step : Float) : Float :=
  let left := start - remainder start step
  if left < start then left + step else left

def lastMultiple (stop step : Float) : Float :=
  stop - remainder stop step

/-- The step of an axis, and the grain to which tick positions are aligned. -/
structure Spacing where
  step : Float
  grain : Float

/-- Whether a step divided by a number gives more ticks than asked for. -/
def tooMany (start stop : Float) (limit : Nat) (step division : Float) : Bool :=
  let part := step / division
  let count := round (1.0 + (lastMultiple stop part - firstMultiple start part) / step * division)
  decide (Float.ofNat limit < count)

/-- The last division of a step, in the order given, before the first that gives too many ticks, and
whether all of them fit. -/
def divide (start stop : Float) (limit : Nat) (step : Float) :
    List Float → Float → Float × Bool
  | [], best => (best, true)
  | division :: rest, best =>
    if tooMany start stop limit step division then
      (best, false)
    else
      divide start stop limit step rest (step / division)

/-- The spacing that the search for a step starts from. -/
def coarse (length : Float) (limit : Nat) : Spacing :=
  let scale := scale length
  if Float.ofNat limit < 1.0 + floor (length / scale) then
    ⟨scale * 10.0, scale / 10.0 * 10.0⟩
  else
    ⟨scale, scale / 10.0⟩

/-- Refines the spacing tenfold as long as every division of the step fits. -/
def refine (start stop : Float) (limit : Nat) : Nat → Spacing → Option Spacing
  | 0, _ => none
  | fuel + 1, spacing =>
    match divide start stop limit spacing.step [2.0, 5.0, 10.0] spacing.step with
    | (step, false) => some { spacing with step }
    | (step, true) => refine start stop limit fuel ⟨step, spacing.grain / 10.0⟩

/-- There are no more binary64 numbers than this. -/
@[irreducible]
def numberCount : Nat := Nat.pow 2 64

theorem numberCount_eq : numberCount = Nat.pow 2 64 := by
  rw [numberCount]

/-- The spacing of an axis from its range and its greatest number of ticks. -/
def spacing (start stop : Float) (limit : Nat) : Option Spacing :=
  refine start stop limit numberCount (coarse (stop - start) limit)

/-- An offset, or the one behind it if its nearest multiple of the grain is negative. -/
def aligned (grain offset : Float) : Float :=
  if round (offset / grain) * grain < 0.0 then offset + grain else offset

/-- The positions from an offset to the last multiple of the step; `base` is added to each. -/
def positions (base last : Float) (spacing : Spacing) : Nat → Float → Option (List Float)
  | 0, _ => none
  | fuel + 1, offset =>
    if -tolerance ≤ last - offset - base then
      let position := aligned spacing.grain offset
      (positions base last spacing fuel (position + spacing.step)).map ((position + base) :: ·)
    else
      some []

/-- The ticks of a range, at most about `limit` of them. -/
def ticks (start stop : Float) (limit : Nat) : Option (List Float) :=
  if (start - stop).abs < tolerance then
    some [start]
  else do
    let spacing ← spacing start stop limit
    let first := firstMultiple start spacing.step
    let last := lastMultiple stop spacing.step
    let base := floor (first / spacing.grain) * spacing.grain
    positions base last spacing numberCount (first - base)

end Axis
end ThroughputCharts

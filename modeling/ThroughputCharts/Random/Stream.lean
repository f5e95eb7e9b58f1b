import ThroughputCharts.Random.Block

/-!
# Random draws

A stream hands out the words of successive blocks in pairs, the low half of a draw first.  Booleans,
numbers from an interval and whole numbers from a range are made from such draws.
-/

namespace ThroughputCharts
namespace Random

/-- What is still to come of a stream: the draws left of the last block, and the next block. -/
structure Stream where
  key : Vector UInt32 8
  nextBlock : UInt64
  pending : List UInt64

namespace Stream

def ofSeed (seed : UInt64) : Stream :=
  { key := keyOfSeed seed, nextBlock := 0, pending := [] }

/-- The draws that words give in pairs. -/
def pairs : List UInt32 → List UInt64
  | low :: high :: rest => (high.toUInt64 <<< 32 ||| low.toUInt64) :: pairs rest
  | _ => []

def next (stream : Stream) : UInt64 × Stream :=
  match stream.pending with
  | draw :: pending => (draw, { stream with pending })
  | [] =>
    let draws := pairs (block stream.key stream.nextBlock)
    (draws.headD 0, { stream with nextBlock := stream.nextBlock + 1, pending := draws.tail })

/-- The number of the draws whose scaled value is below a probability. -/
def threshold (probability : Float) : UInt64 :=
  (probability * Float.ofNat UInt64.size).toUInt64

/-- Decides an event of a given probability; a certain one takes no draw. -/
def chance (probability : Float) (stream : Stream) : Bool × Stream :=
  if probability == 1.0 then
    (true, stream)
  else
    let (draw, rest) := stream.next
    (decide (draw < threshold probability), rest)

/-- A draw as a number from zero up to one, in steps of `2 ^ (-52)`. -/
def unit (draw : UInt64) : Float :=
  (1.0 + (draw >>> 12).toFloat / Float.ofNat (Nat.pow 2 52)) - 1.0

/-- The number of rejected draws after which the next is taken as it is; a stream that rejects as
often is out of reach. -/
def rejections : Nat := 65536

/-- A number from `low` up to but without `high`; one that rounding takes to `high` is drawn again. -/
def between (low high : Float) : Nat → Stream → Float × Stream
  | fuel, stream =>
    let (draw, rest) := stream.next
    let number := unit draw * (high - low) + low
    match fuel with
    | 0 => (number, rest)
    | fuel + 1 => if number < high then (number, rest) else between low high fuel rest

/-- The greatest low half of a product that is accepted when drawing below a bound: one less than the
bound shifted to the top of the word. -/
def acceptance (bound : UInt64) : Nat :=
  bound.toNat * Nat.pow 2 (63 - bound.toNat.log2) - 1

/-- A whole number below a bound: the high half of the draw times the bound, drawn again while the
low half is above the acceptance bound. -/
def below (bound : UInt64) : Nat → Stream → Nat × Stream
  | fuel, stream =>
    let (draw, rest) := stream.next
    let product := draw.toNat * bound.toNat
    match fuel with
    | 0 => (product / UInt64.size, rest)
    | fuel + 1 =>
      if product % UInt64.size ≤ acceptance bound then
        (product / UInt64.size, rest)
      else
        below bound fuel rest

end Stream
end Random
end ThroughputCharts
